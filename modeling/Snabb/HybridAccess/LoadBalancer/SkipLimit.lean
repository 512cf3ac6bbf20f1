import Snabb.HybridAccess.LoadBalancer.DdcPlacement
import Mathlib.Data.List.Infix

/-!
# The DDC skip limit (`tokenbucket_ddc_series.lua`)

With `ddc_skip_limit = k`, no more than `k` data packets are to go out in a row on one output
without a DDC packet. A push counts them from zero, so a row can go on from one push to the next: it
is broken there only on an output whose first packet of a push takes a DDC packet with it.

- `short_iff`: rows that are too long, found with a counter.
- `onPort_plan`: what a push adds on an output.
- `skip_limit`: when no row of a run is too long.
-/

namespace Snabb

open Foundation LoadBalancer List

/-! ## Rows -/

section Rows

/-- The counter runs up at each `false`, starts again behind a `true` and stays within the bound. -/
def Short (k : Nat) : Nat → List Bool → Prop
  | _, [] => True
  | _, true :: xs => Short k 0 xs
  | t, false :: xs => t < k ∧ Short k (t + 1) xs

/-- The counter at the end. -/
def openRow : Nat → List Bool → Nat
  | t, [] => t
  | _, true :: xs => openRow 0 xs
  | t, false :: xs => openRow (t + 1) xs

variable {k t : Nat} {xs ys : List Bool}

theorem infix_behind_true (ht : t ≤ k) :
    List.replicate (k + 1) false <:+: List.replicate t false ++ true :: xs ↔
      List.replicate (k + 1) false <:+: xs := by
  -- A row cannot reach over the `true`.
  have hprefix t (ht : t ≤ k) :
      ¬ List.replicate (k + 1) false <+: List.replicate t false ++ true :: xs := by
    intro h
    have hlt : t < (List.replicate (k + 1) false).length := by
      rw [length_replicate]
      exact Nat.lt_succ_of_le ht
    have hget := h.getElem hlt
    simp at hget
  induction t with
  | zero =>
    have hnot := hprefix 0 ht
    rw [replicate_zero, nil_append] at hnot ⊢
    rw [infix_cons_iff, or_iff_right hnot]
  | succ t ih =>
    have hnot := hprefix (t + 1) ht
    have hcons : List.replicate (t + 1) false ++ true :: xs =
        false :: (List.replicate t false ++ true :: xs) := rfl
    rw [hcons] at hnot ⊢
    rw [infix_cons_iff, or_iff_right hnot]
    exact ih (Nat.le_of_succ_le ht)

/-- **The counter** stays within the bound if and only if no row is longer. -/
theorem short_iff (ht : t ≤ k) :
    Short k t xs ↔ ¬ List.replicate (k + 1) false <:+: List.replicate t false ++ xs := by
  induction xs generalizing t with
  | nil =>
    refine iff_of_true trivial fun h => ?_
    have hle := h.length_le
    simp only [append_nil, length_replicate] at hle
    omega
  | cons x xs ih =>
    cases x with
    | true =>
      rw [infix_behind_true ht, Short, ih (Nat.zero_le k), replicate_zero, nil_append]
    | false =>
      have hmove : List.replicate t false ++ false :: xs = List.replicate (t + 1) false ++ xs := by
        rw [replicate_succ', append_assoc]
        rfl
      rw [hmove, Short]
      by_cases hlt : t < k
      · rw [and_iff_right hlt, ih hlt]
      · obtain rfl : t = k := by omega
        exact iff_of_false (fun h => hlt h.1) (not_not_intro (prefix_append _ _).isInfix)

theorem short_append : Short k t (xs ++ ys) ↔ Short k t xs ∧ Short k (openRow t xs) ys := by
  induction xs generalizing t with
  | nil => exact (and_iff_right trivial).symm
  | cons x xs ih =>
    cases x with
    | true => exact ih
    | false =>
      rw [cons_append, Short, Short, ih, and_assoc]
      rfl

theorem openRow_le (ht : t ≤ k) (h : Short k t xs) : openRow t xs ≤ k := by
  induction xs generalizing t with
  | nil => exact ht
  | cons x xs ih =>
    cases x with
    | true => exact ih (Nat.zero_le k) h
    | false => exact ih h.1 h.2

end Rows

/-! ## The data packets on an output -/

namespace LoadBalancer

/-- The data packets of a log: whether the entry in front of each is its DDC packet, and its
output. -/
def sendings (c : Codec) : Bool → List Tx → List (Bool × LinkNo)
  | _, [] => []
  | ddc, tx :: log =>
    if tx.isDdc c then sendings c true log else (ddc, tx.port) :: sendings c false log

/-- For each packet on an output, whether a DDC packet went with it. -/
def onPort (port : LinkNo) (ways : List (Bool × LinkNo)) : List Bool :=
  (ways.filter fun way => way.2 = port).map Prod.fst

variable {fresh : Nat → Packet} {now : ℚ} {c : Codec} {lb lb₁ : LoadBalancer} {p : Packet}
  {ps : List Packet} {ways : List (Bool × LinkNo)}

theorem onPort_append (port : LinkNo) (ways ways' : List (Bool × LinkNo)) :
    onPort port (ways ++ ways') = onPort port ways ++ onPort port ways' := by
  rw [onPort, filter_append, map_append]
  rfl

variable {ddc : Bool} {log : List Tx} {tx : Tx}

theorem sendings_ddc (h : tx.isDdc c = true) :
    sendings c ddc (tx :: log) = sendings c true log := by
  rw [sendings, if_pos h]

theorem sendings_data (h : tx.isDdc c = false) :
    sendings c ddc (tx :: log) = (ddc, tx.port) :: sendings c false log := by
  rw [sendings, h]
  rfl

/-- **One send** leaves one data packet, with its DDC packet or without. -/
theorem send_sendings {port : LinkNo} (h : Numbers c lb)
    (hsend : lb.send fresh now ddc port p = .ok lb₁) :
    Numbers c lb₁ ∧ ∃ log, lb₁.transmitted = lb.transmitted ++ log ∧
      ∀ rest, sendings c false (log ++ rest) = (ddc, port) :: sendings c false rest := by
  refine ⟨(send_ddc h hsend).1, ?_⟩
  obtain ⟨rfl, hlt⟩ := h
  have hmod : lb.sequenceNumber = lb.sequenceNumber % 2 ^ 64 := (Nat.mod_eq_of_lt hlt).symm
  cases ddc with
  | false =>
    obtain ⟨q, hq, rfl⟩ := sendPkt_eq_ok hsend
    rw [hmod] at hq
    refine ⟨_, rfl, fun rest => ?_⟩
    rw [singleton_append, sendings_data (data_entry hq).2.2]
  | true =>
    obtain ⟨d, q, hd, hq, rfl⟩ :=
      sendPktWithDdc_eq_ok hsend
    rw [hmod] at hd
    refine ⟨_, append_assoc _ _ _, fun rest => ?_⟩
    rw [append_assoc, singleton_append, singleton_append,
      sendings_ddc (ddc_entry hd).2.2, sendings_data (data_entry hq).2.2]

/-- **Sends** leave data packets as they were sent. -/
theorem SendsAs.sendings (hsends : SendsAs fresh now lb ps ways lb₁) (h : Numbers c lb) :
    Numbers c lb₁ ∧ ∃ log, lb₁.transmitted = lb.transmitted ++ log ∧
      ∀ rest, LoadBalancer.sendings c false (log ++ rest) =
        ways ++ LoadBalancer.sendings c false rest := by
  induction hsends with
  | nil lb => exact ⟨h, [], (append_nil _).symm, fun _ => rfl⟩
  | @cons lb lb₁ lb₂ p ps ddc port ways hsend _ ih =>
    obtain ⟨h₁, log₁, hlog₁, hways₁⟩ := send_sendings h hsend
    obtain ⟨h₂, log₂, hlog₂, hways₂⟩ := ih h₁
    refine ⟨h₂, log₁ ++ log₂, by rw [hlog₂, hlog₁, append_assoc], fun rest => ?_⟩
    rw [append_assoc, hways₁, hways₂, cons_append]

end LoadBalancer

namespace TokenBucketDDCSeries

variable {fresh : Nat → Packet} {now : ℚ} {c : Codec} {o o' : TokenBucketDDCSeries}
  {ps : List Packet} {inp : LoadBalancerInput} {port : LinkNo} {k : Nat}

/-- Whether the first packet of a push on an output takes a DDC packet with it: `send_ddc_2` for
output 1, and `send_ddc_1` for output 2. -/
def startsWithDdc (o : TokenBucketDDCSeries) : LinkNo → Bool
  | .one => o.ddcLink == 2 || o.ddcLink == 0
  | .two => o.ddcLink == 1 || o.ddcLink == 0

/-- The packets of one push on one output, from the value of `send_index_1` or `send_index_2` on. -/
def flags (maySkip : Nat → Bool) : Bool → Nat → Nat → List Bool
  | _, _, 0 => []
  | sendDdc, sendIndex, m + 1 =>
    if !sendDdc && maySkip sendIndex then false :: flags maySkip sendDdc (sendIndex + 1) m
    else true :: flags maySkip false 1 m

theorem onPort_restPlan (ps : List Packet) (n : Nat) :
    onPort .one (restPlan o.maySkip ps n) = [] ∧
      onPort .two (restPlan o.maySkip ps n) = flags o.maySkip false n ps.length := by
  induction ps generalizing n with
  | nil => exact ⟨rfl, rfl⟩
  | cons p ps ih =>
    unfold restPlan
    rw [length_cons, flags, Bool.not_false, Bool.true_and]
    by_cases hskip : o.maySkip n = true
    · rw [hskip]
      exact ⟨(ih (n + 1)).1, congrArg (false :: ·) (ih (n + 1)).2⟩
    · rw [Bool.eq_false_of_not_eq_true hskip]
      exact ⟨(ih 1).1, congrArg (true :: ·) (ih 1).2⟩

theorem onPort_one_fittingPlan (sendDdc1 sendDdc2 : Bool) (ps : List Packet) (n : Nat) (k : ℚ) :
    onPort .one (fittingPlan o.maySkip o.pktLength sendDdc1 ps sendDdc2 n k).1 =
      flags o.maySkip sendDdc2 n (paid o.pktLength ps k) := by
  induction ps generalizing sendDdc2 n k with
  | nil => rfl
  | cons p ps ih =>
    unfold fittingPlan paid
    by_cases hfits : o.pktLength p ≤ k
    · rw [if_pos hfits, if_pos hfits, flags]
      by_cases hskip : (!sendDdc2 && o.maySkip n) = true
      · simp only [hskip]
        exact congrArg (false :: ·) (ih sendDdc2 (n + 1) _)
      · simp only [Bool.eq_false_of_not_eq_true hskip]
        exact congrArg (true :: ·) (ih false 1 _)
    · rw [if_neg hfits, if_neg hfits]
      rfl

theorem onPort_two_fittingPlan (sendDdc1 sendDdc2 : Bool) (ps : List Packet) (n : Nat) (k : ℚ) :
    onPort .two (fittingPlan o.maySkip o.pktLength sendDdc1 ps sendDdc2 n k).1 =
      if paid o.pktLength ps k < ps.length then [!(!sendDdc1 && o.maySkip 0)] else [] := by
  induction ps generalizing sendDdc2 n k with
  | nil => rfl
  | cons p ps ih =>
    unfold fittingPlan paid
    by_cases hfits : o.pktLength p ≤ k
    · rw [if_pos hfits, if_pos hfits, length_cons]
      simp only [Nat.add_lt_add_iff_right]
      exact ih _ _ _
    · rw [if_neg hfits, if_neg hfits]
      rfl

/-- **What a push adds on an output** is determined by the number of frames that go there. -/
theorem onPort_plan (o : TokenBucketDDCSeries) (inp : LoadBalancerInput) (port : LinkNo) :
    onPort port (o.plan inp) = flags o.maySkip (o.startsWithDdc port) 0 (o.framesOn inp port) := by
  have hplan : o.plan inp =
      (fittingPlan o.maySkip o.pktLength (o.startsWithDdc .two) inp.input.packets
        (o.startsWithDdc .one) 0 (o.refill inp.now).contingent).1 ++
      restPlan o.maySkip (inp.input.packets.drop (o.paidIn inp + 1))
        (if o.paidIn inp < inp.input.packets.length then 1 else 0) := plan_eq o inp
  rw [hplan, onPort_append]
  have hpaid : o.paidIn inp =
      paid o.pktLength inp.input.packets (o.refill inp.now).contingent := rfl
  cases port with
  | one =>
    rw [onPort_one_fittingPlan, (onPort_restPlan _ _).1, append_nil]
    rfl
  | two =>
    have hframes : o.framesOn inp .two = inp.input.packets.length - o.paidIn inp := rfl
    rw [onPort_two_fittingPlan, (onPort_restPlan _ _).2, length_drop, hframes, ← hpaid]
    by_cases hlt : o.paidIn inp < inp.input.packets.length
    · have hone : inp.input.packets.length - o.paidIn inp =
          inp.input.packets.length - (o.paidIn inp + 1) + 1 := by omega
      rw [if_pos hlt, if_pos hlt, hone, flags]
      cases o.startsWithDdc .two with
      | true => rfl
      | false =>
        rw [maySkip_zero]
        rfl
    · have hnone : inp.input.packets.length - o.paidIn inp = 0 := by omega
      have hnone' : inp.input.packets.length - (o.paidIn inp + 1) = 0 := by omega
      rw [if_neg hlt, hnone, hnone']
      rfl

/-! ## The limit -/

variable {maySkip : Nat → Bool}

/-- **The counter of a push** begins at zero, so a row that is open already has to end before the
frames of the push, or go on with few of them. -/
theorem short_flags (hskip : ∀ n, maySkip n = true ↔ n < k) {t n m : Nat}
    (ht : t ≤ k) (hn : n ≤ k) (hk : 0 < k) :
    Short k t (flags maySkip false n m) ↔ t ≤ n ∨ t + m ≤ k := by
  induction m generalizing t n with
  | zero => exact iff_of_true trivial (.inr ht)
  | succ m ih =>
    rw [flags, Bool.not_false, Bool.true_and]
    by_cases hlt : n < k
    · rw [if_pos ((hskip n).mpr hlt), Short]
      by_cases htk : t < k
      · rw [ih htk hlt]
        omega
      · exact iff_of_false (fun h => htk h.1) (by omega)
    · rw [if_neg (mt (hskip n).mp hlt), Short, ih (Nat.zero_le k) hk]
      omega

theorem short_flags_ddc (hskip : ∀ n, maySkip n = true ↔ n < k) {t m : Nat}
    (hk : 0 < k) : Short k t (flags maySkip true 0 m) := by
  cases m with
  | zero => exact trivial
  | succ m => exact (short_flags hskip (Nat.zero_le k) hk hk).mpr (.inl (Nat.zero_le 1))

/-- The data packets that went out on an output, and whether a DDC packet went with each. -/
def sentOn (c : Codec) (port : LinkNo) (o : TokenBucketDDCSeries) : List Bool :=
  onPort port (sendings c false o.transmitted)

/-- On each output at most `k` data packets were sent in a row without a DDC packet. -/
def RowsWithin (c : Codec) (k : Nat) (o : TokenBucketDDCSeries) : Prop :=
  ∀ port, ¬ List.replicate (k + 1) false <:+: o.sentOn c port

/-- On each output the first frame of the push takes a DDC packet with it, or the last data packet
had one, or the frames of the push fit into the row that is open. -/
def Resumes (c : Codec) (k : Nat) (o : TokenBucketDDCSeries) (inp : LoadBalancerInput) : Prop :=
  ∀ port, o.startsWithDdc port = true ∨ openRow 0 (o.sentOn c port) = 0 ∨
    openRow 0 (o.sentOn c port) + o.framesOn inp port ≤ k

/-- A load balancer with the skip limit `k`, between two pushes. -/
structure Limited (c : Codec) (k : Nat) (o : TokenBucketDDCSeries) : Prop where
  numbers : Numbers c o.toLoadBalancer
  ddcSkipLimit : o.ddcSkipLimit = k
  /-- The log does not end with a DDC packet. -/
  closed : ∀ rest, sendings c false (o.transmitted ++ rest) =
    sendings c false o.transmitted ++ sendings c false rest

/-- **A push** sends on each output what is planned there. -/
theorem push_sentOn (h : Limited c k o) (hpush : o.push fresh inp = .ok o') :
    Limited c k o' ∧ ∀ port, o'.sentOn c port =
      o.sentOn c port ++ flags o.maySkip (o.startsWithDdc port) 0 (o.framesOn inp port) := by
  obtain ⟨hsends, hsame⟩ := push_sendsAs hpush
  have hstart : Numbers c (o.drained inp) := ⟨h.numbers.codec, h.numbers.seqNo_lt⟩
  obtain ⟨hnumbers, log, hlog, hways⟩ := hsends.sendings hstart
  have hlog : o'.transmitted = o.transmitted ++ log := hlog
  have hall rest : sendings c false (o'.transmitted ++ rest) =
      sendings c false o.transmitted ++ (o.plan inp ++ sendings c false rest) := by
    rw [hlog, append_assoc, h.closed, hways]
  have hnew : sendings c false o'.transmitted =
      sendings c false o.transmitted ++ o.plan inp := by
    have hnil := hall []
    rwa [append_nil, sendings, append_nil] at hnil
  refine ⟨⟨hnumbers, hsame.ddcSkipLimit.trans h.ddcSkipLimit, fun rest => ?_⟩, fun port => ?_⟩
  · rw [hall, hnew, append_assoc]
  · rw [sentOn, hnew, onPort_append, onPort_plan]
    rfl

/-- **A push** keeps the rows short if and only if it resumes them so. -/
theorem push_rowsWithin_iff (hk : 0 < k) (h : Limited c k o) (hrows : RowsWithin c k o)
    (hpush : o.push fresh inp = .ok o') : RowsWithin c k o' ↔ Resumes c k o inp := by
  have hskip n : o.maySkip n = true ↔ n < k := by
    rw [maySkip_iff, h.ddcSkipLimit]
    omega
  refine forall_congr' fun port => ?_
  have hshort : Short k 0 (o.sentOn c port) := (short_iff (Nat.zero_le k)).mpr (hrows port)
  have hle := openRow_le (Nat.zero_le k) hshort
  have hiff : Short k 0 (o'.sentOn c port) ↔
      ¬ List.replicate (k + 1) false <:+: o'.sentOn c port := short_iff (Nat.zero_le k)
  rw [← hiff, (push_sentOn h hpush).2, short_append, and_iff_right hshort]
  cases o.startsWithDdc port with
  | true => exact iff_of_true (short_flags_ddc hskip hk) (.inl rfl)
  | false =>
    rw [short_flags hskip hle (Nat.zero_le k) hk, Nat.le_zero, or_iff_right Bool.false_ne_true]

/-- `TokenBucketDDCSeries:new`, for any `ddc_link`. -/
def newAt (c : Codec) (conf : TokenBucketConf) (ddcLink : Nat) (ddcSkipLimit : Int) :
    TokenBucketDDCSeries where
  toTokenBucket := .new (.new c) conf
  ddcLink := ddcLink
  ddcSkipLimit := ddcSkipLimit

theorem limited_newAt (c : Codec) (conf : TokenBucketConf) (ddcLink k : Nat) :
    Limited c k (newAt c conf ddcLink k) ∧ RowsWithin c k (newAt c conf ddcLink k) := by
  refine ⟨⟨⟨rfl, Nat.two_pow_pos 64⟩, rfl, fun _ => rfl⟩, fun port h => ?_⟩
  have hle : (List.replicate (k + 1) false).length ≤ 0 := h.length_le
  rw [length_replicate] at hle
  exact Nat.not_succ_le_zero k hle

/-- **The skip limit.** In a run whose pushes resume the open rows within the limit, at most
`ddc_skip_limit` data packets go out in a row on an output without a DDC packet. If the frames can
be sent, there is no other such run. -/
theorem skip_limit (fresh : Nat → Packet) (c : Codec) (conf : TokenBucketConf) (ddcLink : Nat)
    {k : Nat} (hk : 0 < k) (inputs : List LoadBalancerInput) :
    (Along (push fresh) (Resumes c k) (newAt c conf ddcLink k) inputs →
      ∀ j o', run (push fresh) (newAt c conf ddcLink k) (inputs.take j) = .ok o' →
        RowsWithin c k o') ∧
    ((∀ p ∈ frames inputs, Sendable c true p) →
      (∀ j o', run (push fresh) (newAt c conf ddcLink k) (inputs.take j) = .ok o' →
        RowsWithin c k o') → Along (push fresh) (Resumes c k) (newAt c conf ddcLink k) inputs) := by
  obtain ⟨hlimited, hrows⟩ := limited_newAt c conf ddcLink k
  have hrule := good_prefixes inputs
    (fun o inp o' h hpush => (push_sentOn h hpush).1)
    (fun o inp o' h hrows hpush => push_rowsWithin_iff hk h hrows hpush)
    (fun o inp h (hps : ∀ p ∈ inp.input.packets, Sendable c true p) =>
      push_isOk fresh h.numbers.codec hps) hlimited hrows
  exact ⟨hrule.1, fun hsendable => hrule.2 fun inp hinp p hp =>
    hsendable p (mem_flatMap.mpr ⟨inp, hinp, hp⟩)⟩

/-- Two frames in two pushes go to output 1, as many as the limit allows. -/
theorem skip_limit_two :
    (0 < 2 ∧ Along (push ordinaryFrame) (Resumes .eth 2) (newAt .eth .sample 1 (2 : Nat))
        [.finding 0 0 [60], .finding 0 1 [60]]) ∧
      ∀ j o', run (push ordinaryFrame) (newAt .eth .sample 1 (2 : Nat))
          ([LoadBalancerInput.finding 0 0 [60], .finding 0 1 [60]].take j) = .ok o' →
        RowsWithin .eth 2 o' := by
  have hfirst : Resumes .eth 2 (newAt .eth .sample 1 (2 : Nat)) (.finding 0 0 [60]) := by
    intro port
    cases port <;> decide +kernel
  obtain ⟨o₁, hpush, hrow⟩ := ok_of_any (q := fun o =>
      decide (openRow 0 (o.sentOn .eth .one) + o.framesOn (.finding 0 1 [60]) .one ≤ 2) &&
      decide (openRow 0 (o.sentOn .eth .two) + o.framesOn (.finding 0 1 [60]) .two ≤ 2))
    (by decide +kernel : (push ordinaryFrame (newAt .eth .sample 1 (2 : Nat))
      (.finding 0 0 [60])).toOption.any _ = true)
  obtain ⟨hone, htwo⟩ := Bool.and_eq_true_iff.mp hrow
  have hsecond : Resumes .eth 2 o₁ (.finding 0 1 [60]) := by
    intro port
    cases port with
    | one => exact .inr (.inr (of_decide_eq_true hone))
    | two => exact .inr (.inr (of_decide_eq_true htwo))
  have halong : Along (push ordinaryFrame) (Resumes .eth 2) (newAt .eth .sample 1 (2 : Nat))
      [.finding 0 0 [60], .finding 0 1 [60]] := by
    rw [along_cons_ok hpush]
    exact ⟨hfirst, hsecond, fun _ _ => trivial⟩
  exact ⟨⟨by decide, halong⟩, (skip_limit ordinaryFrame .eth .sample 1 (by decide) _).1 halong⟩

/-- With the limit 1, two frames in two pushes both go out on output 1 without a DDC packet. -/
theorem row_over_two_pushes :
    ∃ o', run (push ordinaryFrame) (newAt .eth .sample 1 (1 : Nat))
        [.finding 0 0 [60], .finding 0 1 [60]] = .ok o' ∧
      o'.sentOn .eth .one = [false, false] ∧ ¬ RowsWithin .eth 1 o' := by
  refine exists_ok_of_any (fun o => o.sentOn .eth .one = [false, false])
    (by decide +kernel) fun o' hrun hsent => ?_
  refine ⟨hsent, fun hrows => hrows .one ?_⟩
  rw [hsent]
  exact infix_refl _

end TokenBucketDDCSeries

end Snabb
