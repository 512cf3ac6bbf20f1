import Snabb.HybridAccess.LoadBalancer.Discipline

/-!
# The outputs of the DDC packets (`tokenbucket_ddc_series.lua`)

`ddc_link` is the output on which DDC packets go out, and `ddc_skip_limit` says after how many
packets on one output a DDC packet has to follow on the other. The two meet where many packets go to
the output number `ddc_link` itself: a DDC packet that the limit asks for is on the other output then.

How a push sends its frames is decided by the lengths of the frames and the bucket alone. `plan` is
this decision, and what the log says of DDC packets can be read off it.

- `push_sendsAs`: a push sends the waiting frames as planned.
- `mem_plan`: when a DDC packet is planned for the other output.
- `ddc_placement`: when all DDC packets of a run are on output `ddc_link`.
-/

namespace Snabb

open Foundation LoadBalancer List

/-- The number of an output. -/
def LinkNo.number : LinkNo → Nat
  | one => 1
  | two => 2

namespace LoadBalancer

/-! ## Sends that are known -/

/-- Frames are sent one after the other, each with a DDC packet or without and on some output. -/
inductive SendsAs (fresh : Nat → Packet) (now : ℚ) :
    LoadBalancer → List Packet → List (Bool × LinkNo) → LoadBalancer → Prop where
  | nil (lb : LoadBalancer) : SendsAs fresh now lb [] [] lb
  | cons {lb lb₁ lb₂ : LoadBalancer} {p : Packet} {ps : List Packet} {ddc : Bool} {port : LinkNo}
      {ways : List (Bool × LinkNo)} (hsend : lb.send fresh now ddc port p = .ok lb₁)
      (hrest : SendsAs fresh now lb₁ ps ways lb₂) :
      SendsAs fresh now lb (p :: ps) ((ddc, port) :: ways) lb₂

variable {fresh : Nat → Packet} {now : ℚ} {c : Codec} {lb lb₁ lb₂ : LoadBalancer} {p : Packet}
  {ps qs : List Packet} {ways ways' : List (Bool × LinkNo)}

theorem SendsAs.append (h₁ : SendsAs fresh now lb ps ways lb₁)
    (h₂ : SendsAs fresh now lb₁ qs ways' lb₂) :
    SendsAs fresh now lb (ps ++ qs) (ways ++ ways') lb₂ := by
  induction h₁ with
  | nil => exact h₂
  | cons hsend _ ih => exact .cons hsend (ih h₂)

/-- The codec of a load balancer, and its counter as a number of 64 bits. -/
structure Numbers (c : Codec) (lb : LoadBalancer) : Prop where
  codec : lb.hybridAccess = c
  seqNo_lt : lb.sequenceNumber < 2 ^ 64

/-- **One send** puts a DDC packet on the other output, or none on any. -/
theorem send_ddc {ddc : Bool} {port : LinkNo} (h : Numbers c lb)
    (hsend : lb.send fresh now ddc port p = .ok lb₁) :
    Numbers c lb₁ ∧ ∃ log, lb₁.transmitted = lb.transmitted ++ log ∧
      ∀ port', (∃ tx ∈ log, tx.isDdc c ∧ tx.port = port') ↔ ddc = true ∧ port' = port.other := by
  obtain ⟨rfl, hlt⟩ := h
  cases ddc with
  | false =>
    obtain ⟨q, hq, rfl⟩ := sendPkt_eq_ok hsend
    refine ⟨⟨rfl, Nat.mod_lt _ (Nat.two_pow_pos 64)⟩, _, rfl, fun port' => ?_⟩
    have hdata := Codec.getHeader_of_addHeader hq hlt (htons_lt _)
    refine iff_of_false ?_ fun h => Bool.noConfusion h.1
    rintro ⟨tx, htx, hddc, -⟩
    rw [mem_singleton.mp htx, Tx.isDdc, hdata] at hddc
    cases hddc
  | true =>
    obtain ⟨d, q, hd, hq, rfl⟩ :=
      sendPktWithDdc_eq_ok hsend
    refine ⟨⟨rfl, Nat.mod_lt _ (Nat.two_pow_pos 64)⟩, _, append_assoc _ _ _, fun port' => ?_⟩
    have hddc := (Codec.getHeader_of_makeDdcPacket hd hlt).2.2
    have hdata := Codec.getHeader_of_addHeader hq (Nat.mod_lt _ (Nat.two_pow_pos 64)) (htons_lt _)
    rw [eq_self_iff_true, true_and]
    constructor
    · rintro ⟨tx, htx, hisDdc, rfl⟩
      rcases mem_append.mp htx with htx | htx
      · rw [mem_singleton.mp htx]
      · rw [mem_singleton.mp htx, Tx.isDdc, hdata] at hisDdc
        cases hisDdc
    · rintro rfl
      refine ⟨_, mem_append_left _ (mem_singleton_self _), ?_, rfl⟩
      rw [Tx.isDdc, hddc]
      rfl

/-- **The outputs of the DDC packets** are those that the frames were not sent on. -/
theorem SendsAs.ddc (hsends : SendsAs fresh now lb ps ways lb₁) (h : Numbers c lb) :
    Numbers c lb₁ ∧ ∃ log, lb₁.transmitted = lb.transmitted ++ log ∧
      ∀ port, (∃ tx ∈ log, tx.isDdc c ∧ tx.port = port) ↔ (true, port.other) ∈ ways := by
  induction hsends with
  | nil lb =>
    refine ⟨h, [], (append_nil _).symm, fun port => ?_⟩
    simp
  | @cons lb lb₁ lb₂ p ps ddc port ways hsend _ ih =>
    obtain ⟨h₁, log₁, hlog₁, hddc₁⟩ := send_ddc h hsend
    obtain ⟨h₂, log₂, hlog₂, hddc₂⟩ := ih h₁
    refine ⟨h₂, log₁ ++ log₂, by rw [hlog₂, hlog₁, append_assoc], fun port' => ?_⟩
    have hother : port'.other = port ↔ port' = port.other :=
      ⟨fun heq => by rw [← heq, LinkNo.other_other], fun heq => by rw [heq, LinkNo.other_other]⟩
    rw [mem_cons, Prod.mk.injEq, hother, eq_comm (a := true), ← hddc₁, ← hddc₂]
    constructor
    · rintro ⟨tx, htx, hrest⟩
      exact (mem_append.mp htx).imp (fun htx => ⟨tx, htx, hrest⟩) fun htx => ⟨tx, htx, hrest⟩
    · rintro (⟨tx, htx, hrest⟩ | ⟨tx, htx, hrest⟩)
      · exact ⟨tx, mem_append_left _ htx, hrest⟩
      · exact ⟨tx, mem_append_right _ htx, hrest⟩

end LoadBalancer

namespace TokenBucketDDCSeries

/-! ## How the frames are sent -/

section Plan

variable (maySkip : Nat → Bool) (cost : Packet → ℚ)

/-- How the first loop sends, with `send_index_2` and what it leaves. -/
def fittingPlan (sendDdc1 : Bool) :
    List Packet → Bool → Nat → ℚ → List (Bool × LinkNo) × Nat × List Packet
  | [], _, _, _ => ([], 0, [])
  | p :: rest, sendDdc2, sendIndex1, contingent =>
    if cost p ≤ contingent then
      let skip := !sendDdc2 && maySkip sendIndex1
      let (ways, behind) := fittingPlan sendDdc1 rest (if skip then sendDdc2 else false)
        (if skip then sendIndex1 + 1 else 1) (contingent - cost p)
      ((!skip, .one) :: ways, behind)
    else ([(!(!sendDdc1 && maySkip 0), .two)], 1, rest)

/-- How the second loop sends. -/
def restPlan : List Packet → Nat → List (Bool × LinkNo)
  | [], _ => []
  | _ :: rest, sendIndex2 =>
    (!maySkip sendIndex2, .two) ::
      restPlan rest (if maySkip sendIndex2 then sendIndex2 + 1 else 1)

end Plan

/-- How a push sends the waiting frames. -/
def plan (o : TokenBucketDDCSeries) (inp : LoadBalancerInput) : List (Bool × LinkNo) :=
  let (ways, sendIndex2, rest) := fittingPlan o.maySkip o.pktLength
    (o.ddcLink == 1 || o.ddcLink == 0) inp.input.packets (o.ddcLink == 2 || o.ddcLink == 0) 0
    (o.refill inp.now).contingent
  ways ++ restPlan o.maySkip rest sendIndex2

variable {fresh : Nat → Packet} {now : ℚ} {o o' : TokenBucketDDCSeries} {ps rest : List Packet}
  {inp : LoadBalancerInput}

/-- What a push does not change. -/
structure SameSettings (o o' : TokenBucketDDCSeries) : Prop where
  additionalOverhead : o'.additionalOverhead = o.additionalOverhead
  minPktSize : o'.minPktSize = o.minPktSize
  ddcLink : o'.ddcLink = o.ddcLink
  ddcSkipLimit : o'.ddcSkipLimit = o.ddcSkipLimit

theorem SameSettings.refl (o : TokenBucketDDCSeries) : SameSettings o o := ⟨rfl, rfl, rfl, rfl⟩

theorem SameSettings.maySkip_eq (h : SameSettings o o') : o'.maySkip = o.maySkip := by
  funext n
  rw [TokenBucketDDCSeries.maySkip, h.ddcSkipLimit]
  rfl

/-- **The first loop** sends as planned. -/
theorem sendFitting_sendsAs {sendDdc1 sendDdc2 : Bool} {sendIndex1 sendIndex2 : Nat}
    (h : sendFitting fresh now sendDdc1 ps sendDdc2 sendIndex1 o = .ok (o', sendIndex2, rest)) :
    ∃ used ways, ps = used ++ rest ∧ fittingPlan o.maySkip o.pktLength sendDdc1 ps sendDdc2
        sendIndex1 o.contingent = (ways, sendIndex2, rest) ∧
      SendsAs fresh now o.toLoadBalancer used ways o'.toLoadBalancer ∧ SameSettings o o' := by
  induction ps generalizing sendDdc2 sendIndex1 o with
  | nil =>
    cases h
    exact ⟨[], [], rfl, rfl, .nil _, .refl _⟩
  | cons p ps ih =>
    unfold fittingPlan
    simp only [sendFitting] at h
    split at h
    · next hfits =>
      rw [if_pos hfits]
      split at h
      · next hskip =>
        obtain ⟨lb, hsend, hrest⟩ := bind_eq_ok h
        obtain ⟨used, ways, rfl, hplan, hsends, hsame⟩ := ih hrest
        refine ⟨p :: used, _ :: ways, rfl, ?_, .cons (send_of_sendPkt fresh hsend) hsends,
          ⟨hsame.1, hsame.2, hsame.3, hsame.4⟩⟩
        have hskip : (!sendDdc2 && o.maySkip sendIndex1) = true := hskip
        simp only [hskip]
        exact congrArg (fun r : List (Bool × LinkNo) × Nat × List Packet =>
          ((false, LinkNo.one) :: r.1, r.2)) hplan
      · next hskip =>
        obtain ⟨lb, hsend, hrest⟩ := bind_eq_ok h
        obtain ⟨used, ways, rfl, hplan, hsends, hsame⟩ := ih hrest
        refine ⟨p :: used, _ :: ways, rfl, ?_, .cons (send_of_sendPktWithDdc fresh hsend) hsends,
          ⟨hsame.1, hsame.2, hsame.3, hsame.4⟩⟩
        have hskip : (!sendDdc2 && o.maySkip sendIndex1) = false := Bool.eq_false_of_not_eq_true hskip
        simp only [hskip]
        exact congrArg (fun r : List (Bool × LinkNo) × Nat × List Packet =>
          ((true, LinkNo.one) :: r.1, r.2)) hplan
    · next hfits =>
      rw [if_neg hfits]
      split at h
      · next hskip =>
        obtain ⟨lb, hsend, hret⟩ := bind_eq_ok h
        cases hret
        refine ⟨[p], [(false, .two)], rfl, ?_, .cons (send_of_sendPkt fresh hsend) (.nil _),
          ⟨rfl, rfl, rfl, rfl⟩⟩
        rw [hskip]
        rfl
      · next hskip =>
        obtain ⟨lb, hsend, hret⟩ := bind_eq_ok h
        cases hret
        refine ⟨[p], [(true, .two)], rfl, ?_, .cons (send_of_sendPktWithDdc fresh hsend) (.nil _),
          ⟨rfl, rfl, rfl, rfl⟩⟩
        have hskip : (!sendDdc1 && o.maySkip 0) = false := Bool.eq_false_of_not_eq_true hskip
        rw [hskip]
        rfl

/-- **The second loop** sends as planned. -/
theorem sendRest_sendsAs {sendIndex2 : Nat} (h : sendRest fresh now ps sendIndex2 o = .ok o') :
    SendsAs fresh now o.toLoadBalancer ps (restPlan o.maySkip ps sendIndex2) o'.toLoadBalancer ∧
      SameSettings o o' := by
  induction ps generalizing sendIndex2 o with
  | nil =>
    cases h
    exact ⟨.nil _, .refl _⟩
  | cons p ps ih =>
    unfold restPlan
    simp only [sendRest] at h
    split at h
    · next hskip =>
      obtain ⟨lb, hsend, hrest⟩ := bind_eq_ok h
      obtain ⟨hsends, hsame⟩ := ih hrest
      rw [hskip]
      exact ⟨.cons (send_of_sendPkt fresh hsend) hsends, ⟨hsame.1, hsame.2, hsame.3, hsame.4⟩⟩
    · next hskip =>
      obtain ⟨lb, hsend, hrest⟩ := bind_eq_ok h
      obtain ⟨hsends, hsame⟩ := ih hrest
      rw [Bool.eq_false_of_not_eq_true hskip]
      exact ⟨.cons (send_of_sendPktWithDdc fresh hsend) hsends,
        ⟨hsame.1, hsame.2, hsame.3, hsame.4⟩⟩

/-- **A push** sends the waiting frames as planned. -/
theorem push_sendsAs (h : o.push fresh inp = .ok o') :
    SendsAs fresh inp.now (o.drained inp) inp.input.packets (o.plan inp) o'.toLoadBalancer ∧
      SameSettings o o' := by
  simp only [push] at h
  split at h
  · next hempty =>
    cases h
    have hnil := List.isEmpty_iff.mp hempty
    unfold plan
    rw [hnil]
    exact ⟨.nil _, ⟨rfl, rfl, rfl, rfl⟩⟩
  · obtain ⟨⟨t, sendIndex2, rest⟩, hfit, hrest⟩ := bind_eq_ok h
    obtain ⟨used, ways, hused, hplan, hsends, hsame⟩ := sendFitting_sendsAs hfit
    obtain ⟨hsends', hsame'⟩ := sendRest_sendsAs hrest
    have hall : o.plan inp = ways ++ restPlan t.maySkip rest sendIndex2 := by
      rw [hsame.maySkip_eq]
      have hmatch := congrArg (fun r : List (Bool × LinkNo) × Nat × List Packet =>
        r.1 ++ restPlan o.maySkip r.2.2 r.2.1) hplan
      exact hmatch
    rw [hall]
    nth_rewrite 1 [hused]
    exact ⟨hsends.append hsends', ⟨hsame'.1.trans hsame.1, hsame'.2.trans hsame.2,
      hsame'.3.trans hsame.3, hsame'.4.trans hsame.4⟩⟩

/-! ## DDC packets that are planned -/

/-- How many of the frames the bucket pays, up to the first that it cannot. -/
def paid (cost : Packet → ℚ) : List Packet → ℚ → Nat
  | [], _ => 0
  | p :: rest, contingent =>
    if cost p ≤ contingent then paid cost rest (contingent - cost p) + 1 else 0

/-- How many of the waiting frames the bucket pays. -/
def paidIn (o : TokenBucketDDCSeries) (inp : LoadBalancerInput) : Nat :=
  paid o.pktLength inp.input.packets (o.refill inp.now).contingent

/-- How many of the waiting frames go to an output. -/
def framesOn (o : TokenBucketDDCSeries) (inp : LoadBalancerInput) : LinkNo → Nat
  | .one => o.paidIn inp
  | .two => inp.input.packets.length - o.paidIn inp

theorem maySkip_iff (o : TokenBucketDDCSeries) (n : Nat) :
    o.maySkip n = true ↔ (0 < o.ddcSkipLimit → (n : Int) < o.ddcSkipLimit) := by
  unfold maySkip
  rw [Bool.or_eq_true, decide_eq_true_eq, decide_eq_true_eq]
  omega

theorem maySkip_zero (o : TokenBucketDDCSeries) : o.maySkip 0 = true :=
  (maySkip_iff o 0).mpr fun hpos => by exact_mod_cast hpos

theorem mem_restPlan {n : Nat} (hn : 0 < o.ddcSkipLimit → (n : Int) ≤ o.ddcSkipLimit) :
    (true, LinkNo.two) ∈ restPlan o.maySkip ps n ↔
      0 < o.ddcSkipLimit ∧ o.ddcSkipLimit < n + ps.length := by
  induction ps generalizing n with
  | nil =>
    refine iff_of_false not_mem_nil fun h => ?_
    simp only [length_nil] at h
    omega
  | cons p ps ih =>
    unfold restPlan
    rw [mem_cons, length_cons]
    by_cases hskip : o.maySkip n = true
    · have hlt := (maySkip_iff o n).mp hskip
      rw [if_pos hskip, hskip, ih fun hpos => by have := hlt hpos; omega]
      simp only [Bool.not_true, Prod.mk.injEq, Bool.true_eq_false, false_and, false_or]
      constructor <;> exact fun h => ⟨h.1, by omega⟩
    · have hnot := mt (maySkip_iff o n).mpr hskip
      rw [Bool.eq_false_of_not_eq_true hskip]
      refine iff_of_true (.inl rfl) ?_
      push Not at hnot
      push_cast
      exact ⟨hnot.1, by have := hn hnot.1; omega⟩

theorem not_mem_restPlan (n : Nat) (ddc : Bool) : (ddc, LinkNo.one) ∉ restPlan o.maySkip ps n := by
  induction ps generalizing n with
  | nil => exact not_mem_nil
  | cons p ps ih =>
    unfold restPlan
    rw [mem_cons, not_or]
    exact ⟨fun h => LinkNo.noConfusion (Prod.mk.inj h).2, ih _⟩

theorem fittingPlan_rest (sendDdc1 : Bool) (ps : List Packet) (sendDdc2 : Bool) (n : Nat) (k : ℚ) :
    (fittingPlan o.maySkip o.pktLength sendDdc1 ps sendDdc2 n k).2 =
      (if paid o.pktLength ps k < ps.length then 1 else 0, ps.drop (paid o.pktLength ps k + 1)) := by
  induction ps generalizing sendDdc2 n k with
  | nil => rfl
  | cons p ps ih =>
    unfold fittingPlan paid
    by_cases hfits : o.pktLength p ≤ k
    · simp only [if_pos hfits, ih, length_cons, Nat.add_lt_add_iff_right, drop_succ_cons]
    · simp only [if_neg hfits, length_cons, drop_succ_cons, drop_zero]
      rw [if_pos (Nat.succ_pos _)]

/-- The first loop plans a DDC packet for output 1 at most for the frame that does not fit. -/
theorem mem_fittingPlan_two (sendDdc1 : Bool) (ps : List Packet) (sendDdc2 : Bool) (n : Nat) (k : ℚ) :
    (true, LinkNo.two) ∈ (fittingPlan o.maySkip o.pktLength sendDdc1 ps sendDdc2 n k).1 →
      sendDdc1 = true := by
  induction ps generalizing sendDdc2 n k with
  | nil => exact fun h => absurd h not_mem_nil
  | cons p ps ih =>
    unfold fittingPlan
    intro h
    by_cases hfits : o.pktLength p ≤ k
    · simp only [if_pos hfits, mem_cons, Prod.mk.injEq, reduceCtorEq, and_false, false_or] at h
      exact ih _ _ _ h
    · simp only [if_neg hfits, mem_singleton, Prod.mk.injEq, maySkip_zero, Bool.and_true,
        Bool.not_not, and_true] at h
      exact h.symm

/-- The first loop plans one for output 2 when the limit is reached. -/
theorem mem_fittingPlan_one (sendDdc1 : Bool) (ps : List Packet) {n : Nat} (k : ℚ)
    (hn : 0 < o.ddcSkipLimit → (n : Int) ≤ o.ddcSkipLimit) :
    (true, LinkNo.one) ∈ (fittingPlan o.maySkip o.pktLength sendDdc1 ps false n k).1 ↔
      0 < o.ddcSkipLimit ∧ o.ddcSkipLimit < n + paid o.pktLength ps k := by
  induction ps generalizing n k with
  | nil =>
    refine iff_of_false not_mem_nil fun h => ?_
    simp only [paid] at h
    omega
  | cons p ps ih =>
    unfold fittingPlan paid
    by_cases hfits : o.pktLength p ≤ k
    · simp only [if_pos hfits, Bool.not_false, Bool.true_and, mem_cons, Prod.mk.injEq,
        and_true, ite_self]
      by_cases hskip : o.maySkip n = true
      · have hlt := (maySkip_iff o n).mp hskip
        rw [if_pos hskip, hskip, ih _ fun hpos => by have := hlt hpos; omega]
        simp only [Bool.not_true, Bool.true_eq_false, false_or]
        constructor <;> exact fun h => ⟨h.1, by omega⟩
      · have hnot := mt (maySkip_iff o n).mpr hskip
        rw [Bool.eq_false_of_not_eq_true hskip]
        refine iff_of_true (.inl rfl) ?_
        push Not at hnot
        push_cast
        exact ⟨hnot.1, by have := hn hnot.1; omega⟩
    · simp only [if_neg hfits, mem_singleton, Prod.mk.injEq, reduceCtorEq, and_false,
        false_iff]
      intro h
      omega

/-- The plans of the two loops, with the number of frames that the bucket pays. -/
theorem plan_eq (o : TokenBucketDDCSeries) (inp : LoadBalancerInput) : o.plan inp =
    (fittingPlan o.maySkip o.pktLength (o.ddcLink == 1 || o.ddcLink == 0) inp.input.packets
      (o.ddcLink == 2 || o.ddcLink == 0) 0 (o.refill inp.now).contingent).1 ++
    restPlan o.maySkip (inp.input.packets.drop (o.paidIn inp + 1))
      (if o.paidIn inp < inp.input.packets.length then 1 else 0) := by
  have hrest := fittingPlan_rest (o := o) (o.ddcLink == 1 || o.ddcLink == 0)
    inp.input.packets (o.ddcLink == 2 || o.ddcLink == 0) 0 (o.refill inp.now).contingent
  exact congrArg (fun r : Nat × List Packet => _ ++ restPlan o.maySkip r.2 r.1) hrest

/-- **A DDC packet is planned for the other output** if more frames go to output `ddc_link` than the
limit allows in a row. -/
theorem mem_plan {port : LinkNo} (hport : o.ddcLink = port.number) (inp : LoadBalancerInput) :
    (true, port) ∈ o.plan inp ↔ 0 < o.ddcSkipLimit ∧ o.ddcSkipLimit < o.framesOn inp port := by
  rw [plan_eq, mem_append]
  cases port with
  | one =>
    -- Output 2 is the other one, so the second loop plans nothing for output 1.
    have hfirst := mem_fittingPlan_one (o := o) true (n := 0) inp.input.packets
      (o.refill inp.now).contingent (fun hpos => by omega)
    rw [Nat.cast_zero, zero_add] at hfirst
    rw [hport]
    exact (or_iff_left (not_mem_restPlan _ _)).trans hfirst
  | two =>
    -- The first loop sends on output 2 only the frame that does not fit, as number 0 of its row.
    have hlen : o.framesOn inp .two = inp.input.packets.length - o.paidIn inp := rfl
    rw [hport, or_iff_right fun h => Bool.noConfusion (mem_fittingPlan_two _ _ _ _ _ h),
      mem_restPlan fun hpos => by split_ifs <;> omega, length_drop]
    split_ifs with hlt
    · constructor <;> exact fun h => ⟨h.1, by omega⟩
    · constructor <;> exact fun h => ⟨h.1, by omega⟩

/-! ## Runs -/

/-- All DDC packets went out on the output. -/
def DdcOn (c : Codec) (port : LinkNo) (o : TokenBucketDDCSeries) : Prop :=
  ∀ tx ∈ o.transmitted, tx.isDdc c → tx.port = port

/-- No more frames go to output `ddc_link` than the limit allows in a row. -/
def Within (port : LinkNo) (o : TokenBucketDDCSeries) (inp : LoadBalancerInput) : Prop :=
  o.ddcSkipLimit ≤ 0 ∨ (o.framesOn inp port : Int) ≤ o.ddcSkipLimit

/-- A load balancer of a mode with an output for DDC packets. -/
structure Configured (c : Codec) (port : LinkNo) (o : TokenBucketDDCSeries) : Prop where
  numbers : Numbers c o.toLoadBalancer
  ddcLink : o.ddcLink = port.number

variable {c : Codec} {port : LinkNo}

/-- **A push** keeps the DDC packets on their output if no more frames go there than the limit
allows. -/
theorem push_ddcOn_iff (h : Configured c port o) (hpush : o.push fresh inp = .ok o') :
    Configured c port o' ∧ (DdcOn c port o → (DdcOn c port o' ↔ Within port o inp)) := by
  obtain ⟨hsends, hsame⟩ := push_sendsAs hpush
  have hstart : Numbers c (o.drained inp) := ⟨h.numbers.codec, h.numbers.seqNo_lt⟩
  obtain ⟨hnumbers, log, hlog, hports⟩ := hsends.ddc hstart
  have hother := hports port.other
  rw [LinkNo.other_other, mem_plan h.ddcLink] at hother
  refine ⟨⟨hnumbers, hsame.ddcLink.trans h.ddcLink⟩, fun hddc => ?_⟩
  have hwithin : Within port o inp ↔ ¬ ∃ tx ∈ log, tx.isDdc c ∧ tx.port = port.other := by
    rw [hother, Within]
    omega
  rw [hwithin]
  constructor
  · rintro hall ⟨tx, htx, hisDdc, hwrong⟩
    have hright := hall tx (by rw [hlog]; exact mem_append_right _ htx) hisDdc
    exact LinkNo.other_ne port (hwrong.symm.trans hright)
  · intro hnone tx htx hisDdc
    rw [hlog] at htx
    rcases mem_append.mp htx with hold | hnew
    · exact hddc tx hold hisDdc
    · by_contra hne
      exact hnone ⟨tx, hnew, hisDdc, LinkNo.eq_other_of_ne hne⟩

/-- `TokenBucketDDCSeries:new`. -/
def new (c : Codec) (conf : TokenBucketConf) (port : LinkNo) (ddcSkipLimit : Int) :
    TokenBucketDDCSeries where
  toTokenBucket := .new (.new c) conf
  ddcLink := port.number
  ddcSkipLimit := ddcSkipLimit

/-- **The outputs of the DDC packets.** In a run whose pushes send no more frames to output
`ddc_link` than the limit allows in a row, all DDC packets go out there. If the frames can be sent,
there is no other such run. -/
theorem ddc_placement (fresh : Nat → Packet) (c : Codec) (conf : TokenBucketConf) (port : LinkNo)
    (limit : Int) (inputs : List LoadBalancerInput) :
    (Along (push fresh) (Within port) (new c conf port limit) inputs →
      ∀ k o', run (push fresh) (new c conf port limit) (inputs.take k) = .ok o' →
        DdcOn c port o') ∧
    ((∀ p ∈ frames inputs, Sendable c true p) →
      (∀ k o', run (push fresh) (new c conf port limit) (inputs.take k) = .ok o' →
        DdcOn c port o') → Along (push fresh) (Within port) (new c conf port limit) inputs) := by
  have hconf : Configured c port (new c conf port limit) := ⟨⟨rfl, Nat.two_pow_pos 64⟩, rfl⟩
  have hddc : DdcOn c port (new c conf port limit) := fun _ h => absurd h not_mem_nil
  have hrule := good_prefixes inputs
    (fun o inp o' h hpush => (push_ddcOn_iff h hpush).1)
    (fun o inp o' h hddc hpush => (push_ddcOn_iff h hpush).2 hddc)
    (fun o inp h (hps : ∀ p ∈ inp.input.packets, Sendable c true p) =>
      push_isOk fresh h.numbers.codec hps) hconf hddc
  exact ⟨hrule.1, fun hsendable => hrule.2 fun inp hinp p hp =>
    hsendable p (mem_flatMap.mpr ⟨inp, hinp, hp⟩)⟩

/-- Two of three frames go to output 1, as many as the limit allows. -/
theorem ddc_placement_within :
    Along (push ordinaryFrame) (Within .one) (new .eth .sample .one 2)
        [.finding 0 0 [60, 60, 300]] ∧
      ∀ k o', run (push ordinaryFrame) (new .eth .sample .one 2)
          ([LoadBalancerInput.finding 0 0 [60, 60, 300]].take k) = .ok o' →
        DdcOn .eth .one o' := by
  have hwithin : Within .one (new .eth .sample .one 2) (.finding 0 0 [60, 60, 300]) := by
    unfold Within
    decide +kernel
  have halong : Along (push ordinaryFrame) (Within .one) (new .eth .sample .one 2)
      [.finding 0 0 [60, 60, 300]] := ⟨hwithin, fun _ _ => trivial⟩
  exact ⟨halong, (ddc_placement ordinaryFrame .eth .sample .one 2 _).1 halong⟩

/-- Two frames in a row on output 1 are one more than the limit allows: the second takes a DDC
packet with it on output 2. -/
theorem ddc_on_other_output :
    ∃ o', run (push ordinaryFrame) (new .eth .sample .one 1) [.finding 0 0 [60, 60]] = .ok o' ∧
      ¬ DdcOn .eth .one o' := by
  refine exists_ok_of_any (fun o => o.transmitted.any
      fun tx => decide (tx.isDdc .eth ∧ tx.port = .two))
    (by decide +kernel) fun o' hrun hother => ?_
  obtain ⟨tx, htx, hddc⟩ := any_eq_true.mp hother
  obtain ⟨hisDdc, htwo⟩ := of_decide_eq_true hddc
  exact fun hone => LinkNo.noConfusion ((hone tx htx hisDdc).symm.trans htwo)

end TokenBucketDDCSeries

end Snabb
