import Mathlib.Data.Nat.Cast.Field
import Mathlib.Data.Nat.Count
import Mathlib.Data.Nat.ModEq
import Snabb.Foundation.Double
import Snabb.HybridAccess.LoadBalancer.Discipline

/-!
# The proportion of the weighted round robin (`weighted_roundrobin.lua`)

`new` divides the bandwidths by their greatest common divisor, and gives output 1 the first
`b1 / gcd` packets of each round of `(b1 + b2) / gcd`. The index is not kept below the length of the
round: at its end it stands there until the next packet comes. Remainder and quotients are those of
doubles, which are exact as long as a round has less than `2 ^ 53` packets.

- `gcd_eq`, `gcd_ends_iff`: the divisor that `new` finds.
- `Turns.processPacket`: a packet takes the output of its position.
- `count_window`: the outputs of as many packets in a row as a round has.
- `proportional`: both, over all runs.
-/

namespace Snabb

open Foundation LoadBalancer List

/-! ## Windows over a period -/

section Windows

variable {p : Nat → Prop} [DecidablePred p] {n w : Nat}

/-- Each window that is as long as the period holds as many numbers as the first one. -/
theorem count_shift (hperiod : ∀ j, p (n + j) ↔ p j) (i : Nat) :
    Nat.count (fun j => p (i + j)) n = Nat.count p n := by
  have hhead := Nat.count_add (p := p) i n
  have htail : Nat.count p (i + n) = Nat.count p n + Nat.count p i := by
    rw [Nat.add_comm, Nat.count_add]
    simp only [hperiod]
  omega

theorem count_mod_lt (hw : w ≤ n) : Nat.count (fun j => j % n < w) n = w := by
  have hsplit := Nat.count_add (p := fun j => j % n < w) w (n - w)
  have hfirst : Nat.count (fun j => j % n < w) w = w :=
    Nat.count_iff_forall.mpr fun j hj => by rwa [Nat.mod_eq_of_lt (hj.trans_le hw)]
  have hrest : Nat.count (fun j => (w + j) % n < w) (n - w) = 0 :=
    Nat.count_iff_forall_not.mpr fun j hj => by
      rw [Nat.mod_eq_of_lt (by omega)]
      omega
  rw [Nat.add_sub_cancel' hw, hfirst, hrest] at hsplit
  exact hsplit

end Windows

namespace WeightedRoundRobin

/-! ## The divisor -/

/-- `%` of numbers; there is no remainder of a division by zero (`none` is the number that is not a
number). -/
def mod : Option ℚ → Option ℚ → Option ℚ
  | some a, some b => if b = 0 then none else some (fmod a b)
  | _, _ => none

/-- `>` of numbers. -/
def gt : Option ℚ → Option ℚ → Bool
  | some a, some b => b < a
  | _, _ => false

/-- `gcd`, if it ends after that many calls. -/
def gcd : Nat → Option ℚ → Option ℚ → Option (Option ℚ)
  | 0, _, _ => none
  | rounds + 1, a, b =>
    if b = some 0 then some a
    else if gt a b then gcd rounds b (mod a b)
    -- only `b` was compared with 0
    else gcd rounds a (mod b a)

theorem mod_eq {a b : Nat} (ha : a < 2 ^ 53) (hb : 0 < b) :
    mod (some a) (some b) = some ((a % b : Nat) : ℚ) := by
  rw [mod, if_neg (Nat.cast_ne_zero.mpr hb.ne'), fmod_natCast ha hb]

theorem gt_eq (a b : Nat) : gt (some a) (some b) = decide (b < a) := decide_eq_decide.mpr Nat.cast_lt

/-- **The divisor** of a positive number and another one is found: the first argument stays
positive, and the sum of the two gets smaller. -/
theorem gcd_eq {rounds a b : Nat} (ha : 0 < a) (hasmall : a < 2 ^ 53) (hbsmall : b < 2 ^ 53)
    (h : a + b < rounds) : gcd rounds (some a) (some b) = some (some (Nat.gcd a b : ℚ)) := by
  induction rounds generalizing a b with
  | zero => exact absurd h (Nat.not_lt_zero _)
  | succ rounds ih =>
    rw [gcd]
    rcases Nat.eq_zero_or_pos b with rfl | hb
    · rw [if_pos (congrArg some Nat.cast_zero), Nat.gcd_zero_right]
    · have hne : ¬ (some (b : ℚ) = some 0) :=
        fun heq => hb.ne' (Nat.cast_eq_zero.mp (Option.some.inj heq))
      rw [if_neg hne, gt_eq]
      by_cases hgt : b < a
      · have hmod := Nat.mod_lt a hb
        rw [if_pos (decide_eq_true hgt), mod_eq hasmall hb,
          ih hb hbsmall (hmod.trans hbsmall) (by omega), Nat.gcd_comm b, ← Nat.gcd_rec, Nat.gcd_comm]
      · have hmod := Nat.mod_lt b ha
        rw [if_neg (by simpa using hgt), mod_eq hbsmall ha,
          ih ha hasmall (hmod.trans hasmall) (by omega), Nat.gcd_comm a, ← Nat.gcd_rec]

/-- Zero is exchanged with what is not a number, and no call is the last. -/
theorem gcd_zero_left {b : Option ℚ} (hb : b ≠ some 0) (hnonneg : ∀ x ∈ b, 0 ≤ x)
    (rounds : Nat) : gcd rounds (some 0) b = none := by
  induction rounds generalizing b with
  | zero => rfl
  | succ rounds ih =>
    have hgt : gt (some 0) b = false := by
      cases b with
      | none => rfl
      | some x => exact decide_eq_false (not_lt.mpr (hnonneg x rfl))
    have hmod : mod b (some 0) = none := by cases b <;> rfl
    rw [gcd, if_neg hb, hgt, hmod]
    exact ih nofun nofun

/-- **When the divisor is found**: if and only if the first number is positive; for numbers below
`2 ^ 53`, on which the remainder is exact. -/
theorem gcd_ends_iff (a b : Nat) (hne : ¬ (a = 0 ∧ b = 0)) (ha : a < 2 ^ 53) (hb : b < 2 ^ 53) :
    (∃ rounds, gcd rounds (some a) (some b) = some (some (Nat.gcd a b : ℚ))) ↔ 0 < a := by
  constructor
  · rintro ⟨rounds, hends⟩
    by_contra hzero
    obtain rfl := Nat.eq_zero_of_not_pos hzero
    have hpos : (b : ℚ) ≠ 0 := Nat.cast_ne_zero.mpr fun hb => hne ⟨rfl, hb⟩
    rw [Nat.cast_zero, gcd_zero_left (fun hb => hpos (Option.some.inj hb))
      (by rintro _ ⟨⟩; exact Nat.cast_nonneg b)] at hends
    cases hends
  · exact fun hpos => ⟨a + b + 1, gcd_eq hpos ha hb (Nat.lt_succ_self _)⟩

theorem gcd_ends_iff_six :
    (∃ rounds, gcd rounds (some (4 : Nat)) (some (6 : Nat)) = some (some (Nat.gcd 4 6 : ℚ))) ↔
      0 < 4 :=
  gcd_ends_iff 4 6 (by decide) (by decide) (by decide)

/-- A bandwidth of zero on the first output. -/
theorem gcd_of_zero_never_ends :
    ¬ ∃ rounds, gcd rounds (some 0) (some 1) = some (some (Nat.gcd 0 1 : ℚ)) := by
  rintro ⟨rounds, hends⟩
  rw [gcd_zero_left (by decide) (by rintro _ ⟨⟩; decide)] at hends
  cases hends

/-- `WeightedRoundRobin:new`, if `gcd` ends after that many calls. -/
def new (rounds : Nat) (lb : LoadBalancer) (b1 b2 : Nat) : Option WeightedRoundRobin := do
  let tempGcd ← (← gcd rounds (some b1) (some b2))
  let w1 := double (b1 / tempGcd)
  return {
    toLoadBalancer := lb
    index := 0
    w1 := w1
    w2 := double (w1 + double (b2 / tempGcd)) }

/-! ## The turns -/

/-- The output of a position: the first `n1` of each round of `n1 + n2` are on output 1. -/
def portAt (n1 n2 i : Nat) : LinkNo := if i % (n1 + n2) < n1 then .one else .two

/-- A load balancer that has sent `ps`, each on the output of its position. -/
structure Turns (n1 n2 : Nat) (o : WeightedRoundRobin) (ps : List Packet) : Prop where
  w1 : o.w1 = n1
  w2 : o.w2 = n1 + n2
  /-- The index is the position in the round, or the length of the round before a new one. -/
  index : ∃ j ≤ n1 + n2, o.index = j ∧ j % (n1 + n2) = ps.length % (n1 + n2)
  frames : o.transmitted.map Tx.frame = ps.map some
  ports : o.transmitted.map Tx.port = (List.range ps.length).map (portAt n1 n2)

variable {n1 n2 : Nat} {o o' : WeightedRoundRobin} {ps : List Packet} {p : Packet} {now : ℚ}
  {c : Codec} {inp : LoadBalancerInput}

section

variable (h : Turns n1 n2 o ps)
include h

theorem Turns.snoc {lb : LoadBalancer} {j : Nat}
    (hsend : o.toLoadBalancer.sendPkt now p (portAt n1 n2 ps.length) = .ok lb)
    (hj : j + 1 ≤ n1 + n2) (hmod : j % (n1 + n2) = ps.length % (n1 + n2)) :
    Turns n1 n2 { o with toLoadBalancer := lb, index := (j : ℚ) + 1 } (ps ++ [p]) := by
  obtain ⟨q, -, rfl⟩ := sendPkt_eq_ok hsend
  refine ⟨h.w1, h.w2, ⟨j + 1, hj, by push_cast; rfl, ?_⟩, ?_, ?_⟩
  · rw [List.length_append, length_singleton, Nat.add_mod, hmod, ← Nat.add_mod]
  · rw [transmit_transmitted, map_append, map_append, h.frames]
    rfl
  · rw [transmit_transmitted, map_append, h.ports, List.length_append, length_singleton,
      range_succ, map_append]
    rfl

/-- **A packet** takes the output of its position. -/
theorem Turns.processPacket (h1 : 0 < n1) (h2 : 0 < n2)
    (hstep : processPacket now o p = .ok o') : Turns n1 n2 o' (ps ++ [p]) := by
  obtain ⟨j, hj, hindex, hmod⟩ := h.index
  have hw1 : o.index < o.w1 ↔ j < n1 := by rw [hindex, h.w1, Nat.cast_lt]
  have hw2 : o.index < o.w2 ↔ j < n1 + n2 := by
    rw [hindex, h.w2]
    exact_mod_cast Iff.rfl
  unfold WeightedRoundRobin.processPacket at hstep
  by_cases hone : j < n1
  · rw [if_pos (hw1.mpr hone)] at hstep
    obtain ⟨lb, hsend, hret⟩ := bind_eq_ok hstep
    cases hret
    have hport : portAt n1 n2 ps.length = .one := by
      rw [portAt, ← hmod, Nat.mod_eq_of_lt (by omega), if_pos hone]
    rw [hindex]
    exact h.snoc (hport ▸ hsend) (by omega) hmod
  · rw [if_neg (mt hw1.mp hone)] at hstep
    by_cases htwo : j < n1 + n2
    · rw [if_pos (hw2.mpr htwo)] at hstep
      obtain ⟨lb, hsend, hret⟩ := bind_eq_ok hstep
      cases hret
      have hport : portAt n1 n2 ps.length = .two := by
        rw [portAt, ← hmod, Nat.mod_eq_of_lt htwo, if_neg hone]
      rw [hindex]
      exact h.snoc (hport ▸ hsend) htwo hmod
    · -- The index stands at the end of the round, and the packet is the first of the next one.
      rw [if_neg (mt hw2.mp htwo)] at hstep
      obtain ⟨lb, hsend, hret⟩ := bind_eq_ok hstep
      cases hret
      have hend : ps.length % (n1 + n2) = 0 := by
        rw [← hmod, Nat.le_antisymm hj (Nat.le_of_not_lt htwo), Nat.mod_self]
      have hport : portAt n1 n2 ps.length = .one := by rw [portAt, hend, if_pos h1]
      have hzero : (0 : Nat) % (n1 + n2) = ps.length % (n1 + n2) := by rw [hend, Nat.zero_mod]
      have hturn := h.snoc (hport ▸ hsend) (by omega) hzero
      rwa [Nat.cast_zero] at hturn

theorem Turns.push (h1 : 0 < n1) (h2 : 0 < n2)
    (hpush : o.push inp = .ok o') : Turns n1 n2 o' (ps ++ inp.input.packets) := by
  have hloop qs : ∀ {o : WeightedRoundRobin} {ps : List Packet}, Turns n1 n2 o ps →
      qs.foldlM (WeightedRoundRobin.processPacket inp.now) o = .ok o' →
      Turns n1 n2 o' (ps ++ qs) := by
    induction qs with
    | nil =>
      intro o ps h hret
      cases hret
      rwa [append_nil]
    | cons q qs ih =>
      intro o ps h hloop
      rw [foldlM_cons] at hloop
      obtain ⟨o₁, hq, hqs⟩ := bind_eq_ok hloop
      have hall := ih (h.processPacket h1 h2 hq) hqs
      rwa [append_assoc] at hall
  have hstart : Turns n1 n2 { o with toLoadBalancer := o.drained inp } ps :=
    ⟨h.w1, h.w2, h.index, h.frames, h.ports⟩
  exact hloop inp.input.packets hstart hpush

variable {inputs : List LoadBalancerInput}

/-- **A run** sends each packet on the output of its position. -/
theorem Turns.run (h1 : 0 < n1)
    (h2 : 0 < n2) (hrun : Foundation.run WeightedRoundRobin.push o inputs = .ok o') :
    Turns n1 n2 o' (ps ++ Snabb.frames inputs) := by
  induction inputs generalizing o ps with
  | nil =>
    cases hrun
    rwa [Snabb.frames, flatMap_nil, append_nil]
  | cons inp inputs ih =>
    obtain ⟨o₁, hpush, hrest⟩ := run_cons_eq_ok hrun
    have hall := ih (h.push h1 h2 hpush) hrest
    rwa [append_assoc] at hall

end

/-! ## The proportion -/

theorem portAt_eq_one (i : Nat) : portAt n1 n2 i = .one ↔ i % (n1 + n2) < n1 := by
  unfold portAt
  split_ifs with h <;> simp [h]

/-- **Every window** of as many packets as a round has is divided in the same way. -/
theorem count_window {i N : Nat} (hi : i + (n1 + n2) ≤ N) :
    ((((List.range N).map (portAt n1 n2)).drop i).take (n1 + n2)).count .one = n1 ∧
      ((((List.range N).map (portAt n1 n2)).drop i).take (n1 + n2)).count .two = n2 := by
  have hwindow : (((List.range N).map (portAt n1 n2)).drop i).take (n1 + n2) =
      (List.range (n1 + n2)).map fun j => portAt n1 n2 (i + j) := by
    refine ext_getElem (by simp; omega) fun j hj hj' => ?_
    simp
  have hone : (List.range (n1 + n2)).countP (fun j => portAt n1 n2 (i + j) == .one) = n1 := by
    have hcount := count_shift (p := fun j => j % (n1 + n2) < n1)
      (fun j => by rw [Nat.add_mod_left]) i
    rw [count_mod_lt (Nat.le_add_right n1 n2)] at hcount
    refine Eq.trans (countP_congr fun j _ => ?_) hcount
    rw [beq_iff_eq, portAt_eq_one, decide_eq_true_eq]
  have htwo : (List.range (n1 + n2)).countP (fun j => portAt n1 n2 (i + j) == .two) = n2 := by
    have hall := length_eq_countP_add_countP (fun j => portAt n1 n2 (i + j) == .one)
      (l := List.range (n1 + n2))
    have hnot : (List.range (n1 + n2)).countP (fun j => ¬ (portAt n1 n2 (i + j) == .one) = true) =
        (List.range (n1 + n2)).countP (fun j => portAt n1 n2 (i + j) == .two) := by
      refine countP_congr fun j _ => ?_
      cases portAt n1 n2 (i + j) <;> decide
    rw [length_range] at hall
    omega
  rw [hwindow, List.count, countP_map, List.count, countP_map]
  exact ⟨hone, htwo⟩

theorem turns_new (c : Codec) {b1 b2 rounds : Nat} (h1 : 0 < b1) (hexact : b1 + b2 < 2 ^ 53)
    (hrounds : b1 + b2 < rounds) :
    ∃ o, new rounds (.new c) b1 b2 = some o ∧ o.hybridAccess = c ∧
      Turns (b1 / Nat.gcd b1 b2) (b2 / Nat.gcd b1 b2) o [] := by
  have hne : ((Nat.gcd b1 b2 : Nat) : ℚ) ≠ 0 :=
    Nat.cast_ne_zero.mpr (Nat.gcd_pos_of_pos_left b2 h1).ne'
  have hle1 := Nat.div_le_self b1 (Nat.gcd b1 b2)
  have hle2 := Nat.div_le_self b2 (Nat.gcd b1 b2)
  have hw1 : double (b1 / Nat.gcd b1 b2) = (b1 / Nat.gcd b1 b2 : Nat) := by
    rw [← Nat.cast_div (Nat.gcd_dvd_left b1 b2) hne, double_natCast (by omega)]
  have hw2 : double (b2 / Nat.gcd b1 b2) = (b2 / Nat.gcd b1 b2 : Nat) := by
    rw [← Nat.cast_div (Nat.gcd_dvd_right b1 b2) hne, double_natCast (by omega)]
  rw [new, gcd_eq h1 (by omega) (by omega) hrounds]
  refine ⟨_, rfl, rfl, hw1, ?_, ⟨0, Nat.zero_le _, Nat.cast_zero.symm, rfl⟩, rfl, rfl⟩
  show double (double _ + double _) = _
  rw [hw1, hw2, ← Nat.cast_add, double_natCast (by omega), Nat.cast_add]

theorem run_isOk {c : Codec} {o : WeightedRoundRobin}
    (hcodec : o.hybridAccess = c) (hsendable : ∀ p ∈ frames inputs, Sendable c false p) :
    ∃ o', run push o inputs = .ok o' := by
  have halong : Along push (fun _ inp => ∀ p ∈ inp.input.packets, Sendable c false p) o inputs :=
    along_of_forall fun inp hinp p hp => hsendable p (mem_flatMap.mpr ⟨inp, hinp, hp⟩)
  obtain ⟨o', hrun, -⟩ := run_total (I := fun o _ => o.hybridAccess = c)
    (fun o inp _ hc hps => by
      obtain ⟨o', hpush⟩ := push_isOk hc hps
      have hsends : Sends ordinaryFrame inp.now _ _ o'.toLoadBalancer := push_sends hpush
      exact ⟨o', hpush, hsends.codec.trans hc⟩) hcodec halong
  exact ⟨o', hrun⟩

/-- **Weighted round robin is proportional.** For positive bandwidths `new` returns if their sum is
one that doubles hold exactly, a run of frames
that leave room for the header returns, and the packets of a run take the outputs of their
positions, so that each window of a round's length is divided as the bandwidths are. -/
theorem proportional (c : Codec) {b1 b2 rounds : Nat} (h1 : 0 < b1) (h2 : 0 < b2)
    (hexact : b1 + b2 < 2 ^ 53) (hrounds : b1 + b2 < rounds) :
    ∃ o, new rounds (.new c) b1 b2 = some o ∧ ∀ inputs : List LoadBalancerInput,
      ((∀ p ∈ frames inputs, Sendable c false p) → ∃ o', run push o inputs = .ok o') ∧
      ∀ o', run push o inputs = .ok o' →
        o'.transmitted.map Tx.frame = (frames inputs).map some ∧
        (∀ i tx, o'.transmitted[i]? = some tx →
          (tx.port = .one ↔ i % ((b1 + b2) / Nat.gcd b1 b2) < b1 / Nat.gcd b1 b2)) ∧
        ∀ i, i + (b1 + b2) / Nat.gcd b1 b2 ≤ o'.transmitted.length →
          (((o'.transmitted.map Tx.port).drop i).take ((b1 + b2) / Nat.gcd b1 b2)).count .one =
            b1 / Nat.gcd b1 b2 ∧
          (((o'.transmitted.map Tx.port).drop i).take ((b1 + b2) / Nat.gcd b1 b2)).count .two =
            b2 / Nat.gcd b1 b2 := by
  obtain ⟨o, hnew, hcodec, hturns⟩ := turns_new c h1 hexact hrounds
  have hdvd1 := Nat.gcd_dvd_left b1 b2
  have hdvd2 := Nat.gcd_dvd_right b1 b2
  have hpos1 := Nat.div_pos (Nat.le_of_dvd h1 hdvd1) (Nat.gcd_pos_of_pos_left b2 h1)
  have hpos2 := Nat.div_pos (Nat.le_of_dvd h2 hdvd2) (Nat.gcd_pos_of_pos_left b2 h1)
  refine ⟨o, hnew, fun inputs => ⟨fun hsendable => ?_, fun o' hrun => ?_⟩⟩
  · exact run_isOk hcodec hsendable
  have hall := hturns.run hpos1 hpos2 hrun
  have hlength : o'.transmitted.length = (frames inputs).length := by
    have := congrArg List.length hall.frames
    rwa [length_map, length_map] at this
  rw [Nat.add_div_of_dvd_right hdvd1]
  refine ⟨hall.frames, fun i tx htx => ?_, fun i hi => ?_⟩
  · have hi := (List.getElem?_eq_some_iff.mp htx).1
    have hport := congrArg (·[i]?) hall.ports
    simp only [List.getElem?_map, htx, Option.map_some, nil_append, List.getElem?_range
      (hlength ▸ hi), Option.some.injEq] at hport
    rw [hport, portAt_eq_one]
  · rw [hall.ports]
    exact count_window (hlength ▸ hi)

/-- With 2 and 4 as the bandwidths, two of three packets go to output 2. -/
theorem proportional_one_two :
    (0 < 2 ∧ 0 < 4 ∧ 2 + 4 < 2 ^ 53 ∧ 2 + 4 < 7) ∧
    ∃ o, new 7 (.new .eth) 2 4 = some o ∧ ∀ inputs : List LoadBalancerInput,
      ((∀ p ∈ frames inputs, Sendable .eth false p) → ∃ o', run push o inputs = .ok o') ∧
      ∀ o', run push o inputs = .ok o' →
        o'.transmitted.map Tx.frame = (frames inputs).map some ∧
        (∀ i tx, o'.transmitted[i]? = some tx → (tx.port = .one ↔ i % 3 < 1)) ∧
        ∀ i, i + 3 ≤ o'.transmitted.length →
          (((o'.transmitted.map Tx.port).drop i).take 3).count .one = 1 ∧
          (((o'.transmitted.map Tx.port).drop i).take 3).count .two = 2 :=
  ⟨⟨by decide, by decide, by decide, by decide⟩,
    proportional .eth (by decide) (by decide) (by decide) (by decide)⟩

/-- The remainder of `2 ^ 54` by 3 is 0 for doubles. Then 3 is taken for the divisor, and the second
packet goes to output 2, although the first three have their places on output 1. -/
theorem large_bandwidth_unproportional :
    ∃ o o', new 9 (.new .eth) 3 (2 ^ 54) = some o ∧ run push o [.finding 0 0 [60, 60]] = .ok o' ∧
      o'.transmitted.map Tx.port = [.one, .two] ∧
      1 % ((3 + 2 ^ 54) / Nat.gcd 3 (2 ^ 54)) < 3 / Nat.gcd 3 (2 ^ 54) := by
  obtain ⟨o, hnew, hcheck⟩ := (Option.any_eq_true _ _).mp (by decide +kernel :
    (new 9 (.new .eth) 3 (2 ^ 54)).any (fun o => (run push o [.finding 0 0 [60, 60]]).toOption.any
      fun o' => o'.transmitted.map Tx.port = [.one, .two]) = true)
  obtain ⟨o', hrun, hports⟩ := ok_of_any hcheck
  exact ⟨o, o', hnew, hrun, of_decide_eq_true hports, by decide +kernel⟩

end WeightedRoundRobin

end Snabb
