import Snabb.Foundation.Dial
import Snabb.Foundation.Run
import Mathlib.Algebra.Order.Floor.Semifield
import Mathlib.Data.Rat.Floor
import Mathlib.Tactic.FieldSimp
import Mathlib.Tactic.Linarith
import Mathlib.Tactic.Positivity
import Mathlib.Tactic.Ring

/-!
# Hierarchical timer wheels (`lib/fibers/timer.lua`)

A wheel has 256 slots and a hand. Every tick schedules the entries of the slot under the
hand, moves the hand on, and takes one period. An entry that is due later than a revolution
goes to an outer wheel, whose period is a revolution of the inner one and which is made when
it is first needed, at whatever slot the hand of the inner wheel is then. When the inner
wheel has gone round, the entries under the hand of the outer wheel move into its slots.

Times are exact rational numbers. A wheel that starts at `t₀` with period `p` ticks at the
instants `t₀ + p * j`; tick `j` is responsible for the times from there up to the next
instant, and `wheelTick` is the tick of a time. The wheel implements a calendar of ticks
(`Foundation/Dial.lean`): `Represents` says where its entries are, level by level.

- `addAbsolute_spec`, `tick_spec`, `advance_spec`: what the operations do to the calendar;
- `timer_wheel_on_time`: every entry is scheduled once, by the tick that contains its time or
  by the first tick after it was added, in the order of the ticks, however the calls of
  `advance` are cut up.
-/

namespace Snabb

open Foundation List

/-! ## The wheel -/

/-- `WHEEL_SLOTS`. -/
def wheelSlots : Nat := 256

/-- A timer entry. -/
structure TimerEntry (α : Type) where
  time : ℚ
  obj : α
deriving DecidableEq

/-- One wheel of the hierarchy; the dial is `cur` and `slots`. -/
structure WheelLevel (α : Type) where
  now : ℚ
  period : ℚ
  rate : ℚ
  dial : Dial wheelSlots (TimerEntry α)

/-- A wheel and the chain of its outer wheels, the next one first. -/
structure TimerWheel (α : Type) where
  inner : WheelLevel α
  outers : List (WheelLevel α)

namespace TimerWheel

variable {α : Type}

/-- `new_timer_wheel`. -/
def newTimerWheel (now period : ℚ) : WheelLevel α where
  now := now
  period := period
  rate := 1 / period
  dial := .new wheelSlots (by decide)

/-- `add_wheel`: the outer wheel starts where the inner one has gone round. -/
def addWheel (inner : WheelLevel α) : WheelLevel α :=
  newTimerWheel (inner.now + inner.period * ((wheelSlots : ℚ) - inner.dial.cur))
    (inner.period * wheelSlots)

/-- The number of slots from the hand to a time. -/
def offset (w : WheelLevel α) (t : ℚ) : Nat := (max ⌊(t - w.now) * w.rate⌋ 0).toNat

/-- `push_node` into a slot. -/
def pushNode (w : WheelLevel α) (idx : Nat) (ent : TimerEntry α) : WheelLevel α :=
  { w with dial := w.dial.put idx ent }

/-- `add_absolute`, which calls itself on the outer wheel. -/
def addAbsoluteLoop (ent : TimerEntry α) :
    Nat → WheelLevel α → List (WheelLevel α) → Option (WheelLevel α × List (WheelLevel α))
  | 0, _, _ => none
  | fuel + 1, w, outers =>
    let offset := offset w ent.time
    if offset < wheelSlots then
      some (pushNode w ((w.dial.cur + offset) % wheelSlots) ent, outers)
    else
      let outer := outers.headD (addWheel w)
      (addAbsoluteLoop ent fuel outer outers.tail).map fun r => (w, r.1 :: r.2)

/-- `add_absolute`. Each call of the outer wheel sees a smaller offset. -/
def addAbsolute (t : ℚ) (obj : α) (w : TimerWheel α) : Option (TimerWheel α) :=
  (addAbsoluteLoop ⟨t, obj⟩ (offset w.inner t + 1) w.inner w.outers).map fun r => ⟨r.1, r.2⟩

/-- The index that `tick_outer` computes for an entry, kept inside the slots. -/
def innerIndex (inner outer : WheelLevel α) (ent : TimerEntry α) : Nat :=
  (max (min ⌊(ent.time - outer.now) * inner.rate⌋ ((wheelSlots : ℤ) - 1)) 0).toNat

/-- `tick_outer`. -/
def tickOuter (inner : WheelLevel α) : List (WheelLevel α) → WheelLevel α × List (WheelLevel α)
  | [] => (inner, [])
  | outer :: rest =>
    let moved := outer.dial.slots outer.dial.cur
    let inner := moved.foldl (fun w ent => pushNode w (innerIndex w outer ent) ent) inner
    let inner := { inner with now := outer.now }
    let outer := { outer with dial := outer.dial.turn, now := outer.now + outer.period }
    if outer.dial.cur = 0 then
      let (outer, rest) := tickOuter outer rest
      (inner, outer :: rest)
    else
      (inner, outer :: rest)

/-- `tick`, except for the calls of `sched:schedule`. -/
def tickWheel (w : TimerWheel α) : TimerWheel α :=
  let inner := { w.inner with dial := w.inner.dial.turn, now := w.inner.now + w.inner.period }
  if inner.dial.cur = 0 then
    let (inner, outers) := tickOuter inner w.outers
    ⟨inner, outers⟩
  else
    ⟨inner, w.outers⟩

end TimerWheel

/-- An entry as it was added: the time of the wheel was `now`. -/
structure WheelAddition (α : Type) where
  now : ℚ
  time : ℚ
  obj : α

/-- A wheel with its history: what was added, and what was scheduled with the time of the
wheel in that tick. -/
structure WheelHistory (α : Type) where
  wheel : TimerWheel α
  added : List (WheelAddition α)
  scheduled : List (ℚ × α)

/-- The calls a wheel accepts. -/
inductive WheelCall (α : Type) where
  | addAbsolute (t : ℚ) (obj : α)
  | addDelta (dt : ℚ) (obj : α)
  | advance (t : ℚ)

/-- A call that has not returned when its fuel is used up. -/
inductive WheelFault where
  | outOfFuel
deriving DecidableEq, Repr

namespace WheelHistory

variable {α : Type}

/-- `new_timer_wheel`. -/
def new (now period : ℚ) : WheelHistory α where
  wheel := ⟨TimerWheel.newTimerWheel now period, []⟩
  added := []
  scheduled := []

/-- `self.now`. -/
def now (s : WheelHistory α) : ℚ := s.wheel.inner.now

/-- `self.period`. -/
def period (s : WheelHistory α) : ℚ := s.wheel.inner.period

/-- `add_absolute`. -/
def addAbsolute (s : WheelHistory α) (t : ℚ) (obj : α) : Except WheelFault (WheelHistory α) :=
  match s.wheel.addAbsolute t obj with
  | some wheel => .ok { s with wheel := wheel, added := s.added ++ [⟨s.now, t, obj⟩] }
  | none => .error .outOfFuel

/-- `tick`: the entries under the hand are scheduled. -/
def tick (s : WheelHistory α) : WheelHistory α where
  wheel := s.wheel.tickWheel
  added := s.added
  scheduled := s.scheduled ++
    (s.wheel.inner.dial.slots s.wheel.inner.dial.cur).map fun ent => (s.now, ent.obj)

/-- The loop of `advance`. -/
def advanceLoop (t : ℚ) : Nat → WheelHistory α → Except WheelFault (WheelHistory α)
  | 0, s => if s.now + s.period ≤ t then .error .outOfFuel else .ok s
  | fuel + 1, s => if s.now + s.period ≤ t then advanceLoop t fuel s.tick else .ok s

/-- `advance`. -/
def advance (s : WheelHistory α) (t : ℚ) : Except WheelFault (WheelHistory α) :=
  advanceLoop t ⌊(t - s.now) / s.period⌋.toNat s

def step (s : WheelHistory α) : WheelCall α → Except WheelFault (WheelHistory α)
  | .addAbsolute t obj => s.addAbsolute t obj
  | .addDelta dt obj => s.addAbsolute (s.now + dt) obj
  | .advance t => s.advance t

end WheelHistory

/-! ## Ticks -/

/-- The number of the tick that contains a time, for ticks of length `p` from `t₀` on. Times
before `t₀` are given to the first tick. -/
def wheelTick (t₀ p t : ℚ) : Nat := ⌊(t - t₀) / p⌋.toNat

namespace TimerWheel

variable {α : Type} {t₀ p : ℚ} {u j : Nat} {w : WheelLevel α} {outers : List (WheelLevel α)}

/-- A wheel whose slots are `u` ticks long, at the beginning of tick `j`. -/
structure At (t₀ p : ℚ) (u j : Nat) (w : WheelLevel α) : Prop where
  now : w.now = t₀ + p * j
  period : w.period = p * u
  rate : w.rate = 1 / (p * u)

/-- Every entry is in the slot that its time belongs to. -/
def InPlace (t₀ p : ℚ) (u j : Nat) (w : WheelLevel α) : Prop :=
  ∀ o < wheelSlots, ∀ ent ∈ w.dial.ahead o,
    j + o * u ≤ wheelTick t₀ p ent.time ∧ wheelTick t₀ p ent.time < j + (o + 1) * u

/-- The outer wheels, from one that is `u` ticks a slot and at tick `j`: the next one starts
where this one has gone round. -/
def Aligned (t₀ p : ℚ) : Nat → Nat → List (WheelLevel α) → Prop
  | _, _, [] => True
  | u, j, w :: rest =>
    At t₀ p u j w ∧ InPlace t₀ p u j w ∧
      Aligned t₀ p (wheelSlots * u) (j + (wheelSlots - w.dial.cur) * u) rest

/-- The tick of an entry, and its object. -/
def keyed (t₀ p : ℚ) (ent : TimerEntry α) : Nat × α := (wheelTick t₀ p ent.time, ent.obj)

/-- What is in the outer wheels. -/
def outerPending (t₀ p : ℚ) (outers : List (WheelLevel α)) : Multiset (Nat × α) :=
  (outers.map fun w => w.dial.total fun _ => keyed t₀ p).sum

theorem floor_ticks (t₀ : ℚ) (hp : 0 < p) (hu : 0 < u) (t : ℚ) (j : Nat) :
    ⌊(t - (t₀ + p * j)) * (1 / (p * u))⌋ = (⌊(t - t₀) / p⌋ - j) / u := by
  have heq : (t - (t₀ + p * j)) * (1 / (p * u)) = ((t - t₀) / p - j) / u := by
    field_simp
    ring
  rw [heq, Int.floor_div_natCast, Int.floor_sub_natCast]

theorem offset_eq (hp : 0 < p) (hu : 0 < u) (hw : At t₀ p u j w) (t : ℚ) :
    offset w t = (wheelTick t₀ p t - j) / u := by
  have hu' : (0 : ℤ) < u := by exact_mod_cast hu
  rw [offset, hw.now, hw.rate, floor_ticks t₀ hp hu, wheelTick]
  generalize ⌊(t - t₀) / p⌋ = z
  rcases le_or_gt (j : ℤ) z with hle | hlt
  · obtain ⟨d, hd⟩ := Int.eq_ofNat_of_zero_le (show 0 ≤ z - j by omega)
    have hz : z.toNat - j = d := by omega
    rw [hz, hd, max_eq_left (by positivity)]
    exact_mod_cast Int.toNat_natCast (d / u)
  · have hneg : (z - j) / u < 0 := Int.ediv_neg_of_neg_of_pos (by omega) hu'
    have hz : z.toNat - j = 0 := by omega
    rw [max_eq_right hneg.le, hz, Nat.zero_div]
    rfl

/-! ## The levels -/

theorem At.zero (t₀ p : ℚ) : At t₀ p 1 0 (newTimerWheel t₀ p : WheelLevel α) where
  now := by simp [newTimerWheel]
  period := by simp [newTimerWheel]
  rate := by simp [newTimerWheel]

/-- The outer wheel that `add_wheel` makes starts where the inner one has gone round. -/
theorem At.addWheel (hw : At t₀ p u j w) :
    At t₀ p (wheelSlots * u) (j + (wheelSlots - w.dial.cur) * u) (addWheel w) := by
  have hcur : ((wheelSlots - w.dial.cur : Nat) : ℚ) = wheelSlots - w.dial.cur :=
    Nat.cast_sub w.dial.cur_lt.le
  have hperiod : (TimerWheel.addWheel w).period = p * ((wheelSlots * u : Nat) : ℚ) := by
    show w.period * wheelSlots = _
    rw [hw.period]
    push_cast
    ring
  refine ⟨?_, hperiod, ?_⟩
  · show w.now + w.period * (wheelSlots - w.dial.cur) = _
    rw [hw.now, hw.period, ← hcur]
    push_cast
    ring
  · rw [← hperiod]
    rfl

theorem inPlace_iff :
    InPlace t₀ p u j w ↔ ∀ x ∈ w.dial.total Prod.mk,
      j + x.1 * u ≤ wheelTick t₀ p x.2.time ∧ wheelTick t₀ p x.2.time < j + (x.1 + 1) * u := by
  constructor
  · intro h x hx
    obtain ⟨o, ho, ent, hent, rfl⟩ := Dial.mem_total.mp hx
    exact h o ho ent hent
  · intro h o ho ent hent
    exact h (o, ent) ((Dial.mem_ahead_iff ho).mp hent)

theorem inPlace_addWheel (w : WheelLevel α) : InPlace t₀ p u j (addWheel w) := by
  intro o _ ent hent
  cases hent

theorem slot_bounds (hu : 0 < u) {k : Nat} (hk : j ≤ k) :
    j + (k - j) / u * u ≤ k ∧ k < j + ((k - j) / u + 1) * u := by
  have hle := Nat.div_mul_le_self (k - j) u
  have hlt := Nat.lt_div_mul_add hu (a := k - j)
  rw [Nat.add_mul]
  omega

variable {ent : TimerEntry α}

theorem InPlace.pushNode (hu : 0 < u) (h : InPlace t₀ p u j w)
    (hent : j ≤ wheelTick t₀ p ent.time) (hslot : (wheelTick t₀ p ent.time - j) / u < wheelSlots) :
    InPlace t₀ p u j
      (pushNode w ((w.dial.cur + (wheelTick t₀ p ent.time - j) / u) % wheelSlots) ent) := by
  rw [inPlace_iff] at h ⊢
  intro x hx
  rw [TimerWheel.pushNode, Dial.total_put hslot] at hx
  rcases Multiset.mem_add.mp hx with hx | hx
  · exact h x hx
  · rw [Multiset.mem_singleton.mp hx]
    exact slot_bounds hu hent

theorem Aligned.le_of_mem (h : Aligned t₀ p u j outers) {x : Nat × α}
    (hx : x ∈ outerPending t₀ p outers) : j ≤ x.1 := by
  induction outers generalizing u j with
  | nil => cases hx
  | cons w rest ih =>
    obtain ⟨-, hplace, hrest⟩ := h
    rcases Multiset.mem_add.mp hx with hx | hx
    · obtain ⟨o, ho, ent, hent, rfl⟩ := Dial.mem_total.mp hx
      exact le_of_add_le_left (hplace o ho ent hent).1
    · exact le_of_add_le_left (ih hrest hx)

theorem Aligned.headD (hw : At t₀ p u j w)
    (h : Aligned t₀ p (wheelSlots * u) (j + (wheelSlots - w.dial.cur) * u) outers) :
    Aligned t₀ p (wheelSlots * u) (j + (wheelSlots - w.dial.cur) * u)
        (outers.headD (addWheel w) :: outers.tail) ∧
      outerPending t₀ p (outers.headD (addWheel w) :: outers.tail) = outerPending t₀ p outers := by
  cases outers with
  | nil =>
    refine ⟨⟨hw.addWheel, inPlace_addWheel w, trivial⟩, ?_⟩
    have hempty : (addWheel w).dial.total (fun _ => keyed t₀ p) = 0 := Dial.total_new _ _
    show (addWheel w).dial.total (fun _ => keyed t₀ p) + 0 = 0
    rw [hempty, add_zero]
  | cons outer rest => exact ⟨h, rfl⟩

/-- **Adding**: the entry goes into the slot of its time, or into the outer wheels. -/
theorem addAbsoluteLoop_spec (hp : 0 < p) (hu : 0 < u) (hw : At t₀ p u j w)
    (houters : Aligned t₀ p (wheelSlots * u) (j + (wheelSlots - w.dial.cur) * u) outers)
    (ent : TimerEntry α) {fuel : Nat} (hfuel : (wheelTick t₀ p ent.time - j) / u < fuel) :
    ∃ w' outers', addAbsoluteLoop ent fuel w outers = some (w', outers') ∧
      Aligned t₀ p (wheelSlots * u) (j + (wheelSlots - w.dial.cur) * u) outers' ∧
      if (wheelTick t₀ p ent.time - j) / u < wheelSlots then
        w' = pushNode w ((w.dial.cur + (wheelTick t₀ p ent.time - j) / u) % wheelSlots) ent ∧
          outers' = outers
      else
        w' = w ∧ outerPending t₀ p outers' = outerPending t₀ p outers + {keyed t₀ p ent} := by
  induction fuel generalizing w outers u j with
  | zero => cases hfuel
  | succ fuel ih =>
    rw [addAbsoluteLoop, offset_eq hp hu hw]
    by_cases hnear : (wheelTick t₀ p ent.time - j) / u < wheelSlots
    · simp only [if_pos hnear]
      exact ⟨_, _, rfl, houters, rfl, rfl⟩
    simp only [if_neg hnear]
    obtain ⟨halign, hpending⟩ := Aligned.headD hw houters
    rw [← hpending]
    obtain ⟨hat, hplace, hrest⟩ := halign
    have hpos : 0 < wheelSlots * u := Nat.mul_pos (by decide) hu
    -- the time is behind the revolution of this wheel, so not before the outer one begins
    have hfar : j + wheelSlots * u ≤ wheelTick t₀ p ent.time := by
      have hle := (Nat.le_div_iff_mul_le hu).mp (Nat.le_of_not_lt hnear)
      omega
    have hbegin : j + (wheelSlots - w.dial.cur) * u ≤ wheelTick t₀ p ent.time := by
      have hle : (wheelSlots - w.dial.cur) * u ≤ wheelSlots * u :=
        Nat.mul_le_mul_right u (Nat.sub_le _ _)
      omega
    have hfuel' : (wheelTick t₀ p ent.time - (j + (wheelSlots - w.dial.cur) * u)) /
        (wheelSlots * u) < fuel := by
      have hshrink : (wheelTick t₀ p ent.time - (j + (wheelSlots - w.dial.cur) * u)) /
          (wheelSlots * u) ≤ (wheelTick t₀ p ent.time - j) / u / wheelSlots := by
        rw [Nat.div_div_eq_div_mul, Nat.mul_comm u]
        exact Nat.div_le_div_right (by omega)
      have hless : (wheelTick t₀ p ent.time - j) / u / wheelSlots <
          (wheelTick t₀ p ent.time - j) / u :=
        Nat.div_lt_self (lt_of_lt_of_le (by decide) (Nat.le_of_not_lt hnear)) (by decide)
      omega
    obtain ⟨o', rest', hadd, hrest', hcase⟩ := ih hpos hat hrest hfuel'
    refine ⟨w, o' :: rest', by rw [hadd]; rfl, ?_, rfl, ?_⟩
    · split at hcase
      · next hslot =>
        obtain ⟨rfl, rfl⟩ := hcase
        exact ⟨⟨hat.now, hat.period, hat.rate⟩, hplace.pushNode hpos hbegin hslot, hrest'⟩
      · obtain ⟨rfl, -⟩ := hcase
        exact ⟨hat, hplace, hrest'⟩
    · simp only [outerPending, map_cons, sum_cons]
      split at hcase
      · next hslot =>
        obtain ⟨rfl, rfl⟩ := hcase
        rw [pushNode, Dial.total_put hslot, add_right_comm]
      · obtain ⟨rfl, hpending'⟩ := hcase
        rw [outerPending, outerPending] at hpending'
        rw [hpending', add_assoc]

/-! ## A tick -/

/-- The index of an entry that moves inwards is the slot of its time; the clamp does nothing. -/
theorem innerIndex_eq (hp : 0 < p) (hu : 0 < u) {inner outer : WheelLevel α}
    (hrate : inner.rate = 1 / (p * u)) (hnow : outer.now = t₀ + p * j)
    (hj : j ≤ wheelTick t₀ p ent.time) (hlt : wheelTick t₀ p ent.time < j + wheelSlots * u) :
    innerIndex inner outer ent = (wheelTick t₀ p ent.time - j) / u := by
  have hfloor : ⌊(ent.time - outer.now) * inner.rate⌋ = (⌊(ent.time - t₀) / p⌋ - j) / u := by
    rw [hrate, hnow, floor_ticks t₀ hp hu]
  have hslot : (wheelTick t₀ p ent.time - j) / u < wheelSlots :=
    (Nat.div_lt_iff_lt_mul hu).mpr (by omega)
  rw [innerIndex, hfloor]
  rw [wheelTick] at hj hlt hslot ⊢
  generalize ⌊(ent.time - t₀) / p⌋ = z at *
  have hdiv : ((z - j) / u) = ((z.toNat - j) / u : Nat) ∨ z < j := by
    by_cases hz : z < j
    · exact .inr hz
    · refine .inl ?_
      have hsub : z - j = ((z.toNat - j : Nat) : ℤ) := by omega
      rw [hsub]
      rfl
  rcases hdiv with hdiv | hz
  · rw [hdiv]
    generalize (z.toNat - j) / u = k at *
    rw [min_eq_left (by omega), max_eq_left (by omega), Int.toNat_natCast]
  · -- a time before the first tick
    obtain rfl : j = 0 := by omega
    have hneg : (z - (0 : Nat)) / u < 0 :=
      Int.ediv_neg_of_neg_of_pos (by omega) (by exact_mod_cast hu)
    have hzero : z.toNat - 0 = 0 := by omega
    rw [hzero, Nat.zero_div]
    omega

variable {moved : List (TimerEntry α)}

/-- The entries under the hand of the outer wheel are put into the slots of their times. -/
theorem foldl_pushNode (hp : 0 < p) (hu : 0 < u) {outer : WheelLevel α}
    (hnow : outer.now = t₀ + p * j) (hmoved : ∀ ent ∈ moved, j ≤ wheelTick t₀ p ent.time ∧
      wheelTick t₀ p ent.time < j + wheelSlots * u) (hrate : w.rate = 1 / (p * u)) :
    moved.foldl (fun w ent => pushNode w (innerIndex w outer ent) ent) w =
      ⟨w.now, w.period, w.rate, moved.foldl
        (fun d ent => d.put ((wheelTick t₀ p ent.time - j) / u) ent) w.dial⟩ := by
  induction moved generalizing w with
  | nil => rfl
  | cons ent moved ih =>
    obtain ⟨⟨hj, hlt⟩, htail⟩ := forall_mem_cons.mp hmoved
    have hindex := innerIndex_eq hp hu hrate hnow hj hlt
    rw [foldl_cons, hindex, ih htail (w := pushNode w _ ent) hrate]
    rfl

theorem InPlace.turn (h : InPlace t₀ p u j w) {now period rate : ℚ} :
    InPlace t₀ p u (j + u) ⟨now, period, rate, w.dial.turn⟩ := by
  intro o ho ent hent
  obtain ⟨ho', hent'⟩ := Dial.mem_ahead_turn ho hent
  have hplace := h (o + 1) ho' ent hent'
  rw [Nat.add_mul (o + 1), Nat.add_mul o] at hplace
  rw [Nat.add_mul o]
  omega

/-- Entries of one revolution, put into an inner wheel that is in place, are in place. -/
theorem InPlace.foldl_put (hu : 0 < u) (h : InPlace t₀ p u j w) (hcur : w.dial.cur = 0)
    (hmoved : ∀ ent ∈ moved, j ≤ wheelTick t₀ p ent.time ∧
      wheelTick t₀ p ent.time < j + wheelSlots * u) {w' : WheelLevel α}
    (hdial : w'.dial = moved.foldl
      (fun d ent => d.put ((wheelTick t₀ p ent.time - j) / u) ent) w.dial) :
    InPlace t₀ p u j w' := by
  have hidx : ∀ ent ∈ moved, (wheelTick t₀ p ent.time - j) / u < wheelSlots := by
    intro ent hent
    have hbounds := hmoved ent hent
    exact (Nat.div_lt_iff_lt_mul hu).mpr (by omega)
  rw [inPlace_iff] at h ⊢
  intro x hx
  rw [hdial, Dial.total_foldl_put hcur hidx] at hx
  rcases Multiset.mem_add.mp hx with hx | hx
  · exact h x hx
  · obtain ⟨ent, hent, rfl⟩ := Multiset.mem_map.mp hx
    exact slot_bounds hu (hmoved ent hent).1

/-- **A revolution**: when a wheel has gone round, its next revolution moves in from the outer
wheels, each of which begins where this one is. -/
theorem tickOuter_spec (hp : 0 < p) (hu : 0 < u) (hw : At t₀ p u j w) (hcur : w.dial.cur = 0)
    (houters : Aligned t₀ p (wheelSlots * u) j outers) :
    ∃ moved : List (TimerEntry α),
      (∀ ent ∈ moved, j ≤ wheelTick t₀ p ent.time ∧
        wheelTick t₀ p ent.time < j + wheelSlots * u) ∧
      At t₀ p u j (tickOuter w outers).1 ∧
      (tickOuter w outers).1.dial = moved.foldl
        (fun d ent => d.put ((wheelTick t₀ p ent.time - j) / u) ent) w.dial ∧
      Aligned t₀ p (wheelSlots * u) (j + wheelSlots * u) (tickOuter w outers).2 ∧
      outerPending t₀ p outers =
        Multiset.map (keyed t₀ p) moved + outerPending t₀ p (tickOuter w outers).2 := by
  induction outers generalizing w u j with
  | nil => exact ⟨[], by simp, hw, rfl, trivial, by simp [tickOuter]⟩
  | cons outer rest ih =>
    obtain ⟨hat, hplace, hrest⟩ := houters
    have hpos : 0 < wheelSlots * u := Nat.mul_pos (by decide) hu
    have hmoved : ∀ ent ∈ outer.dial.slots outer.dial.cur, j ≤ wheelTick t₀ p ent.time ∧
        wheelTick t₀ p ent.time < j + wheelSlots * u := by
      intro ent hent
      rw [← Dial.ahead_zero] at hent
      have hbounds := hplace 0 (by decide) ent hent
      rwa [Nat.zero_mul, Nat.one_mul] at hbounds
    have hpush := foldl_pushNode hp hu hat.now hmoved hw.rate
    have hpending : outer.dial.total (fun _ => keyed t₀ p) =
        Multiset.map (keyed t₀ p) (outer.dial.slots outer.dial.cur) +
          outer.dial.turn.total (fun _ => keyed t₀ p) := by
      rw [Dial.total_turn, Dial.ahead_zero]
    -- the wheel, with what has moved in, and the outer wheel, one slot on
    obtain ⟨w', hw'⟩ : ∃ w' : WheelLevel α, w' = ⟨outer.now, w.period, w.rate,
      (outer.dial.slots outer.dial.cur).foldl
        (fun d ent => d.put ((wheelTick t₀ p ent.time - j) / u) ent) w.dial⟩ := ⟨_, rfl⟩
    obtain ⟨outer', houter'⟩ : ∃ outer' : WheelLevel α, outer' =
      ⟨outer.now + outer.period, outer.period, outer.rate, outer.dial.turn⟩ := ⟨_, rfl⟩
    have hinner : At t₀ p u j w' := by
      subst hw'
      exact ⟨hat.now, hw.period, hw.rate⟩
    have houterAt : At t₀ p (wheelSlots * u) (j + wheelSlots * u) outer' := by
      subst houter'
      refine ⟨?_, hat.period, hat.rate⟩
      rw [hat.now, hat.period, Nat.cast_add, mul_add, add_assoc]
    have hplace' : InPlace t₀ p (wheelSlots * u) (j + wheelSlots * u) outer' := by
      subst houter'
      exact hplace.turn
    have hcur' : outer'.dial.cur = (outer.dial.cur + 1) % wheelSlots := by
      subst houter'
      rfl
    have htick : tickOuter w (outer :: rest) =
        if outer'.dial.cur = 0 then (w', (tickOuter outer' rest).1 :: (tickOuter outer' rest).2)
        else (w', outer' :: rest) := by
      simp only [tickOuter, hpush]
      subst hw' houter'
      rfl
    rw [htick]
    have hlt := outer.dial.cur_lt
    by_cases hround : outer'.dial.cur = 0
    · rw [if_pos hround]
      have hbegin : j + (wheelSlots - outer.dial.cur) * (wheelSlots * u) = j + wheelSlots * u := by
        have hone : wheelSlots - outer.dial.cur = 1 := by
          by_contra hne
          rw [hcur', Nat.mod_eq_of_lt (by omega)] at hround
          omega
        rw [hone, Nat.one_mul]
      rw [hbegin] at hrest
      obtain ⟨moved', hmoved', hat', hdial', halign', hpending'⟩ :=
        ih hpos houterAt hround hrest
      have hdialcur : (tickOuter outer' rest).1.dial.cur = 0 := by
        rw [hdial', Dial.foldl_put_cur, hround]
      refine ⟨_, hmoved, hinner, by subst hw'; rfl, ⟨hat', ?_, ?_⟩, ?_⟩
      · exact hplace'.foldl_put hpos hround hmoved' hdial'
      · rw [hdialcur]
        exact halign'
      · have hidx : ∀ ent ∈ moved',
            (wheelTick t₀ p ent.time - (j + wheelSlots * u)) / (wheelSlots * u) < wheelSlots := by
          intro ent hent
          have hbounds := hmoved' ent hent
          exact (Nat.div_lt_iff_lt_mul hpos).mpr (by omega)
        have htotal : (tickOuter outer' rest).1.dial.total (fun _ => keyed t₀ p) =
            outer.dial.turn.total (fun _ => keyed t₀ p) + Multiset.map (keyed t₀ p) moved' := by
          rw [hdial', Dial.total_foldl_put hround hidx, houter']
        rw [outerPending, map_cons, sum_cons, hpending, ← outerPending, hpending',
          outerPending, outerPending, map_cons, sum_cons, htotal]
        abel
    · rw [if_neg hround]
      have hnext : outer'.dial.cur = outer.dial.cur + 1 := by
        by_contra hne
        have hfull : outer.dial.cur + 1 = wheelSlots := by
          by_contra hroom
          exact hne (hcur'.trans (Nat.mod_eq_of_lt (by omega)))
        rw [hcur', hfull] at hround
        exact hround rfl
      refine ⟨_, hmoved, hinner, by subst hw'; rfl, ⟨houterAt, hplace', ?_⟩, ?_⟩
      · have hbegin : j + wheelSlots * u + (wheelSlots - outer'.dial.cur) * (wheelSlots * u) =
            j + (wheelSlots - outer.dial.cur) * (wheelSlots * u) := by
          have hless : wheelSlots - outer.dial.cur = wheelSlots - outer'.dial.cur + 1 := by omega
          rw [hless, Nat.add_mul _ 1]
          omega
        rw [hbegin]
        exact hrest
      · rw [outerPending, outerPending, map_cons, sum_cons, map_cons, sum_cons,
          hpending, houter', add_assoc]

/-! ## The calendar of a wheel -/

/-- The wheel holds what the calendar has pending: an entry in the inner wheel is due when the
hand comes to its slot, an entry in an outer wheel at the tick of its time. -/
structure Represents (t₀ p : ℚ) (c : Calendar α) (w : TimerWheel α) : Prop where
  inner : At t₀ p 1 c.next w.inner
  outers : Aligned t₀ p (wheelSlots * 1) (c.next + (wheelSlots - w.inner.dial.cur) * 1) w.outers
  pending : c.pending =
    w.inner.dial.total (fun o ent => (c.next + o, ent.obj)) + outerPending t₀ p w.outers

variable {c : Calendar α} {w : TimerWheel α}

theorem represents_new (t₀ p : ℚ) :
    Represents t₀ p (⟨0, 0⟩ : Calendar α) ⟨newTimerWheel t₀ p, []⟩ where
  inner := .zero t₀ p
  outers := trivial
  pending := by
    have hempty : (newTimerWheel t₀ p : WheelLevel α).dial.total
        (fun o ent => (0 + o, ent.obj)) = 0 := Dial.total_new _ _
    rw [hempty]
    rfl

/-- `add_absolute` returns, and makes the object pending at the tick of its time, or at the next
tick if that is past. -/
theorem addAbsolute_spec (hp : 0 < p) (h : Represents t₀ p c w) (t : ℚ) (obj : α) :
    ∃ w', w.addAbsolute t obj = some w' ∧
      Represents t₀ p { c with pending := c.pending + {(max c.next (wheelTick t₀ p t), obj)} } w' ∧
      w'.inner.now = w.inner.now := by
  have hoffset := offset_eq hp Nat.one_pos h.inner t
  have hfuel : (wheelTick t₀ p t - c.next) / 1 < offset w.inner t + 1 := by
    rw [hoffset]
    exact Nat.lt_succ_self _
  obtain ⟨inner', outers', hadd, houters, hcase⟩ :=
    addAbsoluteLoop_spec hp Nat.one_pos h.inner h.outers ⟨t, obj⟩ hfuel
  refine ⟨⟨inner', outers'⟩, by rw [addAbsolute, hadd]; rfl, ?_⟩
  rw [Nat.div_one] at hcase
  split at hcase
  · next hnear =>
    obtain ⟨rfl, rfl⟩ := hcase
    have hdue : c.next + (wheelTick t₀ p t - c.next) = max c.next (wheelTick t₀ p t) := by omega
    refine ⟨⟨⟨h.inner.now, h.inner.period, h.inner.rate⟩, houters, ?_⟩, rfl⟩
    simp only [pushNode]
    rw [Dial.total_put hnear, hdue, h.pending, add_right_comm]
  · next hfar =>
    obtain ⟨rfl, hpending⟩ := hcase
    have hdue : max c.next (wheelTick t₀ p t) = wheelTick t₀ p t := by
      have hle : wheelSlots ≤ wheelTick t₀ p t - c.next := Nat.le_of_not_lt hfar
      have hpos : 0 < wheelSlots := by decide
      omega
    refine ⟨⟨h.inner, houters, ?_⟩, rfl⟩
    simp only [hpending, hdue, keyed]
    rw [h.pending, add_assoc]

/-- A tick takes what is due at it out of the wheel. -/
theorem tick_spec (hp : 0 < p) (h : Represents t₀ p c w) :
    ∃ rest : Multiset (Nat × α),
      c.pending = Multiset.map (fun ent : TimerEntry α => (c.next, ent.obj))
        (w.inner.dial.slots w.inner.dial.cur) + rest ∧
      (∀ x ∈ rest, c.next < x.1) ∧ Represents t₀ p ⟨c.next + 1, rest⟩ w.tickWheel := by
  have hlt := w.inner.dial.cur_lt
  refine ⟨w.inner.dial.turn.total (fun o ent => (c.next + (o + 1), ent.obj)) +
    outerPending t₀ p w.outers, ?_, ?_, ?_⟩
  · rw [h.pending, Dial.total_turn, Dial.ahead_zero, add_assoc]
    rfl
  · intro x hx
    rcases Multiset.mem_add.mp hx with hx | hx
    · obtain ⟨o, -, ent, -, rfl⟩ := Dial.mem_total.mp hx
      omega
    · have hle := h.outers.le_of_mem hx
      omega
  obtain ⟨inner', hinner'⟩ : ∃ inner' : WheelLevel α, inner' = ⟨w.inner.now + w.inner.period,
    w.inner.period, w.inner.rate, w.inner.dial.turn⟩ := ⟨_, rfl⟩
  have hat : At t₀ p 1 (c.next + 1) inner' := by
    subst hinner'
    refine ⟨?_, h.inner.period, h.inner.rate⟩
    rw [h.inner.now, h.inner.period]
    push_cast
    ring
  have hcur : inner'.dial.cur = (w.inner.dial.cur + 1) % wheelSlots := by
    subst hinner'
    rfl
  have htotal : w.inner.dial.turn.total (fun o ent => (c.next + (o + 1), ent.obj)) =
      inner'.dial.total (fun o ent => (c.next + 1 + o, ent.obj)) := by
    subst hinner'
    refine Dial.total_congr fun o _ ent _ => ?_
    rw [Nat.add_comm o 1, Nat.add_assoc]
  have htick : w.tickWheel = if inner'.dial.cur = 0 then
      ⟨(tickOuter inner' w.outers).1, (tickOuter inner' w.outers).2⟩ else ⟨inner', w.outers⟩ := by
    subst hinner'
    rfl
  rw [htick]
  by_cases hround : inner'.dial.cur = 0
  · rw [if_pos hround]
    have hbegin : c.next + (wheelSlots - w.inner.dial.cur) * 1 = c.next + 1 := by
      by_contra hne
      rw [hcur, Nat.mod_eq_of_lt (by omega)] at hround
      omega
    have houters := h.outers
    rw [hbegin] at houters
    obtain ⟨moved, hmoved, hat', hdial, halign, hpending⟩ :=
      tickOuter_spec hp Nat.one_pos hat hround houters
    have hidx : ∀ ent ∈ moved, (wheelTick t₀ p ent.time - (c.next + 1)) / 1 < wheelSlots := by
      intro ent hent
      have hbounds := hmoved ent hent
      omega
    have hkeyed : Multiset.map (keyed t₀ p) moved = Multiset.map
        (fun ent : TimerEntry α =>
          (c.next + 1 + (wheelTick t₀ p ent.time - (c.next + 1)) / 1, ent.obj)) moved := by
      refine Multiset.map_congr rfl fun ent hent => ?_
      have hle := (hmoved ent hent).1
      rw [keyed, Nat.div_one, Nat.add_sub_cancel' hle]
    have hdialcur : (tickOuter inner' w.outers).1.dial.cur = 0 := by
      rw [hdial, Dial.foldl_put_cur, hround]
    refine ⟨hat', ?_, ?_⟩
    · show Aligned _ _ _ (c.next + 1 + (wheelSlots - (tickOuter inner' w.outers).1.dial.cur) * 1) _
      rw [hdialcur]
      exact halign
    · show _ = (tickOuter inner' w.outers).1.dial.total _ + _
      rw [htotal, hpending, hdial, Dial.total_foldl_put hround hidx, hkeyed, add_assoc]
  · rw [if_neg hround]
    have hnext : inner'.dial.cur = w.inner.dial.cur + 1 := by
      by_contra hne
      have hfull : w.inner.dial.cur + 1 = wheelSlots := by
        by_contra hroom
        exact hne (hcur.trans (Nat.mod_eq_of_lt (by omega)))
      rw [hcur, hfull] at hround
      exact hround rfl
    refine ⟨hat, ?_, by rw [htotal]⟩
    have hbegin : c.next + 1 + (wheelSlots - inner'.dial.cur) * 1 =
        c.next + (wheelSlots - w.inner.dial.cur) * 1 := by omega
    rw [hbegin]
    exact h.outers

end TimerWheel

/-! ## What was scheduled -/

namespace WheelHistory

variable {α : Type} {t₀ p t : ℚ} {s s' : WheelHistory α} {c : Calendar α}

/-- The beginning of the tick that an entry is due at: the tick that contains its time, or the
time of the wheel when it was added, whichever is later. -/
def dueTick (t₀ p : ℚ) (a : WheelAddition α) : ℚ := t₀ + p * wheelTick t₀ p (max a.now a.time)

/-- A tick that begins at `n` is the one for an entry: its time is in the tick, or it was past
when the entry was added and the tick is the next one. -/
def OnTick (p : ℚ) (a : WheelAddition α) (n : ℚ) : Prop :=
  (a.now ≤ n ∧ n ≤ a.time ∧ a.time < n + p) ∨ (a.time < a.now ∧ n = a.now)

/-- The wheel with its history, as a calendar of ticks. -/
structure Keeps (t₀ p : ℚ) (c : Calendar α) (s : WheelHistory α) : Prop where
  represents : TimerWheel.Represents t₀ p c s.wheel
  kept : ∃ fired, c.Kept
      (s.added.map fun a => (wheelTick t₀ p (max a.now a.time), a.obj) : List (Nat × α)) fired ∧
    s.scheduled = fired.map fun x => (t₀ + p * x.1, x.2)
  added : ∀ a ∈ s.added, ∃ k : Nat, a.now = t₀ + p * k

theorem Keeps.now (h : Keeps t₀ p c s) : s.now = t₀ + p * c.next := h.represents.inner.now

theorem Keeps.period (h : Keeps t₀ p c s) : s.period = p := by
  rw [WheelHistory.period, h.represents.inner.period, Nat.cast_one, mul_one]

theorem wheelTick_instant (hp : 0 < p) (k : Nat) : wheelTick t₀ p (t₀ + p * k) = k := by
  have hdiv : (t₀ + p * k - t₀) / p = k := by
    rw [add_sub_cancel_left, mul_div_cancel_left₀ _ hp.ne']
  rw [wheelTick, hdiv, Int.floor_natCast, Int.toNat_natCast]

theorem wheelTick_mono (t₀ : ℚ) (hp : 0 < p) {t t' : ℚ} (h : t ≤ t') :
    wheelTick t₀ p t ≤ wheelTick t₀ p t' := by
  refine Int.toNat_le_toNat (Int.floor_le_floor ?_)
  exact div_le_div_of_nonneg_right (by linarith) hp.le

theorem instant_le_iff (hp : 0 < p) {k : Nat} (hk : 0 < k) (t : ℚ) :
    t₀ + p * k ≤ t ↔ k ≤ wheelTick t₀ p t := by
  have hfloor : t₀ + p * k ≤ t ↔ k ≤ ⌊(t - t₀) / p⌋ := by
    rw [Int.le_floor, le_div_iff₀ hp, Int.cast_natCast]
    constructor
    · intro hle
      linarith
    · intro hle
      linarith
  rw [hfloor, wheelTick]
  omega

theorem wheelTick_spec (hp : 0 < p) (ht : t₀ ≤ t) :
    t₀ + p * wheelTick t₀ p t ≤ t ∧ t < t₀ + p * wheelTick t₀ p t + p := by
  have hnonneg : 0 ≤ ⌊(t - t₀) / p⌋ := Int.floor_nonneg.mpr (div_nonneg (by linarith) hp.le)
  have hcast : ((wheelTick t₀ p t : Nat) : ℚ) = (⌊(t - t₀) / p⌋ : ℤ) := by
    exact_mod_cast Int.toNat_of_nonneg hnonneg
  have hle := (le_div_iff₀ hp).mp (Int.floor_le ((t - t₀) / p))
  have hlt := (div_lt_iff₀ hp).mp (Int.lt_floor_add_one ((t - t₀) / p))
  rw [hcast]
  constructor
  · linarith
  · linarith

theorem keeps_new (t₀ p : ℚ) : Keeps t₀ p (⟨0, 0⟩ : Calendar α) (new t₀ p) where
  represents := TimerWheel.represents_new t₀ p
  kept := ⟨[], .new, rfl⟩
  added := by
    intro a ha
    cases ha

section

variable (hp : 0 < p) (h : Keeps t₀ p c s)
include hp h

theorem Keeps.addAbsolute (t : ℚ) (obj : α) :
    ∃ s', s.addAbsolute t obj = .ok s' ∧ s'.added = s.added ++ [⟨s.now, t, obj⟩] ∧
      s'.now = s.now ∧
      Keeps t₀ p { c with pending := c.pending + {(max c.next (wheelTick t₀ p t), obj)} } s' := by
  obtain ⟨w', hadd, hw', hnow⟩ := TimerWheel.addAbsolute_spec hp h.represents t obj
  have hdue : wheelTick t₀ p (max s.now t) = max c.next (wheelTick t₀ p t) := by
    have hmono : Monotone (wheelTick t₀ p) := fun _ _ hle => wheelTick_mono t₀ hp hle
    rw [hmono.map_max, h.now, wheelTick_instant hp]
  obtain ⟨fired, hkept, hscheduled⟩ := h.kept
  refine ⟨⟨w', s.added ++ [⟨s.now, t, obj⟩], s.scheduled⟩, ?_, rfl, hnow, hw',
    ⟨fired, ?_, hscheduled⟩, ?_⟩
  · rw [WheelHistory.addAbsolute, hadd]
  · have hkept' := hkept.add (x := (max c.next (wheelTick t₀ p t), obj)) (le_max_left _ _)
    rw [← hdue] at hkept'
    rw [← hdue, map_append]
    exact hkept'
  · intro a ha
    rcases mem_append.mp ha with ha | ha
    · exact h.added a ha
    · rw [mem_singleton.mp ha]
      exact ⟨c.next, h.now⟩

theorem Keeps.tick : ∃ rest, Keeps t₀ p ⟨c.next + 1, rest⟩ s.tick := by
  obtain ⟨rest, hpending, hrest, hrepresents⟩ := TimerWheel.tick_spec hp h.represents
  obtain ⟨fired, hkept, hscheduled⟩ := h.kept
  refine ⟨rest, hrepresents, ?_, h.added⟩
  have hbatch : c.pending = Multiset.map (fun a => (c.next, a))
      ((s.wheel.inner.dial.slots s.wheel.inner.dial.cur).map TimerEntry.obj : List α) + rest := by
    rw [hpending, ← Multiset.map_coe TimerEntry.obj, Multiset.map_map]
    rfl
  refine ⟨_, hkept.tick hbatch hrest, ?_⟩
  rw [WheelHistory.tick, hscheduled, h.now, map_append, map_map, map_map]
  rfl

theorem Keeps.ticks (n : Nat) :
    ∃ rest, Keeps t₀ p ⟨c.next + n, rest⟩ (WheelHistory.tick^[n] s) := by
  induction n with
  | zero => exact ⟨c.pending, h⟩
  | succ n ih =>
    obtain ⟨rest, hrest⟩ := ih
    rw [Function.iterate_succ_apply']
    exact hrest.tick hp

theorem Keeps.guard_iff (t : ℚ) : s.now + s.period ≤ t ↔ c.next < wheelTick t₀ p t := by
  have hnext : t₀ + p * c.next + p = t₀ + p * ((c.next + 1 : Nat) : ℚ) := by
    push_cast
    ring
  rw [h.now, h.period, hnext, instant_le_iff hp (Nat.succ_pos _)]
  exact Nat.succ_le_iff

theorem advanceLoop_spec {n : Nat} (hn : wheelTick t₀ p t - c.next = n) :
    advanceLoop t n s = .ok (WheelHistory.tick^[n] s) := by
  induction n generalizing s c with
  | zero =>
    have hguard : ¬ s.now + s.period ≤ t := by
      rw [h.guard_iff hp]
      omega
    rw [advanceLoop, if_neg hguard]
    rfl
  | succ n ih =>
    have hguard : s.now + s.period ≤ t := by
      rw [h.guard_iff hp]
      omega
    obtain ⟨rest, hrest⟩ := h.tick hp
    rw [advanceLoop, if_pos hguard]
    refine ih hrest ?_
    show wheelTick t₀ p t - (c.next + 1) = n
    omega

/-- **Advancing** ticks until the tick that contains the time, and returns. -/
theorem advance_spec (t : ℚ) :
    s.advance t = .ok (WheelHistory.tick^[wheelTick t₀ p t - c.next] s) := by
  have hfuel : ⌊(t - s.now) / s.period⌋.toNat = wheelTick t₀ p t - c.next := by
    have hfloor := TimerWheel.floor_ticks t₀ hp Nat.one_pos t c.next
    rw [Nat.cast_one, mul_one, mul_one_div] at hfloor
    rw [h.now, h.period, wheelTick]
    omega
  rw [advance, hfuel]
  exact advanceLoop_spec hp h rfl

/-- Two calls of `advance`, the second for a later time, do what the second does. -/
theorem advance_advance {t t' : ℚ} (hle : t ≤ t') :
    run step s [.advance t, .advance t'] = run step s [.advance t'] := by
  obtain ⟨rest, hrest⟩ := h.ticks hp (wheelTick t₀ p t - c.next)
  have hfirst := advance_spec hp h t
  have hboth := advance_spec hp h t'
  have hsecond := advance_spec hp hrest t'
  have hmono := wheelTick_mono t₀ hp hle
  have hsum : wheelTick t₀ p t' - c.next = wheelTick t₀ p t' -
      (c.next + (wheelTick t₀ p t - c.next)) + (wheelTick t₀ p t - c.next) := by omega
  rw [hsum, Function.iterate_add_apply, ← hsecond] at hboth
  have hstep : step s (.advance t) = .ok _ := hfirst
  have hsame : step (WheelHistory.tick^[wheelTick t₀ p t - c.next] s) (.advance t') =
      step s (.advance t') := hboth.symm
  rw [run_cons_ok hstep, run, run, hsame]

/-- The object that a call adds. -/
def addedObj : WheelCall α → Option α
  | .addAbsolute _ obj => some obj
  | .addDelta _ obj => some obj
  | .advance _ => none

/-- What one call does: it returns, and moves the wheel on if it is a call of `advance` for a
later tick. -/
theorem step_spec (call : WheelCall α) :
    ∃ s' c', step s call = .ok s' ∧ Keeps t₀ p c' s' ∧
      s'.added.map (·.obj) = s.added.map (·.obj) ++ (addedObj call).toList ∧
      match call with
      | .advance t => c'.next = max c.next (wheelTick t₀ p t)
      | _ => c'.next = c.next := by
  cases call with
  | addAbsolute t obj =>
    obtain ⟨s', hs', hadded, -, hkeeps⟩ := h.addAbsolute hp t obj
    exact ⟨s', _, hs', hkeeps, by rw [hadded, map_append]; rfl, rfl⟩
  | addDelta dt obj =>
    obtain ⟨s', hs', hadded, -, hkeeps⟩ := h.addAbsolute hp (s.now + dt) obj
    exact ⟨s', _, hs', hkeeps, by rw [hadded, map_append]; rfl, rfl⟩
  | advance t =>
    obtain ⟨rest, hrest⟩ := h.ticks hp (wheelTick t₀ p t - c.next)
    have hadded : (WheelHistory.tick^[wheelTick t₀ p t - c.next] s).added = s.added := by
      generalize wheelTick t₀ p t - c.next = n
      induction n with
      | zero => rfl
      | succ n ih =>
        rw [Function.iterate_succ_apply']
        exact ih
    refine ⟨_, _, advance_spec hp h t, hrest, ?_, ?_⟩
    · rw [hadded]
      exact (append_nil _).symm
    · show c.next + (wheelTick t₀ p t - c.next) = _
      omega

theorem run_spec (calls : List (WheelCall α)) :
    ∃ s' c', run step s calls = .ok s' ∧ Keeps t₀ p c' s' ∧
      s'.added.map (·.obj) = s.added.map (·.obj) ++ calls.filterMap addedObj ∧
      c.next ≤ c'.next ∧ (∀ t, .advance t ∈ calls → wheelTick t₀ p t ≤ c'.next) ∧
      (c'.next = c.next ∨ ∃ t, .advance t ∈ calls ∧ c'.next = wheelTick t₀ p t) := by
  induction calls generalizing s c with
  | nil => exact ⟨s, c, rfl, h, by simp, le_rfl, by simp, .inl rfl⟩
  | cons call calls ih =>
    obtain ⟨u, d, hu, hkeeps, hadded, hnext⟩ := step_spec hp h call
    obtain ⟨s', c', hs', hkeeps', hadded', hle, hall, hlast⟩ := ih hkeeps
    have hgrows : c.next ≤ d.next := by
      cases call with
      | addAbsolute t obj | addDelta dt obj => exact hnext.ge
      | advance t => exact hnext.ge.trans' (le_max_left _ _)
    refine ⟨s', c', by rw [run_cons_ok hu, hs'], hkeeps', ?_, hgrows.trans hle, ?_, ?_⟩
    · rw [hadded', hadded, append_assoc, filterMap_cons]
      cases addedObj call with
      | none => rfl
      | some obj => rfl
    · intro t ht
      rcases mem_cons.mp ht with rfl | ht
      · exact (le_max_right _ _).trans (hnext.ge.trans hle)
      · exact hall t ht
    · rcases hlast with hsame | ⟨t, ht, heq⟩
      · cases call with
        | addAbsolute t obj | addDelta dt obj => exact .inl (hsame.trans hnext)
        | advance t =>
          rw [hnext] at hsame
          rcases max_choice c.next (wheelTick t₀ p t) with hmax | hmax
          · exact .inl (hsame.trans hmax)
          · exact .inr ⟨t, mem_cons_self, hsame.trans hmax⟩
      · exact .inr ⟨t, mem_cons_of_mem _ ht, heq⟩

/-- What a wheel that started at `t₀` with period `p` has done after a sequence of calls. -/
structure OnTime (t₀ p : ℚ) (calls : List (WheelCall α)) (s : WheelHistory α) : Prop where
  /-- Every call that adds an object has added an entry. -/
  added : s.added.map (·.obj) = calls.filterMap addedObj
  /-- The entries whose tick is past, and no others, have been scheduled: once, in that tick. -/
  scheduled : s.scheduled.Perm ((s.added.filter fun a => dueTick t₀ p a < s.now).map
    fun a => (dueTick t₀ p a, a.obj))
  /-- The tick of an entry contains its time, or is the next one if that was past. -/
  onTick : ∀ a ∈ s.added, OnTick p a (dueTick t₀ p a)
  inOrder : s.scheduled.Pairwise fun x y => x.1 ≤ y.1
  /-- The wheel is at the beginning of the tick that the calls of `advance` have come to. -/
  instant : ∃ k : Nat, s.now = t₀ + p * k
  advanced : ∀ t, .advance t ∈ calls → t < s.now + p
  notBeyond : s.now = t₀ ∨ ∃ t, .advance t ∈ calls ∧ s.now ≤ t
  /-- A call of `advance` may be cut up. -/
  split : ∀ t t', t ≤ t' → run step s [.advance t, .advance t'] = run step s [.advance t']

theorem dueTick_lt_iff (a : WheelAddition α) :
    dueTick t₀ p a < s.now ↔ wheelTick t₀ p (max a.now a.time) < c.next := by
  rw [dueTick, h.now, add_lt_add_iff_left, mul_lt_mul_iff_right₀ hp, Nat.cast_lt]

theorem Keeps.scheduled_perm :
    s.scheduled.Perm ((s.added.filter fun a => dueTick t₀ p a < s.now).map
      fun a => (dueTick t₀ p a, a.obj)) := by
  obtain ⟨fired, hkept, hscheduled⟩ := h.kept
  have hperm : fired.Perm ((s.added.map fun a => (wheelTick t₀ p (max a.now a.time), a.obj)).filter
      fun x => x.1 < c.next) := by
    rw [← Multiset.coe_eq_coe]
    exact hkept.fired_perm
  have hmap := hperm.map fun x => (t₀ + p * x.1, x.2)
  rw [← hscheduled, filter_map, map_map] at hmap
  have hfilter : s.added.filter ((fun x : Nat × α => decide (x.1 < c.next)) ∘
      fun a => (wheelTick t₀ p (max a.now a.time), a.obj)) =
      s.added.filter fun a => dueTick t₀ p a < s.now := by
    refine filter_congr fun a _ => ?_
    exact decide_eq_decide.mpr (dueTick_lt_iff hp h a).symm
  rw [hfilter] at hmap
  exact hmap

theorem Keeps.scheduled_inOrder : s.scheduled.Pairwise fun x y => x.1 ≤ y.1 := by
  obtain ⟨fired, hkept, hscheduled⟩ := h.kept
  rw [hscheduled, pairwise_map]
  refine hkept.inOrder.imp fun {x y} hle => ?_
  have hcast : (x.1 : ℚ) ≤ y.1 := Nat.cast_le.mpr hle
  nlinarith

theorem Keeps.onTick {a : WheelAddition α} (ha : a ∈ s.added) : OnTick p a (dueTick t₀ p a) := by
  obtain ⟨k, hk⟩ := h.added a ha
  have hstart : t₀ ≤ a.now := by
    nlinarith
  rcases le_or_gt a.now a.time with hle | hlt
  · obtain ⟨hbegin, hend⟩ := wheelTick_spec hp (hstart.trans hle)
    rw [dueTick, max_eq_right hle]
    refine .inl ⟨?_, hbegin, hend⟩
    have hmono := wheelTick_mono t₀ hp hle
    rw [hk, wheelTick_instant hp] at hmono
    have hcast' : (k : ℚ) ≤ wheelTick t₀ p a.time := Nat.cast_le.mpr hmono
    rw [hk]
    nlinarith
  · rw [dueTick, max_eq_left hlt.le]
    refine .inr ⟨hlt, ?_⟩
    rw [hk, wheelTick_instant hp]

end

/-- **The wheel is on time**: after every sequence of calls, every entry that was added and
whose tick is past has been scheduled exactly once, during the tick that contains its time or
during the first tick after it was added; the ticks came in order; and neither depends on how
the calls of `advance` are cut up. -/
theorem timer_wheel_on_time (hp : 0 < p) (calls : List (WheelCall α)) :
    ∃ s, run step (new t₀ p) calls = .ok s ∧ OnTime t₀ p calls s := by
  obtain ⟨s, c, hs, h, hadded, -, hall, hlast⟩ := run_spec hp (keeps_new t₀ p) calls
  refine ⟨s, hs, hadded, h.scheduled_perm hp, fun a ha => h.onTick hp ha, h.scheduled_inOrder hp,
    ⟨c.next, h.now⟩, ?_, ?_, fun t t' hle => advance_advance hp h hle⟩
  · intro t ht
    have hguard := h.guard_iff hp t
    rw [h.period] at hguard
    have hle := hall t ht
    by_contra hge
    have hlt := hguard.mp (not_lt.mp hge)
    omega
  · rw [h.now]
    rcases Nat.eq_zero_or_pos c.next with hzero | hpos
    · rw [hzero]
      simp
    · rcases hlast with hsame | ⟨t, ht, heq⟩
      · exact absurd hsame hpos.ne'
      · exact .inr ⟨t, ht, (instant_le_iff hp hpos t).mpr heq.le⟩

/-- An entry that is already past, one for the next tick, and one that needs an outer wheel. -/
def sampleCalls : List (WheelCall Nat) :=
  [.addAbsolute 5 1, .addDelta (1 / 2) 2, .addAbsolute (533 / 2) 3, .advance 100, .advance 268]

theorem timer_wheel_on_time_sample :
    ∃ s, run step (new 10 1) sampleCalls = .ok s ∧ OnTime 10 1 sampleCalls s ∧
      s.scheduled = [(10, 1), (10, 2), (266, 3)] := by
  obtain ⟨s, hs, hontime⟩ := timer_wheel_on_time (show (0 : ℚ) < 1 by decide) sampleCalls
  obtain ⟨s', hs', hscheduled⟩ := ok_of_any (r := run step (new 10 1) sampleCalls)
    (q := fun s => decide (s.scheduled = [(10, 1), (10, 2), (266, 3)])) (by decide +kernel)
  obtain rfl := ok_unique hs hs'
  exact ⟨s, hs, hontime, of_decide_eq_true hscheduled⟩

end WheelHistory

end Snabb
