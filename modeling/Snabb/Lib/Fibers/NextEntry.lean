import Mathlib.Algebra.Order.Ring.WithTop
import Snabb.Lib.Fibers.Timer

/-!
# The time of the next entry (`lib/fibers/timer.lua`)

`next_entry_time` looks for the first slot with entries, from the hand of the innermost wheel
on, and returns the smallest time in it. A slot behind the end of the revolution overlaps with the
slot under the hand of the outer wheel, from which entries will move in; the code compares with the
slot of the outer wheel at the same distance from the hand instead, where all entries are later
anyway.

- `Near`: where the entries of the innermost wheel are, also those that were past when added.
- `nextEntryTime_eq_iff`: the time returned is that of the next entry, unless the slot is behind the
  end of the revolution and the slot under the hand of the outer wheel has an earlier one.
- `next_entry_exact_iff`: the same after every sequence of calls.
-/

namespace Snabb

open Foundation List

namespace TimerWheel

variable {α : Type}

/-! ## What the code returns, and what it is for -/

/-- `slot_min_time`. -/
def slotMinTime (head : List (TimerEntry α)) : WithTop ℚ :=
  head.foldl (fun t ent => min (ent.time : WithTop ℚ) t) ⊤

/-- The offset of the first slot with entries. -/
def firstSlot (w : WheelLevel α) : Option Nat :=
  (List.range wheelSlots).find? fun offset => !(w.dial.ahead offset).isEmpty

/-- `next_entry_time`. -/
def nextEntryTime (w : WheelLevel α) : List (WheelLevel α) → WithTop ℚ
  | [] =>
    match firstSlot w with
    | some offset => slotMinTime (w.dial.ahead offset)
    | none => ⊤
  | outer :: rest =>
    match firstSlot w with
    -- the outer wheel is asked for the same offset only
    | some offset => min (slotMinTime (w.dial.ahead offset)) (slotMinTime (outer.dial.ahead offset))
    | none => nextEntryTime outer rest

/-- The entries of a wheel. -/
def levelEntries (w : WheelLevel α) : List (TimerEntry α) :=
  (List.range wheelSlots).flatMap w.dial.slots

/-- The entries that are pending in a wheel and its outer wheels. -/
def pendingEntries (w : WheelLevel α) (outers : List (WheelLevel α)) : List (TimerEntry α) :=
  (w :: outers).flatMap levelEntries

/-- The first slot with entries is one of the revolution that is under way, or no entry under the
hand of the outer wheel is earlier than all of its entries. -/
def FirstSlotIsNext (w : WheelLevel α) : List (WheelLevel α) → Prop
  | [] => True
  | outer :: rest =>
    match firstSlot w with
    | some offset => w.dial.cur + offset < wheelSlots ∨
        ∀ ent ∈ outer.dial.slots outer.dial.cur,
          ∃ first ∈ w.dial.ahead offset, first.time ≤ ent.time
    | none => FirstSlotIsNext outer rest

variable {head : List (TimerEntry α)}

theorem le_slotMinTime {x : WithTop ℚ} : x ≤ slotMinTime head ↔ ∀ ent ∈ head, x ≤ ent.time := by
  have hloop t : x ≤ head.foldl (fun t ent => min (ent.time : WithTop ℚ) t) t ↔
      x ≤ t ∧ ∀ ent ∈ head, x ≤ ent.time := by
    induction head generalizing t with
    | nil => simp
    | cons ent head ih =>
      rw [foldl_cons, ih, le_min_iff, forall_mem_cons]
      tauto
  rw [slotMinTime, hloop, and_iff_right le_top]

theorem slotMinTime_le_coe {x : ℚ} : slotMinTime head ≤ x ↔ ∃ ent ∈ head, ent.time ≤ x := by
  have hloop t : head.foldl (fun t ent => min (ent.time : WithTop ℚ) t) t ≤ x ↔
      t ≤ x ∨ ∃ ent ∈ head, ent.time ≤ x := by
    induction head generalizing t with
    | nil => simp
    | cons ent head ih =>
      rw [foldl_cons, ih, min_le_iff, WithTop.coe_le_coe, exists_mem_cons_iff]
      tauto
  rw [slotMinTime, hloop, or_iff_right (WithTop.coe_lt_top x).not_ge]

/-- No entry of the second slot is earlier than all entries of the first one. -/
theorem slotMinTime_le_slotMinTime {head head' : List (TimerEntry α)} :
    slotMinTime head ≤ slotMinTime head' ↔
      ∀ ent ∈ head', ∃ first ∈ head, first.time ≤ ent.time := by
  rw [le_slotMinTime]
  exact forall₂_congr fun ent _ => slotMinTime_le_coe

theorem slotMinTime_append (head head' : List (TimerEntry α)) :
    slotMinTime (head ++ head') = min (slotMinTime head) (slotMinTime head') := by
  refine eq_of_forall_le_iff fun x => ?_
  rw [le_min_iff, le_slotMinTime, le_slotMinTime, le_slotMinTime, forall_mem_append]

variable {w : WheelLevel α} {outers : List (WheelLevel α)} {ent : TimerEntry α}

theorem mem_levelEntries : ent ∈ levelEntries w ↔ ∃ o < wheelSlots, ent ∈ w.dial.ahead o := by
  rw [levelEntries, mem_flatMap]
  have hcur := w.dial.cur_lt
  constructor
  · rintro ⟨i, hi, hent⟩
    have hi := mem_range.mp hi
    refine ⟨(i + (wheelSlots - w.dial.cur)) % wheelSlots, Nat.mod_lt _ (by decide), ?_⟩
    have hback : (w.dial.cur + (i + (wheelSlots - w.dial.cur)) % wheelSlots) % wheelSlots = i := by
      rw [Nat.add_mod_mod, show w.dial.cur + (i + (wheelSlots - w.dial.cur)) = i + wheelSlots by
        omega, Nat.add_mod_right, Nat.mod_eq_of_lt hi]
    rw [Dial.ahead, hback]
    exact hent
  · rintro ⟨o, -, hent⟩
    exact ⟨_, mem_range.mpr (Nat.mod_lt _ (by decide)), hent⟩

variable {o : Nat}

theorem firstSlot_eq_some (h : firstSlot w = some o) :
    o < wheelSlots ∧ w.dial.ahead o ≠ [] ∧ ∀ k < o, w.dial.ahead k = [] := by
  obtain ⟨hfound, i, hi, hget, hbefore⟩ := List.find?_eq_some_iff_getElem.mp h
  rw [length_range] at hi
  rw [getElem_range] at hget
  subst hget
  refine ⟨hi, fun hnil => ?_, fun k hk => ?_⟩
  · rw [hnil] at hfound
    cases hfound
  · have hempty := hbefore k hk
    rw [getElem_range, Bool.not_not] at hempty
    exact List.isEmpty_iff.mp hempty

theorem firstSlot_eq_none (h : firstSlot w = none) : levelEntries w = [] := by
  refine eq_nil_iff_forall_not_mem.mpr fun ent hent => ?_
  obtain ⟨o, ho, hent⟩ := mem_levelEntries.mp hent
  have hempty : w.dial.ahead o = [] := by
    simpa using List.find?_eq_none.mp h o (mem_range.mpr ho)
  rw [hempty] at hent
  cases hent

/-! ## Slots in the order of their times -/

variable {t₀ p : ℚ} {u j : Nat}

/-- Every entry is due in its slot, or was past and is under the hand. -/
def Placed (t₀ p : ℚ) (u j : Nat) (w : WheelLevel α) : Prop :=
  ∀ o < wheelSlots, ∀ ent ∈ w.dial.ahead o,
    (o = 0 ∨ j + o * u ≤ wheelTick t₀ p ent.time) ∧ wheelTick t₀ p ent.time < j + (o + 1) * u

theorem InPlace.placed (h : InPlace t₀ p u j w) : Placed t₀ p u j w :=
  fun o ho ent hent => ⟨.inr (h o ho ent hent).1, (h o ho ent hent).2⟩

theorem time_lt_of_wheelTick_lt (hp : 0 < p) {t t' : ℚ}
    (h : wheelTick t₀ p t < wheelTick t₀ p t') : t < t' := by
  by_contra hle
  exact absurd (WheelHistory.wheelTick_mono t₀ hp (not_lt.mp hle)) (Nat.not_le.mpr h)

theorem Aligned.le_of_mem_entries (h : Aligned t₀ p u j outers)
    (hent : ent ∈ outers.flatMap levelEntries) : j ≤ wheelTick t₀ p ent.time := by
  induction outers generalizing u j with
  | nil => cases hent
  | cons w rest ih =>
    obtain ⟨-, hplace, hrest⟩ := h
    rw [flatMap_cons, mem_append] at hent
    rcases hent with hent | hent
    · obtain ⟨o, ho, hent⟩ := mem_levelEntries.mp hent
      exact le_of_add_le_left (hplace o ho ent hent).1
    · exact le_of_add_le_left (ih hrest hent)

section

variable (hp : 0 < p) (h : Placed t₀ p u j w)
include hp h

/-- Entries that are due behind a slot are later than some entry in it. -/
theorem Placed.slotMinTime_le (ho : o < wheelSlots)
    (hne : w.dial.ahead o ≠ []) {later : List (TimerEntry α)}
    (hlater : ∀ ent ∈ later, j + (o + 1) * u ≤ wheelTick t₀ p ent.time) :
    slotMinTime (w.dial.ahead o) ≤ slotMinTime later := by
  obtain ⟨ent, hent⟩ := exists_mem_of_ne_nil _ hne
  have hmin := le_slotMinTime.mp le_rfl ent hent
  rw [le_slotMinTime]
  intro ent' hent'
  have hlt := (h o ho ent hent).2.trans_le (hlater ent' hent')
  exact hmin.trans (WithTop.coe_le_coe.mpr (time_lt_of_wheelTick_lt hp hlt).le)

/-- **The first slot with entries** has the smallest time of its wheel. -/
theorem Placed.slotMinTime_levelEntries (hfirst : firstSlot w = some o) :
    slotMinTime (levelEntries w) = slotMinTime (w.dial.ahead o) := by
  obtain ⟨ho, hne, hbefore⟩ := firstSlot_eq_some hfirst
  refine eq_of_forall_le_iff fun x => ⟨fun hx => ?_, fun hx => ?_⟩
  · rw [le_slotMinTime] at hx ⊢
    exact fun ent hent => hx ent (mem_levelEntries.mpr ⟨o, ho, hent⟩)
  · rw [le_slotMinTime]
    intro ent hent
    obtain ⟨k, hk, hent⟩ := mem_levelEntries.mp hent
    rcases Nat.lt_trichotomy k o with hlt | rfl | hgt
    · rw [hbefore k hlt] at hent
      cases hent
    · exact le_slotMinTime.mp hx ent hent
    · have hle : slotMinTime (w.dial.ahead o) ≤ slotMinTime [ent] := by
        refine h.slotMinTime_le hp ho hne fun ent' hent' => ?_
        rw [mem_singleton.mp hent']
        have hdue := (h k hk ent hent).1.resolve_left (by omega)
        have hmul : (o + 1) * u ≤ k * u := Nat.mul_le_mul_right u hgt
        omega
      exact hx.trans (le_slotMinTime.mp hle ent (mem_singleton_self ent))

/-- **Which outer slots matter**: for the first slot with entries none but the one under the hand of
the outer wheel, and this one only behind the end of the revolution. -/
theorem Placed.outer_times
    (hfirst : firstSlot w = some o) {outer : WheelLevel α} {rest : List (WheelLevel α)}
    (houters : Aligned t₀ p (wheelSlots * u) (j + (wheelSlots - w.dial.cur) * u) (outer :: rest)) :
    slotMinTime (w.dial.ahead o) ≤ slotMinTime (outer.dial.ahead o) ∧
      (w.dial.cur + o < wheelSlots →
        slotMinTime (w.dial.ahead o) ≤ slotMinTime (outer.dial.slots outer.dial.cur)) ∧
      (slotMinTime (w.dial.ahead o) ≤ slotMinTime (outer.dial.slots outer.dial.cur) ↔
        slotMinTime (w.dial.ahead o) ≤ slotMinTime ((outer :: rest).flatMap levelEntries)) := by
  obtain ⟨ho, hne, -⟩ := firstSlot_eq_some hfirst
  obtain ⟨-, hplace, hrest⟩ := houters
  have hcur := w.dial.cur_lt
  have hcur' := outer.dial.cur_lt
  -- A slot of the outer wheel behind its hand begins after the whole revolution of this one.
  have hbehind k (hk : 1 ≤ k) : j + (o + 1) * u ≤
      j + (wheelSlots - w.dial.cur) * u + k * (wheelSlots * u) := by
    have hone : (o + 1) * u ≤ wheelSlots * u := Nat.mul_le_mul_right u ho
    have hmany : 1 * (wheelSlots * u) ≤ k * (wheelSlots * u) := Nat.mul_le_mul_right _ hk
    omega
  refine ⟨?_, fun hround => ?_, ?_⟩
  · refine h.slotMinTime_le hp ho hne fun ent hent => ?_
    have hdue := (hplace o ho ent hent).1
    -- The slot under the hand is one of the revolution that is under way.
    rcases Nat.eq_zero_or_pos o with rfl | hpos
    · have hmul : (0 + 1) * u ≤ (wheelSlots - w.dial.cur) * u :=
        Nat.mul_le_mul_right u (by omega)
      omega
    · exact (hbehind o hpos).trans hdue
  · refine h.slotMinTime_le hp ho hne fun ent hent => ?_
    rw [← Dial.ahead_zero] at hent
    have hdue := (hplace 0 (by decide) ent hent).1
    have hmul : (o + 1) * u ≤ (wheelSlots - w.dial.cur) * u :=
      Nat.mul_le_mul_right u (by omega)
    omega
  · rw [← Dial.ahead_zero]
    constructor
    · intro hhand
      rw [le_slotMinTime] at hhand ⊢
      have hlater (ent : TimerEntry α) (hdue : j + (o + 1) * u ≤ wheelTick t₀ p ent.time) :
          slotMinTime (w.dial.ahead o) ≤ ent.time := by
        have hle : slotMinTime (w.dial.ahead o) ≤ slotMinTime [ent] :=
          h.slotMinTime_le hp ho hne fun ent' hent' => by rwa [mem_singleton.mp hent']
        exact le_slotMinTime.mp hle ent (mem_singleton_self ent)
      intro ent hent
      rw [flatMap_cons, mem_append] at hent
      rcases hent with hent | hent
      · obtain ⟨k, hk, hent⟩ := mem_levelEntries.mp hent
        rcases Nat.eq_zero_or_pos k with rfl | hpos
        · exact hhand ent hent
        · exact hlater ent ((hbehind k hpos).trans (hplace k hk ent hent).1)
      · have hdue := hrest.le_of_mem_entries hent
        have hmul : 1 * (wheelSlots * u) ≤ (wheelSlots - outer.dial.cur) * (wheelSlots * u) :=
          Nat.mul_le_mul_right _ (by omega)
        have hone := hbehind 1 le_rfl
        exact hlater ent (by omega)
    · intro hall
      rw [le_slotMinTime] at hall ⊢
      intro ent hent
      refine hall ent (mem_flatMap.mpr ⟨outer, mem_cons_self, ?_⟩)
      exact mem_levelEntries.mpr ⟨0, by decide, hent⟩

/-- **The time of the next entry** is found if and only if the first slot with entries is the next
one. -/
theorem nextEntryTime_eq_iff
    (houters : Aligned t₀ p (wheelSlots * u) (j + (wheelSlots - w.dial.cur) * u) outers) :
    nextEntryTime w outers = slotMinTime (pendingEntries w outers) ↔
      FirstSlotIsNext w outers := by
  induction outers generalizing w u j with
  | nil =>
    rw [pendingEntries, flatMap_singleton]
    refine iff_of_true ?_ trivial
    unfold nextEntryTime
    cases hfirst : firstSlot w with
    | none =>
      rw [firstSlot_eq_none hfirst]
      rfl
    | some o => exact (h.slotMinTime_levelEntries hp hfirst).symm
  | cons outer rest ih =>
    have hpending : pendingEntries w (outer :: rest) =
        levelEntries w ++ pendingEntries outer rest := rfl
    rw [hpending]
    unfold nextEntryTime FirstSlotIsNext
    cases hfirst : firstSlot w with
    | none =>
      rw [firstSlot_eq_none hfirst]
      obtain ⟨hat, hplace, hrest⟩ := houters
      exact ih hplace.placed hrest
    | some o =>
      obtain ⟨hsame, hround, hall⟩ := h.outer_times hp hfirst houters
      rw [slotMinTime_append, h.slotMinTime_levelEntries hp hfirst]
      simp only
      rw [← slotMinTime_le_slotMinTime, min_eq_left hsame, left_eq_inf,
        or_iff_right_of_imp hround]
      exact hall.symm

end

/-! ## The innermost wheel -/

/-- The entries of the innermost wheel are in the slots of the ticks that schedule them, those that
were past when added under the hand. -/
def Near (t₀ p : ℚ) (j : Nat) (w : WheelLevel α) : Prop :=
  ∀ x ∈ w.dial.total Prod.mk, max j (wheelTick t₀ p x.2.time) = j + x.1

theorem Near.placed (h : Near t₀ p j w) : Placed t₀ p 1 j w := by
  intro o ho ent hent
  have hnear : max j (wheelTick t₀ p ent.time) = j + o :=
    h (o, ent) ((Dial.mem_ahead_iff ho).mp hent)
  omega

theorem near_new (t₀ p : ℚ) (j : Nat) : Near t₀ p j (newTimerWheel t₀ p : WheelLevel α) := by
  intro x hx
  obtain ⟨o, -, ent, hent, -⟩ := Dial.mem_total.mp hx
  cases hent

theorem Near.pushNode (h : Near t₀ p j w) (hslot : wheelTick t₀ p ent.time - j < wheelSlots) :
    Near t₀ p j
      (pushNode w ((w.dial.cur + (wheelTick t₀ p ent.time - j)) % wheelSlots) ent) := by
  intro x hx
  rw [TimerWheel.pushNode, Dial.total_put hslot] at hx
  rcases Multiset.mem_add.mp hx with hx | hx
  · exact h x hx
  · rw [Multiset.mem_singleton.mp hx]
    show max j (wheelTick t₀ p ent.time) = j + (wheelTick t₀ p ent.time - j)
    omega

theorem Near.turn (h : Near t₀ p j w) {now period rate : ℚ} :
    Near t₀ p (j + 1) ⟨now, period, rate, w.dial.turn⟩ := by
  intro x hx
  obtain ⟨o, ho, ent, hent, rfl⟩ := Dial.mem_total.mp hx
  obtain ⟨ho', hent'⟩ := Dial.mem_ahead_turn ho hent
  have hnear : max j (wheelTick t₀ p ent.time) = j + (o + 1) :=
    h (o + 1, ent) ((Dial.mem_ahead_iff ho').mp hent')
  show max (j + 1) (wheelTick t₀ p ent.time) = j + 1 + o
  omega

theorem Near.foldl_put (h : Near t₀ p j w) (hcur : w.dial.cur = 0) {moved : List (TimerEntry α)}
    (hmoved : ∀ ent ∈ moved, j ≤ wheelTick t₀ p ent.time ∧
      wheelTick t₀ p ent.time < j + wheelSlots * 1) {w' : WheelLevel α}
    (hdial : w'.dial = moved.foldl
      (fun d ent => d.put ((wheelTick t₀ p ent.time - j) / 1) ent) w.dial) :
    Near t₀ p j w' := by
  have hidx : ∀ ent ∈ moved, (wheelTick t₀ p ent.time - j) / 1 < wheelSlots := by
    intro ent hent
    have hbounds := hmoved ent hent
    omega
  intro x hx
  rw [hdial, Dial.total_foldl_put hcur hidx] at hx
  rcases Multiset.mem_add.mp hx with hx | hx
  · exact h x hx
  · obtain ⟨ent, hent, rfl⟩ := Multiset.mem_map.mp hx
    show max j (wheelTick t₀ p ent.time) = j + (wheelTick t₀ p ent.time - j) / 1
    omega

variable {c : Calendar α} {v : TimerWheel α}

/-- An entry that is added goes under the hand, into the slot of its time, or to an outer wheel. -/
theorem Near.addAbsolute (hp : 0 < p) (hv : Represents t₀ p c v) (h : Near t₀ p c.next v.inner)
    {t : ℚ} {obj : α} {v' : TimerWheel α} (hadd : v.addAbsolute t obj = some v') :
    Near t₀ p c.next v'.inner := by
  have hfuel : (wheelTick t₀ p t - c.next) / 1 < offset v.inner t + 1 := by
    rw [offset_eq hp Nat.one_pos hv.inner t]
    exact Nat.lt_succ_self _
  obtain ⟨inner', outers', hloop, -, hcase⟩ :=
    addAbsoluteLoop_spec hp Nat.one_pos hv.inner hv.outers ⟨t, obj⟩ hfuel
  rw [TimerWheel.addAbsolute, hloop] at hadd
  cases hadd
  rw [Nat.div_one] at hcase
  split at hcase
  · next hslot =>
    obtain ⟨rfl, -⟩ := hcase
    exact h.pushNode hslot
  · obtain ⟨rfl, -⟩ := hcase
    exact h

/-- A tick leaves every entry in the slot of its tick, also those that move in. -/
theorem Near.tickWheel (hp : 0 < p) (hv : Represents t₀ p c v) (h : Near t₀ p c.next v.inner) :
    Near t₀ p (c.next + 1) v.tickWheel.inner := by
  obtain ⟨inner', hinner'⟩ : ∃ inner' : WheelLevel α, inner' = ⟨v.inner.now + v.inner.period,
    v.inner.period, v.inner.rate, v.inner.dial.turn⟩ := ⟨_, rfl⟩
  have hnear : Near t₀ p (c.next + 1) inner' := by
    rw [hinner']
    exact h.turn
  have htick : v.tickWheel = if inner'.dial.cur = 0 then
      ⟨(tickOuter inner' v.outers).1, (tickOuter inner' v.outers).2⟩ else ⟨inner', v.outers⟩ := by
    subst hinner'
    rfl
  rw [htick]
  split
  · next hround =>
    have hat : At t₀ p 1 (c.next + 1) inner' := by
      subst hinner'
      refine ⟨?_, hv.inner.period, hv.inner.rate⟩
      rw [hv.inner.now, hv.inner.period]
      push_cast
      ring
    have hlt := v.inner.dial.cur_lt
    have hbegin : c.next + (wheelSlots - v.inner.dial.cur) * 1 = c.next + 1 := by
      by_contra hne
      have hcur : inner'.dial.cur = (v.inner.dial.cur + 1) % wheelSlots := by
        subst hinner'
        rfl
      rw [hcur, Nat.mod_eq_of_lt (by omega)] at hround
      omega
    have houters := hv.outers
    rw [hbegin] at houters
    obtain ⟨moved, hmoved, -, hdial, -, -⟩ := tickOuter_spec hp Nat.one_pos hat hround houters
    exact hnear.foldl_put hround hmoved hdial
  · exact hnear

end TimerWheel

/-! ## After every sequence of calls -/

namespace WheelHistory

open TimerWheel

variable {α : Type} {t₀ p : ℚ} {c : Calendar α} {s : WheelHistory α}

theorem near_ticks (hp : 0 < p) (hs : Keeps t₀ p c s) (h : Near t₀ p c.next s.wheel.inner)
    (n : Nat) : Near t₀ p (c.next + n) (WheelHistory.tick^[n] s).wheel.inner := by
  induction n with
  | zero => exact h
  | succ n ih =>
    obtain ⟨rest, hrest⟩ := hs.ticks hp n
    rw [Function.iterate_succ_apply']
    exact ih.tickWheel hp hrest.represents

theorem near_step (hp : 0 < p) (hs : Keeps t₀ p c s) (h : Near t₀ p c.next s.wheel.inner)
    (call : WheelCall α) :
    ∃ s', step s call = .ok s' ∧
      ∃ c' : Calendar α, Keeps t₀ p c' s' ∧ Near t₀ p c'.next s'.wheel.inner := by
  have hadd t obj : ∃ s', s.addAbsolute t obj = .ok s' ∧
      ∃ c' : Calendar α, Keeps t₀ p c' s' ∧ Near t₀ p c'.next s'.wheel.inner := by
    obtain ⟨s', hs', -, -, hkeeps⟩ := hs.addAbsolute hp t obj
    refine ⟨s', hs', _, hkeeps, ?_⟩
    rw [WheelHistory.addAbsolute] at hs'
    split at hs'
    · next v' hv' =>
      cases hs'
      exact h.addAbsolute hp hs.represents hv'
    · cases hs'
  cases call with
  | addAbsolute t obj => exact hadd t obj
  | addDelta dt obj => exact hadd (s.now + dt) obj
  | advance t =>
    obtain ⟨rest, hrest⟩ := hs.ticks hp (wheelTick t₀ p t - c.next)
    exact ⟨_, advance_spec hp hs t, _, hrest, near_ticks hp hs h _⟩

/-- **The time of the next entry**: after every sequence of calls, it is the smallest time of all
entries that are pending if and only if the first slot with entries is the next one. -/
theorem next_entry_exact_iff (hp : 0 < p) (calls : List (WheelCall α)) :
    ∃ s, run step (new t₀ p) calls = .ok s ∧
      (nextEntryTime s.wheel.inner s.wheel.outers =
          slotMinTime (pendingEntries s.wheel.inner s.wheel.outers) ↔
        FirstSlotIsNext s.wheel.inner s.wheel.outers) := by
  have halong : Along step (fun _ _ => True) (new t₀ p) calls :=
    along_true
  obtain ⟨s, hrun, c, hkeeps, hnear⟩ := run_total
    (I := fun s _ => ∃ c : Calendar α, Keeps t₀ p c s ∧ Near t₀ p c.next s.wheel.inner)
    (fun s call _ hI _ => by
      obtain ⟨c, hkeeps, hnear⟩ := hI
      exact near_step hp hkeeps hnear call)
    ⟨_, keeps_new t₀ p, near_new t₀ p 0⟩ halong
  exact ⟨s, hrun, nextEntryTime_eq_iff hp hnear.placed hkeeps.represents.outers⟩

/-- Both the slots behind the hand and an outer wheel have entries, the next one is behind the
hand. -/
def overlappingCalls : List (WheelCall Nat) :=
  [.addAbsolute 700 1, .advance 100, .addAbsolute 350 2, .addAbsolute (641 / 2) 3]

theorem next_entry_exact_iff_overlapping :
    ∃ s, run step (new 0 1) overlappingCalls = .ok s ∧
      nextEntryTime s.wheel.inner s.wheel.outers = (641 / 2 : ℚ) ∧
      (nextEntryTime s.wheel.inner s.wheel.outers =
          slotMinTime (pendingEntries s.wheel.inner s.wheel.outers) ↔
        FirstSlotIsNext s.wheel.inner s.wheel.outers) := by
  obtain ⟨s, hs, hexact⟩ := next_entry_exact_iff (show (0 : ℚ) < 1 by decide) overlappingCalls
  obtain ⟨s', hs', htime⟩ := ok_of_any (r := run step (new 0 1) overlappingCalls)
    (q := fun s =>
      decide (nextEntryTime s.wheel.inner s.wheel.outers = ((641 / 2 : ℚ) : WithTop ℚ)))
    (by decide +kernel)
  obtain rfl := ok_unique hs hs'
  exact ⟨s, hs, of_decide_eq_true htime, hexact⟩

/-- An entry that has not moved in yet, and a later one behind the end of the revolution. -/
def oversleptCalls : List (WheelCall Nat) := [.addAbsolute 300 1, .advance 100, .addAbsolute 350 2]

theorem next_entry_overslept :
    ¬ ∀ (calls : List (WheelCall Nat)) (s : WheelHistory Nat), run step (new 0 1) calls = .ok s →
      nextEntryTime s.wheel.inner s.wheel.outers =
        slotMinTime (pendingEntries s.wheel.inner s.wheel.outers) := by
  intro hall
  obtain ⟨s, hs, hwrong⟩ := ok_of_any (r := run step (new 0 1) oversleptCalls)
    (q := fun s => decide (nextEntryTime s.wheel.inner s.wheel.outers ≠
      slotMinTime (pendingEntries s.wheel.inner s.wheel.outers))) (by decide +kernel)
  exact of_decide_eq_true hwrong (hall oversleptCalls s hs)

end WheelHistory

end Snabb
