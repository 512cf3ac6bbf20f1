import Mathlib.Algebra.BigOperators.Group.Finset.Piecewise
import Mathlib.Algebra.Order.Group.Multiset
import Mathlib.Data.Multiset.Filter
import Mathlib.Data.Nat.ModEq
import Mathlib.Tactic.Abel

/-!
# Dials and calendars

A dial is a circle of `n` slots with a hand on one of them. Items are put into slots, and a
turn empties the slot under the hand and moves the hand on. Seen from the hand, the slots
are numbered by their distance: `ahead`. `total` collects the items of all slots, each
together with its distance.

- `total_put`, `total_turn`: what the two operations do to the total.

A calendar says what dials are used for: items are due at numbered ticks, and every tick
fires the items that are due at it. `Calendar.Kept` relates what is pending to what was
added and what was fired.

- `Calendar.Kept.fired_perm`: every item is fired once, at its tick.
-/

namespace Foundation

open List

/-- A circle of `n` slots and a hand. -/
structure Dial (n : Nat) (α : Type) where
  cur : Nat
  slots : Nat → List α
  cur_lt : cur < n

namespace Dial

variable {n : Nat} {α β : Type}

/-- A dial without items, whose hand is on the first slot. -/
def new (n : Nat) (h : 0 < n) : Dial n α where
  cur := 0
  slots := fun _ => []
  cur_lt := h

/-- The slot at distance `o` from the hand. -/
def ahead (d : Dial n α) (o : Nat) : List α := d.slots ((d.cur + o) % n)

/-- Put an item into a slot. -/
def put (d : Dial n α) (idx : Nat) (a : α) : Dial n α :=
  { d with slots := Function.update d.slots idx (d.slots idx ++ [a]) }

/-- Empty the slot under the hand, and move the hand on. -/
def turn (d : Dial n α) : Dial n α where
  cur := (d.cur + 1) % n
  slots := Function.update d.slots d.cur []
  cur_lt := Nat.mod_lt _ (Nat.zero_lt_of_lt d.cur_lt)

/-- The items of all slots, each turned into an element by its distance. It is not to be
computed: a dial may have many slots. -/
@[irreducible] def total (d : Dial n α) (f : Nat → α → β) : Multiset β :=
  ∑ o ∈ Finset.range n, Multiset.map (f o) (d.ahead o)

variable {d : Dial n α} {f g : Nat → α → β} {a : α} {o k : Nat}

@[simp] theorem put_cur (d : Dial n α) (idx : Nat) (a : α) : (d.put idx a).cur = d.cur := rfl

theorem ahead_new (h : 0 < n) (o : Nat) : (new n h : Dial n α).ahead o = [] := rfl

theorem ahead_zero (d : Dial n α) : d.ahead 0 = d.slots d.cur := by
  rw [ahead, Nat.add_zero, Nat.mod_eq_of_lt d.cur_lt]

/-- Different distances below `n` lead to different slots. -/
theorem index_inj (ho : o < n) (hk : k < n) : (d.cur + o) % n = (d.cur + k) % n ↔ o = k := by
  refine ⟨fun h => ?_, fun h => h ▸ rfl⟩
  exact (Nat.ModEq.add_left_cancel' d.cur h).eq_of_lt_of_lt ho hk

theorem ahead_put (ho : o < n) (hk : k < n) (a : α) :
    (d.put ((d.cur + o) % n) a).ahead k = if k = o then d.ahead k ++ [a] else d.ahead k := by
  show Function.update d.slots ((d.cur + o) % n) _ ((d.cur + k) % n) = _
  rw [Function.update_apply]
  simp only [index_inj hk ho]
  split
  · next heq => rw [heq, ahead]
  · rfl

theorem ahead_turn (ho : o + 1 < n) : d.turn.ahead o = d.ahead (o + 1) := by
  have hindex : (d.turn.cur + o) % n = (d.cur + (o + 1)) % n := by
    show ((d.cur + 1) % n + o) % n = _
    rw [Nat.mod_add_mod, Nat.add_assoc, Nat.add_comm 1 o]
  have hne : (d.cur + (o + 1)) % n ≠ d.cur := by
    intro h
    have hzero : (d.cur + (o + 1)) % n = (d.cur + 0) % n := by
      rw [h, Nat.add_zero, Nat.mod_eq_of_lt d.cur_lt]
    cases (index_inj ho (by omega)).mp hzero
  rw [ahead, hindex]
  exact Function.update_of_ne hne _ _

/-- The slot that the hand has left is empty. -/
theorem ahead_turn_last (ho : o + 1 = n) : d.turn.ahead o = [] := by
  have hcur := d.cur_lt
  have hindex : (d.turn.cur + o) % n = d.cur := by
    show ((d.cur + 1) % n + o) % n = _
    rw [Nat.mod_add_mod, show d.cur + 1 + o = d.cur + n by omega, Nat.add_mod_right,
      Nat.mod_eq_of_lt hcur]
  rw [ahead, hindex]
  exact Function.update_self _ _ _

/-- An item that is put in adds to the total. -/
theorem total_put (ho : o < n) (a : α) (f : Nat → α → β) :
    (d.put ((d.cur + o) % n) a).total f = d.total f + {f o a} := by
  have hslot : ∀ k ∈ Finset.range n,
      Multiset.map (f k) ((d.put ((d.cur + o) % n) a).ahead k) =
        Multiset.map (f k) (d.ahead k) + if k = o then {f o a} else 0 := by
    intro k hk
    rw [ahead_put ho (Finset.mem_range.mp hk)]
    split
    · next heq =>
      rw [heq, ← Multiset.coe_add, Multiset.map_add, Multiset.coe_singleton,
        Multiset.map_singleton]
    · rw [add_zero]
  rw [total, Finset.sum_congr rfl hslot, Finset.sum_add_distrib, Finset.sum_ite_eq',
    if_pos (Finset.mem_range.mpr ho), total]

/-- A turn takes the items under the hand out of the total, and brings the others one closer. -/
theorem total_turn (d : Dial n α) (f : Nat → α → β) :
    d.total f = Multiset.map (f 0) (d.ahead 0) + d.turn.total fun o => f (o + 1) := by
  obtain ⟨m, rfl⟩ := Nat.exists_eq_succ_of_ne_zero (Nat.ne_zero_of_lt d.cur_lt)
  have hslot : ∀ k ∈ Finset.range m,
      Multiset.map (f (k + 1)) (d.turn.ahead k) = Multiset.map (f (k + 1)) (d.ahead (k + 1)) := by
    intro k hk
    rw [ahead_turn (by have := Finset.mem_range.mp hk; omega)]
  rw [total, Finset.sum_range_succ', total, Finset.sum_range_succ, ahead_turn_last rfl,
    Finset.sum_congr rfl hslot, Multiset.coe_nil, Multiset.map_zero, add_zero, add_comm]

theorem mem_total {b : β} : b ∈ d.total f ↔ ∃ o < n, ∃ a ∈ d.ahead o, f o a = b := by
  simp [total]

theorem total_congr (h : ∀ o < n, ∀ a ∈ d.ahead o, f o a = g o a) : d.total f = d.total g := by
  rw [total, total]
  refine Finset.sum_congr rfl fun o ho => ?_
  exact Multiset.map_congr rfl fun a ha => h o (Finset.mem_range.mp ho) a ha

theorem mem_ahead_iff (ho : o < n) : a ∈ d.ahead o ↔ (o, a) ∈ d.total Prod.mk := by
  rw [mem_total]
  constructor
  · intro ha
    exact ⟨o, ho, a, ha, rfl⟩
  · rintro ⟨k, -, b, hb, heq⟩
    cases heq
    exact hb

theorem mem_ahead_turn (ho : o < n) (ha : a ∈ d.turn.ahead o) : o + 1 < n ∧ a ∈ d.ahead (o + 1) := by
  rcases Nat.lt_or_eq_of_le (Nat.succ_le_of_lt ho) with hlt | heq
  · exact ⟨hlt, by rwa [ahead_turn hlt] at ha⟩
  · rw [ahead_turn_last heq] at ha
    cases ha

/-- Items that are put in while the hand is on the first slot, each into a slot of its own
choice. -/
theorem total_foldl_put {idx : α → Nat} {items : List α} (hcur : d.cur = 0)
    (hidx : ∀ a ∈ items, idx a < n) (f : Nat → α → β) :
    (items.foldl (fun d a => d.put (idx a) a) d).total f =
      d.total f + Multiset.map (fun a => f (idx a) a) items := by
  induction items generalizing d with
  | nil => simp
  | cons a items ih =>
    obtain ⟨hhead, htail⟩ := forall_mem_cons.mp hidx
    have hindex : (d.cur + idx a) % n = idx a := by
      rw [hcur, Nat.zero_add, Nat.mod_eq_of_lt hhead]
    have hput := total_put (d := d) hhead a f
    rw [hindex] at hput
    have htotal := ih (d := d.put (idx a) a) hcur htail
    rw [foldl_cons, htotal, hput, ← Multiset.cons_coe, Multiset.map_cons, add_assoc,
      Multiset.singleton_add]

theorem foldl_put_cur (idx : α → Nat) (items : List α) (d : Dial n α) :
    (items.foldl (fun d a => d.put (idx a) a) d).cur = d.cur := by
  induction items generalizing d with
  | nil => rfl
  | cons a items ih => rw [foldl_cons, ih, put_cur]

theorem total_new (h : 0 < n) (f : Nat → α → β) : (new n h : Dial n α).total f = 0 := by
  simp [total, ahead_new]

end Dial

/-! ## Calendars -/

/-- Items that are due at ticks, and the number of the tick that comes next. -/
structure Calendar (α : Type) where
  next : Nat
  pending : Multiset (Nat × α)

namespace Calendar

variable {α : Type} {c : Calendar α} {added : Multiset (Nat × α)} {fired : List (Nat × α)}

/-- What was added is pending or was fired. What is pending is due at a tick to come; the ticks
that have fired are past, and have fired in order. -/
structure Kept (c : Calendar α) (added : Multiset (Nat × α)) (fired : List (Nat × α)) : Prop where
  conserved : added = c.pending + fired
  ahead : ∀ x ∈ c.pending, c.next ≤ x.1
  past : ∀ x ∈ fired, x.1 < c.next
  inOrder : fired.Pairwise fun x y => x.1 ≤ y.1

theorem Kept.new : Kept ⟨0, 0⟩ (0 : Multiset (Nat × α)) [] where
  conserved := rfl
  ahead := by simp
  past := by simp
  inOrder := .nil

variable (h : Kept c added fired)
include h

theorem Kept.add {x : Nat × α} (hx : c.next ≤ x.1) :
    Kept { c with pending := c.pending + {x} } (added + {x}) fired where
  conserved := by rw [h.conserved, add_right_comm]
  ahead := by
    intro y hy
    rcases Multiset.mem_add.mp hy with hy | hy
    · exact h.ahead y hy
    · rwa [Multiset.mem_singleton.mp hy]
  past := h.past
  inOrder := h.inOrder

theorem Kept.tick {batch : List α} {rest : Multiset (Nat × α)}
    (hpending : c.pending = Multiset.map (fun a => (c.next, a)) batch + rest)
    (hrest : ∀ x ∈ rest, c.next < x.1) :
    Kept ⟨c.next + 1, rest⟩ added (fired ++ batch.map fun a => (c.next, a)) where
  conserved := by
    rw [h.conserved, hpending, ← Multiset.coe_add, Multiset.map_coe]
    abel
  ahead := hrest
  past := by
    intro x hx
    rcases mem_append.mp hx with hx | hx
    · exact Nat.lt_succ_of_lt (h.past x hx)
    · obtain ⟨a, -, rfl⟩ := mem_map.mp hx
      exact Nat.lt_succ_self _
  inOrder := by
    refine pairwise_append.mpr ⟨h.inOrder, ?_, ?_⟩
    · rw [pairwise_map]
      exact pairwise_of_forall fun _ _ => le_rfl
    · intro x hx y hy
      obtain ⟨a, -, rfl⟩ := mem_map.mp hy
      exact (h.past x hx).le

/-- **Every item is fired once, at its tick**: what was fired is what was added for a tick that
is past. -/
theorem Kept.fired_perm : (fired : Multiset (Nat × α)) = added.filter fun x => x.1 < c.next := by
  have hpending : c.pending.filter (fun x => x.1 < c.next) = 0 :=
    Multiset.filter_eq_nil.mpr fun x hx => Nat.not_lt.mpr (h.ahead x hx)
  have hfired : Multiset.filter (fun x => x.1 < c.next) (fired : Multiset (Nat × α)) = fired :=
    Multiset.filter_eq_self.mpr fun x hx => h.past x hx
  rw [h.conserved, Multiset.filter_add, hpending, hfired, zero_add]

end Calendar

end Foundation
