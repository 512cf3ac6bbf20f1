import Mathlib.Data.List.Basic

/-!
# A sequence on several lanes

A sender distributes the items of a sequence over lanes, each of which keeps the order
of its items. A receiver that has taken the first `k` items sees, on every lane, what
is left of the sequence from position `k` on. It only looks at the first item of a
lane; the lemmas of this module say what that tells it about the sequence.

- `lane_drop_self`, `lane_drop_of_ne`: taking the next item from its lane;
- `lane_eq_cons`: the first item of a lane is at position `k`, or the item at position
  `k` is on another lane.
-/

namespace Foundation

open List

variable {α β : Type} [DecidableEq β]

/-- The items of a sequence that are on lane `i`. -/
def lane (port : α → β) (i : β) (l : List α) : List α := l.filter fun a => port a = i

variable {port : α → β} {i : β} {a : α} {l rest : List α} {k : Nat}

theorem lane_append (l l' : List α) : lane port i (l ++ l') = lane port i l ++ lane port i l' :=
  filter_append ..

theorem mem_lane : a ∈ lane port i l ↔ a ∈ l ∧ port a = i := by
  rw [lane, mem_filter, decide_eq_true_eq]

theorem drop_eq_cons (h : l[k]? = some a) : l.drop k = a :: l.drop (k + 1) := by
  obtain ⟨hk, rfl⟩ := List.getElem?_eq_some_iff.mp h
  exact drop_eq_getElem_cons hk

/-- The next item is the first one of its lane. -/
theorem lane_drop_self (h : l[k]? = some a) (hi : port a = i) :
    lane port i (l.drop k) = a :: lane port i (l.drop (k + 1)) := by
  rw [drop_eq_cons h]
  exact filter_cons_of_pos (decide_eq_true hi)

theorem lane_drop_of_ne (h : l[k]? = some a) (hi : port a ≠ i) :
    lane port i (l.drop k) = lane port i (l.drop (k + 1)) := by
  rw [drop_eq_cons h]
  exact filter_cons_of_neg (by simpa using hi)

/-- The first item of a lane has a position. It is the next one unless the next item is
on another lane. -/
theorem lane_eq_cons (h : lane port i (l.drop k) = a :: rest) :
    ∃ m, k ≤ m ∧ l[m]? = some a ∧ port a = i ∧ (m = k ∨ ∀ b, l[k]? = some b → port b ≠ i) := by
  by_cases hnext : ∃ b, l[k]? = some b ∧ port b = i
  · obtain ⟨b, hb, hi⟩ := hnext
    rw [lane_drop_self hb hi] at h
    cases h
    exact ⟨k, Nat.le_refl _, hb, hi, Or.inl rfl⟩
  · have hmem : a ∈ lane port i (l.drop k) := by
      rw [h]
      exact mem_cons_self ..
    obtain ⟨hdrop, hi⟩ := mem_lane.mp hmem
    obtain ⟨n, hn⟩ := mem_iff_getElem?.mp hdrop
    rw [List.getElem?_drop] at hn
    exact ⟨k + n, Nat.le_add_right _ _, hn, hi, Or.inr fun b hb hbi => hnext ⟨b, hb, hbi⟩⟩

/-- A sequence is used up when all of its lanes are. -/
theorem eq_nil_of_lanes (h : ∀ i, lane port i l = []) : l = [] := by
  cases l with
  | nil => rfl
  | cons a l =>
    have hmem : a ∈ lane port (port a) (a :: l) := mem_lane.mpr ⟨mem_cons_self .., rfl⟩
    rw [h] at hmem
    cases hmem

end Foundation
