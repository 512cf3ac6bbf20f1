import Mathlib.Data.List.Basic
import Mathlib.Data.List.Pairwise
import Mathlib.Data.Nat.Init
import Mathlib.Order.Nat

/-!
# Interval tables

An interval table lists the last points of intervals that follow each other, with a value for
each interval. A point belongs to the first interval that does not end before it. Entries can be
dropped that have the value of their successor.

- `bisect_ok`: a bisection finds the place where a predicate turns, and reads nothing else than
  the range that it is given;
- `value_remaining`: after dropping entries the points have the values that they had.
-/

namespace Foundation.IntervalTable

open List

/-! ## Bisection -/

section

variable {ε : Type}

/-- Look for the first place in a range that is not below. -/
def bisect (below : Int → Except ε Bool) (bottom top : Int) : Except ε Int :=
  if bottom < top then do
    let mid := bottom + (top - bottom) / 2
    if ← below mid then bisect below (mid + 1) top else bisect below bottom mid
  else .ok top
termination_by (top - bottom).toNat

/-- **A bisection finds the turn** if it is in the range. -/
theorem bisect_ok {below : Int → Except ε Bool} {bottom top k : Int} (hbottom : bottom ≤ k)
    (htop : k ≤ top) (h : ∀ m, bottom ≤ m → m < top → below m = .ok (decide (m < k))) :
    bisect below bottom top = .ok k := by
  rw [bisect]
  by_cases hlt : bottom < top
  · have hmid : below (bottom + (top - bottom) / 2) = _ := h _ (by omega) (by omega)
    rw [if_pos hlt]
    show (below (bottom + (top - bottom) / 2) >>= _) = _
    rw [hmid]
    show (if decide (bottom + (top - bottom) / 2 < k) = true then _ else _) = _
    by_cases hk : bottom + (top - bottom) / 2 < k
    · rw [if_pos (decide_eq_true hk)]
      exact bisect_ok (by omega) htop fun m hm hm' => h m (by omega) hm'
    · rw [if_neg (by simpa using hk)]
      exact bisect_ok hbottom (by omega) fun m hm hm' => h m hm (by omega)
  · rw [if_neg hlt, show top = k by omega]
termination_by (top - bottom).toNat

end

/-! ## Entries -/

section

variable {α : Type} {same : α → α → Prop} [DecidableRel same] {f : Nat → α}

/-- Of the first `n` elements of a sequence those that are not the same as their successor. -/
def remaining (same : α → α → Prop) [DecidableRel same] (f : Nat → α) : Nat → List α
  | 0 => []
  | n + 1 => remaining same f n ++ if same (f n) (f (n + 1)) then [] else [f n]

theorem length_remaining_le (n : Nat) : (remaining same f n).length ≤ n := by
  induction n with
  | zero => exact le_rfl
  | succ n ih =>
    rw [remaining, List.length_append]
    split_ifs
    · exact ih.trans (Nat.le_succ n)
    · exact Nat.succ_le_succ ih

theorem exists_of_mem_remaining {n : Nat} {x : α} (h : x ∈ remaining same f n) : ∃ k < n, x = f k := by
  induction n with
  | zero => cases h
  | succ n ih =>
    rw [remaining] at h
    rcases mem_append.mp h with h | h
    · obtain ⟨k, hk, rfl⟩ := ih h
      exact ⟨k, hk.trans (Nat.lt_succ_self n), rfl⟩
    · split_ifs at h
      · cases h
      · exact ⟨n, Nat.lt_succ_self n, mem_singleton.mp h⟩

/-- What holds from an element to all later ones holds between the elements that are remaining. -/
theorem pairwise_remaining {R : α → α → Prop} {n : Nat} (h : ∀ i j, i < j → j < n → R (f i) (f j)) :
    (remaining same f n).Pairwise R := by
  induction n with
  | zero => exact .nil
  | succ n ih =>
    rw [remaining, pairwise_append]
    refine ⟨ih fun i j hij hj => h i j hij (hj.trans (Nat.lt_succ_self n)), ?_, fun x hx y hy => ?_⟩
    · split_ifs
      · exact .nil
      · exact pairwise_singleton _ _
    · obtain ⟨k, hk, rfl⟩ := exists_of_mem_remaining hx
      split_ifs at hy
      · cases hy
      · rw [mem_singleton.mp hy]
        exact h k n hk (Nat.lt_succ_self n)

end

section

variable {V : Type} {same : Nat × V → Nat × V → Prop} [DecidableRel same] {f : Nat → Nat × V}
  {n a k : Nat}

/-- Entry `k` is the first of `n + 1` entries that does not end before `a`, or the last one. -/
structure Finds (f : Nat → Nat × V) (n a k : Nat) : Prop where
  le : k ≤ n
  below : ∀ i < k, (f i).1 < a
  found : k = n ∨ a ≤ (f k).1

/-- The value that a list of entries gives a point, with a default behind its end. -/
def value (es : List (Nat × V)) (d : V) (a : Nat) : V :=
  ((es.find? fun e => a ≤ e.1).map Prod.snd).getD d

/-- **Dropping entries that have the value of their successor changes no value.** -/
theorem value_remaining (hsame : ∀ x y, same x y → x.2 = y.2) (hmono : ∀ i < n, (f i).1 ≤ (f (i + 1)).1)
    (h : Finds f n a k) : value (remaining same f n) (f n).2 a = (f k).2 := by
  induction n generalizing k with
  | zero =>
    obtain rfl : k = 0 := Nat.le_zero.mp h.le
    rfl
  | succ n ih =>
    have hall : ∀ i j, i ≤ j → j ≤ n → (f i).1 ≤ (f j).1 := by
      intro i j hij
      induction hij with
      | refl => exact fun _ => le_rfl
      | @step j _ ihj => exact fun hj => (ihj (by omega)).trans (hmono j (by omega))
    rw [remaining, value, List.find?_append]
    by_cases hk : k ≤ n
    · have hak : a ≤ (f k).1 := h.found.resolve_left (by omega)
      have hvalue := ih (fun i hi => hmono i (by omega)) ⟨hk, h.below, .inr hak⟩
      rw [value] at hvalue
      cases hfind : (remaining same f n).find? fun e => a ≤ e.1 with
      | some o =>
        rw [hfind] at hvalue
        exact hvalue
      | none =>
        rw [hfind] at hvalue
        rw [← hvalue]
        split_ifs with heq
        · exact (hsame _ _ heq).symm
        · rw [List.find?_singleton, if_pos (decide_eq_true (hak.trans (hall k n hk le_rfl)))]
          rfl
    · obtain rfl : k = n + 1 := by have := h.le; omega
      have hfind : (remaining same f n).find? (fun e => decide (a ≤ e.1)) = none := by
        rw [List.find?_eq_none]
        intro x hx
        obtain ⟨i, hi, rfl⟩ := exists_of_mem_remaining hx
        simpa using h.below i (by omega)
      rw [hfind]
      split_ifs with heq
      · rfl
      · rw [List.find?_singleton, if_neg (by simpa using h.below n (Nat.lt_succ_self n))]
        rfl

/-! ## Where a point is found -/

/-- The number of entries that end before a point. -/
def place (es : List (Nat × V)) (a : Nat) : Nat := es.findIdx fun e => a ≤ e.1

theorem place_le (es : List (Nat × V)) (a : Nat) : place es a ≤ es.length :=
  findIdx_le_length

variable {es : List (Nat × V)}

/-- In an ordered list the entries that end before a point are those in front of its place. -/
theorem lt_place_iff (hsorted : es.Pairwise fun x y => x.1 ≤ y.1) {m : Nat}
    (hm : m < es.length) : m < place es a ↔ es[m].1 < a := by
  constructor
  · intro h
    simpa using not_of_lt_findIdx h
  · intro h
    by_contra hge
    have hlt : place es a < es.length := by omega
    have hfound : a ≤ es[place es a].1 := by
      have hget := findIdx_getElem (w := hlt)
      exact of_decide_eq_true hget
    rcases Nat.lt_or_eq_of_le (Nat.le_of_not_lt hge) with hpm | hpm
    · exact absurd (hfound.trans (pairwise_iff_getElem.mp hsorted _ _ hlt hm hpm)) (by omega)
    · simp only [hpm] at hfound
      omega

theorem place_mono (hsorted : es.Pairwise fun x y => x.1 ≤ y.1) {b : Nat}
    (h : a ≤ b) : place es a ≤ place es b := by
  by_contra hlt
  have hm : place es b < es.length := (Nat.lt_of_not_le hlt).trans_le (place_le es a)
  have hbelow := (lt_place_iff hsorted hm).mp (Nat.lt_of_not_le hlt)
  exact absurd ((lt_place_iff (a := b) hsorted hm).mpr (hbelow.trans_le h)) (lt_irrefl _)

/-- The entry at the place of a point has its value. -/
theorem value_eq_place (es tail : List (Nat × V)) {x : Nat × V} (h : tail.head? = some x) :
    ∃ hlt : place es a < (es ++ tail).length, (es ++ tail)[place es a].2 = value es x.2 a := by
  have hlt : place es a < (es ++ tail).length := by
    have hpos : 0 < tail.length := length_pos_of_mem (mem_of_head? h)
    have hle := place_le es a
    rw [List.length_append]
    omega
  refine ⟨hlt, ?_⟩
  rw [value, List.find?_eq_getElem?_findIdx]
  show _ = ((es[place es a]?).map Prod.snd).getD x.2
  by_cases hin : place es a < es.length
  · rw [getElem_append_left hin, List.getElem?_eq_getElem hin]
    rfl
  · have hend : place es a = es.length := le_antisymm (place_le es a) (Nat.le_of_not_lt hin)
    rw [List.getElem?_eq_none (Nat.le_of_not_lt hin), getElem_append_right (Nat.le_of_not_lt hin)]
    have hget : tail[place es a - es.length]? = some x := by
      rw [hend, Nat.sub_self, ← List.head?_eq_getElem?]
      exact h
    rw [(List.getElem?_eq_some_iff.mp hget).2]
    rfl

end

end Foundation.IntervalTable
