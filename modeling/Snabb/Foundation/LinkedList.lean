import Mathlib.Data.List.Nodup
import Mathlib.Order.Basic
import Mathlib.Tactic.Common

/-!
# Doubly linked lists

Objects that point to their neighbours, where `null` stands for none. `Linked` relates the
pointers to the sequence of the objects, and its rules say which pointers have to change when an
object is inserted or removed. Backwards, a list is linked like forwards.
-/

namespace Foundation

open List

variable {A : Type} {null x y : A} {prev next prev' next' : A → A} {xs as bs : List A}

/-- Each object of `xs` points to the one behind it. -/
def Follows (null : A) (next : A → A) (xs : List A) : Prop :=
  ∀ as x bs, xs = as ++ x :: bs → next x = bs.headD null

/-- The pointers link `xs`, from the first to the last and back. -/
structure Linked (null : A) (prev next : A → A) (xs : List A) : Prop where
  nodup : xs.Nodup
  null_not_mem : null ∉ xs
  next : Follows null next xs
  prev : Follows null prev xs.reverse

/-- The first object is one of the list, unless there is none. -/
theorem ne_headD (hnull : x ≠ null) (hx : x ∉ xs) : x ≠ xs.headD null := by
  cases xs with
  | nil => exact hnull
  | cons y ys =>
    rintro rfl
    exact hx mem_cons_self

theorem ne_headD_reverse (hnull : x ≠ null) (hx : x ∉ xs) : x ≠ xs.reverse.headD null :=
  ne_headD hnull (mt mem_reverse.mp hx)

/-- An object of a list is the last one, or not, and it is not met again. -/
theorem reverse_headD (null : A) (hnodup : (as ++ x :: bs).Nodup) :
    x = (as ++ x :: bs).reverse.headD null ↔ bs = [] := by
  rcases eq_nil_or_concat bs with rfl | ⟨ys, y, rfl⟩
  · simp
  · have hx : x ∉ ys.concat y := (nodup_cons.mp (nodup_append'.mp hnodup).2.1).1
    rw [concat_eq_append] at hx ⊢
    simp only [mem_append, not_or] at hx
    simpa using hx.2

theorem Follows.congr (h : Follows null next xs) (hnext : ∀ x ∈ xs, next' x = next x) :
    Follows null next' xs := by
  intro as x bs hsplit
  rw [hnext x (by simp [hsplit]), h as x bs hsplit]

variable [DecidableEq A]

/-- An object is inserted: the one before points to it. -/
theorem Follows.insert (h : Follows null next (as ++ bs)) (hnodup : (as ++ x :: bs).Nodup)
    (hnull : null ∉ as ++ bs) (hself : next' x = bs.headD null)
    (hnext : ∀ y ∈ as ++ bs, next' y = if y = as.reverse.headD null then x else next y) :
    Follows null next' (as ++ x :: bs) := by
  intro as' y bs' hsplit
  rcases append_eq_append_iff.mp hsplit with ⟨cs, rfl, hcs⟩ | ⟨cs, rfl, hcs⟩
  · cases cs with
    | nil =>
      cases hcs
      exact hself
    | cons c cs =>
      cases hcs
      have hy : y ≠ null := fun heq => hnull (by simp [heq])
      have hnot : y ∉ as := fun hmem =>
        (nodup_append'.mp hnodup).2.2 hmem (by simp)
      rw [hnext y (by simp), if_neg (ne_headD_reverse hy hnot)]
      exact h (as ++ cs) y bs' (by simp)
  · cases cs with
    | nil =>
      cases hcs
      exact hself
    | cons c cs =>
      cases hcs
      have hlast := reverse_headD null (hnodup.sublist (sublist_append_left _ _))
      rw [hnext y (by simp)]
      cases cs with
      | nil =>
        rw [if_pos (hlast.mpr rfl)]
        rfl
      | cons c cs =>
        rw [if_neg fun heq => nomatch hlast.mp heq]
        exact h as' y (c :: cs ++ bs) (by simp)

/-- An object is removed: the one before points to the one behind. -/
theorem Follows.remove (h : Follows null next (as ++ x :: bs)) (hnodup : (as ++ x :: bs).Nodup)
    (hnull : null ∉ as ++ bs)
    (hnext : ∀ y ∈ as ++ bs, next' y = if y = as.reverse.headD null then next x else next y) :
    Follows null next' (as ++ bs) := by
  rw [h as x bs rfl] at hnext
  intro as' y bs' hsplit
  have hy : y ≠ null := fun heq => hnull (by simp [hsplit, heq])
  rw [hnext y (by simp [hsplit])]
  rcases append_eq_append_iff.mp hsplit with ⟨cs, rfl, rfl⟩ | ⟨cs, rfl, hcs⟩
  · have hnot : y ∉ as := fun hmem => (nodup_append'.mp hnodup).2.2 hmem (by simp)
    rw [if_neg (ne_headD_reverse hy hnot)]
    exact h (as ++ x :: cs) y bs' (by simp)
  · cases cs with
    | nil =>
      obtain rfl : y :: bs' = bs := hcs
      have hnot : y ∉ as' := fun hmem => (nodup_append'.mp hnodup).2.2 (by simpa) (by simp)
      rw [if_neg (ne_headD_reverse hy (by simpa using hnot))]
      exact h (as' ++ [x]) y bs' (by simp)
    | cons c cs =>
      cases hcs
      have hlast := reverse_headD null (hnodup.sublist (sublist_append_left _ _))
      cases cs with
      | nil =>
        rw [if_pos (hlast.mpr rfl)]
        rfl
      | cons c cs =>
        rw [if_neg fun heq => nomatch hlast.mp heq]
        exact h as' y (c :: cs ++ x :: bs) (by simp)

namespace Linked

omit [DecidableEq A] in
theorem nil : Linked null prev next [] where
  nodup := .nil
  null_not_mem := not_mem_nil
  next as x bs h := by simp at h
  prev as x bs h := by simp at h

omit [DecidableEq A] in
/-- The pointers of other objects do not matter. -/
theorem congr (h : Linked null prev next xs) (hprev : ∀ x ∈ xs, prev' x = prev x)
    (hnext : ∀ x ∈ xs, next' x = next x) : Linked null prev' next' xs where
  nodup := h.nodup
  null_not_mem := h.null_not_mem
  next := h.next.congr hnext
  prev := h.prev.congr fun x hx => hprev x (mem_reverse.mp hx)

/-- **Append an object**: the last one and the new one point to each other. -/
theorem append (h : Linked null prev next xs) (hx : x ∉ xs) (hnull : x ≠ null)
    (hprev : prev' x = xs.reverse.headD null) (hnext : next' x = null)
    (hprevs : ∀ y ∈ xs, prev' y = prev y)
    (hnexts : ∀ y ∈ xs, next' y = if y = xs.reverse.headD null then x else next y) :
    Linked null prev' next' (xs ++ [x]) := by
  have hnodup : (xs ++ [x]).Nodup :=
    nodup_append'.mpr ⟨h.nodup, nodup_singleton x, by simpa using hx⟩
  have hmem : null ∉ xs ++ [x] := by
    rw [mem_append, mem_singleton]
    exact not_or.mpr ⟨h.null_not_mem, hnull.symm⟩
  refine ⟨hnodup, hmem, ?_, ?_⟩
  · have hforth : Follows null next (xs ++ []) := by simpa using h.next
    refine hforth.insert hnodup ?_ hnext ?_
    · simpa using h.null_not_mem
    · simpa using hnexts
  · have hback : Follows null prev ([] ++ xs.reverse) := h.prev
    rw [reverse_append]
    refine hback.insert ?_ ?_ hprev fun y hy => ?_
    · simpa using ⟨hx, h.nodup⟩
    · simpa using h.null_not_mem
    · have hy : y ∈ xs := by simpa using hy
      rw [if_neg, hprevs y hy]
      rintro rfl
      exact h.null_not_mem hy

/-- **Remove an object**: its neighbours point to each other. -/
theorem remove (h : Linked null prev next (as ++ x :: bs))
    (hprevs : ∀ y ∈ as ++ bs, prev' y = if y = next x then prev x else prev y)
    (hnexts : ∀ y ∈ as ++ bs, next' y = if y = prev x then next x else next y) :
    Linked null prev' next' (as ++ bs) := by
  have hsub : (as ++ bs).Sublist (as ++ x :: bs) := (sublist_cons_self x bs).append_left as
  have hnull : null ∉ as ++ bs := fun hmem => h.null_not_mem (hsub.subset hmem)
  have hprev := h.prev
  rw [reverse_append, reverse_cons, append_assoc] at hprev
  refine ⟨h.nodup.sublist hsub, hnull, ?_, ?_⟩
  · refine Follows.remove h.next h.nodup hnull ?_
    rw [← hprev bs.reverse x as.reverse rfl]
    exact hnexts
  · rw [reverse_append]
    refine Follows.remove hprev ?_ ?_ fun y hy => ?_
    · have hreverse := nodup_reverse.mpr h.nodup
      simpa using hreverse
    · simpa [or_comm] using hnull
    · rw [reverse_reverse, ← h.next as x bs rfl]
      exact hprevs y (by simpa [or_comm] using hy)

end Linked

end Foundation
