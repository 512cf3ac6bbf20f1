import Mathlib.Data.List.Basic
import Mathlib.Data.List.Range
import Mathlib.Data.List.Nodup
import Mathlib.Data.List.Perm.Subperm
import Mathlib.Data.Nat.Find
import Mathlib.Order.Monotone.Defs

/-!
# Sorted linear probing

A table of slots keeps elements in the order of their hashes. An element wants the slot
`home` of its hash, and lies there or behind it, with no empty slot in between: `Probed`.
An element is put in by moving the elements from its place up to the next empty slot one
slot further (`openAt`), and taken out by moving elements back until one of them is at home
or the slot is empty (`closeAt`).

- `Probed.openAt`, `Probed.closeAt`: both keep the table;
- `Probed.window`: behind the home slot of a hash, the slots whose hash is not below it are
  behind the others, also when empty slots count as the largest hash;
- `Probed.run_of_hash`: the elements with one hash are next to each other;
- `length_run_le`: a run without empty slots is not longer than the table is full;
- `Probed.near_iff`: how far elements are displaced is a matter of how many of them have their
  homes close to each other.
-/

namespace Foundation

open List Option

variable {E K : Type}

/-- The slots of a table, of which `none` is empty. -/
abbrev Slots (E : Type) := Nat → Option E

/-- A table in the order of its hashes, without an empty slot before a displaced element. -/
structure Probed (hash : E → Nat) (home : Nat → Nat) (f : Slots E) : Prop where
  home_le : ∀ {i e}, f i = some e → home (hash e) ≤ i
  no_gap : ∀ {i j e}, f i = some e → home (hash e) ≤ j → j < i → f j ≠ none
  sorted : ∀ {i j e e'}, f i = some e → f j = some e' → i ≤ j → hash e ≤ hash e'

/-- No two slots hold elements with the same key. -/
def Distinct (key : E → K) (f : Slots E) : Prop :=
  ∀ {i j e e'}, f i = some e → f j = some e' → key e = key e' → i = j

namespace Slots

/-- The elements of the first `n` slots. -/
def contents (f : Slots E) (n : Nat) : List E := (List.range n).filterMap f

/-- Move the elements from `idx` on up to an empty slot one slot further, and put an element
into the slot that becomes free. -/
def openAt (f : Slots E) (idx empty : Nat) (e : E) : Slots E := fun j =>
  if j < idx then f j else if j = idx then some e else if j ≤ empty then f (j - 1) else f j

/-- Move the elements between `idx` and `last` one slot back, over the one at `idx`. -/
def closeAt (f : Slots E) (idx last : Nat) : Slots E := fun j =>
  if j < idx then f j else if j < last then f (j + 1) else if j = last then none else f j

/-- The hash of a slot; an empty one counts as `top`. -/
def hashAt (hash : E → Nat) (top : Nat) (f : Slots E) (i : Nat) : Nat := (f i).elim top hash

end Slots

open Slots

variable {hash : E → Nat} {home : Nat → Nat} {key : E → K} {f : Slots E}

/-! ## Contents -/

variable {e : E}

theorem mem_contents {n : Nat} : e ∈ contents f n ↔ ∃ i < n, f i = some e := by
  simp [contents]

theorem contents_succ (f : Slots E) (n : Nat) :
    contents f (n + 1) = contents f n ++ (f n).toList := by
  rw [contents, contents, range_succ]
  cases hn : f n <;> simp [hn]

/-- Empty slots do not count. -/
theorem contents_eq {n m : Nat} (hnm : n ≤ m) (hout : ∀ i, n ≤ i → f i = none) :
    contents f n = contents f m := by
  obtain ⟨d, rfl⟩ := Nat.exists_eq_add_of_le hnm
  have hrest : ((List.range d).map (n + ·)).filterMap f = [] := by
    refine filterMap_eq_nil_iff.mpr fun i hi => ?_
    obtain ⟨k, -, rfl⟩ := mem_map.mp hi
    exact hout _ (Nat.le_add_right n k)
  rw [contents, contents, range_add, filterMap_append, hrest, append_nil]

/-- A run without empty slots is not longer than the table is full. -/
theorem length_run_le {a b n : Nat} (hrun : ∀ j, a ≤ j → j < b → f j ≠ none) (hb : b ≤ n) :
    b - a ≤ (contents f n).length := by
  have hsub : (List.range' a (b - a)).Sublist (List.range n) := by
    rw [range_eq_range']
    rcases Nat.lt_or_ge a b with hlt | hge
    · have hsplit : List.range' 0 n =
          List.range' 0 a ++ (List.range' a (b - a) ++ List.range' b (n - b)) := by
        have hright : List.range' a (n - a) = List.range' a (b - a) ++ List.range' b (n - b) := by
          have happend := @List.range'_append a (b - a) (n - b) 1
          rw [Nat.one_mul, Nat.add_sub_cancel' hlt.le] at happend
          rw [happend]
          congr 1
          omega
        have happend := @List.range'_append 0 a (n - a) 1
        rw [Nat.one_mul, Nat.zero_add] at happend
        rw [← hright, happend]
        congr 1
        omega
      rw [hsplit]
      exact (sublist_append_left _ _).trans (sublist_append_right _ _)
    · rw [Nat.sub_eq_zero_of_le hge]
      exact nil_sublist _
  have hall : ((List.range' a (b - a)).filterMap f).length = (List.range' a (b - a)).length := by
    rw [length_filterMap_eq_countP, countP_eq_length]
    intro j hj
    have hbounds := mem_range'_1.mp hj
    exact Option.isSome_iff_ne_none.mpr (hrun j hbounds.1 (by omega))
  have hle := (hsub.filterMap f).length_le
  rw [hall, length_range'] at hle
  exact hle

/-- The keys of the contents are different. -/
theorem Distinct.nodup (h : Distinct key f) (n : Nat) : ((contents f n).map key).Nodup := by
  rw [contents, map_filterMap]
  refine List.Nodup.filterMap ?_ nodup_range
  intro i j k hi hj
  obtain ⟨e, he, rfl⟩ := Option.map_eq_some_iff.mp hi
  obtain ⟨e', he', hkey⟩ := Option.map_eq_some_iff.mp hj
  exact h he he' hkey.symm

/-! ## Opening a slot -/

section openAt

variable {idx empty : Nat} {e : E}

theorem openAt_self : openAt f idx empty e idx = some e := by
  simp [openAt]

variable {j : Nat}

theorem openAt_below (h : j < idx) : openAt f idx empty e j = f j := by
  simp [openAt, h]

theorem openAt_moved (hj : idx ≤ j) (hlt : j < empty) : openAt f idx empty e (j + 1) = f j := by
  have h₁ : ¬ j + 1 < idx := by omega
  have h₂ : j + 1 ≠ idx := by omega
  simp [openAt, h₁, h₂, Nat.succ_le_of_lt hlt]

theorem openAt_above (hj : empty < j) (hle : idx ≤ empty) : openAt f idx empty e j = f j := by
  have h₁ : ¬ j < idx := by omega
  have h₂ : j ≠ idx := by omega
  have h₃ : ¬ j ≤ empty := by omega
  simp [openAt, h₂, h₃]

variable (hle : idx ≤ empty)
include hle

/-- Where an element of the opened table was before. -/
theorem openAt_eq_some {x : E} (h : openAt f idx empty e j = some x) :
    (j = idx ∧ x = e) ∨ (j < idx ∧ f j = some x) ∨
      (∃ i, j = i + 1 ∧ idx ≤ i ∧ i < empty ∧ f i = some x) ∨ (empty < j ∧ f j = some x) := by
  rcases Nat.lt_trichotomy j idx with hlt | rfl | hgt
  · rw [openAt_below hlt] at h
    exact .inr (.inl ⟨hlt, h⟩)
  · rw [openAt_self] at h
    exact .inl ⟨rfl, (Option.some.inj h).symm⟩
  · rcases Nat.lt_or_ge empty j with hout | hin
    · rw [openAt_above hout hle] at h
      exact .inr (.inr (.inr ⟨hout, h⟩))
    · obtain ⟨i, rfl⟩ := Nat.exists_eq_succ_of_ne_zero (Nat.ne_zero_of_lt hgt)
      rw [openAt_moved (by omega) (by omega)] at h
      exact .inr (.inr (.inl ⟨i, rfl, by omega, by omega, h⟩))

theorem exists_openAt (hempty : f empty = none) {i : Nat} {x : E} (h : f i = some x) :
    ∃ j, openAt f idx empty e j = some x ∧ (j = i ∨ (j = i + 1 ∧ idx ≤ i ∧ i < empty)) := by
  rcases Nat.lt_or_ge i idx with hlt | hge
  · exact ⟨i, by rw [openAt_below hlt, h], .inl rfl⟩
  · rcases Nat.lt_trichotomy i empty with hlt | rfl | hgt
    · exact ⟨i + 1, by rw [openAt_moved hge hlt, h], .inr ⟨rfl, hge, hlt⟩⟩
    · rw [hempty] at h
      cases h
    · exact ⟨i, by rw [openAt_above hgt hle, h], .inl rfl⟩

theorem openAt_elements (hempty : f empty = none) {x : E} :
    (∃ j, openAt f idx empty e j = some x) ↔ x = e ∨ ∃ i, f i = some x := by
  constructor
  · rintro ⟨j, hj⟩
    rcases openAt_eq_some hle hj with ⟨-, rfl⟩ | ⟨-, h⟩ | ⟨i, -, -, -, h⟩ | ⟨-, h⟩
    · exact .inl rfl
    · exact .inr ⟨j, h⟩
    · exact .inr ⟨i, h⟩
    · exact .inr ⟨j, h⟩
  · rintro (rfl | ⟨i, hi⟩)
    · exact ⟨idx, openAt_self⟩
    · obtain ⟨j, hj, -⟩ := exists_openAt (e := e) hle hempty hi
      exact ⟨j, hj⟩

/-- The slots that are not empty stay so, and one more is not. -/
theorem openAt_ne_none (hrun : ∀ j, idx ≤ j → j < empty → f j ≠ none)
    (hj : f j ≠ none ∨ j = empty) : openAt f idx empty e j ≠ none := by
  rcases Nat.lt_trichotomy j idx with hlt | rfl | hgt
  · rw [openAt_below hlt]
    rcases hj with hj | rfl
    · exact hj
    · omega
  · rw [openAt_self]
    exact some_ne_none e
  · rcases Nat.lt_or_ge empty j with hout | hin
    · rw [openAt_above hout hle]
      rcases hj with hj | rfl
      · exact hj
      · omega
    · obtain ⟨i, rfl⟩ := Nat.exists_eq_succ_of_ne_zero (Nat.ne_zero_of_lt hgt)
      rw [openAt_moved (by omega) (by omega)]
      exact hrun i (by omega) (by omega)

end openAt

/-! ## Closing a slot -/

section closeAt

variable {idx last : Nat} {j : Nat}

theorem closeAt_below (h : j < idx) : closeAt f idx last j = f j := by
  simp [closeAt, h]

theorem closeAt_moved (hj : idx ≤ j) (hlt : j < last) : closeAt f idx last j = f (j + 1) := by
  have h₁ : ¬ j < idx := by omega
  simp [closeAt, h₁, hlt]

theorem closeAt_last (hle : idx ≤ last) : closeAt f idx last last = none := by
  have h₁ : ¬ last < idx := by omega
  simp [closeAt, h₁]

theorem closeAt_above (hj : last < j) (hle : idx ≤ last) : closeAt f idx last j = f j := by
  have h₁ : ¬ j < idx := by omega
  have h₂ : ¬ j < last := by omega
  have h₃ : j ≠ last := by omega
  simp [closeAt, h₂, h₃]

/-- Where an element of the closed table was before. -/
theorem closeAt_eq_some (hle : idx ≤ last) {x : E} (h : closeAt f idx last j = some x) :
    (j < idx ∧ f j = some x) ∨ (idx ≤ j ∧ j < last ∧ f (j + 1) = some x) ∨
      (last < j ∧ f j = some x) := by
  rcases Nat.lt_or_ge j idx with hlt | hge
  · rw [closeAt_below hlt] at h
    exact .inl ⟨hlt, h⟩
  · rcases Nat.lt_trichotomy j last with hlt | rfl | hgt
    · rw [closeAt_moved hge hlt] at h
      exact .inr (.inl ⟨hge, hlt, h⟩)
    · rw [closeAt_last hle] at h
      cases h
    · rw [closeAt_above hgt hle] at h
      exact .inr (.inr ⟨hgt, h⟩)

theorem closeAt_elements (hle : idx ≤ last) {x : E} :
    (∃ j, closeAt f idx last j = some x) ↔ ∃ i, i ≠ idx ∧ f i = some x := by
  constructor
  · rintro ⟨j, hj⟩
    rcases closeAt_eq_some hle hj with ⟨hlt, h⟩ | ⟨hge, -, h⟩ | ⟨hgt, h⟩
    · exact ⟨j, by omega, h⟩
    · exact ⟨j + 1, by omega, h⟩
    · exact ⟨j, by omega, h⟩
  · rintro ⟨i, hne, hi⟩
    rcases Nat.lt_or_ge i idx with hlt | hge
    · exact ⟨i, by rw [closeAt_below hlt, hi]⟩
    · obtain ⟨j, rfl⟩ := Nat.exists_eq_succ_of_ne_zero (show i ≠ 0 by omega)
      rcases Nat.lt_or_ge j last with hin | hout
      · exact ⟨j, by rw [closeAt_moved (by omega) hin, hi]⟩
      · exact ⟨j + 1, by rw [closeAt_above (by omega) hle, hi]⟩

end closeAt

/-! ## The order of the table -/

namespace Probed

variable (h : Probed hash home f)
include h

/-- Behind an empty slot that is not before the home of a hash, the hashes are larger. -/
theorem lt_of_empty (hmono : Monotone home) {c j k : Nat} (hc : home c ≤ j)
    (hj : f j = none) (hk : f k = some e) (hjk : j ≤ k) : c < hash e := by
  by_contra hle
  have hhome : home (hash e) ≤ j := (hmono (Nat.le_of_not_lt hle)).trans hc
  rcases Nat.lt_or_eq_of_le hjk with hlt | rfl
  · exact h.no_gap hk hhome hlt hj
  · rw [hj] at hk
    cases hk

/-- An element before the home of a hash has a smaller one. -/
theorem lt_of_before (hmono : Monotone home) {c j : Nat} (hj : f j = some e)
    (hlt : j < home c) : hash e < c := by
  by_contra hge
  have hle := hmono (Nat.le_of_not_lt hge)
  have hhome := h.home_le hj
  omega

/-- **Seen from the home of a hash, the table is in order**, also across empty slots: the slots
that are not below the hash are behind the others. -/
theorem window (hmono : Monotone home) {c top i j : Nat} (hc : c ≤ top) (hi : home c ≤ i)
    (hij : i ≤ j) (hle : c ≤ hashAt hash top f i) : c ≤ hashAt hash top f j := by
  cases hfj : f j with
  | none =>
    rw [hashAt, hfj]
    exact hc
  | some e' =>
    rw [hashAt, hfj]
    cases hfi : f i with
    | none => exact (h.lt_of_empty hmono hi hfi hfj hij).le
    | some e =>
      rw [hashAt, hfi] at hle
      exact Nat.le_trans hle (h.sorted hfi hfj hij)

/-- **The elements with one hash are next to each other**: from the first slot, behind the home
of the hash, that is not below it, up to any element with that hash. -/
theorem run_of_hash {top a i j : Nat} (he : f i = some e)
    (ha : ∀ k, home (hash e) ≤ k → k < a → hashAt hash top f k < hash e)
    (hfirst : home (hash e) ≤ a) (hge : hash e ≤ hashAt hash top f a) :
    a ≤ i ∧ (a ≤ j → j ≤ i → ∃ x, f j = some x ∧ hash x = hash e) := by
  have hai : a ≤ i := by
    by_contra hlt
    have hbelow := ha i (h.home_le he) (by omega)
    rw [hashAt, he] at hbelow
    exact Nat.lt_irrefl _ hbelow
  refine ⟨hai, fun haj hji => ?_⟩
  have hfull : ∀ k, home (hash e) ≤ k → k ≤ i → ∃ x, f k = some x := by
    intro k hk hki
    rcases Nat.lt_or_eq_of_le hki with hlt | rfl
    · exact Option.ne_none_iff_exists'.mp (h.no_gap he hk hlt)
    · exact ⟨e, he⟩
  obtain ⟨x, hx⟩ := hfull j (hfirst.trans haj) hji
  obtain ⟨y, hy⟩ := hfull a hfirst hai
  rw [hashAt, hy] at hge
  have hle₁ := h.sorted hx he hji
  have hle₂ := h.sorted hy hx haj
  exact ⟨x, hx, Nat.le_antisymm hle₁ (Nat.le_trans hge hle₂)⟩

/-- **Opening a slot** in the place of an element keeps the order. -/
theorem openAt (hmono : Monotone home) {idx empty : Nat}
    (hhome : home (hash e) ≤ idx) (hle : idx ≤ empty)
    (hrun : ∀ j, home (hash e) ≤ j → j < empty → f j ≠ none)
    (hbefore : ∀ j x, home (hash e) ≤ j → j < idx → f j = some x → hash x ≤ hash e)
    (hafter : ∀ x, f idx = some x → hash e ≤ hash x) : Probed hash home (openAt f idx empty e) := by
  have hrun' : ∀ j, idx ≤ j → j < empty → f j ≠ none := fun j hj => hrun j (hhome.trans hj)
  -- what is below the place, and what is behind it
  have hlow : ∀ j x, j < idx → f j = some x → hash x ≤ hash e := by
    intro j x hj hx
    rcases Nat.lt_or_ge j (home (hash e)) with hlt | hge
    · exact (h.lt_of_before hmono hx hlt).le
    · exact hbefore j x hge hj hx
  have hhigh : ∀ j x, idx ≤ j → f j = some x → hash e ≤ hash x := by
    intro j x hj hx
    cases hidx : f idx with
    | none => exact (h.lt_of_empty hmono hhome hidx hx hj).le
    | some y => exact Nat.le_trans (hafter y hidx) (h.sorted hidx hx hj)
  have hfull : ∀ j, f j ≠ none ∨ j = empty → Slots.openAt f idx empty e j ≠ none :=
    fun j hj => openAt_ne_none hle hrun' hj
  constructor
  · intro j x hj
    rcases openAt_eq_some hle hj with ⟨rfl, rfl⟩ | ⟨-, hx⟩ | ⟨i, rfl, -, -, hx⟩ | ⟨-, hx⟩
    · exact hhome
    · exact h.home_le hx
    · exact (h.home_le hx).trans (Nat.le_succ i)
    · exact h.home_le hx
  · intro j k x hj hk hkj
    rcases openAt_eq_some hle hj with ⟨rfl, rfl⟩ | ⟨-, hx⟩ | ⟨i, rfl, hidx, hi, hx⟩ | ⟨-, hx⟩
    · exact hfull k (.inl (hrun k hk (by omega)))
    · exact hfull k (.inl (h.no_gap hx hk hkj))
    · rcases Nat.lt_or_eq_of_le (Nat.le_of_lt_succ hkj) with hlt | rfl
      · exact hfull k (.inl (h.no_gap hx hk hlt))
      · exact hfull k (.inl (by rw [hx]; exact some_ne_none x))
    · exact hfull k (.inl (h.no_gap hx hk hkj))
  · intro i j x y hi hj hij
    -- the element itself is between what is below and what is behind its place
    rcases openAt_eq_some hle hi with ⟨rfl, rfl⟩ | ⟨hi', hx⟩ | ⟨i', rfl, hi', hlt, hx⟩ | ⟨hi', hx⟩
    · rcases openAt_eq_some hle hj with ⟨-, rfl⟩ | ⟨hj', -⟩ | ⟨j', -, hj', -, hy⟩ | ⟨hj', hy⟩
      · exact Nat.le_refl _
      · omega
      · exact hhigh j' y hj' hy
      · exact hhigh j y (by omega) hy
    · rcases openAt_eq_some hle hj with ⟨-, rfl⟩ | ⟨-, hy⟩ | ⟨j', -, hj', -, hy⟩ | ⟨-, hy⟩
      · exact hlow i x hi' hx
      · exact h.sorted hx hy hij
      · exact h.sorted hx hy (by omega)
      · exact h.sorted hx hy hij
    · rcases openAt_eq_some hle hj with ⟨rfl, -⟩ | ⟨hj', -⟩ | ⟨j', rfl, -, -, hy⟩ | ⟨-, hy⟩
      · omega
      · omega
      · exact h.sorted hx hy (by omega)
      · exact h.sorted hx hy (by omega)
    · rcases openAt_eq_some hle hj with ⟨rfl, -⟩ | ⟨hj', -⟩ | ⟨j', rfl, -, hj', -⟩ | ⟨-, hy⟩
      · omega
      · omega
      · omega
      · exact h.sorted hx hy hij

/-- **Closing a slot** up to the last of the displaced elements behind it keeps the order. -/
theorem closeAt (hmono : Monotone home) {idx last : Nat} (hle : idx ≤ last)
    (hrun : ∀ j, idx < j → j ≤ last → ∃ x, f j = some x ∧ home (hash x) ≠ j)
    (hstop : ∀ x, f (last + 1) = some x → home (hash x) = last + 1) :
    Probed hash home (Slots.closeAt f idx last) := by
  -- whatever is behind the run has its home there
  have hbehind : ∀ j x, last < j → f j = some x → last < home (hash x) := by
    intro j x hj hx
    cases hnext : f (last + 1) with
    | none =>
      by_contra hhome
      rcases Nat.lt_or_eq_of_le (Nat.succ_le_of_lt hj) with hlt | heq
      · exact h.no_gap hx (Nat.le_succ_of_le (Nat.le_of_not_lt hhome)) hlt hnext
      · rw [← heq, hnext] at hx
        cases hx
    | some y =>
      have hy := hstop y hnext
      have hxy := hmono (h.sorted hnext hx hj)
      omega
  have hfull : ∀ k, idx ≤ k → k < last → Slots.closeAt f idx last k ≠ none := by
    intro k hk hlt
    obtain ⟨x, hx, -⟩ := hrun (k + 1) (by omega) hlt
    rw [closeAt_moved hk hlt, hx]
    exact some_ne_none x
  constructor
  · intro j x hj
    rcases closeAt_eq_some hle hj with ⟨-, hx⟩ | ⟨hidx, hlt, hx⟩ | ⟨-, hx⟩
    · exact h.home_le hx
    · obtain ⟨y, hy, hne⟩ := hrun (j + 1) (by omega) hlt
      obtain rfl := Option.mem_unique hy hx
      have hhome := h.home_le hx
      omega
    · exact h.home_le hx
  · intro j k x hj hk hkj
    rcases closeAt_eq_some hle hj with ⟨hlt, hx⟩ | ⟨-, hlt, hx⟩ | ⟨hgt, hx⟩
    · rw [closeAt_below (by omega)]
      exact h.no_gap hx hk hkj
    · rcases Nat.lt_or_ge k idx with hbelow | hge
      · rw [closeAt_below hbelow]
        exact h.no_gap hx hk (by omega)
      · exact hfull k hge (by omega)
    · have hhome := hbehind j x hgt hx
      rw [closeAt_above (by omega) hle]
      exact h.no_gap hx hk hkj
  · intro i j x y hi hj hij
    rcases closeAt_eq_some hle hi with ⟨hi', hx⟩ | ⟨hi', hlt, hx⟩ | ⟨hi', hx⟩
    · rcases closeAt_eq_some hle hj with ⟨-, hy⟩ | ⟨-, -, hy⟩ | ⟨-, hy⟩
      · exact h.sorted hx hy hij
      · exact h.sorted hx hy (by omega)
      · exact h.sorted hx hy hij
    · rcases closeAt_eq_some hle hj with ⟨hj', -⟩ | ⟨-, -, hy⟩ | ⟨hj', hy⟩
      · omega
      · exact h.sorted hx hy (by omega)
      · exact h.sorted hx hy (by omega)
    · rcases closeAt_eq_some hle hj with ⟨hj', -⟩ | ⟨-, hj', -⟩ | ⟨-, hy⟩
      · omega
      · omega
      · exact h.sorted hx hy hij

end Probed

/-! ## How far elements are displaced -/

/-- No stretch of slots is the home of more elements than it and the `limit` slots behind it
hold. -/
def Spread (limit : Nat) (homes : List Nat) : Prop :=
  ∀ a b, a ≤ b → homes.countP (fun h => a ≤ h ∧ h ≤ b) ≤ b - a + 1 + limit

theorem Spread.of_subperm {limit : Nat} {homes homes' : List Nat} (h : Spread limit homes)
    (hsub : homes'.Subperm homes) : Spread limit homes' :=
  fun a b hab => (hsub.countP_le _).trans (h a b hab)

/-- A run with all the elements is at least as long as the table is full. -/
theorem length_contents_le {a b n : Nat} (hin : ∀ i, f i ≠ none → a ≤ i ∧ i < b) :
    (contents f n).length ≤ b - a := by
  have hsub : ((List.range n).filter fun i => (f i).isSome).Subperm (List.range' a (b - a)) := by
    refine (nodup_range.filter _).subperm fun i hi => ?_
    have hbounds := hin i (Option.isSome_iff_ne_none.mp (mem_filter.mp hi).2)
    rw [mem_range'_1]
    omega
  rw [contents, length_filterMap_eq_countP, countP_eq_length_filter]
  exact hsub.length_le.trans_eq length_range'

/-- **No element is displaced by more than `limit`** if and only if their homes are spread. -/
theorem Probed.near_iff (h : Probed hash home f) (hmono : Monotone home) (limit : Nat) {n : Nat}
    (hout : ∀ {i e}, f i = some e → i < n) :
    (∀ i e, f i = some e → i ≤ home (hash e) + limit) ↔
      Spread limit ((contents f n).map fun e => home (hash e)) := by
  have hcount (a b : Nat) :
      ((contents f n).map fun e => home (hash e)).countP (fun h => a ≤ h ∧ h ≤ b) =
        (contents (fun i => (f i).filter fun e => a ≤ home (hash e) ∧ home (hash e) ≤ b) n).length := by
    rw [countP_map, countP_eq_length_filter, contents, contents, filter_filterMap]
    rfl
  constructor
  · intro hnear a b hab
    rw [hcount]
    refine (length_contents_le (a := a) (b := b + limit + 1) fun i hi => ?_).trans (by omega)
    obtain ⟨e, he⟩ := Option.ne_none_iff_exists'.mp hi
    obtain ⟨he, hhome⟩ := Option.filter_eq_some_iff.mp he
    have hle := h.home_le he
    have hlimit := hnear i e he
    have hhome := of_decide_eq_true hhome
    omega
  · intro hspread i e he
    by_contra hfar
    -- the run of slots that ends with the element, up to the empty slot before it
    have hrun : ∃ a, ∀ j, a ≤ j → j ≤ i → f j ≠ none := ⟨i, fun j hij hji => by
      rw [Nat.le_antisymm hji hij, he]
      exact some_ne_none e⟩
    obtain ⟨a, ha, hmin⟩ : ∃ a, (∀ j, a ≤ j → j ≤ i → f j ≠ none) ∧
        ∀ c < a, ¬ ∀ j, c ≤ j → j ≤ i → f j ≠ none :=
      ⟨Nat.find hrun, Nat.find_spec hrun, fun c hc => Nat.find_min hrun hc⟩
    have hah : a ≤ home (hash e) := by
      by_contra hlt
      refine hmin _ (Nat.lt_of_not_le hlt) fun j hj hji => ?_
      rcases Nat.lt_or_eq_of_le hji with hlt' | rfl
      · exact h.no_gap he hj hlt'
      · rw [he]
        exact some_ne_none e
    have hfull := length_run_le (f := fun i => (f i).filter fun e' =>
      a ≤ home (hash e') ∧ home (hash e') ≤ home (hash e)) (a := a) (b := i + 1) (n := n)
      (fun j haj hji => by
        obtain ⟨x, hx⟩ := Option.ne_none_iff_exists'.mp (ha j haj (Nat.le_of_lt_succ hji))
        have hle := hmono (h.sorted hx he (Nat.le_of_lt_succ hji))
        have hge : a ≤ home (hash x) := by
          by_contra hlt
          refine hmin _ (Nat.lt_of_not_le hlt) fun k hk hki => ?_
          rcases Nat.lt_or_ge k j with hkj | hjk
          · exact h.no_gap hx hk hkj
          · exact ha k (haj.trans hjk) hki
        simp [hx, hge, hle]) (hout he)
    have hle := hspread a _ hah
    rw [hcount] at hle
    omega

/-! ## Keys and numbers of elements -/

/-- An element with a new key keeps the keys different. -/
theorem Distinct.openAt (h : Distinct key f) {idx empty : Nat} (hle : idx ≤ empty)
    (hnew : ∀ i x, f i = some x → key x ≠ key e) : Distinct key (openAt f idx empty e) := by
  intro i j x y hi hj hkey
  rcases openAt_eq_some hle hi with ⟨rfl, rfl⟩ | ⟨hi', hx⟩ | ⟨i', rfl, hi', hlt, hx⟩ | ⟨hi', hx⟩
  · rcases openAt_eq_some hle hj with ⟨rfl, -⟩ | ⟨-, hy⟩ | ⟨j', -, -, -, hy⟩ | ⟨-, hy⟩
    · rfl
    · exact absurd hkey.symm (hnew j y hy)
    · exact absurd hkey.symm (hnew j' y hy)
    · exact absurd hkey.symm (hnew j y hy)
  · rcases openAt_eq_some hle hj with ⟨-, rfl⟩ | ⟨-, hy⟩ | ⟨j', rfl, hj', -, hy⟩ | ⟨-, hy⟩
    · exact absurd hkey (hnew i x hx)
    · exact h hx hy hkey
    · have heq := h hx hy hkey
      omega
    · exact h hx hy hkey
  · rcases openAt_eq_some hle hj with ⟨-, rfl⟩ | ⟨hj', hy⟩ | ⟨j', rfl, -, -, hy⟩ | ⟨hj', hy⟩
    · exact absurd hkey (hnew i' x hx)
    · have heq := h hx hy hkey
      omega
    · rw [h hx hy hkey]
    · have heq := h hx hy hkey
      omega
  · rcases openAt_eq_some hle hj with ⟨-, rfl⟩ | ⟨-, hy⟩ | ⟨j', rfl, -, hj', hy⟩ | ⟨-, hy⟩
    · exact absurd hkey (hnew i x hx)
    · exact h hx hy hkey
    · have heq := h hx hy hkey
      omega
    · exact h hx hy hkey

/-- Taking an element out keeps the keys different. -/
theorem Distinct.closeAt (h : Distinct key f) {idx last : Nat} (hle : idx ≤ last) :
    Distinct key (closeAt f idx last) := by
  intro i j x y hi hj hkey
  rcases closeAt_eq_some hle hi with ⟨hi', hx⟩ | ⟨hi', hlt, hx⟩ | ⟨hi', hx⟩
  · rcases closeAt_eq_some hle hj with ⟨-, hy⟩ | ⟨hj', -, hy⟩ | ⟨-, hy⟩
    · exact h hx hy hkey
    · have heq := h hx hy hkey
      omega
    · exact h hx hy hkey
  · rcases closeAt_eq_some hle hj with ⟨hj', hy⟩ | ⟨-, -, hy⟩ | ⟨hj', hy⟩
    · have heq := h hx hy hkey
      omega
    · exact Nat.succ.inj (h hx hy hkey)
    · have heq := h hx hy hkey
      omega
  · rcases closeAt_eq_some hle hj with ⟨-, hy⟩ | ⟨-, hj', hy⟩ | ⟨-, hy⟩
    · exact h hx hy hkey
    · have heq := h hx hy hkey
      omega
    · exact h hx hy hkey

variable {g : Slots E}

/-- An element may be exchanged for one with the same hash. -/
theorem Probed.congr (h : Probed hash home f)
    (hg : ∀ j, (g j).map hash = (f j).map hash) : Probed hash home g := by
  have hof : ∀ {j x}, g j = some x → ∃ y, f j = some y ∧ hash y = hash x := by
    intro j x hx
    have hmap := hg j
    rw [hx] at hmap
    exact Option.map_eq_some_iff.mp hmap.symm
  constructor
  · intro j x hx
    obtain ⟨y, hy, heq⟩ := hof hx
    rw [← heq]
    exact h.home_le hy
  · intro j k x hx hk hkj hnone
    obtain ⟨y, hy, heq⟩ := hof hx
    rw [← heq] at hk
    have hmap := hg k
    rw [hnone, map_none, eq_comm, map_eq_none_iff] at hmap
    exact h.no_gap hy hk hkj hmap
  · intro j k x x' hx hx' hjk
    obtain ⟨y, hy, heq⟩ := hof hx
    obtain ⟨y', hy', heq'⟩ := hof hx'
    rw [← heq, ← heq']
    exact h.sorted hy hy' hjk

/-- An element may be exchanged for one with the same key. -/
theorem Distinct.congr (h : Distinct key f)
    (hg : ∀ j, (g j).map key = (f j).map key) : Distinct key g := by
  have hof : ∀ {j x}, g j = some x → ∃ y, f j = some y ∧ key y = key x := by
    intro j x hx
    have hmap := hg j
    rw [hx] at hmap
    exact Option.map_eq_some_iff.mp hmap.symm
  intro i j x x' hx hx' hkey
  obtain ⟨y, hy, heq⟩ := hof hx
  obtain ⟨y', hy', heq'⟩ := hof hx'
  exact h hy hy' (by rw [heq, heq', hkey])

theorem length_contents_congr (hg : ∀ j, (g j).map key = (f j).map key) (n : Nat) :
    (contents g n).length = (contents f n).length := by
  have hsame : (contents g n).map key = (contents f n).map key := by
    rw [contents, contents, map_filterMap, map_filterMap]
    exact congrArg (fun r => List.filterMap r (List.range n)) (funext hg)
  rw [← length_map key, hsame, length_map]

/-- The contents of a table are known by its elements. -/
theorem contents_perm {n : Nat} (xs : List E) (hg : Distinct key g) (hxs : (xs.map key).Nodup)
    (hout : ∀ i x, g i = some x → i < n) (hsame : ∀ x, (∃ i, g i = some x) ↔ x ∈ xs) :
    (contents g n).Perm xs := by
  refine (perm_ext_iff_of_nodup (hg.nodup n).of_map hxs.of_map).mpr fun x => ?_
  rw [← hsame, mem_contents]
  constructor
  · rintro ⟨i, -, hi⟩
    exact ⟨i, hi⟩
  · rintro ⟨i, hi⟩
    exact ⟨i, hout i x hi, hi⟩

end Foundation
