import Mathlib.Data.Nat.Find
import Snabb.Foundation.Run

/-!
# Branchless binary search

A vector of `count` elements is searched for the first one that is not below a key. The
first bisection makes the rest of the vector a power of two long, the others halve it; no
bisection looks at the key it finds there for equality, so nothing ends the search early.
Reads may fail.

- `search_ok`: where the elements that are not below the key stand behind those that are,
  the search reads inside the vector only and finds the first of them, or the last element
  of the vector if there is none.
-/

namespace Foundation.BinarySearch

variable {ε : Type} {read : Nat → Except ε Nat} {f : Nat → Nat} {count key : Nat}

/-- Halve a range of `2 ^ k` elements that starts at `base`. -/
def halve (read : Nat → Except ε Nat) (key : Nat) : Nat → Nat → Except ε Nat
  | 0, base => .ok base
  | k + 1, base => do
    let mid ← read (base + (2 ^ k - 1))
    halve read key k (if mid < key then base + 2 ^ k else base)

/-- The exponent of the first power of two that is not below `count`, from `2 ^ k` on. -/
def exponent (count : Nat) : Nat → Nat → Nat
  | 0, k => k
  | fuel + 1, k => if 2 ^ k < count then exponent count fuel (k + 1) else k

/-- Search a vector of `count` elements. -/
def search (read : Nat → Except ε Nat) (count key : Nat) : Except ε Nat :=
  match exponent count count 0 with
  | 0 => .ok 0
  | k + 1 => do
    let mid ← read (2 ^ k - 1)
    halve read key k (if mid < key then count - 2 ^ k else 0)

/-- The first element that is not below the key, or the last one if there is none. -/
structure IsFirst (f : Nat → Nat) (count key a : Nat) : Prop where
  lt : a < count
  below : ∀ i < a, f i < key
  found : key ≤ f a ∨ a + 1 = count

theorem exists_first (hcount : 0 < count) (f : Nat → Nat) (key : Nat) :
    ∃ a, IsFirst f count key a := by
  by_cases h : ∃ i, i < count ∧ key ≤ f i
  · obtain ⟨hlt, hle⟩ := Nat.find_spec h
    refine ⟨Nat.find h, hlt, fun i hi => ?_, .inl hle⟩
    have hnot := Nat.find_min h hi
    omega
  · have hall : ∀ i < count, f i < key := by
      intro i hi
      by_contra hge
      exact h ⟨i, hi, Nat.le_of_not_lt hge⟩
    exact ⟨count - 1, by omega, fun i hi => hall i (by omega), .inr (by omega)⟩

theorem exponent_spec (count fuel k : Nat) (hk : k = 0 ∨ 2 ^ (k - 1) < count)
    (hfuel : count ≤ 2 ^ (k + fuel)) :
    count ≤ 2 ^ exponent count fuel k ∧
      (exponent count fuel k = 0 ∨ 2 ^ (exponent count fuel k - 1) < count) := by
  induction fuel generalizing k with
  | zero => exact ⟨hfuel, hk⟩
  | succ fuel ih =>
    rw [exponent]
    split
    · next hlt =>
      refine ih (k + 1) (.inr hlt) ?_
      rwa [Nat.add_assoc, Nat.add_comm 1]
    · next hge => exact ⟨Nat.le_of_not_lt hge, hk⟩

/-- The bisection keeps the element that is looked for in its range. -/
theorem halve_ok (hread : ∀ i < count, read i = .ok (f i))
    (hmono : ∀ i j, i ≤ j → j < count → key ≤ f i → key ≤ f j) {a : Nat}
    (ha : IsFirst f count key a) {k base : Nat} (hle : base + 2 ^ k ≤ count) (hbase : base ≤ a)
    (hlt : a < base + 2 ^ k) : halve read key k base = .ok a := by
  induction k generalizing base with
  | zero =>
    obtain rfl : base = a := by
      omega
    rfl
  | succ k ih =>
    rw [halve, bind_of_eq_ok (hread _ (by omega))]
    split
    · next hbelow =>
      refine ih (by omega) ?_ (by omega)
      by_contra hin
      rcases ha.found with hfound | hlast
      · have hup := hmono a (base + (2 ^ k - 1)) (by omega) (by omega) hfound
        omega
      · omega
    · next habove =>
      refine ih (by omega) hbase ?_
      by_contra hout
      exact habove (ha.below _ (by omega))

/-- **The search finds the first element that is not below the key**, or the last element of
the vector, and reads inside the vector only. -/
theorem search_ok (hcount : 0 < count) (hread : ∀ i < count, read i = .ok (f i))
    (hmono : ∀ i j, i ≤ j → j < count → key ≤ f i → key ≤ f j) :
    ∃ a, search read count key = .ok a ∧ IsFirst f count key a := by
  obtain ⟨a, ha⟩ := exists_first hcount f key
  refine ⟨a, ?_, ha⟩
  have hlt := ha.lt
  obtain ⟨hup, hdown⟩ := exponent_spec count count 0 (.inl rfl)
    (by rw [Nat.zero_add]; exact Nat.le_of_lt Nat.lt_two_pow_self)
  rw [search]
  split
  · next hzero =>
    rw [hzero] at hup
    obtain rfl : a = 0 := by
      omega
    rfl
  · next k hsucc =>
    rw [hsucc] at hup
    have hk : 2 ^ k < count := by
      rcases hdown with hzero | hk
      · omega
      · rwa [hsucc] at hk
    rw [bind_of_eq_ok (hread _ (by omega))]
    split
    · next hbelow =>
      refine halve_ok hread hmono ha (by omega) ?_ (by omega)
      by_contra hin
      rcases ha.found with hfound | hlast
      · have hup' := hmono a (2 ^ k - 1) (by omega) (by omega) hfound
        omega
      · omega
    · next habove =>
      refine halve_ok hread hmono ha (by omega) (Nat.zero_le a) ?_
      by_contra hout
      exact habove (ha.below _ (by omega))

end Foundation.BinarySearch
