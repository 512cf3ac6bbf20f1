import Mathlib.Data.List.GetD
import Mathlib.Data.Nat.ModEq
import Mathlib.Order.Nat
import Mathlib.Tactic.Common
import Snabb.Foundation.Memory

/-!
# Circular windows of a memory

A ring of `size` bytes: the address `a` stands for the byte at `a % size`, and a window of bytes
may go over the end of the ring. Programs copy such a window in two parts, `storeRing`. Two windows
are separate if none of their addresses name the same byte.

- `loadRing_storeRing_self`: what was stored is read;
- `loadRing_storeRing_separate`: windows that are separate do not disturb each other;
- `loadRing_storeRing_inside`: a part of a window is overwritten.
-/

namespace Foundation.Mem

open List
open Nat (add_assoc mod_lt add_mod)

variable {m : Mem} {size a b n k i : Nat} {bs : List UInt8}

theorem store_append (m : Mem) (a : Nat) (xs ys : List UInt8) :
    (m.store a xs).store (a + xs.length) ys = m.store a (xs ++ ys) := by
  funext i
  by_cases hsecond : a + xs.length ≤ i ∧ i < a + xs.length + ys.length
  · rw [store, if_pos hsecond, store, if_pos (by rw [List.length_append]; omega),
      getD_append_right _ _ _ _ (by omega), Nat.sub_add_eq]
  · rw [store_of_outside (by omega)]
    by_cases hfirst : a ≤ i ∧ i < a + xs.length
    · rw [store, if_pos hfirst, store, if_pos (by rw [List.length_append]; omega),
        getD_append _ _ _ _ (by omega)]
    · rw [store_of_outside (by omega), store_of_outside (by rw [List.length_append]; omega)]

/-- The bytes of a window. -/
def loadRing (m : Mem) (size a n : Nat) : List UInt8 :=
  (List.range n).map fun i => m ((a + i) % size)

/-- Overwrite a window, in two parts if it goes over the end. -/
def storeRing (m : Mem) (size a : Nat) (bs : List UInt8) : Mem :=
  let start := a % size
  if size < start + bs.length then
    (m.store start (bs.take (size - start))).store 0 (bs.drop (size - start))
  else m.store start bs

/-- No address of one window names a byte of the other. -/
def Separate (size a n b k : Nat) : Prop := ∀ i < n, ∀ j < k, (a + i) % size ≠ (b + j) % size

instance : Decidable (Separate size a n b k) := inferInstanceAs (Decidable (∀ _ < _, _))

theorem Separate.symm (h : Separate size a n b k) : Separate size b k a n :=
  fun j hj i hi heq => h i hi j hj heq.symm

theorem Separate.left {j : Nat} (h : Separate size a (n + j) b k) : Separate size a n b k :=
  fun i hi => h i (by omega)

theorem Separate.right {j : Nat} (h : Separate size a (n + j) b k) :
    Separate size (a + n) j b k := by
  intro i hi i' hi'
  rw [add_assoc]
  exact h (n + i) (by omega) i' hi'

@[simp] theorem length_loadRing : (m.loadRing size a n).length = n := by simp [loadRing]

theorem loadRing_add : m.loadRing size a (n + k) =
    m.loadRing size a n ++ m.loadRing size (a + n) k := by
  simp [loadRing, range_add, add_assoc]

/-- The addresses of a window start over at the end of the ring. -/
theorem add_mod_eq (hsize : 0 < size) (hi : i < size) :
    (a + i) % size = if a % size + i < size then a % size + i else a % size + i - size := by
  have hlt := mod_lt a hsize
  rw [add_mod, Nat.mod_eq_of_lt hi]
  split_ifs with h
  · exact Nat.mod_eq_of_lt h
  · rw [Nat.mod_eq_sub_mod (not_lt.mp h), Nat.mod_eq_of_lt (by omega)]

/-- A window that ends before the end of the ring is a plain one. -/
theorem loadRing_eq_load (h : a % size + n ≤ size) : m.loadRing size a n = m.load (a % size) n := by
  refine map_congr_left fun i hi => ?_
  have hi := mem_range.mp hi
  rw [add_mod_eq (by omega) (by omega), if_pos (by omega)]

/-- A window that goes over the end of the ring is two plain ones. -/
theorem loadRing_eq_two (hsize : 0 < size) (hn : n ≤ size) (h : size < a % size + n) :
    m.loadRing size a n =
      m.load (a % size) (size - a % size) ++ m.load 0 (n - (size - a % size)) := by
  have hlt := mod_lt a hsize
  obtain ⟨k, rfl⟩ := Nat.exists_eq_add_of_le (show size - a % size ≤ n by omega)
  rw [loadRing_add, loadRing_eq_load (by omega), Nat.add_sub_cancel_left]
  congr 1
  refine map_congr_left fun i hi => ?_
  have hi := mem_range.mp hi
  rw [add_assoc, add_mod_eq hsize (by omega), if_neg (by omega)]
  congr 1
  omega

theorem storeRing_at (hn : bs.length ≤ size) (hi : i < bs.length) :
    m.storeRing size a bs ((a + i) % size) = bs[i] := by
  have hlt := mod_lt a (show 0 < size by omega)
  rw [add_mod_eq (by omega) (by omega)]
  simp only [storeRing]
  split_ifs with hover hbefore hbefore
  · rw [store_of_outside (by simp; omega), store, if_pos (by simp; omega)]
    rw [getD_eq_getElem?_getD, List.getElem?_take_of_lt (by omega)]
    simp [hi]
  · rw [store, if_pos (by simp; omega), getD_eq_getElem?_getD, List.getElem?_drop]
    rw [show size - a % size + (a % size + i - size - 0) = i by omega]
    simp [hi]
  · rw [store]
    simp [hi]
  · omega

theorem storeRing_other (hsize : 0 < size) (hn : bs.length ≤ size) {p : Nat}
    (hp : ∀ i < bs.length, p ≠ (a + i) % size) : m.storeRing size a bs p = m p := by
  have hlt := mod_lt a hsize
  have hfirst : ∀ i < bs.length, a % size + i < size → p ≠ a % size + i := by
    intro i hi hend
    have hne := hp i hi
    rwa [add_mod_eq hsize (by omega), if_pos hend] at hne
  have hsecond : ∀ i < bs.length, size ≤ a % size + i → p ≠ a % size + i - size := by
    intro i hi hend
    have hne := hp i hi
    rwa [add_mod_eq hsize (by omega), if_neg (by omega)] at hne
  have hnot : p < a % size ∨ a % size + bs.length ≤ p ∨ size ≤ p := by
    by_contra hin
    exact hfirst (p - a % size) (by omega) (by omega) (by omega)
  simp only [storeRing]
  split_ifs with hover
  · have hlow : bs.length - (size - a % size) ≤ p := by
      by_contra hin
      exact hsecond (size - a % size + p) (by omega) (by omega) (by omega)
    rw [store_of_outside (by simp; omega), store_of_outside (by simp; omega)]
  · exact store_of_outside (by omega)

/-- **What was stored is read.** -/
theorem loadRing_storeRing_self (hn : bs.length ≤ size) :
    (m.storeRing size a bs).loadRing size a bs.length = bs := by
  refine ext_getElem (by simp) fun i hi hi' => ?_
  simp only [loadRing, getElem_map, getElem_range]
  exact storeRing_at hn hi'

/-- **Separate windows do not disturb each other.** -/
theorem loadRing_storeRing_separate (hsize : 0 < size) (hn : bs.length ≤ size)
    (h : Separate size a bs.length b k) :
    (m.storeRing size a bs).loadRing size b k = m.loadRing size b k :=
  map_congr_left fun j hj => storeRing_other hsize hn fun i hi heq =>
    h i hi j (mem_range.mp hj) heq.symm

/-- Windows that follow each other and fit into the ring together are separate. -/
theorem separate_of_le (hle : a + n ≤ b) (hfits : b + k ≤ a + size) : Separate size a n b k := by
  intro i hi j hj heq
  have hdvd := (Nat.modEq_iff_dvd' (by omega)).mp heq
  exact absurd (Nat.le_of_dvd (by omega) hdvd) (by omega)

/-- Where a window starts matters up to the size of the ring only. -/
theorem loadRing_mod {a' : Nat} (h : a' % size = a % size) :
    m.loadRing size a' n = m.loadRing size a n := by
  refine map_congr_left fun i _ => ?_
  rw [add_mod, h, ← add_mod]

theorem storeRing_mod {a' : Nat} (h : a' % size = a % size) :
    m.storeRing size a' bs = m.storeRing size a bs := by
  simp only [storeRing, h]

/-- **A part of a window is overwritten.** -/
theorem loadRing_storeRing_inside (hsize : 0 < size) (hinside : n + bs.length ≤ k) (hk : k ≤ size) :
    (m.storeRing size (a + n) bs).loadRing size a k =
      (m.loadRing size a k).take n ++ bs ++ (m.loadRing size a k).drop (n + bs.length) := by
  obtain ⟨rest, rfl⟩ := Nat.exists_eq_add_of_le hinside
  have hbefore : (m.storeRing size (a + n) bs).loadRing size a n = m.loadRing size a n :=
    loadRing_storeRing_separate hsize (by omega) (separate_of_le le_rfl (by omega)).symm
  have hbehind : (m.storeRing size (a + n) bs).loadRing size (a + (n + bs.length)) rest =
      m.loadRing size (a + (n + bs.length)) rest :=
    loadRing_storeRing_separate hsize (by omega) (separate_of_le (by omega) (by omega))
  have htake : (m.loadRing size a (n + bs.length + rest)).take n = m.loadRing size a n := by
    rw [add_assoc, loadRing_add, take_left' length_loadRing]
  have hdrop : (m.loadRing size a (n + bs.length + rest)).drop (n + bs.length) =
      m.loadRing size (a + (n + bs.length)) rest := by
    rw [loadRing_add, drop_left' length_loadRing]
  rw [htake, hdrop, loadRing_add, loadRing_add, hbefore, loadRing_storeRing_self (by omega),
    hbehind]

end Foundation.Mem
