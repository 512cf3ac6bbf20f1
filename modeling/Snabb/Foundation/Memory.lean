import Mathlib.Data.List.Basic
import Mathlib.Data.List.Range
import Mathlib.Tactic.Ring

/-!
# Byte memories and little-endian integers

A memory is a total map from offsets to bytes. Programs touch it through two
operations only: `load` reads a window as a list of bytes, `store` overwrites a
window with a list of bytes. `memmove` is a load followed by a store, which is
exactly the C contract (the copy behaves as if it went through a temporary
array), so overlapping windows need no special case.

The frame rule is `load_store_disjoint`: a store does not disturb a window it
does not meet. Together with `load_store_self` and the splitting rule
`load_add` it decides every read-after-write question, without ever unfolding
a memory to its function.

Fixed-width integers are stored little-endian: `leBytes w n` is the list of the
`w` low bytes of `n`, and `leNat` reads such a list back.
-/

namespace Foundation

open List

/-- A byte memory, indexed by offset. -/
abbrev Mem := Nat → UInt8

namespace Mem

/-- The `n` bytes from offset `a` on. -/
def load (m : Mem) (a n : Nat) : List UInt8 :=
  (List.range n).map fun k => m (a + k)

/-- Overwrite the window that starts at offset `a` with `bs`. -/
def store (m : Mem) (a : Nat) (bs : List UInt8) : Mem := fun i =>
  if a ≤ i ∧ i < a + bs.length then bs.getD (i - a) 0 else m i

/-- C's `memmove`: the source window is read before the target is written. -/
def memmove (m : Mem) (dst src n : Nat) : Mem :=
  m.store dst (m.load src n)

@[simp] theorem length_load (m : Mem) (a n : Nat) : (m.load a n).length = n := by
  simp [load]

theorem getElem_load (m : Mem) (a n k : Nat) (h : k < (m.load a n).length) :
    (m.load a n)[k] = m (a + k) := by
  simp [load]

theorem load_add (m : Mem) (a n k : Nat) : m.load a (n + k) = m.load a n ++ m.load (a + n) k := by
  simp [load, range_add, Nat.add_assoc]

theorem take_load (m : Mem) (a n k : Nat) (h : k ≤ n) : (m.load a n).take k = m.load a k := by
  obtain ⟨d, rfl⟩ := Nat.exists_eq_add_of_le h
  rw [load_add, take_left' (length_load m a k)]

theorem drop_load (m : Mem) (a n k : Nat) (h : k ≤ n) :
    (m.load a n).drop k = m.load (a + k) (n - k) := by
  obtain ⟨d, rfl⟩ := Nat.exists_eq_add_of_le h
  rw [load_add, drop_left' (length_load m a k), Nat.add_sub_cancel_left]

/-- Two memories that agree on a window have the same bytes there. -/
theorem load_congr {m m' : Mem} {a b n : Nat} (h : ∀ k < n, m (a + k) = m' (b + k)) :
    m.load a n = m'.load b n := by
  refine map_congr_left fun k hk => ?_
  exact h k (mem_range.mp hk)

theorem store_of_outside {m : Mem} {a i : Nat} {bs : List UInt8}
    (h : i < a ∨ a + bs.length ≤ i) : m.store a bs i = m i := by
  rw [store, if_neg]
  omega

theorem load_store_self (m : Mem) (a : Nat) (bs : List UInt8) {n : Nat}
    (hn : n = bs.length) : (m.store a bs).load a n = bs := by
  subst hn
  refine ext_getElem (by simp) fun k h₁ h₂ => ?_
  rw [getElem_load, store]
  simp [h₂]

/-- The frame rule: a store leaves every window it does not meet alone. -/
theorem load_store_disjoint (m : Mem) {a b n : Nat} {bs : List UInt8}
    (h : b + n ≤ a ∨ a + bs.length ≤ b) : (m.store a bs).load b n = m.load b n := by
  refine load_congr fun k hk => ?_
  exact store_of_outside (by omega)

theorem load_store_inside (m : Mem) (a j n : Nat) (bs : List UInt8) (h : j + n ≤ bs.length) :
    (m.store a bs).load (a + j) n = (bs.drop j).take n := by
  have hj : j ≤ bs.length := by omega
  rw [← take_load _ _ (bs.length - j) n (by omega), ← drop_load _ _ _ _ hj,
    load_store_self m a bs rfl]

theorem load_memmove (m : Mem) (dst src n : Nat) :
    (m.memmove dst src n).load dst n = m.load src n :=
  load_store_self m dst _ (length_load m src n).symm

end Mem

/-! ## Little-endian integers -/

/-- The `w` low bytes of `n`, least significant first. -/
def leBytes : Nat → Nat → List UInt8
  | 0, _ => []
  | w + 1, n => UInt8.ofNat n :: leBytes w (n / 256)

/-- The integer whose little-endian bytes are given. -/
def leNat : List UInt8 → Nat
  | [] => 0
  | b :: bs => b.toNat + 256 * leNat bs

@[simp] theorem length_leBytes (w n : Nat) : (leBytes w n).length = w := by
  induction w generalizing n with
  | zero => rfl
  | succ w ih => simp [leBytes, ih]

/-- Storing an integer in `w` bytes keeps it modulo `256 ^ w`. -/
theorem leNat_leBytes (w n : Nat) : leNat (leBytes w n) = n % 256 ^ w := by
  induction w generalizing n with
  | zero => simp [leBytes, leNat, Nat.mod_one]
  | succ w ih =>
    rw [leBytes, leNat, ih, show 256 ^ (w + 1) = 256 * 256 ^ w from pow_succ' 256 w]
    exact Nat.mod_mul.symm

theorem leNat_lt (bs : List UInt8) : leNat bs < 256 ^ bs.length := by
  induction bs with
  | nil => simp [leNat]
  | cons b bs ih =>
    have hb : b.toNat < 256 := b.toNat_lt
    rw [leNat, length_cons]
    omega

/-- Writing back what was read restores the bytes. -/
theorem leBytes_leNat (bs : List UInt8) {w : Nat} (hw : w = bs.length) :
    leBytes w (leNat bs) = bs := by
  subst hw
  induction bs with
  | nil => rfl
  | cons b bs ih =>
    have hb : b.toNat < 256 := b.toNat_lt
    rw [length_cons, leBytes, leNat, Nat.add_mul_div_left _ _ (by decide),
      Nat.div_eq_of_lt hb, Nat.zero_add]
    congr 1
    rw [← UInt8.toNat_inj, UInt8.toNat_ofNat']
    omega

end Foundation
