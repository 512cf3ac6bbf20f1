import Mathlib.Data.BitVec
import Mathlib.Data.List.Count

/-!
# Ranks of bits

The rank of a place in a bit vector is the number of the bits that are set below it. It numbers
the bits that are set, so that a vector and an array with one element for each of them describe a
sparse array.

- `rank_mask`: the rank as the number of bits that are left under a mask;
- `rank_succ_shift`: the step of a count that shifts the vector.
-/

namespace Foundation

open List BitVec

variable {w : Nat}

/-- The number of bits set below a place. -/
def rank (v : BitVec w) (k : Nat) : Nat := (List.range k).countP v.getLsbD

variable {v : BitVec w} {k n : Nat}

@[simp] theorem rank_zero (v : BitVec w) : rank v 0 = 0 := rfl

theorem rank_succ (v : BitVec w) (k : Nat) : rank v (k + 1) = rank v k + (v.getLsbD k).toNat := by
  rw [rank, range_succ, countP_append, countP_singleton]
  cases v.getLsbD k with
  | false => rfl
  | true => rfl

theorem rank_congr {v' : BitVec w} (h : ∀ i < k, v.getLsbD i = v'.getLsbD i) :
    rank v k = rank v' k := by
  refine countP_congr fun i hi => ?_
  rw [h i (mem_range.mp hi)]

theorem rank_mono (v : BitVec w) (h : k ≤ n) : rank v k ≤ rank v n := by
  induction h with
  | refl => exact le_rfl
  | step _ ih =>
    rw [rank_succ]
    exact ih.trans (Nat.le_add_right _ _)

/-- Set a bit. -/
def setBit (v : BitVec w) (n : Nat) : BitVec w := v ||| 1#w <<< n

theorem getLsbD_setBit (hn : n < w) (k : Nat) :
    (setBit v n).getLsbD k = (v.getLsbD k || decide (k = n)) := by
  rw [setBit, getLsbD_or, getLsbD_shiftLeft, getLsbD_one]
  rcases Nat.lt_trichotomy k n with hlt | rfl | hgt
  · simp [hlt, hlt.ne]
  · simp [hn, Nat.zero_lt_of_lt hn]
  · rw [decide_eq_false (show ¬ k = n by omega), decide_eq_false (show ¬ k - n = 0 by omega),
      Bool.and_false, Bool.and_false]

theorem rank_setBit_of_le (hn : n < w) (h : k ≤ n) : rank (setBit v n) k = rank v k := by
  refine rank_congr fun i hi => ?_
  rw [getLsbD_setBit hn, decide_eq_false (by omega), Bool.or_false]

/-- The number that masks the places up to one. -/
theorem toNat_mask (hk : k < w) : (2#w <<< k - 1#w).toNat = 2 ^ (k + 1) - 1 := by
  have hpow : 2 ^ (k + 1) ≤ 2 ^ w := Nat.pow_le_pow_right (by decide) hk
  have hsucc : 2 ^ (k + 1) = 2 ^ k * 2 := Nat.pow_succ ..
  have hpos : 0 < 2 ^ k := Nat.two_pow_pos k
  have hshift : (2#w <<< k).toNat = 2 ^ (k + 1) % 2 ^ w := by
    rw [toNat_shiftLeft, toNat_ofNat, Nat.shiftLeft_eq, Nat.mod_mul_mod, hsucc,
      Nat.mul_comm 2]
  rw [toNat_sub, hshift, toNat_ofNat, Nat.mod_eq_of_lt (show 1 < 2 ^ w by omega)]
  rcases Nat.lt_or_eq_of_le hpow with hlt | heq
  · rw [Nat.mod_eq_of_lt hlt, show 2 ^ w - 1 + 2 ^ (k + 1) = 2 ^ (k + 1) - 1 + 2 ^ w by omega,
      Nat.add_mod_right, Nat.mod_eq_of_lt (by omega)]
  · rw [heq, Nat.mod_self, Nat.add_zero, Nat.mod_eq_of_lt (by omega)]

/-- The bits that a mask leaves. -/
theorem rank_mask (v : BitVec w) (hk : k < w) :
    rank (v &&& (2#w <<< k - 1#w)) w = rank v (k + 1) := by
  have hmask i : (2#w <<< k - 1#w).getLsbD i = decide (i < k + 1) := by
    rw [← testBit_toNat, toNat_mask hk, Nat.testBit_two_pow_sub_one]
  have hand i :
      (v &&& (2#w <<< k - 1#w)).getLsbD i = (v.getLsbD i && decide (i < k + 1)) := by
    rw [getLsbD_and, hmask]
  have habove n (hn : k + 1 ≤ n) :
      rank (v &&& (2#w <<< k - 1#w)) n = rank (v &&& (2#w <<< k - 1#w)) (k + 1) := by
    induction hn with
    | refl => rfl
    | step hle ih =>
      rw [rank_succ, ih, hand, decide_eq_false (Nat.not_lt.mpr hle), Bool.and_false,
        Bool.toNat_false, Nat.add_zero]
  rw [habove w hk]
  refine rank_congr fun i hi => ?_
  rw [hand, decide_eq_true hi, Bool.and_true]

theorem rank_zero_vector (k : Nat) : rank (0#w) k = 0 := by
  induction k with
  | zero => rfl
  | succ k ih => rw [rank_succ, ih, getLsbD_zero, Bool.toNat_false]

theorem rank_succ_shift (v : BitVec w) (k : Nat) :
    rank v (k + 1) = (v.getLsbD 0).toNat + rank (v >>> 1) k := by
  induction k with
  | zero => rw [rank_succ, rank_zero, rank_zero, Nat.zero_add, Nat.add_zero]
  | succ k ih =>
    rw [rank_succ, ih, rank_succ, getLsbD_ushiftRight, Nat.add_comm 1 k, Nat.add_assoc]

end Foundation
