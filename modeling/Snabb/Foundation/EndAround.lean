import Mathlib.Data.Nat.ModEq

/-!
# Sums with end-around carry

The numbers up to `m` are added with a carry that goes around: what is over `m` counts from 1 again.
Zero is kept apart from `m`, although both are the same modulo `m`.

- `endAround`: what a number becomes, and `eq_endAround`: it is the only one that it can become;
- `onesAdd`, `foldl_onesAdd`: one addition, and the sum of a list;
- `endAround_fold`: a number may be folded, its high digits onto its low ones.
-/

namespace Foundation

open List

/-- What is left of a number when carries go around. -/
def endAround (m n : Nat) : Nat := if n = 0 then 0 else (n - 1) % m + 1

variable {m n k : Nat}

theorem endAround_eq_zero_iff : endAround m n = 0 ↔ n = 0 := by
  unfold endAround
  split_ifs with h <;> simp [h]

theorem endAround_le (hm : 0 < m) : endAround m n ≤ m := by
  unfold endAround
  split_ifs
  · exact Nat.zero_le m
  · exact Nat.mod_lt _ hm

theorem endAround_of_le (h : n ≤ m) : endAround m n = n := by
  unfold endAround
  split_ifs with hzero
  · exact hzero.symm
  · rw [Nat.mod_eq_of_lt (by omega)]
    omega

theorem endAround_modEq : endAround m n ≡ n [MOD m] := by
  unfold endAround
  split_ifs with h
  · rw [h]
  · have hmod := (Nat.mod_modEq (n - 1) m).add_right 1
    rwa [Nat.sub_add_cancel (Nat.pos_of_ne_zero h)] at hmod

theorem eq_endAround (hle : k ≤ m) (hzero : k = 0 ↔ n = 0) (hmod : k ≡ n [MOD m]) :
    k = endAround m n := by
  unfold endAround
  split_ifs with h
  · exact hzero.mpr h
  · have hk : k ≠ 0 := mt hzero.mp h
    have hpred : k - 1 ≡ n - 1 [MOD m] := by
      refine Nat.ModEq.add_right_cancel' 1 ?_
      rwa [Nat.sub_add_cancel (Nat.pos_of_ne_zero hk), Nat.sub_add_cancel (Nat.pos_of_ne_zero h)]
    have hlt : (k - 1) % m = k - 1 := Nat.mod_eq_of_lt (by omega)
    rw [← hpred]
    omega

theorem endAround_congr (hm : 0 < m) (hzero : k = 0 ↔ n = 0) (hmod : k ≡ n [MOD m]) :
    endAround m k = endAround m n :=
  eq_endAround (endAround_le hm) (endAround_eq_zero_iff.trans hzero) (endAround_modEq.trans hmod)

/-! ## Addition -/

/-- The carry of one addition goes around. -/
def onesAdd (m x y : Nat) : Nat := if x + y ≤ m then x + y else x + y - m

theorem onesAdd_eq (hx : n ≤ m) (hk : k ≤ m) : onesAdd m n k = endAround m (n + k) := by
  refine eq_endAround ?_ ?_ ?_
  all_goals
    unfold onesAdd
    split_ifs with h
  · exact h
  · omega
  · exact Iff.rfl
  · omega
  · rfl
  · exact (Nat.mod_eq_sub_mod (by omega)).symm

/-- The sum of a list, in whatever order its carries go around. -/
theorem foldl_onesAdd (hm : 0 < m) {xs : List Nat} (hxs : ∀ x ∈ xs, x ≤ m) :
    xs.foldl (onesAdd m) 0 = endAround m xs.sum := by
  have hfold start (hstart : start ≤ m) :
      xs.foldl (onesAdd m) start = endAround m (start + xs.sum) := by
    induction xs generalizing start with
    | nil => exact (endAround_of_le hstart).symm
    | cons x xs ih =>
      have hx := hxs x mem_cons_self
      have hadd := onesAdd_eq hstart hx
      rw [foldl_cons, ih (fun y hy => hxs y (mem_cons_of_mem _ hy)) _
        (hadd ▸ endAround_le hm), sum_cons, ← Nat.add_assoc]
      refine endAround_congr hm ?_ ?_
      · have hzero := endAround_eq_zero_iff (m := m) (n := start + x)
        omega
      · rw [hadd]
        exact endAround_modEq.add_right _
  rw [hfold 0 (Nat.zero_le m), Nat.zero_add]

/-! ## Folding -/

/-- The high digits of a number are worth as much as low ones. -/
theorem fold_modEq (m n : Nat) : n % (m + 1) + n / (m + 1) ≡ n [MOD m] := by
  conv_rhs => rw [← Nat.mod_add_div n (m + 1), Nat.add_mul, Nat.one_mul]
  refine Nat.ModEq.add_left _ ?_
  rw [Nat.ModEq, Nat.mul_add_mod]

theorem fold_eq_zero_iff (m n : Nat) : n % (m + 1) + n / (m + 1) = 0 ↔ n = 0 := by
  constructor
  · intro h
    have hdiv := Nat.mod_add_div n (m + 1)
    rw [(Nat.add_eq_zero_iff.mp h).1, (Nat.add_eq_zero_iff.mp h).2] at hdiv
    omega
  · rintro rfl
    simp

/-- **A number may be folded.** -/
theorem endAround_fold (hm : 0 < m) (n : Nat) :
    endAround m (n % (m + 1) + n / (m + 1)) = endAround m n :=
  endAround_congr hm (fold_eq_zero_iff m n) (fold_modEq m n)

end Foundation
