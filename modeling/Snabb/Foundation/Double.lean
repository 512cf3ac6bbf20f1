import Mathlib.Data.Int.Log
import Mathlib.Data.Rat.Floor
import Mathlib.Tactic.FieldSimp
import Mathlib.Tactic.Linarith
import Mathlib.Tactic.Ring

/-!
# Arithmetic of doubles

A double has 53 binary digits. `double` rounds a rational number to the nearest one, of two to the
even one; exponents may have any size here. Whole numbers below `2 ^ 53` are doubles, and so the
remainder that is computed with rounded operations (`fmod`) is the true one for them
(`fmod_natCast`), although the quotient is rounded: it is never rounded up to a whole number.
-/

namespace Foundation

/-- The nearest whole number, of two the even one. -/
def roundEven (x : ℚ) : ℤ :=
  if x - ⌊x⌋ < 1 / 2 ∨ x - ⌊x⌋ = 1 / 2 ∧ ⌊x⌋ % 2 = 0 then ⌊x⌋ else ⌊x⌋ + 1

/-- The nearest double. -/
def double (x : ℚ) : ℚ :=
  let ulp : ℚ := 2 ^ (Int.log 2 |x| - 52)
  roundEven (x / ulp) * ulp

/-- The remainder as `x - floor(x / y) * y`, with every operation rounded. -/
def fmod (x y : ℚ) : ℚ := double (x - double (⌊double (x / y)⌋ * y))

theorem roundEven_intCast (n : ℤ) : roundEven n = n := by
  rw [roundEven, Int.floor_intCast, sub_self, if_pos (.inl (by norm_num))]

variable {x : ℚ} {m : ℤ}

theorem le_roundEven (h : m ≤ x) : m ≤ roundEven x := by
  have hle : m ≤ ⌊x⌋ := Int.le_floor.mpr h
  rw [roundEven]
  split <;> omega

theorem roundEven_lt (h : x < m - 1 / 2) : roundEven x < m := by
  have hle := Int.floor_le x
  rw [roundEven]
  split
  · have hlt : (⌊x⌋ : ℚ) < m := by linarith
    exact_mod_cast hlt
  · next hup =>
    have hhalf := not_lt.mp (not_or.mp hup).1
    have hlt : (⌊x⌋ : ℚ) + 1 < m := by linarith
    exact_mod_cast hlt

/-- Below `2 ^ 53` the last digit of a double counts one or less. -/
theorem exists_scale (hpos : 0 < |x|) (hlt : |x| < 2 ^ 53) :
    ∃ d : ℕ, |x| * 2 ^ d < 2 ^ 53 ∧ 2 ^ 52 ≤ |x| * 2 ^ d ∧
      double x = roundEven (x * 2 ^ d) / 2 ^ d := by
  have hlow := Int.zpow_log_le_self (b := 2) (by norm_num) hpos
  have hhigh := Int.lt_zpow_succ_log_self (b := 2) (by norm_num) |x|
  push_cast at hlow hhigh
  have hlog : Int.log 2 |x| ≤ 52 := by
    by_contra hgt
    have hpow : (2 : ℚ) ^ (53 : ℤ) ≤ 2 ^ Int.log 2 |x| :=
      zpow_le_zpow_right₀ (by norm_num) (by omega)
    exact absurd (hpow.trans hlow) (not_le.mpr (by exact_mod_cast hlt))
  obtain ⟨d, hd⟩ := Int.eq_ofNat_of_zero_le (sub_nonneg.mpr hlog)
  have hscale : (2 : ℚ) ^ (Int.log 2 |x|) * 2 ^ d = 2 ^ 52 := by
    rw [← zpow_natCast 2 d, ← zpow_add₀ (by norm_num), show Int.log 2 |x| + d = (52 : ℕ) by
      push_cast; omega, zpow_natCast]
  have hulp : (2 : ℚ) ^ (Int.log 2 |x| - 52) = 1 / 2 ^ d := by
    rw [show Int.log 2 |x| - 52 = -(d : ℤ) by omega, zpow_neg, zpow_natCast, one_div]
  have hdpos : (0 : ℚ) < 2 ^ d := by positivity
  refine ⟨d, ?_, ?_, ?_⟩
  · rw [zpow_add₀ (by norm_num), zpow_one] at hhigh
    nlinarith
  · nlinarith
  · rw [double]
    simp only [hulp, div_div_eq_mul_div, div_one, mul_one_div]

theorem double_zero : double 0 = 0 := by decide +kernel

/-- **Whole numbers** below `2 ^ 53` are doubles. -/
theorem double_intCast (h : |m| < 2 ^ 53) : double m = m := by
  rcases eq_or_ne m 0 with rfl | hne
  · exact_mod_cast double_zero
  · obtain ⟨d, -, -, hdouble⟩ := exists_scale (x := m)
      (abs_pos.mpr (Int.cast_ne_zero.mpr hne)) (by exact_mod_cast h)
    have hround : roundEven (m * 2 ^ d) = m * 2 ^ d := by
      exact_mod_cast roundEven_intCast (m * 2 ^ d)
    rw [hdouble, hround]
    push_cast
    field_simp

theorem double_natCast {n : ℕ} (h : n < 2 ^ 53) : double n = n := by
  exact_mod_cast double_intCast (m := n) (by rw [Nat.abs_cast]; exact_mod_cast h)

variable {a b : ℕ}

/-- **A quotient** is not rounded up to the next whole number. -/
theorem floor_double_div (ha : a < 2 ^ 53) (hb : 0 < b) :
    ⌊double ((a : ℚ) / b)⌋ = (a / b : ℕ) := by
  rcases Nat.eq_zero_or_pos a with rfl | hpos
  · rw [Nat.cast_zero, zero_div, double_zero, Nat.zero_div, Int.floor_zero, Nat.cast_zero]
  have haq : (0 : ℚ) < a := Nat.cast_pos.mpr hpos
  have hbq : (1 : ℚ) ≤ b := Nat.one_le_cast.mpr hb
  have hquot : (0 : ℚ) < a / b := by positivity
  have hlt : (a : ℚ) / b < 2 ^ 53 := by
    refine (div_le_self haq.le hbq).trans_lt ?_
    exact_mod_cast ha
  obtain ⟨d, -, hlow, hdouble⟩ := exists_scale (x := a / b) (by rwa [abs_of_pos hquot])
    (by rwa [abs_of_pos hquot])
  rw [abs_of_pos hquot, div_mul_eq_mul_div, le_div_iff₀ (by linarith)] at hlow
  have hdpos : (0 : ℚ) < 2 ^ d := by positivity
  have hmany : (b : ℚ) < 2 * 2 ^ d := by
    have hbelow : (a : ℚ) < 2 ^ 53 := by exact_mod_cast ha
    nlinarith
  have hle : a / b * b ≤ a := Nat.div_mul_le_self a b
  have hnext : a + 1 ≤ (a / b + 1) * b := Nat.lt_mul_of_div_lt (Nat.lt_succ_self _) hb
  generalize a / b = k at hle hnext ⊢
  have hleq : (k : ℚ) * b ≤ a := by exact_mod_cast hle
  have hnextq : (a : ℚ) + 1 ≤ (k + 1) * b := by exact_mod_cast hnext
  rw [hdouble, Int.floor_eq_iff, le_div_iff₀ hdpos, div_lt_iff₀ hdpos]
  constructor
  · have hround := le_roundEven (x := a / b * 2 ^ d) (m := k * 2 ^ d) (by
      push_cast
      exact mul_le_mul_of_nonneg_right ((le_div_iff₀ (by linarith)).mpr hleq) hdpos.le)
    exact_mod_cast hround
  · have hhalf : (a : ℚ) / b * 2 ^ d < ((k + 1) * 2 ^ d : ℤ) - 1 / 2 := by
      push_cast
      rw [div_mul_eq_mul_div, div_lt_iff₀ (by linarith)]
      nlinarith
    exact_mod_cast roundEven_lt hhalf

/-- **The remainder** of whole numbers below `2 ^ 53` is the true one. -/
theorem fmod_natCast (ha : a < 2 ^ 53) (hb : 0 < b) : fmod a b = (a % b : ℕ) := by
  have hle := Nat.div_mul_le_self a b
  have hmod := Nat.mod_le a b
  have hprod : ((a / b : ℕ) : ℤ) * (b : ℚ) = ((a / b * b : ℕ) : ℚ) := by push_cast; rfl
  have hrest : (a : ℚ) - (a / b * b : ℕ) = (a % b : ℕ) := by
    rw [sub_eq_iff_eq_add]
    exact_mod_cast (Nat.mod_add_div' a b).symm
  rw [fmod, floor_double_div ha hb, hprod, double_natCast (hle.trans_lt ha), hrest,
    double_natCast (hmod.trans_lt ha)]

end Foundation
