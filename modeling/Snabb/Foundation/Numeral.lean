import Mathlib.Data.Nat.Digits.Lemmas

/-!
# Numerals

Numbers written with digits, up to base 16 and with small letters, as `string.format` does, and
read as `tonumber` does.

- `value_numeral`: what is written is read;
- `length_numeral_le`: how long numerals are.
-/

namespace Foundation

open List

/-- `%d`, the class of the decimal digits. -/
def isDigit (c : UInt8) : Bool := 48 ≤ c && c ≤ 57

/-- `%x`, the class of the hexadecimal digits. -/
def isXDigit (c : UInt8) : Bool := isDigit c || (97 ≤ c && c ≤ 102) || (65 ≤ c && c ≤ 70)

def digitByte (d : Nat) : UInt8 := if d < 10 then 48 + UInt8.ofNat d else 87 + UInt8.ofNat d

/-- What a digit is worth. -/
def digitOf (c : UInt8) : Nat :=
  if isDigit c then c.toNat - 48 else if 97 ≤ c then c.toNat - 87 else c.toNat - 55

/-- `string.format`, with `%d` or `%x`. -/
def numeral (base n : Nat) : List UInt8 :=
  if n = 0 then [48] else ((Nat.digits base n).map digitByte).reverse

/-- `tonumber`, of a string of digits. -/
def value (base : Nat) (s : List UInt8) : Nat := s.foldl (fun n c => n * base + digitOf c) 0

variable {base n : Nat} {d : Nat}

theorem digitOf_digitByte (hd : d < 16) : digitOf (digitByte d) = d := by
  have hall : ∀ d < 16, digitOf (digitByte d) = d := by decide
  exact hall d hd

theorem isXDigit_digitByte (hd : d < 16) : isXDigit (digitByte d) := by
  have hall : ∀ d < 16, isXDigit (digitByte d) = true := by decide
  exact hall d hd

theorem isDigit_digitByte (hd : d < 10) : isDigit (digitByte d) := by
  have hall : ∀ d < 10, isDigit (digitByte d) = true := by decide
  exact hall d hd

theorem digitByte_eq_zero (hd : d < 16) : digitByte d = 48 ↔ d = 0 := by
  have hall : ∀ d < 16, digitByte d = 48 → d = 0 := by decide
  exact ⟨hall d hd, fun h => h ▸ rfl⟩

theorem exists_digits (hbase : 1 < base) (n : Nat) : ∃ ds : List Nat,
    numeral base n = (ds.map digitByte).reverse ∧ (∀ d ∈ ds, d < base) ∧
      Nat.ofDigits base ds = n ∧ ds ≠ [] := by
  rw [numeral]
  split
  · next hn => exact ⟨[0], rfl, by simpa using by omega, by simp [hn], cons_ne_nil _ _⟩
  · next hn => exact ⟨Nat.digits base n, rfl, fun d => Nat.digits_lt_base hbase,
      Nat.ofDigits_digits base n, Nat.digits_ne_nil_iff_ne_zero.mpr hn⟩

theorem numeral_ne_nil (hbase : 1 < base) (n : Nat) : numeral base n ≠ [] := by
  obtain ⟨ds, heq, -, -, hne⟩ := exists_digits hbase n
  rw [heq]
  simpa using hne

theorem isXDigit_of_mem_numeral (hbase : 1 < base) (hle : base ≤ 16) {c : UInt8}
    (hc : c ∈ numeral base n) : isXDigit c := by
  obtain ⟨ds, heq, hds, -, -⟩ := exists_digits hbase n
  rw [heq, mem_reverse] at hc
  obtain ⟨d, hd, rfl⟩ := mem_map.mp hc
  exact isXDigit_digitByte (lt_of_lt_of_le (hds d hd) hle)

theorem isDigit_of_mem_numeral {c : UInt8} (hc : c ∈ numeral 10 n) : isDigit c := by
  obtain ⟨ds, heq, hds, -, -⟩ := exists_digits (by decide : 1 < 10) n
  rw [heq, mem_reverse] at hc
  obtain ⟨d, hd, rfl⟩ := mem_map.mp hc
  exact isDigit_digitByte (hds d hd)

/-- **What is written is read.** -/
theorem value_numeral (hbase : 1 < base) (hle : base ≤ 16) (n : Nat) :
    value base (numeral base n) = n := by
  obtain ⟨ds, heq, hds, hvalue, -⟩ := exists_digits hbase n
  rw [heq, value, foldl_reverse, foldr_map, ← hvalue]
  clear heq hvalue
  induction ds with
  | nil => rfl
  | cons d ds ih =>
    rw [foldr_cons, ih fun e he => hds e (mem_cons_of_mem d he), Nat.ofDigits_cons,
      digitOf_digitByte (lt_of_lt_of_le (hds d mem_cons_self) hle)]
    rw [Nat.mul_comm, Nat.add_comm]

theorem length_numeral_le (hbase : 1 < base) {k : Nat} (hk : 0 < k) (hn : n < base ^ k) :
    (numeral base n).length ≤ k := by
  rw [numeral]
  split
  · exact hk
  · rw [length_reverse, length_map]
    exact (Nat.digits_length_le_iff hbase n).mpr hn

theorem head_numeral (hbase : 1 < base) (hle : base ≤ 16) :
    (numeral base n).head? = some 48 ↔ n = 0 := by
  rw [numeral]
  split
  · next hn => simp [hn]
  · next hn =>
    refine iff_of_false (fun h => ?_) hn
    have hne : Nat.digits base n ≠ [] := Nat.digits_ne_nil_iff_ne_zero.mpr hn
    have hlast := Nat.getLast_digit_ne_zero base hn
    rw [List.head?_reverse, List.getLast?_map, List.getLast?_eq_some_getLast hne,
      Option.map_some, Option.some.injEq] at h
    have hlt := Nat.digits_lt_base hbase (getLast_mem hne)
    exact hlast ((digitByte_eq_zero (by omega)).mp h)

end Foundation
