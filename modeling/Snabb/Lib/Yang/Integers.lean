import Mathlib.Data.FinEnum
import Snabb.Lib.Yang.Value

/-!
# Which integers are read exactly (`tointeger` of `lib/yang/util.lua`)

`strtoull` stops at the first character that is no digit, and nobody looks at the rest of the
string. `Readable` says for which strings this does no harm: then the integer that the string
denotes is returned if it is in the range of the type, and any other string is refused.
-/

namespace Snabb

open Foundation List
open Option (ite_none_right_eq_some)

namespace Yang

/-- The number that a string of digits denotes. -/
def digitsOf (base : Nat) (s : Str) : Option Nat :=
  if s ≠ [] ∧ ∀ c ∈ s, digitValue c < base then some (Nat.ofDigits base (s.map digitValue).reverse)
  else none

/-- `0[xX][0-9a-fA-F]+ | 0[0-7]* | [1-9][0-9]*`. -/
def denoted : Str → Option Nat
  | 48 :: x :: s => if x = 120 ∨ x = 88 then digitsOf 16 s else digitsOf 8 (48 :: x :: s)
  | [48] => some 0
  | s => digitsOf 10 s

def isNegative (s : Str) : Prop := s.head? = some 45

instance (s : Str) : Decidable (isNegative s) := inferInstanceAs (Decidable (_ = _))

/-- What follows the sign. -/
def unsignedPart : Str → Str
  | 45 :: s => s
  | 43 :: s => s
  | s => s

/-- The integer of this magnitude, with the sign of the string. -/
def signed (s : Str) (n : Nat) : Int := if isNegative s then -n else n

/-- A string is read if and only if it denotes an integer in the range of the type. -/
def ReadExactly (type : IntegerType) (s : Str) : Prop :=
  ∀ n, tointeger type s = .ok n ↔
    (signed s <$> denoted (unsignedPart s)) = some n ∧ type.min ≤ n ∧ n ≤ type.max

/-- The bounds for the magnitude of a number that is read. -/
def Within (type : IntegerType) (s : Str) (n : Nat) : Prop :=
  if isNegative s then n ≤ 2 ^ 63 ∧ (type = .uint64 ∨ type.min ≤ -n) else n ≤ type.max

/-- The prefix of base 16 with the capital letter. -/
def CapitalX (s : Str) : Prop := [48, 88].isPrefixOf s

instance (s : Str) : Decidable (CapitalX s) := inferInstanceAs (Decidable (_ = _))

/-- A number is out of the bounds of a type, where `strtoull` finds its digits behind a second sign
that is a minus or not, and gives `2 ^ 64 - m` for `m` if it is. -/
def Refused (type : IntegerType) (s : Str) (minus : Prop) [Decidable minus] (m : Nat) : Prop :=
  if minus then m ≠ 0 ∧
    if isNegative s then m < 2 ^ 63 ∨ 2 ^ 64 ≤ m ∨ type ≠ .uint64 ∧ m < 2 ^ 64 + type.min
    else type ≠ .uint64 ∧ (2 ^ 64 ≤ m ∨ type.max < 2 ^ 64 - m)
  else if isNegative s then 2 ^ 63 < m ∨ type ≠ .uint64 ∧ -m < type.min
  else type ≠ .uint64 ∧ type.max < m

/-- A number with the prefix `0X` is zero; and where the type is `uint64`, a negative number is out
of the range of `int64` and another one is not saturated. A string that denotes no number has no
characters behind its sign and its prefix, or what they begin with, behind blanks, is out of
bounds. -/
def Readable (type : IntegerType) (s : Str) : Prop :=
  match denoted (unsignedPart s) with
  | some n => (CapitalX (unsignedPart s) → n = 0) ∧
      (type = .uint64 → if isNegative s then n = 0 ∨ 2 ^ 63 < n else n < 2 ^ 64)
  | none =>
    let (base, digits) := baseOf (unsignedPart s)
    let rest := (digits.map toLower).dropWhile isSpace
    digits = [] ∨
      Refused type s (isNegative rest) (magnitude base (skipPrefix base (unsignedPart rest)))

variable {type : IntegerType} {s : Str} {n : Nat}

theorem strtoull_lt (s : Str) (base : Nat) : strtoull s base < 2 ^ 64 := by
  unfold strtoull
  split
  · dsimp only
    split <;> omega
  · exact (Nat.min_le_right _ _).trans_lt (by norm_num)
  · exact (Nat.min_le_right _ _).trans_lt (by norm_num)

theorem IntegerType.wide (type : IntegerType) :
    (type = .uint64 ∧ type.min = 0 ∧ type.max = 2 ^ 64 - 1) ∨
      (type ≠ .uint64 ∧ type.max < 2 ^ 64 - 1) := by
  cases type <;> decide

theorem strtoull_eq (s : Str) (base : Nat) : strtoull s base =
    let rest := s.dropWhile isSpace
    let m := magnitude base (skipPrefix base (unsignedPart rest))
    if isNegative rest then if 2 ^ 64 ≤ m then 2 ^ 64 - 1 else (2 ^ 64 - m) % 2 ^ 64
    else Nat.min m (2 ^ 64 - 1) := by
  unfold strtoull
  dsimp only
  split
  · next h => simp [h, isNegative, unsignedPart]
  · next h => simp [h, isNegative, unsignedPart]
  · next hminus hplus =>
    have hneg : ¬ isNegative (s.dropWhile isSpace) := by
      unfold isNegative
      cases h : s.dropWhile isSpace <;> simp_all
    have hpart : unsignedPart (s.dropWhile isSpace) = s.dropWhile isSpace := by
      unfold unsignedPart
      split <;> simp_all
    rw [if_neg hneg, hpart]

/-- The bounds refuse what `strtoull` gives. -/
theorem not_within_iff (type : IntegerType) (s t : Str) (base : Nat) :
    ¬ Within type s (strtoull t base) ↔
      let rest := t.dropWhile isSpace
      Refused type s (isNegative rest) (magnitude base (skipPrefix base (unsignedPart rest))) := by
  obtain ⟨hlow, hmin, hmax, hhigh, -⟩ := type.range
  rw [strtoull_eq]
  unfold Within Refused
  dsimp only
  generalize magnitude base _ = m
  rw [show Nat.min m (2 ^ 64 - 1) = if m ≤ 2 ^ 64 - 1 then m else 2 ^ 64 - 1 from Nat.min_def ..]
  obtain ⟨rfl, hlo, hhi⟩ | ⟨htype, hhi⟩ := type.wide
  · simp only [ne_eq, not_true_eq_false, false_and, or_false, true_or, and_true]
    split_ifs <;> (try simp only [and_false, iff_false, not_not]) <;> omega
  · simp only [ne_eq, htype, not_false_eq_true, true_and, false_or]
    split_ifs <;> omega

theorem unsigned_eq (s : Str) : unsigned s = if (baseOf s).2 = [] then .error .invalidValue
    else .ok (strtoull ((baseOf s).2.map toLower) (baseOf s).1) := rfl

theorem negated_eq (hn : n < 2 ^ 64) : negated n = if n ≤ 2 ^ 63 then -(n : Int) else 2 ^ 64 - n := by
  rw [negated, Int.bmod_def]
  split_ifs <;> omega

/-- What is returned: the number that the string begins with, within the bounds. -/
theorem tointeger_eq_ok {r : Int} : tointeger type s = .ok r ↔
    ∃ n, unsigned (unsignedPart s) = .ok n ∧ Within type s n ∧ signed s n = r := by
  have hpositive {s : Str} : (do
      let res ← unsigned s
      if type.max < res then throw ParseError.invalidValue else return (res : Int)) = .ok r ↔
      ∃ n, unsigned s = .ok n ∧ n ≤ type.max ∧ n = r := by
    cases unsigned s with
    | error e => simp [bind, Except.bind]
    | ok n =>
      show (if type.max < n then Except.error _ else .ok (n : Int)) = .ok r ↔ _
      by_cases hlt : type.max < n
      · simp [hlt]
      · simp [hlt, not_lt.mp hlt]
  unfold tointeger unsignedPart signed Within isNegative
  split
  · next s =>
    simp only [head?_cons, if_true]
    cases hn : unsigned s with
    | error e => simp [bind, Except.bind]
    | ok n =>
      have hlt : n < 2 ^ 64 := by
        rw [unsigned_eq] at hn
        split_ifs at hn
        cases hn
        exact strtoull_lt _ _
      show (if 0 < negated n then Except.error _ else
        if type ≠ .uint64 ∧ negated n < type.min then .error _ else .ok (negated n)) = .ok r ↔ _
      rw [negated_eq hlt]
      by_cases hle : n ≤ 2 ^ 63
      · rw [if_pos hle, if_neg (by omega)]
        by_cases htype : type ≠ .uint64 ∧ -n < type.min
        · rw [if_pos htype]
          simp [htype]
        · rw [if_neg htype]
          rw [not_and_or, not_not, not_lt] at htype
          simpa [htype] using fun _ => hle
      · rw [if_pos (by omega)]
        simpa using fun h => absurd h hle
  · simpa using hpositive
  · next hminus hplus =>
    have hhead : s.head? ≠ some 45 := by
      cases s <;> simp_all
    simpa [hhead] using hpositive

/-- A number is read, and saturated; the digits behind `0X` are not. -/
theorem unsigned_of_denoted (h : denoted s = some n) :
    unsigned s = .ok (if CapitalX s then 0 else Nat.min n (2 ^ 64 - 1)) := by
  have hdigits {base : Nat} {ds : Str} (hbase : base ≤ 16) (h : digitsOf base ds = some n) :
      ds ≠ [] ∧ strtoull (ds.map toLower) base = Nat.min n (2 ^ 64 - 1) := by
    obtain ⟨⟨hne, hall⟩, h⟩ := ite_none_right_eq_some.mp h
    cases h
    exact ⟨hne, strtoull_digits hne hbase hall⟩
  rw [unsigned_eq]
  unfold denoted at h
  split at h
  · next x ds =>
    by_cases hx : x = 120
    · subst hx
      obtain ⟨hne, hread⟩ := hdigits (by norm_num) h
      simpa [baseOf, CapitalX, hne] using hread
    · have hbase : baseOf (48 :: x :: ds) = (8, 48 :: x :: ds) := by simp [baseOf, hx]
      by_cases hX : x = 88
      · subst hX
        have hzero : strtoull ((48 :: 88 :: ds).map toLower) 8 = 0 := by
          cases ds <;> rfl
        rw [hbase, if_neg (by simp), hzero, if_pos (by simp [CapitalX])]
      · rw [if_neg (by simp [hx, hX])] at h
        obtain ⟨hne, hread⟩ := hdigits (by norm_num) h
        rw [hbase, if_neg hne, hread, if_neg (by simp [CapitalX, Ne.symm hX])]
  · cases h
    decide
  · next hlong hone =>
    obtain ⟨hne, hread⟩ := hdigits (by norm_num) h
    have hfirst : s.head? ≠ some 48 := by
      rcases s with _ | ⟨c, _ | ⟨d, s⟩⟩ <;> simp_all
    have hbase : baseOf s = (10, s) := by
      unfold baseOf
      split <;> simp_all
    have hcapital : ¬ CapitalX s := by
      cases s with
      | nil => simp [CapitalX]
      | cons c s => exact fun h => hfirst (by simp_all [CapitalX])
    rw [hbase, if_neg hne, if_neg hcapital, hread]

theorem readExactly_of_none (h : denoted (unsignedPart s) = none) :
    ReadExactly type s ↔ Readable type s := by
  unfold ReadExactly Readable
  simp only [tointeger_eq_ok, unsigned_eq, h, Option.map_eq_map, Option.map_none, reduceCtorEq,
    false_and, iff_false]
  constructor
  · intro hnone
    by_contra hcon
    rw [not_or, ← not_within_iff, not_not] at hcon
    exact hnone _ ⟨_, if_neg hcon.1, hcon.2, rfl⟩
  · rintro hrefused r ⟨n, hn, hwithin, -⟩
    split_ifs at hn with hne
    cases hn
    exact (not_within_iff ..).mpr (hrefused.resolve_left hne) hwithin

theorem readExactly_of_some (h : denoted (unsignedPart s) = some n) :
    ReadExactly type s ↔ Readable type s := by
  obtain ⟨hlow, hmin, hmax, hhigh, -⟩ := type.range
  unfold ReadExactly Readable
  simp only [tointeger_eq_ok, unsigned_of_denoted h, h, Except.ok.injEq, exists_eq_left',
    Option.map_eq_map, Option.map_some, Option.some.injEq]
  by_cases hcapital : CapitalX (unsignedPart s)
  · have hzero : Within type s 0 ∧ signed s 0 = 0 := by
      unfold Within signed
      split_ifs <;> simp [hmin, hmax]
    simp only [hcapital, if_true, hzero, true_and, forall_const]
    constructor
    · intro hexact
      have hsigned := ((hexact 0).mp rfl).1
      obtain rfl : n = 0 := by
        unfold signed at hsigned
        split_ifs at hsigned <;> omega
      simp
    · rintro ⟨rfl, -⟩ r
      rw [hzero.2]
      omega
  · have hread : n < 2 ^ 64 ∧ Nat.min n (2 ^ 64 - 1) = n ∨
        2 ^ 64 ≤ n ∧ Nat.min n (2 ^ 64 - 1) = 2 ^ 64 - 1 := by
      rcases Nat.lt_or_ge n (2 ^ 64) with hlt | hge
      · exact .inl ⟨hlt, Nat.min_eq_left (by omega)⟩
      · exact .inr ⟨hge, Nat.min_eq_right (by omega)⟩
    generalize Nat.min n (2 ^ 64 - 1) = m at hread
    simp only [hcapital, if_false, false_imp_iff, true_and, Within, signed]
    obtain ⟨rfl, hlo, hhi⟩ | ⟨htype, hhi⟩ := type.wide
    · -- a negative number is refused below `-2 ^ 63` only, and a positive one is saturated
      simp only [true_imp_iff, true_or, and_true]
      split_ifs
      · refine ⟨fun hexact => ?_, fun hn r => by omega⟩
        have := hexact (-m)
        omega
      · refine ⟨fun hexact => ?_, fun hn r => by omega⟩
        have := hexact m
        omega
    · simp only [htype, false_imp_iff, iff_true, false_or]
      split_ifs <;>
      · intro r
        omega

/-- **Which strings are read exactly**; what is printed for an integer always is. -/
theorem readExactly_iff (type : IntegerType) (s : Str) :
    (ReadExactly type s ↔ Readable type s) ∧
      ∀ n, type.min ≤ n ∧ n ≤ type.max → tointeger type (integerString n) = .ok n := by
  refine ⟨?_, fun n hn => tointeger_integerString ⟨.inl hn.1, hn.2⟩⟩
  cases h : denoted (unsignedPart s) with
  | none => exact readExactly_of_none h
  | some n => exact readExactly_of_some h

/-- A digit and a letter. -/
theorem rest_is_not_read : ¬ ReadExactly .uint8 (str "7x") := by
  intro h
  exact absurd (((h 7).mp (by rfl)).1) (by decide +kernel)

end Yang

end Snabb
