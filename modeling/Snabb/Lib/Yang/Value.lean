import Mathlib.Data.Nat.Digits.Lemmas
import Snabb.Lib.Yang.Parser

/-!
# YANG values (`lib/yang/value.lua`, `value_parser` of `lib/yang/data.lua`)

What the types make of a string, and the string that they print for a value.

- `Primitive.parse`, `Primitive.tostring`: the types, with `tointeger` of `lib/yang/util.lua`;
- `ArgumentType.parse`: `value_parser`, with its validators;
- `Primitive.parse_tostring`: a value is brought back by what is printed for it.

A Lua number and a 64-bit cdata of the same value are one integer: which of them there is follows
from the integer. The texts of addresses are up to `lib.protocol`, which is a parameter.
-/

namespace Snabb

open Foundation List
open Except (ok.inj)

namespace Yang

inductive IntegerType where
  | int8 | int16 | int32 | int64 | uint8 | uint16 | uint32 | uint64
deriving DecidableEq, Repr

inductive Family where
  | ipv4 | ipv6 | mac
deriving DecidableEq, Repr

inductive Primitive where
  | integer (type : IntegerType)
  | boolean
  | string
  | enumeration
  | empty
  | address (family : Family)
deriving DecidableEq, Repr

inductive Value where
  | integer (n : Int)
  | boolean (b : Bool)
  | string (s : Str)
  | address (a : Nat)
deriving DecidableEq, Repr

/-- `pton` and `ntop` of the addresses. -/
structure Protocol where
  pton : Family → Str → Option Nat
  ntop : Family → Nat → Str

/-- What is printed for an address gives it back. -/
def Protocol.Inverse (protocol : Protocol) : Prop :=
  ∀ family s a, protocol.pton family s = some a →
    protocol.pton family (protocol.ntop family a) = some a

/-! ## Integers -/

def IntegerType.bits : IntegerType → Nat
  | .int8 | .uint8 => 8
  | .int16 | .uint16 => 16
  | .int32 | .uint32 => 32
  | .int64 | .uint64 => 64

def IntegerType.signed : IntegerType → Bool
  | .int8 | .int16 | .int32 | .int64 => true
  | .uint8 | .uint16 | .uint32 | .uint64 => false

def IntegerType.min (type : IntegerType) : Int := if type.signed then -2 ^ (type.bits - 1) else 0

def IntegerType.max (type : IntegerType) : Int :=
  if type.signed then 2 ^ (type.bits - 1) - 1 else 2 ^ type.bits - 1

/-- A field of the C type with this value. -/
def IntegerType.wrap (type : IntegerType) (n : Int) : Int :=
  type.min + (n - type.min) % 2 ^ type.bits

def toLower (c : UInt8) : UInt8 := if 65 ≤ c && c ≤ 90 then c + 32 else c

def digitValue (c : UInt8) : Nat :=
  if 48 ≤ c && c ≤ 57 then c.toNat - 48
  else if 97 ≤ c && c ≤ 122 then c.toNat - 87
  else if 65 ≤ c && c ≤ 90 then c.toNat - 55
  else 36

/-- The number that the digits at the beginning stand for. -/
def magnitude (base : Nat) (s : Str) : Nat :=
  Nat.ofDigits base ((s.map digitValue).takeWhile (· < base)).reverse

/-- A `0x` before a digit, which is left out when the base is 16. -/
def skipPrefix (base : Nat) : Str → Str
  | 48 :: x :: c :: s =>
    if base = 16 ∧ (x = 120 ∨ x = 88) ∧ digitValue c < 16 then c :: s else 48 :: x :: c :: s
  | s => s

/-- `strtoull`. -/
def strtoull (s : Str) (base : Nat) : Nat :=
  match s.dropWhile isSpace with
  | 45 :: s =>
    let n := magnitude base (skipPrefix base s)
    if 2 ^ 64 ≤ n then 2 ^ 64 - 1 else (2 ^ 64 - n) % 2 ^ 64
  | 43 :: s => Nat.min (magnitude base (skipPrefix base s)) (2 ^ 64 - 1)
  | s => Nat.min (magnitude base (skipPrefix base s)) (2 ^ 64 - 1)

/-- The base of a number without its sign, and what follows the `0x`. -/
def baseOf : Str → Nat × Str
  | 48 :: 120 :: s => (16, s)
  | 48 :: s => (8, 48 :: s)
  | s => (10, s)

/-- `tointeger` of a number without its sign. -/
def unsigned (s : Str) : Except ParseError Nat :=
  let (base, digits) := baseOf s
  if digits = [] then .error .invalidValue else .ok (strtoull (digits.map toLower) base)

/-- The product of -1 and a number of 64 bits, as a signed one. -/
def negated (res : Nat) : Int := (-(res : Int)).bmod (2 ^ 64)

/-- `tointeger` with the bounds of a type. -/
def tointeger (type : IntegerType) (s : Str) : Except ParseError Int := do
  match s with
  | 45 :: s =>
    let res ← unsigned s
    if 0 < negated res then throw .invalidValue
    -- Both sides are unsigned where the bound is.
    else if type ≠ .uint64 ∧ negated res < type.min then throw .invalidValue
    else return negated res
  | 43 :: s =>
    let res ← unsigned s
    if type.max < res then throw .invalidValue else return res
  | s =>
    let res ← unsigned s
    if type.max < res then throw .invalidValue else return res

/-- A number in decimal digits. -/
def decimal (n : Nat) : Str :=
  if n = 0 then [48] else (Nat.digits 10 n).reverse.map fun d => 48 + UInt8.ofNat d

/-- `tostring` of an integer, without the suffix of a cdata. -/
def integerString (n : Int) : Str :=
  if n < 0 then 45 :: decimal n.natAbs else decimal n.natAbs

/-! ## Types -/

/-- `parse` of the types; there is no string where no argument was read. -/
def Primitive.parse (protocol : Protocol) : Primitive → Option Str → Except ParseError Value
  | .empty, none => .ok (.boolean true)
  | .empty, some _ => .error .invalidValue
  | .integer type, some s => .integer <$> tointeger type s
  | .boolean, some s =>
    if s = str "true" then .ok (.boolean true)
    else if s = str "false" then .ok (.boolean false)
    else .error .invalidValue
  | .string, some s => .ok (.string s)
  | .enumeration, some s => .ok (.string s)
  | .address family, some s =>
    match protocol.pton family s with
    | some a => .ok (.address a)
    | none => .error .invalidValue
  | _, none => .error .missingValue

/-- `tostring` of the types, for a value that is of the type. -/
def Primitive.tostring (protocol : Protocol) : Primitive → Value → Option Str
  | .empty, _ => some []
  | .integer _, .integer n => some (integerString n)
  | .boolean, .boolean b => some (if b then str "true" else str "false")
  | .string, .string s => some s
  | .enumeration, .string s => some s
  | .address family, .address a => some (protocol.ntop family a)
  | _, _ => none

/-- `ctype` of the types: which of them are kept in fields of a C type. -/
def Primitive.hasCtype : Primitive → Bool
  | .integer _ | .boolean | .address _ => true
  | .string | .enumeration | .empty => false

/-- What is read from a field of the C type. -/
def Primitive.store : Primitive → Value → Value
  | .integer type, .integer n => .integer (type.wrap n)
  | _, v => v

/-- A range or a length: pairs of bounds, where there is none for `min` and for `max`. -/
abbrev Range := List (Option Int × Option Int)

/-- `argument_type` of a grammar. A pattern is what `regexp.compile` makes of it. -/
structure ArgumentType where
  primitive : Primitive
  range : Option Range
  length : Option Range
  pattern : List (Str → Bool)
  enums : Option (List Str)

/-- `<=` of numbers; what does not fit in 32 bits is a cdata, and unsigned if it is not negative. -/
def luaLe (a b : Int) : Bool :=
  if 2 ^ 32 ≤ a ∨ 2 ^ 32 ≤ b then a % 2 ^ 64 ≤ b % 2 ^ 64 else a ≤ b

/-- `range_predicate`. -/
def Range.contains (range : Range) (n : Int) : Bool :=
  range.any fun (l, r) => l.all (luaLe · n) && r.all (luaLe n ·)

/-- `range_validator`. -/
def rangeValid : Option Range → Value → Bool
  | none, _ => true
  | some range, .integer n => range.contains n
  | some _, _ => false

/-- `length_validator`. -/
def lengthValid : Option Range → Value → Bool
  | none, _ => true
  | some length, .string s => length.contains s.length
  | some _, _ => false

/-- `pattern_validator`. -/
def patternValid (pattern : List (Str → Bool)) : Value → Bool
  | .string s => pattern.all (· s)
  | _ => true

/-- `enum_validator`, which only an enumeration has. -/
def enumValid (type : ArgumentType) : Value → Bool
  | .string s => type.primitive != .enumeration || type.enums.all (·.contains s)
  | _ => true

/-- The validators of a type. -/
def ArgumentType.accepts (type : ArgumentType) (v : Value) : Bool :=
  rangeValid type.range v && lengthValid type.length v && patternValid type.pattern v &&
    enumValid type v

/-- `value_parser`. -/
def ArgumentType.parse (type : ArgumentType) (protocol : Protocol) (s : Option Str) :
    Except ParseError Value := do
  let v ← type.primitive.parse protocol s
  if type.accepts v then return v else throw .outOfRange

/-! ## Numbers come back -/

theorem digit_byte : ∀ d < 10, digitValue (48 + UInt8.ofNat d) = d ∧
    48 + UInt8.ofNat d ≠ 45 ∧ 48 + UInt8.ofNat d ≠ 43 ∧ (48 + UInt8.ofNat d = 48 → d = 0) := by
  decide

theorem decimal_eq (n : Nat) : ∃ ds : List Nat, decimal n = ds.map (48 + UInt8.ofNat ·) ∧
    (∀ d ∈ ds, d < 10) ∧ Nat.ofDigits 10 ds.reverse = n ∧
    ∃ d rest, ds = d :: rest ∧ (d = 0 → n = 0 ∧ rest = []) := by
  unfold decimal
  split_ifs with hn
  · exact ⟨[0], by simp, by simp, by simp [hn], 0, [], rfl, by simp [hn]⟩
  · have hdigits : Nat.digits 10 n ≠ [] := Nat.digits_ne_nil_iff_ne_zero.mpr hn
    obtain ⟨d, rest, hds⟩ := exists_cons_of_ne_nil (reverse_ne_nil_iff.mpr hdigits)
    have hfirst : d ≠ 0 := by
      have hlast : (Nat.digits 10 n).reverse.head (by simp [hds]) ≠ 0 := by
        rw [head_reverse]
        exact Nat.getLast_digit_ne_zero 10 hn
      simpa [hds] using hlast
    refine ⟨(Nat.digits 10 n).reverse, rfl, ?_, ?_, d, rest, hds, fun hd => absurd hd hfirst⟩
    · intro d hd
      exact Nat.digits_lt_base (by norm_num) (mem_reverse.mp hd)
    · rw [reverse_reverse, Nat.ofDigits_digits]

theorem digit_char (c : UInt8) : digitValue (toLower c) = digitValue c ∧
    (digitValue c < 16 → isSpace (toLower c) = false ∧ toLower c ≠ 45 ∧ toLower c ≠ 43) := by
  have hall : ∀ n < 256, digitValue (toLower (.ofNat n)) = digitValue (.ofNat n) ∧
      (digitValue (.ofNat n) < 16 → isSpace (toLower (.ofNat n)) = false ∧
        toLower (.ofNat n) ≠ 45 ∧ toLower (.ofNat n) ≠ 43) := by decide +kernel
  simpa using hall c.toNat c.toNat_lt

theorem strtoull_digits {s : Str} {base : Nat} (hne : s ≠ []) (hbase : base ≤ 16)
    (hs : ∀ c ∈ s, digitValue c < base) :
    strtoull (s.map toLower) base =
      Nat.min (Nat.ofDigits base (s.map digitValue).reverse) (2 ^ 64 - 1) := by
  obtain ⟨c, rest, rfl⟩ := exists_cons_of_ne_nil hne
  obtain ⟨hspace, hminus, hplus⟩ := (digit_char c).2 ((hs c mem_cons_self).trans_le hbase)
  have hvalues : ((c :: rest).map toLower).map digitValue = (c :: rest).map digitValue := by
    rw [map_map]
    exact map_congr_left fun c _ => (digit_char c).1
  have hskip : skipPrefix base ((c :: rest).map toLower) = (c :: rest).map toLower := by
    unfold skipPrefix
    split
    · next x d s heq =>
      -- an `x` is no digit
      refine (if_neg fun h => ?_).trans heq.symm
      have hx : digitValue x ∈ (c :: rest).map digitValue := by
        rw [← hvalues, heq]
        simp
      obtain ⟨e, he, hx⟩ := mem_map.mp hx
      have hlt := hs e he
      rcases h.2.1 with rfl | rfl
      · exact absurd (hx ▸ hlt.trans_le hbase) (by decide)
      · exact absurd (hx ▸ hlt.trans_le hbase) (by decide)
    · rfl
  have hmagnitude : magnitude base ((c :: rest).map toLower) =
      Nat.ofDigits base ((c :: rest).map digitValue).reverse := by
    rw [magnitude, hvalues, takeWhile_eq_self_iff.mpr (by simpa using hs)]
  unfold strtoull
  rw [map_cons, dropWhile_cons_of_neg (by simp [hspace])]
  split
  · next h => exact absurd (List.cons.inj h).1 hminus
  · next h => exact absurd (List.cons.inj h).1 hplus
  · rw [← map_cons, hskip, hmagnitude]

theorem unsigned_decimal {n : Nat} (hn : n < 2 ^ 64) : unsigned (decimal n) = .ok n := by
  obtain ⟨ds, heq, hds, hvalue, d, rest, rfl, hzero⟩ := decimal_eq n
  obtain ⟨-, -, -, hfirst⟩ := digit_byte d (hds d mem_cons_self)
  have hvalues : ((d :: rest).map (48 + UInt8.ofNat ·)).map digitValue = d :: rest := by
    rw [map_map]
    conv_rhs => rw [← List.map_id (d :: rest)]
    exact map_congr_left fun e he => (digit_byte e (hds e he)).1
  unfold unsigned
  rw [heq]
  by_cases hd : d = 0
  · obtain ⟨rfl, rfl⟩ := hzero hd
    subst hd
    decide
  · have hbase : baseOf ((d :: rest).map (48 + UInt8.ofNat ·)) =
        (10, (d :: rest).map (48 + UInt8.ofNat ·)) := by
      unfold baseOf
      split
      · next h => exact absurd (hfirst (List.cons.inj h).1) hd
      · next h => exact absurd (hfirst (List.cons.inj h).1) hd
      · rfl
    have hread : strtoull (((d :: rest).map (48 + UInt8.ofNat ·)).map toLower) 10 = n := by
      rw [strtoull_digits (by simp) (by norm_num), hvalues, hvalue]
      · exact Nat.min_eq_left (by omega)
      · intro c hc
        obtain ⟨e, he, rfl⟩ := mem_map.mp hc
        exact (digit_byte e (hds e he)).1.trans_lt (hds e he)
    simp only [hbase, hread]
    rw [if_neg (by simp)]

/-- What a type makes of some string. A negative number is no error where the type is `uint64`. -/
def IntegerType.Fits (type : IntegerType) (n : Int) : Prop :=
  (type.min ≤ n ∨ type = .uint64 ∧ -2 ^ 63 ≤ n) ∧ n ≤ type.max

theorem IntegerType.range (type : IntegerType) :
    -2 ^ 63 ≤ type.min ∧ type.min ≤ 0 ∧ 0 ≤ type.max ∧ type.max < 2 ^ 64 ∧
      type.max - type.min + 1 = 2 ^ type.bits := by
  cases type <;> decide

variable {type : IntegerType} {n : Int}

theorem tointeger_fits {s : Str} (h : tointeger type s = .ok n) : type.Fits n := by
  obtain ⟨-, hmin, hmax, -, -⟩ := type.range
  have hpositive {s : Str} (h : (do
      let res ← unsigned s
      if type.max < res then throw ParseError.invalidValue
      else return (res : Int)) = .ok n) :
      type.Fits n := by
    obtain ⟨res, -, h⟩ := bind_eq_ok h
    split_ifs at h with hle
    cases h
    exact ⟨.inl (by omega), not_lt.mp hle⟩
  unfold tointeger at h
  split at h
  · obtain ⟨res, hres, h⟩ := bind_eq_ok h
    have hlow := Int.le_bmod (x := -res) (m := 2 ^ 64) (by norm_num)
    split_ifs at h with hpos htype
    cases h
    rw [not_and_or, not_not, not_lt] at htype
    refine ⟨?_, (not_lt.mp hpos).trans hmax⟩
    rcases htype with htype | htype
    · exact .inr ⟨htype, hlow⟩
    · exact .inl htype
  · exact hpositive h
  · exact hpositive h

/-- **A number is brought back by its digits.** -/
theorem tointeger_integerString (h : type.Fits n) : tointeger type (integerString n) = .ok n := by
  obtain ⟨hlow, hmin, hmax, hhigh, -⟩ := type.range
  obtain ⟨hge, hle⟩ := h
  have hsize : n.natAbs < 2 ^ 64 := by omega
  unfold integerString
  split_ifs with hneg
  · have hnegated : negated n.natAbs = n := by
      rw [negated, show -n.natAbs = n by omega]
      exact Int.bmod_eq_of_le (by omega) (by omega)
    have htype : ¬ (type ≠ .uint64 ∧ n < type.min) := by
      rintro ⟨htype, hlt⟩
      rcases hge with hge | hge
      · omega
      · exact htype hge.1
    simp only [tointeger, unsigned_decimal hsize, bind, Except.bind, hnegated, if_neg htype,
      if_neg (show ¬ 0 < n by omega)]
    rfl
  · obtain ⟨ds, heq, hds, -, d, rest, rfl, -⟩ := decimal_eq n.natAbs
    obtain ⟨-, hminus, hplus, -⟩ := digit_byte d (hds d mem_cons_self)
    have hsome := unsigned_decimal hsize
    rw [heq] at hsome ⊢
    unfold tointeger
    split
    · next h => exact absurd (List.cons.inj h).1 hminus
    · next h => exact absurd (List.cons.inj h).1 hplus
    · rw [hsome]
      have habs : n.natAbs = n := Int.natAbs_of_nonneg (by omega)
      simp only [habs, bind, Except.bind, if_neg (not_lt.mpr hle)]
      rfl

theorem IntegerType.wrap_fits : type.Fits (type.wrap n) := by
  obtain ⟨-, -, -, -, hbits⟩ := type.range
  have hpos : (0 : Int) < 2 ^ type.bits := by positivity
  unfold IntegerType.wrap
  exact ⟨.inl (by omega), by omega⟩

theorem IntegerType.wrap_wrap : type.wrap (type.wrap n) = type.wrap n := by
  unfold IntegerType.wrap
  rw [add_sub_cancel_left, Int.emod_emod_of_dvd _ dvd_rfl]

/-! ## Values come back -/

/-- What a type makes of some argument. -/
def Primitive.Fits (protocol : Protocol) : Primitive → Value → Prop
  | .integer type, .integer n => type.Fits n
  | .boolean, .boolean _ => True
  | .string, .string _ => True
  | .enumeration, .string _ => True
  | .empty, v => v = .boolean true
  | .address family, .address a => ∃ s, protocol.pton family s = some a
  | _, _ => False

variable {protocol : Protocol} {primitive : Primitive} {v : Value} {s : Option Str}

theorem Primitive.parse_fits (h : primitive.parse protocol s = .ok v) :
    primitive.Fits protocol v := by
  unfold Primitive.parse at h
  split at h
  · exact (ok.inj h).symm
  · cases h
  · obtain ⟨n, hn, rfl⟩ := map_eq_ok h
    exact tointeger_fits hn
  · split_ifs at h <;> obtain rfl := ok.inj h <;> trivial
  · cases h
    trivial
  · cases h
    trivial
  · split at h
    · next a ha =>
      cases h
      exact ⟨_, ha⟩
    · cases h
  · cases h

theorem Primitive.store_fits (h : primitive.Fits protocol v) :
    primitive.Fits protocol (primitive.store v) := by
  unfold Primitive.store
  split
  · exact IntegerType.wrap_fits
  · exact h

theorem Primitive.store_store : primitive.store (primitive.store v) = primitive.store v := by
  cases primitive <;> cases v <;> simp [Primitive.store, IntegerType.wrap_wrap]

theorem Primitive.exists_tostring (h : primitive.Fits protocol v) :
    ∃ s, primitive.tostring protocol v = some s := by
  unfold Primitive.Fits at h
  split at h <;> first | exact ⟨_, rfl⟩ | exact h.elim

/-- **What is printed for a value is read as the value.** -/
theorem Primitive.parse_tostring (hinverse : protocol.Inverse) (hne : primitive ≠ .empty)
    (h : primitive.Fits protocol v) :
    ∃ s, primitive.tostring protocol v = some s ∧ primitive.parse protocol (some s) = .ok v := by
  unfold Primitive.Fits at h
  split at h
  · exact ⟨_, rfl, by simp [Primitive.parse, tointeger_integerString h, Functor.map, Except.map]⟩
  · next b =>
    cases b
    · exact ⟨_, rfl, rfl⟩
    · exact ⟨_, rfl, rfl⟩
  · exact ⟨_, rfl, rfl⟩
  · exact ⟨_, rfl, rfl⟩
  · exact absurd rfl hne
  · obtain ⟨s, hs⟩ := h
    exact ⟨_, rfl, by simp [Primitive.parse, hinverse _ _ _ hs]⟩
  · exact h.elim

variable {type : ArgumentType}

theorem ArgumentType.parse_eq_ok :
    type.parse protocol s = .ok v ↔
      type.primitive.parse protocol s = .ok v ∧ type.accepts v = true := by
  unfold ArgumentType.parse
  constructor
  · intro h
    obtain ⟨w, hw, h⟩ := bind_eq_ok h
    split_ifs at h with haccepts
    cases h
    exact ⟨hw, haccepts⟩
  · rintro ⟨h, haccepts⟩
    rw [h]
    simp only [bind, Except.bind, haccepts]
    rfl

/-- A value that was printed is read again if and only if it passes the validators. -/
theorem ArgumentType.parse_tostring {s : Str} (hinverse : protocol.Inverse)
    (h : type.primitive.Fits protocol v) (hs : type.primitive.tostring protocol v = some s) :
    type.parse protocol (some s) = .ok v ↔
      type.primitive ≠ .empty ∧ type.accepts v = true := by
  rw [ArgumentType.parse_eq_ok]
  refine and_congr_left fun _ => ⟨fun hparse hempty => ?_, fun hne => ?_⟩
  · rw [hempty] at hparse
    cases hparse
  · obtain ⟨s', hs', hparse⟩ := Primitive.parse_tostring hinverse hne h
    obtain rfl := Option.mem_unique hs hs'
    exact hparse

end Yang

end Snabb
