import Snabb.Foundation.LuaPattern
import Snabb.Foundation.Numeral

/-!
# IPv4 addresses as text (`lib/lpm/ip4.lua`)

The pattern of `parse` has a `.` between the numbers, which in a Lua pattern is any character. So
`parse` reads more than dotted quads: of all ways to read a string as four numbers with a character
between, it takes the one with the longest numbers, and a digit may be a separator too.

- `parse_eq_some`: what `parse` reads;
- `parse_quads_iff`: the strings of which `parse` reads the dotted quads only.
-/

namespace Snabb.Ip4

open Foundation LuaPattern List

abbrev Str := List UInt8

/-- `.`, in a pattern. -/
def anything : Item UInt8 := .one fun _ => true

/-- `(%d+)`. -/
def number : Piece UInt8 := ⟨[.plus isDigit], true⟩

/-- `"^(%d+).(%d+).(%d+).(%d+)$"`. -/
def quadPattern : List (Piece UInt8) :=
  [number, ⟨[anything], false⟩, number, ⟨[anything], false⟩, number, ⟨[anything], false⟩, number]

/-- The number that four bytes stand for. -/
def combine (a b c d : Nat) : Nat := a * 2 ^ 24 + b * 2 ^ 16 + c * 2 ^ 8 + d

/-- `IP4.parse`. -/
def parse (str : Str) : Option Nat :=
  match luaMatch quadPattern str with
  | some [a, b, c, d] =>
    if value 10 a ≤ 255 ∧ value 10 b ≤ 255 ∧ value 10 c ≤ 255 ∧ value 10 d ≤ 255 then
      some (combine (value 10 a) (value 10 b) (value 10 c) (value 10 d) % 2 ^ 32)
    else none
  | _ => none

/-- `IP4.tostring`. -/
def tostring (ip : BitVec 32) : Str :=
  numeral 10 ((ip >>> 24 &&& 255).toNat) ++ 46 :: numeral 10 ((ip >>> 16 &&& 255).toNat) ++
    46 :: numeral 10 ((ip >>> 8 &&& 255).toNat) ++ 46 :: numeral 10 ((ip &&& 255).toNat)

/-! ## Readings -/

/-- A string of digits. -/
def Digits (s : Str) : Prop := s ≠ [] ∧ ∀ c ∈ s, isDigit c

/-- Four numbers and the characters between them. -/
structure Reading where
  a : Str
  x : UInt8
  b : Str
  y : UInt8
  c : Str
  z : UInt8
  d : Str

namespace Reading

def text (r : Reading) : Str := r.a ++ r.x :: r.b ++ r.y :: r.c ++ r.z :: r.d

/-- A way to read a string. -/
structure Of (r : Reading) (s : Str) : Prop where
  a : Digits r.a
  b : Digits r.b
  c : Digits r.c
  d : Digits r.d
  text : r.text = s

/-- The lengths of the first three numbers. -/
def lengths (r : Reading) : List Nat := [r.a.length, r.b.length, r.c.length]

/-- The way to read a string that has the longest first number, then the longest second one, then
the longest third one. -/
def LongestOf (r : Reading) (s : Str) : Prop := r.Of s ∧ ∀ r', Of r' s → AtMost r'.lengths r.lengths

/-- All numbers are bytes. -/
def Bytes (r : Reading) : Prop :=
  value 10 r.a ≤ 255 ∧ value 10 r.b ≤ 255 ∧ value 10 r.c ≤ 255 ∧ value 10 r.d ≤ 255

instance (r : Reading) : Decidable r.Bytes := inferInstanceAs (Decidable (_ ∧ _))

def ip (r : Reading) : Nat := combine (value 10 r.a) (value 10 r.b) (value 10 r.c) (value 10 r.d)

/-- All separators are dots. -/
def Dotted (r : Reading) : Prop := r.x = 46 ∧ r.y = 46 ∧ r.z = 46

def parts (r : Reading) : List Str := [r.a, [r.x], r.b, [r.y], r.c, [r.z], r.d]

end Reading

variable {s : Str} {r r' : Reading} {part : Str}

theorem takes_plus : (Item.plus isDigit).Takes part ↔ Digits part := by
  constructor
  · rintro ⟨hleast, -, hall⟩
    exact ⟨ne_nil_of_length_pos hleast, hall⟩
  · rintro ⟨hne, hall⟩
    exact ⟨length_pos_of_ne_nil hne, nofun, hall⟩

theorem takes_anything : anything.Takes part ↔ ∃ x, part = [x] := by
  constructor
  · rintro ⟨hleast, hmost, -⟩
    exact length_eq_one_iff.mp (Nat.le_antisymm (hmost 1 rfl) hleast)
  · rintro ⟨x, rfl⟩
    exact ⟨le_rfl, fun m hm => (Option.some.inj hm).le, fun _ _ => rfl⟩

theorem parts_iff {parts : List Str} : Parts quadPattern parts ∧ parts.flatten = s ↔
    ∃ r : Reading, r.Of s ∧ r.parts = parts := by
  constructor
  · rintro ⟨hparts, rfl⟩
    simp only [Parts, quadPattern, number, flatMap_cons, flatMap_nil, cons_append, nil_append,
      forall₂_cons_left_iff, forall₂_nil_left_iff, takes_plus, takes_anything] at hparts
    obtain ⟨a, -, ha, ⟨-, -, ⟨x, rfl⟩, ⟨b, -, hb, ⟨-, -, ⟨y, rfl⟩, ⟨c, -, hc, ⟨-, -, ⟨z, rfl⟩,
      ⟨d, -, hd, rfl, rfl⟩, rfl⟩, rfl⟩, rfl⟩, rfl⟩, rfl⟩, rfl⟩ := hparts
    exact ⟨⟨a, x, b, y, c, z, d⟩, ⟨ha, hb, hc, hd, by simp [Reading.text]⟩, rfl⟩
  · rintro ⟨r, hr, rfl⟩
    constructor
    · simp only [Parts, quadPattern, number, flatMap_cons, flatMap_nil, cons_append, nil_append,
        Reading.parts, forall₂_cons, forall₂_nil_left_iff, takes_plus, takes_anything]
      exact ⟨hr.a, ⟨_, rfl⟩, hr.b, ⟨_, rfl⟩, hr.c, ⟨_, rfl⟩, hr.d, trivial⟩
    · rw [← hr.text]
      simp [Reading.parts, Reading.text]

/-- The lengths of the first three numbers are as good as those of all parts. -/
theorem lengths_le_iff (h : r'.text.length = r.text.length) :
    AtMost (r'.parts.map List.length) (r.parts.map List.length) ↔
      AtMost r'.lengths r.lengths := by
  simp only [Reading.text, List.length_append, length_cons] at h
  simp only [Reading.parts, Reading.lengths, map_cons, map_nil, length_singleton, AtMost, true_and,
    and_true]
  omega

/-- **What `parse` reads**. -/
theorem parse_eq_some {v : Nat} :
    parse s = some v ↔ ∃ r : Reading, r.LongestOf s ∧ r.Bytes ∧ v = r.ip := by
  have hmatch found : luaMatch quadPattern s = some found ↔
      ∃ r : Reading, r.LongestOf s ∧ found = [r.a, r.b, r.c, r.d] := by
    rw [luaMatch_eq_some]
    constructor
    · rintro ⟨parts, hparts, hflat, hmax, rfl⟩
      obtain ⟨r, hr, rfl⟩ := parts_iff.mp ⟨hparts, hflat⟩
      refine ⟨r, ⟨hr, fun r' hr' => ?_⟩, by simp [capturedParts, quadPattern, number, Reading.parts]⟩
      obtain ⟨hparts', hflat'⟩ := parts_iff.mpr ⟨r', hr', rfl⟩
      exact (lengths_le_iff (by rw [hr.text, hr'.text])).mp (hmax _ hparts' hflat')
    · rintro ⟨r, ⟨hr, hmax⟩, rfl⟩
      obtain ⟨hparts, hflat⟩ := parts_iff.mpr ⟨r, hr, rfl⟩
      refine ⟨r.parts, hparts, hflat, fun other hother hflat' => ?_,
        by simp [capturedParts, quadPattern, number, Reading.parts]⟩
      obtain ⟨r', hr', rfl⟩ := parts_iff.mp ⟨hother, hflat'⟩
      exact (lengths_le_iff (by rw [hr.text, hr'.text])).mpr (hmax r' hr')
  have hip (r : Reading) (hbytes : r.Bytes) : r.ip % 2 ^ 32 = r.ip := by
    obtain ⟨ha, hb, hc, hd⟩ := hbytes
    refine Nat.mod_eq_of_lt ?_
    rw [Reading.ip, combine]
    omega
  constructor
  · intro h
    cases hfound : luaMatch quadPattern s with
    | none =>
      rw [parse, hfound] at h
      cases h
    | some found =>
      obtain ⟨r, hr, rfl⟩ := (hmatch found).mp hfound
      rw [parse, hfound] at h
      simp only at h
      split at h
      · next hbytes => exact ⟨r, hr, hbytes, ((hip r hbytes).symm.trans (Option.some.inj h)).symm⟩
      · cases h
  · rintro ⟨r, hr, hbytes, rfl⟩
    rw [parse, (hmatch _).mpr ⟨r, hr, rfl⟩]
    show (if r.Bytes then some (r.ip % 2 ^ 32) else none) = _
    rw [if_pos hbytes, hip r hbytes]

/-! ## Dotted quads -/

theorem digits_append_inj {a a' t t' : Str} {x x' : UInt8} (ha : ∀ c ∈ a, isDigit c)
    (ha' : ∀ c ∈ a', isDigit c) (hx : isDigit x = false) (hx' : isDigit x' = false)
    (h : a ++ x :: t = a' ++ x' :: t') : a = a' ∧ x = x' ∧ t = t' := by
  induction a generalizing a' with
  | nil =>
    cases a' with
    | nil => exact ⟨rfl, List.cons.inj h⟩
    | cons c a' =>
      cases h
      rw [ha' x mem_cons_self] at hx
      cases hx
  | cons c a ih =>
    cases a' with
    | nil =>
      obtain ⟨rfl, -⟩ := List.cons.inj h
      rw [ha c mem_cons_self] at hx'
      cases hx'
    | cons c' a' =>
      obtain ⟨rfl, htail⟩ := List.cons.inj h
      obtain ⟨rfl, hrest⟩ := ih (fun d hd => ha d (mem_cons_of_mem c hd))
        (fun d hd => ha' d (mem_cons_of_mem c hd)) htail
      exact ⟨rfl, hrest⟩

/-- How many characters are no digits. -/
def others (s : Str) : Nat := s.countP fun c => !isDigit c

theorem others_digits {a : Str} (ha : Digits a) : others a = 0 :=
  countP_eq_zero.mpr fun c hc => by simp [ha.2 c hc]

theorem Reading.Of.others (h : r.Of s) :
    others s = (if isDigit r.x then 0 else 1) + (if isDigit r.y then 0 else 1) +
      if isDigit r.z then 0 else 1 := by
  have hdigits {a : Str} ha : a.countP (fun c => !isDigit c) = 0 := others_digits ha
  rw [← h.text]
  simp only [Ip4.others, Reading.text, countP_append, countP_cons, hdigits h.a,
    hdigits h.b, hdigits h.c, hdigits h.d]
  cases isDigit r.x <;> cases isDigit r.y <;> cases isDigit r.z <;> rfl

/-- **A dotted quad** is read in one way. -/
theorem Reading.Of.eq_of_dotted (h : r.Of s) (hdotted : r.Dotted) (h' : r'.Of s) : r' = r := by
  have hdot : isDigit 46 = false := by decide
  obtain ⟨hx, hy, hz⟩ := hdotted
  have hcount := h.others
  rw [h'.others, hx, hy, hz, hdot] at hcount
  -- no separator is a digit, as there are three other characters
  have hseparators : isDigit r'.x = false ∧ isDigit r'.y = false ∧ isDigit r'.z = false := by
    revert hcount
    cases isDigit r'.x <;> cases isDigit r'.y <;> cases isDigit r'.z <;> simp
  obtain ⟨hx', hy', hz'⟩ := hseparators
  have htext := h'.text.trans h.text.symm
  simp only [Reading.text, append_assoc] at htext
  obtain ⟨hae, hxe, htext⟩ := digits_append_inj h'.a.2 h.a.2 hx' (hx ▸ hdot) htext
  obtain ⟨hbe, hye, htext⟩ := digits_append_inj h'.b.2 h.b.2 hy' (hy ▸ hdot) htext
  obtain ⟨hce, hze, hde⟩ := digits_append_inj h'.c.2 h.c.2 hz' (hz ▸ hdot) htext
  cases r
  cases r'
  simp_all

theorem Reading.Of.longest (h : r.Of s) (hdotted : r.Dotted) : r.LongestOf s :=
  ⟨h, fun r' hr' => by
    rw [h.eq_of_dotted hdotted hr']
    exact AtMost.refl _⟩

/-- `parse` reads a string if it is a dotted quad, and as the number that its bytes stand for. -/
def ReadsQuads (s : Str) : Prop :=
  ∀ v, parse s = some v ↔ ∃ r : Reading, r.Of s ∧ r.Dotted ∧ r.Bytes ∧ v = r.ip

theorem readsQuads_iff : ReadsQuads s ↔ ∀ r : Reading, r.LongestOf s → r.Bytes → r.Dotted := by
  constructor
  · intro hreads r hr hbytes
    obtain ⟨q, hq, hdotted, -, -⟩ := (hreads r.ip).mp (parse_eq_some.mpr ⟨r, hr, hbytes, rfl⟩)
    rwa [hq.eq_of_dotted hdotted hr.1]
  · intro hdotted v
    rw [parse_eq_some]
    constructor
    · rintro ⟨r, hr, hbytes, hv⟩
      exact ⟨r, hr.1, hdotted r hr hbytes, hbytes, hv⟩
    · rintro ⟨r, hr, hdots, hbytes, hv⟩
      exact ⟨r, hr.longest hdots, hbytes, hv⟩

/-- Addresses are read as they are written. -/
theorem parse_tostring (ip : BitVec 32) : parse (tostring ip) = some ip.toNat := by
  have hnumeral n : Digits (numeral 10 n) :=
    ⟨numeral_ne_nil (by decide) n, fun c => isDigit_of_mem_numeral⟩
  have hvalue n : value 10 (numeral 10 n) = n := value_numeral (by decide) (by decide) n
  have hbyte (n : BitVec 32) : (n &&& 255).toNat = n.toNat % 256 := by
    exact Nat.and_two_pow_sub_one_eq_mod n.toNat 8
  have hof : Reading.Of ⟨numeral 10 ((ip >>> 24 &&& 255).toNat), 46,
      numeral 10 ((ip >>> 16 &&& 255).toNat), 46, numeral 10 ((ip >>> 8 &&& 255).toNat), 46,
      numeral 10 ((ip &&& 255).toNat)⟩ (tostring ip) :=
    ⟨hnumeral _, hnumeral _, hnumeral _, hnumeral _, rfl⟩
  refine parse_eq_some.mpr ⟨_, hof.longest ⟨rfl, rfl, rfl⟩, ?_, ?_⟩
  · simp only [Reading.Bytes, hvalue, hbyte]
    omega
  · simp only [Reading.ip, combine, hvalue, hbyte, BitVec.toNat_ushiftRight]
    omega

/-- **The strings of which `parse` reads the dotted quads only**: those for which the way to read
them with the longest numbers has dots, if all its numbers are bytes. -/
theorem parse_quads_iff (s : Str) (ip : BitVec 32) :
    (ReadsQuads s ↔ ∀ r : Reading, r.LongestOf s → r.Bytes → r.Dotted) ∧
      parse (tostring ip) = some ip.toNat :=
  ⟨readsQuads_iff, parse_tostring ip⟩

/-- Digits are separators as well. -/
theorem parse_seven_digits : ¬ ∀ s, ReadsQuads s := by
  intro hall
  have hseven : parse [49, 50, 51, 52, 53, 54, 55] = some (combine 1 3 5 7) := by decide +kernel
  obtain ⟨r, hr, hdotted, -, -⟩ := (hall _ _).mp hseven
  have hcount := hr.others
  rw [hdotted.1, hdotted.2.1, hdotted.2.2] at hcount
  exact absurd hcount (by decide)

end Snabb.Ip4
