import Mathlib.Algebra.Order.BigOperators.Group.List
import Mathlib.Tactic.Ring
import Snabb.Foundation.EndAround

/-!
# Internet checksums (`core/lib.lua`, `lib/checksum.c`)

There are two programs for one checksum: `csum` of `core.lib`, and `cksum_generic` in C, which adds
the words as the host stores them and turns the bytes of the result around.

- `rfc1071`: the checksum that both are for;
- `cksumGeneric_eq`: the one in C computes it;
- `csum_eq_iff`: when the one in Lua does. It shifts a last odd byte by one bit and not by eight,
  and its loop cuts off the carry of its own addition.
-/

namespace Snabb

open Foundation List
open BitVec (ofNat toNat_ofNat)

namespace Checksum

/-! ## The checksum -/

/-- The words of a string of bytes, high byte first; a last odd byte is padded with zero. -/
def words : List UInt8 → List Nat
  | a :: b :: rest => (a.toNat * 256 + b.toNat) :: words rest
  | [a] => [a.toNat * 256]
  | [] => []

/-- The complement of the sum of the words, with end-around carry. -/
def rfc1071 (bytes : List UInt8) : BitVec 16 :=
  ~~~ofNat 16 ((words bytes).foldl (onesAdd 65535) 0)

/-! ## `core.lib` -/

/-- `update_csum`, with `csum0`. -/
def updateCsum : List UInt8 → Nat → Nat
  | a :: b :: rest, sum => updateCsum rest (sum + a.toNat <<< 8 + b.toNat)
  -- by one bit, not by 8
  | [a], sum => sum + a.toNat <<< 1
  | [], sum => sum

theorem and_ffff (n : Nat) : n &&& 0xffff = n % 65536 := Nat.and_two_pow_sub_one_eq_mod n 16

/-- The loop of `finish_csum`. -/
def foldCsum (sum : Nat) : Nat :=
  -- the mask cuts off the carry of this addition
  if sum &&& 0xffff ≠ sum then foldCsum ((sum + sum >>> 16) &&& 0xffff) else sum
termination_by sum
decreasing_by
  rw [and_ffff] at *
  omega

/-- `finish_csum`. -/
def finishCsum (sum : Nat) : BitVec 16 := ~~~ofNat 16 (foldCsum sum)

/-- `csum`. -/
def csum (bytes : List UInt8) : BitVec 16 := finishCsum (updateCsum bytes 0)

/-! ## `lib/checksum.c` -/

/-- A word as the host reads it, low byte first. -/
def u16 (a b : UInt8) : Nat := a.toNat + 256 * b.toNat

/-- `ntohs` and `htons`. -/
def ntohs (n : BitVec 16) : BitVec 16 := ofNat 16 (n.toNat % 256 * 256 + n.toNat / 256)

/-- The loop over four words at a time. -/
def sumFour : List UInt8 → Nat → Nat × List UInt8
  | a₀ :: a₁ :: b₀ :: b₁ :: c₀ :: c₁ :: d₀ :: d₁ :: rest, sum =>
    sumFour rest ((sum + u16 a₀ a₁ + u16 b₀ b₁ + u16 c₀ c₁ + u16 d₀ d₁) % 2 ^ 32)
  | rest, sum => (sum, rest)

/-- The loop over single words, and the last odd byte. -/
def sumWords : List UInt8 → Nat → Nat
  | a :: b :: rest, sum => sumWords rest ((sum + u16 a b) % 2 ^ 32)
  | [a], sum => (sum + a.toNat) % 2 ^ 32
  | [], sum => sum

/-- `while (sum >> 16)`. -/
def foldGeneric (sum : Nat) : Nat :=
  if sum >>> 16 ≠ 0 then foldGeneric ((sum &&& 0xffff) + sum >>> 16) else sum
termination_by sum
decreasing_by
  rw [and_ffff]
  omega

/-- `cksum_generic`. -/
def cksumGeneric (bytes : List UInt8) (initial : BitVec 16) : BitVec 16 :=
  let (sum, rest) := sumFour bytes (ntohs initial).toNat
  ntohs (~~~ofNat 16 (foldGeneric (sumWords rest sum)))

/-! ## What the words are worth -/

variable {bytes : List UInt8}

theorem words_le : ∀ {w : Nat}, w ∈ words bytes → w ≤ 65535 := by
  induction bytes using words.induct with
  | case1 a b rest ih =>
    intro w hw
    have ha := a.toNat_lt
    have hb := b.toNat_lt
    rcases mem_cons.mp hw with rfl | hw
    · omega
    · exact ih hw
  | case2 a =>
    intro w hw
    have ha := a.toNat_lt
    obtain rfl := mem_singleton.mp hw
    omega
  | case3 => exact nofun

theorem length_words (bytes : List UInt8) : 2 * (words bytes).length ≤ bytes.length + 1 := by
  induction bytes using words.induct with
  | case1 a b rest ih =>
    simp only [words, length_cons]
    omega
  | case2 a => exact le_rfl
  | case3 => exact Nat.zero_le _

theorem sum_words_le (bytes : List UInt8) : (words bytes).sum ≤ 65535 * (words bytes).length := by
  have hle : (words bytes).sum ≤ (words bytes).length * 65535 :=
    sum_le_card_nsmul (words bytes) 65535 fun w => words_le
  rwa [Nat.mul_comm] at hle

/-- **The checksum is the complement of the sum of the words**, whose carries go around. -/
theorem rfc1071_eq : rfc1071 bytes = ~~~ofNat 16 (endAround 65535 (words bytes).sum) := by
  rw [rfc1071, foldl_onesAdd (by decide) fun w => words_le]

theorem not_ofNat_inj {m n : Nat} (hm : m ≤ 65535) (hn : n ≤ 65535) :
    ~~~ofNat 16 m = ~~~ofNat 16 n ↔ m = n := by
  rw [BitVec.not_inj, ← BitVec.toNat_inj, toNat_ofNat, toNat_ofNat,
    Nat.mod_eq_of_lt (by omega), Nat.mod_eq_of_lt (by omega)]

/-! ## The checksum in C -/

/-- The sum of the words as the host reads them. -/
def hostSum : List UInt8 → Nat
  | a :: b :: rest => u16 a b + hostSum rest
  | [a] => a.toNat
  | [] => 0

theorem sumFour_modEq (bytes : List UInt8) (sum : Nat) :
    (sumFour bytes sum).1 + hostSum (sumFour bytes sum).2 ≡ sum + hostSum bytes [MOD 2 ^ 32] := by
  fun_induction sumFour bytes sum with
  | case1 a₀ a₁ b₀ b₁ c₀ c₁ d₀ d₁ rest sum ih =>
    refine ih.trans ?_
    refine ((Nat.mod_modEq _ _).add_right _).trans ?_
    simp only [hostSum]
    exact congrArg (· % 2 ^ 32) (by ring)
  | case2 => rfl

theorem sumWords_modEq (bytes : List UInt8) (sum : Nat) :
    sumWords bytes sum ≡ sum + hostSum bytes [MOD 2 ^ 32] := by
  fun_induction sumWords bytes sum with
  | case1 a b rest sum ih =>
    refine ih.trans (((Nat.mod_modEq _ _).add_right _).trans ?_)
    rw [hostSum, Nat.add_assoc]
  | case2 a sum => exact Nat.mod_modEq _ _
  | case3 sum => rfl

variable {sum : Nat}

theorem sumFour_lt (bytes : List UInt8) (h : sum < 2 ^ 32) : (sumFour bytes sum).1 < 2 ^ 32 := by
  fun_induction sumFour bytes sum with
  | case1 _ _ _ _ _ _ _ _ rest sum ih => exact ih (Nat.mod_lt _ (by decide))
  | case2 => exact h

theorem sumWords_lt (bytes : List UInt8) (h : sum < 2 ^ 32) : sumWords bytes sum < 2 ^ 32 := by
  fun_induction sumWords bytes sum with
  | case1 a b rest sum ih => exact ih (Nat.mod_lt _ (by decide))
  | case2 a sum => exact Nat.mod_lt _ (by decide)
  | case3 sum => exact h

/-- The loop carries around. -/
theorem foldGeneric_eq (sum : Nat) : foldGeneric sum = endAround 65535 sum := by
  fun_induction foldGeneric sum with
  | case1 sum h ih =>
    rw [ih, and_ffff, Nat.shiftRight_eq_div_pow]
    exact endAround_fold (by decide) sum
  | case2 sum h =>
    exact (endAround_of_le (by omega)).symm

/-- What the host reads is worth 256 times less. -/
theorem hostSum_modEq (bytes : List UInt8) :
    256 * hostSum bytes ≡ (words bytes).sum [MOD 65535] := by
  induction bytes using words.induct with
  | case1 a b rest ih =>
    rw [hostSum, Nat.mul_add]
    refine Nat.ModEq.add ?_ ih
    rw [u16, Nat.ModEq]
    omega
  | case2 a =>
    rw [hostSum, words, sum_singleton, Nat.mul_comm]
  | case3 => rfl

theorem hostSum_eq_zero_iff : hostSum bytes = 0 ↔ (words bytes).sum = 0 := by
  induction bytes using words.induct with
  | case1 a b rest ih =>
    rw [hostSum, words, sum_cons, u16]
    omega
  | case2 a =>
    rw [hostSum, words, sum_singleton]
    omega
  | case3 => exact Iff.rfl

theorem hostSum_le (bytes : List UInt8) : hostSum bytes ≤ 65535 * (words bytes).length := by
  induction bytes using words.induct with
  | case1 a b rest ih =>
    have ha := a.toNat_lt
    have hb := b.toNat_lt
    rw [hostSum, words, length_cons, u16]
    omega
  | case2 a =>
    have ha := a.toNat_lt
    rw [hostSum, words, length_singleton]
    omega
  | case3 => exact Nat.zero_le _

/-- Turning the bytes of a sum around turns those of its words around. -/
theorem endAround_swap {m n : Nat} (hzero : m = 0 ↔ n = 0) (hmod : 256 * m ≡ n [MOD 65535]) :
    endAround 65535 m % 256 * 256 + endAround 65535 m / 256 = endAround 65535 n := by
  have hle := endAround_le (n := m) (by decide : 0 < 65535)
  have hm := endAround_eq_zero_iff (m := 65535) (n := m)
  have hself : endAround 65535 m ≡ m [MOD 65535] := endAround_modEq
  refine eq_endAround (by omega) (by omega) (Nat.ModEq.trans ?_ ((hself.mul_left 256).trans hmod))
  rw [Nat.ModEq]
  omega

theorem ntohs_not {n : Nat} (h : n ≤ 65535) :
    ntohs (~~~ofNat 16 n) = ~~~ofNat 16 (n % 256 * 256 + n / 256) := by
  rw [← BitVec.toNat_inj, ntohs, toNat_ofNat, BitVec.toNat_not, BitVec.toNat_not,
    toNat_ofNat, toNat_ofNat, Nat.mod_eq_of_lt (by omega : n < 2 ^ 16)]
  have hlow : (2 ^ 16 - 1 - n) % 256 = 255 - n % 256 := by omega
  have hhigh : (2 ^ 16 - 1 - n) / 256 = 255 - n / 256 := by omega
  omega

/-- What the program in C computes when it goes on from `initial`. -/
theorem cksumGeneric_initial (h : bytes.length ≤ 131072) (initial : BitVec 16) :
    cksumGeneric bytes initial =
      ~~~ofNat 16 (endAround 65535 (initial.toNat + (words bytes).sum)) := by
  have hinit : (ntohs initial).toNat = initial.toNat % 256 * 256 + initial.toNat / 256 := by
    have hlt := initial.isLt
    rw [ntohs, toNat_ofNat]
    omega
  have hsum : sumWords (sumFour bytes (ntohs initial).toNat).2
      (sumFour bytes (ntohs initial).toNat).1 = (ntohs initial).toNat + hostSum bytes := by
    have hmod := (sumWords_modEq _ _).trans (sumFour_modEq bytes (ntohs initial).toNat)
    have hlt := sumWords_lt (sumFour bytes (ntohs initial).toNat).2
      (sumFour_lt bytes (by omega : (ntohs initial).toNat < 2 ^ 32))
    have hle := hostSum_le bytes
    have hcount := length_words bytes
    rwa [Nat.ModEq, Nat.mod_eq_of_lt hlt, Nat.mod_eq_of_lt (by omega)] at hmod
  show ntohs (~~~ofNat 16 (foldGeneric (sumWords _ _))) = _
  rw [hsum, foldGeneric_eq, ntohs_not (endAround_le (by decide)), endAround_swap]
  · have hzero : hostSum bytes = 0 ↔ _ := hostSum_eq_zero_iff
    omega
  · rw [Nat.mul_add]
    refine Nat.ModEq.add ?_ (hostSum_modEq bytes)
    rw [hinit, Nat.ModEq]
    omega

/-- **The checksum in C is the checksum**, as long as the sum of the words has no more than 32
bits. -/
theorem cksumGeneric_eq (h : bytes.length ≤ 131072) : cksumGeneric bytes 0 = rfc1071 bytes := by
  rw [cksumGeneric_initial h, rfc1071_eq, show (0 : BitVec 16).toNat = 0 from rfl, Nat.zero_add]

/-! ## Checksums in parts -/

theorem words_append {a : List UInt8} (ha : Even a.length) (b : List UInt8) :
    words (a ++ b) = words a ++ words b := by
  induction a using words.induct with
  | case1 x y rest ih =>
    have hrest : Even rest.length := by simpa [Nat.even_add_one] using ha
    rw [cons_append, cons_append, words, words, ih hrest, cons_append]
  | case2 x => simp at ha
  | case3 => rfl

theorem cksumGeneric_append {a b : List UInt8} (ha : Even a.length)
    (h : (a ++ b).length ≤ 131072) (initial : BitVec 16) :
    cksumGeneric b (~~~cksumGeneric a initial) = cksumGeneric (a ++ b) initial := by
  have hlen : (a ++ b).length = a.length + b.length := length_append
  rw [cksumGeneric_initial h, cksumGeneric_initial (by omega : b.length ≤ _),
    cksumGeneric_initial (by omega : a.length ≤ _), BitVec.not_not, toNat_ofNat,
    Nat.mod_eq_of_lt (Nat.lt_succ_of_le (endAround_le (by decide))), words_append ha, sum_append,
    ← Nat.add_assoc]
  congr 2
  refine endAround_congr (by decide) ?_ (endAround_modEq.add_right _)
  -- a sum that goes around is zero only if nothing was added
  rw [Nat.add_eq_zero_iff, Nat.add_eq_zero_iff, endAround_eq_zero_iff]

/-- **Checksums are computed in parts**: the one of a packet is that of its last block, going on
from the complement of the one of the blocks before, if these have even lengths. -/
theorem checksum_in_parts (blocks : List (List UInt8)) (last : List UInt8) (initial : BitVec 16)
    (heven : ∀ block ∈ blocks, Even block.length)
    (h : (blocks.flatten ++ last).length ≤ 131072) :
    cksumGeneric last (blocks.foldl (fun sum block => ~~~cksumGeneric block sum) initial) =
      cksumGeneric (blocks.flatten ++ last) initial := by
  induction blocks generalizing initial with
  | nil => rfl
  | cons block blocks ih =>
    obtain ⟨hblock, hblocks⟩ := forall_mem_cons.mp heven
    rw [flatten_cons, append_assoc] at h ⊢
    rw [foldl_cons, ih _ hblocks (le_trans (by simp) h), cksumGeneric_append hblock h]

/-- A header of UDP, and three bytes behind it. -/
theorem checksum_in_parts_udp : let header : List UInt8 := [0, 7, 0, 9, 0, 11, 0, 0]
    cksumGeneric [1, 2, 3] (~~~cksumGeneric header 0xffff) =
      cksumGeneric (header ++ [1, 2, 3]) 0xffff :=
  checksum_in_parts [[0, 7, 0, 9, 0, 11, 0, 0]] [1, 2, 3] 0xffff (by decide) (by decide)

/-! ## The checksum in Lua -/

/-- Where the sum ends in Lua: a last odd byte counts for 2, not for 256. -/
theorem updateCsum_eq (bytes : List UInt8) (sum : Nat) :
    updateCsum bytes sum + (if bytes.length % 2 = 1 then 254 * (bytes.getLastD 0).toNat else 0) =
      sum + (words bytes).sum := by
  fun_induction updateCsum bytes sum with
  | case1 a b rest sum ih =>
    have hlast : (a :: b :: rest).length % 2 = 1 →
        (a :: b :: rest).getLastD 0 = rest.getLastD 0 := by
      intro hodd
      cases rest with
      | nil => exact absurd hodd (by simp)
      | cons c rest => rfl
    rw [words, sum_cons]
    simp only [length_cons, Nat.add_assoc, Nat.add_mod_right] at ih hlast ⊢
    split_ifs at ih ⊢ with hodd
    · rw [hlast hodd]
      omega
    · omega
  | case2 a sum =>
    simp only [words]
    norm_num
    omega
  | case3 sum => simp [words]

/-- The loop runs once at most. -/
theorem foldCsum_eq (sum : Nat) :
    foldCsum sum = if sum ≤ 65535 then sum else (sum + sum / 65536) % 65536 := by
  rw [foldCsum, and_ffff, Nat.shiftRight_eq_div_pow]
  split_ifs with hne hle hle
  · omega
  · rw [foldCsum, and_ffff, and_ffff, if_neg]
    omega
  · rfl
  · omega

/-- What `csum` needs of its bytes: a last odd byte is zero, and one addition of the two halves of
the sum carries nothing. -/
def Foldable (bytes : List UInt8) : Prop :=
  (bytes.length % 2 = 1 → bytes.getLastD 0 = 0) ∧
    (words bytes).sum % 65536 + (words bytes).sum / 65536 < 65536

theorem foldCsum_le (sum : Nat) : foldCsum sum ≤ 65535 := by
  rw [foldCsum_eq]
  split_ifs <;> omega

/-- The loop loses a carry where there is one. -/
theorem foldCsum_eq_endAround_iff (h : sum < 2 ^ 31) :
    foldCsum sum = endAround 65535 sum ↔ sum % 65536 + sum / 65536 < 65536 := by
  rw [foldCsum_eq, ← endAround_fold (by decide) sum]
  constructor
  · intro heq
    by_contra hcarry
    have hfold : sum % 65536 + sum / 65536 - 65535 =
        endAround 65535 (sum % 65536 + sum / 65536) :=
      eq_endAround (by omega) (by omega) (Nat.mod_eq_sub_mod (by omega)).symm
    rw [← hfold] at heq
    split_ifs at heq <;> omega
  · intro hcarry
    rw [endAround_of_le (by omega)]
    split_ifs <;> omega

theorem foldCsum_ne {sum b : Nat} (hb : b ≠ 0) (hlt : b < 256) (h : sum < 2 ^ 31) :
    foldCsum sum ≠ endAround 65535 (sum + 254 * b) := by
  intro heq
  have hmod : foldCsum sum ≡ sum + 254 * b [MOD 65535] := heq ▸ endAround_modEq
  rw [foldCsum_eq, Nat.ModEq] at hmod
  split_ifs at hmod with hle
  · omega
  · by_cases hcarry : sum % 65536 + sum / 65536 < 65536
    · rw [(by omega : (sum + sum / 65536) % 65536 = sum % 65536 + sum / 65536)] at hmod
      omega
    · rw [(by omega : (sum + sum / 65536) % 65536 = sum % 65536 + sum / 65536 - 65536)] at hmod
      omega

/-- **`csum` is the Internet checksum, and so the one in C**, if and only if a last odd byte is zero
and one addition of the halves of the sum carries nothing. -/
theorem csum_eq_iff (h : bytes.length ≤ 10240) :
    csum bytes = rfc1071 bytes ∧ csum bytes = cksumGeneric bytes 0 ↔ Foldable bytes := by
  have hsum := updateCsum_eq bytes 0
  have hle := sum_words_le bytes
  have hcount := length_words bytes
  have hlast := (bytes.getLastD 0).toNat_lt
  have hzero : (bytes.getLastD 0).toNat = 0 ↔ bytes.getLastD 0 = 0 := by
    rw [← UInt8.toNat_inj]
    rfl
  rw [cksumGeneric_eq (by omega), and_self_iff, rfc1071_eq, csum, finishCsum,
    not_ofNat_inj (foldCsum_le _) (endAround_le (by decide))]
  by_cases hodd : bytes.length % 2 = 1 ∧ bytes.getLastD 0 ≠ 0
  · rw [if_pos hodd.1, Nat.zero_add] at hsum
    rw [← hsum]
    refine iff_of_false (foldCsum_ne (mt hzero.mp hodd.2) hlast (by omega)) ?_
    exact fun hfold => hodd.2 (hfold.1 hodd.1)
  · rw [not_and_not_right] at hodd
    have hsame : updateCsum bytes 0 = (words bytes).sum := by
      split_ifs at hsum with hone
      · have := hzero.mpr (hodd hone)
        omega
      · omega
    rw [hsame, foldCsum_eq_endAround_iff (by omega)]
    exact (and_iff_right hodd).symm

/-- The header of the test, of 18 bytes. -/
theorem csum_eq_iff_header :
    let header : List UInt8 := [0x45, 0x00, 0x00, 0x73, 0x00, 0x00, 0x40, 0x00, 0x40, 0x11, 0xc0,
      0xa8, 0x00, 0x01, 0xc0, 0xa8, 0x00, 0xc7]
    csum header = rfc1071 header ∧ csum header = cksumGeneric header 0 ↔ Foldable header :=
  csum_eq_iff (by decide)

/-- The words `ffff`, `ffff` and `1` are worth 1 with their carries, and 0 without the last. -/
theorem csum_loses_carry :
    csum [0xff, 0xff, 0xff, 0xff, 0x00, 0x01] ≠ rfc1071 [0xff, 0xff, 0xff, 0xff, 0x00, 0x01] := by
  rw [csum, finishCsum, foldCsum_eq]
  decide

end Checksum

end Snabb
