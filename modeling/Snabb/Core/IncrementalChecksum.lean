import Snabb.Core.Checksum

/-!
# Updating a checksum (`lib/checksum.c`)

A checksum in a buffer is kept up to date by adding the complement of the old value and the new
value to its complement, without going over the buffer. The sum of the words stays the same modulo
65535, but of the two zeros it has only one is a checksum that verifies.

- `update_iff`: the update is exact unless it leaves a buffer of zeros;
- `incremental_exact_iff`: when both functions are exact, in terms of the buffer before.
-/

namespace Snabb

open Foundation List BitVec

namespace Checksum

/-! ## Cells (`lib/checksum.c`) -/

/-- `*cell`, for a `uint16_t *cell`. -/
def cell16 (bytes : List UInt8) (i : Nat) : BitVec 16 :=
  BitVec.ofNat 16 (u16 (bytes.getD i 0) (bytes.getD (i + 1) 0))

/-- `*cell = n`. -/
def storeCell16 (bytes : List UInt8) (i : Nat) (n : BitVec 16) : List UInt8 :=
  (bytes.set i (.ofNat (n.toNat % 256))).set (i + 1) (.ofNat (n.toNat / 256))

/-- `*cell`, for a `uint32_t *cell`. -/
def cell32 (bytes : List UInt8) (i : Nat) : BitVec 32 :=
  BitVec.ofNat 32 ((cell16 bytes i).toNat + 65536 * (cell16 bytes (i + 2)).toNat)

/-- `*cell = n`. -/
def storeCell32 (bytes : List UInt8) (i : Nat) (n : BitVec 32) : List UInt8 :=
  storeCell16 (storeCell16 bytes i (n.setWidth 16)) (i + 2) ((n >>> 16).setWidth 16)

/-- `ntohl` and `htonl`. -/
def ntohl (n : BitVec 32) : BitVec 32 :=
  BitVec.ofNat 32 ((ntohs (n.setWidth 16)).toNat * 65536 + (ntohs ((n >>> 16).setWidth 16)).toNat)

/-- The end of both functions: the carries go around, and the sum is complemented. -/
def finishIncremental (sum : BitVec 32) : BitVec 16 :=
  let sum := (sum >>> 16) + (sum &&& 0xffff)
  let sum := sum + (sum >>> 16)
  (~~~sum &&& 0xffff).setWidth 16

/-- `checksum_update_incremental_16`, for cells at these offsets of a buffer. -/
def checksumUpdateIncremental16 (bytes : List UInt8) (checksumCell valueCell : Nat)
    (newValue : BitVec 16) : List UInt8 :=
  let sum : BitVec 32 := ~~~(ntohs (cell16 bytes checksumCell)).setWidth 32 &&& 0xffff
  let sum := sum + ((~~~(ntohs (cell16 bytes valueCell)).setWidth 32 &&& 0xffff) +
    newValue.setWidth 32)
  storeCell16 (storeCell16 bytes checksumCell (ntohs (finishIncremental sum))) valueCell
    (ntohs newValue)

/-- `checksum_update_incremental_32`. -/
def checksumUpdateIncremental32 (bytes : List UInt8) (checksumCell valueCell : Nat)
    (newValue : BitVec 32) : List UInt8 :=
  let oldValue := ~~~ntohl (cell32 bytes valueCell)
  let sum : BitVec 32 := ~~~(ntohs (cell16 bytes checksumCell)).setWidth 32 &&& 0xffff
  let sum := sum + ((oldValue >>> 16) + (oldValue &&& 0xffff))
  let sum := sum + ((newValue >>> 16) + (newValue &&& 0xffff))
  storeCell32 (storeCell16 bytes checksumCell (ntohs (finishIncremental sum))) valueCell
    (ntohl newValue)

/-! ## Words -/

/-- A word in network order. -/
def wordAt (bytes : List UInt8) (i : Nat) : Nat :=
  (bytes.getD i 0).toNat * 256 + (bytes.getD (i + 1) 0).toNat

/-- Write a word in network order. -/
def putWord (bytes : List UInt8) (i n : Nat) : List UInt8 :=
  (bytes.set i (.ofNat (n / 256))).set (i + 1) (.ofNat (n % 256))

variable {bytes : List UInt8} {i j n : Nat}

theorem wordAt_le (bytes : List UInt8) (i : Nat) : wordAt bytes i ≤ 65535 := by
  have hhigh := (bytes.getD i 0).toNat_lt
  have hlow := (bytes.getD (i + 1) 0).toNat_lt
  rw [wordAt]
  omega

theorem ntohs_cell16 (bytes : List UInt8) (i : Nat) :
    (ntohs (cell16 bytes i)).toNat = wordAt bytes i := by
  have hhigh := (bytes.getD i 0).toNat_lt
  have hlow := (bytes.getD (i + 1) 0).toNat_lt
  rw [ntohs, cell16, wordAt, toNat_ofNat, toNat_ofNat, u16,
    Nat.mod_eq_of_lt (b := 2 ^ 16) (a := _ + _ * _) (by omega),
    Nat.add_mul_div_left _ _ (by decide), Nat.div_eq_of_lt hhigh]
  omega

theorem storeCell16_ntohs (bytes : List UInt8) (i : Nat) (n : BitVec 16) :
    storeCell16 bytes i (ntohs n) = putWord bytes i n.toNat := by
  have hlt := n.isLt
  have hvalue : (ntohs n).toNat = n.toNat % 256 * 256 + n.toNat / 256 := by
    rw [ntohs, toNat_ofNat]
    omega
  have hlow : (ntohs n).toNat % 256 = n.toNat / 256 := by omega
  have hhigh : (ntohs n).toNat / 256 = n.toNat % 256 := by omega
  rw [storeCell16, putWord, hlow, hhigh]

@[simp] theorem length_putWord : (putWord bytes i n).length = bytes.length := by
  simp [putWord]

theorem getD_putWord_of_ne (h : j < i ∨ i + 1 < j) :
    (putWord bytes i n).getD j 0 = bytes.getD j 0 := by
  simp only [putWord, getD_eq_getElem?_getD]
  rw [List.getElem?_set_ne (by omega), List.getElem?_set_ne (by omega)]

theorem wordAt_putWord_self (hn : n ≤ 65535) (hi : i + 1 < bytes.length) :
    wordAt (putWord bytes i n) i = n := by
  simp only [wordAt, putWord, getD_eq_getElem?_getD]
  rw [List.getElem?_set_ne (by omega), List.getElem?_set_self (by omega),
    List.getElem?_set_self (by simpa using hi)]
  simp only [Option.getD_some, UInt8.toNat_ofNat']
  omega

theorem wordAt_putWord_of_ne (h : j + 1 < i ∨ i + 1 < j) :
    wordAt (putWord bytes i n) j = wordAt bytes j := by
  rw [wordAt, wordAt, getD_putWord_of_ne (by omega),
    getD_putWord_of_ne (by omega)]

/-- **Writing a word** at an even offset exchanges it in the sum. -/
theorem sum_words_putWord (bytes : List UInt8) (hn : n ≤ 65535) (hi : 2 * j + 1 < bytes.length) :
    (words (putWord bytes (2 * j) n)).sum + wordAt bytes (2 * j) = (words bytes).sum + n := by
  induction j generalizing bytes with
  | zero =>
    rcases bytes with _ | ⟨a, _ | ⟨b, rest⟩⟩
    · cases hi
    · simp at hi
    · simp only [putWord, wordAt, Nat.mul_zero, set_cons_zero, set_cons_succ, words, sum_cons,
        getD_cons_zero, getD_cons_succ, UInt8.toNat_ofNat']
      omega
  | succ j ih =>
    rcases bytes with _ | ⟨a, _ | ⟨b, rest⟩⟩
    · cases hi
    · simp at hi
    · have hrest := ih rest (by simp only [length_cons] at hi; omega)
      have hput : putWord (a :: b :: rest) (2 * (j + 1)) n = a :: b :: putWord rest (2 * j) n := by
        simp [putWord, Nat.mul_add]
      have hword : wordAt (a :: b :: rest) (2 * (j + 1)) = wordAt rest (2 * j) := by
        simp [wordAt, Nat.mul_add]
      rw [hput, words, words, sum_cons, sum_cons]
      omega

theorem sum_words_eq_zero_iff : (words bytes).sum = 0 ↔ ∀ i, bytes.getD i 0 = 0 := by
  have hbyte (a : UInt8) : a.toNat = 0 ↔ a = 0 := by
    rw [← UInt8.toNat_inj]
    rfl
  induction bytes using words.induct with
  | case1 a b rest ih =>
    rw [words, sum_cons]
    constructor
    · intro hzero i
      rcases i with _ | _ | i
      · exact (hbyte a).mp (by omega)
      · exact (hbyte b).mp (by omega)
      · exact ih.mp (by omega) i
    · intro hall
      have ha := (hbyte a).mpr (hall 0)
      have hb := (hbyte b).mpr (hall 1)
      have hrest := ih.mpr fun i => hall (i + 2)
      omega
  | case2 a =>
    rw [words, sum_singleton]
    constructor
    · intro hzero i
      cases i with
      | zero => exact (hbyte a).mp (by omega)
      | succ i => rfl
    · intro hall
      have ha := (hbyte a).mpr (hall 0)
      omega
  | case3 => exact iff_of_true rfl fun i => rfl

/-! ## The sums of the functions -/

theorem toNat_and_ffff (n : BitVec 32) : (n &&& 0xffff).toNat = n.toNat % 65536 := by
  rw [toNat_and]
  exact and_ffff n.toNat

theorem toNat_not_and_ffff (n : BitVec 32) : (~~~n &&& 0xffff).toNat = 65535 - n.toNat % 65536 := by
  have hlt := n.isLt
  rw [toNat_and_ffff, toNat_not]
  omega

theorem toNat_complement (n : BitVec 16) :
    (~~~n.setWidth 32 &&& 0xffff).toNat = 65535 - n.toNat := by
  have hlt := n.isLt
  rw [toNat_not_and_ffff, toNat_setWidth]
  omega

theorem toNat_halves (n : BitVec 32) :
    ((n >>> 16) + (n &&& 0xffff)).toNat = n.toNat / 65536 + n.toNat % 65536 := by
  have hlt := n.isLt
  rw [toNat_add, toNat_ushiftRight, toNat_and_ffff]
  omega

theorem two_folds {n t : Nat} (h : n ≤ 5 * 65535) (ht : t = n / 65536 + n % 65536) :
    (t + t / 65536) % 65536 = endAround 65535 n := by
  have hfold : endAround 65535 t = endAround 65535 n := by
    rw [ht, Nat.add_comm]
    exact endAround_fold (by decide) n
  rw [← hfold]
  by_cases hcarry : t ≤ 65535
  · rw [endAround_of_le hcarry]
    omega
  · have hlt : t ≤ 65540 := by omega
    have hone : t / 65536 = 1 := by omega
    rw [hone, (by omega : (t + 1) % 65536 = t - 65535)]
    exact eq_endAround (by omega) (by omega) (Nat.mod_eq_sub_mod (by omega)).symm

theorem finishIncremental_eq {sum : BitVec 32} (h : sum.toNat ≤ 5 * 65535) :
    (finishIncremental sum).toNat = 65535 - endAround 65535 sum.toNat := by
  rw [← two_folds h (toNat_halves sum), finishIncremental, toNat_setWidth, toNat_not_and_ffff,
    toNat_add, toNat_ushiftRight]
  omega

/-- **The update is exact unless it leaves zeros**: the rest of the buffer is worth `rest`, and the
value has `words` words. -/
theorem update_iff {rest checksum value newValue words : Nat} (hchecksum : checksum ≤ 65535)
    (hvalue : value ≤ words * 65535) (hsum : endAround 65535 (rest + checksum + value) = 65535) :
    endAround 65535 (rest + (65535 - endAround 65535
      (65535 - checksum + (words * 65535 - value) + newValue)) + newValue) = 65535 ↔
      ¬ (rest = 0 ∧ newValue = 0 ∧ ¬ (checksum = 65535 ∧ value = words * 65535)) := by
  have hfull {n : Nat} : endAround 65535 n = 65535 ↔ n ≠ 0 ∧ n % 65535 = 0 := by
    have hle := endAround_le (n := n) (by decide : 0 < 65535)
    have hzero := endAround_eq_zero_iff (m := 65535) (n := n)
    have hmod : endAround 65535 n % 65535 = n % 65535 := endAround_modEq
    omega
  have hle := endAround_le (n := 65535 - checksum + (words * 65535 - value) + newValue)
    (by decide : 0 < 65535)
  have hzero := endAround_eq_zero_iff (m := 65535)
    (n := 65535 - checksum + (words * 65535 - value) + newValue)
  have hmod : endAround 65535 (65535 - checksum + (words * 65535 - value) + newValue) % 65535 =
      (65535 - checksum + (words * 65535 - value) + newValue) % 65535 := endAround_modEq
  rw [hfull] at hsum ⊢
  omega

/-! ## The functions -/

theorem toNat_ntohl_cell32 (bytes : List UInt8) (i : Nat) :
    (ntohl (cell32 bytes i)).toNat = wordAt bytes i * 65536 + wordAt bytes (i + 2) := by
  have hlow : (cell32 bytes i).setWidth 16 = cell16 bytes i := by
    have hlt := (cell16 bytes i).isLt
    rw [← toNat_inj, toNat_setWidth, cell32, toNat_ofNat]
    omega
  have hhigh : ((cell32 bytes i) >>> 16).setWidth 16 = cell16 bytes (i + 2) := by
    have hlt := (cell16 bytes i).isLt
    have hlt' := (cell16 bytes (i + 2)).isLt
    rw [← toNat_inj, toNat_setWidth, toNat_ushiftRight, cell32, toNat_ofNat]
    omega
  have hle := wordAt_le bytes i
  have hle' := wordAt_le bytes (i + 2)
  rw [ntohl, hlow, hhigh, toNat_ofNat, ntohs_cell16, ntohs_cell16]
  omega

theorem storeCell32_ntohl (bytes : List UInt8) (i : Nat) (n : BitVec 32) :
    storeCell32 bytes i (ntohl n) =
      putWord (putWord bytes i (n.toNat / 65536)) (i + 2) (n.toNat % 65536) := by
  have hlt := n.isLt
  have hfirst : (ntohl n).setWidth 16 = ntohs ((n >>> 16).setWidth 16) := by
    have hlt := (ntohs ((n >>> 16).setWidth 16)).isLt
    rw [← toNat_inj, toNat_setWidth, ntohl, toNat_ofNat]
    omega
  have hsecond : ((ntohl n) >>> 16).setWidth 16 = ntohs (n.setWidth 16) := by
    have hlt := (ntohs ((n >>> 16).setWidth 16)).isLt
    have hlt' := (ntohs (n.setWidth 16)).isLt
    rw [← toNat_inj, toNat_setWidth, toNat_ushiftRight, ntohl, toNat_ofNat]
    omega
  rw [storeCell32, hfirst, hsecond, storeCell16_ntohs, storeCell16_ntohs, toNat_setWidth,
    toNat_ushiftRight, Nat.shiftRight_eq_div_pow,
    Nat.mod_eq_of_lt (by omega)]
  rfl

/-- The checksum that the functions write. -/
def newChecksum (checksum value newValue words : Nat) : Nat :=
  65535 - endAround 65535 (65535 - checksum + (words * 65535 - value) + newValue)

theorem checksumUpdateIncremental16_eq (bytes : List UInt8) (c v : Nat) (newValue : BitVec 16) :
    checksumUpdateIncremental16 bytes c v newValue =
      putWord (putWord bytes c
        (newChecksum (wordAt bytes c) (wordAt bytes v) newValue.toNat 1)) v newValue.toNat := by
  have hc := wordAt_le bytes c
  have hv := wordAt_le bytes v
  have hnew := newValue.isLt
  simp only [checksumUpdateIncremental16, storeCell16_ntohs]
  rw [finishIncremental_eq]
  all_goals
    simp only [toNat_add, toNat_complement, ntohs_cell16, toNat_setWidth]
  · rw [newChecksum]
    congr 5
    omega
  · omega

theorem checksumUpdateIncremental32_eq (bytes : List UInt8) (c v : Nat) (newValue : BitVec 32) :
    checksumUpdateIncremental32 bytes c v newValue =
      putWord (putWord (putWord bytes c (newChecksum (wordAt bytes c)
        (wordAt bytes v + wordAt bytes (v + 2)) (newValue.toNat / 65536 + newValue.toNat % 65536)
          2)) v (newValue.toNat / 65536)) (v + 2) (newValue.toNat % 65536) := by
  have hc := wordAt_le bytes c
  have hv := wordAt_le bytes v
  have hv' := wordAt_le bytes (v + 2)
  have hnew := newValue.isLt
  have hold : (~~~ntohl (cell32 bytes v)).toNat =
      (65535 - wordAt bytes v) * 65536 + (65535 - wordAt bytes (v + 2)) := by
    rw [toNat_not, toNat_ntohl_cell32]
    omega
  have hsum : ((~~~(ntohs (cell16 bytes c)).setWidth 32 &&& (0xffff : BitVec 32)) +
      ((~~~ntohl (cell32 bytes v) >>> 16) + (~~~ntohl (cell32 bytes v) &&& (0xffff : BitVec 32))) +
      ((newValue >>> 16) + (newValue &&& 0xffff))).toNat =
        65535 - wordAt bytes c + (2 * 65535 - (wordAt bytes v + wordAt bytes (v + 2))) +
          (newValue.toNat / 65536 + newValue.toNat % 65536) := by
    have hhalves {x y : Nat} (hy : y ≤ 65535) :
        (x * 65536 + y) / 65536 + (x * 65536 + y) % 65536 = x + y := by omega
    rw [toNat_add, toNat_add, toNat_complement, toNat_halves, toNat_halves, hold,
      ntohs_cell16, hhalves (by omega)]
    omega
  simp only [checksumUpdateIncremental32, storeCell16_ntohs, storeCell32_ntohl]
  rw [finishIncremental_eq, newChecksum]
  rw [hsum]
  omega

/-! ## When the update is exact -/

/-- A buffer whose checksum verifies, with the cells of its checksum and of a value of `size` bytes,
as the pointers to them have it: within the buffer, aligned, and apart from each other. -/
structure Verified (bytes : List UInt8) (checksumCell valueCell size : Nat) : Prop where
  length : bytes.length ≤ 65535
  checksum_aligned : 2 ∣ checksumCell
  value_aligned : 2 ∣ valueCell
  checksum_inside : checksumCell + 2 ≤ bytes.length
  value_inside : valueCell + size ≤ bytes.length
  disjoint : checksumCell + 2 ≤ valueCell ∨ valueCell + size ≤ checksumCell
  verifies : cksumGeneric bytes 0 = 0

/-- The offset is in none of the cells. -/
def Elsewhere (checksumCell valueCell size i : Nat) : Prop :=
  (i < checksumCell ∨ checksumCell + 2 ≤ i) ∧ (i < valueCell ∨ valueCell + size ≤ i)

instance (checksumCell valueCell size i : Nat) :
    Decidable (Elsewhere checksumCell valueCell size i) :=
  inferInstanceAs (Decidable (_ ∧ _))

/-- The buffer after an update: the cell of the value has the new one, nothing else is changed, and
the checksum verifies. -/
structure Updated {α : Type} (bytes out : List UInt8) (checksumCell valueCell size : Nat)
    (read : List UInt8 → Nat → α) (newValue : α) : Prop where
  length : out.length = bytes.length
  value : read out valueCell = newValue
  others : ∀ i, Elsewhere checksumCell valueCell size i → out.getD i 0 = bytes.getD i 0
  verifies : cksumGeneric out 0 = 0

/-- What is left by the update is zeros, and was not made of ones. -/
def LeavesZeros (bytes : List UInt8) (checksumCell valueCell size newValue : Nat) : Prop :=
  newValue = 0 ∧ (∀ i, Elsewhere checksumCell valueCell size i → bytes.getD i 0 = 0) ∧
    ¬ ∀ i < bytes.length, ¬ Elsewhere checksumCell valueCell size i → bytes.getD i 0 = 0xff

theorem cksumGeneric_eq_zero_iff (h : bytes.length ≤ 65535) :
    cksumGeneric bytes 0 = 0 ↔ endAround 65535 (words bytes).sum = 65535 := by
  rw [cksumGeneric_eq (by omega), rfc1071_eq,
    (by decide : (0 : BitVec 16) = ~~~BitVec.ofNat 16 65535),
    not_ofNat_inj (endAround_le (by decide)) le_rfl]

theorem wordAt_eq_ones : wordAt bytes i = 65535 ↔
    bytes.getD i 0 = 0xff ∧ bytes.getD (i + 1) 0 = 0xff := by
  have hbyte (a : UInt8) : a = 0xff ↔ a.toNat = 255 := by
    rw [← UInt8.toNat_inj]
    rfl
  have hlow := (bytes.getD (i + 1) 0).toNat_lt
  rw [hbyte, hbyte, wordAt]
  omega

theorem getD_putWord_zero : (putWord bytes i 0).getD j 0 =
    if j = i ∨ j = i + 1 then 0 else bytes.getD j 0 := by
  split
  · next h =>
    simp only [putWord, getD_eq_getElem?_getD, List.getElem?_set]
    split_ifs <;> first | rfl | omega
  · next h => exact getD_putWord_of_ne (by omega)

theorem rest_eq_zero_iff {size c v : Nat} {blank : List UInt8}
    (hblank : ∀ i, ¬ Elsewhere c v size i → blank.getD i 0 = 0)
    (hrest : ∀ i, Elsewhere c v size i → blank.getD i 0 = bytes.getD i 0) :
    (words blank).sum = 0 ↔ ∀ i, Elsewhere c v size i → bytes.getD i 0 = 0 := by
  rw [sum_words_eq_zero_iff]
  refine forall_congr' fun i => ?_
  by_cases h : Elsewhere c v size i
  · rw [hrest i h]
    exact ⟨fun hzero _ => hzero, fun hzero => hzero h⟩
  · exact ⟨fun _ h' => absurd h' h, fun _ => hblank i h⟩

/-- The checksum after an update, where the bytes elsewhere are worth `rest`, and the value has `n`
words that are worth `v` before and `m` after. -/
theorem verifies_iff {out : List UInt8} {rest c v m n : Nat} (hlen : bytes.length ≤ 65535)
    (hout : out.length = bytes.length) (hver : cksumGeneric bytes 0 = 0) (hc : c ≤ 65535)
    (hv : v ≤ n * 65535) (hbefore : (words bytes).sum = rest + c + v)
    (hafter : (words out).sum = rest + newChecksum c v m n + m) :
    cksumGeneric out 0 = 0 ↔ ¬ (rest = 0 ∧ m = 0 ∧ ¬ (c = 65535 ∧ v = n * 65535)) := by
  rw [cksumGeneric_eq_zero_iff hlen, hbefore] at hver
  rw [cksumGeneric_eq_zero_iff (hout ▸ hlen), hafter]
  exact update_iff hc hv hver

/-- **When the update of a 16-bit value is exact**. -/
theorem updated16_iff {c v : Nat} (h : Verified bytes c v 2) (newValue : BitVec 16) :
    Updated bytes (checksumUpdateIncremental16 bytes c v newValue) c v 2
        (fun bytes i => ntohs (cell16 bytes i)) newValue ↔
      ¬ LeavesZeros bytes c v 2 newValue.toNat := by
  obtain ⟨hlen, ⟨a, rfl⟩, ⟨b, rfl⟩, hc, hv, hdisjoint, hver⟩ := h
  have hnew : newValue.toNat ≤ 65535 := Nat.le_of_lt_succ newValue.isLt
  have hle := wordAt_le bytes (2 * a)
  have hle' := wordAt_le bytes (2 * b)
  rw [checksumUpdateIncremental16_eq]
  generalize hk : newChecksum (wordAt bytes (2 * a)) (wordAt bytes (2 * b)) newValue.toNat 1 = k
  have hkle : k ≤ 65535 := hk ▸ Nat.sub_le _ _
  -- what other words in the cells make of the sum
  have hsum {k m : Nat} (hk : k ≤ 65535) (hm : m ≤ 65535) :
      (words (putWord (putWord bytes (2 * a) k) (2 * b) m)).sum + wordAt bytes (2 * a) +
        wordAt bytes (2 * b) = (words bytes).sum + k + m := by
    have hfirst := sum_words_putWord bytes (j := a) hk (by omega)
    have hsecond := sum_words_putWord (putWord bytes (2 * a) k) (j := b) hm
      (by rw [length_putWord]; omega)
    rw [wordAt_putWord_of_ne (by omega)] at hsecond
    omega
  have hblank := hsum (k := 0) (m := 0) (by omega) (by omega)
  have hout := hsum hkle hnew
  have hzeros : (words (putWord (putWord bytes (2 * a) 0) (2 * b) 0)).sum = 0 ↔
      ∀ i, Elsewhere (2 * a) (2 * b) 2 i → bytes.getD i 0 = 0 := by
    refine rest_eq_zero_iff (fun i hi => ?_) fun i hi => ?_
    · rw [Elsewhere] at hi
      rw [getD_putWord_zero, getD_putWord_zero]
      split_ifs with h₁ h₂
      · rfl
      · rfl
      · omega
    · rw [Elsewhere] at hi
      rw [getD_putWord_of_ne (by omega), getD_putWord_of_ne (by omega)]
  have hones : (∀ i < bytes.length, ¬ Elsewhere (2 * a) (2 * b) 2 i → bytes.getD i 0 = 0xff) ↔
      wordAt bytes (2 * a) = 65535 ∧ wordAt bytes (2 * b) = 1 * 65535 := by
    rw [wordAt_eq_ones, wordAt_eq_ones]
    constructor
    · intro hall
      have hcell {i : Nat} hi h :
          bytes.getD i 0 = 0xff := hall i hi h
      refine ⟨⟨hcell ?_ ?_, hcell ?_ ?_⟩, hcell ?_ ?_, hcell ?_ ?_⟩
      all_goals
        try rw [Elsewhere]
        omega
    · rintro ⟨⟨h₁, h₂⟩, h₃, h₄⟩ i hi hcell
      have hcases : i = 2 * a ∨ i = 2 * a + 1 ∨ i = 2 * b ∨ i = 2 * b + 1 := by
        rw [Elsewhere] at hcell
        omega
      rcases hcases with rfl | rfl | rfl | rfl <;> assumption
  have hverifies : cksumGeneric (putWord (putWord bytes (2 * a) k) (2 * b) newValue.toNat) 0 = 0 ↔
      ¬ ((words (putWord (putWord bytes (2 * a) 0) (2 * b) 0)).sum = 0 ∧ newValue.toNat = 0 ∧
        ¬ (wordAt bytes (2 * a) = 65535 ∧ wordAt bytes (2 * b) = 1 * 65535)) :=
    verifies_iff hlen (by simp) hver hle (by omega) (by omega) (by rw [hk]; omega)
  rw [hzeros, ← hones] at hverifies
  constructor
  · intro hupdated hzero
    exact hverifies.mp hupdated.verifies ⟨hzero.2.1, hzero.1, hzero.2.2⟩
  · intro hzero
    refine ⟨by simp, ?_, fun i hi => ?_, hverifies.mpr fun h => hzero ⟨h.2.1, h.1, h.2.2⟩⟩
    · rw [← toNat_inj, ntohs_cell16, wordAt_putWord_self hnew (by simp; omega)]
    · rw [Elsewhere] at hi
      rw [getD_putWord_of_ne (by omega), getD_putWord_of_ne (by omega)]

/-- **When the update of a 32-bit value is exact**. -/
theorem updated32_iff {c v : Nat} (h : Verified bytes c v 4) (newValue : BitVec 32) :
    Updated bytes (checksumUpdateIncremental32 bytes c v newValue) c v 4
        (fun bytes i => ntohl (cell32 bytes i)) newValue ↔
      ¬ LeavesZeros bytes c v 4 newValue.toNat := by
  obtain ⟨hlen, ⟨a, rfl⟩, ⟨b, rfl⟩, hc, hv, hdisjoint, hver⟩ := h
  obtain ⟨high, hhigh⟩ : ∃ high, high = newValue.toNat / 65536 := ⟨_, rfl⟩
  obtain ⟨low, hlow⟩ : ∃ low, low = newValue.toNat % 65536 := ⟨_, rfl⟩
  have hvalue : newValue.toNat = high * 65536 + low := by omega
  have hhighle : high ≤ 65535 := by
    omega
  have hlowle : low ≤ 65535 := by omega
  have hle := wordAt_le bytes (2 * a)
  have hle' := wordAt_le bytes (2 * b)
  have hle'' := wordAt_le bytes (2 * b + 2)
  rw [checksumUpdateIncremental32_eq, ← hhigh, ← hlow]
  generalize hk : newChecksum (wordAt bytes (2 * a))
    (wordAt bytes (2 * b) + wordAt bytes (2 * b + 2)) (high + low) 2 = k
  have hkle : k ≤ 65535 := hk ▸ Nat.sub_le _ _
  -- what other words in the cells make of the sum
  have hsum {k l m : Nat} (hk : k ≤ 65535) (hl : l ≤ 65535) (hm : m ≤ 65535) :
      (words (putWord (putWord (putWord bytes (2 * a) k) (2 * b) l) (2 * b + 2) m)).sum +
        wordAt bytes (2 * a) + wordAt bytes (2 * b) + wordAt bytes (2 * b + 2) =
          (words bytes).sum + k + l + m := by
    have hfirst := sum_words_putWord bytes (j := a) hk (by omega)
    have hsecond := sum_words_putWord (putWord bytes (2 * a) k) (j := b) hl
      (by rw [length_putWord]; omega)
    have hthird := sum_words_putWord (putWord (putWord bytes (2 * a) k) (2 * b) l)
      (j := b + 1) hm (by rw [length_putWord, length_putWord]; omega)
    rw [wordAt_putWord_of_ne (by omega)] at hsecond
    rw [wordAt_putWord_of_ne (by omega), wordAt_putWord_of_ne (by omega), Nat.mul_add,
      Nat.mul_one] at hthird
    omega
  have hblank := hsum (k := 0) (l := 0) (m := 0) (by omega) (by omega) (by omega)
  have hout := hsum hkle hhighle hlowle
  have hzeros :
      (words (putWord (putWord (putWord bytes (2 * a) 0) (2 * b) 0) (2 * b + 2) 0)).sum = 0 ↔
        ∀ i, Elsewhere (2 * a) (2 * b) 4 i → bytes.getD i 0 = 0 := by
    refine rest_eq_zero_iff (fun i hi => ?_) fun i hi => ?_
    · rw [Elsewhere] at hi
      rw [getD_putWord_zero, getD_putWord_zero, getD_putWord_zero]
      split_ifs with h₁ h₂ h₃
      · rfl
      · rfl
      · rfl
      · omega
    · rw [Elsewhere] at hi
      rw [getD_putWord_of_ne (by omega), getD_putWord_of_ne (by omega),
        getD_putWord_of_ne (by omega)]
  have hones : (∀ i < bytes.length, ¬ Elsewhere (2 * a) (2 * b) 4 i → bytes.getD i 0 = 0xff) ↔
      wordAt bytes (2 * a) = 65535 ∧
        wordAt bytes (2 * b) + wordAt bytes (2 * b + 2) = 2 * 65535 := by
    have hboth : wordAt bytes (2 * b) + wordAt bytes (2 * b + 2) = 2 * 65535 ↔
        wordAt bytes (2 * b) = 65535 ∧ wordAt bytes (2 * b + 2) = 65535 := by omega
    rw [hboth, wordAt_eq_ones, wordAt_eq_ones, wordAt_eq_ones]
    constructor
    · intro hall
      have hcell {i : Nat} hi h :
          bytes.getD i 0 = 0xff := hall i hi h
      refine ⟨⟨hcell ?_ ?_, hcell ?_ ?_⟩, ⟨hcell ?_ ?_, hcell ?_ ?_⟩, hcell ?_ ?_, hcell ?_ ?_⟩
      all_goals
        try rw [Elsewhere]
        omega
    · rintro ⟨⟨h₁, h₂⟩, ⟨h₃, h₄⟩, h₅, h₆⟩ i hi hcell
      have hcases : i = 2 * a ∨ i = 2 * a + 1 ∨ i = 2 * b ∨ i = 2 * b + 1 ∨ i = 2 * b + 2 ∨
          i = 2 * b + 2 + 1 := by
        rw [Elsewhere] at hcell
        omega
      rcases hcases with rfl | rfl | rfl | rfl | rfl | rfl <;> assumption
  have hverifies : cksumGeneric
      (putWord (putWord (putWord bytes (2 * a) k) (2 * b) high) (2 * b + 2) low) 0 = 0 ↔
      ¬ ((words (putWord (putWord (putWord bytes (2 * a) 0) (2 * b) 0) (2 * b + 2) 0)).sum = 0 ∧
        high + low = 0 ∧ ¬ (wordAt bytes (2 * a) = 65535 ∧
          wordAt bytes (2 * b) + wordAt bytes (2 * b + 2) = 2 * 65535)) :=
    verifies_iff hlen (by simp) hver hle (by omega) (by omega) (by rw [hk]; omega)
  rw [hzeros, ← hones] at hverifies
  constructor
  · intro hupdated hzero
    exact hverifies.mp hupdated.verifies ⟨hzero.2.1, by have := hzero.1; omega, hzero.2.2⟩
  · intro hzero
    refine ⟨by simp, ?_, fun i hi => ?_,
      hverifies.mpr fun h => hzero ⟨by have := h.2.1; omega, h.1, h.2.2⟩⟩
    · rw [← toNat_inj, toNat_ntohl_cell32, wordAt_putWord_of_ne (by omega),
        wordAt_putWord_self hhighle (by simp; omega), wordAt_putWord_self hlowle (by simp; omega),
        hvalue]
    · rw [Elsewhere] at hi
      rw [getD_putWord_of_ne (by omega), getD_putWord_of_ne (by omega),
        getD_putWord_of_ne (by omega)]

/-- **When updating a checksum is exact**: unless the new value and the bytes elsewhere are zeros,
and the cells were not full of ones. -/
theorem incremental_exact_iff (bytes : List UInt8) (c v : Nat) :
    (∀ newValue : BitVec 16, Verified bytes c v 2 →
      (Updated bytes (checksumUpdateIncremental16 bytes c v newValue) c v 2
          (fun bytes i => ntohs (cell16 bytes i)) newValue ↔
        ¬ LeavesZeros bytes c v 2 newValue.toNat)) ∧
    ∀ newValue : BitVec 32, Verified bytes c v 4 →
      (Updated bytes (checksumUpdateIncremental32 bytes c v newValue) c v 4
          (fun bytes i => ntohl (cell32 bytes i)) newValue ↔
        ¬ LeavesZeros bytes c v 4 newValue.toNat) :=
  ⟨fun newValue h => updated16_iff h newValue, fun newValue h => updated32_iff h newValue⟩

theorem incremental_exact_iff_one : let bytes : List UInt8 := [0xff, 0xfe, 0, 1, 0, 0]
    (Updated bytes (checksumUpdateIncremental16 bytes 0 2 7) 0 2 2
        (fun bytes i => ntohs (cell16 bytes i)) 7 ↔ ¬ LeavesZeros bytes 0 2 2 7) ∧
      (Updated bytes (checksumUpdateIncremental32 bytes 0 2 7) 0 2 4
        (fun bytes i => ntohl (cell32 bytes i)) 7 ↔ ¬ LeavesZeros bytes 0 2 4 7) := by
  intro bytes
  have hver : cksumGeneric bytes 0 = 0 := (cksumGeneric_eq_zero_iff (by decide)).mpr (by decide)
  have h := incremental_exact_iff bytes 0 2
  refine ⟨h.1 7 ⟨?_, ?_, ?_, ?_, ?_, ?_, hver⟩, h.2 7 ⟨?_, ?_, ?_, ?_, ?_, ?_, hver⟩⟩ <;> decide

/-- A buffer of zeros and its checksum of ones, in which zero is written once more. -/
theorem update_zero_by_zero : ¬ ∀ (bytes : List UInt8) (c v : Nat) (newValue : BitVec 16),
    Verified bytes c v 2 →
      Updated bytes (checksumUpdateIncremental16 bytes c v newValue) c v 2
        (fun bytes i => ntohs (cell16 bytes i)) newValue := by
  intro h
  have hver : cksumGeneric [0xff, 0xff, 0, 0] 0 = 0 :=
    (cksumGeneric_eq_zero_iff (by decide)).mpr (by decide)
  have hupdated := h [0xff, 0xff, 0, 0] 0 2 0
    ⟨by decide, by decide, by decide, by decide, by decide, by decide, hver⟩
  have hzeros : checksumUpdateIncremental16 [0xff, 0xff, 0, 0] 0 2 0 = [0, 0, 0, 0] := by decide
  have hverifies := hupdated.verifies
  rw [hzeros] at hverifies
  exact absurd ((cksumGeneric_eq_zero_iff (by decide)).mp hverifies) (by decide)

end Checksum

end Snabb
