import Snabb.Foundation.BitTrie
import Mathlib.Data.Nat.Bitwise
import Mathlib.Logic.Function.Basic

/-!
# The RIB of a poptrie (`lib/poptrie.lua`)

Prefixes are added to a binary trie, the RIB, from which the poptrie is built. A key is a pointer to
bytes of which `extract` reads some bits; behind the 128th bit it returns `nil`.

- `extract_eq`: the bits as a number;
- `lookup_spec`: a look-up in the RIB;
- `map_eq`: what `rib_map` calls its function with.
-/

namespace Snabb

open Foundation List

open BitTrie hiding node absent value

/-- How the code raises, or what it must not do. -/
inductive PoptrieFault where
  /-- A bit operation or an index with `nil`. -/
  | badArgument
  /-- A field of `nil`. -/
  | nilIndex
  /-- An access outside an array. -/
  | outOfBounds (index : Nat)
  /-- `ffi.new`: "size of C type is unknown or too large". -/
  | tooLarge
  /-- `assert(Poptrie.s <= 32)`. -/
  | assertion
  /-- "Node overflow". -/
  | nodeOverflow
  /-- "invalid state". -/
  | invalidState
  /-- A loop that has not ended. -/
  | outOfFuel
deriving DecidableEq, Repr

/-! ## Keys -/

/-- A `uint8_t *`. -/
abbrev Key := Nat → UInt8

namespace Key

/-- A bit of a key, counted from the highest bit of the first byte. -/
def bit (key : Key) (i : Nat) : Bool := (key (i / 8)).toNat.testBit (7 - i % 8)

/-- The bits from an offset on. -/
def path (key : Key) (offset n : Nat) : List Bool := (List.range' offset n).map key.bit

/-- The bytes and bits that the loops of `extract` visit. -/
def positions (skip : Nat) : List (Nat × Nat) :=
  (List.range' skip (16 - skip)).flatMap fun i => [7, 6, 5, 4, 3, 2, 1, 0].map fun j => (i, j)

/-- The body of the loops of `extract`. -/
def extractLoop (key : Key) : List (Nat × Nat) → Nat → Int → Nat → Option Nat
  | [], _, _, _ => none
  | (i, j) :: rest, offset, length, bits =>
    if offset = 0 then
      let bit := ((key i).toNat &&& 1 <<< j) >>> j
      -- the count goes below zero if no bits were asked for
      let length := length - 1
      let bits := bits ||| bit <<< length.toNat
      if length = 0 then some bits else extractLoop key rest offset length bits
    else extractLoop key rest (offset - 1) length bits

/-- `extract`, for lengths below 32. -/
def extract (key : Key) (offset length : Nat) : Option Nat :=
  extractLoop key (positions (offset / 8)) (offset % 8) length 0

variable {key : Key} {offset n m : Nat}

@[simp] theorem length_path (key : Key) (offset n : Nat) : (key.path offset n).length = n := by
  rw [path, length_map, length_range']

theorem path_add (key : Key) (offset n m : Nat) :
    key.path offset (n + m) = key.path offset n ++ key.path (offset + n) m := by
  rw [path, ← List.range'_append_1, map_append]
  rfl

theorem path_succ (key : Key) (offset n : Nat) :
    key.path offset (n + 1) = key.bit offset :: key.path (offset + 1) n := rfl

theorem bit_eq (key : Key) (p : Nat) :
    ((key (p / 8)).toNat &&& 1 <<< (7 - p % 8)) >>> (7 - p % 8) = (key.bit p).toNat := by
  rw [bit, Nat.one_shiftLeft, Nat.and_two_pow, Nat.shiftRight_eq_div_pow,
    Nat.mul_div_cancel _ (Nat.two_pow_pos _)]

theorem positions_eq (skip : Nat) : positions skip =
    (List.range' (8 * skip) (128 - 8 * skip)).map fun p => (p / 8, 7 - p % 8) := by
  rcases Nat.lt_or_ge skip 16 with hlt | hge
  · have hall : ∀ skip < 16, positions skip =
        (List.range' (8 * skip) (128 - 8 * skip)).map fun p => (p / 8, 7 - p % 8) := by
      decide +kernel
    exact hall skip hlt
  · rw [positions, Nat.sub_eq_zero_of_le hge, Nat.sub_eq_zero_of_le (by omega)]
    rfl

theorem extractLoop_skip (hn : n ≤ m) (length : Int) (bits : Nat) :
    extractLoop key ((List.range' offset m).map fun p => (p / 8, 7 - p % 8)) n length bits =
      extractLoop key ((List.range' (offset + n) (m - n)).map fun p => (p / 8, 7 - p % 8)) 0
        length bits := by
  induction n generalizing offset m with
  | zero => rfl
  | succ n ih =>
    obtain ⟨m, rfl⟩ := Nat.exists_eq_succ_of_ne_zero (Nat.ne_zero_of_lt hn)
    rw [List.range'_succ, map_cons, extractLoop, if_neg (Nat.succ_ne_zero n),
      Nat.add_sub_cancel, ih (Nat.le_of_succ_le_succ hn), Nat.succ_eq_add_one,
      Nat.add_sub_add_right, Nat.add_assoc, Nat.add_comm 1 n]

theorem extractLoop_eq (hn : 0 < n) (bits : Nat) :
    extractLoop key ((List.range' offset m).map fun p => (p / 8, 7 - p % 8)) 0 n bits =
      if n ≤ m then some (bits ||| index (key.path offset n)) else none := by
  induction m generalizing offset n bits with
  | zero => rw [if_neg (by omega)]; rfl
  | succ m ih =>
    obtain ⟨n, rfl⟩ := Nat.exists_eq_succ_of_ne_zero hn.ne'
    have hlength : ((n + 1 : Nat) : Int) - 1 = n := by omega
    have hlt := index_lt (key.path (offset + 1) n)
    rw [length_path] at hlt
    rw [List.range'_succ, map_cons, extractLoop, if_pos rfl, bit_eq]
    simp only [Nat.succ_eq_add_one, hlength, Int.toNat_natCast]
    rw [path_succ, index, length_path, ← Nat.shiftLeft_eq, Nat.shiftLeft_add_eq_or_of_lt hlt]
    cases n with
    | zero =>
      simp [path, index]
    | succ n =>
      rw [if_neg (by omega), ih (Nat.succ_pos n), Nat.or_assoc]
      simp only [Nat.add_le_add_iff_right]

/-- No bits are never found. -/
theorem extractLoop_none {length : Int} (h : length ≤ 0) (bits : Nat) :
    extractLoop key ((List.range' offset m).map fun p => (p / 8, 7 - p % 8)) 0 length bits =
      none := by
  induction m generalizing offset length bits with
  | zero => rfl
  | succ m ih =>
    rw [List.range'_succ, map_cons, extractLoop, if_pos rfl]
    rw [if_neg (by omega)]
    exact ih (by omega) _

/-- **Extracting bits** within the key. -/
theorem extract_eq (hn : 0 < n) (hend : offset + n ≤ 128) :
    key.extract offset n = some (index (key.path offset n)) := by
  have hoffset : 8 * (offset / 8) + offset % 8 = offset := Nat.div_add_mod offset 8
  rw [extract, positions_eq, extractLoop_skip (by omega), hoffset, extractLoop_eq hn,
    if_pos (by omega), Nat.zero_or]

theorem extract_eq_none (h : n = 0 ∨ 128 < offset + n) : key.extract offset n = none := by
  have hoffset : 8 * (offset / 8) + offset % 8 = offset := Nat.div_add_mod offset 8
  rw [extract, positions_eq]
  rcases Nat.lt_or_ge offset 128 with hlt | hge
  · rw [extractLoop_skip (by omega)]
    rcases Nat.eq_zero_or_pos n with rfl | hpos
    · exact extractLoop_none (by simp) 0
    · rw [extractLoop_eq hpos, if_neg (by omega)]
  · rw [Nat.sub_eq_zero_of_le (by omega)]
    rfl

theorem extract_one (h : offset < 128) : key.extract offset 1 = some (key.bit offset).toNat := by
  rw [extract_eq Nat.one_pos (by omega)]
  simp [path, index]

end Key

/-! ## The RIB -/

/-- A node of the RIB; `nil` is the absent one. -/
abbrev Rib := BitTrie Nat

/-- The argument that `rib_map` and `rib_lookup` take for a child. -/
def Rib.below (node : Rib) : Rib := if node.hasChildren then node else .absent

/-- The recursion of `add`, with the number of bits that are left. -/
def Rib.addAt (key : Key) (value : Nat) : Nat → Rib → Nat → Except PoptrieFault Rib
  | 0, node, _ => .ok (.node (some value) (node.side false) (node.side true))
  | n + 1, node, offset =>
    match key.extract offset 1 with
    | some 0 => do
      let left ← addAt key value n (node.side false) (offset + 1)
      return .node node.value left (node.side true)
    | some 1 => do
      let right ← addAt key value n (node.side true) (offset + 1)
      return .node node.value (node.side false) right
    | _ => .error .invalidState

/-- `add`. -/
def Rib.add (rib : Rib) (key : Key) (length value : Nat) : Except PoptrieFault Rib :=
  Rib.addAt key value length rib 0

/-- The recursion of `rib_lookup`. -/
def Rib.lookupAt (key : Key) (length : Nat) : Rib → Nat → Option Nat → Option Nat × Rib
  | .absent, _, value => (value, .absent)
  | .node own left right, offset, value =>
    let value := own.or value
    if offset = length then (value, Rib.below (.node own left right))
    else if left.present ∧ key.extract offset 1 = some 0 then
      lookupAt key length left (offset + 1) value
    else if right.present ∧ key.extract offset 1 = some 1 then
      lookupAt key length right (offset + 1) value
    else (value, .absent)

/-- `rib_lookup`. -/
def Rib.lookup (rib : Rib) (key : Key) (length : Nat) : Except PoptrieFault (Option Nat × Rib) :=
  match rib with
  | .absent => .error .nilIndex
  | .node own left right => .ok (Rib.lookupAt key length (.node own left right) 0 none)

/-- The recursion of `rib_map`, with the number of bits that are left: the arguments that the
function is called with. -/
def Rib.mapAt (bit : Nat) : Nat → Rib → Nat → Nat → Option Nat → List (Nat × Option Nat × Rib)
  | 0, node, _, key, value => [(key, node.value.or value, node.below)]
  | n + 1, node, offset, key, value =>
    let value := node.value.or value
    mapAt bit n (node.side false) (offset + 1) key value ++
      mapAt bit n (node.side true) (offset + 1) (key ||| bit >>> offset) value

/-- `rib_map`; `rib` is the RIB of the poptrie. -/
def Rib.map (rib : Rib) (length : Nat) (root : Rib) : List (Nat × Option Nat × Rib) :=
  Rib.mapAt (1 <<< (length - 1)) length (if root.present then root else rib) 0 0 none

namespace Rib

variable {rib rib' : Rib} {key : Key} {value length offset n : Nat}

theorem present_below (node : Rib) : node.below.present = node.hasChildren := by
  rw [below]
  split
  · next h => rw [h, present_of_hasChildren h]
  · next h => exact (Bool.not_eq_true _ ▸ h).symm

theorem below_of_hasChildren {node : Rib} (h : node.hasChildren) : node.below = node := if_pos h

/-- **Adding** is an insertion at the bits of the key. -/
theorem addAt_eq (n : Nat) (rib : Rib) (offset : Nat) : addAt key value n rib offset =
    if n = 0 ∨ offset + n ≤ 128 then .ok (rib.insert value (key.path offset n))
    else .error .invalidState := by
  induction n generalizing rib offset with
  | zero =>
    rfl
  | succ n ih =>
    rw [addAt]
    rcases Nat.lt_or_ge offset 128 with hlt | hge
    · have hcond : (n = 0 ∨ offset + 1 + n ≤ 128) ↔ (n + 1 = 0 ∨ offset + (n + 1) ≤ 128) := by omega
      rw [Key.extract_one hlt, Key.path_succ]
      cases key.bit offset with
      | false =>
        simp only [Bool.toNat_false, ih, hcond]
        split
        · rfl
        · rfl
      | true =>
        simp only [Bool.toNat_true, ih, hcond]
        split
        · rfl
        · rfl
    · rw [Key.extract_eq_none (.inr (by omega)), if_neg (by omega)]

theorem add_eq (rib : Rib) (key : Key) (length value : Nat) : rib.add key length value =
    if length ≤ 128 then .ok (rib.insert value (key.path 0 length)) else .error .invalidState := by
  rw [add, addAt_eq]
  refine if_congr ?_ rfl rfl
  omega

theorem lookupAt_eq (rib : Rib) {length offset n : Nat} (hlength : offset + n = length)
    (h128 : length ≤ 128) (d : Option Nat) :
    (lookupAt key length rib offset d).1 = rib.best d (key.path offset n) := by
  induction rib generalizing offset n d with
  | absent => rw [lookupAt, best_absent]
  | node own left right ihleft ihright =>
    rw [lookupAt]
    cases n with
    | zero =>
      rw [if_pos (show offset = length by omega)]
      rfl
    | succ n =>
      have hbest : (BitTrie.node own left right).best d (key.path offset (n + 1)) =
          ((BitTrie.node own left right).side (key.bit offset)).best (own.or d)
            (key.path (offset + 1) n) := rfl
      rw [if_neg (by omega), Key.extract_one (by omega), hbest]
      cases key.bit offset with
      | false =>
        simp only [Bool.toNat_false, and_true, and_false, if_false, Option.some.injEq,
          zero_ne_one]
        cases hleft : left.present with
        | true =>
          exact ihleft (by omega) _
        | false =>
          rw [if_neg Bool.noConfusion, side, not_present_iff.mp hleft, best_absent]
      | true =>
        simp only [Bool.toNat_true, and_true, and_false, if_false, Option.some.injEq,
          one_ne_zero]
        cases hright : right.present with
        | true =>
          rw [if_pos rfl]
          exact ihright (by omega) _
        | false =>
          rw [if_neg Bool.noConfusion, side, not_present_iff.mp hright, best_absent]

/-- **A look-up in the RIB** gives the last value on the way. -/
theorem lookup_spec {r : Option Nat × Rib} (h : rib.lookup key length = .ok r)
    (h128 : length ≤ 128) : r.1 = rib.best none (key.path 0 length) := by
  cases rib with
  | absent => cases h
  | node own left right =>
    cases h
    exact lookupAt_eq _ (Nat.zero_add length) h128 none

/-- **What `rib_map` calls its function with**: every number of that many bits, the last value on
the way, and what is below. -/
theorem mapAt_eq {bit m : Nat} (hbit : bit = 2 ^ m) (n : Nat) (rib : Rib) {offset : Nat}
    (hoffset : offset + n = m + 1) {k : Nat} (hk : 2 ^ n ∣ k) (d : Option Nat) :
    mapAt bit n rib offset k d =
      (paths n).map fun p => (k + index p, rib.best d p, below (rib.walk p)) := by
  induction n generalizing rib offset k d with
  | zero => simp [mapAt, paths, index, best, walk]
  | succ n ih =>
    have hdvd : 2 ^ n ∣ k := (Nat.pow_dvd_pow 2 (Nat.le_succ n)).trans hk
    have hshift : bit >>> offset = 2 ^ n := by
      rw [hbit, Nat.shiftRight_eq_div_pow, Nat.pow_div (by omega) (by decide)]
      congr 1
      omega
    have hor : k ||| 2 ^ n = k + 2 ^ n := by
      obtain ⟨a, rfl⟩ := hk
      rw [Nat.two_pow_add_eq_or_of_lt (Nat.pow_lt_pow_right (by decide) (Nat.lt_succ_self n))]
    rw [mapAt, hshift, hor, ih _ (by omega) hdvd,
      ih _ (by omega) (Nat.dvd_add hdvd (Nat.dvd_refl _)), paths, map_append, map_map,
      map_map]
    congr 1
    · refine map_congr_left fun p _ => ?_
      simp [index, best, walk]
    · refine map_congr_left fun p hp => ?_
      simp [index, best, walk, mem_paths.mp hp, Nat.add_assoc]

theorem map_eq (rib root : Rib) (n : Nat) (hroot : root.present = false → rib = root) :
    rib.map n root = (paths n).map fun p => (index p, root.best none p, below (root.walk p)) := by
  have hsame : (if root.present then root else rib) = root := by
    split
    · rfl
    · next h => exact hroot (Bool.not_eq_true _ ▸ h)
  rw [map, hsame]
  cases n with
  | zero => simp [mapAt, paths, index, best, walk]
  | succ n =>
    rw [Nat.add_sub_cancel,
      mapAt_eq (Nat.one_shiftLeft n) (n + 1) root (Nat.zero_add _) (Nat.dvd_zero _)]
    simp only [Nat.zero_add]

/-- All values are 16-bit numbers. -/
def Small (rib : Rib) : Prop := ∀ p v, (rib.walk p).value = some v → v < 2 ^ 16

theorem Small.walk (h : Small rib) (p : List Bool) : Small (rib.walk p) := by
  intro q v hv
  rw [← walk_append] at hv
  exact h _ v hv

theorem Small.best (h : Small rib) {d : Option Nat} (hd : ∀ v, d = some v → v < 2 ^ 16)
    (p : List Bool) : ∀ v, rib.best d p = some v → v < 2 ^ 16 := by
  intro v hv
  rcases best_cases rib d p with ⟨-, hbest⟩ | ⟨q, v', -, hvalue, hbest, -⟩
  · exact hd v (hbest.symm.trans hv)
  · rw [hbest] at hv
    cases hv
    exact h q v hvalue

theorem Small.getD_best (h : Small rib) (p : List Bool) : (rib.best none p).getD 0 < 2 ^ 16 := by
  cases hvalue : rib.best none p with
  | none => exact Nat.two_pow_pos 16
  | some v => exact h.best (d := none) nofun p v hvalue

end Rib

end Snabb
