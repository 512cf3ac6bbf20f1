import Snabb.Lib.Lpm.Map
import Mathlib.Data.Finset.Card

/-!
# The 24-8 tables (`lib/lpm/lpm4_248.lua`, `lib/lpm/lpm4_248.c`)

`build` writes the entries of the trie to two arrays. The first has a value for each block of 256
addresses: a key, or the number of a table in the second, with a flag. The second array grows
where it is full, for which `malloc` may have no memory.

`build` does not clear the arrays, and it counts the tables from 1 again. So the values of an
earlier build show through where no prefix of at most 24 bits is written over them, and the
table of a block that no such prefix covers begins with what the table of that number held
before. And with 15 bits the flag is lost from table 32768 on. `Clean` excludes exactly this.
-/

namespace Snabb

open Foundation Prefix LpmTrie List

/-- `keybits`. -/
inductive LpmKeybits where
  | k15
  | k31
deriving DecidableEq, Repr

namespace LpmKeybits

/-- The number of bits of a key. -/
def bits : LpmKeybits → Nat
  | k15 => 15
  | k31 => 31

/-- The size of an array element, a `uint16_t` or a `uint32_t`. -/
def elementSize : LpmKeybits → Nat
  | k15 => 2
  | k31 => 4

end LpmKeybits

/-- `C.malloc`: whether there is memory for a number of bytes. Its argument is an `int`, and for
what that cannot hold there is none. -/
structure Malloc where
  succeeds : Nat → Bool
  int_size : ∀ bytes, 2 ^ 31 ≤ bytes → succeeds bytes = false

/-- `LPM4_248` without the trie that it inherits from. -/
structure Lpm248 where
  keybits : LpmKeybits
  big : Nat → Nat
  lil : Nat → Nat
  lilLength : Nat

/-- The block of an address. -/
def blockOf (ip : BitVec 32) : Nat := (ip >>> 8).toNat

/-- The place of an address in its block. -/
def lowOf (ip : BitVec 32) : Nat := (ip &&& 0xff).toNat

/-- Write a value to `count` elements of an array from `start` on. -/
def fillArray (f : Nat → Nat) (start count v : Nat) : Nat → Nat :=
  fun i => if start ≤ i ∧ i < start + count then v else f i

namespace Lpm248

/-- `self.flag`. -/
def flag (t : Lpm248) : Nat := 2 ^ t.keybits.bits

/-- `self.mask`. -/
def mask (t : Lpm248) : Nat := t.flag - 1

/-- `LPM4_248:new`. -/
def new (keybits : LpmKeybits) : Lpm248 := ⟨keybits, fun _ => 0, fun _ => 0, 1024 * 256⟩

/-- Convert a number to the element type. -/
def convert (t : Lpm248) (v : Nat) : Nat := v % 2 ^ (t.keybits.bits + 1)

/-- A loop that writes to `lpm4_248_bigarry`. -/
def fillBig (t : Lpm248) (start count v : Nat) : Except LpmFault Lpm248 :=
  if start + count ≤ 2 ^ 24 then .ok { t with big := fillArray t.big start count (t.convert v) }
  else .error (.outOfBounds (start + count))

/-- A loop that writes to `lpm4_248_lilarry`. -/
def fillLil (t : Lpm248) (start count v : Nat) : Except LpmFault Lpm248 :=
  if start + count ≤ t.lilLength then
    .ok { t with lil := fillArray t.lil start count (t.convert v) }
  else .error (.outOfBounds (start + count))

/-- `lpm4_248_lilarry_grow`. The `assert` around `C.malloc` lets a null pointer pass, which is a
cdata and so true, and `ffi.fill` then writes to it. -/
def grow (malloc : Malloc) (t : Lpm248) : Except LpmFault Lpm248 :=
  if malloc.succeeds (t.keybits.elementSize * (2 * t.lilLength)) then
    .ok { t with lil := fun i => if i < t.lilLength then t.lil i else 0,
                 lilLength := 2 * t.lilLength }
  else .error .outOfMemory

/-- `self.lpm4_248_bigarry[base] = v`. -/
def setBig (t : Lpm248) (base v : Nat) : Lpm248 :=
  { t with big := Function.update t.big base (t.convert v) }

/-- Of `add`: a block whose value has no flag gets a table. -/
def newTable (malloc : Malloc) (t : Lpm248) (base e taboff : Nat) :
    Except LpmFault (Lpm248 × Nat) := do
  let t ← (if e ≠ 0 then t.fillLil (256 * taboff) 256 e else .ok t)
  let t := t.setBig base (taboff + t.flag)
  let taboff := taboff + 1
  let t ← (if 256 * taboff = t.lilLength then t.grow malloc else .ok t)
  return (t, taboff)

/-- `add`. -/
def add (malloc : Malloc) (s : Lpm248 × Nat) (entry : LpmEntry) :
    Except LpmFault (Lpm248 × Nat) := do
  let (t, taboff) := s
  let base := blockOf entry.ip
  if entry.length < 25 then
    let t ← t.fillBig base (2 ^ (24 - entry.length)) entry.key.toNat
    return (t, taboff)
  else
    let e := t.big base
    let bottom := lowOf entry.ip
    let (t, taboff) ←
      (if t.flag &&& e ≠ t.flag then t.newTable malloc base e taboff else .ok (t, taboff))
    let tab := 256 * (t.big base &&& t.mask)
    let t ← t.fillLil (tab + bottom) (2 ^ (32 - entry.length)) entry.key.toNat
    return (t, taboff)

/-- `LPM4_248:build` on the entries of the trie. -/
def build (malloc : Malloc) (t : Lpm248) (es : List LpmEntry) : Except LpmFault Lpm248 :=
  Prod.fst <$> es.foldlM (add malloc) (t, 1)

/-- `lpm4_248_search` and `lpm4_248_search32`. -/
def search (t : Lpm248) (ip : BitVec 32) : Except LpmFault Nat :=
  let v := t.big (blockOf ip)
  if t.flag < v then
    let i := ((v - t.flag) <<< 8 + lowOf ip) % 2 ^ 32
    if i < t.lilLength then .ok (t.lil i) else .error (.outOfBounds i)
  else .ok v

end Lpm248

/-! ## What a clean build is -/

/-- The blocks with a prefix of more than 24 bits. -/
def longBlocks (es : List LpmEntry) : Finset Nat :=
  ((es.filter fun e => 24 < e.length).map fun e => blockOf e.ip).toFinset

/-- A prefix of at most 24 bits covers the block. -/
def Covered (es : List LpmEntry) (b : Nat) : Prop :=
  ∃ e ∈ es, e.length ≤ 24 ∧ blockOf e.ip ≤ b ∧ b < blockOf e.ip + 2 ^ (24 - e.length)

instance (es : List LpmEntry) (b : Nat) : Decidable (Covered es b) :=
  inferInstanceAs (Decidable (∃ e ∈ es, _))

/-- The number of the table that a block gets. -/
def slotOf (es : List LpmEntry) (b : Nat) : Nat := 1 + ((longBlocks es).filter (· < b)).card

/-- Nothing of an earlier build shows through, and the flag is not lost. -/
structure Lpm248.Clean (t : Lpm248) (es : List LpmEntry) : Prop where
  overwritten : ∀ b < 2 ^ 24, t.big b ≠ 0 → Covered es b
  tables : (longBlocks es).card < 2 ^ t.keybits.bits
  zeroed : ∀ b ∈ longBlocks es, ¬ Covered es b → ∀ x < 256, t.lil (256 * slotOf es b + x) = 0

/-! ## Prefixes and blocks -/

section

variable {p q : Prefix 32} {a : BitVec 32}

theorem blockOf_eq (a : BitVec 32) : blockOf a = a.toNat / 256 := by
  rw [blockOf, BitVec.toNat_ushiftRight, Nat.shiftRight_eq_div_pow]

theorem lowOf_eq (a : BitVec 32) : lowOf a = a.toNat % 256 := by
  exact Nat.and_two_pow_sub_one_eq_mod a.toNat 8

theorem blockOf_lt (a : BitVec 32) : blockOf a < 2 ^ 24 := by
  rw [blockOf_eq]
  omega

theorem lowOf_lt (a : BitVec 32) : lowOf a < 256 := by
  rw [lowOf_eq]
  omega

theorem contains_short (h : p.length ≤ 24) : p.Contains a ↔
    blockOf p.ip ≤ blockOf a ∧ blockOf a < blockOf p.ip + 2 ^ (24 - p.length) := by
  have hsize : p.size = 256 * 2 ^ (24 - p.length) := by
    rw [size, show 32 - p.length = 8 + (24 - p.length) by omega, Nat.pow_add]
  obtain ⟨n, hn⟩ := p.size_dvd
  rw [contains_iff_interval, blockOf_eq, blockOf_eq, hn, hsize]
  generalize 2 ^ (24 - p.length) = N
  rw [Nat.mul_assoc]
  omega

theorem contains_long (h : 24 < p.length) :
    lowOf p.ip + 2 ^ (32 - p.length) ≤ 256 ∧ (p.Contains a ↔ blockOf a = blockOf p.ip ∧
      lowOf p.ip ≤ lowOf a ∧ lowOf a < lowOf p.ip + 2 ^ (32 - p.length)) := by
  have hdvd : p.size ∣ 256 := by
    rw [show 256 = 2 ^ 8 from rfl]
    exact Nat.pow_dvd_pow 2 (by omega)
  have hlow : p.size ∣ lowOf p.ip := by
    rw [lowOf_eq]
    exact (Nat.dvd_mod_iff hdvd).mpr p.size_dvd
  have hfits : lowOf p.ip + p.size ≤ 256 := by
    obtain ⟨n, hn⟩ := hlow
    obtain ⟨k, hk⟩ := hdvd
    have hlt := lowOf_lt p.ip
    have hnk : n < k := by
      by_contra hge
      have := Nat.mul_le_mul_left p.size (Nat.le_of_not_lt hge)
      omega
    calc lowOf p.ip + p.size = p.size * (n + 1) := by rw [hn, Nat.mul_succ]
      _ ≤ p.size * k := Nat.mul_le_mul_left _ hnk
      _ = 256 := hk.symm
  refine ⟨hfits, ?_⟩
  rw [contains_iff_interval, blockOf_eq, blockOf_eq, lowOf_eq, lowOf_eq]
  rw [lowOf_eq] at hfits
  show _ ↔ _ ∧ _ ∧ _ < _ + p.size
  omega

/-- Strings of one block are in the same prefixes of at most 24 bits. -/
theorem contains_congr {b : BitVec 32} (h : p.length ≤ 24) (hab : blockOf a = blockOf b) :
    p.Contains a ↔ p.Contains b := by
  rw [contains_short h, contains_short h, hab]

end

/-! ## A build -/

/-- The key of the last prefix that contains the address, or the value `z`. -/
def valueAt (ns : List (Prefix 32 × LpmKey)) (z : Nat) (a : BitVec 32) : Nat :=
  (lastMatch ns a).elim z fun k => k.1.toNat

/-- The arrays have the sizes that `build` relies on. -/
structure Lpm248.Sized (t : Lpm248) : Prop where
  tables : 256 ∣ t.lilLength
  pos : 256 < t.lilLength
  int_size : t.keybits.elementSize * t.lilLength < 2 ^ 31
  behind : ∀ i, t.lilLength ≤ i → t.lil i = 0

/-- What is in the arrays when the build that began with `t₀` has written the entries of `done`,
which are a part of `es`, and the blocks of `tb` have tables. -/
structure Lpm248.Building (t₀ : Lpm248) (es : List LpmEntry) (done : List (Prefix 32 × LpmKey))
    (tb : Finset Nat) (t : Lpm248) (taboff : Nat) : Prop where
  keybits : t.keybits = t₀.keybits
  sized : t.Sized
  sub : tb ⊆ longBlocks es
  taboff_eq : taboff = 1 + tb.card
  taboff_lt : 256 * taboff < t.lilLength
  slot_lt : ∀ b ∈ tb, slotOf es b < taboff
  unused : ∀ i, 256 * taboff ≤ i → t.lil i = t₀.lil i
  tables : ∀ a, blockOf a ∈ tb → t.big (blockOf a) = t.flag + slotOf es (blockOf a) ∧
    t.lil (256 * slotOf es (blockOf a) + lowOf a) = valueAt done 0 a
  blocks : ∀ a, blockOf a ∉ tb → t.big (blockOf a) = valueAt done (t₀.big (blockOf a)) a

section

variable {ns done rest : List (Prefix 32 × LpmKey)} {n : Prefix 32 × LpmKey} {p : Prefix 32}
  {key : LpmKey} {a : BitVec 32} {b z : Nat} {t t₀ : Lpm248} {taboff : Nat}
  {es : List LpmEntry} {tb : Finset Nat}

theorem valueAt_concat : valueAt (done ++ [n]) z a =
    if n.1.Contains a then n.2.1.toNat else valueAt done z a := by
  rw [valueAt, lastMatch_concat]
  split_ifs <;> rfl

theorem mem_longBlocks : b ∈ longBlocks (ns.map entryFor) ↔
    ∃ n ∈ ns, 24 < n.1.length ∧ blockOf n.1.ip = b := by
  rw [longBlocks, mem_toFinset, mem_map]
  constructor
  · rintro ⟨e, he, rfl⟩
    obtain ⟨he, hlong⟩ := mem_filter.mp he
    obtain ⟨n, hn, rfl⟩ := mem_map.mp he
    exact ⟨n, hn, of_decide_eq_true hlong, rfl⟩
  · rintro ⟨n, hn, hlong, rfl⟩
    exact ⟨entryFor n, mem_filter.mpr ⟨mem_map_of_mem hn, decide_eq_true hlong⟩, rfl⟩

theorem covered_iff : Covered (ns.map entryFor) (blockOf a) ↔
    ∃ n ∈ ns, n.1.length ≤ 24 ∧ n.1.Contains a := by
  constructor
  · rintro ⟨e, he, hshort, hblock⟩
    obtain ⟨n, hn, rfl⟩ := mem_map.mp he
    exact ⟨n, hn, hshort, (contains_short hshort).mpr hblock⟩
  · rintro ⟨n, hn, hshort, ha⟩
    exact ⟨entryFor n, mem_map_of_mem hn, hshort, (contains_short hshort).mp ha⟩

theorem longBlocks_concat_short (h : n.1.length ≤ 24) :
    longBlocks ((done ++ [n]).map entryFor) = longBlocks (done.map entryFor) := by
  ext b
  rw [mem_longBlocks, mem_longBlocks]
  constructor
  · rintro ⟨m, hm, hlong, hb⟩
    rcases mem_append.mp hm with hm | hm
    · exact ⟨m, hm, hlong, hb⟩
    · rw [mem_singleton.mp hm] at hlong
      omega
  · rintro ⟨m, hm, hlong, hb⟩
    exact ⟨m, mem_append_left _ hm, hlong, hb⟩

theorem longBlocks_concat_long (h : 24 < n.1.length) :
    longBlocks ((done ++ [n]).map entryFor) =
      insert (blockOf n.1.ip) (longBlocks (done.map entryFor)) := by
  ext b
  rw [Finset.mem_insert, mem_longBlocks, mem_longBlocks]
  constructor
  · rintro ⟨m, hm, hlong, hb⟩
    rcases mem_append.mp hm with hm | hm
    · exact .inr ⟨m, hm, hlong, hb⟩
    · rw [mem_singleton.mp hm] at hb
      exact .inl hb.symm
  · rintro (rfl | ⟨m, hm, hlong, hb⟩)
    · exact ⟨n, mem_append_right _ (mem_singleton_self n), h, rfl⟩
    · exact ⟨m, mem_append_left _ hm, hlong, hb⟩

variable {es : List LpmEntry} {c : Nat}

theorem slotOf_lt (hb : b ∈ longBlocks es) (hlt : b < c) : slotOf es b < slotOf es c := by
  refine Nat.add_lt_add_left (Finset.card_lt_card ⟨fun d hd => ?_, fun hsub => ?_⟩) 1
  · obtain ⟨hd, hdb⟩ := Finset.mem_filter.mp hd
    exact Finset.mem_filter.mpr ⟨hd, hdb.trans hlt⟩
  · exact absurd (Finset.mem_filter.mp (hsub (Finset.mem_filter.mpr ⟨hb, hlt⟩))).2 (lt_irrefl b)

theorem slotOf_ne (hb : b ∈ longBlocks es) (hc : c ∈ longBlocks es)
    (hne : b ≠ c) : slotOf es b ≠ slotOf es c := by
  rcases Nat.lt_or_gt_of_ne hne with hlt | hlt
  · exact (slotOf_lt hb hlt).ne
  · exact (slotOf_lt hc hlt).ne'

section

variable (hsorted : (done ++ n :: rest).Pairwise fun m n => m.1.Before n.1)
include hsorted

/-- In the order of the addresses, a block that gets a table now gets the one that `taboff`
counts. -/
theorem slotOf_next
    (hlong : 24 < n.1.length) (hnew : blockOf n.1.ip ∉ longBlocks (done.map entryFor)) :
    slotOf ((done ++ n :: rest).map entryFor) (blockOf n.1.ip) =
      1 + (longBlocks (done.map entryFor)).card := by
  obtain ⟨-, hrest, hbefore⟩ := pairwise_append.mp hsorted
  have hle : ∀ {p q : Prefix 32}, p.Before q → blockOf p.ip ≤ blockOf q.ip := by
    intro p q hpq
    rw [blockOf_eq, blockOf_eq]
    refine Nat.div_le_div_right ?_
    rcases hpq with hlt | ⟨heq, -⟩
    · exact (BitVec.lt_def.mp hlt).le
    · rw [heq]
  rw [slotOf]
  congr 2
  ext b
  rw [Finset.mem_filter]
  constructor
  · rintro ⟨hb, hlt⟩
    obtain ⟨m, hm, hmlong, rfl⟩ := mem_longBlocks.mp hb
    rcases mem_append.mp hm with hm | hm
    · exact mem_longBlocks.mpr ⟨m, hm, hmlong, rfl⟩
    · rcases mem_cons.mp hm with rfl | hm
      · exact absurd hlt (lt_irrefl _)
      · exact absurd (hle ((pairwise_cons.mp hrest).1 m hm)) (by omega)
  · intro hb
    obtain ⟨m, hm, hmlong, rfl⟩ := mem_longBlocks.mp hb
    refine ⟨mem_longBlocks.mpr ⟨m, mem_append_left _ hm, hmlong, rfl⟩, ?_⟩
    refine lt_of_le_of_ne (hle (hbefore m hm n mem_cons_self)) fun heq => hnew ?_
    exact heq ▸ hb

theorem not_mem_longBlocks (hshort : n.1.length ≤ 24) (ha : n.1.Contains a) :
    blockOf a ∉ longBlocks (done.map entryFor) := by
  intro hmem
  obtain ⟨m, hm, hlong, hblock⟩ := mem_longBlocks.mp hmem
  have hbefore := (pairwise_append.mp hsorted).2.2 m hm n mem_cons_self
  have hcovers : n.1.Covers m.1 := ⟨by omega, (contains_congr hshort hblock).mpr ha⟩
  exact (hbefore.trans (hcovers.before hbefore.ne.symm)).ne rfl

end

variable {start count v i : Nat} {f : Nat → Nat}

theorem fillArray_of_mem (h : start ≤ i)
    (h' : i < start + count) : fillArray f start count v i = v := if_pos ⟨h, h'⟩

theorem fillArray_of_not_mem
    (h : ¬ (start ≤ i ∧ i < start + count)) : fillArray f start count v i = f i := if_neg h

theorem slotOf_le_card (hb : b ∈ longBlocks es) : slotOf es b ≤ (longBlocks es).card := by
  have hlt : ((longBlocks es).filter (· < b)).card < (longBlocks es).card :=
    Finset.card_lt_card ⟨Finset.filter_subset _ _, fun hsub =>
      absurd (Finset.mem_filter.mp (hsub hb)).2 (lt_irrefl b)⟩
  rw [slotOf]
  omega

theorem valueAt_congr {a' : BitVec 32} (h : ∀ m ∈ done, (m.1.Contains a ↔ m.1.Contains a')) :
    valueAt done z a = valueAt done z a' := by
  induction done using List.reverseRecOn with
  | nil => rfl
  | append_singleton done n ih =>
    rw [valueAt_concat, valueAt_concat,
      ih fun m hm => h m (mem_append_left _ hm)]
    simp only [h n (mem_append_right _ (mem_singleton_self n))]

namespace Lpm248

theorem flag_and_of_lt (h : z < t.flag) : t.flag &&& z ≠ t.flag := by
  rw [flag, Nat.and_comm, Nat.and_two_pow, Nat.testBit_lt_two_pow h]
  simpa using (Nat.two_pow_pos _).ne

theorem flag_and_add (h : z < t.flag) : t.flag &&& (t.flag + z) = t.flag := by
  rw [flag, Nat.and_comm, Nat.and_two_pow, Nat.testBit_two_pow_add_eq, Nat.testBit_lt_two_pow h]
  simp

theorem add_and_mask (h : z < t.flag) : (t.flag + z) &&& t.mask = z := by
  rw [mask, flag, Nat.and_two_pow_sub_one_eq_mod, Nat.add_mod_left]
  exact Nat.mod_eq_of_lt h

theorem convert_of_lt (h : z < 2 * t.flag) : t.convert z = z := by
  refine Nat.mod_eq_of_lt ?_
  rwa [Nat.pow_succ, Nat.mul_comm]

/-- Growing keeps the contents. -/
theorem grow_ok (malloc : Malloc) (h : t.Sized) :
    (∃ t', t.grow malloc = .ok t' ∧ t'.Sized ∧ t'.big = t.big ∧
      t'.lil = t.lil ∧ t'.keybits = t.keybits ∧ t'.lilLength = 2 * t.lilLength) ∨
    t.grow malloc = .error .outOfMemory := by
  rw [grow]
  by_cases hmem : malloc.succeeds (t.keybits.elementSize * (2 * t.lilLength)) = true
  · rw [if_pos hmem]
    have hlil : (fun i => if i < t.lilLength then t.lil i else 0) = t.lil := by
      funext i
      split_ifs with hi
      · rfl
      · exact (h.behind i (Nat.le_of_not_lt hi)).symm
    have hsize : t.keybits.elementSize * (2 * t.lilLength) < 2 ^ 31 := by
      by_contra hge
      rw [malloc.int_size _ (Nat.le_of_not_lt hge)] at hmem
      cases hmem
    refine .inl ⟨_, rfl, ⟨?_, ?_, hsize, fun i hi => ?_⟩, rfl, hlil, rfl, rfl⟩
    · exact Dvd.dvd.mul_left h.tables 2
    · show 256 < 2 * t.lilLength
      have := h.pos
      omega
    · rw [hlil]
      refine h.behind i (le_trans ?_ hi)
      show t.lilLength ≤ 2 * t.lilLength
      omega
  · exact .inr (if_neg hmem)

theorem fillLil_ok (start count : Nat) {v : Nat} (h : t.Sized) (hin : start + count ≤ t.lilLength)
    (hv : v < 2 * t.flag) : ∃ t', t.fillLil start count v = .ok t' ∧ t'.Sized ∧ t'.big = t.big ∧
      t'.lil = fillArray t.lil start count v ∧ t'.keybits = t.keybits ∧
      t'.lilLength = t.lilLength := by
  refine ⟨_, if_pos hin, ⟨h.tables, h.pos, h.int_size, fun i hi => ?_⟩, rfl, ?_, rfl, rfl⟩
  · have hi' : t.lilLength ≤ i := hi
    exact (fillArray_of_not_mem (by omega)).trans (h.behind i hi)
  · show fillArray t.lil start count (t.convert v) = _
    rw [convert_of_lt hv]

/-- **A prefix of at most 24 bits is written to its blocks.** -/
theorem Building.short (malloc : Malloc) (h : Building t₀ es done tb t taboff) (hshort : n.1.length ≤ 24)
    (hkey : n.2.1.toNat < t.flag) (htb : ∀ a, n.1.Contains a → blockOf a ∉ tb) :
    ∃ t', add malloc (t, taboff) (entryFor n) = .ok (t', taboff) ∧
      Building t₀ es (done ++ [n]) tb t' taboff := by
  have hin : blockOf n.1.ip + 2 ^ (24 - n.1.length) ≤ 2 ^ 24 := by
    have hsize : n.1.size = 256 * 2 ^ (24 - n.1.length) := by
      rw [size, show 32 - n.1.length = 8 + (24 - n.1.length) by omega, Nat.pow_add]
    obtain ⟨k, hk⟩ : 2 ^ (24 - n.1.length) ∣ 2 ^ 24 := Nat.pow_dvd_pow 2 (by omega)
    obtain ⟨j, hj⟩ : 2 ^ (24 - n.1.length) ∣ blockOf n.1.ip := by
      obtain ⟨j, hj⟩ := n.1.size_dvd
      refine ⟨j, ?_⟩
      rw [blockOf_eq, hj, hsize, Nat.mul_assoc, Nat.mul_div_cancel_left _ (by decide)]
    have hlt : j < k := by
      by_contra hge
      have := Nat.mul_le_mul_left (2 ^ (24 - n.1.length)) (Nat.le_of_not_lt hge)
      have := blockOf_lt n.1.ip
      omega
    calc blockOf n.1.ip + 2 ^ (24 - n.1.length) = 2 ^ (24 - n.1.length) * (j + 1) := by
          rw [hj, Nat.mul_succ]
      _ ≤ 2 ^ (24 - n.1.length) * k := Nat.mul_le_mul_left _ hlt
      _ = 2 ^ 24 := hk.symm
  have hfill : t.fillBig (blockOf n.1.ip) (2 ^ (24 - n.1.length)) n.2.1.toNat =
      .ok { t with big := fillArray t.big (blockOf n.1.ip) (2 ^ (24 - n.1.length)) n.2.1.toNat } := by
    rw [fillBig, if_pos hin, convert_of_lt (by omega)]
  refine ⟨{ t with big := fillArray t.big (blockOf n.1.ip) (2 ^ (24 - n.1.length)) n.2.1.toNat },
    ?_, h.keybits, ⟨h.sized.tables, h.sized.pos, h.sized.int_size, h.sized.behind⟩, h.sub,
    h.taboff_eq, h.taboff_lt, h.slot_lt, h.unused, fun a ha => ?_, fun a ha => ?_⟩
  · have hlt : (entryFor n).length < 25 := Nat.lt_succ_of_le hshort
    refine (if_pos hlt).trans ?_
    exact bind_of_eq_ok hfill
  · have hout : ¬ n.1.Contains a := fun hc => htb a hc ha
    have hsame := fillArray_of_not_mem (f := t.big) (v := n.2.1.toNat)
      (fun hc => hout ((contains_short hshort).mpr hc))
    obtain ⟨hbig, hlil⟩ := h.tables a ha
    exact ⟨hsame.trans hbig, hlil.trans (by rw [valueAt_concat, if_neg hout])⟩
  · rw [valueAt_concat]
    by_cases hc : n.1.Contains a
    · obtain ⟨hle, hlt⟩ := (contains_short hshort).mp hc
      rw [if_pos hc]
      exact fillArray_of_mem hle hlt
    · rw [if_neg hc, ← h.blocks a ha]
      exact fillArray_of_not_mem (fun hin => hc ((contains_short hshort).mpr hin))

/-- **A longer prefix is written to the table of its block.** -/
theorem Building.write (h : Building t₀ es done tb t taboff) (hlong : 24 < n.1.length)
    (hkey : n.2.1.toNat < t.flag) (hmem : blockOf n.1.ip ∈ tb)
    (htables : (longBlocks es).card < t.flag) :
    ∃ t', t.fillLil (256 * (t.big (blockOf n.1.ip) &&& t.mask) + lowOf n.1.ip)
        (2 ^ (32 - n.1.length)) n.2.1.toNat = .ok t' ∧
      Building t₀ es (done ++ [n]) tb t' taboff := by
  obtain ⟨hfits, -⟩ := contains_long (a := 0) hlong
  have hslot : slotOf es (blockOf n.1.ip) < t.flag :=
    (slotOf_le_card (h.sub hmem)).trans_lt htables
  have hbefore := h.slot_lt _ hmem
  have hroom := h.taboff_lt
  rw [(h.tables n.1.ip hmem).1, add_and_mask hslot]
  generalize hs : slotOf es (blockOf n.1.ip) = s at *
  obtain ⟨t', hfill, hsized, hbig, hlil, hkeybits, hlength⟩ :=
    fillLil_ok (v := n.2.1.toNat) (256 * s + lowOf n.1.ip) (2 ^ (32 - n.1.length)) h.sized
      (by omega) (by omega)
  refine ⟨t', hfill, hkeybits.trans h.keybits, hsized, h.sub, h.taboff_eq, hlength ▸ hroom,
    h.slot_lt, fun i hi => ?_, fun a ha => ?_, fun a ha => ?_⟩
  · rw [hlil, fillArray_of_not_mem (by omega), h.unused i hi]
  · obtain ⟨hbig', hlil'⟩ := h.tables a ha
    have hlow := lowOf_lt a
    have hflag : t'.flag = t.flag := by rw [flag, flag, hkeybits]
    have hin := (contains_long (a := a) hlong).2
    rw [hbig, hflag, hlil, valueAt_concat]
    refine ⟨hbig', ?_⟩
    by_cases hblock : blockOf a = blockOf n.1.ip
    · have hsa : slotOf es (blockOf a) = s := by rw [hblock, hs]
      by_cases hlow' : lowOf n.1.ip ≤ lowOf a ∧ lowOf a < lowOf n.1.ip + 2 ^ (32 - n.1.length)
      · rw [if_pos (hin.mpr ⟨hblock, hlow'⟩), fillArray_of_mem (by omega) (by omega)]
      · rw [if_neg fun hc => hlow' (hin.mp hc).2, fillArray_of_not_mem (by omega), hlil']
    · have hne := slotOf_ne (h.sub ha) (h.sub hmem) hblock
      rw [if_neg fun hc => hblock (hin.mp hc).1, fillArray_of_not_mem (by omega), hlil']
  · have hout : ¬ n.1.Contains a := fun hc =>
      ha (((contains_long hlong).2.mp hc).1 ▸ hmem)
    rw [hbig, h.blocks a ha, valueAt_concat, if_neg hout]

/-- The next table is filled with the value of the block, or is empty as that is. -/
theorem Building.fillTable (h : Building t₀ es done tb t taboff) (he : z < t.flag)
    (hzero : z = 0 → ∀ x < 256, t₀.lil (256 * taboff + x) = 0) :
    ∃ t₁, (if z ≠ 0 then t.fillLil (256 * taboff) 256 z else .ok t) = .ok t₁ ∧ t₁.Sized ∧
      t₁.big = t.big ∧ t₁.keybits = t.keybits ∧ t₁.lilLength = t.lilLength ∧
      (∀ i, ¬ (256 * taboff ≤ i ∧ i < 256 * taboff + 256) → t₁.lil i = t.lil i) ∧
      ∀ x < 256, t₁.lil (256 * taboff + x) = z := by
  have hroom := h.taboff_lt
  obtain ⟨k, hk⟩ := h.sized.tables
  by_cases hz : z = 0
  · rw [if_neg (not_not.mpr hz)]
    refine ⟨t, rfl, h.sized, rfl, rfl, rfl, fun _ _ => rfl, fun x hx => ?_⟩
    rw [h.unused _ (Nat.le_add_right _ _), hz]
    exact hzero hz x hx
  · rw [if_pos hz]
    obtain ⟨t₁, hfill, hsized, hbig, hlil, hkeybits, hlength⟩ :=
      fillLil_ok (256 * taboff) 256 h.sized (by omega) (show z < 2 * t.flag by omega)
    refine ⟨t₁, hfill, hsized, hbig, hkeybits, hlength, fun i hi => ?_, fun x hx => ?_⟩
    · rw [hlil, fillArray_of_not_mem hi]
    · rw [hlil, fillArray_of_mem (by omega) (by omega)]

/-- **A block gets a table, filled with its value**, or there is no memory for more tables. -/
theorem Building.newTable (malloc : Malloc) (h : Building t₀ es done tb t taboff) (hb : b ∉ tb)
    (hmem : b ∈ longBlocks es) (hslot : slotOf es b = taboff) (hlt : taboff < t.flag)
    (hvalue : ∀ a, blockOf a = b → t.big b = valueAt done 0 a) (he : t.big b < t.flag)
    (hzero : t.big b = 0 → ∀ x < 256, t₀.lil (256 * taboff + x) = 0) :
    (∃ t', t.newTable malloc b (t.big b) taboff = .ok (t', taboff + 1) ∧
      Building t₀ es done (insert b tb) t' (taboff + 1)) ∨
    t.newTable malloc b (t.big b) taboff = .error .outOfMemory := by
  have hroom := h.taboff_lt
  obtain ⟨k, hk⟩ := h.sized.tables
  obtain ⟨t₁, hfill, hsized₁, hbig₁, hkeybits₁, hlength₁, hout₁, hin₁⟩ := h.fillTable he hzero
  have hflag₁ : t₁.flag = t.flag := by rw [flag, flag, hkeybits₁]
  generalize ht₂ : t₁.setBig b (taboff + t₁.flag) = t₂
  have hsized₂ : t₂.Sized := by
    rw [← ht₂]
    exact ⟨hsized₁.tables, hsized₁.pos, hsized₁.int_size, hsized₁.behind⟩
  have hbig₂ : t₂.big = Function.update t.big b (t.flag + taboff) := by
    rw [← ht₂, setBig, convert_of_lt (by omega), hflag₁, hbig₁, Nat.add_comm]
  have hlil₂ : t₂.lil = t₁.lil := by rw [← ht₂, setBig]
  have hkeybits₂ : t₂.keybits = t.keybits := by rw [← hkeybits₁, ← ht₂, setBig]
  have hlength₂ : t₂.lilLength = t.lilLength := by rw [← hlength₁, ← ht₂, setBig]
  -- what holds whether the array grows or not
  have hbuilt : ∀ t₃ : Lpm248, t₃.Sized → t₃.big = t₂.big → t₃.lil = t₂.lil →
      t₃.keybits = t₂.keybits → 256 * (taboff + 1) < t₃.lilLength →
      Building t₀ es done (insert b tb) t₃ (taboff + 1) := by
    intro t₃ hsized₃ hbig₃ hlil₃ hkeybits₃ hroom₃
    have hflag₃ : t₃.flag = t.flag := by rw [flag, flag, hkeybits₃, hkeybits₂]
    refine ⟨hkeybits₃.trans (hkeybits₂.trans h.keybits), hsized₃,
      Finset.insert_subset hmem h.sub, ?_, hroom₃, fun c hc => ?_, fun i hi => ?_, fun a ha => ?_,
      fun a ha => ?_⟩
    · rw [Finset.card_insert_of_notMem hb, h.taboff_eq]
      omega
    · rcases Finset.mem_insert.mp hc with rfl | hc
      · omega
      · exact (h.slot_lt c hc).trans (Nat.lt_succ_self _)
    · rw [hlil₃, hlil₂, hout₁ i (by omega), h.unused i (by omega)]
    · have hlow := lowOf_lt a
      rw [hbig₃, hbig₂, hlil₃, hlil₂, hflag₃]
      by_cases heq : blockOf a = b
      · rw [heq, Function.update_self, hslot, hin₁ _ hlow]
        exact ⟨rfl, hvalue a heq⟩
      · have ha' := (Finset.mem_insert.mp ha).resolve_left heq
        have hbefore := h.slot_lt _ ha'
        rw [Function.update_of_ne heq, hout₁ _ (by omega)]
        exact h.tables a ha'
    · rw [Finset.mem_insert, not_or] at ha
      rw [hbig₃, hbig₂, Function.update_of_ne ha.1, h.blocks a ha.2]
  have heq : t.newTable malloc b (t.big b) taboff = (do
      let t₃ ← (if 256 * (taboff + 1) = t₂.lilLength then t₂.grow malloc else .ok t₂)
      return (t₃, taboff + 1)) := by
    rw [Lpm248.newTable, bind_of_eq_ok hfill, ← ht₂]
  rw [heq]
  by_cases hgrow : 256 * (taboff + 1) = t₂.lilLength
  · rw [if_pos hgrow]
    rcases grow_ok malloc hsized₂ with
      ⟨t₃, hok, hsized₃, hbig₃, hlil₃, hkeybits₃, hlength₃⟩ | hfault
    · refine .inl ⟨t₃, bind_of_eq_ok hok, hbuilt t₃ hsized₃ hbig₃ hlil₃ hkeybits₃ ?_⟩
      omega
    · exact .inr (bind_of_eq_error hfault)
  · rw [if_neg hgrow]
    refine .inl ⟨t₂, rfl, hbuilt t₂ hsized₂ rfl rfl rfl ?_⟩
    omega

/-- In a block without a prefix of more than 24 bits so far, all addresses are alike. -/
theorem contains_congr_done {a' : BitVec 32} (hb : blockOf a' ∉ longBlocks (done.map entryFor))
    (hab : blockOf a = blockOf a') {m : Prefix 32 × LpmKey} (hm : m ∈ done) :
    m.1.Contains a ↔ m.1.Contains a' := by
  by_cases hshort : m.1.length ≤ 24
  · exact contains_congr hshort hab
  · have hlong : 24 < m.1.length := by omega
    have hnot : ∀ c, blockOf c = blockOf a' → ¬ m.1.Contains c := fun c hc hmc =>
      hb (mem_longBlocks.mpr ⟨m, hm, hlong, ((contains_long hlong).2.mp hmc).1.symm.trans hc⟩)
    exact ⟨fun h => absurd h (hnot a hab), fun h => absurd h (hnot a' rfl)⟩

theorem valueAt_lt (hkeys : ∀ m ∈ done, m.2.1.toNat < b) (hz : z < b) : valueAt done z a < b := by
  induction done using List.reverseRecOn with
  | nil => exact hz
  | append_singleton done m ih =>
    rw [valueAt_concat]
    split_ifs
    · exact hkeys m (mem_append_right _ (mem_singleton_self m))
    · exact ih fun m hm => hkeys m (mem_append_left _ hm)

theorem Building.value_clean
    (h : Building t₀ ((done ++ n :: rest).map entryFor) done (longBlocks (done.map entryFor)) t
      taboff)
    (hclean : t₀.Clean ((done ++ n :: rest).map entryFor))
    (hsorted : (done ++ n :: rest).Pairwise fun m n => m.1.Before n.1) (hlong : 24 < n.1.length)
    (hnew : blockOf n.1.ip ∉ longBlocks (done.map entryFor)) :
    (∀ a, blockOf a = blockOf n.1.ip → t.big (blockOf n.1.ip) = valueAt done 0 a) ∧
      (t.big (blockOf n.1.ip) = 0 → (∀ m ∈ done, 0 < m.2.1.toNat) →
        ∀ x < 256, t₀.lil (256 * taboff + x) = 0) := by
  have huncovered : (∀ m ∈ done, ¬ m.1.Contains n.1.ip) →
      ¬ Covered ((done ++ n :: rest).map entryFor) (blockOf n.1.ip) := by
    intro hnone hcovered
    obtain ⟨m, hm, hshort, hmn⟩ := covered_iff.mp hcovered
    rcases mem_append.mp hm with hm | hm
    · exact hnone m hm hmn
    · rcases mem_cons.mp hm with rfl | hm
      · omega
      · have hbefore := (pairwise_cons.mp (pairwise_append.mp hsorted).2.1).1 m hm
        have hcovers : m.1.Covers n.1 := ⟨by omega, hmn⟩
        exact (hbefore.trans (hcovers.before hbefore.ne.symm)).ne rfl
  have hsame : ∀ z a, blockOf a = blockOf n.1.ip → valueAt done z a = valueAt done z n.1.ip :=
    fun z a ha => valueAt_congr fun m hm => contains_congr_done hnew ha hm
  have hvalue : t.big (blockOf n.1.ip) = valueAt done 0 n.1.ip := by
    rw [h.blocks n.1.ip hnew, valueAt, valueAt]
    cases hlast : lastMatch done n.1.ip with
    | some key => rfl
    | none =>
      by_contra hne
      exact huncovered (lastMatch_eq_none.mp hlast) (hclean.overwritten _ (blockOf_lt _) hne)
  refine ⟨fun a ha => hvalue.trans (hsame 0 a ha).symm, fun hzero hkeys x hx => ?_⟩
  have hlast : lastMatch done n.1.ip = none := by
    rw [hvalue, valueAt] at hzero
    cases hlast : lastMatch done n.1.ip with
    | none => rfl
    | some key =>
      rw [hlast] at hzero
      have hkey : key.1.toNat = (0 : BitVec 32).toNat := hzero
      exact absurd (BitVec.eq_of_toNat_eq hkey) key.2
  have hmem : blockOf n.1.ip ∈ longBlocks ((done ++ n :: rest).map entryFor) :=
    mem_longBlocks.mpr ⟨n, mem_append_right _ mem_cons_self, hlong, rfl⟩
  rw [h.taboff_eq, ← slotOf_next hsorted hlong hnew]
  exact hclean.zeroed _ hmem (huncovered (lastMatch_eq_none.mp hlast)) x hx

/-- **One entry of a clean build.** -/
theorem Building.entry (malloc : Malloc)
    (h : Building t₀ ((done ++ n :: rest).map entryFor) done (longBlocks (done.map entryFor)) t
      taboff)
    (hclean : t₀.Clean ((done ++ n :: rest).map entryFor))
    (hsorted : (done ++ n :: rest).Pairwise fun m n => m.1.Before n.1)
    (hkeys : ∀ m ∈ done ++ n :: rest, m.2.1.toNat < t₀.flag) :
    (∃ t' taboff', add malloc (t, taboff) (entryFor n) = .ok (t', taboff') ∧
      Building t₀ ((done ++ n :: rest).map entryFor) (done ++ [n])
        (longBlocks ((done ++ [n]).map entryFor)) t' taboff') ∨
    add malloc (t, taboff) (entryFor n) = .error .outOfMemory := by
  have hflag : t.flag = t₀.flag := by rw [flag, flag, h.keybits]
  have hkey : n.2.1.toNat < t.flag :=
    hflag ▸ hkeys n (mem_append_right _ mem_cons_self)
  by_cases hshort : n.1.length ≤ 24
  · obtain ⟨t', hadd, hbuilding⟩ := h.short malloc hshort hkey
      fun a ha => not_mem_longBlocks hsorted hshort ha
    rw [longBlocks_concat_short hshort]
    exact .inl ⟨t', taboff, hadd, hbuilding⟩
  have hlong : 24 < n.1.length := by omega
  have htables : (longBlocks ((done ++ n :: rest).map entryFor)).card < t.flag :=
    hflag ▸ hclean.tables
  have hmem : blockOf n.1.ip ∈ longBlocks ((done ++ n :: rest).map entryFor) :=
    mem_longBlocks.mpr ⟨n, mem_append_right _ mem_cons_self, hlong, rfl⟩
  rw [longBlocks_concat_long hlong]
  have hadd : add malloc (t, taboff) (entryFor n) = (do
      let (t, taboff) ← (if t.flag &&& t.big (blockOf n.1.ip) ≠ t.flag then
        t.newTable malloc (blockOf n.1.ip) (t.big (blockOf n.1.ip)) taboff else .ok (t, taboff))
      let t ← t.fillLil (256 * (t.big (blockOf n.1.ip) &&& t.mask) + lowOf n.1.ip)
        (2 ^ (32 - n.1.length)) n.2.1.toNat
      return (t, taboff)) := by
    exact if_neg (show ¬ (entryFor n).length < 25 from by show ¬ n.1.length < 25; omega)
  by_cases hnew : blockOf n.1.ip ∈ longBlocks (done.map entryFor)
  · have hflagged : t.flag &&& t.big (blockOf n.1.ip) = t.flag := by
      rw [(h.tables n.1.ip hnew).1]
      exact flag_and_add ((slotOf_le_card hmem).trans_lt htables)
    obtain ⟨t', hwrite, hbuilding⟩ := h.write hlong hkey hnew htables
    rw [Finset.insert_eq_of_mem hnew]
    refine .inl ⟨t', taboff, ?_, hbuilding⟩
    rw [hadd, if_neg (not_not.mpr hflagged)]
    exact bind_of_eq_ok hwrite
  · obtain ⟨hvalue, hzero⟩ := h.value_clean hclean hsorted hlong hnew
    have hslot := slotOf_next hsorted hlong hnew
    rw [← h.taboff_eq] at hslot
    have he : t.big (blockOf n.1.ip) < t.flag := by
      rw [hvalue n.1.ip rfl]
      exact valueAt_lt (fun m hm => hflag ▸ hkeys m (mem_append_left _ hm))
        (Nat.two_pow_pos _)
    have hpos : ∀ m ∈ done, 0 < m.2.1.toNat := fun m _ =>
      Nat.pos_of_ne_zero fun hz => m.2.2 (BitVec.toNat_eq.mpr hz)
    have hlt : taboff < t.flag := hslot ▸ (slotOf_le_card hmem).trans_lt htables
    rw [hadd, if_pos (flag_and_of_lt he)]
    rcases h.newTable malloc hnew hmem hslot hlt hvalue he fun hz => hzero hz hpos with
      ⟨t₁, hok, hbuilding₁⟩ | hfault
    · have hflag₁ : t₁.flag = t.flag := by rw [flag, flag, hbuilding₁.keybits, h.keybits]
      obtain ⟨t', hwrite, hbuilding⟩ := hbuilding₁.write hlong (hflag₁ ▸ hkey)
        (Finset.mem_insert_self _ _) (hflag₁ ▸ htables)
      exact .inl ⟨t', taboff + 1, (bind_of_eq_ok hok).trans (bind_of_eq_ok hwrite), hbuilding⟩
    · exact .inr (bind_of_eq_error hfault)

/-- **A clean build writes all entries, or has no memory for its tables.** -/
theorem build_spec (malloc : Malloc) (hsized : t₀.Sized) (hclean : t₀.Clean (ns.map entryFor))
    (hsorted : ns.Pairwise fun m n => m.1.Before n.1) (hkeys : ∀ m ∈ ns, m.2.1.toNat < t₀.flag) :
    (∃ t' taboff, t₀.build malloc (ns.map entryFor) = .ok t' ∧
      Building t₀ (ns.map entryFor) ns (longBlocks (ns.map entryFor)) t' taboff) ∨
    t₀.build malloc (ns.map entryFor) = .error .outOfMemory := by
  have hloop : ∀ rest done t taboff, done ++ rest = ns →
      Building t₀ (ns.map entryFor) done (longBlocks (done.map entryFor)) t taboff →
      (∃ t' taboff', (rest.map entryFor).foldlM (Lpm248.add malloc) (t, taboff) =
          .ok (t', taboff') ∧
        Building t₀ (ns.map entryFor) ns (longBlocks (ns.map entryFor)) t' taboff') ∨
      (rest.map entryFor).foldlM (Lpm248.add malloc) (t, taboff) = .error .outOfMemory := by
    intro rest
    induction rest with
    | nil =>
      rintro done t taboff rfl hbuilding
      rw [append_nil] at hbuilding ⊢
      exact .inl ⟨t, taboff, rfl, hbuilding⟩
    | cons n rest ih =>
      rintro done t taboff rfl hbuilding
      rw [map_cons, foldlM_cons]
      rcases hbuilding.entry malloc hclean hsorted hkeys with
        ⟨t', taboff', hadd, hbuilding'⟩ | hfault
      · rw [bind_of_eq_ok hadd]
        exact ih (done ++ [n]) t' taboff' (by simp) hbuilding'
      · exact .inr (bind_of_eq_error hfault)
  have hbegin : Building t₀ (ns.map entryFor) [] (longBlocks (([] : List _).map entryFor)) t₀ 1 :=
    ⟨rfl, hsized, fun _ h => absurd h (Finset.notMem_empty _), rfl, hsized.pos,
      fun _ h => absurd h (Finset.notMem_empty _), fun _ _ => rfl,
      fun _ h => absurd h (Finset.notMem_empty _), fun _ _ => rfl⟩
  rcases hloop ns [] t₀ 1 rfl hbegin with ⟨t', taboff, hfold, hbuilding⟩ | hfold
  · exact .inl ⟨t', taboff, by rw [build, hfold]; rfl, hbuilding⟩
  · exact .inr (by rw [build, hfold]; rfl)

/-- **After a clean build a search finds the last match.** -/
theorem Building.search (h : Building t₀ (ns.map entryFor) ns (longBlocks (ns.map entryFor)) t taboff)
    (hclean : t₀.Clean (ns.map entryFor)) (hkeys : ∀ m ∈ ns, m.2.1.toNat < t₀.flag)
    (a : BitVec 32) : t.search a = .ok (valueAt ns 0 a) := by
  have hflag : t.flag = t₀.flag := by rw [flag, flag, h.keybits]
  rw [Lpm248.search]
  by_cases hmem : blockOf a ∈ longBlocks (ns.map entryFor)
  · obtain ⟨hbig, hlil⟩ := h.tables a hmem
    have hslot : 0 < slotOf (ns.map entryFor) (blockOf a) :=
      Nat.lt_of_lt_of_le Nat.zero_lt_one (Nat.le_add_right 1 _)
    have hbefore := h.slot_lt _ hmem
    have hroom := h.taboff_lt
    have hlow := lowOf_lt a
    have hint : t.lilLength < 2 ^ 32 := by
      have hsize := h.sized.int_size
      have hpos : 1 ≤ t.keybits.elementSize := by cases t.keybits <;> decide
      have := Nat.mul_le_mul_right t.lilLength hpos
      omega
    have hindex : ((t.big (blockOf a) - t.flag) <<< 8 + lowOf a) % 2 ^ 32 =
        256 * slotOf (ns.map entryFor) (blockOf a) + lowOf a := by
      rw [hbig, Nat.add_sub_cancel_left, Nat.shiftLeft_eq, Nat.mul_comm]
      exact Nat.mod_eq_of_lt (by omega)
    rw [if_pos (by omega)]
    simp only [hindex]
    rw [if_pos (by omega), hlil]
  · have hvalue : t.big (blockOf a) = valueAt ns 0 a := by
      rw [h.blocks a hmem, valueAt, valueAt]
      cases hlast : lastMatch ns a with
      | some key => rfl
      | none =>
        by_contra hne
        obtain ⟨m, hm, -, hma⟩ := covered_iff.mp (hclean.overwritten _ (blockOf_lt _) hne)
        exact lastMatch_eq_none.mp hlast m hm hma
    have hlt : valueAt ns 0 a < t.flag :=
      valueAt_lt (fun m hm => hflag ▸ hkeys m hm) (Nat.two_pow_pos _)
    rw [if_neg (by omega), hvalue]

end Lpm248

end

end Snabb
