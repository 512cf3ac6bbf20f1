import Mathlib.Data.List.Nodup
import Mathlib.Data.List.Perm.Subperm
import Mathlib.Order.Nat
import Mathlib.Tactic.Common
import Snabb.Foundation.Run

/-!
# The heap of a list (`lib/yang/list.lua`, `Heap`)

A heap is a growing array of blocks of 64 lines. An allocation takes the space behind the last
one, or, if it fits into a line, a line of an earlier block that nothing refers to: every line
counts the allocations that touch it. Nothing is moved.

`Holds` relates a heap to the list of the regions that are allocated. An offset is a signed
number of 32 bits (`lshift`), and the model faults where it would become negative.

- `allocate_spec`: a region of the size asked for, disjoint from all the others;
- `release_spec`: a region that is freed is the only one that goes.
-/

namespace Snabb

open Foundation List

/-- What ends a call: an assertion, an access outside a block, an offset that has become
negative, or a recursion that has no bound. -/
inductive HeapFault where
  | assertion
  | outOfBlock
  | negativeOffset
  | tooDeep
deriving DecidableEq, Repr

/-- The counters of the lines, `_blocks[i].ref`, are one array here. `_recycle` and
`_maxrecycle` are both nil, or neither is. -/
structure Heap where
  maxblock : Nat
  ref : Nat → Nat
  free : Nat
  maxfree : Nat
  recycle : Option (Nat × Nat)

namespace Heap

def lineSize : Nat := 128

def blockLines : Nat := 64

def blockSize : Nat := 64 * 128

/-- `padded`: the next multiple of `a`. -/
def padded (a l : Nat) : Nat := l + (a - l % a) % a

/-- `Heap:new`. -/
def new : Heap := ⟨0, fun _ => 0, 0, blockSize, none⟩

/-- `Heap:_block`. -/
def block (o : Nat) : Nat × Nat := (o / blockSize, o % blockSize)

/-- `Heap:_bump_alloc`. -/
def bumpAlloc (h : Heap) (bytes : Nat) : Heap × Option Nat :=
  if h.free + bytes ≤ h.maxfree then ({ h with free := h.free + bytes }, some h.free)
  else (h, none)

/-- The loop of `Heap:_ref`, which ends after at most `bytes` rounds. A counter has 8 bits. -/
def refLoop (c : Int) (block : Nat) : Nat → (Nat → Nat) → Nat → Nat →
    Except HeapFault (Nat → Nat)
  | 0, counts, _, _ => .ok counts
  | rounds + 1, counts, offset, bytes =>
    if bytes = 0 then .ok counts
    else
      let ref := offset / lineSize
      if ref < blockLines then
        let line := block * blockLines + ref
        let nextOffset := (ref + 1) * lineSize
        refLoop c block rounds (Function.update counts line ((counts line + c) % 256).toNat)
          nextOffset (bytes - (nextOffset - offset))
      else .error .outOfBlock

/-- `Heap:_ref`. -/
def addRef (h : Heap) (o bytes : Nat) (c : Int) : Except HeapFault Heap := do
  let ref ← refLoop c (block o).1 bytes h.ref (block o).2 bytes
  return { h with ref := ref }

/-- `Heap:_has_ref`. -/
def hasRef (h : Heap) (l : Nat) : Prop := 0 < h.ref (l / lineSize)

instance (h : Heap) (l : Nat) : Decidable (h.hasRef l) := inferInstanceAs (Decidable (_ < _))

/-- The loop of `Heap:_find_hole`, over the lines before `limit`. -/
def findHole (h : Heap) (limit : Nat) : Nat → Nat → Option Nat
  | 0, _ => none
  | lines + 1, recycle =>
    if recycle < limit then
      if ¬ h.hasRef recycle then some recycle else findHole h limit lines (recycle + lineSize)
    else none

/-- The loop of `Heap:_find_recycle`, over the blocks before that of `_free`. -/
def findBlock (h : Heap) : Nat → Nat → Nat → Option Nat
  | 0, _, _ => none
  | blocks + 1, block, recycle =>
    match h.findHole ((block + 1) * blockSize) blockLines recycle with
    | some hole => some hole
    | none => findBlock h blocks (block + 1) ((block + 1) * blockSize)

/-- `Heap:_find_recycle`. -/
def findRecycle (h : Heap) (recycle : Nat) : Option (Nat × Nat) :=
  (h.findBlock ((block h.free).1 - (block recycle).1) (block recycle).1 recycle).map
    fun hole => (hole, hole + lineSize)

/-- `Heap:_recycle_alloc`, which calls itself once. -/
def recycleAlloc : Nat → Heap → Nat → Except HeapFault (Heap × Option Nat)
  | 0, _, _ => .error .tooDeep
  | depth + 1, h, bytes =>
    if lineSize < bytes then .error .assertion
    else
      match h.recycle with
      | none => .ok (h, none)
      | some (o, maxrecycle) =>
        if o + bytes ≤ maxrecycle then
          .ok ({ h with recycle := some (o + bytes, maxrecycle) }, some o)
        else
          recycleAlloc depth { h with recycle := h.findRecycle (padded lineSize o) } bytes

/-- `Heap:_new_block`. `lshift` makes a negative number of an offset of 32 bits. -/
def newBlock (h : Heap) : Except HeapFault Heap :=
  let o := (h.maxblock + 1) * blockSize
  if o < 2 ^ 31 then
    .ok { h with maxblock := h.maxblock + 1, free := o, maxfree := o + blockSize }
  else .error .negativeOffset

/-- `Heap:_collect`. -/
def collect (h : Heap) : Except HeapFault Heap := do
  let h ← h.newBlock
  return { h with recycle := h.findRecycle 0 }

/-- `Heap:allocate`, which calls itself once. -/
def allocateWithin : Nat → Heap → Nat → Except HeapFault (Heap × Nat)
  | 0, _, _ => .error .tooDeep
  | depth + 1, h, bytes =>
    if blockSize < bytes then .error .assertion
    else do
      let (h, recycled) ← (if h.recycle.isSome ∧ bytes ≤ lineSize then recycleAlloc 2 h bytes
        else .ok (h, none))
      match recycled with
      | some o => return (← h.addRef o bytes 1, o)
      | none =>
        match h.bumpAlloc bytes with
        | (h, some o) => return (← h.addRef o bytes 1, o)
        | (h, none) => allocateWithin depth (← h.collect) bytes

def allocate (h : Heap) (bytes : Nat) : Except HeapFault (Heap × Nat) := allocateWithin 2 h bytes

/-- `Heap:free`. -/
def release (h : Heap) (o bytes : Nat) : Except HeapFault Heap :=
  if blockSize < bytes then .error .assertion else h.addRef o bytes (-1)

/-! ## The regions that are allocated -/

/-- The first address of a region, and its size. -/
abbrev Region := Nat × Nat

/-- The region has a byte in the line. -/
def Touches (l : Nat) (r : Region) : Prop := l * lineSize < r.1 + r.2 ∧ r.1 < (l + 1) * lineSize

instance (l : Nat) (r : Region) : Decidable (Touches l r) := inferInstanceAs (Decidable (_ ∧ _))

/-- One region ends before the other begins. -/
def Apart (r r' : Region) : Prop := r.1 + r.2 ≤ r'.1 ∨ r'.1 + r'.2 ≤ r.1

/-- How many regions touch a line. -/
def touching (live : List Region) (l : Nat) : Nat := live.countP fun r => Touches l r

/-- The invariant: what the heap says of the regions that are allocated. -/
structure Holds (h : Heap) (live : List Region) : Prop where
  maxfree : h.maxfree = (h.maxblock + 1) * blockSize
  free_le : h.free ≤ h.maxfree
  block_le : h.maxblock * blockSize ≤ h.free
  pos : ∀ r ∈ live, 0 < r.2
  block : ∀ r ∈ live, r.1 % blockSize + r.2 ≤ blockSize
  below : ∀ r ∈ live, r.1 + r.2 ≤ h.free
  apart : live.Pairwise Apart
  refs : ∀ l, h.ref l = touching live l
  recycle : ∀ o m, h.recycle = some (o, m) → o ≤ m ∧ m ≤ h.free ∧ m % lineSize = 0 ∧
    m ≤ o + lineSize ∧ ∀ r ∈ live, Apart r (o, m - o)

variable {h h' : Heap} {live live' : List Region} {r : Region} {o bytes : Nat}

theorem apart_comm {r r' : Region} : Apart r r' ↔ Apart r' r := or_comm

theorem touching_le (hpos : ∀ r ∈ live, 0 < r.2) (hapart : live.Pairwise Apart) (l : Nat) :
    touching live l ≤ lineSize := by
  have hnodup : ((live.filter fun r => Touches l r).map fun r =>
      max r.1 (l * lineSize) - l * lineSize).Nodup := by
    rw [List.Nodup, pairwise_map]
    refine (List.Pairwise.and_mem.mp (hapart.sublist filter_sublist)).imp ?_
    rintro r r' ⟨hr, hr', hrr'⟩
    obtain ⟨hmem, htouch⟩ := mem_filter.mp hr
    obtain ⟨hmem', htouch'⟩ := mem_filter.mp hr'
    have hsize := hpos r hmem
    have hsize' := hpos r' hmem'
    have hline := of_decide_eq_true htouch
    have hline' := of_decide_eq_true htouch'
    simp only [Touches, Apart] at hline hline' hrr'
    omega
  have hsub : ((live.filter fun r => Touches l r).map fun r =>
      max r.1 (l * lineSize) - l * lineSize) ⊆ List.range lineSize := by
    intro n hn
    obtain ⟨r, hr, rfl⟩ := mem_map.mp hn
    have hline := of_decide_eq_true (mem_filter.mp hr).2
    simp only [Touches] at hline
    rw [mem_range]
    have hlt : 0 < lineSize := by decide
    rw [Nat.add_mul] at hline
    omega
  have hlength := (subperm_of_subset hnodup hsub).length_le
  rw [length_map] at hlength
  rwa [touching, countP_eq_length_filter]

theorem touching_cons (r : Region) (live : List Region) (l : Nat) :
    touching (r :: live) l = touching live l + if Touches l r then 1 else 0 := by
  rw [touching, countP_cons]
  simp only [decide_eq_true_eq, touching]

theorem Holds.perm (hh : Holds h live) (hperm : live.Perm live') : Holds h live' where
  maxfree := hh.maxfree
  free_le := hh.free_le
  block_le := hh.block_le
  pos r hr := hh.pos r (hperm.mem_iff.mpr hr)
  block r hr := hh.block r (hperm.mem_iff.mpr hr)
  below r hr := hh.below r (hperm.mem_iff.mpr hr)
  apart := (hperm.pairwise_iff fun hab => apart_comm.mp hab).mp hh.apart
  refs l := by rw [hh.refs, touching, touching, hperm.countP_eq]
  recycle o m hrecycle := by
    obtain ⟨hle, hfree, hline, hnear, hfar⟩ := hh.recycle o m hrecycle
    exact ⟨hle, hfree, hline, hnear, fun r hr => hfar r (hperm.mem_iff.mpr hr)⟩

theorem holds_new : Holds new [] where
  maxfree := rfl
  free_le := Nat.zero_le _
  block_le := Nat.zero_le _
  pos := fun _ hr => (nomatch hr)
  block := fun _ hr => (nomatch hr)
  below := fun _ hr => (nomatch hr)
  apart := .nil
  refs := fun _ => rfl
  recycle := fun _ _ hrecycle => (nomatch hrecycle)

/-- The loop of `_ref` counts in the lines of a region that ends in its block. -/
theorem refLoop_spec (c : Int) (block : Nat) {rounds bytes offset : Nat} (counts : Nat → Nat)
    (hrounds : bytes ≤ rounds) (hend : offset + bytes ≤ blockSize) :
    refLoop c block rounds counts offset bytes = .ok fun l =>
      if 0 < bytes ∧ Touches l (block * blockSize + offset, bytes) then
        ((counts l + c) % 256).toNat
      else counts l := by
  induction rounds generalizing counts offset bytes with
  | zero =>
    obtain rfl : bytes = 0 := by omega
    rfl
  | succ rounds ih =>
    rw [refLoop]
    by_cases hzero : bytes = 0
    · subst hzero
      simp
    · have hline : offset / lineSize < blockLines := by
        simp only [lineSize, blockSize, blockLines] at hend ⊢
        omega
      have hnext : (offset / lineSize + 1) * lineSize ≤ blockSize :=
        Nat.mul_le_mul_right lineSize hline
      have hpast : offset < (offset / lineSize + 1) * lineSize := by
        simp only [lineSize]
        omega
      simp only [if_neg hzero, if_pos hline]
      rw [ih _ (by omega) (by omega)]
      congr 1
      funext l
      have hfirst : l = block * blockLines + offset / lineSize →
          0 < bytes ∧ Touches l (block * blockSize + offset, bytes) := by
        simp only [Touches, lineSize, blockSize, blockLines]
        omega
      have hrest : (0 < bytes - ((offset / lineSize + 1) * lineSize - offset) ∧
          Touches l (block * blockSize + (offset / lineSize + 1) * lineSize,
            bytes - ((offset / lineSize + 1) * lineSize - offset))) ↔
          (0 < bytes ∧ Touches l (block * blockSize + offset, bytes)) ∧
            l ≠ block * blockLines + offset / lineSize := by
        simp only [Touches, lineSize, blockSize, blockLines] at hend ⊢
        omega
      by_cases hl : l = block * blockLines + offset / lineSize
      · rw [if_neg fun h => (hrest.mp h).2 hl, if_pos (hfirst hl), hl, Function.update_self]
      · simp only [hrest, Function.update_of_ne hl, ne_eq, hl, not_false_eq_true, and_true]

theorem addRef_spec (c : Int) (hblock : o % blockSize + bytes ≤ blockSize) (hpos : 0 < bytes) :
    h.addRef o bytes c = .ok { h with
      ref := fun l => if Touches l (o, bytes) then ((h.ref l + c) % 256).toNat else h.ref l } := by
  have hloop : refLoop c (block o).1 bytes h.ref (block o).2 bytes = _ :=
    refLoop_spec c (block o).1 h.ref (le_refl bytes) hblock
  have haddress : (block o).1 * blockSize + (block o).2 = o := Nat.div_add_mod' o blockSize
  rw [addRef, bind_of_eq_ok hloop]
  simp only [haddress, hpos, true_and]
  rfl

/-- **What is freed is the only region that goes.** -/
theorem release_spec (hh : Holds h ((o, bytes) :: live)) :
    ∃ h', h.release o bytes = .ok h' ∧ Holds h' live ∧ h'.maxfree = h.maxfree := by
  have hpos : 0 < bytes := hh.pos _ mem_cons_self
  have hblock : o % blockSize + bytes ≤ blockSize := hh.block _ mem_cons_self
  have hle : bytes ≤ blockSize := (Nat.le_add_left _ _).trans hblock
  refine ⟨_, (if_neg (not_lt.mpr hle)).trans (addRef_spec (-1) hblock hpos), ?_, rfl⟩
  exact {
    maxfree := hh.maxfree
    free_le := hh.free_le
    block_le := hh.block_le
    pos := fun r hr => hh.pos r (mem_cons_of_mem _ hr)
    block := fun r hr => hh.block r (mem_cons_of_mem _ hr)
    below := fun r hr => hh.below r (mem_cons_of_mem _ hr)
    apart := (pairwise_cons.mp hh.apart).2
    refs := fun l => by
      have hcount := touching_le hh.pos hh.apart l
      simp only [hh.refs, touching_cons] at hcount ⊢
      simp only [lineSize] at hcount
      split_ifs at hcount ⊢ <;> omega
    recycle := fun o' m hrecycle => by
      obtain ⟨hle, hfree, hline, hnear, hfar⟩ := hh.recycle o' m hrecycle
      exact ⟨hle, hfree, hline, hnear, fun r hr => hfar r (mem_cons_of_mem _ hr)⟩ }

/-- A region that nothing else overlaps, below the free space, is allocated. -/
theorem addRef_holds (hh : Holds h live) (hpos : 0 < bytes)
    (hblock : o % blockSize + bytes ≤ blockSize) (hbelow : o + bytes ≤ h.free)
    (hapart : ∀ r ∈ live, Apart (o, bytes) r)
    (hrecycle : ∀ o' m, h.recycle = some (o', m) → Apart (o, bytes) (o', m - o')) :
    ∃ h', h.addRef o bytes 1 = .ok h' ∧ Holds h' ((o, bytes) :: live) ∧
      h'.maxfree = h.maxfree := by
  refine ⟨_, addRef_spec 1 hblock hpos, ?_, rfl⟩
  have hposes : ∀ r ∈ (o, bytes) :: live, 0 < r.2 := forall_mem_cons.mpr ⟨hpos, hh.pos⟩
  have haparts : ((o, bytes) :: live).Pairwise Apart := .cons hapart hh.apart
  exact {
    maxfree := hh.maxfree
    free_le := hh.free_le
    block_le := hh.block_le
    pos := hposes
    block := forall_mem_cons.mpr ⟨hblock, hh.block⟩
    below := forall_mem_cons.mpr ⟨hbelow, hh.below⟩
    apart := haparts
    refs := fun l => by
      have hcount := touching_le hposes haparts l
      simp only [hh.refs, touching_cons] at hcount ⊢
      simp only [lineSize] at hcount
      split_ifs at hcount ⊢ <;> omega
    recycle := fun o' m hsome => by
      obtain ⟨hle, hfree, hline, hnear, hfar⟩ := hh.recycle o' m hsome
      exact ⟨hle, hfree, hline, hnear, forall_mem_cons.mpr ⟨hrecycle o' m hsome, hfar⟩⟩ }

theorem apart_line (hh : Holds h live) {hole : Nat} (hhole : hole % lineSize = 0)
    (hfree : ¬ h.hasRef hole) : ∀ r ∈ live, Apart r (hole, lineSize) := by
  intro r hr
  have hzero : touching live (hole / lineSize) = 0 := by
    rw [← hh.refs]
    exact Nat.eq_zero_of_not_pos hfree
  have hnot : ¬ Touches (hole / lineSize) r := by
    have hall := countP_eq_zero.mp hzero r hr
    simpa using hall
  simp only [Touches, Apart, lineSize] at hnot hhole ⊢
  omega

/-- The hole that is found is a line before the limit that nothing refers to. -/
theorem findHole_some {limit lines recycle hole : Nat} (hlimit : limit % lineSize = 0)
    (hrecycle : recycle % lineSize = 0) (hfind : h.findHole limit lines recycle = some hole) :
    hole % lineSize = 0 ∧ hole + lineSize ≤ limit ∧ ¬ h.hasRef hole := by
  induction lines generalizing recycle with
  | zero => cases hfind
  | succ lines ih =>
    rw [findHole] at hfind
    split_ifs at hfind with hlt hfree
    · exact ih (by rwa [Nat.add_mod_right]) hfind
    · cases hfind
      refine ⟨hrecycle, ?_, hfree⟩
      simp only [lineSize] at hlimit hrecycle ⊢
      omega

theorem findBlock_some {blocks block recycle hole : Nat} (hrecycle : recycle % lineSize = 0)
    (hfind : h.findBlock blocks block recycle = some hole) :
    hole % lineSize = 0 ∧ hole + lineSize ≤ (block + blocks) * blockSize ∧ ¬ h.hasRef hole := by
  induction blocks generalizing block recycle with
  | zero => cases hfind
  | succ blocks ih =>
    have hblock : (block + 1) * blockSize % lineSize = 0 := by
      simp only [blockSize, lineSize]
      omega
    rw [findBlock] at hfind
    cases hhole : h.findHole ((block + 1) * blockSize) blockLines recycle with
    | some found =>
      simp only [hhole] at hfind
      cases hfind
      obtain ⟨hline, hle, hfree⟩ := findHole_some hblock hrecycle hhole
      exact ⟨hline, hle.trans (Nat.mul_le_mul_right _ (by omega)), hfree⟩
    | none =>
      simp only [hhole] at hfind
      obtain ⟨hline, hle, hfree⟩ := ih hblock hfind
      exact ⟨hline, by rwa [show block + (blocks + 1) = block + 1 + blocks by omega], hfree⟩

section

variable (hh : Holds h live)
include hh

theorem findRecycle_holds {recycle : Nat} (hrecycle : recycle % lineSize = 0) :
    Holds { h with recycle := h.findRecycle recycle } live where
  maxfree := hh.maxfree
  free_le := hh.free_le
  block_le := hh.block_le
  pos := hh.pos
  block := hh.block
  below := hh.below
  apart := hh.apart
  refs := hh.refs
  recycle o m hsome := by
    obtain ⟨hole, hfind, heq⟩ := Option.map_eq_some_iff.mp (show h.findRecycle recycle = _ from hsome)
    cases heq
    obtain ⟨hline, hle, hfree⟩ := findBlock_some hrecycle hfind
    refine ⟨Nat.le_add_right _ _, ?_, ?_, le_refl _, ?_⟩
    · cases hblocks : (Heap.block h.free).1 - (Heap.block recycle).1 with
      | zero =>
        rw [hblocks] at hfind
        cases hfind
      | succ n =>
        rw [show (Heap.block recycle).1 + ((Heap.block h.free).1 - (Heap.block recycle).1) =
          (Heap.block h.free).1 by omega] at hle
        exact hle.trans (Nat.div_mul_le_self _ _)
    · rwa [Nat.add_mod_right]
    · rw [Nat.add_sub_cancel_left]
      exact apart_line hh hline hfree

/-- A region that may be allocated: it lies in one block, below the free space, apart from all
others and from what may be recycled. -/
structure Available (h : Heap) (live : List Region) (r : Region) : Prop where
  block : r.1 % blockSize + r.2 ≤ blockSize
  below : r.1 + r.2 ≤ h.free
  apart : ∀ r' ∈ live, Apart r r'
  recycle : ∀ o m, h.recycle = some (o, m) → Apart r (o, m - o)

theorem recycle_split (hpos : 0 < bytes) {m : Nat}
    (hrecycle : h.recycle = some (o, m)) (hfits : o + bytes ≤ m) :
    Holds { h with recycle := some (o + bytes, m) } live ∧
      Available { h with recycle := some (o + bytes, m) } live (o, bytes) := by
  obtain ⟨hle, hfree, hline, hnear, hfar⟩ := hh.recycle o m hrecycle
  simp only [Apart] at hfar
  constructor
  · refine { hh with recycle := fun o' m' hsome => ?_ }
    cases hsome
    refine ⟨hfits, hfree, hline, hnear.trans (by omega), fun r hr => ?_⟩
    have hr := hfar r hr
    simp only [Apart]
    omega
  · refine ⟨?_, hfits.trans hfree, fun r hr => ?_, fun o' m' hsome => ?_⟩
    · simp only [lineSize, blockSize] at hline hnear ⊢
      omega
    · have hr := hfar r hr
      simp only [Apart]
      omega
    · cases hsome
      exact .inl (le_refl _)

/-- The line that is recycled, or the next one that is found, has room, unless there is none. -/
theorem recycleAlloc_spec (hpos : 0 < bytes) (hline : bytes ≤ lineSize) :
    ∃ rest recycled, recycleAlloc 2 h bytes = .ok ({ h with recycle := rest }, recycled) ∧
      Holds { h with recycle := rest } live ∧
      ∀ o ∈ recycled, Available { h with recycle := rest } live (o, bytes) := by
  have hwhole : lineSize < bytes ↔ False := iff_false_intro (not_lt.mpr hline)
  cases hrecycle : h.recycle with
  | none =>
    refine ⟨h.recycle, none, ?_, hh, fun o ho => (nomatch ho)⟩
    simp only [recycleAlloc, hwhole, hrecycle, if_false]
    rw [← hrecycle]
  | some r =>
    obtain ⟨o, m⟩ := r
    by_cases hfits : o + bytes ≤ m
    · obtain ⟨hholds, havailable⟩ := recycle_split hh hpos hrecycle hfits
      refine ⟨_, some o, ?_, hholds, fun o' ho' => Option.some.inj ho' ▸ havailable⟩
      simp only [recycleAlloc, hwhole, hrecycle, if_false, if_pos hfits]
    · have hnext : padded lineSize o % lineSize = 0 := by
        simp only [padded, lineSize]
        omega
      have hfound := findRecycle_holds hh hnext
      cases hagain : h.findRecycle (padded lineSize o) with
      | none =>
        refine ⟨_, none, ?_, hfound, fun o ho => (nomatch ho)⟩
        simp only [recycleAlloc, hwhole, hrecycle, if_false, if_neg hfits, hagain]
      | some r' =>
        obtain ⟨hole, m'⟩ := r'
        rw [hagain] at hfound
        have hfits' : hole + bytes ≤ m' := by
          obtain ⟨found, -, heq⟩ := Option.map_eq_some_iff.mp hagain
          cases heq
          exact Nat.add_le_add_left hline _
        obtain ⟨hholds, havailable⟩ := recycle_split hfound hpos rfl hfits'
        refine ⟨_, some hole, ?_, hholds, fun o' ho' => Option.some.inj ho' ▸ havailable⟩
        simp only [recycleAlloc, hwhole, hrecycle, if_false, if_neg hfits, hagain, if_pos hfits']

theorem bumpAlloc_spec (hpos : 0 < bytes) (hfits : h.free + bytes ≤ h.maxfree) :
    Holds { h with free := h.free + bytes } live ∧
      Available { h with free := h.free + bytes } live (h.free, bytes) := by
  obtain ⟨hmaxfree, hfree, hblock, hposes, hblocks, hbelow, hapart, hrefs, hrecycle⟩ := hh
  constructor
  · refine ⟨hmaxfree, hfits, hblock.trans (Nat.le_add_right _ _), hposes, hblocks,
      fun r hr => (hbelow r hr).trans (Nat.le_add_right _ _), hapart, hrefs, fun o m hsome => ?_⟩
    obtain ⟨hle, hm, hrest⟩ := hrecycle o m hsome
    exact ⟨hle, hm.trans (Nat.le_add_right _ _), hrest⟩
  · refine ⟨?_, le_refl _, fun r hr => .inr (hbelow r hr), fun o m hsome => ?_⟩
    · simp only [blockSize] at hmaxfree hblock ⊢
      omega
    · obtain ⟨hle, hm, -⟩ := hrecycle o m hsome
      right
      omega

theorem collect_spec (hroom : h.maxfree < 2 ^ 31) :
    ∃ h', h.collect = .ok h' ∧ Holds h' live ∧ h'.free + blockSize = h'.maxfree ∧
      h'.maxfree = h.maxfree + blockSize := by
  have hmax := hh.maxfree
  have hnew : h.newBlock = .ok { h with
      maxblock := h.maxblock + 1
      free := (h.maxblock + 1) * blockSize
      maxfree := (h.maxblock + 1) * blockSize + blockSize } := if_pos (hmax ▸ hroom)
  have hholds : Holds { h with
      maxblock := h.maxblock + 1
      free := (h.maxblock + 1) * blockSize
      maxfree := (h.maxblock + 1) * blockSize + blockSize } live := by
    have hle : h.free ≤ (h.maxblock + 1) * blockSize := hmax ▸ hh.free_le
    refine ⟨(Nat.succ_mul _ _).symm, Nat.le_add_right _ _, le_refl _, hh.pos, hh.block,
      fun r hr => (hh.below r hr).trans hle, hh.apart, hh.refs, fun o m hsome => ?_⟩
    obtain ⟨hom, hm, hrest⟩ := hh.recycle o m hsome
    exact ⟨hom, hm.trans hle, hrest⟩
  refine ⟨_, bind_of_eq_ok hnew, findRecycle_holds hholds (Nat.zero_mod _), rfl, ?_⟩
  rw [hmax]

theorem Available.allocate (hpos : 0 < bytes) (ha : Available h live (o, bytes)) :
    ∃ h', h.addRef o bytes 1 = .ok h' ∧ Holds h' ((o, bytes) :: live) ∧ h'.maxfree = h.maxfree :=
  addRef_holds hh hpos ha.block ha.below ha.apart ha.recycle

/-- One round of `allocate`: a region is allocated, or a new block is taken. -/
theorem allocateWithin_step (hpos : 0 < bytes) (hsize : bytes ≤ blockSize) (depth : Nat) :
    (∃ h' o, allocateWithin (depth + 1) h bytes = .ok (h', o) ∧ Holds h' ((o, bytes) :: live) ∧
      h'.maxfree = h.maxfree) ∨
    h.maxfree < h.free + bytes ∧ ∃ h', Holds h' live ∧ h'.maxfree = h.maxfree ∧
      allocateWithin (depth + 1) h bytes = h'.collect >>= fun h => allocateWithin depth h bytes := by
  have hfirst : ∃ rest recycled, (if h.recycle.isSome ∧ bytes ≤ lineSize then recycleAlloc 2 h bytes
      else .ok (h, none)) = .ok ({ h with recycle := rest }, recycled) ∧
      Holds { h with recycle := rest } live ∧
      ∀ o ∈ recycled, Available { h with recycle := rest } live (o, bytes) := by
    split_ifs with hrecycle
    · exact recycleAlloc_spec hh hpos hrecycle.2
    · exact ⟨h.recycle, none, rfl, hh, fun o ho => (nomatch ho)⟩
  obtain ⟨rest, recycled, heq, hrest, havailable⟩ := hfirst
  rw [allocateWithin, if_neg (not_lt.mpr hsize), bind_of_eq_ok heq]
  cases recycled with
  | some o =>
    obtain ⟨h', hadd, hh', hmax⟩ := (havailable o rfl).allocate hrest hpos
    exact .inl ⟨h', o, bind_of_eq_ok hadd, hh', hmax⟩
  | none =>
    by_cases hfits : h.free + bytes ≤ h.maxfree
    · obtain ⟨hbump, hbumped⟩ := bumpAlloc_spec hrest hpos hfits
      obtain ⟨h', hadd, hh', hmax⟩ := hbumped.allocate hbump hpos
      refine .inl ⟨h', h.free, ?_, hh', hmax⟩
      simp only [bumpAlloc, if_pos hfits]
      exact bind_of_eq_ok hadd
    · refine .inr ⟨not_le.mp hfits, { h with recycle := rest }, hrest, rfl, ?_⟩
      simp only [bumpAlloc, if_neg hfits]

/-- **What is allocated overlaps no other region**, and takes at most one new block. -/
theorem allocate_spec (hpos : 0 < bytes) (hsize : bytes ≤ blockSize) (hroom : h.maxfree < 2 ^ 31) :
    ∃ h' o, h.allocate bytes = .ok (h', o) ∧ Holds h' ((o, bytes) :: live) ∧
      h'.maxfree ≤ h.maxfree + blockSize := by
  rw [allocate]
  rcases allocateWithin_step hh hpos hsize 1 with ⟨h', o, heq, hh', hmax⟩ | ⟨-, h₁, hh₁, hmax₁, heq⟩
  · exact ⟨h', o, heq, hh', hmax.le.trans (Nat.le_add_right _ _)⟩
  · obtain ⟨h₂, hcollect, hh₂, hfree, hmax₂⟩ := collect_spec hh₁ (hmax₁ ▸ hroom)
    rw [heq, bind_of_eq_ok hcollect]
    rcases allocateWithin_step hh₂ hpos hsize 0 with ⟨h', o, heq', hh', hmax⟩ | ⟨hfull, -⟩
    · exact ⟨h', o, heq', hh', by rw [hmax, hmax₂, hmax₁]⟩
    · omega

end

theorem Holds.fresh (hh : Holds h ((o, bytes) :: live)) : ∀ r ∈ live, r.1 ≠ o := by
  intro r hr heq
  have hapart := (pairwise_cons.mp hh.apart).1 r hr
  have hpos := hh.pos _ mem_cons_self
  have hpos' := hh.pos r (mem_cons_of_mem _ hr)
  simp only [Apart] at hapart hpos
  omega

end Heap

end Snabb
