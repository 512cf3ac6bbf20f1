import Snabb.Foundation.BinarySearch
import Mathlib.Data.List.Sort

/-!
# Range maps (`apps/lwaftr/rangemap.lua`)

A range map gives a value to every 32-bit key. It is built once, from ranges that have their
own value where all other keys have a default one. The map is the list of the last keys of
its ranges with their values, in order, so that a lookup searches for the first of them that
is not below its key. The builder goes through the given ranges from the last one down; it
fills the gaps with the default value and puts neighbours with one value together.

- `RangeMap.lookup_ok`: a key in a given range has its value, any other key the default one.
- `RangeMapBuilder.build_exact`: `build` raises for two ranges that overlap and for nothing
  else, and `iterate` cuts the keys into intervals with the values that they should have.
-/

namespace Snabb

open Foundation List

variable {V : Type}

def uint32Max : Nat := 0xFFFFFFFF

structure RangeMapEntry (V : Type) where
  key : Nat
  value : V

/-- A range as `add_range` inserts it. -/
structure RangeMapRange (V : Type) where
  min : Nat
  max : Nat
  value : V

/-- A map: its packed entries. -/
structure RangeMap (V : Type) where
  entries : List (RangeMapEntry V)

namespace RangeMapBuilder

/-- `add_range`. -/
def addRange (entries : List (RangeMapRange V)) (keyMin keyMax : Nat) (value : V) :
    Except String (List (RangeMapRange V)) :=
  if keyMin ≤ keyMax then .ok (entries ++ [⟨keyMin, keyMax, value⟩])
  else .error "assertion failed!"

/-- `add`. -/
def add (entries : List (RangeMapRange V)) (key : Nat) (value : V) :
    Except String (List (RangeMapRange V)) :=
  addRange entries key key value

/-- The loop of `build` over the ranges below `rangeEnd`, from the last one down. The entries
are packed in the reverse of the order in which the loop inserts them. -/
def fill [DecidableEq V] (defaultValue : V) :
    List (RangeMapRange V) → List (RangeMapEntry V) → RangeMapEntry V →
      Except String (List (RangeMapEntry V) × RangeMapEntry V)
  | [], ranges, rangeEnd => .ok (ranges, rangeEnd)
  | entry :: rest, ranges, rangeEnd =>
    if entry.max ≥ rangeEnd.key then
      .error "Multiple range map entries for key: "
    else
      let (ranges, rangeEnd) :=
        if entry.max + 1 ≠ rangeEnd.key then
          (⟨rangeEnd.key - 1, defaultValue⟩ :: ranges, ⟨entry.max + 1, defaultValue⟩)
        else (ranges, rangeEnd)
      let ranges :=
        if entry.value ≠ rangeEnd.value then ⟨entry.max, entry.value⟩ :: ranges else ranges
      fill defaultValue rest ranges ⟨entry.min, entry.value⟩

/-- The range of the largest key, and the others from the last one down. -/
def descending (defaultValue : V) (entries : List (RangeMapRange V)) :
    RangeMapRange V × List (RangeMapRange V) :=
  match (entries.insertionSort fun a b => a.max ≤ b.max).reverse with
  | [] => (⟨uint32Max, uint32Max, defaultValue⟩, [])
  | last :: rest =>
    if last.max < uint32Max then (⟨uint32Max, uint32Max, defaultValue⟩, last :: rest)
    else (last, rest)

/-- `build`. -/
def build [DecidableEq V] (defaultValue : V) (entries : List (RangeMapRange V)) :
    Except String (RangeMap V) :=
  let (last, rest) := descending defaultValue entries
  match fill defaultValue rest [⟨last.max, last.value⟩] ⟨last.min, last.value⟩ with
  | .error message => .error message
  | .ok (ranges, rangeEnd) =>
    .ok ⟨if rangeEnd.key > 0 then ⟨rangeEnd.key - 1, defaultValue⟩ :: ranges else ranges⟩

end RangeMapBuilder

namespace RangeMap

/-- Read an entry. -/
def entryAt (map : RangeMap V) (i : Nat) : Except String (RangeMapEntry V) :=
  match map.entries[i]? with
  | some e => .ok e
  | none => .error "out of bounds"

/-- `lookup`. -/
def lookup (map : RangeMap V) (k : Nat) : Except String (RangeMapEntry V) := do
  let i ← BinarySearch.search (fun i => (map.entryAt i).map RangeMapEntry.key) map.entries.length k
  map.entryAt i

/-- What `iterate` yields for the entries from one on, the first of which begins at `lo`. -/
def iterateFrom (lo : Nat) : List (RangeMapEntry V) → List (Nat × Nat × V)
  | [] => []
  | e :: rest => (lo, e.key, e.value) :: iterateFrom (e.key + 1) rest

/-- `iterate`. -/
def iterate (map : RangeMap V) : List (Nat × Nat × V) := iterateFrom 0 map.entries

end RangeMap

/-- The value that a key should have. -/
def IsRangeValue (defaultValue : V) (entries : List (RangeMapRange V)) (k : Nat) (v : V) : Prop :=
  (∃ e ∈ entries, e.min ≤ k ∧ k ≤ e.max ∧ e.value = v) ∨
    ((∀ e ∈ entries, k < e.min ∨ e.max < k) ∧ defaultValue = v)

/-! ## Searching the entries -/

/-- Entries in the order of their keys, where the last one is the largest key of all. -/
structure RangeMap.Packed (ranges : List (RangeMapEntry V)) : Prop where
  sorted : ranges.Pairwise fun a b => a.key < b.key
  le : ∀ e ∈ ranges, e.key ≤ uint32Max
  full : ∃ e ∈ ranges, e.key = uint32Max

theorem RangeMap.lookup_eq (map : RangeMap V) (h : Packed map.entries) {k : Nat}
    (hk : k ≤ uint32Max) : ∃ e, map.lookup k = .ok e ∧
      map.entries.find? (fun e => k ≤ e.key) = some e := by
  obtain ⟨e, he, hfull⟩ := h.full
  obtain ⟨last, hlast, rfl⟩ := getElem_of_mem he
  have hread : ∀ i < map.entries.length, (map.entryAt i).map RangeMapEntry.key =
      .ok ((map.entries[i]?).elim 0 RangeMapEntry.key) := by
    intro i hi
    rw [entryAt, List.getElem?_eq_getElem hi]
    rfl
  have hkey : ∀ i, ∀ hi : i < map.entries.length,
      (map.entries[i]?).elim 0 RangeMapEntry.key = map.entries[i].key := by
    intro i hi
    rw [List.getElem?_eq_getElem hi]
    rfl
  have hmono : ∀ i j, i ≤ j → j < map.entries.length →
      k ≤ (map.entries[i]?).elim 0 RangeMapEntry.key →
      k ≤ (map.entries[j]?).elim 0 RangeMapEntry.key := by
    intro i j hij hj hle
    rw [hkey i (by omega)] at hle
    rw [hkey j hj]
    rcases Nat.lt_or_eq_of_le hij with hlt | rfl
    · exact hle.trans (pairwise_iff_getElem.mp h.sorted i j (by omega) hj hlt).le
    · exact hle
  obtain ⟨a, ha, hfirst⟩ := BinarySearch.search_ok (Nat.zero_lt_of_lt hlast) hread hmono
  have halt := hfirst.lt
  have hge : k ≤ map.entries[a].key := by
    rw [← hkey a halt]
    rcases hfirst.found with hge | hend
    · exact hge
    · rcases Nat.lt_or_eq_of_le (show last ≤ a by omega) with hlt | rfl
      · have hbelow := hfirst.below last hlt
        rw [hkey last hlast] at hbelow
        omega
      · rw [hkey last hlast]
        omega
  refine ⟨map.entries[a], ?_, ?_⟩
  · rw [lookup, bind_of_eq_ok ha, entryAt, List.getElem?_eq_getElem halt]
  · rw [List.find?_eq_some_iff_getElem]
    refine ⟨by simpa using hge, a, halt, rfl, fun j hj => ?_⟩
    have hbelow := hfirst.below j hj
    rw [hkey j (hj.trans halt)] at hbelow
    simpa using hbelow

/-- Intervals that cut the keys from `lo` on, each with a value that all of its keys should
have. -/
def Cut (P : Nat → V → Prop) (lo : Nat) : List (Nat × Nat × V) → Prop
  | [] => lo = uint32Max + 1
  | (a, b, v) :: rest => a = lo ∧ a ≤ b ∧ (∀ k, a ≤ k → k ≤ b → P k v) ∧ Cut P (b + 1) rest

/-- The intervals of entries that a search finds the right values in. -/
theorem RangeMap.Packed.cut {P : Nat → V → Prop} {ranges : List (RangeMapEntry V)}
    (h : Packed ranges) {lo : Nat} (hlo : ∀ e ∈ ranges, lo ≤ e.key)
    (hvalues : ∀ k, lo ≤ k → k ≤ uint32Max →
      ∃ e, ranges.find? (fun e => k ≤ e.key) = some e ∧ P k e.value) :
    Cut P lo (iterateFrom lo ranges) := by
  induction ranges generalizing lo with
  | nil =>
    obtain ⟨e, he, -⟩ := h.full
    cases he
  | cons e rest ih =>
    obtain ⟨hfirst, hsorted⟩ := pairwise_cons.mp h.sorted
    refine ⟨rfl, hlo e mem_cons_self, fun k hk hle => ?_, ?_⟩
    · obtain ⟨e', he', hvalue⟩ := hvalues k hk (hle.trans (h.le e mem_cons_self))
      rw [List.find?_cons_of_pos (by simpa using hle)] at he'
      rwa [Option.some.inj he']
    · obtain ⟨last, hlast, hfull⟩ := h.full
      rcases mem_cons.mp hlast with rfl | hin
      · -- no entry is above the largest key
        have hnil : rest = [] := eq_nil_iff_forall_not_mem.mpr fun x hx => by
          have hlt := hfirst x hx
          have hle := h.le x (mem_cons_of_mem _ hx)
          omega
        subst hnil
        exact congrArg (· + 1) hfull
      · refine ih ⟨hsorted, fun x hx => h.le x (mem_cons_of_mem _ hx), last, hin, hfull⟩ hfirst
          fun k hk hle => ?_
        obtain ⟨e', he', hvalue⟩ := hvalues k ((hlo e mem_cons_self).trans (by omega)) hle
        rw [List.find?_cons_of_neg (by simpa using Nat.not_le_of_lt hk)] at he'
        exact ⟨e', he', hvalue⟩

/-! ## Building -/

/-- The state of the loop of `build`: the keys from `rangeEnd` on are done. -/
structure RangeMapBuilder.Filled (defaultValue : V) (all rest : List (RangeMapRange V))
    (ranges : List (RangeMapEntry V)) (rangeEnd : RangeMapEntry V) : Prop where
  packed : RangeMap.Packed ranges
  above : ∀ e ∈ ranges, rangeEnd.key ≤ e.key
  head : ∃ e, ranges.head? = some e ∧ e.value = rangeEnd.value
  done : ∀ e ∈ all, e ∈ rest ∨ rangeEnd.key ≤ e.min
  values : ∀ k, rangeEnd.key ≤ k → k ≤ uint32Max →
    ∃ e, ranges.find? (fun e => k ≤ e.key) = some e ∧ IsRangeValue defaultValue all k e.value

namespace RangeMapBuilder

variable {defaultValue : V} {all rest : List (RangeMapRange V)} {ranges : List (RangeMapEntry V)}
  {rangeEnd : RangeMapEntry V}

theorem Filled.gap (h : Filled defaultValue all rest ranges rangeEnd) {b : Nat}
    (hb : b < rangeEnd.key) (hrest : ∀ e ∈ rest, e.max < b) :
    Filled defaultValue all rest (⟨rangeEnd.key - 1, defaultValue⟩ :: ranges) ⟨b, defaultValue⟩ := by
  constructor
  · constructor
    · rw [pairwise_cons]
      exact ⟨fun e he => (Nat.sub_one_lt (by omega)).trans_le (h.above e he), h.packed.sorted⟩
    · obtain ⟨last, hlast, hfull⟩ := h.packed.full
      have habove := h.above last hlast
      exact forall_mem_cons.mpr ⟨show rangeEnd.key - 1 ≤ uint32Max by omega, h.packed.le⟩
    · obtain ⟨e, he, hfull⟩ := h.packed.full
      exact ⟨e, mem_cons_of_mem _ he, hfull⟩
  · intro e he
    rcases mem_cons.mp he with rfl | he
    · exact Nat.le_sub_one_of_lt hb
    · exact hb.le.trans (h.above e he)
  · exact ⟨_, rfl, rfl⟩
  · intro e he
    rcases h.done e he with hin | hle
    · exact .inl hin
    · exact .inr (hb.le.trans hle)
  · intro k hbk hk
    by_cases hgap : k ≤ rangeEnd.key - 1
    · refine ⟨⟨rangeEnd.key - 1, defaultValue⟩, by simp [hgap], .inr ⟨fun e he => ?_, rfl⟩⟩
      rcases h.done e he with hin | hle
      · exact .inr ((hrest e hin).trans_le hbk)
      · exact .inl (by omega)
    · obtain ⟨e, he, hvalue⟩ := h.values k (by omega) hk
      exact ⟨e, by simp [hgap, he], hvalue⟩

theorem Filled.range [DecidableEq V] {entry : RangeMapRange V}
    (h : Filled defaultValue all (entry :: rest) ranges rangeEnd) (hall : entry ∈ all)
    (hnext : entry.max + 1 = rangeEnd.key) (hle : entry.min ≤ entry.max) :
    Filled defaultValue all rest
      (if entry.value ≠ rangeEnd.value then ⟨entry.max, entry.value⟩ :: ranges else ranges)
      ⟨entry.min, entry.value⟩ := by
  have hdone : ∀ e ∈ all, e ∈ rest ∨ entry.min ≤ e.min := by
    intro e he
    rcases h.done e he with hin | hge
    · rcases mem_cons.mp hin with rfl | hin
      · exact .inr le_rfl
      · exact .inl hin
    · exact .inr (by omega)
  have hin : ∀ k, entry.min ≤ k → k ≤ entry.max → IsRangeValue defaultValue all k entry.value :=
    fun k hmin hmax => .inl ⟨entry, hall, hmin, hmax, rfl⟩
  split
  · next hne =>
    constructor
    · constructor
      · rw [pairwise_cons]
        refine ⟨fun e he => ?_, h.packed.sorted⟩
        have habove := h.above e he
        show entry.max < e.key
        omega
      · obtain ⟨last, hlast, hfull⟩ := h.packed.full
        have habove := h.above last hlast
        exact forall_mem_cons.mpr ⟨show entry.max ≤ uint32Max by omega, h.packed.le⟩
      · obtain ⟨e, he, hfull⟩ := h.packed.full
        exact ⟨e, mem_cons_of_mem _ he, hfull⟩
    · intro e he
      rcases mem_cons.mp he with rfl | he
      · exact hle
      · have habove := h.above e he
        show entry.min ≤ e.key
        omega
    · exact ⟨_, rfl, rfl⟩
    · exact hdone
    · intro k hmin hk
      by_cases hmax : k ≤ entry.max
      · exact ⟨⟨entry.max, entry.value⟩, by simp [hmax], hin k hmin hmax⟩
      · obtain ⟨e, he, hvalue⟩ := h.values k (by omega) hk
        exact ⟨e, by simp [hmax, he], hvalue⟩
  · next heq =>
    rw [not_not] at heq
    obtain ⟨first, hfirst, hvalue⟩ := h.head
    obtain ⟨others, rfl⟩ : ∃ others, ranges = first :: others := by
      cases ranges with
      | nil => cases hfirst
      | cons x xs => exact ⟨xs, by rw [Option.some.inj hfirst]⟩
    have hfirst' := h.above first mem_cons_self
    refine ⟨h.packed, ?_, ⟨first, rfl, hvalue.trans heq.symm⟩, hdone, ?_⟩
    · intro e he
      have habove := h.above e he
      show entry.min ≤ e.key
      omega
    · intro k hmin hk
      by_cases hmax : k ≤ entry.max
      · have hle' : k ≤ first.key := by omega
        refine ⟨first, by simp [hle'], ?_⟩
        rw [hvalue, ← heq]
        exact hin k hmin hmax
      · exact h.values k (by omega) hk

theorem Filled.fill [DecidableEq V] (h : Filled defaultValue all rest ranges rangeEnd)
    (hall : ∀ e ∈ rest, e ∈ all ∧ e.min ≤ e.max) (hsorted : rest.Pairwise fun a b => b.max ≤ a.max)
    {ranges' : List (RangeMapEntry V)} {rangeEnd' : RangeMapEntry V}
    (hfill : fill defaultValue rest ranges rangeEnd = .ok (ranges', rangeEnd')) :
    Filled defaultValue all [] ranges' rangeEnd' := by
  induction rest generalizing ranges rangeEnd with
  | nil =>
    cases hfill
    exact h
  | cons entry rest ih =>
    rw [RangeMapBuilder.fill] at hfill
    split at hfill
    · cases hfill
    · next hbelow =>
      obtain ⟨hmem, hle⟩ := hall entry mem_cons_self
      obtain ⟨hfirst, hsorted⟩ := pairwise_cons.mp hsorted
      have hall' : ∀ e ∈ rest, e ∈ all ∧ e.min ≤ e.max :=
        fun e he => hall e (mem_cons_of_mem _ he)
      by_cases hnext : entry.max + 1 = rangeEnd.key
      · rw [if_neg (not_not.mpr hnext)] at hfill
        exact ih (h.range hmem hnext hle) hall' hsorted hfill
      · rw [if_pos hnext] at hfill
        have hgap := h.gap (b := entry.max + 1) (by omega) (by
          intro e he
          rcases mem_cons.mp he with rfl | he
          · exact Nat.lt_succ_self _
          · exact Nat.lt_succ_of_le (hfirst e he))
        exact ih (hgap.range hmem rfl hle) hall' hsorted hfill

theorem Filled.start {top : RangeMapRange V} (htop : top.max = uint32Max) (hle : top.min ≤ top.max)
    (hdone : ∀ e ∈ all, e ∈ rest ∨ top.min ≤ e.min)
    (hvalues : ∀ k, top.min ≤ k → k ≤ uint32Max → IsRangeValue defaultValue all k top.value) :
    Filled defaultValue all rest [⟨top.max, top.value⟩] ⟨top.min, top.value⟩ := by
  constructor
  · exact ⟨pairwise_singleton _ _, by simp [htop], _, mem_singleton_self _, htop⟩
  · intro e he
    obtain rfl := mem_singleton.mp he
    exact hle
  · exact ⟨_, rfl, rfl⟩
  · exact hdone
  · intro k hmin hk
    have hmax : k ≤ top.max := by omega
    exact ⟨⟨top.max, top.value⟩, by simp [hmax], hvalues k hmin hk⟩

theorem Filled.finish (h : Filled defaultValue all [] ranges rangeEnd) :
    ∃ first, Filled defaultValue all []
      (if rangeEnd.key > 0 then ⟨rangeEnd.key - 1, defaultValue⟩ :: ranges else ranges) first ∧
      first.key = 0 := by
  split
  · next hpos => exact ⟨_, h.gap hpos (by simp), rfl⟩
  · next hzero => exact ⟨_, h, by omega⟩

/-- The loop goes through ranges that do not overlap, and only through these. -/
theorem fill_ok_iff [DecidableEq V] (hle : ∀ e ∈ rest, e.min ≤ e.max) :
    (∃ r, fill defaultValue rest ranges rangeEnd = .ok r) ↔
      (∀ e ∈ rest, e.max < rangeEnd.key) ∧ rest.Pairwise fun a b => b.max < a.min := by
  induction rest generalizing ranges rangeEnd with
  | nil => simp [fill]
  | cons entry rest ih =>
    obtain ⟨hentry, hrest⟩ := forall_mem_cons.mp hle
    rw [fill]
    split
    · next hge => simp [hge.not_gt]
    · next hbelow =>
      simp only [ih hrest, forall_mem_cons, pairwise_cons]
      constructor
      · rintro ⟨hfirst, hapart⟩
        exact ⟨⟨by omega, fun e he => (hfirst e he).trans_le (by omega)⟩, hfirst, hapart⟩
      · rintro ⟨-, hfirst, hapart⟩
        exact ⟨hfirst, hapart⟩

/-- No key is in both. -/
def Apart (a b : RangeMapRange V) : Prop := a.max < b.min ∨ b.max < a.min

section

variable {entries : List (RangeMapRange V)} (defaultValue : V)
  (hentries : ∀ e ∈ entries, e.min ≤ e.max ∧ e.max ≤ uint32Max)
include hentries

/-- The loop begins with the range of the largest key, and goes through all the others if and
only if no ranges overlap. -/
theorem descending_spec [DecidableEq V] :
    ∃ top rest, descending defaultValue entries = (top, rest) ∧
      Filled defaultValue entries rest [⟨top.max, top.value⟩] ⟨top.min, top.value⟩ ∧
      (∀ e ∈ rest, e ∈ entries ∧ e.min ≤ e.max) ∧ rest.Pairwise (fun a b => b.max ≤ a.max) ∧
      ((∃ r, fill defaultValue rest [⟨top.max, top.value⟩] ⟨top.min, top.value⟩ = .ok r) ↔
        entries.Pairwise Apart) := by
  have hsorted := pairwise_reverse.mpr (pairwise_insertionSort (·.max ≤ ·.max) entries)
  have hperm : (entries.insertionSort fun a b => a.max ≤ b.max).reverse.Perm entries :=
    (reverse_perm _).trans (perm_insertionSort _ _)
  have hmem := fun e => hperm.mem_iff (a := e)
  have hapart : (entries.insertionSort fun a b => a.max ≤ b.max).reverse.Pairwise
      (fun a b => b.max < a.min) ↔ entries.Pairwise Apart := by
    rw [← hperm.pairwise_iff (R := Apart) fun h => Or.symm h]
    refine ⟨fun h => h.imp .inr, fun h => ?_⟩
    refine (h.and hsorted).imp_of_mem fun {a b} ha hb hab => hab.1.resolve_left fun hlt => ?_
    have hab' := (hentries b ((hmem b).mp hb)).1
    omega
  rw [← hapart]
  unfold descending
  generalize (entries.insertionSort fun a b => a.max ≤ b.max).reverse = descending at *
  have hle : ∀ e ∈ descending, e ∈ entries ∧ e.min ≤ e.max :=
    fun e he => ⟨(hmem e).mp he, (hentries e ((hmem e).mp he)).1⟩
  cases descending with
  | nil =>
    have hnone : ∀ e ∈ entries, False := fun e he => not_mem_nil ((hmem e).mpr he)
    exact ⟨_, _, rfl, .start rfl le_rfl (fun e he => (hnone e he).elim)
      (fun k _ _ => .inr ⟨fun e he => (hnone e he).elim, rfl⟩), hle, .nil, by simp [fill]⟩
  | cons last rest =>
    obtain ⟨hfirst, hrest⟩ := pairwise_cons.mp hsorted
    have hlast := hentries last ((hmem last).mp mem_cons_self)
    have hmax : ∀ e ∈ entries, e.max ≤ last.max := by
      intro e he
      rcases mem_cons.mp ((hmem e).mpr he) with rfl | hin
      · exact le_rfl
      · exact hfirst e hin
    by_cases hlt : last.max < uint32Max
    · refine ⟨_, _, if_pos hlt, .start rfl le_rfl (fun e he => .inl ((hmem e).mpr he)) ?_,
        hle, hsorted, ?_⟩
      · intro k hmin hk
        exact .inr ⟨fun e he => .inr ((hmax e he).trans_lt (hlt.trans_le hmin)), rfl⟩
      · rw [fill_ok_iff fun e he => (hle e he).2]
        exact and_iff_right fun e he => (hmax e ((hmem e).mp he)).trans_lt hlt
    · refine ⟨_, _, if_neg hlt, .start (by omega) hlast.1 ?_ ?_,
        fun e he => hle e (mem_cons_of_mem _ he), hrest, ?_⟩
      · intro e he
        rcases mem_cons.mp ((hmem e).mpr he) with rfl | hin
        · exact .inr le_rfl
        · exact .inl hin
      · intro k hmin hk
        exact .inl ⟨last, (hmem last).mp mem_cons_self, hmin, by omega, rfl⟩
      · rw [fill_ok_iff fun e he => (hle e (mem_cons_of_mem _ he)).2, pairwise_cons]

theorem build_ok_iff [DecidableEq V] :
    (∃ map, build defaultValue entries = .ok map) ↔ entries.Pairwise Apart := by
  obtain ⟨top, rest, heq, -, -, -, hiff⟩ := descending_spec defaultValue hentries
  rw [← hiff, build, heq]
  simp only
  split
  · next hfill => simp [hfill]
  · next hfill => simp [hfill]

end

/-- A search in the entries of a map finds the values that the keys should have. -/
theorem build_returned [DecidableEq V] {entries : List (RangeMapRange V)} {map : RangeMap V}
    (hentries : ∀ e ∈ entries, e.min ≤ e.max ∧ e.max ≤ uint32Max)
    (hbuild : build defaultValue entries = .ok map) :
    RangeMap.Packed map.entries ∧ ∀ k ≤ uint32Max, ∃ e, map.entries.find? (fun e => k ≤ e.key) = some e ∧
      IsRangeValue defaultValue entries k e.value := by
  obtain ⟨top, rest, heq, hfilled, hrest, hdescending, -⟩ := descending_spec defaultValue hentries
  rw [build, heq] at hbuild
  simp only at hbuild
  split at hbuild
  · cases hbuild
  · next ranges rangeEnd hloop =>
    cases hbuild
    obtain ⟨first, hall, hfirst⟩ := (hfilled.fill hrest hdescending hloop).finish
    exact ⟨hall.packed, fun k hk => hall.values k (by omega) hk⟩

end RangeMapBuilder

/-- **A range map gives a key of a given range its value, and any other key the default one.** -/
theorem RangeMap.lookup_ok [DecidableEq V] {defaultValue : V} {entries : List (RangeMapRange V)}
    {map : RangeMap V} (hentries : ∀ e ∈ entries, e.min ≤ e.max ∧ e.max ≤ uint32Max)
    (hbuild : RangeMapBuilder.build defaultValue entries = .ok map) {k : Nat} (hk : k ≤ uint32Max) :
    ∃ e, map.lookup k = .ok e ∧ IsRangeValue defaultValue entries k e.value := by
  obtain ⟨hpacked, hvalues⟩ := RangeMapBuilder.build_returned hentries hbuild
  obtain ⟨e, he, hvalue⟩ := hvalues k hk
  obtain ⟨e', he', hfind⟩ := lookup_eq map hpacked hk
  obtain rfl := Option.mem_unique hfind he
  exact ⟨e', he', hvalue⟩

namespace RangeMapBuilder

/-- **A range map is exact.** `build` raises if and only if two of the given ranges overlap.
Otherwise a lookup gives each key the value of its range, or the default one, and so do the
intervals of `iterate`, which follow one another from 0 to the largest key. -/
theorem build_exact [DecidableEq V] (defaultValue : V) (entries : List (RangeMapRange V))
    (hentries : ∀ e ∈ entries, e.min ≤ e.max ∧ e.max ≤ uint32Max) :
    ((∃ message, build defaultValue entries = .error message) ↔ ¬ entries.Pairwise Apart) ∧
      ∀ map, build defaultValue entries = .ok map →
        (∀ k ≤ uint32Max, ∃ e, map.lookup k = .ok e ∧
          IsRangeValue defaultValue entries k e.value) ∧
        Cut (IsRangeValue defaultValue entries) 0 map.iterate := by
  constructor
  · rw [← build_ok_iff defaultValue hentries]
    cases build defaultValue entries <;> simp
  · intro map hbuild
    obtain ⟨hpacked, hvalues⟩ := build_returned hentries hbuild
    exact ⟨fun k hk => RangeMap.lookup_ok hentries hbuild hk,
      hpacked.cut (fun _ _ => Nat.zero_le _) fun k _ hk => hvalues k hk⟩

/-- Ranges at both ends of the keys. -/
def sampleRanges : List (RangeMapRange Nat) :=
  [⟨uint32Max, uint32Max, 3⟩, ⟨4, 7, 2⟩, ⟨0, 3, 2⟩]

theorem build_exact_sample :
    ((∃ message, build 0 sampleRanges = .error message) ↔ ¬ sampleRanges.Pairwise Apart) ∧
      ∀ map, build 0 sampleRanges = .ok map →
        (∀ k ≤ uint32Max, ∃ e, map.lookup k = .ok e ∧ IsRangeValue 0 sampleRanges k e.value) ∧
        Cut (IsRangeValue 0 sampleRanges) 0 map.iterate :=
  build_exact 0 sampleRanges (by decide)

end RangeMapBuilder

end Snabb
