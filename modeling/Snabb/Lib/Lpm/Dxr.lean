import Snabb.Foundation.IntervalTable
import Snabb.Lib.Lpm.Map
import Mathlib.Data.Finset.Card
import Mathlib.Data.List.MinMax

/-!
# Intervals of addresses (`lib/lpm/lpm4_dxr.lua`)

`build` flattens the entries of the trie into intervals: it visits them in order and keeps those
that reach up to the current entry on a stack. Then it drops the intervals that have the key of
their successor, and finds for each block of 65536 addresses the intervals of its first and last
address, so that a search only compares the lower halves of addresses.

Three things go wrong. A gap of one address in front of an entry is not filled, so that the
address gets the key of what comes behind it. The prefix 0.0.0.0/0 is pushed twice, so that the
stack is too small for prefixes of all lengths above each other. And the step that drops
intervals looks at two elements behind the last one, which an earlier build has left: if both
have the key of 0.0.0.0/0 and lie in the last block, the last interval is lost. `Clean` excludes
exactly this.

- `Swept.advance`, `Swept.pop`, `Swept.push`: what one interval or entry does to the sweep;
- `addEntry_spec`: an entry is visited, and the intervals are recorded up to where it begins;
- `buildIntervals_spec`: the intervals give each address the key of its longest prefix.
-/

namespace Snabb

open Foundation Prefix LpmTrie IntervalTable List
open Function (update update_of_ne update_self)

/-- `LPM4_dxr` without the trie that it inherits from: `dxr_intervals`, `dxr_keys`, `dxr_smints`,
`dxr_bottoms`, `dxr_tops` and `dxr_ioff`. -/
structure LpmDxr where
  intervals : Nat → Nat
  keys : Nat → Nat
  smints : Nat → Nat
  bottoms : Nat → Nat
  tops : Nat → Nat
  ioff : Nat
  built : Bool

/-- The last address of an entry. -/
def bcast (e : LpmEntry) : Int := e.ip.toNat + 2 ^ (32 - e.length) - 1

namespace LpmDxr

/-- The length of `dxr_intervals`, `dxr_keys` and `dxr_smints`. -/
def arrayLength : Nat := 2000000

/-- `LPM4_dxr:new`. -/
def new : LpmDxr := ⟨fun _ => 0, fun _ => 0, fun _ => 0, fun _ => 0, fun _ => 0, 0, false⟩

/-! ### `build_intervals` -/

/-- `push`. -/
def push (stk : List LpmEntry) (e : LpmEntry) : Except LpmFault (List LpmEntry) :=
  if stk.length < 33 then .ok (e :: stk) else .error (.outOfBounds stk.length)

/-- `add_interval`, with the head of the stack; the other value is `previous`. -/
def addInterval (s : LpmDxr × Int) (head : LpmEntry) (finish : Int) :
    Except LpmFault (LpmDxr × Int) :=
  let t := s.1
  if t.ioff < arrayLength then
    .ok ({ t with intervals := update t.intervals t.ioff (finish % 2 ^ 32).toNat,
                  keys := update t.keys t.ioff (head.key.toNat % 2 ^ 16),
                  ioff := t.ioff + 1 }, finish)
  else .error (.outOfBounds t.ioff)

/-- `while(bcast(head()) < e.ip)`. -/
def popBelow (ip : Int) :
    List LpmEntry → LpmDxr × Int → Except LpmFault (List LpmEntry × LpmDxr × Int)
  | [], _ => .error (.outOfBounds 0)
  | head :: stk, s =>
    if bcast head < ip then do
      let s ← (if s.2 < bcast head then addInterval s head (bcast head) else .ok s)
      popBelow ip stk s
    else .ok (head :: stk, s)

/-- "If there is a gap between the end of what we popped and this fill it with what's on the
stack". -/
def fillGap (ip : Int) (stk : List LpmEntry) (s : LpmDxr × Int) : Except LpmFault (LpmDxr × Int) :=
  -- a gap of one address is not filled
  if s.2 + 1 < ip - 1 then
    match stk with
    | [] => .error (.outOfBounds 0)
    | head :: _ => addInterval s head (ip - 1)
  else .ok s

/-- The loop over the entries. -/
def addEntry (s : List LpmEntry × LpmDxr × Int) (e : LpmEntry) :
    Except LpmFault (List LpmEntry × LpmDxr × Int) := do
  let (stk, s) ← (if e.ip = 0 ∧ e.length = 0 then do
      let stk ← push s.1 e
      return (stk, s.2)
    else popBelow e.ip.toNat s.1 s.2)
  let s ← fillGap e.ip.toNat stk s
  let stk ← push stk e
  return (stk, s)

/-- `build_intervals`. -/
def buildIntervals (t : LpmDxr) (es : List LpmEntry) : Except LpmFault LpmDxr := do
  let (stk, s) ← es.foldlM addEntry ([], t, -1)
  let s ← stk.foldlM (fun s head => addInterval s head (bcast head)) s
  return s.1

/-! ### `build_compressed` -/

/-- The loop of `build_compressed`; the other value is `j`, which is not above `k`. -/
def compress (s : LpmDxr × Nat) (k : Nat) : LpmDxr × Nat :=
  let (t, j) := s
  if t.keys k = t.keys (k + 1) ∧ t.intervals k / 2 ^ 16 = t.intervals (k + 1) / 2 ^ 16 then (t, j)
  else
    ({ t with keys := update t.keys j (t.keys k),
              intervals := update t.intervals j (t.intervals k),
              smints := update t.smints j (t.intervals k % 2 ^ 16) }, j + 1)

/-- `build_compressed`. -/
def buildCompressed (t : LpmDxr) : Except LpmFault LpmDxr :=
  if t.ioff + 1 < arrayLength then
    let (t, j) := (List.range (t.ioff + 1)).foldl compress (t, 0)
    .ok { t with ioff := j }
  else .error (.outOfBounds (t.ioff + 1))

/-! ### Searches -/

/-- `ints[mid] < ip`. -/
def below (ints : Nat → Nat) (ip : Nat) (mid : Int) : Except LpmFault Bool :=
  if mid < arrayLength then .ok (decide (ints mid.toNat < ip))
  else .error (.outOfBounds mid.toNat)

/-- `search_interval`. -/
def searchInterval (t : LpmDxr) (ip : Nat) : Except LpmFault Int :=
  if t.built then
    bisect (below t.smints (ip % 2 ^ 16)) (t.bottoms (ip / 2 ^ 16)) (t.tops (ip / 2 ^ 16))
  else bisect (below t.intervals ip) 0 (t.ioff - 1)

/-- `dxr_keys[search_interval(ip)]`. -/
def lookup (t : LpmDxr) (ip : Nat) : Except LpmFault Nat := do
  let i ← t.searchInterval ip
  if 0 ≤ i ∧ i < arrayLength then .ok (t.keys i.toNat) else .error (.outOfBounds i.toNat)

/-! ### `build_direct` -/

/-- The loop of `build_direct`. -/
def setDirect (t : LpmDxr) (i : Nat) : Except LpmFault LpmDxr := do
  let base := i * 2 ^ 16
  let bottom ← t.searchInterval base
  let t := { t with bottoms := update t.bottoms i (bottom % 2 ^ 32).toNat }
  let top ← t.searchInterval (base + 2 ^ 16 - 1)
  return { t with tops := update t.tops i (top % 2 ^ 32).toNat }

/-- `build_direct`. -/
def buildDirect (t : LpmDxr) : Except LpmFault LpmDxr := (List.range (2 ^ 16)).foldlM setDirect t

/-- `LPM4_dxr:build`. -/
def build (t : LpmDxr) (es : List LpmEntry) : Except LpmFault LpmDxr := do
  let t ← { t with built := false, ioff := 0 }.buildIntervals es
  let t ← t.buildCompressed
  let t ← t.buildDirect
  return { t with built := true }

end LpmDxr

/-! ## What a clean build is -/

/-- The first address behind an entry. -/
def LpmEntry.stop (e : LpmEntry) : Nat := e.ip.toNat + 2 ^ (32 - e.length)

/-- The addresses at which an entry begins, or behind which one ends. -/
def cuts (es : List LpmEntry) : Finset Nat :=
  (es.map fun e => e.ip.toNat).toFinset ∪ (es.map LpmEntry.stop).toFinset

/-- The address at which the last entry begins. -/
def lastStart (es : List LpmEntry) : Nat := (es.map fun e => e.ip.toNat).foldr max 0

/-- How many intervals there are: one for each cut, one for each entry that reaches behind the
last begin, and one more. -/
def intervalCount (es : List LpmEntry) : Nat :=
  ((cuts es).filter fun c => 0 < c ∧ c ≤ lastStart es).card +
    (es.filter fun e => lastStart es < e.stop).length + 1

/-- An interval that an earlier build has left lies in the last block and has a given key. -/
def LpmDxr.Stale (t : LpmDxr) (key : BitVec 32) (i : Nat) : Prop :=
  t.keys i = key.toNat ∧ t.intervals i / 2 ^ 16 = 2 ^ 16 - 1

instance (t : LpmDxr) (key : BitVec 32) (i : Nat) : Decidable (t.Stale key i) :=
  inferInstanceAs (Decidable (_ ∧ _))

/-- There is no gap of one address in front of an entry, no address has prefixes of all lengths,
and the intervals that an earlier build has left behind the new ones are not both like the last
one. -/
structure LpmDxr.Clean (t : LpmDxr) (es : List LpmEntry) : Prop where
  filled : ∀ x ∈ cuts es, (∃ e ∈ es, e.ip.toNat = x + 1) → ∃ e ∈ es, e.stop = x + 1
  shallow : ∀ a : BitVec 32, ∃ l ≤ 32, ∀ e ∈ es, ¬ (e.length = l ∧ e.ip = keep l a)
  fresh : ∀ e ∈ es, e.length = 0 →
    ¬ (t.Stale e.key (intervalCount es) ∧ t.Stale e.key (intervalCount es + 1))

/-! ## The sweep over the entries -/

section

variable {ns done rest chain : List (Prefix 32 × LpmKey)} {n c : Prefix 32 × LpmKey}
  {next : Nat} {out : List (Nat × Nat)} {a : BitVec 32} {x : Nat}

theorem mem_cuts {es : List LpmEntry} : x ∈ cuts es ↔ ∃ e ∈ es, e.ip.toNat = x ∨ e.stop = x := by
  rw [cuts, Finset.mem_union, mem_toFinset, mem_toFinset, mem_map, mem_map]
  constructor
  · rintro (⟨e, he, rfl⟩ | ⟨e, he, rfl⟩)
    · exact ⟨e, he, .inl rfl⟩
    · exact ⟨e, he, .inr rfl⟩
  · rintro ⟨e, he, rfl | rfl⟩
    · exact .inl ⟨e, he, rfl⟩
    · exact .inr ⟨e, he, rfl⟩

theorem mem_cuts_nodes :
    x ∈ cuts (ns.map entryFor) ↔ ∃ n ∈ ns, n.1.ip.toNat = x ∨ (entryFor n).stop = x := by
  rw [mem_cuts]
  constructor
  · rintro ⟨e, he, hcut⟩
    obtain ⟨n, hn, rfl⟩ := mem_map.mp he
    exact ⟨n, hn, hcut⟩
  · rintro ⟨n, hn, hcut⟩
    exact ⟨entryFor n, mem_map_of_mem hn, hcut⟩

theorem start_mem_cuts (h : n ∈ ns) : n.1.ip.toNat ∈ cuts (ns.map entryFor) :=
  mem_cuts_nodes.mpr ⟨n, h, .inl rfl⟩

theorem stop_mem_cuts (h : n ∈ ns) : (entryFor n).stop ∈ cuts (ns.map entryFor) :=
  mem_cuts_nodes.mpr ⟨n, h, .inr rfl⟩

theorem contains_iff_stop : n.1.Contains a ↔ n.1.ip.toNat ≤ a.toNat ∧ a.toNat < (entryFor n).stop :=
  contains_iff_interval

theorem start_lt_stop : n.1.ip.toNat < (entryFor n).stop :=
  Nat.lt_add_of_pos_right n.1.size_pos

theorem bcast_entryFor : bcast (entryFor n) = ((entryFor n).stop : Int) - 1 := by
  rfl

theorem stop_le_of_covers (h : c.1.Covers n.1) : (entryFor n).stop ≤ (entryFor c).stop := by
  have hlast : n.1.ip.toNat + (n.1.size - 1) < 2 ^ 32 := by
    obtain ⟨k, hk⟩ := n.1.size_dvd
    obtain ⟨j, hj⟩ : n.1.size ∣ 2 ^ 32 := pow_dvd_pow 2 (Nat.sub_le 32 n.1.length)
    have hlt := n.1.ip.isLt
    rw [hk, hj] at hlt
    have hkj : k + 1 ≤ j := Nat.lt_of_mul_lt_mul_left hlt
    have hle := Nat.mul_le_mul_left n.1.size hkj
    rw [Nat.mul_add] at hle
    omega
  have hn : n.1.Contains (BitVec.ofNat 32 (n.1.ip.toNat + (n.1.size - 1))) := by
    have hpos : 0 < n.1.size := n.1.size_pos
    rw [contains_iff_interval, BitVec.toNat_ofNat]
    omega
  have hc := contains_iff_interval.mp (h.contains hn)
  rw [BitVec.toNat_ofNat] at hc
  show n.1.ip.toNat + n.1.size ≤ c.1.ip.toNat + c.1.size
  omega

/-- The entry with the longest prefix that contains an address. -/
def LongestIn (ns : List (Prefix 32 × LpmKey)) (a : BitVec 32) (n : Prefix 32 × LpmKey) : Prop :=
  n ∈ ns ∧ n.1.Contains a ∧ ∀ n' ∈ ns, n'.1.Contains a → n'.1.length ≤ n.1.length

/-- The sweep has recorded the intervals of the addresses in front of `next`. Of the entries that
it has visited those that reach there are a chain, the longest first. -/
structure Swept (ns done chain : List (Prefix 32 × LpmKey)) (next : Nat) (out : List (Nat × Nat)) :
    Prop where
  visited : ∀ n ∈ done, n ∈ ns ∧ n.1.ip.toNat ≤ next
  nested : chain.Pairwise fun c d => d.1.Covers c.1 ∧ d.1 ≠ c.1
  chain_sub : ∀ c ∈ chain, c ∈ done
  reaching : ∀ n ∈ done, next < (entryFor n).stop → n ∈ chain
  next_mem : next ∈ cuts (ns.map entryFor)
  sorted : out.Pairwise fun x y => x.1 < y.1
  ends : ∀ x, (∃ o ∈ out, o.1 + 1 = x) ↔ x ∈ cuts (ns.map entryFor) ∧ 0 < x ∧ x ≤ next
  answers : ∀ a : BitVec 32, a.toNat < next → ∀ n, LongestIn ns a n →
    ∃ o, out.find? (fun o => a.toNat ≤ o.1) = some o ∧ o.2 = n.2.1.toNat

/-- If the head of a chain contains an address, then nothing else in it is longest. -/
theorem eq_head_of_longest (hnested : (c :: chain).Pairwise fun c d => d.1.Covers c.1 ∧ d.1 ≠ c.1)
    (hc : c ∈ ns) (hcontains : c.1.Contains a) (hn : LongestIn ns a n) (hmem : n ∈ c :: chain) :
    n = c := by
  rcases mem_cons.mp hmem with heq | hchain
  · exact heq
  · obtain ⟨hcovers, hne⟩ := (pairwise_cons.mp hnested).1 n hchain
    have hlt := hcovers.length_lt hne
    exact absurd (hn.2.2 c hc hcontains) (by omega)

/-- Of the entries of a chain that contain an address the first is the longest of all. -/
theorem Swept.eq_of_longest (h : Swept ns done (c :: chain) next out)
    (hlater : ∀ n ∈ ns, n ∉ done → a.toNat < n.1.ip.toNat) (hnext : next ≤ a.toNat)
    (hc : a.toNat < (entryFor c).stop) (hn : LongestIn ns a n) : n = c := by
  obtain ⟨hstart, hstop⟩ := contains_iff_stop.mp hn.2.1
  have hdone : n ∈ done := by
    by_contra hnot
    exact absurd (hlater n hn.1 hnot) (by omega)
  have hcdone := h.visited c (h.chain_sub c (mem_cons_self ..))
  exact eq_head_of_longest h.nested hcdone.1 (contains_iff_stop.mpr ⟨by omega, hc⟩) hn
    (h.reaching n hdone (by omega))

theorem Swept.out_lt (h : Swept ns done chain next out) {o : Nat × Nat} (ho : o ∈ out) :
    o.1 < next := ((h.ends _).mp ⟨o, ho, rfl⟩).2.2

/-- Record the interval up to the next cut for the head of the chain. -/
theorem Swept.advance (finish : Nat) (h : Swept ns done (c :: chain) next out)
    (hfinish : next ≤ finish) (hstop : finish < (entryFor c).stop)
    (hmem : finish + 1 ∈ cuts (ns.map entryFor))
    (hcuts : ∀ x ∈ cuts (ns.map entryFor), next < x → finish < x)
    (hlater : ∀ n ∈ ns, n ∉ done → finish < n.1.ip.toNat) :
    Swept ns done (c :: chain) (finish + 1) (out ++ [(finish, c.2.1.toNat)]) := by
  refine ⟨fun n hn => ⟨(h.visited n hn).1, by have := (h.visited n hn).2; omega⟩, h.nested,
    h.chain_sub, fun n hn hlt => h.reaching n hn (by omega), hmem, ?_, fun x => ?_,
    fun a ha n hn => ?_⟩
  · refine pairwise_append.mpr ⟨h.sorted, pairwise_singleton _ _, fun x hx y hy => ?_⟩
    rw [mem_singleton.mp hy]
    exact (h.out_lt hx).trans_le hfinish
  · constructor
    · rintro ⟨o, ho, rfl⟩
      rcases mem_append.mp ho with ho | ho
      · obtain ⟨hx, hpos, hle⟩ := (h.ends _).mp ⟨o, ho, rfl⟩
        exact ⟨hx, hpos, by omega⟩
      · rw [mem_singleton.mp ho]
        exact ⟨hmem, Nat.succ_pos _, le_rfl⟩
    · rintro ⟨hx, hpos, hle⟩
      by_cases hold : x ≤ next
      · obtain ⟨o, ho, rfl⟩ := (h.ends x).mpr ⟨hx, hpos, hold⟩
        exact ⟨o, mem_append_left _ ho, rfl⟩
      · have hlt := hcuts x hx (by omega)
        exact ⟨_, mem_append_right _ (mem_singleton_self _), by
          omega⟩
  · rw [List.find?_append]
    by_cases hold : a.toNat < next
    · obtain ⟨o, ho, hkey⟩ := h.answers a hold n hn
      exact ⟨o, by rw [ho]; rfl, hkey⟩
    · have hnone : out.find? (fun o => decide (a.toNat ≤ o.1)) = none := by
        rw [List.find?_eq_none]
        intro o ho
        have hlt := h.out_lt ho
        simp only [decide_eq_true_eq]
        omega
      obtain rfl : n = c := h.eq_of_longest (fun n' hn' hnot => by
        have hlt := hlater n' hn' hnot
        omega) (by omega) (by omega) hn
      rw [hnone, List.find?_singleton, if_pos (decide_eq_true (by
        omega))]
      exact ⟨_, rfl, rfl⟩

theorem Swept.pop (h : Swept ns done (c :: chain) next out) (hstop : (entryFor c).stop ≤ next) :
    Swept ns done chain next out := by
  refine ⟨h.visited, (pairwise_cons.mp h.nested).2,
    fun d hd => h.chain_sub d (mem_cons_of_mem _ hd), fun n hn hlt => ?_, h.next_mem, h.sorted,
    h.ends, h.answers⟩
  rcases mem_cons.mp (h.reaching n hn hlt) with rfl | hchain
  · exact absurd hlt (by omega)
  · exact hchain

/-- Where the head of the chain stops there is no other cut before. -/
theorem Swept.stop_le_cut (h : Swept ns done (c :: chain) next out)
    (hlater : ∀ n ∈ ns, n ∉ done → (entryFor c).stop ≤ n.1.ip.toNat)
    (hx : x ∈ cuts (ns.map entryFor)) (hlt : next < x) : (entryFor c).stop ≤ x := by
  obtain ⟨n, hn, hcut⟩ := mem_cuts_nodes.mp hx
  by_cases hdone : n ∈ done
  · have hstart := (h.visited n hdone).2
    obtain rfl : (entryFor n).stop = x := hcut.resolve_left (by omega)
    rcases mem_cons.mp (h.reaching n hdone hlt) with rfl | hchain
    · exact le_rfl
    · exact stop_le_of_covers ((pairwise_cons.mp h.nested).1 n hchain).1
  · have hstart := hlater n hn hdone
    have hlt' : n.1.ip.toNat < (entryFor n).stop := start_lt_stop
    omega

/-- Where all of the chain reaches up to an address there is no cut before it. -/
theorem Swept.le_cut (h : Swept ns done chain next out) {ip : Nat}
    (hlater : ∀ n ∈ ns, n ∉ done → ip ≤ n.1.ip.toNat) (hreach : ∀ d ∈ chain, ip < (entryFor d).stop)
    (hx : x ∈ cuts (ns.map entryFor)) (hlt : next < x) : ip ≤ x := by
  obtain ⟨n, hn, hcut⟩ := mem_cuts_nodes.mp hx
  by_cases hdone : n ∈ done
  · have hstart := (h.visited n hdone).2
    obtain rfl : (entryFor n).stop = x := hcut.resolve_left (by omega)
    exact (hreach n (h.reaching n hdone hlt)).le
  · have hstart := hlater n hn hdone
    have hlt' : n.1.ip.toNat < (entryFor n).stop := start_lt_stop
    omega

theorem Swept.length_out (h : Swept ns done chain next out) :
    out.length = ((cuts (ns.map entryFor)).filter fun x => 0 < x ∧ x ≤ next).card := by
  have hnodup : (out.map fun o => o.1 + 1).Nodup :=
    pairwise_map.mpr (h.sorted.imp fun hlt => Nat.ne_of_lt (Nat.succ_lt_succ hlt))
  have heq : (out.map fun o => o.1 + 1).toFinset =
      (cuts (ns.map entryFor)).filter fun x => 0 < x ∧ x ≤ next := by
    ext x
    rw [mem_toFinset, mem_map, Finset.mem_filter]
    exact h.ends x
  rw [← heq, toFinset_card_of_nodup hnodup, length_map]

theorem le_lastStart (h : n ∈ ns) : n.1.ip.toNat ≤ lastStart (ns.map entryFor) :=
  le_max_of_le' 0 (mem_map_of_mem (mem_map_of_mem h)) le_rfl

/-- Up to the begin of the last entry there are not more intervals than there are in the end. -/
theorem Swept.length_out_lt (h : Swept ns done chain next out)
    (hnext : next ≤ lastStart (ns.map entryFor)) :
    out.length < intervalCount (ns.map entryFor) := by
  have hsub : ((cuts (ns.map entryFor)).filter fun x => 0 < x ∧ x ≤ next) ⊆
      (cuts (ns.map entryFor)).filter fun x => 0 < x ∧ x ≤ lastStart (ns.map entryFor) := by
    intro x hx
    rw [Finset.mem_filter] at hx ⊢
    exact ⟨hx.1, hx.2.1, hx.2.2.trans hnext⟩
  have hcard := Finset.card_le_card hsub
  rw [h.length_out, intervalCount]
  omega

/-- A chain of prefixes of one address is short if the address does not have them all. -/
theorem length_chain_le (hnested : chain.Pairwise fun c d => d.1.Covers c.1 ∧ d.1 ≠ c.1)
    (hcontains : ∀ c ∈ chain, c.1.Contains a) {l : Nat} (hl : l ≤ 32)
    (hnone : ∀ c ∈ chain, ¬ (c.1.length = l ∧ c.1.ip = keep l a)) : chain.length ≤ 32 := by
  have hnodup : (chain.map fun c => c.1.length).Nodup :=
    pairwise_map.mpr (hnested.imp fun ⟨hcovers, hne⟩ => (hcovers.length_lt hne).ne')
  have hsub : (chain.map fun c => c.1.length).toFinset ⊆ (Finset.range 33).erase l := by
    intro k hk
    obtain ⟨c, hc, rfl⟩ := mem_map.mp (mem_toFinset.mp hk)
    have hle := c.1.length_le
    refine Finset.mem_erase.mpr ⟨fun heq => hnone c hc ⟨heq, ?_⟩, Finset.mem_range.mpr (by omega)⟩
    rw [← heq]
    exact (hcontains c hc).symm
  have hcard := Finset.card_le_card hsub
  rw [toFinset_card_of_nodup hnodup, length_map,
    Finset.card_erase_of_mem (Finset.mem_range.mpr (by omega))] at hcard
  exact hcard

/-- An entry that begins in front of another one and reaches it covers it. -/
theorem covers_of_before (hbefore : c.1.Before n.1) (hstart : c.1.ip.toNat ≤ n.1.ip.toNat)
    (hreach : n.1.ip.toNat < (entryFor c).stop) : c.1.Covers n.1 := by
  have hcontains : c.1.Contains n.1.ip := contains_iff_stop.mpr ⟨hstart, hreach⟩
  refine ⟨?_, hcontains⟩
  by_contra hlt
  have hcovers := covers_of_contains contains_self hcontains (Nat.le_of_not_le hlt)
  exact (hbefore.trans (hcovers.before hbefore.ne.symm)).ne rfl

/-- Visit an entry up to which the intervals are recorded. -/
theorem Swept.push (h : Swept ns done chain n.1.ip.toNat out) (hn : n ∈ ns)
    (hbefore : ∀ d ∈ done, d.1.Before n.1)
    (hreach : ∀ d ∈ chain, n.1.ip.toNat < (entryFor d).stop) :
    Swept ns (done ++ [n]) (n :: chain) n.1.ip.toNat out := by
  refine ⟨fun d hd => ?_, pairwise_cons.mpr ⟨fun d hd => ?_, h.nested⟩, fun d hd => ?_,
    fun d hd hlt => ?_, h.next_mem, h.sorted, h.ends, h.answers⟩
  · rcases mem_append.mp hd with hd | hd
    · exact h.visited d hd
    · rw [mem_singleton.mp hd]
      exact ⟨hn, le_rfl⟩
  · have hd' := h.chain_sub d hd
    exact ⟨covers_of_before (hbefore d hd') (h.visited d hd').2 (hreach d hd), (hbefore d hd').ne⟩
  · rcases mem_cons.mp hd with rfl | hd
    · exact mem_append_right _ (mem_singleton_self _)
    · exact mem_append_left _ (h.chain_sub d hd)
  · rcases mem_append.mp hd with hd | hd
    · exact mem_cons_of_mem _ (h.reaching d hd hlt)
    · rw [mem_singleton.mp hd]
      exact mem_cons_self ..

end

/-! ## The sweep on the arrays -/

/-- The arrays show a list of intervals, and behind it what they showed before. -/
structure LpmDxr.Shows (t₀ t : LpmDxr) (out : List (Nat × Nat)) : Prop where
  ioff : t.ioff = out.length
  built : t.built = false
  entry : ∀ k (h : k < out.length), (t.intervals k, t.keys k) = out[k]
  beyond : ∀ k, out.length ≤ k → t.intervals k = t₀.intervals k ∧ t.keys k = t₀.keys k

/-- The interval that ends with an entry. -/
def lastOf (c : Prefix 32 × LpmKey) : Nat × Nat := ((entryFor c).stop - 1, c.2.1.toNat)

section

variable {ns done rest chain : List (Prefix 32 × LpmKey)} {n c root : Prefix 32 × LpmKey}
  {next : Nat} {out : List (Nat × Nat)} {a : BitVec 32} {t₀ t : LpmDxr}

theorem LpmDxr.Shows.record (head : LpmEntry) (finish : Nat) (previous : Int) (h : t₀.Shows t out)
    (hroom : out.length < LpmDxr.arrayLength) (hfinish : finish < 2 ^ 32) :
    ∃ t', LpmDxr.addInterval (t, previous) head finish = .ok (t', finish) ∧
      t₀.Shows t' (out ++ [(finish, head.key.toNat % 2 ^ 16)]) := by
  have hconvert : ((finish : Int) % 2 ^ 32).toNat = finish := by omega
  rw [LpmDxr.addInterval, if_pos (h.ioff ▸ hroom), hconvert]
  refine ⟨_, rfl, ?_, h.built, fun k hk => ?_, fun k hk => ?_⟩
  · rw [List.length_append, ← h.ioff]
    rfl
  · rw [List.length_append] at hk
    rcases Nat.lt_succ_iff_lt_or_eq.mp hk with hk | rfl
    · rw [getElem_append_left hk, ← h.entry k hk]
      show (update _ _ _ _, update _ _ _ _) = _
      rw [update_of_ne (by rw [h.ioff]; omega),
        update_of_ne (by rw [h.ioff]; omega)]
    · rw [getElem_append_right le_rfl]
      show (update _ _ _ _, update _ _ _ _) = _
      rw [h.ioff]
      simp
  · rw [List.length_append, length_singleton] at hk
    show update _ _ _ _ = _ ∧ update _ _ _ _ = _
    rw [update_of_ne (by rw [h.ioff]; omega),
      update_of_ne (by rw [h.ioff]; omega)]
    exact h.beyond k (by omega)

theorem LpmDxr.Shows.addInterval (finish : Nat) (previous : Int) (h : t₀.Shows t out)
    (hroom : out.length < LpmDxr.arrayLength) (hfinish : finish < 2 ^ 32)
    (hkey : c.2.1.toNat < 2 ^ 16) :
    ∃ t', LpmDxr.addInterval (t, previous) (entryFor c) finish = .ok (t', finish) ∧
      t₀.Shows t' (out ++ [(finish, c.2.1.toNat)]) := by
  have hmod : (entryFor c).key.toNat % 2 ^ 16 = c.2.1.toNat := Nat.mod_eq_of_lt hkey
  rw [← hmod]
  exact h.record (entryFor c) finish previous hroom hfinish

/-- The state of the loop over the entries: the stack is the chain, with the first entry once
more below it. -/
structure Sweeping (t₀ : LpmDxr) (root : Prefix 32 × LpmKey)
    (ns done chain : List (Prefix 32 × LpmKey)) (next : Nat) (out : List (Nat × Nat))
    (s : List LpmEntry × LpmDxr × Int) : Prop where
  swept : Swept ns done chain next out
  stk : s.1 = chain.map entryFor ++ [entryFor root]
  shows_out : t₀.Shows s.2.1 out
  previous : s.2.2 = (next : Int) - 1

/-- What the entries must meet for the arrays to hold the intervals. -/
structure Sizes (root : Prefix 32 × LpmKey) (ns : List (Prefix 32 × LpmKey)) : Prop where
  keys : ∀ n ∈ ns, n.2.1.toNat < 2 ^ 16
  count : intervalCount (ns.map entryFor) + 1 < LpmDxr.arrayLength
  root_mem : root ∈ ns
  root_length : root.1.length = 0

theorem Sizes.root_ip (h : Sizes root ns) : root.1.ip = 0 := by
  rw [← root.1.kept, h.root_length, keep_zero]
  rfl

theorem Sizes.root_stop (h : Sizes root ns) : (entryFor root).stop = 2 ^ 32 := by
  show root.1.ip.toNat + 2 ^ (32 - root.1.length) = _
  rw [h.root_ip, h.root_length]
  rfl

theorem Sizes.stop_le (h : Sizes root ns) (c : Prefix 32 × LpmKey) :
    (entryFor c).stop ≤ 2 ^ 32 := by
  rw [← h.root_stop]
  refine stop_le_of_covers ⟨by rw [h.root_length]; exact Nat.zero_le _, ?_⟩
  rw [Prefix.Contains, h.root_length, keep_zero, h.root_ip]
  rfl

section

variable (hsizes : Sizes root ns)
include hsizes

variable {stk : List LpmEntry} {s : LpmDxr × Int}

/-- **The entries that end before an address are popped**, and their intervals are recorded. -/
theorem popBelow_spec {ip : Nat} (hip : ip ≤ lastStart (ns.map entryFor))
    (hlt : ip < 2 ^ 32) (hlater : ∀ n ∈ ns, n ∉ done → ip ≤ n.1.ip.toNat)
    (h : Sweeping t₀ root ns done chain next out (stk, s)) (hnext : next ≤ ip) :
    ∃ chain' next' out' s', LpmDxr.popBelow ip stk s = .ok s' ∧
      Sweeping t₀ root ns done chain' next' out' s' ∧ next' ≤ ip ∧
      ∀ d ∈ chain', ip < (entryFor d).stop := by
  induction chain generalizing next out stk s with
  | nil =>
    obtain rfl : stk = [entryFor root] := h.stk
    have hroot : ¬ bcast (entryFor root) < ip := by
      rw [bcast_entryFor, hsizes.root_stop]
      omega
    exact ⟨[], next, out, _, by rw [LpmDxr.popBelow, if_neg hroot], h, hnext,
      fun d hd => (nomatch hd)⟩
  | cons c chain ih =>
    obtain rfl : stk = entryFor c :: (chain.map entryFor ++ [entryFor root]) := h.stk
    have hbcast := bcast_entryFor (n := c)
    by_cases hstop : (entryFor c).stop ≤ ip
    · rw [LpmDxr.popBelow, if_pos (by omega)]
      have hc := (h.swept.visited c (h.swept.chain_sub c (mem_cons_self ..))).1
      by_cases hopen : next < (entryFor c).stop
      · obtain ⟨t, previous⟩ := s
        obtain rfl : previous = next - 1 := h.previous
        have hfinish : bcast (entryFor c) = ((entryFor c).stop - 1 : Nat) := by omega
        have hroom := h.swept.length_out_lt (hnext.trans hip)
        obtain ⟨t', hadd, hshows⟩ := h.shows_out.addInterval ((entryFor c).stop - 1)
          (next - 1) (by have := hsizes.count; omega)
          (by have := hsizes.stop_le c; omega) (hsizes.keys c hc)
        rw [if_pos (by show (next : Int) - 1 < _; omega), hfinish, hadd]
        have hsucc : (entryFor c).stop - 1 + 1 = (entryFor c).stop := by omega
        have hadvance := h.swept.advance ((entryFor c).stop - 1) (by omega) (by omega)
          (by rw [hsucc]; exact stop_mem_cuts hc)
          (fun x hx hx' => by
            have := h.swept.stop_le_cut (fun n hn hnot => hstop.trans (hlater n hn hnot)) hx hx'
            omega)
          (fun n hn hnot => by
            have := hlater n hn hnot
            omega)
        rw [hsucc] at hadvance
        refine ih ⟨hadvance.pop le_rfl, rfl, hshows, ?_⟩ hstop
        show (((entryFor c).stop - 1 : Nat) : Int) = _
        omega
      · rw [if_neg (by rw [h.previous]; omega)]
        exact ih ⟨h.swept.pop (by omega), rfl, h.shows_out, h.previous⟩ hnext
    · refine ⟨c :: chain, next, out, _, by rw [LpmDxr.popBelow, if_neg (by omega)], h, hnext,
        fun d hd => ?_⟩
      rcases mem_cons.mp hd with rfl | hd
      · omega
      · have hle := stop_le_of_covers ((pairwise_cons.mp h.swept.nested).1 d hd).1
        omega

/-- Behind a cut no entry begins, or one ends. -/
def Filled (ns : List (Prefix 32 × LpmKey)) : Prop :=
  ∀ x ∈ cuts (ns.map entryFor), (∃ m ∈ ns, m.1.ip.toNat = x + 1) →
    ∃ m ∈ ns, (entryFor m).stop = x + 1

/-- **The gap in front of an entry is filled** if it is not a single address. -/
theorem fillGap_spec (hn : n ∈ ns) (hlater : ∀ m ∈ ns, m ∉ done → n.1.ip.toNat ≤ m.1.ip.toNat)
    (hfilled : Filled ns)
    (h : Sweeping t₀ root ns done (c :: chain) next out (stk, s)) (hnext : next ≤ n.1.ip.toNat)
    (hreach : ∀ d ∈ c :: chain, n.1.ip.toNat < (entryFor d).stop) :
    ∃ out' s', LpmDxr.fillGap n.1.ip.toNat stk s = .ok s' ∧
      Sweeping t₀ root ns done (c :: chain) n.1.ip.toNat out' (stk, s') := by
  obtain ⟨t, previous⟩ := s
  obtain rfl : previous = next - 1 := h.previous
  obtain rfl : stk = entryFor c :: (chain.map entryFor ++ [entryFor root]) := h.stk
  have hc := (h.swept.visited c (h.swept.chain_sub c (mem_cons_self ..))).1
  have hcstop := hreach c (mem_cons_self ..)
  by_cases hgap : next + 1 < n.1.ip.toNat
  · have hfinish : (n.1.ip.toNat : Int) - 1 = (n.1.ip.toNat - 1 : Nat) := by omega
    have hsucc : n.1.ip.toNat - 1 + 1 = n.1.ip.toNat := by omega
    have hroom := h.swept.length_out_lt (hnext.trans (le_lastStart hn))
    have hcount := hsizes.count
    obtain ⟨t', hadd, hshows⟩ := h.shows_out.addInterval (n.1.ip.toNat - 1) (next - 1)
      (by omega) (by omega) (hsizes.keys c hc)
    have hadvance := h.swept.advance (n.1.ip.toNat - 1) (by omega) (by omega)
      (by rw [hsucc]; exact start_mem_cuts hn)
      (fun x hx hx' => by
        have hcut := h.swept.le_cut hlater hreach hx hx'
        omega)
      (fun m hm hnot => by
        have hstart := hlater m hm hnot
        omega)
    rw [hsucc] at hadvance
    rw [LpmDxr.fillGap, if_pos (by show (next : Int) - 1 + 1 < _; omega), hfinish]
    exact ⟨_, _, hadd, hadvance, rfl, hshows, hfinish.symm⟩
  · rw [LpmDxr.fillGap, if_neg (by show ¬ (next : Int) - 1 + 1 < _; omega)]
    refine ⟨out, _, rfl, ?_⟩
    -- what stops behind `next` would have been on the stack, and reaches further
    have heq : next = n.1.ip.toNat := by
      by_contra hne
      obtain ⟨m, hm, hstop⟩ := hfilled next h.swept.next_mem ⟨n, hn, by omega⟩
      have hstart : m.1.ip.toNat < (entryFor m).stop := start_lt_stop
      have hdone : m ∈ done := by
        by_contra hnot
        exact absurd (hlater m hm hnot) (by omega)
      exact absurd (hreach m (h.swept.reaching m hdone (by omega))) (by omega)
    rw [← heq]
    exact h

variable {s : List LpmEntry × LpmDxr × Int}

/-- **An entry is visited**: the intervals are recorded up to where it begins. -/
theorem addEntry_spec (hns : ns = done ++ n :: rest)
    (hsorted : ns.Pairwise fun m n => m.1.Before n.1) (hroot : root ∈ done)
    (hfilled : Filled ns)
    (hshallow : ∃ l ≤ 32, ∀ m ∈ ns, ¬ (m.1.length = l ∧ m.1.ip = keep l n.1.ip))
    (h : Sweeping t₀ root ns done chain next out s)
    (hnext : next ≤ n.1.ip.toNat) :
    ∃ chain' out' s', LpmDxr.addEntry s (entryFor n) = .ok s' ∧
      Sweeping t₀ root ns (done ++ [n]) chain' n.1.ip.toNat out' s' ∧
      ∀ d ∈ chain', n.1.ip.toNat < (entryFor d).stop := by
  have hn : n ∈ ns := by rw [hns]; exact mem_append_right _ (mem_cons_self ..)
  have hsplit := pairwise_append.mp (hns ▸ hsorted)
  have hbefore : ∀ d ∈ done, d.1.Before n.1 := fun d hd =>
    hsplit.2.2 d hd n (mem_cons_self ..)
  have hlater : ∀ m ∈ ns, m ∉ done → n.1.ip.toNat ≤ m.1.ip.toNat := by
    intro m hm hnot
    rw [hns] at hm
    rcases mem_cons.mp ((mem_append.mp hm).resolve_left hnot) with rfl | hm
    · exact le_rfl
    · rcases (pairwise_cons.mp hsplit.2.1).1 m hm with hlt | ⟨heq, -⟩
      · exact (BitVec.lt_def.mp hlt).le
      · rw [heq]
  have hnot_root : ¬ ((entryFor n).ip = 0 ∧ (entryFor n).length = 0) := by
    rintro ⟨hip, hlength⟩
    refine (hbefore root hroot).ne (eq_of ?_ ?_)
    · exact hsizes.root_ip.trans hip.symm
    · exact hsizes.root_length.trans hlength.symm
  obtain ⟨chain', next', out', ⟨stk', s'⟩, hpop, h', hnext', hreach⟩ :=
    popBelow_spec hsizes (le_lastStart hn) n.1.ip.isLt hlater h hnext
  obtain ⟨c, chain', rfl⟩ : ∃ c chain'', chain' = c :: chain'' := by
    have hmem := h'.swept.reaching root hroot (by
      rw [hsizes.root_stop]
      exact hnext'.trans_lt n.1.ip.isLt)
    exact exists_cons_of_ne_nil (ne_nil_of_mem hmem)
  obtain ⟨out'', s'', hgap, hswept⟩ := fillGap_spec hsizes hn hlater hfilled h' hnext' hreach
  have hpush := hswept.swept.push hn hbefore hreach
  obtain ⟨l, hl, hnone⟩ := hshallow
  have hlength := length_chain_le (a := n.1.ip) hpush.nested (fun d hd => by
    rcases mem_cons.mp hd with rfl | hd
    · exact contains_self
    · exact ((pairwise_cons.mp hpush.nested).1 d hd).1.2) hl
    (fun d hd => hnone d (hpush.visited d (hpush.chain_sub d hd)).1)
  have hstk : stk' = (c :: chain').map entryFor ++ [entryFor root] := hswept.stk
  have hroom : stk'.length < 33 := by
    rw [hstk, List.length_append, length_map, length_singleton]
    rw [length_cons] at hlength
    omega
  refine ⟨n :: c :: chain', out'', (entryFor n :: stk', s''), ?_, ⟨hpush, ?_, hswept.shows_out,
    hswept.previous⟩, fun d hd => ?_⟩
  · rw [LpmDxr.addEntry, if_neg hnot_root]
    refine (bind_of_eq_ok hpop).trans ((bind_of_eq_ok hgap).trans (bind_of_eq_ok ?_))
    rw [LpmDxr.push, if_pos hroom]
  · rw [hstk]
    rfl
  · rcases mem_cons.mp hd with rfl | hd
    · exact start_lt_stop
    · exact hreach d hd

theorem addEntry_root (t : LpmDxr) (hioff : t.ioff = 0)
    (hbuilt : t.built = false) : ∃ s', LpmDxr.addEntry ([], t, -1) (entryFor root) = .ok s' ∧
      Sweeping t root ns [root] [root] 0 [] s' := by
  have hip : (entryFor root).ip = 0 := hsizes.root_ip
  have hlength : (entryFor root).length = 0 := hsizes.root_length
  refine ⟨([entryFor root, entryFor root], t, -1), ?_, ⟨?_, ?_, ?_, ?_, ?_, .nil, ?_, ?_⟩, rfl,
    ⟨hioff, hbuilt, fun k hk => (nomatch hk), fun k _ => ⟨rfl, rfl⟩⟩, rfl⟩
  · rw [LpmDxr.addEntry, if_pos ⟨hip, hlength⟩, hip]
    rfl
  · intro n hn
    rw [mem_singleton.mp hn]
    refine ⟨hsizes.root_mem, ?_⟩
    rw [hsizes.root_ip]
    rfl
  · exact pairwise_singleton _ _
  · exact fun c hc => hc
  · exact fun n hn _ => hn
  · have hmem := start_mem_cuts hsizes.root_mem
    rwa [hsizes.root_ip] at hmem
  · intro x
    constructor
    · rintro ⟨o, ho, -⟩
      cases ho
    · rintro ⟨-, hpos, hle⟩
      omega
  · exact fun a ha => absurd ha (Nat.not_lt_zero _)

end

theorem addEntries_spec (done rest : List (Prefix 32 × LpmKey)) (hsizes : Sizes root ns)
    (hns : ns = done ++ rest)
    (hsorted : ns.Pairwise fun m n => m.1.Before n.1) (hroot : root ∈ done)
    (hfilled : Filled ns)
    (hshallow : ∀ a : BitVec 32, ∃ l ≤ 32, ∀ m ∈ ns, ¬ (m.1.length = l ∧ m.1.ip = keep l a))
    (h : Sweeping t₀ root ns done chain next out s)
    (hstarted : ∃ m ∈ done, m.1.ip.toNat = next) (hreach : ∀ d ∈ chain, next < (entryFor d).stop) :
    ∃ chain' next' out' s', (rest.map entryFor).foldlM LpmDxr.addEntry s = .ok s' ∧
      Sweeping t₀ root ns ns chain' next' out' s' ∧ (∃ m ∈ ns, m.1.ip.toNat = next') ∧
      ∀ d ∈ chain', next' < (entryFor d).stop := by
  induction rest generalizing done chain next out s with
  | nil =>
    rw [append_nil] at hns
    subst hns
    exact ⟨chain, next, out, s, rfl, h, hstarted, hreach⟩
  | cons n rest ih =>
    obtain ⟨m, hm, rfl⟩ := hstarted
    have hnext : m.1.ip.toNat ≤ n.1.ip.toNat := by
      rcases (pairwise_append.mp (hns ▸ hsorted)).2.2 m hm n (mem_cons_self ..) with
        hlt | ⟨heq, -⟩
      · exact (BitVec.lt_def.mp hlt).le
      · rw [heq]
    obtain ⟨chain', out', s', hadd, h', hreach'⟩ :=
      addEntry_spec hsizes hns hsorted hroot hfilled (hshallow n.1.ip) h hnext
    obtain ⟨chain'', next'', out'', s'', hrest, hspec⟩ := ih (done ++ [n])
      (by rw [hns, append_assoc]; rfl) (mem_append_left _ hroot) h'
      ⟨n, mem_append_right _ (mem_singleton_self n), rfl⟩ hreach'
    exact ⟨chain'', next'', out'', s'', (bind_of_eq_ok hadd).trans hrest, hspec⟩

theorem drain_spec (hsizes : Sizes root ns) (previous : Int) (hsub : ∀ c ∈ chain, c ∈ ns)
    (h : t₀.Shows t out) (hroom : out.length + chain.length ≤ LpmDxr.arrayLength) :
    ∃ s', (chain.map entryFor).foldlM (fun s head => LpmDxr.addInterval s head (bcast head))
        (t, previous) = .ok s' ∧ t₀.Shows s'.1 (out ++ chain.map lastOf) := by
  induction chain generalizing t previous out with
  | nil => exact ⟨_, rfl, by rwa [map_nil, append_nil]⟩
  | cons c chain ih =>
    rw [length_cons] at hroom
    have hpos : c.1.ip.toNat < (entryFor c).stop := start_lt_stop
    have hfinish : bcast (entryFor c) = ((entryFor c).stop - 1 : Nat) := by
      rw [bcast_entryFor]
      omega
    have hc := hsub c (mem_cons_self ..)
    obtain ⟨t', hadd, hshows⟩ := h.addInterval ((entryFor c).stop - 1) previous (by omega)
      (by have := hsizes.stop_le c; omega) (hsizes.keys c hc)
    obtain ⟨s', hrest, hshows'⟩ := ih _ (fun d hd => hsub d (mem_cons_of_mem _ hd)) hshows
      (by rw [List.length_append, length_singleton]; omega)
    refine ⟨s', ?_, ?_⟩
    · rw [map_cons, foldlM_cons, hfinish, hadd]
      exact hrest
    · rwa [append_assoc] at hshows'

/-- The chain at the begin of the last entry is as long as `intervalCount` says. -/
theorem Swept.length_chain (h : Swept ns ns chain next out)
    (hsorted : ns.Pairwise fun m n => m.1.Before n.1) (hlast : next = lastStart (ns.map entryFor))
    (hreach : ∀ c ∈ chain, next < (entryFor c).stop) :
    out.length + chain.length + 1 = intervalCount (ns.map entryFor) := by
  have hperm : chain.Perm (ns.filter fun n => next < (entryFor n).stop) := by
    refine (perm_ext_iff_of_nodup ?_ ?_).mpr fun n => ?_
    · exact h.nested.imp fun ⟨_, hne⟩ heq => hne (congrArg Prod.fst heq.symm)
    · exact (hsorted.imp fun hbefore heq => hbefore.ne (congrArg Prod.fst heq)).filter _
    · rw [mem_filter, decide_eq_true_eq]
      exact ⟨fun hn => ⟨h.chain_sub n hn, hreach n hn⟩, fun hn => h.reaching n hn.1 hn.2⟩
  rw [intervalCount, ← hlast, h.length_out, hperm.length_eq, filter_map, length_map]
  rfl

/-- What the arrays show after `build_intervals`. -/
structure Raw (root : Prefix 32 × LpmKey) (ns : List (Prefix 32 × LpmKey))
    (raw : List (Nat × Nat)) : Prop where
  length_eq : raw.length = intervalCount (ns.map entryFor)
  sorted : raw.Pairwise fun x y => x.1 ≤ y.1
  last : ∃ init, raw = init ++ [lastOf root]
  answers : ∀ a n, LongestIn ns a n →
    ∃ o, raw.find? (fun o => a.toNat ≤ o.1) = some o ∧ o.2 = n.2.1.toNat

theorem find_chain (hnested : chain.Pairwise fun c d => d.1.Covers c.1 ∧ d.1 ≠ c.1)
    (hsub : ∀ c ∈ chain, c ∈ ns ∧ c.1.ip.toNat ≤ a.toNat) (hn : LongestIn ns a n)
    (hmem : n ∈ chain) :
    ∃ o, (chain.map lastOf).find? (fun o => a.toNat ≤ o.1) = some o ∧ o.2 = n.2.1.toNat := by
  induction chain with
  | nil => cases hmem
  | cons c chain ih =>
    rw [map_cons, List.find?_cons]
    obtain ⟨hc, hstart⟩ := hsub c (mem_cons_self ..)
    have hpos : c.1.ip.toNat < (entryFor c).stop := start_lt_stop
    by_cases hlt : a.toNat < (entryFor c).stop
    · obtain rfl : n = c :=
        eq_head_of_longest hnested hc (contains_iff_stop.mpr ⟨hstart, hlt⟩) hn hmem
      rw [decide_eq_true (show a.toNat ≤ (lastOf n).1 from Nat.le_sub_one_of_lt hlt)]
      exact ⟨_, rfl, rfl⟩
    · have hne : n ≠ c := by
        rintro rfl
        exact hlt (contains_iff_stop.mp hn.2.1).2
      rw [decide_eq_false (show ¬ a.toNat ≤ (lastOf c).1 from (show ¬ a.toNat ≤ _ - 1 by omega))]
      exact ih (pairwise_cons.mp hnested).2 (fun d hd => hsub d (mem_cons_of_mem _ hd))
        ((mem_cons.mp hmem).resolve_left hne)

/-- **The intervals give each address the key of its longest prefix.** -/
theorem buildIntervals_spec (hsizes : Sizes root ns) (hns : ns = root :: rest)
    (hsorted : ns.Pairwise fun m n => m.1.Before n.1)
    (hfilled : Filled ns)
    (hshallow : ∀ a : BitVec 32, ∃ l ≤ 32, ∀ m ∈ ns, ¬ (m.1.length = l ∧ m.1.ip = keep l a))
    (hioff : t.ioff = 0) (hbuilt : t.built = false) :
    ∃ t' raw, t.buildIntervals (ns.map entryFor) = .ok t' ∧ t.Shows t' raw ∧ Raw root ns raw := by
  obtain ⟨s₀, hroot, hsweeping⟩ := addEntry_root hsizes t hioff hbuilt
  have hreach : ∀ d ∈ [root], 0 < (entryFor d).stop := fun d hd => by
    rw [mem_singleton.mp hd, hsizes.root_stop]
    decide
  obtain ⟨chain, next, out, ⟨stk, t', previous⟩, hloop, h, ⟨m, hm, rfl⟩, hreach⟩ :=
    addEntries_spec [root] rest hsizes hns hsorted (mem_singleton_self _) hfilled hshallow
      hsweeping ⟨root, mem_singleton_self _, by rw [hsizes.root_ip]; rfl⟩ hreach
  obtain rfl : stk = chain.map entryFor ++ [entryFor root] := h.stk
  have hlast : m.1.ip.toNat = lastStart (ns.map entryFor) := by
    refine le_antisymm (le_lastStart hm) (max_le_of_forall_le _ _ fun x hx => ?_)
    obtain ⟨e, he, rfl⟩ := mem_map.mp hx
    obtain ⟨n, hn, rfl⟩ := mem_map.mp he
    exact (h.swept.visited n hn).2
  have hlength := h.swept.length_chain hsorted hlast hreach
  have hin : ∀ c ∈ chain ++ [root], c ∈ ns := by
    intro c hc
    rcases mem_append.mp hc with hc | hc
    · exact h.swept.chain_sub c hc
    · rw [mem_singleton.mp hc]
      exact hsizes.root_mem
  obtain ⟨s', hdrain, hshows⟩ := drain_spec hsizes previous hin h.shows_out (by
    have hcount := hsizes.count
    rw [List.length_append, length_singleton]
    omega)
  rw [map_append] at hdrain
  refine ⟨s'.1, _, ?_, hshows, ⟨?_, ?_, ?_, fun a n hn => ?_⟩⟩
  · rw [hns]
    refine (bind_of_eq_ok ((bind_of_eq_ok hroot).trans hloop)).trans ?_
    exact bind_of_eq_ok hdrain
  · rw [List.length_append, length_map, List.length_append]
    omega
  · refine pairwise_append.mpr ⟨h.swept.sorted.imp Nat.le_of_lt, ?_, fun x hx y hy => ?_⟩
    · rw [pairwise_map, pairwise_append]
      refine ⟨h.swept.nested.imp fun ⟨hcovers, _⟩ => Nat.sub_le_sub_right
        (stop_le_of_covers hcovers) 1, pairwise_singleton _ _, fun c hc d hd => ?_⟩
      have hle := hsizes.stop_le c
      rw [mem_singleton.mp hd]
      exact Nat.sub_le_sub_right (hle.trans_eq hsizes.root_stop.symm) 1
    · obtain ⟨c, hc, rfl⟩ := mem_map.mp hy
      have hlt := h.swept.out_lt hx
      have hstop : m.1.ip.toNat < (entryFor c).stop := by
        rcases mem_append.mp hc with hc | hc
        · exact hreach c hc
        · rw [mem_singleton.mp hc, hsizes.root_stop]
          exact m.1.ip.isLt
      show x.1 ≤ (entryFor c).stop - 1
      omega
  · exact ⟨out ++ chain.map lastOf, by rw [map_append, append_assoc]; rfl⟩
  · by_cases hlt : a.toNat < m.1.ip.toNat
    · obtain ⟨o, ho, hkey⟩ := h.swept.answers a hlt n hn
      exact ⟨o, by rw [List.find?_append, ho]; rfl, hkey⟩
    · have hchain : n ∈ chain :=
        h.swept.reaching n hn.1 (by have := (contains_iff_stop.mp hn.2.1).2; omega)
      obtain ⟨o, ho, hkey⟩ := find_chain h.swept.nested (fun c hc => by
        have hvisited := h.swept.visited c (h.swept.chain_sub c hc)
        exact ⟨hvisited.1, by omega⟩) hn hchain
      have hnone : out.find? (fun o => decide (a.toNat ≤ o.1)) = none := by
        rw [List.find?_eq_none]
        intro o ho
        have hlt' := h.swept.out_lt ho
        simp only [decide_eq_true_eq]
        omega
      refine ⟨o, ?_, hkey⟩
      rw [List.find?_append, hnone, map_append, List.find?_append, ho]
      rfl

end

end Snabb
