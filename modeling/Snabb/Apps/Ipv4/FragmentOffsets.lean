import Snabb.Apps.Ipv4.Reassemble
import Snabb.Foundation.Tiling

/-!
# Where the fragments of a reassembly start and end

`fragment_starts` and `fragment_ends` are two arrays that are sorted for themselves, and only when
a fragment starts before the last one. So the starts are always in order, and the ends are if no
two fragments meet.

- `sortArray_spec`: the insertion sort sorts;
- `Gathered.tiles`: if `verify_valid_offsets` finds nothing, the fragments tile what they cover.
-/

namespace Snabb

open Foundation Tiling List
open Function (update update_of_ne update_self)

variable {f : Nat → Nat} {j n : Nat}

/-- The first elements of an array. -/
def firsts (f : Nat → Nat) (n : Nat) : List Nat := (List.range n).map f

@[simp] theorem length_firsts : (firsts f n).length = n := by simp [firsts]

theorem firsts_succ : firsts f (n + 1) = firsts f n ++ [f n] := by
  simp [firsts, range_succ]

theorem firsts_congr {g : Nat → Nat} (h : ∀ i < n, f i = g i) : firsts f n = firsts g n :=
  map_congr_left fun i hi => h i (mem_range.mp hi)

theorem firsts_update (x : Nat) : firsts (update f n x) (n + 1) = firsts f n ++ [x] := by
  rw [firsts_succ, update_self]
  congr 1
  exact firsts_congr fun i hi => update_of_ne (by omega) _ _

theorem getElem?_firsts {i : Nat} (h : i < n) : (firsts f n)[i]? = some (f i) := by
  rw [firsts, List.getElem?_map, List.getElem?_range h]
  rfl

/-! ## The insertion sort -/

theorem sinkElement_above {i : Nat} (h : j < i) : sinkElement f j i = f i := by
  induction j generalizing f with
  | zero => rfl
  | succ j ih =>
    rw [sinkElement]
    split
    · rw [ih (by omega), swapElements, update_of_ne (by omega),
        update_of_ne (by omega)]
    · rfl

theorem firsts_swap :
    firsts (swapElements f (j + 1) j) (j + 2) = firsts f j ++ [f (j + 1), f j] := by
  rw [swapElements, firsts_update, firsts_update, append_assoc]
  rfl

theorem sinkElement_perm (f : Nat → Nat) (j : Nat) :
    (firsts (sinkElement f j) (j + 1)).Perm (firsts f (j + 1)) := by
  induction j generalizing f with
  | zero => exact .refl _
  | succ j ih =>
    rw [sinkElement]
    split
    · have hswap : (firsts (swapElements f (j + 1) j) (j + 2)).Perm (firsts f (j + 2)) := by
        rw [firsts_swap, firsts_succ, firsts_succ, append_assoc]
        exact (List.Perm.swap _ _ _).append_left _
      refine .trans ?_ hswap
      rw [firsts_succ, firsts_succ (f := swapElements f (j + 1) j),
        sinkElement_above (Nat.lt_succ_self j)]
      exact (ih _).append_right _
    · exact .refl _

/-- **An element is carried down** to where it belongs. -/
theorem sinkElement_sorted (h : (firsts f j).Pairwise (· ≤ ·)) :
    (firsts (sinkElement f j) (j + 1)).Pairwise (· ≤ ·) := by
  induction j generalizing f with
  | zero => exact pairwise_singleton _ _
  | succ j ih =>
    have hlast : ∀ x ∈ firsts f (j + 1), x ≤ f j := by
      rw [firsts_succ] at h ⊢
      intro x hx
      rcases mem_append.mp hx with hx | hx
      · exact (pairwise_append.mp h).2.2 x hx _ (mem_singleton_self _)
      · exact (mem_singleton.mp hx).le
    rw [sinkElement]
    split
    · next hlarger =>
      -- the element before goes to the end of what is sorted below it
      have hbefore : firsts (swapElements f (j + 1) j) j = firsts f j :=
        firsts_congr fun i hi => by
          rw [swapElements, update_of_ne (by omega), update_of_ne (by omega)]
      have hends : sinkElement (swapElements f (j + 1) j) j (j + 1) = f j := by
        rw [sinkElement_above (Nat.lt_succ_self j), swapElements, update_self]
      have hbelow : firsts (swapElements f (j + 1) j) (j + 1) = firsts f j ++ [f (j + 1)] := by
        rw [firsts_succ, hbefore, swapElements, update_of_ne (by omega),
          update_self]
      rw [firsts_succ] at h
      have hsorted := ih (f := swapElements f (j + 1) j)
        (by rw [hbefore]; exact (pairwise_append.mp h).1)
      rw [firsts_succ, hends]
      refine pairwise_append.mpr ⟨hsorted, pairwise_singleton _ _, fun x hx y hy => ?_⟩
      rw [mem_singleton.mp hy]
      have hx := (sinkElement_perm _ _).subset hx
      rw [hbelow] at hx
      rcases mem_append.mp hx with hx | hx
      · exact hlast x (by rw [firsts_succ]; exact mem_append_left _ hx)
      · rw [mem_singleton.mp hx]
        exact hlarger.le
    · next hlarger =>
      rw [firsts_succ]
      refine pairwise_append.mpr ⟨h, pairwise_singleton _ _, fun x hx y hy => ?_⟩
      rw [mem_singleton.mp hy]
      exact (hlast x hx).trans (not_lt.mp hlarger)

/-- **The insertion sort sorts.** -/
theorem sortArray_spec (f : Nat → Nat) (lastIndex : Nat) :
    (firsts (sortArray f lastIndex) (lastIndex + 1)).Perm (firsts f (lastIndex + 1)) ∧
      (firsts (sortArray f lastIndex) (lastIndex + 1)).Pairwise (· ≤ ·) := by
  have hsteps : ∀ k, (∀ i, k ≤ i → (List.range k).foldl sinkElement f i = f i) ∧
      (firsts ((List.range k).foldl sinkElement f) k).Perm (firsts f k) ∧
      (firsts ((List.range k).foldl sinkElement f) k).Pairwise (· ≤ ·) := by
    intro k
    induction k with
    | zero => exact ⟨fun _ _ => rfl, .refl _, .nil⟩
    | succ k ih =>
      obtain ⟨habove, hperm, hsorted⟩ := ih
      rw [range_succ, foldl_append, foldl_cons, foldl_nil]
      refine ⟨fun i hi => ?_, ?_, sinkElement_sorted hsorted⟩
      · rw [sinkElement_above (by omega), habove i (by omega)]
      · refine (sinkElement_perm _ _).trans ?_
        rw [firsts_succ, firsts_succ, habove k le_rfl]
        exact hperm.append_right _
  exact (hsteps (lastIndex + 1)).2

/-! ## The offsets that were noted -/

namespace Reassembly

variable {r : Reassembly} {ps : List (Nat × Nat)} {start size : Nat}

/-- The arrays have the starts and the ends of the fragments, and the starts are in order. -/
structure Noted (r : Reassembly) (ps : List (Nat × Nat)) : Prop where
  count : r.fragmentCount = ps.length
  starts : (firsts r.fragmentStarts ps.length).Perm (ps.map Prod.fst)
  starts_sorted : (firsts r.fragmentStarts ps.length).Pairwise (· ≤ ·)
  ends : (firsts r.fragmentEnds ps.length).Perm (ps.map Prod.snd)

theorem toUInt16_of_lt (h : n < 2 ^ 16) : toUInt16 n = n := by
  rw [toUInt16]
  omega

theorem noteFragment_arrays (h : r.fragmentCount = ps.length) (hend : start + size < 2 ^ 16)
    (hcount : ps.length + 1 < 2 ^ 16) :
    (r.noteFragment start size).fragmentCount = ps.length + 1 ∧
    if start < r.previousStart then
      (r.noteFragment start size).fragmentStarts =
        sortArray (update r.fragmentStarts ps.length start) ps.length ∧
      (r.noteFragment start size).fragmentEnds =
        sortArray (update r.fragmentEnds ps.length (start + size)) ps.length
    else
      (r.noteFragment start size).fragmentStarts =
        update r.fragmentStarts ps.length start ∧
      (r.noteFragment start size).fragmentEnds =
        update r.fragmentEnds ps.length (start + size) := by
  have hstart : toUInt16 start = start := toUInt16_of_lt (by omega)
  have hstop : toUInt16 (start + size) = start + size := by
    rw [← Int.natCast_add, toUInt16_of_lt hend]
  have hsucc : toUInt16 (ps.length + 1) = ps.length + 1 := by
    exact_mod_cast toUInt16_of_lt hcount
  simp only [noteFragment, hstart, hstop, h, update_self]
  split
  · exact ⟨hsucc, rfl, rfl⟩
  · exact ⟨hsucc, rfl, rfl⟩

theorem Noted.le_previousStart (h : r.Noted ps) {x : Nat}
    (hx : x ∈ firsts r.fragmentStarts ps.length) : x ≤ r.previousStart := by
  obtain ⟨n, hn⟩ : ∃ n, n = ps.length := ⟨_, rfl⟩
  have hsorted := h.starts_sorted
  rw [← hn] at hx hsorted
  cases n with
  | zero => cases hx
  | succ n =>
    rw [previousStart, h.count, ← hn]
    rw [firsts_succ] at hx hsorted
    rcases mem_append.mp hx with hx | hx
    · exact (pairwise_append.mp hsorted).2.2 x hx _ (mem_singleton_self _)
    · exact (mem_singleton.mp hx).le

/-- **A fragment is noted** among the others. -/
theorem Noted.note (h : r.Noted ps) (hend : start + size < 2 ^ 16)
    (hcount : ps.length + 1 < 2 ^ 16) :
    (r.noteFragment start size).Noted (ps ++ [(start, start + size)]) := by
  obtain ⟨hcount', harrays⟩ := noteFragment_arrays h.count hend hcount
  have hstarts : (firsts (update r.fragmentStarts ps.length start) (ps.length + 1)).Perm
      ((ps ++ [(start, start + size)]).map Prod.fst) := by
    rw [firsts_update, map_append]
    exact h.starts.append_right _
  have hends : (firsts (update r.fragmentEnds ps.length (start + size))
      (ps.length + 1)).Perm ((ps ++ [(start, start + size)]).map Prod.snd) := by
    rw [firsts_update, map_append]
    exact h.ends.append_right _
  have hlength : (ps ++ [(start, start + size)]).length = ps.length + 1 := by simp
  split at harrays
  · obtain ⟨hs, he⟩ := harrays
    refine ⟨hcount'.trans hlength.symm, ?_, ?_, ?_⟩
    · rw [hs, hlength]
      exact (sortArray_spec _ _).1.trans hstarts
    · rw [hs, hlength]
      exact (sortArray_spec _ _).2
    · rw [he, hlength]
      exact (sortArray_spec _ _).1.trans hends
  · next hlast =>
    obtain ⟨hs, he⟩ := harrays
    refine ⟨hcount'.trans hlength.symm, ?_, ?_, ?_⟩
    · rw [hs, hlength]
      exact hstarts
    · rw [hs, hlength, firsts_update]
      refine pairwise_append.mpr ⟨h.starts_sorted, pairwise_singleton _ _,
        fun x hx y hy => ?_⟩
      rw [mem_singleton.mp hy]
      exact (h.le_previousStart hx).trans (not_lt.mp hlast)
    · rw [he, hlength]
      exact hends

theorem Noted.note_ends_sorted (h : r.Noted ps)
    (hsorted : (firsts r.fragmentEnds ps.length).Pairwise (· ≤ ·))
    (hend : start + size < 2 ^ 16) (hcount : ps.length + 1 < 2 ^ 16) (hsize : 0 < size)
    (hdisjoint : ∀ p ∈ ps, p.1 < p.2 ∧ (p.2 ≤ start ∨ start + size ≤ p.1)) :
    (firsts (r.noteFragment start size).fragmentEnds (ps.length + 1)).Pairwise (· ≤ ·) := by
  obtain ⟨-, harrays⟩ := noteFragment_arrays h.count hend hcount
  split at harrays
  · rw [harrays.2]
    exact (sortArray_spec _ _).2
  · next hlast =>
    rw [harrays.2, firsts_update]
    refine pairwise_append.mpr ⟨hsorted, pairwise_singleton _ _, fun x hx y hy => ?_⟩
    rw [mem_singleton.mp hy]
    obtain ⟨p, hp, rfl⟩ := mem_map.mp (h.ends.subset hx)
    have hstart := h.le_previousStart (h.starts.symm.subset (mem_map_of_mem hp))
    obtain ⟨hpos, hbefore | hbehind⟩ := hdisjoint p hp
    · omega
    · omega

/-- **`verify_valid_offsets`** compares all starts but the first with the ends in front of them. -/
theorem verifyValidOffsets_iff (h : r.fragmentCount = n + 1) :
    r.verifyValidOffsets ↔
      firsts r.fragmentStarts (n + 1) ++ [r.fragmentEnds n] =
        0 :: firsts r.fragmentEnds (n + 1) := by
  rw [firsts_succ (f := r.fragmentEnds), ← cons_append, append_cancel_right_eq]
  constructor
  · rintro ⟨hzero, hchain⟩
    refine ext_getElem? fun i => ?_
    rcases Nat.lt_or_ge i (n + 1) with hi | hi
    · rw [getElem?_firsts hi]
      cases i with
      | zero => rw [hzero]; rfl
      | succ i => rw [List.getElem?_cons_succ, getElem?_firsts (by omega), hchain i (by omega)]
    · rw [List.getElem?_eq_none (by simpa using hi), List.getElem?_eq_none (by simpa using hi)]
  · intro heq
    have hat (i : Nat) := congrArg (fun xs => xs[i]?) heq
    refine ⟨?_, fun i hi => ?_⟩
    · have hzero := hat 0
      rw [getElem?_firsts (Nat.succ_pos n)] at hzero
      exact Option.some.inj hzero
    · have hsucc := hat (i + 1)
      rw [getElem?_firsts (by omega), List.getElem?_cons_succ, getElem?_firsts (by omega)] at hsucc
      exact Option.some.inj hsucc

/-! ## The lengths -/

/-- The pieces have been noted and counted, and all of them are in the packet. -/
structure Gathered (r : Reassembly) (ps : List (Nat × Nat)) : Prop extends r.Noted ps where
  le : ∀ p ∈ ps, p.1 ≤ p.2
  fits : ∀ p ∈ ps, r.reassemblyBase + p.2 ≤ maxPayload
  running : r.runningLength = r.reassemblyBase + total ps
  base_le : r.reassemblyBase ≤ r.packet.length
  stop_le : ∀ p ∈ ps, r.reassemblyBase + p.2 ≤ r.packet.length
  attained : r.packet.length = r.reassemblyBase ∨
    ∃ p ∈ ps, r.packet.length = r.reassemblyBase + p.2

variable {r' : Reassembly} {qs rest : List (Nat × Nat)}

/-- **A fragment is gathered**, if what it does to the offsets and the lengths is what
`handle_fragment` does. -/
theorem Gathered.accept (h : r.Gathered ps) (hfits : r.reassemblyBase + (start + size) ≤ maxPayload)
    (hcount : ps.length + 1 < 2 ^ 16) (hnoted : r'.Noted (ps ++ [(start, start + size)]))
    (hbase : r'.reassemblyBase = r.reassemblyBase)
    (hrunning : r'.runningLength = (r.runningLength + size) % 2 ^ 32) (hlength : r'.packet.length =
      max r.packet.length (r.reassemblyBase + start + size) % 2 ^ 16)
    (hroom : r.packet.length ≤ maxPayload) : r'.Gathered (ps ++ [(start, start + size)]) := by
  have htotal : total ps ≤ ps.length * maxPayload := Tiling.total_le fun p hp => by
    have hp := h.fits p hp
    omega
  have hmany : ps.length * maxPayload ≤ 2 ^ 16 * maxPayload :=
    Nat.mul_le_mul_right _ (by omega)
  have hrunning' := h.running
  have hsmall : max r.packet.length (r.reassemblyBase + start + size) < 2 ^ 16 := by
    rw [maxPayload] at hfits hroom
    omega
  rw [maxPayload] at hmany htotal hfits hroom
  refine ⟨hnoted, ?_, ?_, ?_, ?_, ?_, ?_⟩
  · exact forall_mem_append.mpr ⟨h.le, forall_mem_singleton.mpr (by omega)⟩
  · rw [hbase]
    exact forall_mem_append.mpr ⟨h.fits, forall_mem_singleton.mpr hfits⟩
  · rw [total_append, total_cons, total_nil]
    omega
  · omega
  · rw [hbase]
    refine forall_mem_append.mpr ⟨fun p hp => ?_, forall_mem_singleton.mpr ?_⟩
    · have hp := h.stop_le p hp
      omega
    · show r.reassemblyBase + (start + size) ≤ _
      omega
  · rw [hbase]
    rcases Nat.le_total r.packet.length (r.reassemblyBase + start + size) with hle | hle
    · exact .inr ⟨_, mem_append_right _ (mem_singleton_self _), by
        omega⟩
    · rcases h.attained with hempty | ⟨p, hp, hp'⟩
      · exact .inl (by omega)
      · exact .inr ⟨p, mem_append_left _ hp, by omega⟩

/-- **If the offsets are valid the fragments tile what they cover.** -/
theorem Gathered.tiles (h : r.Gathered ps) (hne : ps ≠ []) (hverify : r.verifyValidOffsets) :
    Tiles ps (total ps) := by
  obtain ⟨n, hn⟩ : ∃ n, ps.length = n + 1 :=
    ⟨ps.length - 1, by have := length_pos_of_ne_nil hne; omega⟩
  have hchain := (verifyValidOffsets_iff (h.count.trans hn)).mp hverify
  have hstarts := h.starts
  have hends := h.ends
  rw [hn] at hstarts hends
  have hsum := congrArg List.sum hchain
  have htotal := total_add h.le
  rw [sum_append, sum_singleton, sum_cons, hstarts.sum_nat, hends.sum_nat] at hsum
  have hlast : r.fragmentEnds n = total ps := by omega
  rw [hlast] at hchain
  exact tiles_of_starts h.le hstarts hends hchain

/-- **If the fragments tile what they cover** the lengths are the same and the offsets are valid. -/
theorem Gathered.complete (h : r.Gathered ps) (htiles : Tiles ps n) (hpos : ∀ p ∈ ps, p.1 < p.2)
    (hne : ps ≠ []) (hsorted : (firsts r.fragmentEnds ps.length).Pairwise (· ≤ ·)) :
    r.packet.length = r.reassemblyBase + n ∧ r.runningLength = r.packet.length ∧
      r.verifyValidOffsets := by
  obtain ⟨m, hm⟩ : ∃ m, ps.length = m + 1 :=
    ⟨ps.length - 1, by have := length_pos_of_ne_nil hne; omega⟩
  have hchain := htiles.starts_concat hpos h.starts h.starts_sorted h.ends hsorted
  have hlast : r.fragmentEnds m = n := by
    have hlast := congrArg List.getLast? hchain
    rw [hm, firsts_succ (f := r.fragmentEnds), ← cons_append, List.getLast?_concat,
      List.getLast?_concat] at hlast
    exact (Option.some.inj hlast).symm
  have hmem : r.fragmentEnds m ∈ firsts r.fragmentEnds ps.length := by
    rw [hm, firsts_succ]
    exact mem_append_right _ (mem_singleton_self _)
  obtain ⟨p, hp, hstop⟩ := mem_map.mp (h.ends.subset hmem)
  have hge := h.stop_le p hp
  have hlength : r.packet.length = r.reassemblyBase + n := by
    rcases h.attained with hempty | ⟨q, hq, hlength⟩
    · have hq := hpos p hp
      omega
    · have hle := htiles.stop_le hq (hpos q hq)
      omega
  refine ⟨hlength, ?_, (verifyValidOffsets_iff (h.count.trans hm)).mpr ?_⟩
  · rw [h.running, htiles.total_eq h.le, hlength]
  · rw [hlast, ← hm]
    exact hchain

/-- As long as some of the fragments are missing, but not the last one, the lengths differ. -/
theorem Gathered.incomplete (h : r.Gathered qs) (htiles : Tiles ps n)
    (hpos : ∀ p ∈ ps, p.1 < p.2) (hrest : rest ≠ []) (hperm : (qs ++ rest).Perm ps)
    (hlast : ∃ p ∈ qs, p.2 = n) : r.runningLength ≠ r.packet.length := by
  obtain ⟨p, hp, rfl⟩ := hlast
  have hlt := htiles.total_lt hpos hrest hperm
  have hge := h.stop_le p hp
  rw [h.running]
  omega

end Reassembly

end Snabb
