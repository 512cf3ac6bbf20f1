import Snabb.Apps.Bridge.MacTable
import Snabb.Core.Packet
import Snabb.Foundation.Run
import Mathlib.Algebra.BigOperators.Group.Finset.Basic
import Mathlib.Algebra.Order.BigOperators.Group.Finset
import Mathlib.Data.List.Nodup

/-!
# Ageing of the MAC table (`mac_table.lua`: `timeout`, `maybe_resize`)

Addresses are inserted in both tables and looked up in the main table. A timeout makes the shadow
table the main table and clears the other one, so an address that was not seen for a whole interval
is forgotten. If the main table has more entries than it was made for, both tables are allocated
anew with more buckets, and the entries of the old shadow table are inserted again.

- `HashTable.insert_spec`: what an insertion does to the entries and the counters of a table;
- `copy_spec`: a table after all entries of another were inserted;
- `ageing_iff`: in which runs the look-ups and the counters are right.

The logarithm of `buckets_from_size` and the hash function are parameters. Log messages are left
out.
-/

namespace Snabb

open Foundation List
open Function (update_of_ne update_self)

namespace Bridge

/-- The configuration of `mac_table:new`. -/
structure MacTableConf where
  size : Nat
  copyOnResize : Bool
  resizeMax : Nat
deriving Repr

/-- A `mac_table`. -/
structure SizedTable where
  conf : MacTableConf
  size : Nat
  buckets : Nat
  mask : Nat
  main : HashTable
  shadow : HashTable

section Model

variable (ceilLog2 : Nat → Nat) (hash : Nat → Nat)

/-- `buckets_from_size`; the parameter is `math.ceil(math.log(n)/math.log(2))`. -/
def bucketsFromSize (size : Nat) : Nat := 2 ^ ceilLog2 (size * 2)

/-- `mac_table:new`. -/
def SizedTable.new (conf : MacTableConf) : Except Raise SizedTable :=
  if conf.size = 0 then .error .assertionFailed
  else
    let size := min conf.size conf.resizeMax
    let buckets := bucketsFromSize ceilLog2 size
    .ok ⟨conf, size, buckets, buckets - 1, .new, .new⟩

/-- The bucket of an address. -/
def SizedTable.index (s : SizedTable) (mac : Nat) : Nat := hash mac &&& s.mask

/-- The two tables, with the mask that is in use. -/
def SizedTable.tables (s : SizedTable) : MacTable := ⟨s.main, s.shadow, s.index hash⟩

/-- `mac_table:insert`. -/
def SizedTable.insert (s : SizedTable) (mac port group : Nat) : SizedTable :=
  let t := (s.tables hash).insert mac port group
  { s with main := t.main, shadow := t.shadow }

/-- `mac_table:lookup`, where a port 0 is a miss. -/
def SizedTable.lookup (s : SizedTable) (mac : Nat) : Option (Nat × Nat) :=
  match (s.tables hash).lookup mac with
  | some me => if me.port = 0 then none else some (me.port, me.group)
  | none => none

/-- The function that `mac_table:iterator` returns, at a position. -/
def next (t : HashTable) (buckets index slot : Nat) : Option (MacEntry × Nat × Nat) :=
  if index < buckets then
    let entry := (t.buckets index).getD slot ⟨0, 0, 0⟩
    if entry.mac = 0 then next t buckets (index + 1) 0
    else if slot = bucketSize - 1 then some (entry, index + 1, 0)
    else some (entry, index, slot + 1)
  else none
termination_by buckets - index

/-- The entries that a loop over the iterator visits. -/
def iterate (t : HashTable) (buckets : Nat) : Nat → Nat → Nat → List MacEntry
  | 0, _, _ => []
  | rounds + 1, index, slot =>
    match next t buckets index slot with
    | none => []
    | some (entry, index, slot) => entry :: iterate t buckets rounds index slot

/-- The while loop of `maybe_resize`, with the new target size and number of buckets. In every round
the size grows. -/
def grow (buckets entries max : Nat) : Nat → Nat → Nat → Nat × Nat
  | 0, size, newBuckets => (size, newBuckets)
  | rounds + 1, size, newBuckets =>
    if (newBuckets < 2 * buckets ∨ size < entries) ∧ size < max then
      let size := min (size * 2) max
      grow buckets entries max rounds size (bucketsFromSize ceilLog2 size)
    else (size, newBuckets)

/-- `mac_table:maybe_resize`, and whether the tables were resized. -/
def SizedTable.maybeResize (s : SizedTable) : Bool × SizedTable :=
  if ¬(s.main.overflow ∨ s.size < s.main.entries) then (false, s)
  else
    let max := s.conf.resizeMax
    let (size, newBuckets) := grow ceilLog2 s.buckets s.main.entries max (max - s.size) s.size
      s.buckets
    if newBuckets = s.buckets then (false, { s with size := size })
    else
      let old := iterate s.shadow s.buckets (s.buckets * bucketSize) 0 0
      let t : SizedTable := ⟨s.conf, size, newBuckets, newBuckets - 1, .new, .new⟩
      (true, if s.conf.copyOnResize then
        old.foldl (fun t me => t.insert hash me.mac me.port me.group) t else t)

/-- `timeout`. -/
def SizedTable.timeout (s : SizedTable) : SizedTable :=
  let (resized, s) := s.maybeResize ceilLog2 hash
  if resized && !s.conf.copyOnResize then s
  else { s with main := s.shadow, shadow := .new }

end Model

/-! ## Buckets -/

/-- The entries of a bucket, which are in front of its free slots. -/
def HashTable.used (t : HashTable) (i : Nat) : List MacEntry :=
  (t.buckets i).takeWhile fun me => me.mac ≠ 0

/-- A table of `n` buckets with its counters, where `index` says in which bucket an address is. -/
structure HashTable.Sound (index : Nat → Nat) (n : Nat) (t : HashTable) : Prop where
  length : ∀ i, (t.buckets i).length = bucketSize
  free : ∀ i, ∃ free, t.buckets i = t.used i ++ free ∧ ∀ me ∈ free, me.mac = 0
  nodup : ∀ i, ((t.used i).map MacEntry.mac).Nodup
  placed : ∀ i, ∀ me ∈ t.used i, index me.mac = i
  entries : t.entries = ∑ i ∈ Finset.range n, (t.used i).length
  ubuckets : t.ubuckets = ∑ i ∈ Finset.range n, if t.used i = [] then 0 else 1

/-- The entry is in the table. -/
def HashTable.Has (index : Nat → Nat) (t : HashTable) (me : MacEntry) : Prop :=
  me ∈ t.used (index me.mac)

namespace HashTable

variable {index : Nat → Nat} {n : Nat} {t : HashTable} {mac port group : Nat} {me : MacEntry}
  {i k slot : Nat} {used : List MacEntry} {new : MacEntry}

theorem mac_ne_of_mem_used (h : me ∈ t.used i) : me.mac ≠ 0 :=
  of_decide_eq_true (all_eq_true.mp all_takeWhile me h)

theorem sound_new (index : Nat → Nat) (n : Nat) : Sound index n .new := by
  have hused (i : Nat) : HashTable.new.used i = [] := rfl
  refine ⟨fun i => rfl, fun i => ⟨_, rfl, fun me hme => ?_⟩, fun i => nodup_nil,
    fun i me hme => absurd hme not_mem_nil, ?_, ?_⟩
  · have hme : me ∈ List.replicate bucketSize (⟨0, 0, 0⟩ : MacEntry) := hme
    rw [eq_of_mem_replicate hme]
  · simp only [hused, length_nil, Finset.sum_const_zero]
    rfl
  · simp only [hused, if_true, Finset.sum_const_zero]
    rfl

theorem not_has_new (index : Nat → Nat) (me : MacEntry) : ¬ HashTable.new.Has index me :=
  not_mem_nil

/-- What is in the bucket of an address after an entry for it was inserted. -/
theorem insert_cases (h : t.Sound index n) (hmac : mac ≠ 0) (port group : Nat) :
    (∃ (k : Nat) (hk : k < (t.used (index mac)).length) (free : List MacEntry),
      (t.used (index mac))[k].mac = mac ∧ (∀ me ∈ free, me.mac = 0) ∧
      t.buckets (index mac) = t.used (index mac) ++ free ∧
      t.insert mac port group (index mac) = { t with
        buckets := Function.update t.buckets (index mac)
          ((t.used (index mac)).set k ⟨mac, port, group⟩ ++ free) }) ∨
    (∃ (slot : MacEntry) (free : List MacEntry),
      mac ∉ (t.used (index mac)).map MacEntry.mac ∧ (∀ me ∈ free, me.mac = 0) ∧
      t.buckets (index mac) = t.used (index mac) ++ slot :: free ∧
      t.insert mac port group (index mac) = { t with
        ubuckets := if t.used (index mac) = [] then t.ubuckets + 1 else t.ubuckets
        entries := t.entries + 1
        buckets := Function.update t.buckets (index mac)
          (t.used (index mac) ++ ⟨mac, port, group⟩ :: free) }) ∨
    t.insert mac port group (index mac) = { t with overflow := true } := by
  obtain ⟨free, hbucket, hfree⟩ := h.free (index mac)
  have hused : ∀ me ∈ t.used (index mac), me.mac ≠ 0 := fun me => mac_ne_of_mem_used
  unfold insert
  generalize t.used (index mac) = used at *
  dsimp only
  rw [hbucket, List.findIdx?_append]
  cases hfind : used.findIdx? fun me => me.mac = 0 ∨ me.mac = mac with
  | some k =>
    -- The slot that is met first has the address, since no slot in front is free.
    obtain ⟨hk, hslot, -⟩ := List.findIdx?_eq_some_iff_getElem.mp hfind
    have hmem : used[k] ∈ used := getElem_mem hk
    have hsame : used[k].mac = mac := (of_decide_eq_true hslot).resolve_left (hused _ hmem)
    refine .inl ⟨k, hk, free, hsame, hfree, rfl, ?_⟩
    have hget : (used ++ free)[k]? = some used[k] := by
      rw [List.getElem?_append_left hk, List.getElem?_eq_getElem hk]
    have hnot : ¬ used[k].mac = 0 := hused _ hmem
    simp only [Option.some_or, hget, Option.any_some, hnot, decide_false, Bool.false_eq_true,
      false_and, if_false, set_append_left _ _ hk]
  | none =>
    have hnone := List.findIdx?_eq_none_iff.mp hfind
    have hnew : mac ∉ used.map MacEntry.mac := by
      intro hmem
      obtain ⟨me, hme, rfl⟩ := mem_map.mp hmem
      have := hnone me hme
      simp at this
    cases free with
    | nil => exact .inr (.inr rfl)
    | cons slot free =>
      refine .inr (.inl ⟨slot, free, hnew, fun me hme => hfree me (mem_cons_of_mem _ hme),
        rfl, ?_⟩)
      have hslot : slot.mac = 0 := hfree slot (mem_cons_self ..)
      have hget : (used ++ slot :: free)[used.length]? = some slot := by
        rw [List.getElem?_append_right le_rfl, Nat.sub_self, List.getElem?_cons_zero]
      have hset : (used ++ slot :: free).set used.length ⟨mac, port, group⟩ =
          used ++ ⟨mac, port, group⟩ :: free := by
        rw [set_append_right _ _ le_rfl, Nat.sub_self, set_cons_zero]
      have hfirst : List.findIdx? (fun me : MacEntry => decide (me.mac = 0 ∨ me.mac = mac))
          (slot :: free) = some 0 := by
        rw [List.findIdx?_cons, if_pos (decide_eq_true (.inl hslot))]
      simp only [hfirst, Option.none_or, Option.map_some, Nat.zero_add, hget, Option.any_some, hslot,
        decide_true, if_true, true_and, hset, length_eq_zero_iff]

theorem used_eq_of_split {free : List MacEntry} (hbucket : t.buckets i = used ++ free)
    (hused : ∀ me ∈ used, me.mac ≠ 0) (hfree : ∀ me ∈ free, me.mac = 0) : t.used i = used := by
  have hnone : free.takeWhile (fun me => decide (me.mac ≠ 0)) = [] := by
    cases free with
    | nil => rfl
    | cons me free =>
      simp [hfree me (mem_cons_self ..)]
  rw [HashTable.used, hbucket, takeWhile_append_of_pos fun me hme => ?_, hnone, append_nil]
  exact decide_eq_true (hused me hme)

theorem sum_update (f : List MacEntry → Nat) (hi : i < n) (used : Nat → List MacEntry)
    (b : List MacEntry) :
    (∑ j ∈ Finset.range n, f (Function.update used i b j)) + f (used i) =
      (∑ j ∈ Finset.range n, f (used j)) + f b := by
  have hmem : i ∈ Finset.range n := Finset.mem_range.mpr hi
  have hrest : ∑ j ∈ (Finset.range n).erase i, f (Function.update used i b j) =
      ∑ j ∈ (Finset.range n).erase i, f (used j) :=
    Finset.sum_congr rfl fun j hj => by rw [update_of_ne (Finset.ne_of_mem_erase hj)]
  rw [← Finset.add_sum_erase _ _ hmem, ← Finset.add_sum_erase _ (fun j => f (used j)) hmem,
    update_self]
  omega

theorem Sound.update (h : t.Sound index n) (ubuckets entries : Nat) (used free : List MacEntry)
    (hi : i < n) (hlength : (used ++ free).length = bucketSize)
    (hused : ∀ me ∈ used, me.mac ≠ 0 ∧ index me.mac = i) (hfree : ∀ me ∈ free, me.mac = 0)
    (hnodup : (used.map MacEntry.mac).Nodup)
    (hentries : entries + (t.used i).length = t.entries + used.length)
    (hubuckets : ubuckets + (if t.used i = [] then 0 else 1) =
      t.ubuckets + if used = [] then 0 else 1) (overflow : Bool) :
    Sound index n ⟨ubuckets, entries, overflow, Function.update t.buckets i (used ++ free)⟩ ∧
      ∀ j, HashTable.used ⟨ubuckets, entries, overflow,
        Function.update t.buckets i (used ++ free)⟩ j = Function.update t.used i used j := by
  have hall (j : Nat) : HashTable.used ⟨ubuckets, entries, overflow,
      Function.update t.buckets i (used ++ free)⟩ j = Function.update t.used i used j := by
    by_cases hj : j = i
    · subst hj
      rw [update_self]
      exact used_eq_of_split (update_self ..) (fun me hme => (hused me hme).1) hfree
    · rw [update_of_ne hj, HashTable.used]
      dsimp only
      rw [update_of_ne hj]
      rfl
  refine ⟨⟨fun j => ?_, fun j => ?_, fun j => ?_, fun j me hme => ?_, ?_, ?_⟩, hall⟩
  · dsimp only
    by_cases hj : j = i
    · subst hj
      rwa [update_self]
    · rw [update_of_ne hj]
      exact h.length j
  · rw [hall]
    dsimp only
    by_cases hj : j = i
    · subst hj
      rw [update_self, update_self]
      exact ⟨free, rfl, hfree⟩
    · rw [update_of_ne hj, update_of_ne hj]
      exact h.free j
  · rw [hall]
    by_cases hj : j = i
    · subst hj
      rwa [update_self]
    · rw [update_of_ne hj]
      exact h.nodup j
  · rw [hall] at hme
    by_cases hj : j = i
    · subst hj
      rw [update_self] at hme
      exact (hused me hme).2
    · rw [update_of_ne hj] at hme
      exact h.placed j me hme
  · have hsum := sum_update List.length hi t.used used
    simp only [hall]
    have hold := h.entries
    omega
  · have hsum := sum_update (fun b => if b = [] then 0 else 1) hi t.used used
    simp only [hall]
    have hold := h.ubuckets
    omega

/-- The entry of an address takes the place of the one that is there. -/
theorem mem_set_iff {me : MacEntry} (hnodup : (used.map MacEntry.mac).Nodup) (hk : k < used.length)
    (hsame : used[k].mac = new.mac) :
    me ∈ used.set k new ↔ me = new ∨ me ∈ used ∧ me.mac ≠ new.mac := by
  have hlength : k < (used.set k new).length := by rwa [length_set]
  constructor
  · intro hmem
    obtain ⟨j, hj, rfl⟩ := mem_iff_getElem.mp hmem
    rw [length_set] at hj
    by_cases hjk : k = j
    · subst hjk
      exact .inl (getElem_set_self hlength)
    · rw [getElem_set_ne hjk]
      refine .inr ⟨getElem_mem hj, fun hmac => hjk ?_⟩
      have hk' : k < (used.map MacEntry.mac).length := by rwa [length_map]
      have hj' : j < (used.map MacEntry.mac).length := by rwa [length_map]
      have heq : (used.map MacEntry.mac)[k] = (used.map MacEntry.mac)[j] := by
        rw [getElem_map, getElem_map, hsame, hmac]
      exact hnodup.getElem_inj_iff.mp heq
  · rintro (rfl | ⟨hmem, hmac⟩)
    · exact mem_set hk me
    · obtain ⟨j, hj, rfl⟩ := mem_iff_getElem.mp hmem
      have hjk : k ≠ j := by
        rintro rfl
        exact hmac hsame
      have hj' : j < (used.set k new).length := by rwa [length_set]
      have hget : (used.set k new)[j] = used[j] := getElem_set_ne hjk hj'
      rw [← hget]
      exact getElem_mem hj'

theorem map_mac_set (hk : k < used.length)
    (hsame : used[k].mac = new.mac) : (used.set k new).map MacEntry.mac = used.map MacEntry.mac := by
  have hmap : k < (used.map MacEntry.mac).length := by rwa [length_map]
  have hget : (used.map MacEntry.mac)[k] = new.mac := (getElem_map _).trans hsame
  rw [map_set, ← hget, set_getElem_self]

theorem overflow_of_insert (h : (t.insert mac port group i).overflow = false) :
    t.overflow = false := by
  unfold insert at h
  dsimp only at h
  split at h
  · exact h
  · exact Bool.noConfusion h

variable (h : t.Sound index n)
include h

/-- **An insertion** stores the entry in the place of the one that the address had, if it does not
run into a full bucket. -/
theorem insert_spec (hmac : mac ≠ 0) (hindex : index mac < n)
    (hroom : (t.insert mac port group (index mac)).overflow = false) :
    (t.insert mac port group (index mac)).Sound index n ∧
      ∀ me, (t.insert mac port group (index mac)).Has index me ↔
        me = ⟨mac, port, group⟩ ∨ t.Has index me ∧ me.mac ≠ mac := by
  have hlength := h.length (index mac)
  have hnodup := h.nodup (index mac)
  have hold : ∀ me ∈ t.used (index mac), me.mac ≠ 0 ∧ index me.mac = index mac := fun me hme =>
    ⟨mac_ne_of_mem_used hme, h.placed _ me hme⟩
  -- Only the bucket of the address is another one.
  have hhas {used : List MacEntry} (hused : ∀ me, me ∈ used ↔
      me = ⟨mac, port, group⟩ ∨ me ∈ t.used (index mac) ∧ me.mac ≠ mac) (me : MacEntry) :
      me ∈ Function.update t.used (index mac) used (index me.mac) ↔
        me = ⟨mac, port, group⟩ ∨ t.Has index me ∧ me.mac ≠ mac := by
    by_cases hi : index me.mac = index mac
    · rw [HashTable.Has, hi, update_self]
      exact hused me
    · rw [update_of_ne hi]
      constructor
      · exact fun hme => .inr ⟨hme, fun heq => hi (heq ▸ rfl)⟩
      · rintro (rfl | hme)
        · exact absurd rfl hi
        · exact hme.1
  rcases insert_cases h hmac port group with
    ⟨k, hk, free, hsame, hfree, hbucket, heq⟩ | ⟨slot, free, hnew, hfree, hbucket, heq⟩ | heq
  · -- The address is known: its entry is the only one that changes.
    have hmem (me : MacEntry) : me ∈ (t.used (index mac)).set k ⟨mac, port, group⟩ ↔
        me = ⟨mac, port, group⟩ ∨ me ∈ t.used (index mac) ∧ me.mac ≠ mac :=
      mem_set_iff hnodup hk hsame
    obtain ⟨hsound, hused⟩ := h.update t.ubuckets t.entries
      ((t.used (index mac)).set k ⟨mac, port, group⟩) free hindex
      (by rwa [List.length_append, length_set, ← List.length_append, ← hbucket])
      (fun me hme => ((hmem me).mp hme).elim (fun h => h ▸ ⟨hmac, rfl⟩) fun h => hold me h.1)
      hfree (by rwa [map_mac_set hk hsame]) (by rw [length_set])
      (by simp only [set_eq_nil_iff]) t.overflow
    rw [heq]
    refine ⟨hsound, fun me => ?_⟩
    rw [HashTable.Has, hused]
    exact hhas hmem me
  · -- The address is new: it takes the first free slot.
    have hmem (me : MacEntry) : me ∈ t.used (index mac) ++ [⟨mac, port, group⟩] ↔
        me = ⟨mac, port, group⟩ ∨ me ∈ t.used (index mac) ∧ me.mac ≠ mac := by
      rw [mem_append, mem_singleton, or_comm]
      refine or_congr_right (iff_self_and.mpr fun hme hsame => hnew ?_)
      exact mem_map.mpr ⟨me, hme, hsame⟩
    obtain ⟨hsound, hused⟩ := h.update
      (if t.used (index mac) = [] then t.ubuckets + 1 else t.ubuckets) (t.entries + 1)
      (t.used (index mac) ++ [⟨mac, port, group⟩]) free hindex
      (by rw [hbucket] at hlength; simpa using hlength)
      (fun me hme => ((hmem me).mp hme).elim (fun h => h ▸ ⟨hmac, rfl⟩) fun h => hold me h.1)
      hfree (by
        rw [map_append, nodup_append]
        exact ⟨hnodup, nodup_singleton _, fun a ha b hb => by
          rw [mem_singleton.mp hb]
          rintro rfl
          exact hnew ha⟩)
      (by rw [List.length_append, length_singleton]; omega)
      (by
        rw [if_neg (append_ne_nil_of_right_ne_nil _ (cons_ne_nil _ _))]
        split_ifs <;> rfl) t.overflow
    rw [append_assoc, singleton_append] at hsound hused
    rw [heq]
    refine ⟨hsound, fun me => ?_⟩
    rw [HashTable.Has, hused]
    exact hhas hmem me
  · rw [heq] at hroom
    exact Bool.noConfusion hroom

/-! ## The iterator -/

theorem Sound.next_used (hi : i < n) (hslot : slot < (t.used i).length) :
    next t n i slot = some ((t.used i)[slot],
      if slot = bucketSize - 1 then (i + 1, 0) else (i, slot + 1)) := by
  obtain ⟨free, hbucket, -⟩ := h.free i
  have hget : (t.buckets i).getD slot ⟨0, 0, 0⟩ = (t.used i)[slot] := by
    rw [hbucket, getD_eq_getElem?_getD, List.getElem?_append_left hslot,
      List.getElem?_eq_getElem hslot, Option.getD_some]
  have hne := mac_ne_of_mem_used (getElem_mem hslot)
  rw [next]
  rw [hget, if_neg hne]
  split_ifs <;> rfl

theorem Sound.next_free (hi : i < n)
    (hslot : (t.used i).length ≤ slot) : next t n i slot = next t n (i + 1) 0 := by
  obtain ⟨free, hbucket, hfree⟩ := h.free i
  have hget : ((t.buckets i).getD slot ⟨0, 0, 0⟩).mac = 0 := by
    rw [hbucket, getD_eq_getElem?_getD, List.getElem?_append_right hslot]
    cases hslot : free[slot - (t.used i).length]? with
    | none => rfl
    | some me => exact hfree me (mem_of_getElem? hslot)
  rw [next, if_pos hi]
  rw [if_pos hget]

theorem Sound.length_used_le (i : Nat) : (t.used i).length ≤ bucketSize :=
  h.length i ▸ (takeWhile_sublist _).length_le

/-- The loop visits the rest of a bucket and goes on with the next one. -/
theorem Sound.iterate_bucket (hi : i < n) (rounds : Nat) :
    iterate t n (rounds + ((t.used i).length - slot)) i slot =
      (t.used i).drop slot ++ iterate t n rounds (i + 1) 0 := by
  induction hleft : (t.used i).length - slot generalizing slot with
  | zero =>
    have hend : (t.used i).length ≤ slot := by omega
    rw [drop_eq_nil_of_le hend, nil_append]
    cases rounds with
    | zero => rfl
    | succ rounds => rw [iterate, iterate, h.next_free hi hend]
  | succ left ih =>
    have hslot : slot < (t.used i).length := by omega
    rw [← Nat.add_assoc, iterate, h.next_used hi hslot, drop_eq_getElem_cons hslot]
    by_cases hlast : slot = bucketSize - 1
    · -- The last slot of a full bucket.
      have hle := h.length_used_le i
      have hzero : left = 0 := by simp only [bucketSize] at *; omega
      have hend : (t.used i).length ≤ slot + 1 := by omega
      rw [if_pos hlast, drop_eq_nil_of_le hend, hzero]
      rfl
    · rw [if_neg hlast]
      dsimp only
      rw [ih (by omega)]
      rfl

/-- **The iterator** visits the entries of all buckets. -/
theorem Sound.iterate_eq : iterate t n (n * bucketSize) 0 0 = (List.range n).flatMap t.used := by
  have hrest : ∀ k i rounds, i + k = n → k * bucketSize ≤ rounds →
      iterate t n rounds i 0 = (List.range' i k).flatMap t.used := by
    intro k
    induction k with
    | zero =>
      intro i rounds hi _
      have hend : ¬ i < n := by omega
      cases rounds with
      | zero => rfl
      | succ rounds =>
        rw [iterate, next, if_neg hend]
        rfl
    | succ k ih =>
      intro i rounds hi hrounds
      have hle := h.length_used_le i
      have hsplit : rounds = rounds - (t.used i).length + ((t.used i).length - 0) := by
        rw [Nat.succ_mul] at hrounds
        omega
      rw [hsplit, h.iterate_bucket (by omega), drop_zero, List.range'_succ, flatMap_cons,
        ih (i + 1) _ (by omega) (by rw [Nat.succ_mul] at hrounds; omega)]
  rw [hrest n 0 _ (Nat.zero_add n) le_rfl, range_eq_range']

theorem Sound.mem_iterate (hindex : ∀ mac, index mac < n) (me : MacEntry) :
    me ∈ iterate t n (n * bucketSize) 0 0 ↔ t.Has index me := by
  rw [h.iterate_eq, mem_flatMap]
  constructor
  · rintro ⟨i, -, hme⟩
    rw [HashTable.Has, h.placed i me hme]
    exact hme
  · exact fun hme => ⟨_, mem_range.mpr (hindex me.mac), hme⟩

theorem Sound.nodup_used : (((List.range n).flatMap t.used).map MacEntry.mac).Nodup := by
  rw [map_flatMap, nodup_flatMap]
  refine ⟨fun i _ => h.nodup i, nodup_range.imp fun {i j} hij => ?_⟩
  refine disjoint_left.mpr fun mac hi hj => ?_
  obtain ⟨a, ha, rfl⟩ := mem_map.mp hi
  obtain ⟨b, hb, hab⟩ := mem_map.mp hj
  exact hij ((h.placed i a ha).symm.trans ((congrArg index hab.symm).trans (h.placed j b hb)))

end HashTable

/-! ## Copies -/

/-- The insertions of the loop at the end of `maybe_resize`, into one of the tables. -/
def HashTable.copy (index : Nat → Nat) (t : HashTable) (old : List MacEntry) : HashTable :=
  old.foldl (fun t me => t.insert me.mac me.port me.group (index me.mac)) t

variable {index : Nat → Nat} {n : Nat} {t : HashTable} {me : MacEntry} {old : List MacEntry}

theorem overflow_of_copy (h : (t.copy index old).overflow = false) : t.overflow = false := by
  induction old generalizing t with
  | nil => exact h
  | cons a old ih => exact HashTable.overflow_of_insert (ih h)

/-- **A copy** has the entries of the old table as well. -/
theorem copy_spec (h : t.Sound index n) (hindex : ∀ mac, index mac < n)
    (hmac : ∀ me ∈ old, me.mac ≠ 0) (hnodup : (old.map MacEntry.mac).Nodup)
    (hroom : (t.copy index old).overflow = false) :
    (t.copy index old).Sound index n ∧ ∀ me, (t.copy index old).Has index me ↔
      me ∈ old ∨ t.Has index me ∧ me.mac ∉ old.map MacEntry.mac := by
  induction old generalizing t with
  | nil =>
    refine ⟨h, fun me => ?_⟩
    rw [map_nil, or_iff_right not_mem_nil, and_iff_left not_mem_nil]
    rfl
  | cons a old ih =>
    rw [map_cons, nodup_cons] at hnodup
    obtain ⟨hsound, hhas⟩ := HashTable.insert_spec h (hmac a (mem_cons_self ..))
      (hindex a.mac) (overflow_of_copy hroom)
    obtain ⟨hsound', hhas'⟩ := ih hsound (fun me hme => hmac me (mem_cons_of_mem _ hme))
      hnodup.2 hroom
    refine ⟨hsound', fun me => (hhas' me).trans ?_⟩
    rw [hhas me, mem_cons, map_cons, mem_cons, not_or]
    constructor
    · rintro (hold | ⟨rfl | ⟨hme, hne⟩, hnot⟩)
      · exact .inl (.inr hold)
      · exact .inl (.inl rfl)
      · exact .inr ⟨hme, hne, hnot⟩
    · rintro ((rfl | hold) | ⟨hme, hne, hnot⟩)
      · exact .inr ⟨.inl rfl, hnodup.1⟩
      · exact .inl hold
      · exact .inr ⟨.inr ⟨hme, hne⟩, hnot⟩

/-! ## What is known of an address -/

/-- The port and the group of the latest insertions, in the current interval and in the previous
one. -/
structure Ages where
  current : Nat → Option (Nat × Nat)
  previous : Nat → Option (Nat × Nat)

/-- The latest insertion of an address in one of the two intervals. -/
def Ages.known (a : Ages) (mac : Nat) : Option (Nat × Nat) := (a.current mac).or (a.previous mac)

/-- What is done with a MAC table. -/
inductive MacStep where
  | insert (mac port group : Nat)
  | lookup (mac : Nat)
  | timeout
deriving Repr

/-- A MAC table, and the insertions so far. -/
structure AgeingUse where
  table : SizedTable
  ages : Ages

section Use

variable (ceilLog2 hash : Nat → Nat)

/-- A MAC table as it is made. -/
def AgeingUse.start (table : SizedTable) : AgeingUse := ⟨table, fun _ => none, fun _ => none⟩

/-- One step. A look-up changes nothing. -/
def AgeingUse.step (s : AgeingUse) : MacStep → Except Raise AgeingUse
  | .insert mac port group => .ok ⟨s.table.insert hash mac port group,
      { s.ages with current := Function.update s.ages.current mac (some (port, group)) }⟩
  | .lookup _ => .ok s
  | .timeout => .ok ⟨s.table.timeout ceilLog2 hash, fun _ => none, s.ages.current⟩

/-- The step does not run into a full bucket. -/
def NoOverflow (s : AgeingUse) (op : MacStep) : Prop :=
  ∀ s', s.step ceilLog2 hash op = .ok s' →
    s'.table.main.overflow = false ∧ s'.table.shadow.overflow = false

/-- The insertions of addresses and ports that are not 0. -/
def MacStep.Proper : MacStep → Prop
  | insert mac port _ => mac ≠ 0 ∧ port ≠ 0
  | lookup _ => True
  | timeout => True

/-- The addresses that a table of `n` buckets has in its slots. -/
def HashTable.stored (t : HashTable) (n : Nat) : List Nat :=
  (List.range n).flatMap fun i => ((t.buckets i).map MacEntry.mac).filter (· ≠ 0)

/-- The counters are the number of addresses in the table and of buckets with an address. -/
structure HashTable.Counted (t : HashTable) (n : Nat) : Prop where
  entries : t.entries = (t.stored n).toFinset.card
  ubuckets : t.ubuckets =
    ((List.range n).filter fun i => (t.buckets i).any fun me => me.mac ≠ 0).length

/-- The look-ups find what the MAC table has, and the counters of both tables count it. -/
structure Right (s : AgeingUse) : Prop where
  lookup : ∀ mac, s.table.lookup hash mac = s.ages.known mac
  main : s.table.main.Counted s.table.buckets
  shadow : s.table.shadow.Counted s.table.buckets

end Use

variable {ceilLog2 hash : Nat → Nat} {s s' : AgeingUse}

/-! ## Counters -/

theorem sum_map_range (f : Nat → Nat) (n : Nat) :
    ((List.range n).map f).sum = ∑ i ∈ Finset.range n, f i := rfl

theorem length_filter_range (p : Nat → Bool) (n : Nat) :
    ((List.range n).filter p).length = ∑ i ∈ Finset.range n, if p i then 1 else 0 := by
  induction n with
  | zero => rfl
  | succ n ih =>
    rw [range_succ, filter_append, List.length_append, ih, Finset.sum_range_succ,
      filter_singleton]
    cases p n <;> rfl

/-- **The counters** of a table are right. -/
theorem HashTable.Sound.counted (h : t.Sound index n) : t.Counted n := by
  have hstored : t.stored n = ((List.range n).flatMap t.used).map MacEntry.mac := by
    rw [map_flatMap]
    refine flatMap_congr fun i _ => ?_
    obtain ⟨free, hbucket, hfree⟩ := h.free i
    have hnone : (free.map MacEntry.mac).filter (· ≠ 0) = [] := by
      refine filter_eq_nil_iff.mpr fun mac hmac => ?_
      obtain ⟨me, hme, rfl⟩ := mem_map.mp hmac
      simp [hfree me hme]
    have hall : ((t.used i).map MacEntry.mac).filter (· ≠ 0) = (t.used i).map MacEntry.mac := by
      refine filter_eq_self.mpr fun mac hmac => ?_
      obtain ⟨me, hme, rfl⟩ := mem_map.mp hmac
      exact decide_eq_true (HashTable.mac_ne_of_mem_used hme)
    rw [hbucket, map_append, filter_append, hnone, hall, append_nil]
  constructor
  · rw [hstored, toFinset_card_of_nodup h.nodup_used, length_map, length_flatMap,
      sum_map_range, h.entries]
  · rw [length_filter_range, h.ubuckets]
    refine Finset.sum_congr rfl fun i _ => ?_
    obtain ⟨free, hbucket, hfree⟩ := h.free i
    have hany : ((t.buckets i).any fun me => decide (me.mac ≠ 0)) = true ↔ t.used i ≠ [] := by
      rw [any_eq_true]
      constructor
      · rintro ⟨me, hme, hne⟩ hnil
        rw [hbucket, hnil] at hme
        exact of_decide_eq_true hne (hfree me hme)
      · intro hne
        obtain ⟨me, hme⟩ := exists_mem_of_ne_nil _ hne
        exact ⟨me, hbucket ▸ mem_append_left _ hme,
          decide_eq_true (HashTable.mac_ne_of_mem_used hme)⟩
    by_cases hnil : t.used i = []
    · rw [if_pos hnil, if_neg (mt hany.mp (not_not.mpr hnil))]
    · rw [if_neg hnil, if_pos (hany.mpr hnil)]

/-! ## Resizing -/

/-- A number of buckets that the loop of `maybe_resize` comes to is a power of two. -/
theorem grow_cases (ceilLog2 : Nat → Nat) (buckets entries max rounds size newBuckets : Nat) :
    (grow ceilLog2 buckets entries max rounds size newBuckets).2 = newBuckets ∨
      ∃ k, (grow ceilLog2 buckets entries max rounds size newBuckets).2 = 2 ^ k := by
  induction rounds generalizing size newBuckets with
  | zero => exact .inl rfl
  | succ rounds ih =>
    unfold grow
    split_ifs
    · rcases ih (min (size * 2) max) (bucketsFromSize ceilLog2 (min (size * 2) max)) with heq | hpow
      · exact .inr ⟨_, heq⟩
      · exact .inr hpow
    · exact .inl rfl

theorem foldl_insert (old : List MacEntry) (s : SizedTable) :
    old.foldl (fun t me => t.insert hash me.mac me.port me.group) s =
      { s with
        main := s.main.copy (fun mac => hash mac &&& s.mask) old
        shadow := s.shadow.copy (fun mac => hash mac &&& s.mask) old } := by
  induction old generalizing s with
  | nil => rfl
  | cons a old ih =>
    rw [foldl_cons, ih]
    rfl

/-- **A timeout** makes the shadow table, or a copy of it with other buckets, the main table. -/
theorem timeout_cases (ceilLog2 hash : Nat → Nat) (s : SizedTable)
    (hcopy : s.conf.copyOnResize = true) :
    ∃ size, s.timeout ceilLog2 hash = ⟨s.conf, size, s.buckets, s.mask, s.shadow, .new⟩ ∨
      ∃ k, s.timeout ceilLog2 hash = ⟨s.conf, size, 2 ^ k, 2 ^ k - 1,
        HashTable.new.copy (fun mac => hash mac &&& (2 ^ k - 1))
          (iterate s.shadow s.buckets (s.buckets * bucketSize) 0 0), .new⟩ := by
  unfold SizedTable.timeout SizedTable.maybeResize
  by_cases hfull : s.main.overflow ∨ s.size < s.main.entries
  · rw [if_neg (not_not.mpr hfull)]
    have hcases := grow_cases ceilLog2 s.buckets s.main.entries s.conf.resizeMax
      (s.conf.resizeMax - s.size) s.size s.buckets
    dsimp only
    generalize grow ceilLog2 s.buckets s.main.entries s.conf.resizeMax
      (s.conf.resizeMax - s.size) s.size s.buckets = r at hcases
    obtain ⟨size, newBuckets⟩ := r
    refine ⟨size, ?_⟩
    by_cases hsame : newBuckets = s.buckets
    · rw [if_pos hsame]
      exact .inl rfl
    · obtain ⟨k, rfl⟩ := hcases.resolve_left hsame
      refine .inr ⟨k, ?_⟩
      simp only [if_neg hsame, foldl_insert, hcopy, if_true, Bool.not_true, Bool.and_false,
        Bool.false_eq_true, if_false]
  · rw [if_pos hfull]
    exact ⟨s.size, .inl rfl⟩

/-! ## Runs -/

/-- A MAC table in a run, with the addresses that it has. -/
structure Good (hash : Nat → Nat) (s : AgeingUse) : Prop where
  copies : s.table.conf.copyOnResize = true
  pos : 0 < s.table.buckets
  mask : s.table.mask = s.table.buckets - 1
  main : s.table.main.Sound (s.table.index hash) s.table.buckets
  shadow : s.table.shadow.Sound (s.table.index hash) s.table.buckets
  known : ∀ me, s.table.main.Has (s.table.index hash) me ↔
    s.ages.known me.mac = some (me.port, me.group)
  current : ∀ me, s.table.shadow.Has (s.table.index hash) me ↔
    s.ages.current me.mac = some (me.port, me.group)
  ports : ∀ mac v, s.ages.known mac = some v → v.1 ≠ 0

theorem Good.index_lt (h : Good hash s) (mac : Nat) : s.table.index hash mac < s.table.buckets := by
  have hle : hash mac &&& s.table.mask ≤ s.table.mask := Nat.and_le_right
  have hpos := h.pos
  rw [h.mask] at hle
  rw [SizedTable.index, h.mask]
  omega

theorem known_update (a : Ages) (mac : Nat) (v : Nat × Nat) (mac' : Nat) :
    Ages.known { a with current := Function.update a.current mac (some v) } mac' =
      if mac' = mac then some v else a.known mac' := by
  unfold Ages.known
  dsimp only
  by_cases hmac : mac' = mac
  · rw [if_pos hmac, hmac, update_self, Option.some_or]
  · rw [if_neg hmac, update_of_ne hmac]

variable {mac port group : Nat}

theorem inserted_iff {known : Nat → Option (Nat × Nat)} {P : MacEntry → Prop}
    (h : ∀ me, P me ↔ known me.mac = some (me.port, me.group)) (me : MacEntry) :
    me = ⟨mac, port, group⟩ ∨ P me ∧ me.mac ≠ mac ↔
      (if me.mac = mac then some (port, group) else known me.mac) = some (me.port, me.group) := by
  by_cases hmac : me.mac = mac
  · obtain ⟨mac', port', group'⟩ := me
    obtain rfl : mac' = mac := hmac
    simp [eq_comm]
  · rw [if_neg hmac, ← h me]
    refine ⟨fun hor => hor.elim (fun heq => absurd (heq ▸ rfl) hmac) And.left, fun hP => .inr ⟨hP, hmac⟩⟩

/-- **An insertion** is known in both tables. -/
theorem Good.insert (h : Good hash s) (hmac : mac ≠ 0) (hport : port ≠ 0)
    (hstep : s.step ceilLog2 hash (.insert mac port group) = .ok s')
    (hmain : s'.table.main.overflow = false) (hshadow : s'.table.shadow.overflow = false) :
    Good hash s' := by
  obtain rfl := (Except.ok.inj hstep).symm
  obtain ⟨hmain, hhas⟩ := HashTable.insert_spec h.main hmac (h.index_lt mac) hmain
  obtain ⟨hshadow, hhas'⟩ := HashTable.insert_spec h.shadow hmac (h.index_lt mac) hshadow
  refine ⟨h.copies, h.pos, h.mask, hmain, hshadow, fun me => (hhas me).trans ?_,
    fun me => (hhas' me).trans ?_, fun mac' v hv => ?_⟩
  · rw [inserted_iff h.known me, known_update]
  · rw [inserted_iff h.current me]
    dsimp only
    rw [Function.update_apply]
  · rw [known_update] at hv
    split_ifs at hv
    · exact Option.some.inj hv ▸ hport
    · exact h.ports mac' v hv

/-- **A timeout** forgets what was not inserted in its interval. -/
theorem Good.timeout (h : Good hash s) (hstep : s.step ceilLog2 hash .timeout = .ok s')
    (hroom : s'.table.main.overflow = false) : Good hash s' := by
  obtain rfl := (Except.ok.inj hstep).symm
  have hports : ∀ mac v, s.ages.current mac = some v → v.1 ≠ 0 := fun mac v hv =>
    h.ports mac v (by rw [Ages.known, hv, Option.some_or])
  have hknown (mac : Nat) : Ages.known ⟨fun _ => none, s.ages.current⟩ mac = s.ages.current mac :=
    Option.none_or
  obtain ⟨size, heq | ⟨k, heq⟩⟩ := timeout_cases ceilLog2 hash s.table h.copies
  · rw [heq]
    refine ⟨h.copies, h.pos, h.mask, h.shadow, HashTable.sound_new _ _, fun me => ?_, fun me => ?_,
      fun mac v hv => hports mac v (by rwa [hknown] at hv)⟩
    · rw [hknown]
      exact h.current me
    · exact iff_of_false (HashTable.not_has_new _ me) nofun
  · -- The new table has the entries of the old shadow table, in other buckets.
    rw [heq] at hroom ⊢
    have hlt (mac : Nat) : hash mac &&& (2 ^ k - 1) < 2 ^ k := by
      have hle : hash mac &&& (2 ^ k - 1) ≤ 2 ^ k - 1 := Nat.and_le_right
      have := Nat.two_pow_pos k
      omega
    have hmem := h.shadow.mem_iterate h.index_lt
    obtain ⟨hsound, hhas⟩ := copy_spec (HashTable.sound_new _ (2 ^ k)) hlt
      (fun me hme => HashTable.mac_ne_of_mem_used ((hmem me).mp hme))
      (by rw [h.shadow.iterate_eq]; exact h.shadow.nodup_used) hroom
    refine ⟨h.copies, Nat.two_pow_pos k, rfl, hsound, HashTable.sound_new _ _, fun me => ?_,
      fun me => ?_, fun mac v hv => hports mac v (by rwa [hknown] at hv)⟩
    · rw [hknown, ← h.current me, ← hmem me]
      refine (hhas me).trans (or_iff_left fun hold => HashTable.not_has_new _ me hold.1)
    · exact iff_of_false (HashTable.not_has_new _ me) nofun

/-- **The look-ups** find the entries, and the counters count them. -/
theorem Good.right (h : Good hash s) : Right hash s := by
  refine ⟨fun mac => ?_, h.main.counted, h.shadow.counted⟩
  have hlookup : (s.table.tables hash).lookup mac =
      (s.table.main.used (s.table.index hash mac)).find? fun me => me.mac = mac := rfl
  rw [SizedTable.lookup, hlookup]
  cases hfind : (s.table.main.used (s.table.index hash mac)).find? fun me => me.mac = mac with
  | none =>
    refine (Option.eq_none_iff_forall_ne_some.mpr fun v hv => ?_).symm
    have hhas := (h.known ⟨mac, v.1, v.2⟩).mpr hv
    exact List.find?_eq_none.mp hfind _ hhas (decide_eq_true rfl)
  | some me =>
    obtain rfl : me.mac = mac :=
      of_decide_eq_true (List.find?_some (p := fun me : MacEntry => decide (me.mac = mac)) hfind)
    have hknown := (h.known me).mp (mem_of_find?_eq_some hfind)
    dsimp only
    rw [hknown, if_neg (h.ports _ _ hknown)]

theorem good_start {conf : MacTableConf} {table : SizedTable} (hcopy : conf.copyOnResize = true)
    (hnew : SizedTable.new ceilLog2 conf = .ok table) : Good hash (.start table) := by
  unfold SizedTable.new at hnew
  split_ifs at hnew
  obtain rfl := (Except.ok.inj hnew).symm
  exact ⟨hcopy, Nat.two_pow_pos _, rfl, HashTable.sound_new _ _, HashTable.sound_new _ _,
    fun me => iff_of_false (HashTable.not_has_new _ me) nofun,
    fun me => iff_of_false (HashTable.not_has_new _ me) nofun, nofun⟩

/-- An insertion of the address 0 or with the port 0 is not found again. -/
theorem proper_of_right (ceilLog2 : Nat → Nat) (s : AgeingUse) (op : MacStep)
    (hstep : s.step ceilLog2 hash op = .ok s') (hright : Right hash s') : op.Proper := by
  cases op with
  | insert mac port group =>
    obtain rfl := (Except.ok.inj hstep).symm
    have hknown := hright.lookup mac
    rw [known_update, if_pos rfl] at hknown
    unfold SizedTable.lookup at hknown
    split at hknown
    · next me hfound =>
      split_ifs at hknown with hport
      have hne := HashTable.mac_ne_of_mem_used (mem_of_find?_eq_some hfound)
      have hsame : me.mac = mac :=
        of_decide_eq_true (List.find?_some (p := fun me : MacEntry => decide (me.mac = mac)) hfound)
      have hports := (Prod.mk.inj (Option.some.inj hknown)).1
      exact ⟨hsame ▸ hne, hports ▸ hport⟩
    · cases hknown
  | lookup mac => trivial
  | timeout => trivial

/-- **Ageing.** In a run of a MAC table without overflows, all look-ups give the latest insertion of
the current or the previous interval and all counters are right, if and only if no address and no
port that is inserted is 0. -/
theorem ageing_iff (ceilLog2 hash : Nat → Nat) (conf : MacTableConf)
    (hcopy : conf.copyOnResize = true) (table : SizedTable)
    (hnew : SizedTable.new ceilLog2 conf = .ok table) (ops : List MacStep)
    (hroom : Along (AgeingUse.step ceilLog2 hash) (NoOverflow ceilLog2 hash) (.start table) ops) :
    (∀ k s, run (AgeingUse.step ceilLog2 hash) (.start table) (ops.take k) = .ok s →
      Right hash s) ↔ ∀ op ∈ ops, op.Proper := by
  constructor
  · intro hall op hop
    obtain ⟨k, hk, rfl⟩ := mem_iff_getElem.mp hop
    have hreturns : ∃ s', run (AgeingUse.step ceilLog2 hash) (.start table) (ops.take (k + 1)) =
        .ok s' ∧ True :=
      run_total (I := fun _ _ => True) (P := fun _ _ => True)
        (fun s op _ _ _ => by cases op <;> exact ⟨_, rfl, trivial⟩) trivial along_true
    obtain ⟨s', hrun, -⟩ := hreturns
    have hlast := hrun
    rw [take_succ_eq_append_getElem hk] at hlast
    obtain ⟨s, -, hstep⟩ := run_snoc_eq_ok hlast
    exact proper_of_right ceilLog2 s _ hstep (hall (k + 1) s' hrun)
  · intro hproper k s hrun
    have halong := (hroom.and (along_of_forall hproper)).take k
    have hgood := run_inv (I := fun s _ => Good hash s) (fun s op _ s' h hop hstep => ?_)
      (good_start hcopy hnew) halong hrun
    · exact hgood.right
    · obtain ⟨hmain, hshadow⟩ := hop.1 s' hstep
      cases op with
      | insert mac port group => exact h.insert hop.2.1 hop.2.2 hstep hmain hshadow
      | lookup mac =>
        cases hstep
        exact h
      | timeout => exact h.timeout hstep hmain

/-- The table of the default configuration. -/
def defaultTable : SizedTable :=
  ⟨⟨256, true, 2 ^ 16⟩, 256, 2 ^ 9, 2 ^ 9 - 1, .new, .new⟩

/-- An address is inserted, and looked up after a timeout. -/
theorem ageing_iff_timeout :
    ∃ s, run (AgeingUse.step (fun _ => 9) id) (.start defaultTable)
      [.insert 7 1 0, .timeout, .lookup 7] = .ok s ∧ Right id s := by
  have hroom : Along (AgeingUse.step (fun _ => 9) id) (NoOverflow (fun _ => 9) id)
      (.start defaultTable) [.insert 7 1 0, .timeout, .lookup 7] := by
    refine ⟨fun s hs => ?_, fun s₁ h₁ => ⟨fun s hs => ?_, fun s₂ h₂ => ⟨fun s hs => ?_, ?_⟩⟩⟩
    · cases hs
      exact ⟨rfl, rfl⟩
    · cases h₁
      cases hs
      exact ⟨rfl, rfl⟩
    · cases h₁
      cases h₂
      cases hs
      exact ⟨rfl, rfl⟩
    · exact fun _ _ => trivial
  have hright := (ageing_iff (fun _ => 9) id ⟨256, true, 2 ^ 16⟩ rfl defaultTable rfl _ hroom).mpr
    (by simp [MacStep.Proper])
  exact ⟨_, rfl, hright 3 _ rfl⟩

/-- The address 0 is inserted: the counter counts it, but a slot with the address 0 is free. -/
theorem zero_address_not_found :
    ∃ s, run (AgeingUse.step (fun _ => 9) id) (.start defaultTable) [.insert 0 1 0] = .ok s ∧
      s.table.main.overflow = false ∧ s.table.shadow.overflow = false ∧
      s.table.lookup id 0 = none ∧ s.ages.known 0 = some (1, 0) ∧ s.table.main.entries = 1 ∧
      ¬ Right id s := by
  refine ⟨_, rfl, rfl, rfl, rfl, rfl, rfl, fun hright => ?_⟩
  exact (proper_of_right (fun _ => 9) (.start defaultTable) (.insert 0 1 0) rfl hright).1 rfl

end Bridge

end Snabb
