import Snabb.Lib.Yang.ListMap

/-!
# Lists in use (`lib/yang/list.lua`)

A history of calls, next to the map that the list should be. A call is answered as by the map
unless it meets a defect: the comparison of keys ignores how long strings are, `add_entry` cannot
tell keys apart that have all hashes in common, and what is stored has to fit.

- `list_is_a_map`: a list is a map in the order of insertion;
- `longer_key_is_found`: a key is taken for one that it begins with.
-/

namespace Snabb

open Foundation List

/-- A call. Behind a Lua string there may be other bytes at each call. -/
inductive ListOp where
  | addEntry (behind : Nat → UInt8) (e : Entry) (update : Bool)
      (members : Option Entry)
  | findEntry (behind : Nat → UInt8) (k : Entry)
  | removeEntry (behind : Nat → UInt8) (k : Entry)

/-- A list, the map that it should be, what the calls have answered and what they should have
answered. -/
structure ListUse where
  list : YangList
  map : RowMap
  answers : List ListAnswer
  expected : List ListAnswer

namespace ListUse

open YangList

/-- Nothing was called yet. -/
def fresh (list : YangList) : ListUse := ⟨list, [], [], []⟩

/-- A list is made. -/
def start : Except ListRaise ListUse := return .fresh (← YangList.new)

/-- One call. That an entry is a duplicate is an answer. -/
def step (conf : ListConf) (s : ListUse) : ListOp → Except ListRaise ListUse
  | .addEntry behind e update members =>
    let (map, expected) :=
      s.map.add (rowOf conf.keys e) (rowOf conf.members (members.getD e)) update
    match s.list.addEntry conf behind e update members with
    | .ok list => .ok ⟨list, map, s.answers ++ [.done], s.expected ++ [expected]⟩
    | .error .duplicate =>
      .ok ⟨s.list, map, s.answers ++ [.duplicate], s.expected ++ [expected]⟩
    | .error raise => .error raise
  | .findEntry behind k => do
    let found ← s.list.findEntry conf behind k
    return ⟨s.list, s.map, s.answers ++ [.entry found],
      s.expected ++ [s.map.find conf (rowOf conf.keys k)]⟩
  | .removeEntry behind k => do
    let (list, removed) ← s.list.removeEntry conf behind k
    let (map, expected) := s.map.remove (rowOf conf.keys k)
    return ⟨list, map, s.answers ++ [.removed removed], s.expected ++ [expected]⟩

/-- The values have the declared types. -/
def OpTyped (conf : ListConf) : ListOp → Prop
  | .addEntry _ e _ members =>
    Typed conf.keys e ∧ Typed conf.members (members.getD e)
  | .findEntry _ k => Typed conf.keys k
  | .removeEntry _ k => Typed conf.keys k

/-- The step does not meet a defect. No key is a Lua value; the comparison, which ignores the
lengths of strings, does not take another key for the one that is asked for; what is stored can be
stored, and the hashes tell a new key from the others. -/
def Fair (conf : ListConf) (s : ListUse) (op : ListOp) : Prop :=
  Hashable conf ∧
  match op with
  | .addEntry behind e update members =>
    Exact conf behind s.map (rowOf conf.keys e) ∧
    if s.map.Has (rowOf conf.keys e) then
      update = true → Fits s.list conf.members (members.getD e) ∧
        Room s.list conf.members.length
    else Capacity conf s.list e (members.getD e) ∧
      ∀ x ∈ s.map, YangList.Apart conf (rowOf conf.keys e) x.1
  | .findEntry behind k => Exact conf behind s.map (rowOf conf.keys k)
  | .removeEntry behind k => Exact conf behind s.map (rowOf conf.keys k)

instance (l : YangList) (f : FieldSpec) : Decidable (Indexed l f) :=
  decidable_of_iff (f.kind = .lvalue → ∀ idx ∈ (l.lvalues f.name).keys, idx + 1 < 2 ^ 32)
    (by simp only [Indexed, AList.mem_keys])

instance (l : YangList) (n : Nat) : Decidable (Room l n) := inferInstanceAs (Decidable (_ ≤ _))

instance (l : YangList) (fields : List FieldSpec) (e : Entry) : Decidable (Fits l fields e) :=
  inferInstanceAs (Decidable (_ ∧ _))

instance (conf : ListConf) (l : YangList) (e members : Entry) :
    Decidable (Capacity conf l e members) :=
  decidable_of_iff (conf.leafSize ≤ Heap.blockSize ∧ (∀ v ∈ rowOf conf.keys e, Storable v) ∧
      Fits l conf.members members ∧
      Room l (conf.keys.length + conf.members.length + conf.depth + 2))
    ⟨fun ⟨hleaf, hkeys, hmembers, hroom⟩ => ⟨hleaf, hkeys, hmembers, hroom⟩,
      fun h => ⟨h.leaf, h.keys, h.members, h.room⟩⟩

instance (conf : ListConf) : DecidablePred (OpTyped conf)
  | .addEntry .. => inferInstanceAs (Decidable (_ ∧ _))
  | .findEntry .. => inferInstanceAs (Decidable (Typed _ _))
  | .removeEntry .. => inferInstanceAs (Decidable (Typed _ _))

instance (conf : ListConf) (s : ListUse) : DecidablePred (Fair conf s)
  | .addEntry .. => inferInstanceAs (Decidable (_ ∧ _ ∧ ite _ _ _))
  | .findEntry .. => inferInstanceAs (Decidable (_ ∧ _))
  | .removeEntry .. => inferInstanceAs (Decidable (_ ∧ _))

/-- The list represents the map, and all answers were as expected. -/
def Good (conf : ListConf) (s : ListUse) : Prop :=
  (∃ os row T, Represents conf s.list os row T ∧ os.map row = s.map) ∧ s.answers = s.expected

variable {conf : ListConf} {s : ListUse} {op : ListOp}
  {os : List Nat} {row : Nat → Row × Row} {l : YangList} {behind : Nat → UInt8} {k : Row}

theorem has_map : RowMap.Has (os.map row) k ↔ ∃ o ∈ os, (row o).1 = k := by
  simp [RowMap.Has]

theorem find_map {T : ListSlots} {o : Nat} (h : Represents conf l os row T) (ho : o ∈ os)
    (hkey : (row o).1 = k) : (os.map row).find? (fun x => x.1 = k) = some (row o) := by
  rw [List.find?_map]
  have hfind : os.find? ((fun x : Row × Row => decide (x.1 = k)) ∘ row) = some o := by
    cases hfound : os.find? ((fun x : Row × Row => decide (x.1 = k)) ∘ row) with
    | none =>
      have hnot := List.find?_eq_none.mp hfound o ho
      simp [hkey] at hnot
    | some o' =>
      have hmem := mem_of_find?_eq_some hfound
      have hkey' := List.find?_some hfound
      simp only [Function.comp_apply, decide_eq_true_eq] at hkey'
      rw [h.key_inj hmem ho (hkey'.trans hkey.symm)]
  rw [hfind]
  rfl

theorem find_map_none
    (h : ∀ o ∈ os, (row o).1 ≠ k) : (os.map row).find? (fun x => x.1 = k) = none := by
  simpa using h

section

variable {k : Entry} (htyped : Typed conf.keys k) (hgood : Good conf s) (hhash : Hashable conf)
  (hexact : Exact conf behind s.map (rowOf conf.keys k))
include htyped hgood hhash hexact

/-- **`find_entry` finds the entry with the keys, or none.** -/
theorem find_good : ∃ s', step conf s (.findEntry behind k) = .ok s' ∧ Good conf s' := by
  obtain ⟨⟨os, row, T, hrep, hmap⟩, hanswers⟩ := hgood
  rw [← hmap] at hexact
  obtain ⟨r, d, s', m, found, hlocate, -, -, hfound⟩ := hrep.locate hhash htyped hexact
  obtain ⟨answer, hrun, hanswer⟩ : ∃ answer, s.list.findEntry conf behind k = .ok answer ∧
      s.map.find conf (rowOf conf.keys k) = .entry answer := by
    rcases hfound with ⟨o, ho, rfl, hkey, -⟩ | ⟨rfl, hnone⟩
    · refine ⟨some (RowMap.entry conf (row o)), ?_, ?_⟩
      · rw [findEntry, bind_of_eq_ok hlocate]
        exact bind_of_eq_ok (hrep.leafEntry ho)
      · rw [RowMap.find, ← hmap, find_map hrep ho hkey]
        rfl
    · refine ⟨none, ?_, ?_⟩
      · rw [findEntry, bind_of_eq_ok hlocate]
        rfl
      · rw [RowMap.find, ← hmap, find_map_none hnone]
        rfl
  refine ⟨_, bind_of_eq_ok hrun, ⟨os, row, T, hrep, hmap⟩, ?_⟩
  rw [hanswer, hanswers]

/-- **`remove_entry` removes the entry with the keys, if there is one.** -/
theorem remove_good : ∃ s', step conf s (.removeEntry behind k) = .ok s' ∧ Good conf s' := by
  obtain ⟨⟨os, row, T, hrep, hmap⟩, hanswers⟩ := hgood
  rw [← hmap] at hexact
  obtain ⟨r, d, s', m, found, hlocate, hlocated, hm, hfound⟩ := hrep.locate hhash htyped hexact
  rcases hfound with ⟨o, ho, rfl, hkey, hslot⟩ | ⟨rfl, hnone⟩
  · obtain ⟨as, bs, rfl⟩ := append_of_mem ho
    obtain ⟨l', T', hremove, hrep'⟩ := hrep.remove hhash htyped hkey hlocated hm hslot
    have hrun : s.list.removeEntry conf behind k = .ok (l', true) := by
      obtain ⟨l₁, hremove₁, hremove⟩ := bind_eq_ok hremove
      obtain ⟨l₂, hremove₂, hremove₃⟩ := bind_eq_ok hremove
      rw [removeEntry, bind_of_eq_ok hlocate]
      exact (bind_of_eq_ok hremove₁).trans
        ((bind_of_eq_ok hremove₂).trans (bind_of_eq_ok hremove₃))
    have hhas : RowMap.Has s.map (rowOf conf.keys k) := by
      rw [← hmap, has_map]
      exact ⟨o, ho, hkey⟩
    refine ⟨_, bind_of_eq_ok hrun, ⟨as ++ bs, row, T', hrep', ?_⟩, ?_⟩
    · show (as ++ bs).map row = s.map.filter fun x => x.1 ≠ rowOf conf.keys k
      have hothers : ∀ o' ∈ as ++ bs, (row o').1 ≠ rowOf conf.keys k := by
        intro o' ho' hkey'
        have hnodup := (nodup_cons.mp (nodup_middle.mp hrep.chain.links.nodup)).1
        have hmem : o' ∈ as ++ o :: bs :=
          ((sublist_cons_self o bs).append_left as).subset ho'
        rw [hrep.key_inj hmem ho (hkey'.trans hkey.symm)] at ho'
        exact hnodup ho'
      have has := filter_eq_self (p := fun x : Row × Row => x.1 ≠ rowOf conf.keys k)
        (l := as.map row) |>.mpr
      have hbs := filter_eq_self (p := fun x : Row × Row => x.1 ≠ rowOf conf.keys k)
        (l := bs.map row) |>.mpr
      rw [← hmap, map_append, map_append, map_cons, filter_append,
        filter_cons_of_neg (by simpa using hkey), has, hbs]
      · intro x hx
        obtain ⟨o', ho', rfl⟩ := mem_map.mp hx
        simpa using hothers o' (mem_append_right _ ho')
      · intro x hx
        obtain ⟨o', ho', rfl⟩ := mem_map.mp hx
        simpa using hothers o' (mem_append_left _ ho')
    · show s.answers ++ [.removed true] =
        s.expected ++ [.removed (decide (RowMap.Has s.map (rowOf conf.keys k)))]
      rw [decide_eq_true hhas, hanswers]
  · have hrun : s.list.removeEntry conf behind k = .ok (s.list, false) := by
      rw [removeEntry, bind_of_eq_ok hlocate]
      rfl
    have hhas : ¬ RowMap.Has s.map (rowOf conf.keys k) := by
      rw [← hmap, has_map]
      rintro ⟨o, ho, hkey⟩
      exact hnone o ho hkey
    refine ⟨_, bind_of_eq_ok hrun, ⟨os, row, T, hrep, ?_⟩, ?_⟩
    · show os.map row = s.map.filter fun x => x.1 ≠ rowOf conf.keys k
      rw [hmap, filter_eq_self.mpr]
      intro x hx
      rw [decide_eq_true_eq]
      exact fun hkey => hhas ⟨x, hx, hkey⟩
    · show s.answers ++ [.removed false] =
        s.expected ++ [.removed (decide (RowMap.Has s.map (rowOf conf.keys k)))]
      rw [decide_eq_false hhas, hanswers]

end

/-- **`add_entry` adds an entry, replaces its members, or raises because of a duplicate.** -/
theorem add_good {e : Entry} {update : Bool} {members : Option Entry}
    (htyped : OpTyped conf (.addEntry behind e update members)) (hgood : Good conf s)
    (hfair : Fair conf s (.addEntry behind e update members)) :
    ∃ s', step conf s (.addEntry behind e update members) = .ok s' ∧ Good conf s' := by
  obtain ⟨⟨os, row, T, hrep, hmap⟩, hanswers⟩ := hgood
  obtain ⟨hhash, hexact, hrest⟩ := hfair
  obtain ⟨htyped, htyped'⟩ := htyped
  rw [← hmap] at hexact
  obtain ⟨r, d, s', m, found, hlocate, hlocated, -, hfound⟩ := hrep.locate hhash htyped hexact
  have hstep : ∀ list answer, (s.list.addEntry conf behind e update members = .ok list ∧
        answer = .done ∨
      s.list.addEntry conf behind e update members = .error .duplicate ∧ list = s.list ∧
        answer = .duplicate) →
      step conf s (.addEntry behind e update members) = .ok ⟨list,
        (s.map.add (rowOf conf.keys e) (rowOf conf.members (members.getD e)) update).1,
        s.answers ++ [answer], s.expected ++
        [(s.map.add (rowOf conf.keys e) (rowOf conf.members (members.getD e)) update).2]⟩ := by
    rintro list answer (⟨hrun, rfl⟩ | ⟨hrun, rfl, rfl⟩) <;> simp only [step, hrun]
  rcases hfound with ⟨o, ho, rfl, hkey, -⟩ | ⟨rfl, hnone⟩
  · have hhas : RowMap.Has s.map (rowOf conf.keys e) := by
      rw [← hmap, has_map]
      exact ⟨o, ho, hkey⟩
    rw [if_pos hhas] at hrest
    cases update with
    | false =>
      have hrun : s.list.addEntry conf behind e false members = .error .duplicate := by
        rw [addEntry, bind_of_eq_ok hlocate]
        rfl
      refine ⟨_, hstep s.list .duplicate (.inr ⟨hrun, rfl, rfl⟩), ?_, ?_⟩
      · refine ⟨os, row, T, hrep, ?_⟩
        simp only [RowMap.add, if_pos hhas, hmap]
        rfl
      · simp only [RowMap.add, if_pos hhas, hanswers]
        rfl
    | true =>
      obtain ⟨hfits, hroom⟩ := hrest rfl
      obtain ⟨l', hupdate, hrep'⟩ := hrep.update ho htyped' hfits hroom
      have hrun : s.list.addEntry conf behind e true members = .ok l' := by
        rw [addEntry, bind_of_eq_ok hlocate]
        exact hupdate
      refine ⟨_, hstep l' .done (.inl ⟨hrun, rfl⟩), ?_, ?_⟩
      · refine ⟨os, _, T, hrep', ?_⟩
        simp only [RowMap.add, if_pos hhas]
        rw [← hmap, map_map]
        refine map_congr_left fun o' ho' => ?_
        simp only [Function.comp_apply, Function.update_apply]
        by_cases heq : o' = o
        · rw [if_pos heq, heq, if_pos hkey, hkey]
        · rw [if_neg heq, if_neg fun hkey' => heq (hrep.key_inj ho' ho (hkey'.trans hkey.symm))]
      · simp only [RowMap.add, if_pos hhas, if_true, hanswers]
  · have hhas : ¬ RowMap.Has s.map (rowOf conf.keys e) := by
      rw [← hmap, has_map]
      rintro ⟨o, ho, hkey⟩
      exact hnone o ho hkey
    rw [if_neg hhas] at hrest
    obtain ⟨hcapacity, hapart⟩ := hrest
    obtain ⟨l', o, row', T', hadd, hrep', hrows⟩ := hrep.add hhash htyped htyped' hcapacity
      (fun o ho => hapart _ (hmap ▸ mem_map_of_mem ho)) hlocated
    have hrun : s.list.addEntry conf behind e update members = .ok l' := by
      rw [addEntry, bind_of_eq_ok hlocate]
      exact hadd
    refine ⟨_, hstep l' .done (.inl ⟨hrun, rfl⟩), ?_, ?_⟩
    · refine ⟨os ++ [o], row', T', hrep', ?_⟩
      simp only [RowMap.add, if_neg hhas, hrows, hmap]
    · simp only [RowMap.add, if_neg hhas, hanswers]

/-- **A step that meets no defect returns, with the answer that is expected.** -/
theorem step_good (htyped : OpTyped conf op) (hgood : Good conf s) (hfair : Fair conf s op) :
    ∃ s', step conf s op = .ok s' ∧ Good conf s' := by
  cases op with
  | addEntry behind e update members => exact add_good htyped hgood hfair
  | findEntry behind k => exact find_good htyped hgood hfair.1 hfair.2
  | removeEntry behind k => exact remove_good htyped hgood hfair.1 hfair.2

/-- The trie of an empty list. -/
def emptyTrie : ListSlots := fun p => if p = [] then some (.node 0) else none

theorem emptyTrie_node {p : List (Fin 16)} {r : Nat} (h : emptyTrie p = some (.node r)) :
    p = [] ∧ r = 0 := by
  rw [emptyTrie] at h
  split_ifs at h with heq
  cases h
  exact ⟨heq, rfl⟩

theorem grown_empty (hroot : l.root = 0)
    (hnode : l.objs.lookup 0 = some (.node ListNode.zero)) : Grown l emptyTrie where
  root := by rw [hroot]; rfl
  shape := {
    closed := fun p i hne => absurd (if_neg (by simp)) hne
    inj := fun p q r hp hq => by rw [(emptyTrie_node hp).1, (emptyTrie_node hq).1] }
  nodes p r hp := by
    obtain ⟨rfl, rfl⟩ := emptyTrie_node hp
    exact ⟨_, hnode, by decide, fun i => Nat.zero_testBit i⟩
  parent p i r r' n _ hchild _ := by
    have hnil := (emptyTrie_node hchild).1
    simp at hnil

theorem new_spec (conf : ListConf) : ∃ l, YangList.new = .ok l ∧ Good conf (.fresh l) := by
  obtain ⟨l₀, hl₀⟩ : ∃ l₀ : YangList, l₀ = ⟨.new, ∅, 0, 0, 0, 0, fun _ => ∅⟩ := ⟨_, rfl⟩
  have hledger : Ledger conf.leafSize l₀ := by
    rw [hl₀]
    exact Heap.holds_new
  have hroom : Room l₀ (0 + 1) := by
    rw [hl₀]
    exact (by decide)
  obtain ⟨heap, o, halloc, hnone, hledger', -⟩ :=
    alloc_spec (x := .node ListNode.zero) hledger rfl (by decide : 0 < ListNode.size)
      (by decide : ListNode.size ≤ Heap.blockSize) hroom
  have hzero : o = 0 := by
    have hoffset : (l₀.alloc ListNode.size (.node ListNode.zero)).map Prod.snd = .ok 0 := by
      rw [hl₀]
      rfl
    have hsame : sizeOf conf.leafSize (.node ListNode.zero) = ListNode.size := rfl
    rw [← hsame, halloc] at hoffset
    exact Except.ok.inj hoffset
  subst hzero
  refine ⟨{ l₀ with heap := heap, objs := l₀.objs.insert 0 (.node ListNode.zero), root := 0 },
    ?_, ⟨[], fun _ => ([], []), emptyTrie, ?_, rfl⟩, rfl⟩
  · rw [YangList.new, ← hl₀]
    exact bind_of_eq_ok halloc
  · exact {
      ledger := hledger'
      root := rfl
      grown := grown_empty rfl (AList.lookup_insert _)
      placed := {
        placed := fun _ ho => nomatch ho
        only := fun p o hp => by
          rw [emptyTrie] at hp
          split_ifs at hp
          cases hp }
      compact := fun p r hne hp => absurd (emptyTrie_node hp).1 hne
      chain := by
        rw [hl₀]
        exact ⟨rfl, rfl, rfl, (fun _ ho => nomatch ho), .nil⟩
      held := fun _ ho => nomatch ho
      exclusive := .nil
      typed := fun _ ho => nomatch ho
      apart := fun _ ho => nomatch ho }

end ListUse

open ListUse in
/-- **A list is a map in the order of insertion**, in every run whose calls meet no defect: each
call returns, with the answer that the map gives, and `ipairs` visits the entries of the map. -/
theorem list_is_a_map (conf : ListConf) (ops : List ListOp) (htyped : ∀ op ∈ ops, OpTyped conf op) :
    ∃ s₀, start = .ok s₀ ∧ (Along (step conf) (Fair conf) s₀ ops →
      (∃ s, run (step conf) s₀ ops = .ok s) ∧
      ∀ k s, run (step conf) s₀ (ops.take k) = .ok s → s.answers = s.expected ∧
        s.list.length = s.map.length ∧ s.list.ipairs conf = .ok (s.map.pairs conf)) := by
  obtain ⟨l, hnew, hgood⟩ := new_spec conf
  refine ⟨.fresh l, bind_of_eq_ok hnew, fun halong => ?_⟩
  have hstep : ∀ s op, Good conf s → Fair conf s op ∧ OpTyped conf op →
      ∃ s', step conf s op = .ok s' ∧ Good conf s' := fun _ _ hgood hfair =>
    step_good hfair.2 hgood hfair.1
  obtain ⟨hreturns, hgoods⟩ := run_total_all hstep hgood (halong.and (along_of_forall htyped))
  refine ⟨hreturns, fun k s hrun => ?_⟩
  obtain ⟨⟨os, row, T, hrep, hmap⟩, hanswers⟩ := hgoods k s hrun
  refine ⟨hanswers, ?_, ?_⟩
  · rw [hrep.chain.length, ← hmap, length_map]
  · rw [hrep.ipairs, hmap]

theorem exists_bound (ks : List Nat) : ∃ b, ∀ k ∈ ks, k ≤ b := by
  induction ks with
  | nil => exact ⟨0, fun _ hk => nomatch hk⟩
  | cons k ks ih =>
    obtain ⟨b, hb⟩ := ih
    refine ⟨max k b, forall_mem_cons.mpr ⟨le_max_left _ _, fun k' hk' => ?_⟩⟩
    exact (hb k' hk').trans (le_max_right _ _)

theorem exists_border (t : Table Nat LuaValue) : ∃ n, t.lookup (n + 1) = none := by
  obtain ⟨b, hb⟩ := exists_bound t.keys
  refine ⟨b, AList.lookup_eq_none.mpr fun hmem => ?_⟩
  exact absurd (hb _ (AList.mem_keys.mp hmem)) (by omega)

/-- The least border. -/
def LuaLength.least : LuaLength where
  border t := Nat.find (exists_border t)
  absent t := Nat.find_spec (exists_border t)
  present t := by
    cases hfind : Nat.find (exists_border t) with
    | zero => exact .inl rfl
    | succ n =>
      have hmin : ¬ t.lookup (n + 1) = none :=
        Nat.find_min (exists_border t) (by omega)
      exact .inr (AList.lookup_isSome.mp (Option.isSome_iff_ne_none.mpr hmin))

/-- One key and one member, both strings, and a hash that is the sum of all bytes. -/
def sampleList : ListConf where
  keys := [⟨"name", .string, false⟩]
  members := [⟨"value", .string, true⟩]
  leafSize := 20
  leafSize_pos := by decide
  keys_nodup := by decide
  members_nodup := by decide
  keys_mandatory := by decide
  hash32 data _ := BitVec.ofNat 32 (data.map UInt8.toNat).sum
  lua := .least
  depth := 8

/-- An entry with a name and a value. -/
def sampleEntry (name value : List UInt8) : Entry := fun field =>
  if field = "name" then some (.string name) else if field = "value" then some (.string value)
  else none

/-- Two entries are added and one of them is found, replaced and removed. -/
def sampleOps : List ListOp :=
  [.addEntry (fun _ => 0) (sampleEntry [97] [1]) false none,
    .addEntry (fun _ => 0) (sampleEntry [98] [2]) false none,
    .addEntry (fun _ => 0) (sampleEntry [97] [3]) true none,
    .addEntry (fun _ => 0) (sampleEntry [98] [4]) false none,
    .findEntry (fun _ => 0) (sampleEntry [97] []),
    .removeEntry (fun _ => 0) (sampleEntry [98] [])]

open ListUse in
theorem sample_list_is_a_map :
    ∃ s₀, start = .ok s₀ ∧ Along (step sampleList) (Fair sampleList) s₀ sampleOps ∧
      (∃ s, run (step sampleList) s₀ sampleOps = .ok s) ∧
      ∀ k s, run (step sampleList) s₀ (sampleOps.take k) = .ok s → s.answers = s.expected ∧
        s.list.length = s.map.length ∧
        s.list.ipairs sampleList = .ok (s.map.pairs sampleList) := by
  obtain ⟨s₀, hstart, h⟩ := list_is_a_map sampleList sampleOps (by decide)
  obtain ⟨s₁, hs₁, halong⟩ := ok_of_any (r := start)
    (q := fun s => decide (Along (step sampleList) (Fair sampleList) s sampleOps))
    (by decide +kernel)
  obtain rfl : s₁ = s₀ := ok_unique hs₁ hstart
  exact ⟨s₁, hstart, of_decide_eq_true halong, h (of_decide_eq_true halong)⟩

/-- An entry is added, and one with a longer name is looked for. -/
def longerKeyOps : List ListOp :=
  [.addEntry (fun _ => 0) (sampleEntry [97] [1]) false none,
    .findEntry (fun _ => 0) (sampleEntry [97, 16] [])]

open ListUse in
/-- **A key is taken for one that it begins with**: the lengths of strings are not compared. -/
theorem longer_key_is_found :
    (∀ op ∈ longerKeyOps, OpTyped sampleList op) ∧
    ∃ s₀ s, start = .ok s₀ ∧ run (step sampleList) s₀ longerKeyOps = .ok s ∧
      s.answers = [.done, .entry (some [("name", .string [97]), ("value", .string [1])])] ∧
      s.expected = [.done, .entry none] := by
  refine ⟨by decide, ?_⟩
  obtain ⟨s, hrun, hs⟩ := ok_of_any
    (r := do
      let s₀ ← start
      run (step sampleList) s₀ longerKeyOps)
    (q := fun s => decide (s.answers = [.done, .entry (some [("name", .string [97]),
      ("value", .string [1])])] ∧ s.expected = [.done, .entry none]))
    (by decide +kernel)
  obtain ⟨s₀, hstart, hrun⟩ := bind_eq_ok hrun
  exact ⟨s₀, s, hstart, hrun, of_decide_eq_true hs⟩

end Snabb
