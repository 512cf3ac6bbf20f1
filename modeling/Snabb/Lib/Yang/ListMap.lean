import Snabb.Lib.Yang.ListLinks
import Snabb.Lib.Yang.ListTrie

/-!
# Lists as maps (`lib/yang/list.lua`)

A list stands for a sequence of rows, the keys and the members of its entries. `Represents` puts
together what the trie, the linked list and the heap say of the same leaves.

- `Represents.locate`: a key leads to the leaf with that key, if the comparison does not take
  another one for it;
- `Represents.add`, `Represents.update`, `Represents.remove`: what becomes of the rows;
- `Represents.ipairs`: the entries that are visited.
-/

namespace Snabb

open Foundation List Table

/-! ## The map of a list -/

/-- The entries of a list: their keys and their members. -/
abbrev RowMap := List (YangList.Row × YangList.Row)

/-- What a call returns, or that it raises because of a duplicate. -/
inductive ListAnswer where
  | done
  | duplicate
  | entry (e : Option (List (String × YangValue)))
  | removed (b : Bool)
deriving DecidableEq, Repr

namespace RowMap

open YangList

/-- There is an entry with these keys. -/
def Has (map : RowMap) (k : Row) : Prop := ∃ x ∈ map, x.1 = k

instance (map : RowMap) (k : Row) : Decidable (Has map k) :=
  inferInstanceAs (Decidable (∃ _ ∈ _, _))

/-- Add an entry, or replace its members in place. -/
def add (map : RowMap) (k members : Row) (update : Bool) : RowMap × ListAnswer :=
  if Has map k then
    if update then (map.map fun x => if x.1 = k then (k, members) else x, .done)
    else (map, .duplicate)
  else (map ++ [(k, members)], .done)

/-- The table of an entry. -/
def entry (conf : ListConf) (x : Row × Row) : List (String × YangValue) :=
  assignments conf.keys x.1 ++ assignments conf.members x.2

/-- Find an entry. -/
def find (conf : ListConf) (map : RowMap) (k : Row) : ListAnswer :=
  .entry ((map.find? fun x => x.1 = k).map (entry conf))

/-- Remove an entry. -/
def remove (map : RowMap) (k : Row) : RowMap × ListAnswer :=
  (map.filter fun x => x.1 ≠ k, .removed (Has map k))

/-- The entries, numbered from 1 on. -/
def pairs (conf : ListConf) (map : RowMap) : List (Nat × List (String × YangValue)) :=
  ((map.map (entry conf)).zipIdx 1).map fun (e, i) => (i, e)

end RowMap

namespace YangList

open ListNode DigitTrie

variable {conf : ListConf} {l l' : YangList} {o n m : Nat} {e k : Entry} {os as bs : List Nat}
  {row row' : Nat → Row × Row} {T : ListSlots} {behind : Nat → UInt8} {rs : List Resource}

/-! ## What a list represents -/

/-- The leaf holds an entry. -/
def Held (conf : ListConf) (l : YangList) (o : Nat) (row : Row × Row) : Prop :=
  ∃ x, l.objs.lookup o = some (.leaf x) ∧ Stored l conf.keys x.keys row.1 ∧
    Stored l conf.members x.members row.2

/-- What a leaf refers to. -/
def leafResources (conf : ListConf) (l : YangList) (o : Nat) : List Resource :=
  match l.objs.lookup o with
  | some (.leaf x) => resources conf.keys x.keys ++ resources conf.members x.members
  | _ => []

/-- The keys of the leaves. -/
def keyOf (row : Nat → Row × Row) (o : Nat) : Row := (row o).1

/-- The keys differ at a digit that the trie can reach. -/
def Apart (conf : ListConf) (k k' : Row) : Prop :=
  ∃ n < conf.depth, digit (keyHash conf k) n ≠ digit (keyHash conf k') n

instance (conf : ListConf) (k k' : Row) : Decidable (Apart conf k k') :=
  inferInstanceAs (Decidable (∃ _ < _, _))

/-- The leaves `os` hold the rows `row`, in the trie `T` and in this order. -/
structure Represents (conf : ListConf) (l : YangList) (os : List Nat) (row : Nat → Row × Row)
    (T : ListSlots) : Prop where
  ledger : Ledger conf.leafSize l
  root : l.root = 0
  grown : Grown l T
  placed : Placed T (digitsOf conf (keyOf row)) {o | o ∈ os}
  compact : Compact T (digitsOf conf (keyOf row)) {o | o ∈ os}
  chain : Chain l os
  held : ∀ o ∈ os, Held conf l o (row o)
  exclusive : (os.flatMap (leafResources conf l)).Nodup
  typed : ∀ o ∈ os, RowTyped conf.keys (row o).1
  apart : ∀ o ∈ os, ∀ o' ∈ os, o ≠ o' → Apart conf (row o).1 (row o').1

variable {x y : ListLeaf} {o' r d s : Nat} {p : Row × Row} {members : Entry}

theorem leafResources_of_lookup (hx : l.objs.lookup o = some (.leaf x)) :
    leafResources conf l o = resources conf.keys x.keys ++ resources conf.members x.members := by
  rw [leafResources, hx]

section

variable (h : Represents conf l os row T)
include h

theorem Represents.root_node : ∃ n, l.objs.lookup 0 = some (.node n) := by
  obtain ⟨n, hn, -⟩ := h.grown.nodes [] l.root h.grown.root
  exact ⟨n, h.root ▸ hn⟩

theorem Represents.key_inj (ho : o ∈ os) (ho' : o' ∈ os)
    (hkey : (row o).1 = (row o').1) : o = o' := by
  by_contra hne
  obtain ⟨n, -, hdiffer⟩ := h.apart o ho o' ho' hne
  exact hdiffer (by rw [hkey])

theorem Represents.depth {hash : Nat → BitVec 32}
    (hnode : T (path (digit hash) n) = some (.node r)) : n ≤ conf.depth := by
  rcases Nat.eq_zero_or_pos n with rfl | hpos
  · exact Nat.zero_le _
  · have hne : path (digit hash) n ≠ [] := by
      rw [← length_pos_iff, path_length]
      exact hpos
    have hlt := (h.compact _ r hne hnode).length_lt h.apart
    rw [path_length] at hlt
    exact hlt.le

/-! ## Finding a key -/

/-- The digits of the keys are the same up to the `n`-th. -/
def Agree (conf : ListConf) (k k' : Row) (n : Nat) : Prop :=
  ∀ i < n, digit (keyHash conf k) i = digit (keyHash conf k') i

instance (conf : ListConf) (k k' : Row) (n : Nat) : Decidable (Agree conf k k' n) :=
  inferInstanceAs (Decidable (∀ _ < _, _))

/-- The digits of a key lead to the entry with the key `x`. -/
def Reaches (conf : ListConf) (map : RowMap) (k x : Row) : Prop :=
  ∃ n < conf.depth + 1, Agree conf k x (n + 1) ∧
    ∀ y ∈ map, y.1 ≠ x → ¬ Agree conf y.1 x (n + 1)

instance (conf : ListConf) (map : RowMap) (k x : Row) : Decidable (Reaches conf map k x) :=
  inferInstanceAs (Decidable (∃ _ < _, _))

/-- The comparison does not take another key, that the digits of a key lead to, for it. -/
def Exact (conf : ListConf) (behind : Nat → UInt8) (map : RowMap) (k : Row) : Prop :=
  ∀ x ∈ map, Reaches conf map k x.1 → keysMatch behind x.1 k = true → x.1 = k

instance (conf : ListConf) (behind : Nat → UInt8) (map : RowMap) (k : Row) :
    Decidable (Exact conf behind map k) :=
  inferInstanceAs (Decidable (∀ _ ∈ _, _))

/-- Where a walk along the hashes of a key ends. -/
structure Located (hash : Nat → BitVec 32) (T : ListSlots) (r d s m : Nat) : Prop where
  level : AtLevel hash m d s (some (hash s))
  node : T (path (digit hash) m) = some (.node r)
  last : ∀ r', T (path (digit hash) (m + 1)) ≠ some (.node r')

/-- **A key leads to the leaf with that key**, if there is one. -/
theorem Represents.locate (hhash : Hashable conf) (htyped : Typed conf.keys k)
    (hexact : Exact conf behind (os.map row) (rowOf conf.keys k)) :
    ∃ r d s m found, l.locate conf behind k =
        .ok ((r, d, s, keyHash conf (rowOf conf.keys k) s), found) ∧
      Located (keyHash conf (rowOf conf.keys k)) T r d s m ∧ m ≤ conf.depth ∧
      ((∃ o ∈ os, found = some o ∧ (row o).1 = rowOf conf.keys k ∧
          T (path (digit (keyHash conf (rowOf conf.keys k))) (m + 1)) = some (.leaf o)) ∨
        found = none ∧ ∀ o ∈ os, (row o).1 ≠ rowOf conf.keys k) := by
  have hhashes : ∀ seed, entryHash conf k seed = .ok (keyHash conf (rowOf conf.keys k) seed) :=
    fun _ => entryHash_spec hhash htyped
  obtain ⟨hash, hhash'⟩ : ∃ hash, hash = keyHash conf (rowOf conf.keys k) := ⟨_, rfl⟩
  rw [← hhash'] at hhashes ⊢
  have hdepth : ∀ m r, T (path (digit hash) m) = some (.node r) → m < 0 + (conf.depth + 1) := by
    intro m r hm
    have := h.depth hm
    omega
  obtain ⟨m, r, d, s, hfind, hlevel, hnode, hlast⟩ :=
    findNode_spec h.grown hhashes atLevel_zero h.grown.root hdepth
  have hm := h.depth hnode
  -- the slot of a leaf with the key is the one that the walk ends at
  have hslot : ∀ o ∈ os, (row o).1 = rowOf conf.keys k →
      T (path (digit hash) (m + 1)) = some (.leaf o) := by
    intro o ho hkey
    have hdigits : digitsOf conf (keyOf row) o = digit hash := by
      rw [digitsOf, keyOf, hkey, hhash']
    rw [← hdigits] at hnode hlast ⊢
    exact leaf_at h.grown.shape h.placed ho hnode hlast
  obtain ⟨node, hread, -, -, hchild⟩ := h.grown.child hnode
  have hbits := hchild (digit hash m)
  rw [← path_succ] at hbits
  refine ⟨r, d, s, m, ?_⟩
  have hlocated : Located hash T r d s m := ⟨hlevel, hnode, hlast⟩
  have hrun : ∀ found, l.findLeaf conf behind k r d (hash s) = .ok found →
      l.locate conf behind k = .ok ((r, d, s, hash s), found) := by
    intro found hfound
    rw [YangList.locate, bind_of_eq_ok hfind]
    exact bind_of_eq_ok hfound
  have hindex : nodeIndex d (hash s) = (digit hash m : Nat) := hlevel.index
  cases hend : T (path (digit hash) (m + 1)) with
  | none =>
    rw [hend] at hbits
    have hfree : node.occupied.testBit (digit hash m) = false := hbits
    refine ⟨none, hrun none ?_, hlocated, hm, .inr ⟨rfl, fun o ho hkey => ?_⟩⟩
    · rw [findLeaf, bind_of_eq_ok hread, hindex]
      simp only [nodeOccupied_iff, hfree]
      rfl
    · cases hend.symm.trans (hslot o ho hkey)
  | some y =>
    cases y with
    | node r' => exact absurd hend (hlast r')
    | leaf o =>
      rw [hend] at hbits
      obtain ⟨hoccupied, hleaf, hchildren⟩ := hbits
      obtain ⟨ho, hpath⟩ := h.placed.only _ o hend
      obtain ⟨x, hx, hkeys, -⟩ := h.held o ho
      have hequal := entryKeysEqual_spec behind hhash hx hkeys h.root_node (h.typed o ho) htyped
      have hfound : l.findLeaf conf behind k r d (hash s) =
          .ok (if keysMatch behind (row o).1 (rowOf conf.keys k) then some o else none) := by
        rw [findLeaf, bind_of_eq_ok hread, hindex]
        simp only [nodeOccupied_iff, nodeLeaf_iff, hoccupied, hleaf, hchildren]
        exact bind_of_eq_ok hequal
      cases hmatch : keysMatch behind (row o).1 (rowOf conf.keys k) with
      | true =>
        rw [hmatch] at hfound
        have hagree : path (digitsOf conf (keyOf row) o) (m + 1) = path (digit hash) (m + 1) := by
          rw [path_length] at hpath
          exact hpath.symm
        refine ⟨some o, hrun _ hfound, hlocated, hm, .inl ⟨o, ho, rfl, ?_, rfl⟩⟩
        refine hexact (row o) (mem_map_of_mem ho) ⟨m, Nat.lt_succ_of_le hm, ?_, ?_⟩ hmatch
        · rw [Agree, ← hhash']
          exact path_eq_iff.mp hagree.symm
        · intro y hy hne hagrees
          obtain ⟨o', ho', rfl⟩ := mem_map.mp hy
          have hoo' : o' ≠ o := fun heq => hne (by rw [heq])
          obtain ⟨i, hi, hdiffer⟩ :=
            leaf_alone h.grown.shape h.placed ho' hoo' (hagree ▸ hend)
          exact hdiffer (hagrees i hi)
      | false =>
        rw [hmatch] at hfound
        refine ⟨none, hrun _ hfound, hlocated, hm, .inr ⟨rfl, fun o' ho' hkey => ?_⟩⟩
        cases hend.symm.trans (hslot o' ho' hkey)
        rw [hkey, keysMatch_self] at hmatch
        cases hmatch

/-! ## Reading -/

theorem Represents.leafEntry (ho : o ∈ os) :
    l.leafEntry conf o = .ok (RowMap.entry conf (row o)) := by
  obtain ⟨x, hx, hkeys, hmembers⟩ := h.held o ho
  rw [YangList.leafEntry, bind_of_eq_ok (leaf_of_lookup hx),
    bind_of_eq_ok (unpackFields_spec hkeys), bind_of_eq_ok (unpackFields_spec hmembers)]
  rfl

/-- **`ipairs` visits the entries in order.** -/
theorem Represents.ipairs : l.ipairs conf = .ok (RowMap.pairs conf (os.map row)) := by
  have hlinks : Linked 0 l.prevOf l.nextOf ([] ++ os) := h.chain.links
  have hcalls : os.length < l.length + 1 := by
    rw [h.chain.length]
    exact Nat.lt_succ_self _
  have hrun := iterate_spec (n := 1) hlinks h.chain.leaves (fun _ ho => h.leafEntry ho) hcalls
  rw [YangList.ipairs, h.chain.first, hrun, RowMap.pairs, map_map]
  rfl

end

/-! ## What a call preserves -/

/-- A call has changed at most the links of a leaf. -/
structure Preserves (conf : ListConf) (l l' : YangList) (o : Nat) : Prop where
  leaf : ∀ x, l.objs.lookup o = some (.leaf x) →
    ∃ prev next, l'.objs.lookup o = some (.leaf { x with prev := prev, next := next })
  resources : ∀ r ∈ leafResources conf l o, l'.get r = l.get r

theorem Held.get_ne_none (h : Held conf l o p) {r : Resource}
    (hr : r ∈ leafResources conf l o) : l.get r ≠ none := by
  obtain ⟨x, hx, hkeys, hmembers⟩ := h
  rw [leafResources_of_lookup hx] at hr
  rcases mem_append.mp hr with hr | hr
  · exact hkeys.get_ne_none hr
  · exact hmembers.get_ne_none hr

theorem Preserves.resources_eq (h : Preserves conf l l' o)
    (hheld : Held conf l o p) : leafResources conf l' o = leafResources conf l o := by
  obtain ⟨x, hx, -⟩ := hheld
  obtain ⟨prev, next, hx'⟩ := h.leaf x hx
  rw [leafResources_of_lookup hx, leafResources_of_lookup hx']

theorem Preserves.held (h : Preserves conf l l' o) (hheld : Held conf l o p) :
    Held conf l' o p := by
  obtain ⟨x, hx, hkeys, hmembers⟩ := hheld
  obtain ⟨prev, next, hx'⟩ := h.leaf x hx
  have hresources := h.resources
  rw [leafResources_of_lookup hx] at hresources
  exact ⟨_, hx', hkeys.congr fun r hr => hresources r (mem_append_left _ hr),
    hmembers.congr fun r hr => hresources r (mem_append_right _ hr)⟩

theorem Preserves.trans {l'' : YangList} (hheld : Held conf l o p) (h : Preserves conf l l' o)
    (h' : Preserves conf l' l'' o) : Preserves conf l l'' o where
  leaf x hx := by
    obtain ⟨prev, next, hx'⟩ := h.leaf x hx
    obtain ⟨prev', next', hx''⟩ := h'.leaf _ hx'
    exact ⟨prev', next', hx''⟩
  resources r hr := by
    rw [h'.resources r (by rwa [h.resources_eq hheld]), h.resources r hr]

theorem OnlyNodes.preserves (h : OnlyNodes l l') (hheld : Held conf l o p) :
    Preserves conf l l' o where
  leaf x hx := ⟨x.prev, x.next, h.others o _ (fun _ hn => nomatch hn) hx⟩
  resources _ hr := h.get_eq (hheld.get_ne_none hr)

theorem Relinks.preserves (h : Relinks l l') (hheld : Held conf l o p) :
    Preserves conf l l' o where
  leaf := h.leaves o
  resources _ hr := h.get_eq (hheld.get_ne_none hr)

theorem Packs.preserves (h : Packs l l' rs) (hheld : Held conf l o p) :
    Preserves conf l l' o where
  leaf x hx := ⟨x.prev, x.next, h.objs o _ hx⟩
  resources _ hr := h.get_eq (hheld.get_ne_none hr)

/-- Only strings are freed. -/
theorem Frees.lookup (h : Frees l l' rs) (hlive : ∀ r ∈ rs, l.get r ≠ none) {x : ListObject}
    (hx : l.objs.lookup o = some x) (hstr : ∀ s, x ≠ .str s) : l'.objs.lookup o = some x := by
  rw [h.objs o, hx]
  intro hmem
  obtain ⟨v, hv⟩ := Option.ne_none_iff_exists'.mp (hlive _ hmem)
  obtain ⟨s, hs, -⟩ := get_str.mp hv
  cases hx.symm.trans hs
  exact hstr s rfl

/-- Leaves that are preserved are linked as before, if their links are. -/
theorem Chain.congr (h : Chain l os) (hends : l'.first = l.first ∧ l'.last = l.last ∧
      l'.length = l.length)
    (hleaves : ∀ o ∈ os, ∀ x, l.objs.lookup o = some (.leaf x) →
      ∃ x', l'.objs.lookup o = some (.leaf x') ∧ x'.prev = x.prev ∧ x'.next = x.next) :
    Chain l' os where
  first := hends.1.trans h.first
  last := hends.2.1.trans h.last
  length := hends.2.2.trans h.length
  leaves o ho := by
    obtain ⟨x, hx⟩ := h.leaves o ho
    obtain ⟨x', hx', -⟩ := hleaves o ho x hx
    exact ⟨x', hx'⟩
  links := by
    refine h.links.congr (fun o ho => ?_) fun o ho => ?_
    · obtain ⟨x, hx⟩ := h.leaves o ho
      obtain ⟨x', hx', hprev, -⟩ := hleaves o ho x hx
      rw [prevOf_of_lookup hx, prevOf_of_lookup hx', hprev]
    · obtain ⟨x, hx⟩ := h.leaves o ho
      obtain ⟨x', hx', -, hnext⟩ := hleaves o ho x hx
      rw [nextOf_of_lookup hx, nextOf_of_lookup hx', hnext]

/-! ## Removing an entry -/

/-- **A leaf is destroyed**, and nothing else. -/
theorem destroyLeaf_spec (hledger : Ledger conf.leafSize l) (hheld : Held conf l o p)
    (hnodup : (leafResources conf l o).Nodup) :
    ∃ l', l.destroyLeaf conf o = .ok l' ∧ Ledger conf.leafSize l' ∧
      l' = { l with heap := l'.heap, objs := l'.objs, lvalues := l'.lvalues } ∧
      (∀ o' y, o' ≠ o → (∀ s, y ≠ .str s) → l.objs.lookup o' = some y →
        l'.objs.lookup o' = some y) ∧
      ∀ r ∉ leafResources conf l o, l'.get r = l.get r := by
  obtain ⟨x, hx, hkeys, hmembers⟩ := hheld
  have hresources : leafResources conf l o = _ := leafResources_of_lookup hx
  rw [hresources] at hnodup ⊢
  obtain ⟨hnodupk, hnodupm, hdisjoint⟩ := nodup_append'.mp hnodup
  obtain ⟨l₁, hfree₁, hfrees₁, hledger₁⟩ := freeFields_spec hledger hkeys hnodupk
  have hmembers₁ := hmembers.congr fun r hr => hfrees₁.get_eq fun hr' => hdisjoint hr' hr
  obtain ⟨l₂, hfree₂, hfrees₂, hledger₂⟩ := freeFields_spec hledger₁ hmembers₁ hnodupm
  have hfrees := hfrees₁.trans hfrees₂
  have hlive : ∀ r ∈ resources conf.keys x.keys ++ resources conf.members x.members,
      l.get r ≠ none := by
    intro r hr
    exact Held.get_ne_none ⟨x, hx, hkeys, hmembers⟩ (hresources ▸ hr)
  have hx₂ := hfrees.lookup hlive hx fun _ hs => nomatch hs
  obtain ⟨heap, hrelease, hledger', -⟩ :=
    release_spec hledger₂ hx₂ (show sizeOf conf.leafSize (.leaf x) = conf.leafSize from rfl)
  refine ⟨_, ?_, hledger', ?_, fun o' y hne hstr hy => ?_, fun r hr => ?_⟩
  · rw [destroyLeaf, bind_of_eq_ok (leaf_of_lookup hx), bind_of_eq_ok hfree₁,
      bind_of_eq_ok hfree₂]
    exact hrelease
  · rw [hfrees.same]
  · show (l₂.objs.erase o).lookup o' = some y
    rw [lookup_erase_ite, if_neg hne]
    exact hfrees.lookup hlive hy hstr
  · rw [← hfrees.get_eq hr]
    cases r with
    | lvalue name idx => rfl
    | str o' =>
      by_cases heq : o' = o
      · subst heq
        have hnone : (l₂.objs.erase o').lookup o' = none := AList.lookup_erase _ _
        rw [get, get, hx₂]
        simp only [hnone]
      · have hsame : (l₂.objs.erase o).lookup o' = l₂.objs.lookup o' := by
          rw [lookup_erase_ite, if_neg heq]
        rw [get, get]
        simp only [hsame]

/-- **An entry is removed.** -/
theorem Represents.remove (h : Represents conf l (as ++ o :: bs) row T) (hhash : Hashable conf)
    (htyped : Typed conf.keys k) (hkey : (row o).1 = rowOf conf.keys k)
    (hlocated : Located (keyHash conf (rowOf conf.keys k)) T r d s m) (hm : m ≤ conf.depth)
    (hslot : T (path (digit (keyHash conf (rowOf conf.keys k))) (m + 1)) = some (.leaf o)) :
    ∃ l' T', (do
        let l ← l.removeChild conf k r d s (keyHash conf (rowOf conf.keys k) s)
        let l ← l.unlinkLeaf o
        l.destroyLeaf conf o) = .ok l' ∧ Represents conf l' (as ++ bs) row T' := by
  have ho : o ∈ as ++ o :: bs := by simp
  have hsub : (as ++ bs).Sublist (as ++ o :: bs) := (sublist_cons_self o bs).append_left as
  have hnot : o ∉ as ++ bs := by
    have hnodup := nodup_middle.mp h.chain.links.nodup
    exact (nodup_cons.mp hnodup).1
  have hset : {o' | o' ∈ as ++ o :: bs} \ {o} = {o' | o' ∈ as ++ bs} := by
    ext o'
    simp only [Set.mem_sdiff, Set.mem_ofPred_eq, mem_append, mem_cons] at hnot ⊢
    constructor
    · rintro ⟨hmem, hne⟩
      tauto
    · intro hmem
      refine ⟨by tauto, ?_⟩
      rintro rfl
      exact hnot hmem
  have hkey' : keyOf row o = rowOf conf.keys k := hkey
  rw [← hkey'] at hlocated hslot ⊢
  have hhashes : ∀ seed, entryHash conf k seed = .ok (keyHash conf (keyOf row o) seed) := by
    intro seed
    rw [hkey']
    exact entryHash_spec hhash htyped
  obtain ⟨l₁, T', hrun₁, hgrown₁, hplaced, hcompact, honly, hledger₁, -⟩ :=
    removeChild_spec hhashes h.grown h.placed h.compact ho hlocated.level hlocated.node hslot hm
      h.ledger
  rw [hset] at hplaced hcompact
  have hheld₁ : ∀ o' ∈ as ++ o :: bs, Held conf l₁ o' (row o') := fun o' ho' =>
    (honly.preserves (h.held o' ho')).held (h.held o' ho')
  have hends₁ : l₁.first = l.first ∧ l₁.last = l.last ∧ l₁.length = l.length ∧
      l₁.root = l.root := by
    rw [honly.same]
    exact ⟨rfl, rfl, rfl, rfl⟩
  have hchain₁ : Chain l₁ (as ++ o :: bs) :=
    h.chain.congr ⟨hends₁.1, hends₁.2.1, hends₁.2.2.1⟩ fun o' _ x hx =>
      ⟨x, honly.others o' _ (fun _ hn => nomatch hn) hx, rfl, rfl⟩
  obtain ⟨l₂, hrun₂, hchain₂, hrelinks, hledger₂⟩ := unlinkLeaf_spec hchain₁ hledger₁
  have hpreserves₂ : ∀ o' ∈ as ++ o :: bs, Preserves conf l l₂ o' := fun o' ho' =>
    (honly.preserves (h.held o' ho')).trans (h.held o' ho') (hrelinks.preserves (hheld₁ o' ho'))
  have hresources₂ : ∀ o' ∈ as ++ o :: bs, leafResources conf l₂ o' = leafResources conf l o' :=
    fun o' ho' => (hpreserves₂ o' ho').resources_eq (h.held o' ho')
  have hexclusive := h.exclusive
  rw [(perm_middle.flatMap_right _).nodup_iff] at hexclusive
  obtain ⟨hnodup, hrest, hdisjoint⟩ := nodup_append'.mp hexclusive
  obtain ⟨l₃, hrun₃, hledger₃, hsame₃, hothers₃, hget₃⟩ :=
    destroyLeaf_spec hledger₂ ((hpreserves₂ o ho).held (h.held o ho)) (hresources₂ o ho ▸ hnodup)
  have hmem : ∀ {o'}, o' ∈ as ++ bs → o' ∈ as ++ o :: bs := fun ho' => hsub.subset ho'
  have hne : ∀ {o'}, o' ∈ as ++ bs → o' ≠ o := fun ho' heq => hnot (heq ▸ ho')
  have hpreserves : ∀ o' ∈ as ++ bs, Preserves conf l l₃ o' := by
    intro o' ho'
    refine (hpreserves₂ o' (hmem ho')).trans (h.held o' (hmem ho')) ⟨fun x hx => ?_, fun r hr => ?_⟩
    · exact ⟨x.prev, x.next, hothers₃ o' _ (hne ho') (fun _ hs => nomatch hs) hx⟩
    · refine hget₃ r fun hr' => ?_
      rw [hresources₂ o ho] at hr'
      rw [hresources₂ o' (hmem ho')] at hr
      exact hdisjoint hr' (mem_flatMap.mpr ⟨o', ho', hr⟩)
  have hnodes : ∀ p' r', T' p' = some (.node r') → l₃.objs.lookup r' = l₁.objs.lookup r' := by
    intro p' r' hp'
    obtain ⟨n, hn, -⟩ := hgrown₁.nodes p' r' hp'
    have hn₂ := hrelinks.others r' (.node n) (fun _ hx => nomatch hx) hn
    have hner : r' ≠ o := by
      rintro rfl
      obtain ⟨x, hx, -⟩ := hheld₁ r' ho
      cases hn.symm.trans hx
    rw [hn, hothers₃ r' (.node n) hner (fun _ hs => nomatch hs) hn₂]
  have hroot₃ : l₃.root = l₁.root := by rw [hsame₃, hrelinks.same]
  refine ⟨l₃, T', ?_, ?_⟩
  · rw [bind_of_eq_ok hrun₁, bind_of_eq_ok hrun₂]
    exact hrun₃
  · exact {
      ledger := hledger₃
      root := by rw [hroot₃, hends₁.2.2.2, h.root]
      grown := hgrown₁.congr hroot₃ hnodes
      placed := hplaced
      compact := hcompact
      chain := hchain₂.congr (by rw [hsame₃]; exact ⟨rfl, rfl, rfl⟩) fun o' ho' x hx =>
        ⟨x, hothers₃ o' _ (hne ho') (fun _ hs => nomatch hs) hx, rfl, rfl⟩
      held := fun o' ho' => (hpreserves o' ho').held (h.held o' (hmem ho'))
      exclusive := by
        rw [flatMap_congr fun o' ho' =>
          (hpreserves o' ho').resources_eq (h.held o' (hmem ho'))]
        exact hrest
      typed := fun o' ho' => h.typed o' (hmem ho')
      apart := fun o₁ ho₁ o₂ ho₂ hne => h.apart o₁ (hmem ho₁) o₂ (hmem ho₂) hne }

/-! ## Updating an entry -/

/-- The values of some fields can be stored, and the indexes of Lua values do not run out. -/
def Fits (l : YangList) (fields : List FieldSpec) (e : Entry) : Prop :=
  (∀ v ∈ rowOf fields e, Storable v) ∧ ∀ f ∈ fields, Indexed l f

theorem get_setLeaf (hx : l.objs.lookup o = some (.leaf x)) (r : Resource) :
    (l.setLeaf o y).get r = l.get r := by
  cases r with
  | lvalue name idx => rfl
  | str o' =>
    have hlookup : (l.setLeaf o y).objs.lookup o' =
        if o' = o then some (.leaf y) else l.objs.lookup o' := lookup_insert_ite _ _ _ _
    rw [get, get, hlookup]
    by_cases heq : o' = o
    · rw [if_pos heq, heq, hx]
    · rw [if_neg heq]

theorem lookup_setLeaf_ne (hne : o' ≠ o) : (l.setLeaf o y).objs.lookup o' = l.objs.lookup o' := by
  show (l.objs.insert o _).lookup o' = _
  rw [lookup_insert_ite, if_neg hne]

theorem lookup_setLeaf : (l.setLeaf o y).objs.lookup o = some (.leaf y) :=
  AList.lookup_insert _

/-- **The members of an entry are replaced.** -/
theorem Represents.update (h : Represents conf l os row T) (ho : o ∈ os)
    (htyped : Typed conf.members e) (hfits : Fits l conf.members e)
    (hroom : Room l conf.members.length) :
    ∃ l', l.updateLeaf conf o e = .ok l' ∧ Represents conf l' os
      (Function.update row o ((row o).1, rowOf conf.members e)) T := by
  obtain ⟨as, bs, hos⟩ := append_of_mem ho
  have hexclusive := h.exclusive
  rw [hos, (perm_middle.flatMap_right _).nodup_iff] at hexclusive
  obtain ⟨hnodup, hrest, hdisjoint⟩ := nodup_append'.mp hexclusive
  obtain ⟨x, hx, hkeys, hmembers⟩ := h.held o ho
  have hresources : leafResources conf l o = _ := leafResources_of_lookup hx
  rw [hresources] at hnodup hdisjoint
  obtain ⟨hnodupk, hnodupm, hkm⟩ := nodup_append'.mp hnodup
  obtain ⟨l₁, hfree, hfrees, hledger₁⟩ := freeFields_spec h.ledger hmembers hnodupm
  have hlive : ∀ r ∈ resources conf.members x.members, l.get r ≠ none := fun r hr =>
    hmembers.get_ne_none hr
  have hroom₁ : Room l₁ (conf.members.length + 0) := by
    rw [Room, hfrees.maxfree]
    exact hroom
  have hindexed₁ : ∀ f ∈ conf.members, Indexed l₁ f := fun f hf hkind idx hidx =>
    hfits.2 f hf hkind idx (hfrees.fewer f.name idx hidx)
  obtain ⟨l₂, cs, hpack, hstored, hpacks, hledger₂, -⟩ :=
    packFields_spec conf hledger₁ htyped hfits.1 conf.members_nodup hindexed₁ hroom₁
  have hx₂ : l₂.objs.lookup o = some (.leaf x) :=
    hpacks.objs o _ (hfrees.lookup hlive hx (by simp))
  -- what other fields refer to stays
  have hget : ∀ r, l.get r ≠ none → r ∉ resources conf.members x.members →
      l₁.get r ≠ none ∧ (l₂.setLeaf o { x with members := cs }).get r = l.get r := by
    intro r hr hnot
    have hr₁ := hfrees.get_eq hnot
    have hne : l₁.get r ≠ none := hr₁ ▸ hr
    exact ⟨hne, by rw [get_setLeaf hx₂, hpacks.get_eq hne, hr₁]⟩
  have hothers : ∀ o' y, o' ≠ o → (∀ s, y ≠ .str s) → l.objs.lookup o' = some y →
      (l₂.setLeaf o { x with members := cs }).objs.lookup o' = some y := by
    intro o' y hne hstr hy
    rw [lookup_setLeaf_ne hne]
    exact hpacks.objs o' y (hfrees.lookup hlive hy hstr)
  have hnot : o ∉ as ++ bs := by
    have hnodup := h.chain.links.nodup
    rw [hos] at hnodup
    exact (nodup_cons.mp (nodup_middle.mp hnodup)).1
  have hmem : ∀ {o'}, o' ∈ os ↔ o' = o ∨ o' ∈ as ++ bs := by
    intro o'
    rw [hos, perm_middle.mem_iff, mem_cons]
  have hne : ∀ {o'}, o' ∈ as ++ bs → o' ≠ o := fun ho' heq => hnot (heq ▸ ho')
  have hpreserves : ∀ o' ∈ as ++ bs,
      Preserves conf l (l₂.setLeaf o { x with members := cs }) o' := by
    intro o' ho'
    refine ⟨fun y hy => ?_, fun r hr => ?_⟩
    · exact ⟨y.prev, y.next, hothers o' _ (hne ho') (by simp) hy⟩
    · refine (hget r ((h.held o' (hmem.mpr (.inr ho'))).get_ne_none hr) fun hr' => ?_).2
      exact hdisjoint (mem_append_right _ hr') (mem_flatMap.mpr ⟨o', ho', hr⟩)
  have hkept : ∀ r ∈ resources conf.keys x.keys,
      l₁.get r ≠ none ∧ (l₂.setLeaf o { x with members := cs }).get r = l.get r := fun r hr =>
    hget r (hkeys.get_ne_none hr) fun hr' => hkm hr hr'
  have hkeyOf : ∀ o', (Function.update row o ((row o).1, rowOf conf.members e) o').1 =
      (row o').1 := by
    intro o'
    rw [Function.update_apply]
    split_ifs with heq
    · rw [heq]
    · rfl
  have hrows : keyOf (Function.update row o ((row o).1, rowOf conf.members e)) = keyOf row :=
    funext hkeyOf
  have hends : l₂.first = l.first ∧ l₂.last = l.last ∧ l₂.length = l.length ∧ l₂.root = l.root := by
    rw [hpacks.same, hfrees.same]
    exact ⟨rfl, rfl, rfl, rfl⟩
  refine ⟨l₂.setLeaf o { x with members := cs }, ?_, ?_⟩
  · rw [updateLeaf, bind_of_eq_ok (leaf_of_lookup hx), bind_of_eq_ok hfree, bind_of_eq_ok hpack]
    rfl
  · exact {
      ledger := ledger_setLeaf hledger₂ hx₂
      root := hends.2.2.2.trans h.root
      grown := h.grown.congr hends.2.2.2 fun p' r' hp' => by
        obtain ⟨n, hn, -⟩ := h.grown.nodes p' r' hp'
        rw [hn]
        refine hothers r' (.node n) ?_ (by simp) hn
        rintro rfl
        cases hn.symm.trans hx
      placed := by
        rw [hrows]
        exact h.placed
      compact := by
        rw [hrows]
        exact h.compact
      chain := by
        refine h.chain.congr ⟨hends.1, hends.2.1, hends.2.2.1⟩ fun o' ho' y hy => ?_
        rcases hmem.mp ho' with rfl | ho'
        · cases hx.symm.trans hy
          exact ⟨_, lookup_setLeaf, rfl, rfl⟩
        · exact ⟨y, hothers o' _ (hne ho') (by simp) hy, rfl, rfl⟩
      held := fun o' ho' => by
        rcases hmem.mp ho' with rfl | ho'
        · rw [Function.update_self]
          exact ⟨_, lookup_setLeaf, hkeys.congr fun r hr => (hkept r hr).2,
            hstored.congr fun r _ => get_setLeaf hx₂ r⟩
        · rw [Function.update_of_ne (hne ho')]
          exact (hpreserves o' ho').held (h.held o' (hmem.mpr (.inr ho')))
      exclusive := by
        rw [hos, (perm_middle.flatMap_right _).nodup_iff, flatMap_cons,
          leafResources_of_lookup lookup_setLeaf, flatMap_congr fun o' ho' =>
          (hpreserves o' ho').resources_eq (h.held o' (hmem.mpr (.inr ho')))]
        refine nodup_append'.mpr ⟨nodup_append'.mpr ⟨hnodupk, hpacks.nodup, ?_⟩,
          hrest, ?_⟩
        · intro r hr hr'
          exact (hkept r hr).1 (hpacks.fresh r hr')
        · intro r hr hin
          obtain ⟨o', ho', hr'⟩ := mem_flatMap.mp hin
          rcases mem_append.mp hr with hr | hr
          · exact hdisjoint (mem_append_left _ hr) hin
          · refine (hget r ((h.held o' (hmem.mpr (.inr ho'))).get_ne_none hr') fun hold => ?_).1
              (hpacks.fresh r hr)
            exact hdisjoint (mem_append_right _ hold) hin
      typed := fun o' ho' => by
        rw [hkeyOf]
        exact h.typed o' ho'
      apart := fun o₁ ho₁ o₂ ho₂ hne => by
        rw [hkeyOf, hkeyOf]
        exact h.apart o₁ ho₁ o₂ ho₂ hne }

/-! ## Adding an entry -/

/-- Keys are not Lua values. -/
theorem Stored.no_lvalues {fields : List FieldSpec} {cs : List (Option Cell)} {p : Row}
    (h : Stored l fields cs p) (htyped : RowTyped fields p)
    (hkinds : ∀ f ∈ fields, f.kind ≠ .lvalue) (name : String) (idx : Nat) :
    .lvalue name idx ∉ resources fields cs := by
  induction h with
  | nil => exact not_mem_nil
  | @present f fields c cs v p hvalue _ ih =>
    obtain ⟨htype, htyped⟩ := forall₂_cons.mp htyped
    obtain ⟨hkind, hkinds⟩ := forall_mem_cons.mp hkinds
    intro hmem
    rcases mem_append.mp hmem with hmem | hmem
    · cases c with
      | str o => cases mem_singleton.mp hmem
      | empty => cases hmem
      | data bytes => cases hmem
      | lvalue idx' =>
        obtain ⟨u, -, rfl⟩ := Option.map_eq_some_iff.mp hvalue
        exact hkind htype
    · exact ih htyped hkinds hmem
  | absent _ ih =>
    obtain ⟨-, htyped⟩ := forall₂_cons.mp htyped
    obtain ⟨-, hkinds⟩ := forall_mem_cons.mp hkinds
    exact ih htyped hkinds

theorem packs_object {x : ListObject} {heap : Heap} (hnone : l.objs.lookup o = none) :
    Packs l { l with heap := heap, objs := l.objs.insert o x } [] where
  same := rfl
  objs o' y hy := by
    rw [lookup_insert_ite, if_neg]
    · exact hy
    · rintro rfl
      cases hnone.symm.trans hy
  lvalues _ _ _ hv := hv
  untouched _ _ := rfl
  fresh _ hr := nomatch hr
  live _ hr := nomatch hr
  nodup := .nil

/-- What `new_leaf` needs: the values can be stored, and there is room in the heap. -/
structure Capacity (conf : ListConf) (l : YangList) (e members : Entry) : Prop where
  leaf : conf.leafSize ≤ Heap.blockSize
  keys : ∀ v ∈ rowOf conf.keys e, Storable v
  members : Fits l conf.members members
  room : Room l (conf.keys.length + conf.members.length + conf.depth + 2)

/-- **A leaf is made for an entry.** -/
theorem newLeaf_spec (hhash : Hashable conf) (hledger : Ledger conf.leafSize l)
    (htyped : Typed conf.keys e) (htyped' : Typed conf.members members)
    (hcapacity : Capacity conf l e members) :
    ∃ l' o, l.newLeaf conf e members = .ok (l', o) ∧ l.objs.lookup o = none ∧
      (∃ x, l'.objs.lookup o = some (.leaf x) ∧ x.prev = 0 ∧ x.next = 0) ∧
      Held conf l' o (rowOf conf.keys e, rowOf conf.members members) ∧
      Packs l l' (leafResources conf l' o) ∧ Ledger conf.leafSize l' ∧
      Room l' (conf.depth + 1) := by
  have hroom : Room l (conf.keys.length + (conf.members.length + (conf.depth + 1)) + 1) :=
    hcapacity.room.mono (by omega)
  obtain ⟨heap, o, halloc, hnone, hledger₁, hroom₁⟩ :=
    alloc_spec (x := .leaf ⟨0, 0, [], []⟩) hledger rfl conf.leafSize_pos hcapacity.leaf hroom
  have hpacks₁ : Packs l { l with
      heap := heap, objs := l.objs.insert o (.leaf ⟨0, 0, [], []⟩) } [] := packs_object hnone
  obtain ⟨l₁, hl₁⟩ : ∃ l₁, l₁ = { l with
    heap := heap, objs := l.objs.insert o (.leaf ⟨0, 0, [], []⟩) } := ⟨_, rfl⟩
  rw [← hl₁] at halloc hledger₁ hroom₁ hpacks₁
  have hleaf₁ : l₁.objs.lookup o = some (.leaf ⟨0, 0, [], []⟩) := by
    rw [hl₁]
    exact AList.lookup_insert _
  obtain ⟨l₂, keys, hpack₂, hkeys, hpacks₂, hledger₂, hroom₂⟩ :=
    packFields_spec conf hledger₁ htyped hcapacity.keys conf.keys_nodup
      (fun f hf hkind => absurd hkind (hhash f hf)) hroom₁
  have hnolvalues := hkeys.no_lvalues (rowTyped_rowOf htyped) hhash
  have hindexed : ∀ f ∈ conf.members, Indexed l₂ f := by
    intro f hf hkind
    have hsame : l₂.lvalues f.name = l.lvalues f.name := by
      rw [hpacks₂.untouched f.name fun idx => hnolvalues f.name idx, hl₁]
    rw [hsame]
    exact hcapacity.members.2 f hf hkind
  obtain ⟨l₃, members', hpack₃, hmembers, hpacks₃, hledger₃, hroom₃⟩ :=
    packFields_spec conf hledger₂ htyped' hcapacity.members.1 conf.members_nodup hindexed hroom₂
  have hkeys₃ := hkeys.congr fun r hr => hpacks₃.get_eq (hkeys.get_ne_none hr)
  have hleaf₃ := hpacks₃.objs o _ (hpacks₂.objs o _ hleaf₁)
  have hpacks := (hpacks₁.trans hpacks₂).trans hpacks₃
  refine ⟨l₃.setLeaf o ⟨0, 0, keys, members'⟩, o, ?_, hnone, ⟨_, lookup_setLeaf, rfl, rfl⟩, ?_, ?_,
    ledger_setLeaf hledger₃ hleaf₃, hroom₃⟩
  · rw [newLeaf]
    exact (bind_of_eq_ok halloc).trans ((bind_of_eq_ok hpack₂).trans (bind_of_eq_ok hpack₃))
  · exact ⟨_, lookup_setLeaf, hkeys₃.congr fun r _ => get_setLeaf hleaf₃ r,
      hmembers.congr fun r _ => get_setLeaf hleaf₃ r⟩
  · rw [leafResources_of_lookup lookup_setLeaf]
    exact {
      same := by
        rw [setLeaf, hpacks.same]
      objs := fun o' y hy => by
        rw [lookup_setLeaf_ne]
        · exact hpacks.objs o' y hy
        · rintro rfl
          cases hnone.symm.trans hy
      lvalues := hpacks.lvalues
      untouched := hpacks.untouched
      fresh := hpacks.fresh
      live := fun r hr => by
        rw [get_setLeaf hleaf₃]
        exact hpacks.live r hr
      nodup := hpacks.nodup }

/-- **An entry is added at the end.** -/
theorem Represents.add (h : Represents conf l os row T) (hhash : Hashable conf)
    (htyped : Typed conf.keys e) (htyped' : Typed conf.members members)
    (hcapacity : Capacity conf l e members)
    (hapart : ∀ o ∈ os, Apart conf (rowOf conf.keys e) (row o).1)
    (hlocated : Located (keyHash conf (rowOf conf.keys e)) T r d s m) :
    ∃ l' o row' T', (do
        let (l, o) ← l.newLeaf conf e members
        let l ← insertLeaf conf (conf.depth + 1) l o r d s
          (some (keyHash conf (rowOf conf.keys e) s))
        l.appendLeaf o) = .ok l' ∧ Represents conf l' (os ++ [o]) row' T' ∧ (os ++ [o]).map row' =
        os.map row ++ [(rowOf conf.keys e, rowOf conf.members members)] := by
  obtain ⟨l₁, o, hnew, hnone, ⟨x, hx, hprev, hnext⟩, hheld, hpacks, hledger₁, hroom₁⟩ :=
    newLeaf_spec hhash h.ledger htyped htyped' hcapacity
  have ho : o ∉ os := by
    intro ho
    obtain ⟨y, hy⟩ := h.chain.leaves o ho
    cases hnone.symm.trans hy
  have hne : ∀ {o'}, o' ∈ os → o' ≠ o := fun ho' heq => ho (heq ▸ ho')
  obtain ⟨row', hrow'⟩ : ∃ row', row' =
      Function.update row o (rowOf conf.keys e, rowOf conf.members members) := ⟨_, rfl⟩
  have hself : row' o = (rowOf conf.keys e, rowOf conf.members members) := by
    rw [hrow', Function.update_self]
  have hrow : ∀ o' ∈ os, row' o' = row o' := by
    intro o' ho'
    rw [hrow', Function.update_of_ne (hne ho')]
  have hdigits : ∀ o' ∈ {o' | o' ∈ os},
      digitsOf conf (keyOf row') o' = digitsOf conf (keyOf row) o' := by
    intro o' ho'
    rw [digitsOf, digitsOf, keyOf, keyOf, hrow o' ho']
  have hkey : keyOf row' o = rowOf conf.keys e := by rw [keyOf, hself]
  have htypedRows : ∀ o' ∈ os ++ [o], RowTyped conf.keys (row' o').1 := by
    intro o' ho'
    rcases mem_append.mp ho' with ho' | ho'
    · rw [hrow o' ho']
      exact h.typed o' ho'
    · rw [mem_singleton.mp ho', hself]
      exact rowTyped_rowOf htyped
  have hheld₁ : ∀ o' ∈ os ++ [o], Held conf l₁ o' (row' o') := by
    intro o' ho'
    rcases mem_append.mp ho' with ho' | ho'
    · rw [hrow o' ho']
      exact (hpacks.preserves (h.held o' ho')).held (h.held o' ho')
    · rw [mem_singleton.mp ho', hself]
      exact hheld
  have hset : {o' | o' ∈ os ++ [o]} = insert o {o' | o' ∈ os} := by
    ext o'
    simp only [mem_append, mem_singleton]
    exact or_comm
  have hapart' : ∀ o₁ ∈ os ++ [o], ∀ o₂ ∈ os ++ [o], o₁ ≠ o₂ →
      Apart conf (row' o₁).1 (row' o₂).1 := by
    intro o₁ ho₁ o₂ ho₂ hne'
    rcases mem_append.mp ho₁ with ho₁ | ho₁ <;> rcases mem_append.mp ho₂ with ho₂ | ho₂
    · rw [hrow o₁ ho₁, hrow o₂ ho₂]
      exact h.apart o₁ ho₁ o₂ ho₂ hne'
    · rw [hrow o₁ ho₁, mem_singleton.mp ho₂, hself]
      obtain ⟨n, hn, hdiffer⟩ := hapart o₁ ho₁
      exact ⟨n, hn, hdiffer.symm⟩
    · rw [hrow o₂ ho₂, mem_singleton.mp ho₁, hself]
      exact hapart o₂ ho₂
    · exact absurd ((mem_singleton.mp ho₁).trans (mem_singleton.mp ho₂).symm) hne'
  have hends₁ : l₁.first = l.first ∧ l₁.last = l.last ∧ l₁.length = l.length ∧
      l₁.root = l.root := by
    rw [hpacks.same]
    exact ⟨rfl, rfl, rfl, rfl⟩
  have hgrown₁ : Grown l₁ T := h.grown.congr hends₁.2.2.2 fun p' r' hp' => by
    obtain ⟨n, hn, -⟩ := h.grown.nodes p' r' hp'
    rw [hn, hpacks.objs r' _ hn]
  have hplaced₁ := h.placed.congr hdigits
  have hcompact₁ := (h.compact.congr hdigits).mono (Set.subset_insert o _)
  have hlevel : AtLevel (keyHash conf (keyOf row' o)) m d s
      (some (keyHash conf (rowOf conf.keys e) s)) := by
    rw [hkey]
    exact hlocated.level
  have hdigit : digitsOf conf (keyOf row') o = digit (keyHash conf (rowOf conf.keys e)) := by
    rw [digitsOf, hkey]
  have hkeyed : ∀ o' ∈ insert o {o' | o' ∈ os}, Keyed conf l₁ o' (keyOf row' o') := by
    intro o' ho'
    rw [← hset] at ho'
    obtain ⟨y, hy, hkeys, -⟩ := hheld₁ o' ho'
    exact ⟨y, hy, hkeys, htypedRows o' ho'⟩
  obtain ⟨l₂, T', hinsert, hgrown₂, hplaced₂, hcompact₂, honly, hledger₂, -⟩ :=
    insertLeaf_spec (n := m) (j := 0) hhash hgrown₁ hplaced₁ hcompact₁ hkeyed hlevel
      (hdigit ▸ hlocated.node) (hdigit ▸ hlocated.last) (Nat.succ_pos conf.depth) ho
      (fun lo hlo => by
        obtain ⟨hmem, -⟩ := hplaced₁.only _ lo hlo
        obtain ⟨n, hn, hdiffer⟩ := hapart lo hmem
        refine ⟨n, by omega, ?_⟩
        rw [hdigit, hdigits lo hmem]
        exact hdiffer) hledger₁ hroom₁
  have hends₂ : l₂.first = l.first ∧ l₂.last = l.last ∧ l₂.length = l.length ∧
      l₂.root = l.root := by
    rw [honly.same]
    exact hends₁
  have hchain₂ : Chain l₂ os := by
    refine h.chain.congr ⟨hends₂.1, hends₂.2.1, hends₂.2.2.1⟩ fun o' _ y hy => ?_
    exact ⟨y, honly.others o' (.leaf y) (fun _ hn => nomatch hn) (hpacks.objs o' _ hy), rfl, rfl⟩
  have hx₂ := honly.others o (.leaf x) (fun _ hn => nomatch hn) hx
  have hzero : o ≠ 0 := by
    rintro rfl
    obtain ⟨n, hn⟩ := h.root_node
    cases hnone.symm.trans hn
  obtain ⟨l₃, happend, hchain₃, hrelinks, hledger₃⟩ :=
    appendLeaf_spec hchain₂ hx₂ hprev hnext ho hzero hledger₂
  have hpreserves : ∀ o' ∈ os ++ [o], Preserves conf l₁ l₃ o' := by
    intro o' ho'
    have honly' := honly.preserves (hheld₁ o' ho')
    exact honly'.trans (hheld₁ o' ho') (hrelinks.preserves (honly'.held (hheld₁ o' ho')))
  have hroot₃ : l₃.root = l₂.root := by rw [hrelinks.same]
  refine ⟨l₃, o, row', T', ?_, ?_, ?_⟩
  · rw [bind_of_eq_ok hnew]
    exact (bind_of_eq_ok hinsert).trans happend
  · exact {
      ledger := hledger₃
      root := by rw [hroot₃, hends₂.2.2.2, h.root]
      grown := hgrown₂.congr hroot₃ fun p' r' hp' => by
        obtain ⟨n, hn, -⟩ := hgrown₂.nodes p' r' hp'
        rw [hn, hrelinks.others r' (.node n) (fun _ hs => nomatch hs) hn]
      placed := hset ▸ hplaced₂
      compact := hset ▸ hcompact₂
      chain := hchain₃
      held := fun o' ho' => (hpreserves o' ho').held (hheld₁ o' ho')
      exclusive := by
        rw [flatMap_congr fun o' ho' => (hpreserves o' ho').resources_eq (hheld₁ o' ho'),
          flatMap_append, flatMap_singleton, flatMap_congr fun o' ho' =>
          (hpacks.preserves (h.held o' ho')).resources_eq (h.held o' ho')]
        refine nodup_append'.mpr ⟨h.exclusive, hpacks.nodup, fun r hr hr' => ?_⟩
        obtain ⟨o', ho', hr⟩ := mem_flatMap.mp hr
        exact (h.held o' ho').get_ne_none hr (hpacks.fresh r hr')
      typed := htypedRows
      apart := hapart' }
  · rw [map_append, map_singleton, hself, map_congr_left hrow]

end YangList

end Snabb
