import Snabb.Lib.Lpm.Trie

/-!
# The trie is a map from prefixes (`lib/lpm/lpm4_trie.lua`)

A use of a trie is a sequence of `add` and `remove`, with the map from prefixes that it should
be next to it.

When the last prefix is removed the root keeps its address and length and loses its key. If it
was an address of its own, a prefix of length 32, `search_trie` still takes the search for that
address to its end there: a shorter prefix added above it later is not found. And an array that
is used up is not grown in time. `Fits` excludes exactly this.

- `trie_is_a_prefix_map`: a use returns and its trie is the map all along if and only if it
  meets `Fits` at each operation.
-/

namespace Snabb

open Foundation Prefix PathTree LpmTrie List
open Function (update update_eq_self update_of_ne update_self)

/-- The operations that change a trie. -/
inductive LpmOp where
  | add (p : Prefix 32) (key : LpmKey)
  | remove (p : Prefix 32)
deriving DecidableEq

/-- A trie in use, with the map that it should be. -/
structure LpmUse where
  trie : LpmTrie
  map : Prefix 32 → Option LpmKey

/-- What an operation does to the map. -/
def LpmOp.apply (m : Prefix 32 → Option LpmKey) : LpmOp → Prefix 32 → Option LpmKey
  | add p key => update m p (some key)
  | remove p => update m p none

/-- What holds of the keys before an operation and of the key that it adds holds of the keys. -/
theorem LpmOp.forall_apply {m : Prefix 32 → Option LpmKey} {P : LpmKey → Prop} {op : LpmOp}
    (h : ∀ q key, m q = some key → P key) (hadd : ∀ p key, op = .add p key → P key)
    {q : Prefix 32} {key : LpmKey} (hq : op.apply m q = some key) : P key := by
  cases op with
  | add p key' =>
    by_cases heq : q = p
    · rw [heq, LpmOp.apply, update_self] at hq
      obtain rfl := Option.some.inj hq
      exact hadd p key' rfl
    · rw [LpmOp.apply, update_of_ne heq] at hq
      exact h q key hq
  | remove p =>
    by_cases heq : q = p
    · rw [heq, LpmOp.apply, update_self] at hq
      cases hq
    · rw [LpmOp.apply, update_of_ne heq] at hq
      exact h q key hq

namespace LpmUse

/-- A new trie. -/
def begin : LpmUse := ⟨.new, fun _ => none⟩

/-- One operation. -/
def step (u : LpmUse) (op : LpmOp) : Except LpmFault LpmUse := do
  let t ← match op with
    | .add p key => u.trie.add p.ip p.length key.1
    | .remove p => u.trie.remove p.ip p.length
  return ⟨t, op.apply u.map⟩

/-- One operation, where any prefix may be removed: if it is not present `remove` may raise an
`assert`, and has changed nothing then. -/
def attempt (u : LpmUse) : LpmOp → Except LpmFault LpmUse
  | .add p key => u.step (.add p key)
  | .remove p => do
    let t ← (match u.trie.remove p.ip p.length with
      | .error .assertion => .ok u.trie
      | r => r)
    return ⟨t, LpmOp.apply u.map (.remove p)⟩

/-- Only prefixes that are present are removed. -/
def Legal (u : LpmUse) : LpmOp → Prop
  | .add _ _ => True
  | .remove p => (u.map p).isSome

instance (u : LpmUse) (op : LpmOp) : Decidable (u.Legal op) :=
  match op with
  | .add _ _ => isTrue trivial
  | .remove p => inferInstanceAs (Decidable ((u.map p).isSome = true))

/-- The nodes that an addition takes are there, and the addition puts no shorter prefix above an
address that has a node without a key. -/
def Fits (u : LpmUse) : LpmOp → Prop
  | .add p _ => u.trie.nodesTaken p.ip p.length levels 0 ≤ u.trie.alloc.room ∧
      ∀ i ∈ u.trie.indexes levels 0, (u.trie.nodes i).length = 32 → (u.trie.nodes i).key = 0 →
        p.length < 32 → ¬ p.Contains (u.trie.nodes i).ip
  | .remove _ => True

instance (u : LpmUse) (op : LpmOp) : Decidable (u.Fits op) :=
  match op with
  | .add _ _ => inferInstanceAs (Decidable (_ ∧ _))
  | .remove _ => isTrue trivial

end LpmUse

/-- The order of the entries. -/
def LpmEntry.Before (d e : LpmEntry) : Prop := d.ip < e.ip ∨ d.ip = e.ip ∧ d.length < e.length

/-- A trie is a map: for whoever searches for an address, and for whoever visits the entries. -/
structure LpmTrie.Agrees (t : LpmTrie) (m : Prefix 32 → Option LpmKey) : Prop where
  search : ∀ a, ∃ e, t.searchEntry a = .ok e ∧
    (∀ p key, IsLongest m a p key → e = some ⟨p.ip, key.1, p.length⟩) ∧
    ((∀ p key, m p = some key → ¬ p.Contains a) → ∀ e' ∈ e, e'.key = 0)
  entries : ∃ es, t.entries = .ok es ∧ es.Pairwise LpmEntry.Before ∧
    ∀ e, e ∈ es ↔ ∃ p key, m p = some key ∧ e = ⟨p.ip, key.1, p.length⟩

/-! ## What a trie holds -/

/-- The array is a tree, and the tree is the map. -/
structure LpmTrie.Holds (t : LpmTrie) (m : Prefix 32 → Option LpmKey) (T : PathTree 32 LpmKey) :
    Prop where
  owned : ∃ s, t.Owns T 0 s
  formed : T.Formed
  ne_nil : T ≠ .nil
  holds : PathTree.Holds T m

/-- Some address with a node of its own has no key, though a prefix contains it. -/
def Hidden (m : Prefix 32 → Option LpmKey) (T : PathTree 32 LpmKey) : Prop :=
  ∃ a p key, (host a, none) ∈ T.nodes ∧ m p = some key ∧ p.Contains a

section

variable {t t' : LpmTrie} {m : Prefix 32 → Option LpmKey} {T : PathTree 32 LpmKey} {p : Prefix 32}
  {key : LpmKey} {a : BitVec 32}

section

variable (h : t.Holds m T)
include h

theorem LpmTrie.Holds.descends : Descends levels T := by
  refine LpmTrie.descends h.formed h.ne_nil ?_
  cases T with
  | nil => trivial
  | node p u l r => exact Nat.le_add_right _ _

/-- A search returns the entry of the node at which a descent ends. -/
theorem LpmTrie.Holds.searchEntry (a : BitVec 32) :
    t.searchEntry a = .ok ((probe a T).map fun n => ⟨n.1.ip, keyOf n.2, n.1.length⟩) := by
  obtain ⟨s, hown⟩ := h.owned
  obtain ⟨res, hres, hfound⟩ := searchFrom_spec a none hown.stored h.descends
  rw [LpmTrie.searchEntry, searchTrie, bind_of_eq_ok hres]
  cases hprobe : probe a T with
  | none =>
    rw [hprobe] at hfound
    obtain rfl : res = none := hfound
    rfl
  | some n =>
    rw [hprobe] at hfound
    obtain ⟨j, rfl, hip, hlength, hkey⟩ := hfound
    show Except.ok (some (LpmEntry.mk (t.nodes j).ip (t.nodes j).key (t.nodes j).length)) = _
    rw [hip, hlength, hkey]
    rfl

/-- The entry of a prefix. -/
def entryFor (n : Prefix 32 × LpmKey) : LpmEntry := ⟨n.1.ip, n.2.1, n.1.length⟩

theorem LpmTrie.Holds.entries : ∃ ns : List (Prefix 32 × LpmKey),
    t.entries = .ok (ns.map entryFor) ∧ ns.Pairwise (fun n n' => n.1.Before n'.1) ∧
    ∀ p key, m p = some key ↔ (p, key) ∈ ns := by
  obtain ⟨s, hown⟩ := h.owned
  refine ⟨T.nodes.filterMap fun n => n.2.map fun k => (n.1, k), ?_, ?_, fun p key => ?_⟩
  · rw [LpmTrie.entries, traverse_eq hown.stored h.descends,
      map_filterMap]
    refine congrArg Except.ok (filterMap_congr fun n _ => ?_)
    rw [Option.map_map]
    rfl
  · refine (pairwise_nodes h.formed).filterMap _ fun n n' hbefore e he e' he' => ?_
    obtain ⟨k, -, rfl⟩ := Option.map_eq_some_iff.mp he
    obtain ⟨k', -, rfl⟩ := Option.map_eq_some_iff.mp he'
    exact hbefore
  · rw [h.holds p key, mem_filterMap]
    constructor
    · exact fun hn => ⟨_, hn, rfl⟩
    · rintro ⟨⟨q, u⟩, hn, he⟩
      obtain ⟨k, rfl, heq⟩ := Option.map_eq_some_iff.mp he
      cases heq
      exact hn

/-- **A trie is the map that it holds, unless an address is hidden.** -/
theorem LpmTrie.Holds.agrees_iff : t.Agrees m ↔ ¬ Hidden m T := by
  constructor
  · rintro hagrees ⟨a, p, key, hhost, hp, ha⟩
    obtain ⟨q, key', hlongest⟩ := exists_longest hp ha
    obtain ⟨e, he, hfound, -⟩ := hagrees.search a
    rw [h.searchEntry a, probe_host h.formed hhost, hfound q key' hlongest] at he
    have hkey : (0 : BitVec 32) = key'.1 := congrArg LpmEntry.key (Option.some.inj (Except.ok.inj he))
    exact key'.2 hkey.symm
  · intro hhidden
    obtain ⟨ns, hns, hsorted, hmap⟩ := h.entries
    refine ⟨fun a => ⟨_, h.searchEntry a, fun p key hlongest => ?_, fun hnone e he => ?_⟩,
      _, hns, hsorted.map _ fun _ _ hbefore => hbefore, fun e => ?_⟩
    · obtain ⟨n, hn, -⟩ := probe_longest h.formed ((h.holds p key).mp hlongest.1) hlongest.2.1
        (.inl rfl)
      obtain ⟨hmem, hcontains, hbare⟩ := probe_mem hn
      obtain ⟨q, u⟩ := n
      cases u with
      | none =>
        have hq : q = host a := eq_host_of_length hcontains (hbare rfl)
        exact absurd ⟨a, p, key, hq ▸ hmem, hlongest.1, hlongest.2.1⟩ hhidden
      | some key' =>
        obtain ⟨rfl, rfl⟩ := (h.holds.probe_eq_some h.formed hn).unique hlongest
        rw [hn]
        rfl
    · obtain ⟨⟨q, u⟩, hn, rfl⟩ := Option.map_eq_some_iff.mp he
      obtain ⟨hmem, hcontains, -⟩ := probe_mem hn
      cases u with
      | none => rfl
      | some key => exact absurd hcontains (hnone q key ((h.holds q key).mpr hmem))
    · rw [mem_map]
      constructor
      · rintro ⟨⟨p, key⟩, hn, rfl⟩
        exact ⟨p, key, (hmap p key).mpr hn, rfl⟩
      · rintro ⟨p, key, hp, rfl⟩
        exact ⟨(p, key), (hmap p key).mp hp, rfl⟩

/-- Where the nodes without a key are that `Fits` speaks of. -/
theorem LpmTrie.Holds.exists_index_iff :
    (∃ i ∈ t.indexes levels 0, (t.nodes i).length = 32 ∧ (t.nodes i).key = 0 ∧
      (t.nodes i).ip = a) ↔ (host a, none) ∈ T.nodes := by
  obtain ⟨s, hown⟩ := h.owned
  have hall := forall₂_indexes hown.stored h.descends
  constructor
  · rintro ⟨i, hi, hlength, hkey, hip⟩
    obtain ⟨⟨q, u⟩, hn, his⟩ := exists_result hall hi
    have hq : q = host a := eq_of (his.1.symm.trans hip) (his.2.1.symm.trans hlength)
    have hu : u = none := keyOf_eq_zero.mp (his.2.2.symm.trans hkey)
    exact hq ▸ hu ▸ hn
  · intro hn
    obtain ⟨i, hi, hip, hlength, hkey⟩ := exists_element hall hn
    exact ⟨i, hi, hlength, hkey, hip⟩

end

theorem new_holds : LpmTrie.new.Holds (fun _ => none) (leaf ⟨0, 0, by decide, by decide⟩ none) := by
  refine ⟨⟨{0}, ⟨⟨rfl, rfl, rfl⟩, ∅, ∅, ⟨rfl, rfl⟩, ⟨rfl, rfl⟩, by simp, by simp, by simp, by simp⟩,
    ?_, ⟨.nil, by simp [LpmTrie.new], by decide⟩⟩, formed_leaf, fun h => (nomatch h),
    holds_leaf_none⟩
  rintro a rfl
  simp [LpmHeap.Free, LpmTrie.new]

/-- **Adding a prefix inserts it, or takes a node that is not there.** -/
theorem LpmTrie.Holds.add (h : t.Holds m T) (p : Prefix 32) (key : LpmKey) :
    (t.nodesTaken p.ip p.length levels 0 ≤ t.alloc.room → ∃ t', t.add p.ip p.length key.1 = .ok t' ∧
      t'.Holds (update m p (some key)) (insert p key T)) ∧
    (t.alloc.room < t.nodesTaken p.ip p.length levels 0 →
      ∃ e, t.add p.ip p.length key.1 = .error e) := by
  obtain ⟨s, hown⟩ := h.owned
  rw [nodesTaken_eq hown.stored h.descends]
  obtain ⟨hok, hfull⟩ := addFrom_spec (p := p) (k := key) hown h.descends
  refine ⟨fun hroom => ?_, hfull⟩
  obtain ⟨t', s', hadd, hown', -⟩ := hok hroom
  refine ⟨t', hadd, ⟨s', hown'⟩, h.formed.insert, fun hnil => ?_, h.holds.insert h.formed⟩
  have hmem : (p, some key) ∈ (insert p key T).nodes := mem_insert_self
  rw [hnil] at hmem
  cases hmem

/-- Removing a prefix that has a node erases it, or leaves the root without a key. -/
theorem LpmTrie.Holds.remove_node {u : Option LpmKey} (h : t.Holds m T) (hmem : (p, u) ∈ T.nodes) :
    ∃ t', t.remove p.ip p.length = .ok t' ∧
      (t'.Holds (update m p none) (erase p T) ∨
        T = leaf p u ∧ t'.Holds (update m p none) (leaf p none)) := by
  obtain ⟨s, hown⟩ := h.owned
  by_cases hnil : erase p T = .nil
  · cases T with
    | nil => exact absurd rfl h.ne_nil
    | node q v l r =>
      obtain ⟨rfl, rfl, rfl⟩ := eq_leaf_of_erase_eq_nil hnil
      obtain ⟨his, s₀, s₁, ⟨hl, -⟩, ⟨hr, -⟩, -⟩ := hown.stored
      have hrm : t.remove q.ip q.length = .ok (t.setKey 0 0) := by
        rw [LpmTrie.remove, levels, removeFrom, if_pos ⟨his.1, his.2.1⟩, if_pos ⟨hl, hr⟩,
          if_pos rfl]
      obtain rfl : u = v := h.formed.root_eq hmem
      refine ⟨_, hrm, .inr ⟨rfl, ⟨s, hown.setKey_zero.1⟩, formed_leaf, by simp [leaf], ?_⟩⟩
      intro q' key'
      rw [nodes_leaf, mem_singleton]
      constructor
      · intro hq'
        by_cases heq : q' = q
        · rw [heq, update_self] at hq'
          cases hq'
        · rw [update_of_ne heq, h.holds q' key'] at hq'
          exact absurd (Prod.mk.inj (mem_singleton.mp hq')).1 heq
      · intro hq'
        cases hq'
  · obtain ⟨t', s', hrm, hown', -⟩ := removeFrom_spec 0 hown hmem hnil h.descends
    exact ⟨t', hrm, .inl ⟨⟨s', hown'⟩, h.formed.erase, hnil, h.holds.erase h.formed⟩⟩

/-- **Removing a prefix erases it**, or leaves the root without a key. -/
theorem LpmTrie.Holds.remove (h : t.Holds m T) (hp : m p = some key) :
    ∃ t', t.remove p.ip p.length = .ok t' ∧
      (t'.Holds (update m p none) (erase p T) ∨
        t'.Holds (update m p none) (leaf p none)) := by
  obtain ⟨t', hrm, hholds⟩ := h.remove_node ((h.holds p key).mp hp)
  exact ⟨t', hrm, hholds.imp_right And.right⟩

/-- Whatever is removed, the trie holds what is left, or the removal raises and has changed
nothing. -/
theorem LpmTrie.Holds.remove_any (h : t.Holds m T) (p : Prefix 32) :
    (∃ t' T', t.remove p.ip p.length = .ok t' ∧ t'.Holds (update m p none) T') ∨
      t.remove p.ip p.length = .error .assertion ∧ t.Holds (update m p none) T := by
  by_cases hnode : ∃ u, (p, u) ∈ T.nodes
  · obtain ⟨u, hmem⟩ := hnode
    obtain ⟨t', hrm, hholds | ⟨-, hholds⟩⟩ := h.remove_node hmem
    · exact .inl ⟨t', _, hrm, hholds⟩
    · exact .inl ⟨t', _, hrm, hholds⟩
  · have habsent : ∀ u, (p, u) ∉ T.nodes := fun u hmem => hnode ⟨u, hmem⟩
    have hm : m p = none := by
      by_contra hne
      obtain ⟨key, hkey⟩ := Option.ne_none_iff_exists'.mp hne
      exact habsent _ ((h.holds p key).mp hkey)
    have hsame : update m p none = m := by
      rw [← hm]
      exact update_eq_self p m
    obtain ⟨s, hown⟩ := h.owned
    rw [hsame]
    rcases removeFrom_absent 0 hown.stored h.descends habsent with ⟨-, hrm⟩ | ⟨-, hrm⟩
    · exact .inl ⟨t, T, hrm, h⟩
    · exact .inr ⟨hrm, h⟩

variable {u u' : LpmUse} {op : LpmOp}

/-- **An attempt returns if the nodes that an addition takes are there.** -/
theorem LpmUse.attempt_spec (op : LpmOp) (h : u.trie.Holds u.map T)
    (hroom : ∀ p key, op = .add p key →
      u.trie.nodesTaken p.ip p.length levels 0 ≤ u.trie.alloc.room) :
    ∃ u', u.attempt op = .ok u' ∧ u'.map = op.apply u.map ∧ ∃ T', u'.trie.Holds u'.map T' := by
  cases op with
  | add p key =>
    obtain ⟨t', hadd, hholds⟩ := (h.add p key).1 (hroom p key rfl)
    exact ⟨_, bind_of_eq_ok hadd, rfl, _, hholds⟩
  | remove p =>
    rw [LpmUse.attempt]
    rcases h.remove_any p with ⟨t', T', hrm, hholds⟩ | ⟨hrm, hholds⟩
    · rw [hrm]
      exact ⟨_, rfl, rfl, T', hholds⟩
    · rw [hrm]
      exact ⟨_, rfl, rfl, T, hholds⟩

theorem LpmUse.attempt_map (h : u.attempt op = .ok u') : u'.map = op.apply u.map := by
  cases op <;>
  · obtain ⟨t', -, heq⟩ := bind_eq_ok h
    cases heq
    rfl

theorem hidden_insert_iff (key : LpmKey) (hT : T.Formed) (hhidden : ¬ Hidden m T) :
    Hidden (update m p (some key)) (insert p key T) ↔
      ∃ a, (host a, none) ∈ T.nodes ∧ p.length < 32 ∧ p.Contains a := by
  constructor
  · rintro ⟨a, q, key', hhost, hq, ha⟩
    rcases of_mem_insert hT hhost with heq | ⟨hne, hmem⟩ | ⟨-, hlt⟩
    · cases (Prod.mk.inj heq).2
    · by_cases hqp : q = p
      · subst hqp
        refine ⟨a, hmem, lt_of_le_of_ne q.length_le fun hfull => hne ?_, ha⟩
        exact (eq_host_of_length ha hfull).symm
      · rw [update_of_ne hqp] at hq
        exact absurd ⟨a, q, key', hmem, hq, ha⟩ hhidden
    · exact absurd p.length_le (not_le.mpr hlt)
  · rintro ⟨a, hmem, hlt, ha⟩
    refine ⟨a, p, key, mem_insert_of_mem hmem ?_, update_self .., ha⟩
    rintro heq
    exact absurd (congrArg Prefix.length heq) (Nat.ne_of_gt hlt)

/-- A removal hides nothing. -/
theorem not_hidden_erase (hT : T.Formed) (hhidden : ¬ Hidden m T) :
    ¬ Hidden (update m p none) (erase p T) := by
  rintro ⟨a, q, key', hhost, hq, ha⟩
  have hqp : q ≠ p := by
    rintro rfl
    rw [update_self] at hq
    cases hq
  rw [update_of_ne hqp] at hq
  rcases of_mem_erase hT hhost with ⟨-, hmem⟩ | ⟨heq, hlt⟩
  · exact hhidden ⟨a, q, key', hmem, hq, ha⟩
  · obtain rfl : host a = p := (Prod.mk.inj heq).1
    exact absurd hlt (lt_irrefl _)

variable (h : u.trie.Holds u.map T)
include h

/-- What an operation must meet for the trie to be the map afterwards. -/
theorem LpmTrie.Holds.fits_iff (hhidden : ¬ Hidden u.map T) (hlegal : u.Legal op) :
    u.Fits op ↔ ∃ u', u.step op = .ok u' ∧ u'.trie.Agrees u'.map := by
  cases op with
  | add p key =>
    obtain ⟨hok, hfull⟩ := h.add p key
    have hbare : (∀ i ∈ u.trie.indexes levels 0, (u.trie.nodes i).length = 32 →
        (u.trie.nodes i).key = 0 → p.length < 32 → ¬ p.Contains (u.trie.nodes i).ip) ↔
        ¬ ∃ a, (host a, none) ∈ T.nodes ∧ p.length < 32 ∧ p.Contains a := by
      constructor
      · rintro hall ⟨a, hmem, hlt, ha⟩
        obtain ⟨i, hi, hlength, hkey, rfl⟩ := h.exists_index_iff.mpr hmem
        exact hall i hi hlength hkey hlt ha
      · intro hnone i hi hlength hkey hlt ha
        exact hnone ⟨_, h.exists_index_iff.mp ⟨i, hi, hlength, hkey, rfl⟩, hlt, ha⟩
    show _ ∧ _ ↔ _
    rw [hbare, ← hidden_insert_iff key h.formed hhidden]
    constructor
    · rintro ⟨hroom, hnot⟩
      obtain ⟨t', hadd, hholds⟩ := hok hroom
      exact ⟨⟨t', _⟩, bind_of_eq_ok hadd, hholds.agrees_iff.mpr hnot⟩
    · rintro ⟨u', hstep, hagrees⟩
      obtain ⟨t', hadd, heq⟩ := bind_eq_ok hstep
      cases heq
      have hroom : u.trie.nodesTaken p.ip p.length levels 0 ≤ u.trie.alloc.room := by
        by_contra hlt
        obtain ⟨e, he⟩ := hfull (by omega)
        cases he.symm.trans hadd
      obtain ⟨t'', hadd', hholds⟩ := hok hroom
      obtain rfl := ok_unique hadd' hadd
      exact ⟨hroom, hholds.agrees_iff.mp hagrees⟩
  | remove p =>
    obtain ⟨key, hp⟩ := Option.isSome_iff_exists.mp hlegal
    refine ⟨fun _ => ?_, fun _ => trivial⟩
    obtain ⟨t', hrm, hholds | hholds⟩ := h.remove hp
    · exact ⟨⟨t', _⟩, bind_of_eq_ok hrm, hholds.agrees_iff.mpr (not_hidden_erase h.formed hhidden)⟩
    · refine ⟨⟨t', _⟩, bind_of_eq_ok hrm, hholds.agrees_iff.mpr ?_⟩
      rintro ⟨a, q, key', -, hq, -⟩
      cases mem_singleton.mp ((hholds.holds q key').mp hq)

/-- Every operation that returns keeps the array a tree that is the map. -/
theorem LpmTrie.Holds.step (hlegal : u.Legal op)
    (hstep : u.step op = .ok u') : ∃ T', u'.trie.Holds u'.map T' := by
  cases op with
  | add p key =>
    obtain ⟨t', hop, heq⟩ := bind_eq_ok hstep
    cases heq
    obtain ⟨hok, hfull⟩ := h.add p key
    by_cases hroom : u.trie.nodesTaken p.ip p.length levels 0 ≤ u.trie.alloc.room
    · obtain ⟨t'', hadd, hholds⟩ := hok hroom
      obtain rfl := ok_unique hadd hop
      exact ⟨_, hholds⟩
    · obtain ⟨e, he⟩ := hfull (by omega)
      cases he.symm.trans hop
  | remove p =>
    obtain ⟨t', hop, heq⟩ := bind_eq_ok hstep
    cases heq
    obtain ⟨key, hp⟩ := Option.isSome_iff_exists.mp hlegal
    obtain ⟨t'', hrm, hholds⟩ := h.remove hp
    obtain rfl := ok_unique hrm hop
    exact hholds.elim (fun hholds => ⟨_, hholds⟩) fun hholds => ⟨_, hholds⟩

/-- Whatever is added or removed, if it returns the trie is its map. -/
theorem LpmTrie.Holds.attempt (hstep : u.attempt op = .ok u') : ∃ T', u'.trie.Holds u'.map T' := by
  cases op with
  | add p key => exact h.step (show u.Legal (.add p key) from trivial) hstep
  | remove p =>
    obtain ⟨u'', hattempt, -, hholds⟩ := LpmUse.attempt_spec (.remove p) h (fun _ _ => nofun)
    obtain rfl := ok_unique hattempt hstep
    exact hholds

end

/-- **A trie is a map from prefixes as long as the operations fit.** The operations return, and
after each of them every search finds the longest prefix and the entries are the prefixes in
order, if and only if each of them fits. -/
theorem trie_is_a_prefix_map (ops : List LpmOp)
    (hlegal : Along LpmUse.step LpmUse.Legal LpmUse.begin ops) :
    ((∃ u, run LpmUse.step LpmUse.begin ops = .ok u) ∧
      ∀ n u, run LpmUse.step LpmUse.begin (ops.take n) = .ok u → u.trie.Agrees u.map) ↔
    Along LpmUse.step LpmUse.Fits LpmUse.begin ops := by
  have hnew : ¬ Hidden (fun _ => none) (leaf ⟨0, 0, by decide, by decide⟩ none) := by
    rintro ⟨a, p, key, -, hp, -⟩
    cases hp
  refine returns_good_iff (I := fun u => ∃ T, u.trie.Holds u.map T)
    (G := fun u => u.trie.Agrees u.map) ?_ ?_ ⟨_, new_holds⟩ (new_holds.agrees_iff.mpr hnew) hlegal
  · rintro u op u' ⟨T, hholds⟩ hop hstep
    exact hholds.step hop hstep
  · rintro u op ⟨T, hholds⟩ hagrees hop
    exact hholds.fits_iff (hholds.agrees_iff.mp hagrees) hop

/-- Prefixes above and below each other are added and removed, an address last. -/
theorem trie_is_a_prefix_map_sample :
    let ops : List LpmOp := [.add ⟨0x0A000000, 8, by decide, by decide⟩ ⟨5, by decide⟩,
      .add ⟨0x0A010101, 32, by decide, by decide⟩ ⟨7, by decide⟩,
      .add ⟨0x0A010000, 16, by decide, by decide⟩ ⟨6, by decide⟩,
      .remove ⟨0x0A000000, 8, by decide, by decide⟩,
      .add ⟨0, 0, by decide, by decide⟩ ⟨1, by decide⟩,
      .remove ⟨0x0A010101, 32, by decide, by decide⟩]
    (∃ u, run LpmUse.step LpmUse.begin ops = .ok u) ∧
      ∀ n u, run LpmUse.step LpmUse.begin (ops.take n) = .ok u → u.trie.Agrees u.map :=
  (trie_is_a_prefix_map _ (by decide +kernel)).mpr (by decide +kernel)

theorem LpmUse.step_map {u u' : LpmUse} {op : LpmOp} (h : u.step op = .ok u') :
    u'.map = op.apply u.map := by
  cases op <;>
  · obtain ⟨t', -, heq⟩ := bind_eq_ok h
    cases heq
    rfl

/-- The prefix 0.0.0.0/0 is there, but a search for 1.2.3.4 ends at the node that the prefix
1.2.3.4/32 had. -/
theorem host_without_key_hides_prefix : let z : Prefix 32 := ⟨0, 0, by decide, by decide⟩
    let ops : List LpmOp := [.add z ⟨5, by decide⟩, .add (host 0x01020304) ⟨7, by decide⟩,
      .remove z, .remove (host 0x01020304), .add z ⟨5, by decide⟩]
    Along LpmUse.step LpmUse.Legal LpmUse.begin ops ∧
      ∃ u, run LpmUse.step LpmUse.begin ops = .ok u ∧
        IsLongest u.map 0x01020304 z ⟨5, by decide⟩ ∧
        u.trie.searchEntry 0x01020304 = .ok (some ⟨0x01020304, 0, 32⟩) := by
  intro z ops
  refine ⟨by decide +kernel, ?_⟩
  refine exists_ok_of_any (fun u => u.map z = some ⟨5, by decide⟩ ∧
      u.trie.searchEntry 0x01020304 = .ok (some ⟨0x01020304, 0, 32⟩))
    (by decide +kernel) fun u hu ⟨hz, hsearch⟩ => ?_
  refine ⟨⟨hz, by decide, fun q key hq _ => ?_⟩, hsearch⟩
  rw [run_observe (f := fun m op => op.apply m) (fun _ _ _ => LpmUse.step_map) hu] at hq
  by_cases hqz : q = z
  · rw [hqz]
  · simp only [ops, foldl_cons, foldl_nil, LpmOp.apply, update_of_ne hqz] at hq
    by_cases hqh : q = host 0x01020304
    · rw [hqh] at hq
      cases hq
    · rw [update_of_ne hqh, update_of_ne hqz, update_of_ne hqh,
        update_of_ne hqz] at hq
      cases hq

end Snabb
