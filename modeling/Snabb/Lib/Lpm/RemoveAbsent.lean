import Snabb.Lib.Lpm.Map

/-!
# Removing a prefix that is not there (`lib/lpm/lpm4_trie.lua`)

`remove` follows the bits of the address and does not look at the bits that the nodes on its way
skip. So it may come to an address that has a node of its own, and asks `get_bit` for the bit
after the last one there, which raises.

It also takes away nodes without a key. Searches do not stop at these, except at the node of an
address: `search_trie` returns it with its key, which is 0.

- `remove_absent_iff`: the prefixes whose removal does nothing.
-/

namespace Snabb

open Foundation Prefix PathTree LpmTrie

namespace LpmTrie

/-- The entries are the same, and so are the results of all searches. -/
structure Unchanged (t t' : LpmTrie) : Prop where
  entries : ∃ es es', t.entries = .ok es ∧ t'.entries = .ok es' ∧ ∀ e, e ∈ es' ↔ e ∈ es
  search : ∀ a, t'.searchEntry a = t.searchEntry a

/-- The removal returns and has done nothing that could be noticed. -/
def RemovesNothing (t : LpmTrie) (p : Prefix 32) : Prop :=
  ∃ t', t.remove p.ip p.length = .ok t' ∧ t.Unchanged t'

/-- The prefix has a node. -/
def HasNode (t : LpmTrie) (p : Prefix 32) : Prop :=
  ∃ i ∈ t.indexes levels 0, (t.nodes i).ip = p.ip ∧ (t.nodes i).length = p.length

/-- The bits of an address lead to the node of some address: at every node above that one they
are the same. -/
def Strays (t : LpmTrie) (ip : BitVec 32) : Prop :=
  ∃ i ∈ t.indexes levels 0, (t.nodes i).length = 32 ∧
    ∀ j ∈ t.indexes levels 0, (t.nodes j).length < 32 →
      Ip4.masked (t.nodes i).ip (t.nodes j).length = (t.nodes j).ip →
        ip.getMsbD (t.nodes j).length = (t.nodes i).ip.getMsbD (t.nodes j).length

/-- The removal does not come to the node of an address, and takes no such node away. -/
def Harmless (t : LpmTrie) (p : Prefix 32) : Prop :=
  (t.HasNode p ∨ ¬ t.Strays p.ip) ∧
    (t.HasNode p → p.length = 32 → (t.nodes 0).ip = p.ip ∧ (t.nodes 0).length = 32)

instance (t : LpmTrie) (p : Prefix 32) : Decidable (t.HasNode p) :=
  inferInstanceAs (Decidable (∃ i ∈ t.indexes levels 0, _ ∧ _))

instance (t : LpmTrie) (ip : BitVec 32) : Decidable (t.Strays ip) :=
  inferInstanceAs (Decidable (∃ i ∈ t.indexes levels 0, _ ∧ ∀ j ∈ t.indexes levels 0, _ → _ → _))

instance (t : LpmTrie) (p : Prefix 32) : Decidable (t.Harmless p) :=
  inferInstanceAs (Decidable (_ ∧ _))

end LpmTrie

variable {t t' : LpmTrie} {m : Prefix 32 → Option LpmKey} {T T' : PathTree 32 LpmKey}
  {p : Prefix 32}

section

variable (h : t.Holds m T)
include h

theorem LpmTrie.Holds.hasNode_iff : t.HasNode p ↔ ∃ u, (p, u) ∈ T.nodes := by
  obtain ⟨s, hown⟩ := h.owned
  have hall := forall₂_indexes hown.stored h.descends
  constructor
  · rintro ⟨i, hi, hip, hlength⟩
    obtain ⟨⟨q, u⟩, hn, his⟩ := exists_result hall hi
    obtain rfl : q = p := eq_of (his.1.symm.trans hip) (his.2.1.symm.trans hlength)
    exact ⟨u, hn⟩
  · rintro ⟨u, hn⟩
    obtain ⟨i, hi, hip, hlength, -⟩ := exists_element hall hn
    exact ⟨i, hi, hip, hlength⟩

theorem LpmTrie.Holds.strays_iff {ip : BitVec 32} : t.Strays ip ↔ ∃ a, T.LeadsTo ip a := by
  obtain ⟨s, hown⟩ := h.owned
  have hall := forall₂_indexes hown.stored h.descends
  constructor
  · rintro ⟨i, hi, hlength, hbits⟩
    obtain ⟨⟨q, u⟩, hn, his⟩ := exists_result hall hi
    have hq : q = host q.ip := eq_host_of_length contains_self (his.2.1.symm.trans hlength)
    refine ⟨q.ip, ⟨u, hq ▸ hn⟩, fun n hn' hlt hcontains => ?_⟩
    obtain ⟨j, hj, hjs⟩ := exists_element hall hn'
    have hmasked : Ip4.masked (t.nodes i).ip (t.nodes j).length = (t.nodes j).ip := by
      rw [hjs.1, hjs.2.1, Ip4.masked_eq n.1.length_le, his.1]
      exact hcontains
    have hbit := hbits j hj (by rw [hjs.2.1]; exact hlt) hmasked
    rwa [hjs.2.1, his.1] at hbit
  · rintro ⟨a, ⟨u, hn⟩, hbits⟩
    obtain ⟨i, hi, his⟩ := exists_element hall hn
    refine ⟨i, hi, his.2.1, fun j hj hlt hmasked => ?_⟩
    obtain ⟨n, hn', hjs⟩ := exists_result hall hj
    rw [hjs.2.1] at hlt hmasked ⊢
    rw [Ip4.masked_eq n.1.length_le, hjs.1, his.1] at hmasked
    rw [his.1]
    exact hbits n hn' hlt hmasked

theorem LpmTrie.Holds.entries_iff (h' : t'.Holds m T') :
    ∃ es es', t.entries = .ok es ∧ t'.entries = .ok es' ∧ ∀ e, e ∈ es' ↔ e ∈ es := by
  obtain ⟨ns, hns, -, hmap⟩ := h.entries
  obtain ⟨ns', hns', -, hmap'⟩ := h'.entries
  refine ⟨_, _, hns, hns', fun e => ?_⟩
  have hsame n : n ∈ ns' ↔ n ∈ ns :=
    (hmap' n.1 n.2).symm.trans (hmap n.1 n.2)
  simp only [List.mem_map, hsame]

theorem LpmTrie.Holds.unchanged_iff (h' : t'.Holds m T') :
    t.Unchanged t' ↔ ∀ a, t'.searchEntry a = t.searchEntry a :=
  ⟨fun hsame => hsame.search, fun hsearch => ⟨h.entries_iff h', hsearch⟩⟩

/-- The removal of a node without a key is noticed by the search for its address, if it has one. -/
theorem LpmTrie.Holds.unchanged_erase_iff (hmem : (p, none) ∈ T.nodes)
    (h' : t'.Holds m (erase p T)) : t.Unchanged t' ↔ p.length < 32 := by
  rw [h.unchanged_iff h']
  constructor
  · intro hsearch
    by_contra hlt
    have hp : p = host p.ip :=
      eq_host_of_length contains_self (le_antisymm p.length_le (not_lt.mp hlt))
    have hfound := hsearch p.ip
    rw [h.searchEntry, h'.searchEntry, probe_host h.formed (hp ▸ hmem)] at hfound
    cases hprobe : probe p.ip (erase p T) with
    | none =>
      rw [hprobe] at hfound
      cases hfound
    | some n =>
      -- what is found now is no node of the address
      obtain ⟨hn, hcontains, -⟩ := probe_mem hprobe
      rw [hprobe] at hfound
      have hlength : n.1.length = 32 :=
        congrArg LpmEntry.length (Option.some.inj (Except.ok.inj hfound))
      rcases of_mem_erase h.formed hn with ⟨hne, -⟩ | ⟨-, hshort⟩
      · exact hne ((eq_host_of_length hcontains hlength).trans hp.symm)
      · exact hlt hshort
  · intro hlt a
    rw [h.searchEntry, h'.searchEntry, probe_erase_none h.formed hmem hlt]

end

variable {u : Option LpmKey}

theorem LpmTrie.Holds.root_of_leaf (h : t.Holds m (leaf p u)) :
    (t.nodes 0).ip = p.ip ∧ (t.nodes 0).length = p.length := by
  obtain ⟨s, hown⟩ := h.owned
  exact ⟨hown.stored.1.1, hown.stored.1.2.1⟩

theorem LpmTrie.Holds.leaf_of_root (h : t.Holds m T) (hfull : p.length = 32)
    (hip : (t.nodes 0).ip = p.ip) (hlength : (t.nodes 0).length = 32) (hmem : (p, u) ∈ T.nodes) :
    erase p T = .nil := by
  obtain ⟨s, hown⟩ := h.owned
  cases T with
  | nil => rfl
  | node q v l r =>
    have his := hown.stored.1
    obtain rfl : q = p := eq_of (his.1.symm.trans hip)
      (his.2.1.symm.trans (hlength.trans hfull.symm))
    have hnone {S : PathTree 32 LpmKey} {b : Bool} (hon : S.On q b) : S = .nil := by
      cases S with
      | nil => rfl
      | node q' u' l' r' =>
        have hside := hon (q', u') List.mem_cons_self
        exact absurd (hside.1.trans_le q'.length_le) (by omega)
    rw [hnone h.formed.1, hnone h.formed.2.1, erase_here]

/-- **The prefixes whose removal does nothing**, of those that are not in the trie. -/
theorem LpmTrie.Holds.removesNothing_iff (h : t.Holds m T) (hp : m p = none) :
    t.RemovesNothing p ↔ t.Harmless p := by
  have hsame : Function.update m p none = m := by
    rw [← hp]
    exact Function.update_eq_self p m
  by_cases hnode : t.HasNode p
  · obtain ⟨u, hmem⟩ := h.hasNode_iff.mp hnode
    obtain rfl : u = none := by
      cases u with
      | none => rfl
      | some key => rw [(h.holds p key).mpr hmem] at hp; cases hp
    obtain ⟨t', hrm, hholds⟩ := h.remove_node hmem
    rw [hsame] at hholds
    have hnothing : t.RemovesNothing p ↔ t.Unchanged t' := by
      constructor
      · rintro ⟨t'', hrm', hunchanged⟩
        obtain rfl := ok_unique hrm' hrm
        exact hunchanged
      · exact fun hunchanged => ⟨t', hrm, hunchanged⟩
    rw [hnothing]
    rcases hholds with herased | ⟨rfl, hroot⟩
    · rw [h.unchanged_erase_iff hmem herased]
      constructor
      · exact fun hlt => ⟨.inl hnode, fun _ hfull => absurd hlt (by omega)⟩
      · rintro ⟨-, hroot⟩
        refine lt_of_le_of_ne p.length_le fun hfull => ?_
        obtain ⟨hip, hlength⟩ := hroot hnode hfull
        exact herased.ne_nil (h.leaf_of_root hfull hip hlength hmem)
    · refine iff_of_true ⟨h.entries_iff hroot, fun a => ?_⟩ ⟨.inl hnode, fun _ hfull => ?_⟩
      · rw [h.searchEntry, hroot.searchEntry]
      · obtain ⟨hip, hlength⟩ := h.root_of_leaf
        exact ⟨hip, hlength.trans hfull⟩
  · have habsent : ∀ u, (p, u) ∉ T.nodes := fun u hmem => hnode (h.hasNode_iff.mpr ⟨u, hmem⟩)
    obtain ⟨s, hown⟩ := h.owned
    rcases removeFrom_absent 0 hown.stored h.descends habsent with
      ⟨hleads, hrm⟩ | ⟨hleads, hrm⟩
    · refine iff_of_true ⟨t, hrm, h.entries_iff h, fun _ => rfl⟩ ⟨.inr ?_, fun hmem => ?_⟩
      · rwa [h.strays_iff]
      · exact absurd hmem hnode
    · refine iff_of_false ?_ ?_
      · rintro ⟨t', hrm', -⟩
        cases hrm'.symm.trans hrm
      · rintro ⟨hmem | hstrays, -⟩
        · exact hnode hmem
        · exact hstrays (h.strays_iff.mpr hleads)

/-- Whatever is added and removed, the trie is its map. -/
theorem LpmUse.holds_of_attempts {ops : List LpmOp} {u : LpmUse}
    (hrun : run LpmUse.attempt LpmUse.begin ops = .ok u) : ∃ T, u.trie.Holds u.map T :=
  run_inv (I := fun u _ => ∃ T, u.trie.Holds u.map T) (P := fun _ _ => True)
    (fun _ _ _ _ ⟨_, hholds⟩ _ hstep => hholds.attempt hstep) ⟨_, new_holds⟩ along_true hrun

/-- **The prefixes whose removal does nothing**, of those not in the trie, after any additions and
removals. -/
theorem remove_absent_iff (ops : List LpmOp) {u : LpmUse}
    (hrun : run LpmUse.attempt LpmUse.begin ops = .ok u) (p : Prefix 32) (hp : u.map p = none) :
    u.trie.RemovesNothing p ↔ u.trie.Harmless p := by
  obtain ⟨T, hholds⟩ := LpmUse.holds_of_attempts hrun
  exact hholds.removesNothing_iff hp

/-- The bits of 10.1.0.0 lead to 10.0.0.0/8, and no further. -/
theorem remove_absent_below :
    ∃ u, run LpmUse.attempt LpmUse.begin
        [.add ⟨0x0A000000, 8, by decide, by decide⟩ ⟨5, by decide⟩] = .ok u ∧
      u.trie.RemovesNothing ⟨0x0A010000, 16, by decide, by decide⟩ := by
  refine exists_ok_of_any (fun u => u.map ⟨0x0A010000, 16, by decide, by decide⟩ = none ∧
      u.trie.Harmless ⟨0x0A010000, 16, by decide, by decide⟩)
    (by decide +kernel) fun u hu ⟨hp, hharmless⟩ => ?_
  exact (remove_absent_iff _ hu _ hp).mpr hharmless

/-- The bits of 1.2.3.5 lead to 1.2.3.4. -/
theorem remove_absent_next_to_host :
    ¬ ∀ (ops : List LpmOp) (u : LpmUse), run LpmUse.attempt LpmUse.begin ops = .ok u →
      ∀ p, u.map p = none → u.trie.RemovesNothing p := by
  intro hall
  obtain ⟨u, hu, hraise⟩ := ok_of_any (r := run LpmUse.attempt LpmUse.begin
      [.add (host 0x01020304) ⟨7, by decide⟩])
    (q := fun u => u.map (host 0x01020305) = none ∧
      (u.trie.remove 0x01020305 32).toOption.isNone) (by decide +kernel)
  obtain ⟨hp, hraise⟩ := of_decide_eq_true hraise
  obtain ⟨t', hrm, -⟩ := hall _ u hu _ hp
  rw [show u.trie.remove 0x01020305 32 = .ok t' from hrm] at hraise
  cases hraise

end Snabb
