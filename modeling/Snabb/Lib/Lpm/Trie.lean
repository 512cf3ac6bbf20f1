import Snabb.Lib.Lpm.Model
import Mathlib.Data.Set.BooleanAlgebra
import Mathlib.Order.CompletePartialOrder

/-!
# The array of a trie is a tree (`lib/lpm/lpm4_trie.lua`)

`Stored` says that the nodes at some indexes of the array are a path-compressed tree. Adding and
removing a prefix walk down the array as insertion and removal walk down the tree, and change
only the nodes of the subtree they are in, and free ones.

- `addFrom_spec`, `removeFrom_spec`: a loop in a subtree makes it the tree with the prefix
  inserted or removed;
- `traverse_eq`, `searchFrom_spec`: the loops that only read.
-/

namespace Snabb

open Foundation Prefix PathTree List Set
open Function (update update_idem update_of_ne update_self)

/-- A key is not 0. -/
abbrev LpmKey := { k : BitVec 32 // k ≠ 0 }

/-- The key of a node, 0 for none. -/
def keyOf : Option LpmKey → BitVec 32
  | none => 0
  | some k => k.1

theorem keyOf_eq_zero {u : Option LpmKey} : keyOf u = 0 ↔ u = none := by
  cases u with
  | none => exact ⟨fun _ => rfl, fun _ => rfl⟩
  | some k => exact ⟨fun h => absurd h k.2, fun h => (nomatch h)⟩

/-! ## The allocator -/

namespace LpmHeap

/-- An index that is not in use. -/
def Free (h : LpmHeap) (i : Nat) : Prop := i ∈ h.heap ∨ h.idx < i

/-- What was freed was in use before, and is freed once. -/
structure Sound (h : LpmHeap) : Prop where
  nodup : h.heap.Nodup
  freed : ∀ i ∈ h.heap, 0 < i ∧ i ≤ h.idx
  inside : h.idx < h.count

variable {h : LpmHeap} {i : Nat}

variable (hs : h.Sound)
include hs

theorem Sound.ne_zero (hfree : h.Free i) : i ≠ 0 := by
  rcases hfree with hmem | hlt
  · exact (hs.freed i hmem).1.ne'
  · omega

/-- While there is room, the allocator hands out an index that was free. -/
theorem Sound.new (hroom : 0 < h.room) :
    ∃ i h', h.new = (i, h') ∧ i < h.count ∧ h.Free i ∧ h'.Sound ∧ h'.room + 1 = h.room ∧
      ∀ a, h'.Free a ↔ h.Free a ∧ a ≠ i := by
  obtain ⟨count, idx, heap⟩ := h
  obtain ⟨hnodup, hfreed, hinside⟩ := hs
  cases heap with
  | nil =>
    simp only [room, length_nil] at hroom hinside
    have hne : idx + 1 ≠ count := by omega
    refine ⟨idx + 1, ⟨count, idx + 1, []⟩, ?_, by show idx + 1 < count; omega,
      .inr (Nat.lt_succ_self idx), ⟨.nil, by simp, by show idx + 1 < count; omega⟩, ?_, fun a => ?_⟩
    · simp only [LpmHeap.new, if_neg hne]
    · simp only [room]
      omega
    · simp only [Free, not_mem_nil, false_or]
      omega
  | cons i heap =>
    obtain ⟨hi, hnodup'⟩ := nodup_cons.mp hnodup
    obtain ⟨-, hle⟩ := hfreed i mem_cons_self
    refine ⟨i, ⟨count, idx, heap⟩, rfl, by show i < count; exact hle.trans_lt hinside,
      .inl mem_cons_self,
      ⟨hnodup', fun j hj => hfreed j (mem_cons_of_mem _ hj), hinside⟩, ?_, fun a => ?_⟩
    · simp only [room, length_cons]
      omega
    · simp only [Free, mem_cons]
      constructor
      · rintro (ha | ha)
        · exact ⟨.inl (.inr ha), fun heq => hi (heq ▸ ha)⟩
        · exact ⟨.inr ha, fun heq => by have hle' : i ≤ idx := hle; omega⟩
      · rintro ⟨(ha | ha) | ha, hne⟩
        · exact absurd ha hne
        · exact .inl ha
        · exact .inr ha

/-- Without room the array grows, and the index is behind its old end. -/
theorem Sound.new_full (hroom : h.room = 0) : ¬ h.new.1 < h.count := by
  obtain ⟨count, idx, heap⟩ := h
  cases heap with
  | nil =>
    simp only [room] at hroom
    show ¬ idx + 1 < count
    omega
  | cons i heap =>
    simp only [room, length_cons] at hroom
    omega

theorem Sound.free (hused : ¬ h.Free i) (hi : i ≠ 0) :
    (h.free i).Sound ∧ ∀ a, (h.free i).Free a ↔ h.Free a ∨ a = i := by
  have hle : i ≤ h.idx := by
    by_contra hlt
    exact hused (.inr (by omega))
  refine ⟨⟨nodup_cons.mpr ⟨fun hmem => hused (.inl hmem), hs.nodup⟩, fun j hj => ?_,
    hs.inside⟩, fun a => ?_⟩
  · rcases mem_cons.mp hj with rfl | hj
    · exact ⟨Nat.pos_of_ne_zero hi, hle⟩
    · exact hs.freed j hj
  · show a ∈ i :: h.heap ∨ h.idx < a ↔ (a ∈ h.heap ∨ h.idx < a) ∨ a = i
    rw [mem_cons]
    tauto

end LpmHeap

/-! ## Trees in an array -/

/-- The node holds the prefix and the key. -/
def LpmTrieNode.Is (n : LpmTrieNode) (p : Prefix 32) (u : Option LpmKey) : Prop :=
  n.ip = p.ip ∧ n.length = p.length ∧ n.key = keyOf u

/-- The nodes at the indexes of `s` are the tree, with its root at `i`. -/
def Stored (nodes : Nat → LpmTrieNode) : PathTree 32 LpmKey → Nat → Set Nat → Prop
  | .nil, i, s => i = 0 ∧ s = ∅
  | .node p u l r, i, s => (nodes i).Is p u ∧ ∃ s₀ s₁, Stored nodes l (nodes i).left s₀ ∧
      Stored nodes r (nodes i).right s₁ ∧ s = insert i (s₀ ∪ s₁) ∧ i ∉ s₀ ∪ s₁ ∧ 0 ∉ s₀ ∪ s₁ ∧
      Disjoint s₀ s₁

section

variable {nodes nodes' : Nat → LpmTrieNode} {T T' : PathTree 32 LpmKey} {p q : Prefix 32}
  {u : Option LpmKey} {l r : PathTree 32 LpmKey} {i : Nat} {s s₀ s₁ : Set Nat} {b : Bool}

theorem stored_fork : Stored nodes (fork p u b T T') i s ↔ (nodes i).Is p u ∧ ∃ s₀ s₁,
    Stored nodes T ((nodes i).down b) s₀ ∧ Stored nodes T' ((nodes i).down !b) s₁ ∧
    s = insert i (s₀ ∪ s₁) ∧ i ∉ s₀ ∪ s₁ ∧ 0 ∉ s₀ ∪ s₁ ∧ Disjoint s₀ s₁ := by
  cases b with
  | false => rfl
  | true =>
    refine and_congr_right fun _ => ?_
    constructor
    · rintro ⟨s₀, s₁, h₀, h₁, hs, hi, hz, hdisj⟩
      exact ⟨s₁, s₀, h₁, h₀, union_comm s₀ s₁ ▸ hs, union_comm s₀ s₁ ▸ hi,
        union_comm s₀ s₁ ▸ hz, hdisj.symm⟩
    · rintro ⟨s₀, s₁, h₀, h₁, hs, hi, hz, hdisj⟩
      exact ⟨s₁, s₀, h₁, h₀, union_comm s₀ s₁ ▸ hs, union_comm s₀ s₁ ▸ hi,
        union_comm s₀ s₁ ▸ hz, hdisj.symm⟩

theorem Stored.frame (h : Stored nodes T i s) (hsame : ∀ a ∈ s, nodes' a = nodes a) :
    Stored nodes' T i s := by
  induction T generalizing i s with
  | nil => exact h
  | node p u l r ihl ihr =>
    obtain ⟨his, s₀, s₁, hl, hr, rfl, hi, hz, hdisj⟩ := h
    have hroot : nodes' i = nodes i := hsame i (mem_insert i _)
    refine ⟨hroot ▸ his, s₀, s₁, ?_, ?_, rfl, hi, hz, hdisj⟩
    · rw [hroot]
      exact ihl hl fun a ha => hsame a (mem_insert_of_mem _ (mem_union_left _ ha))
    · rw [hroot]
      exact ihr hr fun a ha => hsame a (mem_insert_of_mem _ (mem_union_right _ ha))

theorem Stored.root_mem (h : Stored nodes (.node p u l r) i s) : i ∈ s := by
  obtain ⟨-, s₀, s₁, -, -, rfl, -⟩ := h
  exact mem_insert i _

theorem Stored.eq_nil_iff (h : Stored nodes T i s) (hz : 0 ∉ s) : T = .nil ↔ i = 0 := by
  cases T with
  | nil => exact ⟨fun _ => h.1, fun _ => rfl⟩
  | node p u l r => exact ⟨fun heq => (nomatch heq), fun heq => absurd (heq ▸ h.root_mem) hz⟩

/-- The subtree on a side; the index of its root is 0 if there is none. -/
theorem Stored.half (h : Stored nodes (.node p u l r) i s) (b : Bool) :
    ∃ s₀, Stored nodes (bif b then r else l) ((nodes i).down b) s₀ ∧
      ((bif b then r else l) = .nil ↔ (nodes i).down b = 0) := by
  rw [node_eq_fork b] at h
  obtain ⟨-, s₀, s₁, hhalf, -, -, -, hz, -⟩ := stored_fork.mp h
  exact ⟨s₀, hhalf, hhalf.eq_nil_iff fun hmem => hz (.inl hmem)⟩

theorem Stored.relocate {j : Nat} (h : Stored nodes (.node p u l r) i s)
    (hroot : nodes' j = nodes i) (hsame : ∀ a ∈ s, a ≠ i → nodes' a = nodes a) (hj : j ∉ s) :
    Stored nodes' (.node p u l r) j (insert j (s \ {i})) := by
  obtain ⟨his, s₀, s₁, hl, hr, rfl, hi, hz, hdisj⟩ := h
  have hbelow : insert i (s₀ ∪ s₁) \ {i} = s₀ ∪ s₁ := insert_sdiff_self_of_notMem hi
  have hne : ∀ a ∈ s₀ ∪ s₁, a ≠ i := fun a ha heq => hi (heq ▸ ha)
  refine ⟨hroot ▸ his, s₀, s₁, ?_, ?_, by rw [hbelow],
    fun hmem => hj (mem_insert_of_mem _ hmem), hz, hdisj⟩
  · rw [hroot]
    exact hl.frame fun a ha => hsame a (mem_insert_of_mem _ (mem_union_left _ ha))
      (hne a (mem_union_left _ ha))
  · rw [hroot]
    exact hr.frame fun a ha => hsame a (mem_insert_of_mem _ (mem_union_right _ ha))
      (hne a (mem_union_right _ ha))

end

namespace LpmTrie

variable {t t' : LpmTrie} {T T' S : PathTree 32 LpmKey} {p q : Prefix 32} {u u' : Option LpmKey}
  {l r : PathTree 32 LpmKey} {i new : Nat} {s s' s₀ s₁ : Set Nat} {b : Bool} {k : LpmKey}
  {fuel : Nat}

/-- The tree is in the array, at indexes that are in use. -/
structure Owns (t : LpmTrie) (T : PathTree 32 LpmKey) (i : Nat) (s : Set Nat) : Prop where
  stored : Stored t.nodes T i s
  used : ∀ a ∈ s, ¬ t.alloc.Free a
  sound : t.alloc.Sound

/-- Only nodes at `s` and free ones have changed, and of these only the ones at `s'` are used. -/
structure Changed (t t' : LpmTrie) (s s' : Set Nat) : Prop where
  frame : ∀ a, a ∉ s → ¬ t.alloc.Free a → t'.nodes a = t.nodes a ∧ ¬ t'.alloc.Free a
  fresh : ∀ a ∈ s', a ∈ s ∨ t.alloc.Free a

/-- The root is not deeper than the loop goes. -/
def Within (fuel : Nat) : PathTree 32 LpmKey → Prop
  | .nil => True
  | .node p _ _ _ => levels ≤ fuel + p.length

@[simp] theorem write_nodes {n : LpmTrieNode} : (t.write i n).nodes = update t.nodes i n := rfl

@[simp] theorem write_alloc {n : LpmTrieNode} : (t.write i n).alloc = t.alloc := rfl

theorem write_write {m n : LpmTrieNode} : (t.write i n).write i m = t.write i m := by
  rw [write, write_nodes, update_idem]
  rfl

theorem setTrie_eq {left right : Nat} : t.setTrie i p.ip p.length (keyOf u) left right =
    t.write i ⟨p.ip, keyOf u, p.length, left, right⟩ := by
  rw [setTrie, Ip4.masked_eq p.length_le, p.kept]

theorem copyNode_eq {j : Nat} (h : (t.nodes j).Is p u) : t.copyNode i j = t.write i (t.nodes j) := by
  obtain ⟨hip, hlength, hkey⟩ := h
  rw [copyNode, hip, hlength, hkey, setTrie_eq]
  congr 1
  rw [← hip, ← hlength, ← hkey]

variable {d : Nat}

@[simp] theorem setDown_alloc : (t.setDown i b d).alloc = t.alloc := rfl

theorem setDown_nodes : (t.setDown i b d).nodes = update t.nodes i (match b with
    | false => { t.nodes i with left := d }
    | true => { t.nodes i with right := d }) := rfl

theorem setDown_here (his : (t.nodes i).Is q u) :
    ((t.setDown i b d).nodes i).Is q u ∧ ((t.setDown i b d).nodes i).down b = d ∧
      ((t.setDown i b d).nodes i).down (!b) = (t.nodes i).down !b := by
  rw [setDown_nodes, update_self]
  cases b <;> exact ⟨his, rfl, rfl⟩

theorem getNode_ok (hs : t.alloc.Sound) (hroom : 0 < t.alloc.room) :
    ∃ new t', t.getNode = .ok (new, t') ∧ t.alloc.Free new ∧ t'.alloc.Sound ∧
      t'.alloc.room + 1 = t.alloc.room ∧
      (∀ a, t'.alloc.Free a ↔ t.alloc.Free a ∧ a ≠ new) ∧ ∀ a, a ≠ new → t'.nodes a = t.nodes a := by
  obtain ⟨new, alloc, hnew, hlt, hfree, hsound, hroom', hfree'⟩ := hs.new hroom
  refine ⟨new, ⟨update t.nodes new ⟨0, 0, (t.nodes new).length, 0, 0⟩, alloc⟩, ?_, hfree,
    hsound, hroom', hfree', fun a ha => update_of_ne ha _ _⟩
  rw [getNode, hnew]
  exact if_pos hlt

theorem getNode_full (hs : t.alloc.Sound) (hroom : t.alloc.room = 0) : ∃ e, t.getNode = .error e :=
  ⟨_, if_neg (hs.new_full hroom)⟩

/-- A node in the array, seen from one of its sides. -/
structure Opened (t : LpmTrie) (q : Prefix 32) (u : Option LpmKey) (b : Bool)
    (T S : PathTree 32 LpmKey) (i : Nat) (s₀ s₁ : Set Nat) : Prop where
  here : (t.nodes i).Is q u
  below : t.Owns T ((t.nodes i).down b) s₀
  aside : Stored t.nodes S ((t.nodes i).down !b) s₁
  root_notMem : i ∉ s₀ ∪ s₁
  zero_notMem : 0 ∉ s₀ ∪ s₁
  disjoint : Disjoint s₀ s₁
  used : ∀ a ∈ insert i (s₀ ∪ s₁), ¬ t.alloc.Free a

theorem Owns.opened (h : t.Owns (fork q u b T S) i s) :
    ∃ s₀ s₁, s = insert i (s₀ ∪ s₁) ∧ t.Opened q u b T S i s₀ s₁ := by
  obtain ⟨hstored, hused, hsound⟩ := h
  obtain ⟨his, s₀, s₁, hT, hS, rfl, hi, hz, hdisj⟩ := stored_fork.mp hstored
  exact ⟨s₀, s₁, rfl, his, ⟨hT, fun a ha => hused a (mem_insert_of_mem _ (.inl ha)), hsound⟩,
    hS, hi, hz, hdisj, hused⟩

theorem Opened.down_ne {q' : Prefix 32} (h : t.Opened q u b (.node q' u' l r) S i s₀ s₁) :
    (t.nodes i).down (!b) ≠ (t.nodes i).down b := by
  have hmem : (t.nodes i).down b ∈ s₀ := h.below.stored.root_mem
  intro heq
  cases S with
  | nil => exact h.zero_notMem (.inl (h.aside.1 ▸ heq ▸ hmem))
  | node q' u' l' r' =>
    exact Set.disjoint_left.mp h.disjoint hmem (heq ▸ h.aside.root_mem)

theorem Opened.closed (h : t.Opened q u b T S i s₀ s₁)
    (hT : t'.Owns T' ((t.nodes i).down b) s') (hc : t.Changed t' s₀ s') :
    t'.Owns (fork q u b T' S) i (insert i (s' ∪ s₁)) ∧
      t.Changed t' (insert i (s₀ ∪ s₁)) (insert i (s' ∪ s₁)) := by
  have hi₀ : i ∉ s₀ := fun hmem => h.root_notMem (.inl hmem)
  have hroot := hc.frame i hi₀ (h.used i (mem_insert i _))
  have haside : ∀ a ∈ s₁, t'.nodes a = t.nodes a ∧ ¬ t'.alloc.Free a := fun a ha =>
    hc.frame a (fun hmem => Set.disjoint_left.mp h.disjoint hmem ha)
      (h.used a (mem_insert_of_mem _ (.inr ha)))
  refine ⟨⟨stored_fork.mpr ⟨hroot.1 ▸ h.here, s', s₁, ?_, ?_, rfl, ?_, ?_, ?_⟩, ?_, hT.sound⟩,
    ?_, ?_⟩
  · rw [hroot.1]
    exact hT.stored
  · rw [hroot.1]
    exact h.aside.frame fun a ha => (haside a ha).1
  · rintro (hmem | hmem)
    · exact (hc.fresh i hmem).elim hi₀ (h.used i (mem_insert i _))
    · exact h.root_notMem (.inr hmem)
  · rintro (hmem | hmem)
    · rcases hc.fresh 0 hmem with hmem | hfree
      · exact h.zero_notMem (.inl hmem)
      · exact absurd rfl (h.below.sound.ne_zero hfree)
    · exact h.zero_notMem (.inr hmem)
  · refine Set.disjoint_left.mpr fun a ha ha₁ => ?_
    rcases hc.fresh a ha with hmem | hfree
    · exact Set.disjoint_left.mp h.disjoint hmem ha₁
    · exact h.used a (mem_insert_of_mem _ (.inr ha₁)) hfree
  · rintro a (rfl | ha | ha)
    · exact hroot.2
    · exact hT.used a ha
    · exact (haside a ha).2
  · intro a ha hused
    exact hc.frame a (fun hmem => ha (mem_insert_of_mem _ (.inl hmem))) hused
  · rintro a (rfl | ha | ha)
    · exact .inl (mem_insert _ _)
    · exact (hc.fresh a ha).imp_left fun hmem => mem_insert_of_mem _ (.inl hmem)
    · exact .inl (mem_insert_of_mem _ (.inr ha))

/-- A new node takes over the contents of a node, which becomes its parent. -/
theorem Owns.push_down (h : t.Owns (.node q u l r) i s) (s₁ : Set Nat) (hfree : t.alloc.Free new)
    {c : Prefix 32} {v : Option LpmKey}
    (hS : Stored t'.nodes S ((t'.nodes i).down !b) s₁) (hs₁ : ∀ a ∈ s₁, t.alloc.Free a ∧ a ≠ new)
    (hi : (t'.nodes i).Is c v) (hdown : (t'.nodes i).down b = new)
    (hnew : t'.nodes new = t.nodes i) (hsame : ∀ a ∈ s, a ≠ i → t'.nodes a = t.nodes a) :
    Stored t'.nodes (fork c v b (.node q u l r) S) i (insert i (insert new (s \ {i}) ∪ s₁)) := by
  have hnot : new ∉ s := fun hmem => h.used new hmem hfree
  have hz : 0 ∉ s \ {i} := by
    rintro ⟨hmem, hne⟩
    obtain ⟨-, s₀, s₁, -, -, rfl, -, hz, -⟩ := h.stored
    exact hmem.elim hne hz
  refine stored_fork.mpr ⟨hi, insert new (s \ {i}), s₁, ?_, hS, rfl, ?_, ?_, ?_⟩
  · rw [hdown]
    exact h.stored.relocate hnew hsame hnot
  · rintro ((rfl | hmem) | hmem)
    · exact hnot h.stored.root_mem
    · exact hmem.2 rfl
    · exact h.used i h.stored.root_mem (hs₁ i hmem).1
  · rintro ((heq | hmem) | hmem)
    · exact h.sound.ne_zero hfree heq.symm
    · exact hz hmem
    · exact h.sound.ne_zero (hs₁ 0 hmem).1 rfl
  · refine Set.disjoint_left.mpr ?_
    rintro a (rfl | ha) ha₁
    · exact (hs₁ a ha₁).2 rfl
    · exact h.used a ha.1 (hs₁ a ha₁).1

/-! ## Adding a prefix -/

theorem Within.half (h : Within (fuel + 1) (.node q u l r)) (hT : (PathTree.node q u l r).Formed) :
    Within fuel (bif b then r else l) := by
  have hon := (hT.half b).1
  cases hhalf : (bif b then r else l) with
  | nil => trivial
  | node q' u' l' r' =>
    rw [hhalf] at hon
    have hlt : q.length < q'.length := (hon (q', u') mem_cons_self).1
    have hle : levels ≤ fuel + 1 + q.length := h
    show levels ≤ fuel + q'.length
    omega

/-- Induction along the loops: at a node of a formed tree there is fuel for a step, and for the
subtrees. -/
inductive Descends : Nat → PathTree 32 LpmKey → Prop
  | node {fuel : Nat} {q : Prefix 32} {u : Option LpmKey} {l r : PathTree 32 LpmKey}
      (formed : (PathTree.node q u l r).Formed)
      (half : ∀ b, (bif b then r else l) ≠ .nil → Descends fuel (bif b then r else l)) :
      Descends (fuel + 1) (.node q u l r)

theorem descends (hT : T.Formed) (hne : T ≠ .nil) (hfuel : Within fuel T) : Descends fuel T := by
  induction T generalizing fuel with
  | nil => exact absurd rfl hne
  | node q v l r ihl ihr =>
    obtain ⟨fuel, rfl⟩ : ∃ n, fuel = n + 1 := by
      have hle : levels ≤ fuel + q.length := hfuel
      have hq := q.length_le
      exact ⟨fuel - 1, by simp only [levels] at hle; omega⟩
    refine .node hT fun b hnil => ?_
    have hwithin : Within fuel (bif b then r else l) := Within.half hfuel hT
    have hformed := (hT.half b).2
    cases b
    · exact ihl hformed hnil hwithin
    · exact ihr hformed hnil hwithin

theorem node_is_iff (p q : Prefix 32) : (q.ip = p.ip ∧ q.length = p.length) ↔ q = p :=
  ⟨fun h => eq_of h.1 h.2, fun h => h ▸ ⟨rfl, rfl⟩⟩

theorem covers_of_longer (hip : q.ip = p.ip) (hlt : p.length < q.length) : p.Covers q :=
  ⟨hlt.le, by rw [Contains, hip, p.kept]⟩

theorem on_path_iff (hlonger : ¬ (q.ip = p.ip ∧ p.length < q.length)) :
    q.ip = Ip4.masked p.ip q.length ↔ q.Covers p := by
  rw [Ip4.masked_eq q.length_le]
  constructor
  · intro heq
    refine ⟨?_, heq.symm⟩
    by_contra hlt
    refine hlonger ⟨?_, by omega⟩
    rw [heq, ← p.kept, keep_keep_of_ge (by omega)]
  · exact fun h => h.2.symm

/-- The result of an operation that has taken the nodes of `fresh` and written to no others
outside the tree. -/
theorem Owns.changed (h : t.Owns T i s) (fresh : Set Nat) (hfree : ∀ a ∈ fresh, t.alloc.Free a)
    (hsound : t'.alloc.Sound) (hfree' : ∀ a, t'.alloc.Free a ↔ t.alloc.Free a ∧ a ∉ fresh)
    (hsame : ∀ a, a ∉ s → a ∉ fresh → t'.nodes a = t.nodes a) (hstored : Stored t'.nodes T' i s')
    (hs' : ∀ a ∈ s', a ∈ s ∨ a ∈ fresh) : t'.Owns T' i s' ∧ t.Changed t' s s' := by
  refine ⟨⟨hstored, fun a ha hfr => ?_, hsound⟩, ⟨fun a ha hused => ⟨hsame a ha fun hmem =>
    hused (hfree a hmem), fun hfr => hused ((hfree' a).mp hfr).1⟩, fun a ha =>
    (hs' a ha).imp_right (hfree a)⟩⟩
  rcases hs' a ha with hmem | hmem
  · exact h.used a hmem ((hfree' a).mp hfr).1
  · exact ((hfree' a).mp hfr).2 hmem

/-- "prefix already in trie, just update it". -/
theorem addFrom_here (h : t.Owns (.node p u l r) i s) :
    ∃ t' s', addFrom p.ip p.length k.1 (fuel + 1) t i = .ok t' ∧
      t'.Owns (.node p (some k) l r) i s' ∧ t.Changed t' s s' := by
  obtain ⟨⟨hip, hlength, hkey⟩, s₀, s₁, hl, hr, hs, hi, hz, hdisj⟩ := h.stored
  have hadd : addFrom p.ip p.length k.1 (fuel + 1) t i =
      .ok (t.write i ⟨p.ip, k.1, p.length, (t.nodes i).left, (t.nodes i).right⟩) := by
    rw [addFrom, if_pos ⟨hip, hlength⟩, show k.1 = keyOf (some k) from rfl, setTrie_eq]
  have hself : ∀ n, update t.nodes i n i = n := fun n => update_self ..
  have hother : ∀ n, ∀ a ∈ s₀ ∪ s₁, update t.nodes i n a = t.nodes a :=
    fun n a ha => update_of_ne (ne_of_mem_of_not_mem ha hi) _ _
  refine ⟨_, s, hadd, h.changed ∅ (fun _ hmem => absurd hmem (notMem_empty _))
    h.sound (fun a => by simp) (fun a ha _ => ?_) ?_ (fun a ha => .inl ha)⟩
  · exact update_of_ne (ne_of_mem_of_not_mem h.stored.root_mem ha).symm _ _
  · refine ⟨?_, s₀, s₁, ?_, ?_, hs, hi, hz, hdisj⟩
    · rw [write_nodes, hself]
      exact ⟨rfl, rfl, rfl⟩
    · rw [write_nodes, hself]
      exact hl.frame fun a ha => hother _ a (.inl ha)
    · rw [write_nodes, hself]
      exact hr.frame fun a ha => hother _ a (.inr ha)

/-- A node with one child. -/
def oneChild (p : Prefix 32) (key : BitVec 32) (b : Bool) (d : Nat) : LpmTrieNode :=
  ⟨p.ip, key, p.length, bif b then 0 else d, bif b then d else 0⟩

theorem clength_eq (hcovers : ¬ q.Covers p) :
    min (Ip4.commonlength q.ip p.ip) p.length = (common q p).length := by
  rw [Ip4.commonlength_eq]
  show _ = min (commonBits q.ip p.ip) (min q.length p.length)
  by_contra hne
  have hlt : q.length < commonBits q.ip p.ip ∧ q.length < p.length := by omega
  refine hcovers ⟨hlt.2.le, ?_⟩
  rw [Contains, ← (le_commonBits_iff q.length_le).mp hlt.1.le, q.kept]

/-- The array after the old node was copied to a new one and the node made an internal one. -/
def split (t : LpmTrie) (i new : Nat) (old : LpmTrieNode) (c : Prefix 32) : LpmTrie :=
  (t.write new old).write i ⟨c.ip, 0, c.length, 0, 0⟩

section

variable (his : (t.nodes i).Is q u)
include his

theorem addSplit_eq (hcovers : ¬ q.Covers p)
    (hget : t.getNode = .ok (new, t')) (hi : t'.nodes i = t.nodes i) (hnew : i ≠ new) :
    t.addSplit p.ip p.length k.1 i =
      let m := t'.split i new (t.nodes i) (common q p)
      if (common q p).length = p.length then do
        let b ← Ip4.getBit q.ip (common q p).length
        return (m.setKey i k.1).setDown i b new
      else do
        let b ← Ip4.getBit p.ip (common q p).length
        let (new2, m) ← m.getNode
        return ((m.setTrie new2 p.ip p.length k.1 0 0).setDown i b new2).setDown i (!b) new := by
  have hcopy : t'.copyNode new i = t'.write new (t.nodes i) := by
    rw [copyNode_eq (hi ▸ his), hi]
  have hq : ((t'.write new (t.nodes i)).nodes i).ip = q.ip := by
    rw [write_nodes, update_of_ne hnew, hi, his.1]
  have hmasked : Ip4.masked p.ip (common q p).length = (common q p).ip := by
    rw [Ip4.masked_eq (common q p).length_le]
    exact common_covers_right.2
  have hsplit : (t'.write new (t.nodes i)).setTrie i p.ip (common q p).length 0 0 0 =
      t'.split i new (t.nodes i) (common q p) := by
    rw [setTrie, hmasked, split]
  have hlength : ((t'.split i new (t.nodes i) (common q p)).nodes i).length =
      (common q p).length := by
    rw [split, write_nodes, update_self]
  have hold : ((t'.split i new (t.nodes i) (common q p)).nodes new).ip = q.ip := by
    rw [split, write_nodes, update_of_ne hnew.symm, write_nodes, update_self,
      his.1]
  rw [addSplit, bind_of_eq_ok hget]
  simp only [hcopy, hq, clength_eq hcovers, hsplit, hlength, hold]

theorem addSplit_parent (hne : q ≠ p) (hcovers : p.Covers q)
    (hget : t.getNode = .ok (new, t')) (hi : t'.nodes i = t.nodes i) (hnew : i ≠ new) :
    t.addSplit p.ip p.length k.1 i = .ok ((t'.write new (t.nodes i)).write i
      (oneChild p k.1 (q.ip.getMsbD p.length) new)) := by
  have hlt : p.length < q.length := hcovers.length_lt hne.symm
  have hcommon : common q p = p := common_covers_right.antisymm (covers_common hcovers covers_refl)
  rw [addSplit_eq his (fun h : q.Covers p => hne (h.antisymm hcovers)) hget hi hnew, hcommon]
  simp only [if_true]
  rw [bind_of_eq_ok (Ip4.getBit_ok (hlt.trans_le q.length_le))]
  refine congrArg Except.ok ?_
  simp only [setDown, setKey, split, write_write, write_nodes, update_self]
  cases q.ip.getMsbD p.length <;> rfl

theorem addSplit_apart {new₂ : Nat} {t₂ : LpmTrie} {b : Bool}
    (hp : (common q p).Side b p) (hcovers : ¬ q.Covers p) (hget : t.getNode = .ok (new, t'))
    (hi : t'.nodes i = t.nodes i) (hnew : i ≠ new)
    (hget₂ : (t'.split i new (t.nodes i) (common q p)).getNode = .ok (new₂, t₂)) :
    t.addSplit p.ip p.length k.1 i = .ok (((t₂.setTrie new₂ p.ip p.length k.1 0 0).setDown i b
      new₂).setDown i (!b) new) := by
  rw [addSplit_eq his hcovers hget hi hnew]
  simp only [if_neg hp.1.ne]
  rw [bind_of_eq_ok (Ip4.getBit_ok (hp.1.trans_le p.length_le)), bind_of_eq_ok hget₂, hp.2.2]
  rfl

theorem addFrom_split (hne : q ≠ p)
    (hlonger : ¬ (q.ip = p.ip ∧ p.length < q.length)) (hcovers : ¬ q.Covers p) :
    addFrom p.ip p.length k.1 (fuel + 1) t i = t.addSplit p.ip p.length k.1 i := by
  rw [addFrom, his.1, his.2.1, if_neg fun h => hne ((node_is_iff p q).mp h), if_neg hlonger,
    if_neg fun h => hcovers ((on_path_iff hlonger).mp h)]

/-- The new prefix becomes the parent of a longer one, in either of the two places where this
happens. -/
theorem addFrom_parent_eq (hne : q ≠ p) (hcovers : p.Covers q)
    (hget : t.getNode = .ok (new, t')) (hi : t'.nodes i = t.nodes i) (hnew : i ≠ new) :
    addFrom p.ip p.length k.1 (fuel + 1) t i = .ok ((t'.write new (t.nodes i)).write i
      (oneChild p k.1 (q.ip.getMsbD p.length) new)) := by
  by_cases hlonger : q.ip = p.ip ∧ p.length < q.length
  · have hbit : q.ip.getMsbD p.length = false := by
      rw [hlonger.1, ← p.kept, getMsbD_keep, decide_eq_false (lt_irrefl _), Bool.false_and]
    have hcopy : t'.copyNode new i = t'.write new (t.nodes i) := by
      rw [copyNode_eq (hi ▸ his), hi]
    rw [addFrom, his.1, his.2.1, if_neg fun h => hne ((node_is_iff p q).mp h), if_pos hlonger,
      bind_of_eq_ok hget, hbit]
    show Except.ok ((t'.copyNode new i).setTrie i p.ip p.length (keyOf (some k)) new 0) = _
    rw [hcopy, setTrie_eq]
    rfl
  · have hnot : ¬ q.Covers p := fun h => hne (h.antisymm hcovers)
    rw [addFrom_split his hne hlonger hnot]
    exact addSplit_parent his hne hcovers hget hi hnew

theorem addFrom_parent_full (hne : q ≠ p) (hcovers : p.Covers q)
    {e : LpmFault} (hget : t.getNode = .error e) :
    addFrom p.ip p.length k.1 (fuel + 1) t i = .error e := by
  by_cases hlonger : q.ip = p.ip ∧ p.length < q.length
  · rw [addFrom, his.1, his.2.1, if_neg fun h => hne ((node_is_iff p q).mp h), if_pos hlonger,
      hget]
    rfl
  · rw [addFrom_split his hne hlonger fun h => hne (h.antisymm hcovers), addSplit, hget]
    rfl

end

/-- What an addition does to a subtree: it makes it the tree with the prefix inserted, if there
is room for its new nodes, and faults if there is not. -/
def Adds (t : LpmTrie) (p : Prefix 32) (k : LpmKey) (fuel : Nat) (T : PathTree 32 LpmKey) (i : Nat)
    (s : Set Nat) : Prop :=
  (newNodes p T ≤ t.alloc.room → ∃ t' s', addFrom p.ip p.length k.1 fuel t i = .ok t' ∧
    t'.Owns (insert p k T) i s' ∧ t.Changed t' s s') ∧
  (t.alloc.room < newNodes p T → ∃ e, addFrom p.ip p.length k.1 fuel t i = .error e)

section

variable (h : t.Owns (.node q u l r) i s)
include h

theorem adds_parent (hne : q ≠ p) (hcovers : p.Covers q) :
    t.Adds p k (fuel + 1) (.node q u l r) i s := by
  have his : (t.nodes i).Is q u := h.stored.1
  have hnodes : newNodes p (.node q u l r) = 1 := by rw [newNodes, if_neg hne, if_pos hcovers]
  have hinsert : insert p k (.node q u l r) =
      fork p (some k) (q.ip.getMsbD p.length) (.node q u l r) .nil := by
    rw [PathTree.insert, if_neg hne, if_pos hcovers]
  rw [Adds, hnodes, hinsert]
  constructor
  · intro hroom
    obtain ⟨new, t', hget, hfree, hsound, -, hfree', hsame⟩ := getNode_ok h.sound hroom
    have hnew : i ≠ new := fun heq => h.used i h.stored.root_mem (heq ▸ hfree)
    refine ⟨_, insert i (insert new (s \ {i}) ∪ ∅),
      addFrom_parent_eq his hne hcovers hget (hsame i hnew) hnew, ?_⟩
    generalize hF : (t'.write new (t.nodes i)).write i
      (oneChild p k.1 (q.ip.getMsbD p.length) new) = F
    have hFi : F.nodes i = oneChild p k.1 (q.ip.getMsbD p.length) new := by
      rw [← hF, write_nodes, update_self]
    have hFnew : F.nodes new = t.nodes i := by
      rw [← hF, write_nodes, update_of_ne hnew.symm, write_nodes, update_self]
    have hFother : ∀ a, a ≠ i → a ≠ new → F.nodes a = t.nodes a := by
      intro a hai hanew
      rw [← hF, write_nodes, update_of_ne hai, write_nodes, update_of_ne hanew,
        hsame a hanew]
    refine h.changed {new} (by simpa using hfree) (by rw [← hF]; exact hsound)
      (by rw [← hF]; simpa using hfree') (fun a ha hanew => ?_)
      (h.push_down ∅ hfree ?_ (fun _ hmem => absurd hmem (notMem_empty _)) ?_ ?_ hFnew
        fun a ha hai => ?_) ?_
    · exact hFother a (ne_of_mem_of_not_mem h.stored.root_mem ha).symm hanew
    · rw [hFi]
      cases q.ip.getMsbD p.length <;> exact ⟨rfl, rfl⟩
    · rw [hFi]
      exact ⟨rfl, rfl, rfl⟩
    · rw [hFi]
      cases q.ip.getMsbD p.length <;> rfl
    · exact hFother a hai fun heq => h.used a ha (heq ▸ hfree)
    · rintro a (rfl | (rfl | ha) | ha)
      · exact .inl h.stored.root_mem
      · exact .inr rfl
      · exact .inl ha.1
      · cases ha
  · intro hroom
    obtain ⟨e, he⟩ := getNode_full h.sound (by omega)
    exact ⟨e, addFrom_parent_full his hne hcovers he⟩

/-- "add a leaf". -/
theorem adds_leaf (hne : q ≠ p) (hnot : ¬ p.Covers q)
    (hcovers : q.Covers p) (hb : p.ip.getMsbD q.length = b)
    (hnil : (bif b then r else l) = .nil) : t.Adds p k (fuel + 1) (.node q u l r) i s := by
  have his : (t.nodes i).Is q u := h.stored.1
  have hlonger : ¬ (q.ip = p.ip ∧ p.length < q.length) := fun hl => hnot (covers_of_longer hl.1 hl.2)
  have hlt : q.length < 32 := (hcovers.length_lt hne).trans_le p.length_le
  have hadd : addFrom p.ip p.length k.1 (fuel + 1) t i =
      if (t.nodes i).down b ≠ 0 then addFrom p.ip p.length k.1 fuel t ((t.nodes i).down b)
      else do
        let (new, t) ← t.getNode
        let t := t.setDown i b new
        return t.setTrie ((t.nodes i).down b) p.ip p.length k.1 0 0 := by
    rw [addFrom, his.1, his.2.1, if_neg fun h => hne ((node_is_iff p q).mp h), if_neg hlonger,
      if_pos ((on_path_iff hlonger).mpr hcovers), bind_of_eq_ok (Ip4.getBit_ok hlt), hb]
  rw [node_eq_fork b, hnil] at h
  obtain ⟨s₀, s₁, rfl, hopen⟩ := h.opened
  obtain ⟨hdown, rfl⟩ : (t.nodes i).down b = 0 ∧ s₀ = ∅ := hopen.below.stored
  rw [if_neg (not_not.mpr hdown)] at hadd
  rw [Adds, newNodes_below hne hnot hcovers hb, insert_below hne hnot hcovers hb, hnil, hadd]
  constructor
  · intro hroom
    obtain ⟨new, t', hget, hfree, hsound, -, hfree', hsame⟩ := getNode_ok h.sound hroom
    have hi : ¬ t.alloc.Free i := hopen.used i (mem_insert i _)
    have hnew : i ≠ new := fun heq => hi (heq ▸ hfree)
    have hset : ((t'.setDown i b new).nodes i).down b = new := by
      rw [setDown_nodes, update_self]
      cases b <;> rfl
    refine ⟨_, insert i ({new} ∪ s₁), bind_of_eq_ok hget, ?_⟩
    rw [hset, show k.1 = keyOf (some k) from rfl, setTrie_eq]
    generalize hF : (t'.setDown i b new).write new ⟨p.ip, keyOf (some k), p.length, 0, 0⟩ = F
    have hFi : (F.nodes i).Is q u ∧ (F.nodes i).down b = new ∧
        (F.nodes i).down (!b) = (t.nodes i).down !b := by
      rw [← hF, write_nodes, update_of_ne hnew, ← hsame i hnew]
      exact setDown_here (hsame i hnew ▸ his)
    have hFnew : F.nodes new = ⟨p.ip, keyOf (some k), p.length, 0, 0⟩ := by
      rw [← hF, write_nodes, update_self]
    have hFother : ∀ a, a ≠ i → a ≠ new → F.nodes a = t.nodes a := by
      intro a hai hanew
      rw [← hF, write_nodes, update_of_ne hanew, setDown_nodes, update_of_ne hai,
        hsame a hanew]
    have hs₁ : ∀ a ∈ s₁, a ≠ i ∧ a ≠ new := fun a ha =>
      ⟨fun heq => hopen.root_notMem (.inr (heq ▸ ha)),
        fun heq => hopen.used a (.inr (.inr ha)) (heq ▸ hfree)⟩
    refine h.changed {new} (by simpa using hfree) (by rw [← hF]; exact hsound)
      (by rw [← hF]; simpa using hfree') (fun a ha hanew => ?_)
      (stored_fork.mpr ⟨hFi.1, {new}, s₁, ?_, ?_, rfl, ?_, ?_, ?_⟩) ?_
    · exact hFother a (fun heq => ha (.inl heq)) hanew
    · rw [hFi.2.1]
      refine ⟨hFnew ▸ ⟨rfl, rfl, rfl⟩, ∅, ∅, ?_, ?_, by simp, by simp, by simp, by simp⟩
      · exact ⟨by rw [hFnew], rfl⟩
      · exact ⟨by rw [hFnew], rfl⟩
    · rw [hFi.2.2]
      exact hopen.aside.frame fun a ha => hFother a (hs₁ a ha).1 (hs₁ a ha).2
    · rintro (heq | hmem)
      · exact hnew heq
      · exact (hs₁ i hmem).1 rfl
    · rintro (heq | hmem)
      · exact h.sound.ne_zero hfree heq.symm
      · exact hopen.zero_notMem (.inr hmem)
    · exact Set.disjoint_singleton_left.mpr fun hmem => (hs₁ new hmem).2 rfl
    · rintro a (rfl | rfl | ha)
      · exact .inl (.inl rfl)
      · exact .inr rfl
      · exact .inl (.inr (.inr ha))
  · intro hroom
    have hzero : t.alloc.room = 0 := Nat.lt_one_iff.mp hroom
    obtain ⟨e, he⟩ := getNode_full h.sound hzero
    exact ⟨e, by rw [he]; rfl⟩

theorem adds_apart (hnot : ¬ p.Covers q) (hcovers : ¬ q.Covers p) :
    t.Adds p k (fuel + 1) (.node q u l r) i s := by
  have his : (t.nodes i).Is q u := h.stored.1
  have hne : q ≠ p := fun heq => hnot (heq ▸ covers_refl)
  have hlonger : ¬ (q.ip = p.ip ∧ p.length < q.length) := fun hl => hnot (covers_of_longer hl.1 hl.2)
  obtain ⟨b, hq, hp⟩ : ∃ b, (common q p).Side (!b) q ∧ (common q p).Side b p := by
    obtain ⟨b, hq, hp⟩ := common_sides hcovers hnot
    exact ⟨!b, by rwa [Bool.not_not], hp⟩
  have hinsert : insert p k (.node q u l r) =
      fork (common q p) none (!b) (.node q u l r) (leaf p (some k)) := by
    rw [PathTree.insert, if_neg hne, if_neg hnot, if_neg hcovers, hp.2.2, fork_not]
  have hnodes : newNodes p (.node q u l r) = 2 := by
    rw [newNodes, if_neg hne, if_neg hnot, if_neg hcovers]
  rw [Adds, hinsert, addFrom_split his hne hlonger hcovers]
  constructor
  · intro hroom
    obtain ⟨new, t₁, hget, hfree, hsound, hroom₁, hfree₁, hsame₁⟩ := getNode_ok h.sound (by omega)
    have hnew : i ≠ new := fun heq => h.used i h.stored.root_mem (heq ▸ hfree)
    obtain ⟨new₂, t₂, hget₂, hfree', hsound₂, -, hfree₂, hsame₂⟩ :=
      getNode_ok (t := t₁.split i new (t.nodes i) (common q p)) hsound
        (show 0 < t₁.alloc.room by omega)
    obtain ⟨hfree', hnew₂⟩ := (hfree₁ new₂).mp hfree'
    have hi₂ : i ≠ new₂ := fun heq => h.used i h.stored.root_mem (heq ▸ hfree')
    refine ⟨_, insert i (insert new (s \ {i}) ∪ {new₂}),
      addSplit_apart his hp hcovers hget (hsame₁ i hnew) hnew hget₂, ?_⟩
    generalize hF : ((t₂.setTrie new₂ p.ip p.length k.1 0 0).setDown i b new₂).setDown i (!b) new =
      F
    have hF₂ : F.nodes new₂ = ⟨p.ip, keyOf (some k), p.length, 0, 0⟩ := by
      rw [← hF, show k.1 = keyOf (some k) from rfl, setTrie_eq, setDown_nodes,
        update_of_ne hi₂.symm, setDown_nodes, update_of_ne hi₂.symm, write_nodes,
        update_self]
    have hFother : ∀ a, a ≠ i → a ≠ new₂ → F.nodes a =
        (t₁.split i new (t.nodes i) (common q p)).nodes a := by
      intro a hai ha₂
      rw [← hF, setDown_nodes, update_of_ne hai, setDown_nodes, update_of_ne hai,
        setTrie, write_nodes, update_of_ne ha₂, hsame₂ a ha₂]
    have hFi : (F.nodes i).Is (common q p) none ∧ (F.nodes i).down (!b) = new ∧
        (F.nodes i).down b = new₂ := by
      have hold : (t₂.setTrie new₂ p.ip p.length k.1 0 0).nodes i =
          ⟨(common q p).ip, 0, (common q p).length, 0, 0⟩ := by
        rw [setTrie, write_nodes, update_of_ne hi₂, hsame₂ i hi₂, split, write_nodes,
          update_self]
      rw [← hF]
      simp only [setDown_nodes, update_self, hold]
      cases b <;> exact ⟨⟨rfl, rfl, rfl⟩, rfl, rfl⟩
    have hFnew : F.nodes new = t.nodes i := by
      rw [hFother new hnew.symm hnew₂.symm, split, write_nodes, update_of_ne hnew.symm,
        write_nodes, update_self]
    have hFs : ∀ a, a ≠ i → a ≠ new → a ≠ new₂ → F.nodes a = t.nodes a := by
      intro a hai hanew ha₂
      rw [hFother a hai ha₂, split, write_nodes, update_of_ne hai, write_nodes,
        update_of_ne hanew, hsame₁ a hanew]
    refine h.changed {new, new₂} ?_ (by rw [← hF]; exact hsound₂) ?_
      (fun a ha hanew => ?_) (h.push_down {new₂} hfree ?_ ?_ hFi.1 hFi.2.1 hFnew
        fun a ha hai => ?_) ?_
    · rintro a (rfl | rfl)
      · exact hfree
      · exact hfree'
    · intro a
      rw [← hF]
      refine (hfree₂ a).trans ?_
      rw [split, write_alloc, write_alloc, hfree₁ a]
      simp only [mem_insert_iff, mem_singleton_iff]
      tauto
    · rw [mem_insert_iff, mem_singleton_iff, not_or] at hanew
      exact hFs a (ne_of_mem_of_not_mem h.stored.root_mem ha).symm hanew.1 hanew.2
    · rw [Bool.not_not, hFi.2.2]
      refine ⟨hF₂ ▸ ⟨rfl, rfl, rfl⟩, ∅, ∅, ?_, ?_, by simp, by simp, by simp, by simp⟩
      · exact ⟨by rw [hF₂], rfl⟩
      · exact ⟨by rw [hF₂], rfl⟩
    · rintro a rfl
      exact ⟨hfree', hnew₂⟩
    · exact hFs a hai (fun heq => h.used a ha (heq ▸ hfree)) fun heq => h.used a ha (heq ▸ hfree')
    · rintro a (rfl | (rfl | ha) | rfl)
      · exact .inl h.stored.root_mem
      · exact .inr (.inl rfl)
      · exact .inl ha.1
      · exact .inr (.inr rfl)
  · intro hroom
    rcases Nat.eq_zero_or_pos t.alloc.room with hzero | hpos
    · obtain ⟨e, he⟩ := getNode_full h.sound hzero
      exact ⟨e, by rw [addSplit, he]; rfl⟩
    · obtain ⟨new, t₁, hget, hfree, hsound, hroom₁, hfree₁, hsame₁⟩ := getNode_ok h.sound hpos
      have hnew : i ≠ new := fun heq => h.used i h.stored.root_mem (heq ▸ hfree)
      obtain ⟨e, he⟩ := getNode_full (t := t₁.split i new (t.nodes i) (common q p)) hsound
        (show t₁.alloc.room = 0 by omega)
      refine ⟨e, ?_⟩
      rw [addSplit_eq his hcovers hget (hsame₁ i hnew) hnew]
      simp only [if_neg hp.1.ne]
      rw [bind_of_eq_ok (Ip4.getBit_ok (hp.1.trans_le p.length_le)), he]
      rfl

end

/-- **The loop of `add` inserts the prefix in the subtree that it is in.** -/
theorem addFrom_spec (h : t.Owns T i s) (hdescends : Descends fuel T) : t.Adds p k fuel T i s := by
  induction hdescends generalizing i s with
  | @node fuel q u l r hT _ ih =>
    by_cases heq : q = p
    · subst heq
      have hinsert : insert q k (.node q u l r) = .node q (some k) l r := by
        rw [PathTree.insert, if_pos rfl]
      have hnodes : newNodes q (.node q u l r) = 0 := by rw [newNodes, if_pos rfl]
      rw [Adds, hnodes, hinsert]
      exact ⟨fun _ => addFrom_here h, fun hroom => absurd hroom (Nat.not_lt_zero _)⟩
    by_cases hcov : p.Covers q
    · exact adds_parent h heq hcov
    by_cases hbelow : q.Covers p
    · generalize hb : p.ip.getMsbD q.length = b
      by_cases hnil : (bif b then r else l) = .nil
      · exact adds_leaf h heq hcov hbelow hb hnil
      have hfork := h
      rw [node_eq_fork b] at hfork
      obtain ⟨s₀, s₁, rfl, hopen⟩ := hfork.opened
      have hdown : (t.nodes i).down b ≠ 0 := fun hzero =>
        hnil ((hopen.below.stored.eq_nil_iff fun hmem => hopen.zero_notMem (.inl hmem)).mpr hzero)
      have his := h.stored.1
      have hlonger : ¬ (q.ip = p.ip ∧ p.length < q.length) := fun hl =>
        hcov (covers_of_longer hl.1 hl.2)
      have hlt : q.length < 32 := (hbelow.length_lt heq).trans_le p.length_le
      have hadd : addFrom p.ip p.length k.1 (fuel + 1) t i =
          addFrom p.ip p.length k.1 fuel t ((t.nodes i).down b) := by
        rw [addFrom, his.1, his.2.1, if_neg fun h => heq ((node_is_iff p q).mp h),
          if_neg hlonger, if_pos ((on_path_iff hlonger).mpr hbelow),
          bind_of_eq_ok (Ip4.getBit_ok hlt), hb, if_pos hdown]
      obtain ⟨hok, hfull⟩ := ih b hnil hopen.below
      rw [Adds, newNodes_below heq hcov hbelow hb, insert_below heq hcov hbelow hb, hadd]
      refine ⟨fun hroom => ?_, hfull⟩
      obtain ⟨t', s', hrun, hown, hchanged⟩ := hok hroom
      exact ⟨t', _, hrun, hopen.closed hown hchanged⟩
    · exact adds_apart h hcov hbelow

/-! ## Removing a prefix -/

/-- What a removal does to a subtree that keeps its root. -/
def Removes (t : LpmTrie) (p : Prefix 32) (fuel prevt : Nat) (T : PathTree 32 LpmKey) (i : Nat)
    (s : Set Nat) : Prop :=
  ∃ t' s', removeFrom p.ip p.length fuel t prevt i = .ok t' ∧ t'.Owns (erase p T) i s' ∧
    t.Changed t' s s'

/-- "it's an internal node just remove the key". -/
theorem Owns.setKey_zero (h : t.Owns (.node p u l r) i s) :
    (t.setKey i 0).Owns (.node p none l r) i s ∧ t.Changed (t.setKey i 0) s s := by
  obtain ⟨⟨hip, hlength, -⟩, s₀, s₁, hl, hr, hs, hi, hz, hdisj⟩ := h.stored
  have hself : (t.setKey i 0).nodes i = { t.nodes i with key := 0 } := update_self ..
  have hother : ∀ a, a ≠ i → (t.setKey i 0).nodes a = t.nodes a :=
    fun a ha => update_of_ne ha _ _
  refine h.changed ∅ (fun _ hmem => absurd hmem (notMem_empty _)) h.sound
    (fun a => by simp [setKey]) (fun a ha _ => ?_)
    ⟨hself ▸ ⟨hip, hlength, rfl⟩, s₀, s₁, ?_, ?_, hs, hi, hz, hdisj⟩ fun a ha => .inl ha
  · exact hother a (ne_of_mem_of_not_mem h.stored.root_mem ha).symm
  · rw [hself]
    exact hl.frame fun a ha => hother a (ne_of_mem_of_not_mem (mem_union_left _ ha) hi)
  · rw [hself]
    exact hr.frame fun a ha => hother a (ne_of_mem_of_not_mem (mem_union_right _ ha) hi)

/-- "pull that up the tree". -/
theorem Opened.pullUp {q' : Prefix 32} {u' : Option LpmKey} {l' r' : PathTree 32 LpmKey}
    (h : t.Opened q u b (.node q' u' l' r') S i s₀ s₁) :
    (t.pullUp i ((t.nodes i).down b)).Owns (.node q' u' l' r') i
      (insert i (s₀ \ {(t.nodes i).down b})) ∧
    t.Changed (t.pullUp i ((t.nodes i).down b)) (insert i (s₀ ∪ s₁))
      (insert i (s₀ \ {(t.nodes i).down b})) := by
  have hstored := h.below.stored
  generalize hj : (t.nodes i).down b = j at *
  have hmem : j ∈ s₀ := hstored.root_mem
  have hi₀ : i ∉ s₀ := fun hmem => h.root_notMem (.inl hmem)
  have hij : j ≠ i := ne_of_mem_of_not_mem hmem hi₀
  have hzero : j ≠ 0 := ne_of_mem_of_not_mem hmem fun hz => h.zero_notMem (.inl hz)
  have husedj : ¬ t.alloc.Free j := h.used j (.inr (.inl hmem))
  obtain ⟨hsound, hfree⟩ := h.below.sound.free husedj hzero
  have hpull : t.pullUp i j = (t.write i (t.nodes j)).returnNode j := by
    rw [LpmTrie.pullUp, copyNode_eq hstored.1]
  rw [hpull]
  have hself : ((t.write i (t.nodes j)).returnNode j).nodes i = t.nodes j :=
    update_self ..
  have hother : ∀ a, a ≠ i → ((t.write i (t.nodes j)).returnNode j).nodes a = t.nodes a :=
    fun a ha => update_of_ne ha _ _
  refine ⟨⟨?_, ?_, hsound⟩, ⟨fun a ha hused => ⟨?_, fun hfr => ?_⟩, ?_⟩⟩
  · exact hstored.relocate hself (fun a ha _ => hother a (ne_of_mem_of_not_mem ha hi₀)) hi₀
  · rintro a (rfl | ⟨ha, hne⟩) hfr
    · rcases (hfree a).mp hfr with hfr | heq
      · exact h.used a (.inl rfl) hfr
      · exact hij heq.symm
    · rcases (hfree a).mp hfr with hfr | heq
      · exact h.used a (.inr (.inl ha)) hfr
      · exact hne heq
  · exact hother a fun heq => ha (.inl heq)
  · rcases (hfree a).mp hfr with hfr | heq
    · exact hused hfr
    · exact ha (.inr (.inl (heq ▸ hmem)))
  · rintro a (rfl | ⟨ha, -⟩)
    · exact .inl (.inl rfl)
    · exact .inl (.inr (.inl ha))

theorem Opened.cutLeaf (h : t.Opened q u b (.node p u' .nil .nil) S i s₀ s₁) :
    ((t.setDown i b 0).returnNode ((t.nodes i).down b)).Owns (fork q u b .nil S) i
      (insert i (∅ ∪ s₁)) ∧
    t.Changed ((t.setDown i b 0).returnNode ((t.nodes i).down b)) (insert i (s₀ ∪ s₁))
      (insert i (∅ ∪ s₁)) := by
  have hstored := h.below.stored
  generalize hj : (t.nodes i).down b = j at *
  have hmem : j ∈ s₀ := hstored.root_mem
  have hzero : j ≠ 0 := ne_of_mem_of_not_mem hmem fun hz => h.zero_notMem (.inl hz)
  have husedj : ¬ t.alloc.Free j := h.used j (.inr (.inl hmem))
  obtain ⟨hsound, hfree⟩ := h.below.sound.free husedj hzero
  generalize hF : (t.setDown i b 0).returnNode j = F
  have halloc : F.alloc = t.alloc.free j := by rw [← hF]; rfl
  have hother : ∀ a, a ≠ i → F.nodes a = t.nodes a := by
    intro a ha
    rw [← hF]
    exact update_of_ne ha _ _
  have hFi : (F.nodes i).Is q u ∧ (F.nodes i).down b = 0 ∧
      (F.nodes i).down (!b) = (t.nodes i).down !b := by
    rw [← hF]
    exact setDown_here h.here
  have hne : ∀ a ∈ s₁, a ≠ i ∧ a ≠ j := fun a ha =>
    ⟨fun heq => h.root_notMem (.inr (heq ▸ ha)),
      fun heq => Set.disjoint_left.mp h.disjoint hmem (heq ▸ ha)⟩
  have hij : i ≠ j := fun heq => h.root_notMem (.inl (heq ▸ hmem))
  refine ⟨⟨stored_fork.mpr ⟨hFi.1, ∅, s₁, ⟨hFi.2.1, rfl⟩, ?_, rfl, ?_, ?_, ?_⟩, ?_, ?_⟩,
    ⟨fun a ha hused => ⟨?_, fun hfr => ?_⟩, ?_⟩⟩
  · rw [hFi.2.2]
    exact h.aside.frame fun a ha => hother a (hne a ha).1
  · rw [empty_union]
    exact fun hi => (hne i hi).1 rfl
  · rw [empty_union]
    exact fun hz => h.zero_notMem (.inr hz)
  · exact empty_disjoint s₁
  · rw [empty_union, halloc]
    rintro a (rfl | ha) hfr
    · exact ((hfree a).mp hfr).elim (h.used a (.inl rfl)) hij
    · exact ((hfree a).mp hfr).elim (h.used a (.inr (.inr ha))) (hne a ha).2
  · rw [halloc]
    exact hsound
  · exact hother a fun heq => ha (.inl heq)
  · rw [halloc] at hfr
    exact ((hfree a).mp hfr).elim hused fun heq => ha (.inr (.inl (heq ▸ hmem)))
  · rw [empty_union]
    rintro a (rfl | ha)
    · exact .inl (.inl rfl)
    · exact .inl (.inr (.inr ha))

theorem removes_here (h : t.Owns (.node p u l r) i s) (hchild : ¬ (l = .nil ∧ r = .nil))
    {prevt : Nat} : t.Removes p (fuel + 1) prevt (.node p u l r) i s := by
  have his := h.stored.1
  have hrm : removeFrom p.ip p.length (fuel + 1) t prevt i =
      if (t.nodes i).left = 0 ∧ (t.nodes i).right = 0 then
        if i = 0 then .ok (t.setKey i 0)
        else if (t.nodes prevt).left = i then .ok ((t.setDown prevt false 0).returnNode i)
        else .ok ((t.setDown prevt true 0).returnNode i)
      else if (t.nodes i).left ≠ 0 ∧ (t.nodes i).right ≠ 0 then .ok (t.setKey i 0)
      else if (t.nodes i).left = 0 then .ok (t.pullUp i (t.nodes i).right)
      else .ok (t.pullUp i (t.nodes i).left) := by
    rw [removeFrom, if_pos ⟨his.1, his.2.1⟩]
  obtain ⟨s₀, s₁, rfl, hopen⟩ := Owns.opened (b := false) (T := l) (S := r) (u := u) (q := p) h
  have hleft := hopen.below.stored.eq_nil_iff fun hmem => hopen.zero_notMem (.inl hmem)
  have hright := hopen.aside.eq_nil_iff fun hmem => hopen.zero_notMem (.inr hmem)
  cases l with
  | nil =>
    cases r with
    | nil => exact absurd ⟨rfl, rfl⟩ hchild
    | node q' u' l' r' =>
      have hl : (t.nodes i).left = 0 := hleft.mp rfl
      have hr : (t.nodes i).right ≠ 0 := fun hz => nomatch hright.mpr hz
      rw [if_neg (fun hb => hr hb.2), if_neg (fun hb => hb.1 hl), if_pos hl] at hrm
      obtain ⟨s₀', s₁', hs, hopen'⟩ :=
        Owns.opened (b := true) (T := .node q' u' l' r') (S := .nil) (u := u) (q := p) h
      obtain ⟨hown, hchanged⟩ := hopen'.pullUp
      rw [← hs] at hchanged
      refine ⟨_, _, hrm, ?_, hchanged⟩
      rw [erase_here]
      exact hown
  | node q' u' l' r' =>
    have hl : (t.nodes i).left ≠ 0 := fun hz => nomatch hleft.mpr hz
    cases r with
    | nil =>
      have hr : (t.nodes i).right = 0 := hright.mp rfl
      rw [if_neg (fun hb => hl hb.1), if_neg (fun hb => hb.2 hr), if_neg hl] at hrm
      obtain ⟨hown, hchanged⟩ := hopen.pullUp
      refine ⟨_, _, hrm, ?_, hchanged⟩
      rw [erase_here]
      exact hown
    | node q'' u'' l'' r'' =>
      have hr : (t.nodes i).right ≠ 0 := fun hz => nomatch hright.mpr hz
      rw [if_neg (fun hb => hl hb.1), if_pos ⟨hl, hr⟩] at hrm
      obtain ⟨hown, hchanged⟩ := h.setKey_zero
      refine ⟨_, _, hrm, ?_, hchanged⟩
      rw [erase_here]
      exact hown

/-- **The loop of `remove` removes the prefix from the subtree that it is in**, unless it is
all of it. -/
theorem removeFrom_spec (prevt : Nat) (h : t.Owns T i s) (hmem : (p, u) ∈ T.nodes)
    (hne : erase p T ≠ .nil) (hdescends : Descends fuel T) : t.Removes p fuel prevt T i s := by
  induction hdescends generalizing i s prevt with
  | @node fuel q v l r hT hbelows ih =>
    by_cases heq : q = p
    · subst heq
      refine removes_here h ?_
      rintro ⟨rfl, rfl⟩
      exact hne erase_here
    · obtain ⟨hbelow, hhalf⟩ := hT.mem_half hmem heq
      generalize hb : p.ip.getMsbD q.length = b at hhalf
      have hfork := h
      rw [node_eq_fork b] at hfork
      obtain ⟨s₀, s₁, rfl, hopen⟩ := hfork.opened
      have his := h.stored.1
      have hlt : q.length < 32 := (hbelow.length_lt heq).trans_le p.length_le
      have hnil : (bif b then r else l) ≠ .nil := by
        intro hnil
        rw [hnil] at hhalf
        cases hhalf
      have hdown : (t.nodes i).down b ≠ 0 := fun hzero =>
        hnil ((hopen.below.stored.eq_nil_iff fun hmem => hopen.zero_notMem (.inl hmem)).mpr hzero)
      have hrm : removeFrom p.ip p.length (fuel + 1) t prevt i =
          removeFrom p.ip p.length fuel t i ((t.nodes i).down b) := by
        rw [removeFrom, his.1, his.2.1, if_neg fun h => heq ((node_is_iff p q).mp h),
          bind_of_eq_ok (Ip4.getBit_ok hlt), hb, if_pos hdown]
      rw [Removes, erase_below heq hb, hrm]
      by_cases hleaf : erase p (bif b then r else l) = .nil
      · rw [hleaf]
        cases hT' : (bif b then r else l) with
        | nil => exact absurd hT' hnil
        | node q' u' l' r' =>
          have hbelow' := hbelows b hnil
          rw [hT'] at hopen hleaf hbelow'
          obtain ⟨rfl, rfl, rfl⟩ := eq_leaf_of_erase_eq_nil hleaf
          cases hbelow'
          obtain ⟨hown, hchanged⟩ := hopen.cutLeaf
          refine ⟨_, _, ?_, hown, hchanged⟩
          obtain ⟨his', -, -, ⟨hl, -⟩, ⟨hr, -⟩, -⟩ := hopen.below.stored
          rw [removeFrom, if_pos ⟨his'.1, his'.2.1⟩, if_pos ⟨hl, hr⟩, if_neg hdown]
          cases b
          · exact if_pos rfl
          · exact if_neg hopen.down_ne
      · obtain ⟨t', s', hrun, hown, hchanged⟩ := ih b hnil i hopen.below hhalf hleaf
        exact ⟨t', _, hrun, hopen.closed hown hchanged⟩

/-- **The loop of `remove` changes nothing if the prefix has no node.** It ends, or raises at an
address that its bits lead to, as no bit is left there. -/
theorem removeFrom_absent (prevt : Nat) (h : Stored t.nodes T i s) (hdescends : Descends fuel T)
    (habsent : ∀ u, (p, u) ∉ T.nodes) :
    (¬ ∃ a, T.LeadsTo p.ip a) ∧ removeFrom p.ip p.length fuel t prevt i = .ok t ∨
      (∃ a, T.LeadsTo p.ip a) ∧
        removeFrom p.ip p.length fuel t prevt i = .error .assertion := by
  induction hdescends generalizing i s prevt with
  | @node fuel q v l r hT _ ih =>
    have his := h.1
    have hqp : q ≠ p := fun heq => habsent v (heq ▸ mem_cons_self)
    rw [removeFrom, his.1, his.2.1, if_neg fun heq => hqp ((node_is_iff p q).mp heq)]
    by_cases hlt : q.length < 32
    · rw [bind_of_eq_ok (Ip4.getBit_ok hlt)]
      simp only [hT.leadsTo_iff hlt]
      generalize hb : p.ip.getMsbD q.length = b
      obtain ⟨s₀, hhalf, hnil⟩ := h.half b
      by_cases hT' : (bif b then r else l) = .nil
      · rw [if_neg (not_not.mpr (hnil.mp hT')), hT']
        exact .inl ⟨fun ⟨a, ⟨u, hmem⟩, _⟩ => (not_mem_nil hmem).elim, rfl⟩
      · rw [if_pos fun hzero => hT' (hnil.mpr hzero)]
        exact ih b hT' i hhalf fun u hmem => habsent u (mem_of_mem_half hmem)
    · rw [Ip4.getBit, if_neg hlt]
      exact .inr ⟨⟨_, hT.leadsTo_root (le_antisymm q.length_le (not_lt.mp hlt)) _⟩, rfl⟩

/-! ## Reading -/

/-- The entry of a node that has a key. -/
def entryOf (n : Prefix 32 × Option LpmKey) : Option LpmEntry :=
  n.2.map fun k => ⟨n.1.ip, k.1, n.1.length⟩

/-- **The traversal yields the nodes that have a key, in preorder.** -/
theorem traverse_eq (h : Stored t.nodes T i s) (hdescends : Descends fuel T) :
    t.traverse fuel i = .ok (T.nodes.filterMap entryOf) := by
  induction hdescends generalizing i s with
  | @node fuel q v l r _ _ ih =>
    obtain ⟨hip, hlength, hkey⟩ := h.1
    have hown : (if (t.nodes i).key ≠ 0 then
        [(⟨(t.nodes i).ip, (t.nodes i).key, (t.nodes i).length⟩ : LpmEntry)] else []) =
        (entryOf (q, v)).toList := by
      rw [hip, hlength, hkey]
      cases v with
      | none => rfl
      | some k => exact if_pos k.2
    have hhalf b : (if (t.nodes i).down b ≠ 0 then t.traverse fuel ((t.nodes i).down b)
        else .ok []) = .ok ((bif b then r else l).nodes.filterMap entryOf) := by
      obtain ⟨s₀, hS, hnil⟩ := h.half b
      by_cases hT' : (bif b then r else l) = .nil
      · rw [if_neg (not_not.mpr (hnil.mp hT')), hT']
        rfl
      · rw [if_pos (mt hnil.mpr hT'), ih b hT' hS]
    rw [traverse]
    simp only [hown]
    refine (bind_of_eq_ok (hhalf false)).trans ((bind_of_eq_ok (hhalf true)).trans ?_)
    rw [nodes_node, filterMap_cons, filterMap_append]
    cases entryOf (q, v) <;> rfl

/-- **The search ends at the node that a descent ends at.** -/
theorem searchFrom_spec (a : BitVec 32) (prevt : Option Nat) (h : Stored t.nodes T i s)
    (hdescends : Descends fuel T) :
    ∃ res, t.searchFrom a 32 false fuel prevt i = .ok res ∧
      match probe a T with
      | some (q, u) => ∃ j, res = some j ∧ (t.nodes j).Is q u
      | none => res = prevt := by
  induction hdescends generalizing i s prevt with
  | @node fuel q v l r _ _ ih =>
    have his : (t.nodes i).Is q v := h.1
    have hcond : Ip4.masked (t.nodes i).ip (t.nodes i).length ≠ Ip4.masked a (t.nodes i).length ↔
        ¬ q.Contains a := by
      rw [his.1, his.2.1, Ip4.masked_eq q.length_le, Ip4.masked_eq q.length_le, q.kept, Contains,
        eq_comm]
    rw [searchFrom, probe_node]
    by_cases ha : q.Contains a
    · rw [if_neg (fun hne => hcond.mp hne ha), if_pos ha, if_neg (by
        rw [his.2.1]
        exact not_lt.mpr q.length_le)]
      by_cases hfull : q.length = 32
      · rw [if_pos (his.2.1.trans hfull), if_pos hfull]
        exact ⟨some i, rfl, i, rfl, his⟩
      · have hlt : q.length < 32 := lt_of_le_of_ne q.length_le hfull
        rw [if_neg fun heq => hfull (his.2.1.symm.trans heq), if_neg hfull, his.2.1]
        rw [bind_of_eq_ok (Ip4.getBit_ok hlt)]
        generalize hb : a.getMsbD q.length = b
        generalize hprev : (if (t.nodes i).key ≠ 0 ∨ false = true then some i else prevt) = prevt'
        have hprev' : match (if v.isSome then some (q, v) else none : Option (Prefix 32 × _)) with
            | some (q, u) => ∃ j, prevt' = some j ∧ (t.nodes j).Is q u
            | none => prevt' = prevt := by
          rw [← hprev, his.2.2]
          cases v with
          | none => rfl
          | some k => exact ⟨i, if_pos (.inl k.2), his⟩
        obtain ⟨s₀, hhalf, hnil⟩ := h.half b
        have hdeeper : ∃ res, (if (t.nodes i).down b ≠ 0 then
              t.searchFrom a 32 false fuel prevt' ((t.nodes i).down b) else .ok prevt') = .ok res ∧
            match probe a (bif b then r else l) with
            | some (q, u) => ∃ j, res = some j ∧ (t.nodes j).Is q u
            | none => res = prevt' := by
          by_cases hT' : (bif b then r else l) = .nil
          · rw [if_neg (not_not.mpr (hnil.mp hT')), hT']
            exact ⟨prevt', rfl, rfl⟩
          · rw [if_pos fun hzero => hT' (hnil.mpr hzero)]
            exact ih b hT' _ hhalf
        obtain ⟨res, hres, hfound⟩ := hdeeper
        refine ⟨res, hres, ?_⟩
        cases hprobe : probe a (bif b then r else l) with
        | some n =>
          rw [hprobe] at hfound
          exact hfound
        | none =>
          rw [hprobe] at hfound
          obtain rfl : res = prevt' := hfound
          exact hprev'
    · rw [if_pos (hcond.mpr ha), if_neg ha]
      exact ⟨prevt, rfl, rfl⟩

/-- The indexes of the nodes, in preorder. -/
def indexes (t : LpmTrie) : Nat → Nat → List Nat
  | 0, _ => []
  | fuel + 1, i => i :: ((if (t.nodes i).left ≠ 0 then indexes t fuel (t.nodes i).left else []) ++
      (if (t.nodes i).right ≠ 0 then indexes t fuel (t.nodes i).right else []))

theorem forall₂_indexes (h : Stored t.nodes T i s) (hdescends : Descends fuel T) :
    List.Forall₂ (fun j n => (t.nodes j).Is n.1 n.2) (t.indexes fuel i) T.nodes := by
  induction hdescends generalizing i s with
  | @node fuel q v l r _ _ ih =>
    have hhalf b : List.Forall₂ (fun j n => (t.nodes j).Is n.1 n.2)
        (if (t.nodes i).down b ≠ 0 then t.indexes fuel ((t.nodes i).down b) else [])
        (bif b then r else l).nodes := by
      obtain ⟨s₀, hS, hnil⟩ := h.half b
      by_cases hT' : (bif b then r else l) = .nil
      · rw [if_neg (not_not.mpr (hnil.mp hT')), hT']
        exact .nil
      · rw [if_pos (mt hnil.mpr hT')]
        exact ih b hT' hS
    exact .cons h.1 (rel_append (hhalf false) (hhalf true))

/-- How many new nodes the loop of `add` takes. -/
def nodesTaken (t : LpmTrie) (ip : BitVec 32) (length : Nat) : Nat → Nat → Nat
  | 0, _ => 0
  | fuel + 1, i =>
    let n := t.nodes i
    if n.ip = ip ∧ n.length = length then 0
    else if n.ip = ip ∧ length < n.length then 1
    else if n.ip = Ip4.masked ip n.length then
      let d := n.down (ip.getMsbD n.length)
      if d ≠ 0 then nodesTaken t ip length fuel d else 1
    else if length ≤ Ip4.commonlength n.ip ip then 1
    else 2

theorem nodesTaken_eq (h : Stored t.nodes T i s) (hdescends : Descends fuel T) :
    t.nodesTaken p.ip p.length fuel i = newNodes p T := by
  induction hdescends generalizing i s with
  | @node fuel q v l r _ _ ih =>
    have his : (t.nodes i).Is q v := h.1
    rw [nodesTaken]
    simp only [his.1, his.2.1, node_is_iff p q]
    by_cases heq : q = p
    · rw [if_pos heq, newNodes, if_pos heq]
    rw [if_neg heq]
    by_cases hlonger : q.ip = p.ip ∧ p.length < q.length
    · rw [if_pos hlonger, newNodes, if_neg heq, if_pos (covers_of_longer hlonger.1 hlonger.2)]
    rw [if_neg hlonger]
    simp only [on_path_iff hlonger]
    by_cases hbelow : q.Covers p
    · have hnot : ¬ p.Covers q := fun hc => heq (hbelow.antisymm hc)
      generalize hb : p.ip.getMsbD q.length = b
      obtain ⟨s₀, hhalf, hnil⟩ := h.half b
      rw [if_pos hbelow, newNodes_below heq hnot hbelow hb]
      by_cases hT' : (bif b then r else l) = .nil
      · rw [if_neg (not_not.mpr (hnil.mp hT')), hT']
        rfl
      · rw [if_pos fun hzero => hT' (hnil.mpr hzero)]
        exact ih b hT' hhalf
    · rw [if_neg hbelow, newNodes, if_neg heq, Ip4.commonlength_eq, if_neg hbelow]
      by_cases hcov : p.Covers q
      · rw [if_pos hcov, if_pos ((le_commonBits_iff p.length_le).mpr ?_)]
        rw [hcov.2, p.kept]
      · rw [if_neg hcov, if_neg fun hle => ?_]
        have hlt : q.length < p.length := by
          by_contra hge
          refine hcov ⟨by omega, ?_⟩
          rw [Contains, (le_commonBits_iff p.length_le).mp hle, p.kept]
        refine hbelow ⟨hlt.le, ?_⟩
        rw [Contains, ← (le_commonBits_iff q.length_le).mp (hlt.le.trans hle), q.kept]

end LpmTrie

end Snabb
