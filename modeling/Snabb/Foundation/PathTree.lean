import Snabb.Foundation.BitPrefix

/-!
# Path-compressed trees

A path-compressed tree is a binary tree of prefixes in which every prefix covers those below
it, with the next bit deciding between left and right. A node may hold a value or none. There
is at most one node for a prefix, and a preorder walk meets them in the order of their
addresses.

- `pairwise_nodes`: the order of the walk;
- `probe_eq_some`, `probe_eq_none`: a descent along a string finds the longest value, unless the
  string has a node of its own without a value.
-/

namespace Foundation

open List Option
open Prefix

/-- A tree of prefixes of width `w`. -/
inductive PathTree (w : Nat) (V : Type) where
  | nil
  | node (at' : Prefix w) (value : Option V) (left right : PathTree w V)

namespace PathTree

variable {w : Nat} {V : Type}

/-- The nodes in preorder. -/
def nodes : PathTree w V → List (Prefix w × Option V)
  | nil => []
  | node p u l r => (p, u) :: (l.nodes ++ r.nodes)

/-- All nodes are below `c` on the side of `b`. -/
def On (c : Prefix w) (b : Bool) (t : PathTree w V) : Prop := ∀ n ∈ t.nodes, c.Side b n.1

/-- Left and right are as the next bit says. -/
def Formed : PathTree w V → Prop
  | nil => True
  | node p _ l r => l.On p false ∧ r.On p true ∧ l.Formed ∧ r.Formed

/-- A tree of one node. -/
def leaf (p : Prefix w) (u : Option V) : PathTree w V := node p u nil nil

/-- A node with the subtree `t` on the side of `b` and `s` on the other. -/
def fork (p : Prefix w) (u : Option V) (b : Bool) (t s : PathTree w V) : PathTree w V :=
  match b with
  | false => node p u t s
  | true => node p u s t

@[simp] theorem nodes_node {p : Prefix w} {u : Option V} {l r : PathTree w V} :
    (node p u l r).nodes = (p, u) :: (l.nodes ++ r.nodes) := rfl

@[simp] theorem nodes_leaf {p : Prefix w} {u : Option V} : (leaf p u).nodes = [(p, u)] := rfl

variable {p q c : Prefix w} {u v' : Option V} {v : V} {b : Bool} {t l r s : PathTree w V} {a : BitVec w}
  {n : Prefix w × Option V}

theorem mem_nodes :
    n ∈ (node p u l r).nodes ↔ n = (p, u) ∨ n ∈ l.nodes ∨ n ∈ r.nodes := by
  rw [nodes_node, mem_cons, mem_append]

theorem mem_left (hn : n ∈ l.nodes) : n ∈ (node p u l r).nodes :=
  mem_nodes.mpr (.inr (.inl hn))

theorem mem_right (hn : n ∈ r.nodes) : n ∈ (node p u l r).nodes :=
  mem_nodes.mpr (.inr (.inr hn))

/-- A fork, seen from its other side. -/
theorem fork_not : fork p u (!b) t s = fork p u b s t := by
  cases b <;> rfl

theorem mem_fork : n ∈ (fork p u b t s).nodes ↔ n = (p, u) ∨ n ∈ t.nodes ∨ n ∈ s.nodes := by
  cases b with
  | false => simp [fork]
  | true =>
    simp only [fork, nodes_node, mem_cons, mem_append]
    rw [or_comm (a := n ∈ s.nodes)]

theorem formed_fork : (fork p u b t s).Formed ↔ t.On p b ∧ s.On p (!b) ∧ t.Formed ∧ s.Formed := by
  cases b with
  | false => rfl
  | true =>
    constructor <;> (rintro ⟨h₁, h₂, h₃, h₄⟩; exact ⟨h₂, h₁, h₄, h₃⟩)

theorem on_nil : (nil : PathTree w V).On c b := fun n h => absurd h (not_mem_nil (a := n))

theorem node_eq_fork (b : Bool) :
    node p u l r = fork p u b (bif b then r else l) (bif b then l else r) := by
  cases b <;> rfl

theorem On.left (h : (node p u l r).On c b) : l.On c b :=
  fun n hn => h n (mem_left hn)

theorem On.right (h : (node p u l r).On c b) : r.On c b :=
  fun n hn => h n (mem_right hn)

/-- The root of a tree covers its nodes. -/
theorem Formed.covers (h : (node p u l r).Formed) (hn : n ∈ (node p u l r).nodes) :
    p.Covers n.1 := by
  rcases mem_nodes.mp hn with rfl | hn | hn
  · exact covers_refl
  · exact (h.1 n hn).covers
  · exact (h.2.1 n hn).covers

/-- A tree is on the side that its root is on. -/
theorem Formed.on (h : (node p u l r).Formed) (hside : c.Side b p) : (node p u l r).On c b :=
  fun _ hn => hside.of_covers (h.covers hn)

/-- A side of a formed tree is below its root, and formed. -/
theorem Formed.half (h : (node p u l r).Formed) (b : Bool) :
    (bif b then r else l).On p b ∧ (bif b then r else l).Formed := by
  cases b
  · exact ⟨h.1, h.2.2.1⟩
  · exact ⟨h.2.1, h.2.2.2⟩

/-- A prefix of the tree is at the root or on the side that its next bit says. -/
theorem Formed.mem_half (h : (node q u l r).Formed) (hn : (p, v') ∈ (node q u l r).nodes)
    (hne : q ≠ p) : q.Covers p ∧ (p, v') ∈ (bif p.ip.getMsbD q.length then r else l).nodes := by
  refine ⟨h.covers hn, ?_⟩
  rcases mem_nodes.mp hn with heq | hn | hn
  · exact absurd (Prod.mk.inj heq).1.symm hne
  · rwa [(h.1 _ hn).2.2]
  · rwa [(h.2.1 _ hn).2.2]

/-- Below a node there is no second one of its prefix. -/
theorem Formed.root_eq (h : (node p u l r).Formed) {u' : Option V}
    (hn : (p, u') ∈ (node p u l r).nodes) : u' = u := by
  rcases mem_nodes.mp hn with heq | hn | hn
  · exact (Prod.mk.inj heq).2
  · exact absurd rfl (h.1 _ hn).ne
  · exact absurd rfl (h.2.1 _ hn).ne

/-- **The nodes are met in the order of their addresses.** -/
theorem pairwise_nodes (h : t.Formed) : t.nodes.Pairwise fun m n => m.1.Before n.1 := by
  induction t with
  | nil => exact .nil
  | node p u l r ihl ihr =>
    obtain ⟨hl, hr, hfl, hfr⟩ := h
    rw [nodes_node, pairwise_cons, pairwise_append]
    refine ⟨fun n hn => ?_, ihl hfl, ihr hfr, fun m hm n hn => before_of_side (hl m hm) (hr n hn)⟩
    rcases mem_append.mp hn with hn | hn
    · exact (hl n hn).covers.before (hl n hn).ne.symm
    · exact (hr n hn).covers.before (hr n hn).ne.symm

/-- A prefix has one node at most. -/
theorem Formed.value_eq (h : t.Formed) {u u' : Option V} (hn : (p, u) ∈ t.nodes)
    (hn' : (p, u') ∈ t.nodes) : u = u' := by
  have hnodup : (t.nodes.map Prod.fst).Nodup :=
    pairwise_map.mpr ((pairwise_nodes h).imp Before.ne)
  exact (Prod.mk.inj (inj_on_of_nodup_map hnodup hn hn' rfl)).2

/-! ## Insertion -/

/-- Give a prefix a value. -/
def insert (p : Prefix w) (v : V) : PathTree w V → PathTree w V
  | nil => leaf p (some v)
  | node q u l r =>
    if q = p then node p (some v) l r
    else if p.Covers q then fork p (some v) (q.ip.getMsbD p.length) (node q u l r) nil
    else if q.Covers p then
      if p.ip.getMsbD q.length then node q u l (insert p v r) else node q u (insert p v l) r
    else
      fork (common q p) none (p.ip.getMsbD (common q p).length) (leaf p (some v)) (node q u l r)

/-- How many new nodes an insertion needs. -/
def newNodes (p : Prefix w) : PathTree w V → Nat
  | nil => 1
  | node q _ l r =>
    if q = p then 0
    else if p.Covers q then 1
    else if q.Covers p then if p.ip.getMsbD q.length then newNodes p r else newNodes p l
    else 2

/-- Below a node that covers the prefix, an insertion goes on at the side of the prefix. -/
theorem insert_below (hne : q ≠ p) (hnot : ¬ p.Covers q) (hcovers : q.Covers p)
    (hb : p.ip.getMsbD q.length = b) : insert p v (node q u l r) =
      fork q u b (insert p v (bif b then r else l)) (bif b then l else r) := by
  rw [insert, if_neg hne, if_neg hnot, if_pos hcovers, hb]
  cases b <;> rfl

theorem newNodes_below (hne : q ≠ p) (hnot : ¬ p.Covers q) (hcovers : q.Covers p)
    (hb : p.ip.getMsbD q.length = b) :
    newNodes p (node q u l r) = newNodes p (bif b then r else l) := by
  rw [newNodes, if_neg hne, if_neg hnot, if_pos hcovers, hb]
  cases b <;> rfl

/-- What was in the tree stays, save for an old value of the prefix. -/
theorem mem_insert_of_mem (hn : n ∈ t.nodes) (hne : n.1 ≠ p) : n ∈ (insert p v t).nodes := by
  induction t with
  | nil => cases hn
  | node q u l r ihl ihr =>
    unfold insert
    split_ifs with heq hcov hbelow hbit
    · rw [nodes_node, mem_cons] at hn ⊢
      rcases hn with rfl | hn
      · exact absurd heq hne
      · exact .inr hn
    · rw [mem_fork]
      exact .inr (.inl hn)
    · rw [mem_nodes] at hn ⊢
      exact hn.imp_right (Or.imp_right ihr)
    · rw [mem_nodes] at hn ⊢
      exact hn.imp_right (Or.imp_left ihl)
    · rw [mem_fork]
      exact .inr (.inr hn)

theorem mem_insert_self : (p, some v) ∈ (insert p v t).nodes := by
  induction t with
  | nil => exact mem_singleton_self _
  | node q u l r ihl ihr =>
    unfold insert
    split_ifs with heq hcov hbelow hbit
    · exact mem_cons_self
    · exact mem_fork.mpr (.inl rfl)
    · exact mem_right ihr
    · exact mem_left ihl
    · exact mem_fork.mpr (.inr (.inl (mem_singleton_self _)))

theorem of_mem_insert (h : t.Formed) (hn : n ∈ (insert p v t).nodes) :
    n = (p, some v) ∨ (n.1 ≠ p ∧ n ∈ t.nodes) ∨ (n.2 = none ∧ n.1.length < p.length) := by
  induction t with
  | nil => exact .inl (mem_singleton.mp hn)
  | node q u l r ihl ihr =>
    unfold insert at hn
    split_ifs at hn with heq hcov hbelow hbit
    · rw [nodes_node, mem_cons] at hn
      rcases hn with hn | hn
      · exact .inl hn
      · refine .inr (.inl ⟨?_, mem_cons_of_mem _ hn⟩)
        rcases mem_append.mp hn with hn | hn
        · exact heq ▸ (h.1 n hn).ne
        · exact heq ▸ (h.2.1 n hn).ne
    · rw [mem_fork] at hn
      rcases hn with hn | hn | hn
      · exact .inl hn
      · refine .inr (.inl ⟨?_, hn⟩)
        rintro rfl
        exact heq ((h.covers hn).antisymm hcov)
      · cases hn
    · rw [mem_nodes] at hn
      rcases hn with rfl | hn | hn
      · exact .inr (.inl ⟨heq, mem_cons_self⟩)
      · refine .inr (.inl ⟨?_, mem_left hn⟩)
        rintro rfl
        exact Bool.false_ne_true ((h.1 n hn).2.2.symm.trans hbit)
      · exact (ihr h.2.2.2 hn).imp_right (Or.imp_left fun hold =>
          ⟨hold.1, mem_right hold.2⟩)
    · rw [mem_nodes] at hn
      rcases hn with rfl | hn | hn
      · exact .inr (.inl ⟨heq, mem_cons_self⟩)
      · exact (ihl h.2.2.1 hn).imp_right (Or.imp_left fun hold =>
          ⟨hold.1, mem_left hold.2⟩)
      · refine .inr (.inl ⟨?_, mem_right hn⟩)
        rintro rfl
        exact hbit (h.2.1 n hn).2.2
    · rw [mem_fork] at hn
      rcases hn with rfl | hn | hn
      · refine .inr (.inr ⟨rfl, common_covers_right.length_lt fun hc => ?_⟩)
        exact hcov (hc ▸ common_covers_left)
      · exact .inl (mem_singleton.mp hn)
      · refine .inr (.inl ⟨?_, hn⟩)
        rintro rfl
        exact hbelow (h.covers hn)

/-- An insertion stays on the side of a fork that the tree and the prefix are on. -/
theorem on_insert (h : t.On c b) (hside : c.Side b p) : (insert p v t).On c b := by
  induction t with
  | nil =>
    intro n hn
    rw [mem_singleton.mp hn]
    exact hside
  | node q u l r ihl ihr =>
    have hq : c.Side b q := h _ mem_cons_self
    intro n hn
    unfold insert at hn
    split_ifs at hn with heq hcov hbelow hbit
    · rw [nodes_node, mem_cons] at hn
      rcases hn with rfl | hn
      · exact hside
      · exact h n (mem_cons_of_mem _ hn)
    · rw [mem_fork] at hn
      rcases hn with rfl | hn | hn
      · exact hside
      · exact h n hn
      · cases hn
    · rcases mem_nodes.mp hn with rfl | hn | hn
      · exact hq
      · exact h.left n hn
      · exact ihr h.right n hn
    · rcases mem_nodes.mp hn with rfl | hn | hn
      · exact hq
      · exact ihl h.left n hn
      · exact h.right n hn
    · rw [mem_fork] at hn
      rcases hn with rfl | hn | hn
      · exact side_common hq hside
      · rw [mem_singleton.mp hn]
        exact hside
      · exact h n hn

theorem formed_leaf : (leaf p u).Formed := ⟨on_nil, on_nil, trivial, trivial⟩

theorem Formed.insert (h : t.Formed) : (insert p v t).Formed := by
  induction t with
  | nil => exact formed_leaf
  | node q u l r ihl ihr =>
    unfold PathTree.insert
    split_ifs with heq hcov hbelow hbit
    · exact heq ▸ h
    · exact formed_fork.mpr ⟨h.on (hcov.side fun hp => heq hp.symm), on_nil, h, trivial⟩
    · have hside : q.Side true p := hbit ▸ hbelow.side heq
      exact ⟨h.1, on_insert h.2.1 hside, h.2.2.1, ihr h.2.2.2⟩
    · have hside : q.Side false p := (Bool.not_eq_true _ ▸ hbit) ▸ hbelow.side heq
      exact ⟨on_insert h.1 hside, h.2.1, ihl h.2.2.1, h.2.2.2⟩
    · obtain ⟨b, hq, hp⟩ := common_sides hbelow hcov
      rw [hp.2.2]
      refine formed_fork.mpr ⟨?_, h.on ((Bool.not_not b).symm ▸ hq), formed_leaf, h⟩
      intro n hn
      rw [mem_singleton.mp hn]
      exact hp

/-! ## Removal -/

/-- Remove the node of a prefix, or its value where both subtrees need it. -/
def erase (p : Prefix w) : PathTree w V → PathTree w V
  | nil => nil
  | node q u l r =>
    if q = p then
      match l, r with
      | nil, r => r
      | l, nil => l
      | l, r => node q none l r
    else if p.ip.getMsbD q.length then node q u l (erase p r) else node q u (erase p l) r

theorem erase_here : erase p (node p u l r) =
    match l, r with
    | nil, r => r
    | l, nil => l
    | l, r => node p none l r := by
  conv_lhs => unfold erase
  rw [if_pos rfl]

/-- At another node, a removal goes on at the side of the prefix. -/
theorem erase_below (hne : q ≠ p) (hb : p.ip.getMsbD q.length = b) : erase p (node q u l r) =
    fork q u b (erase p (bif b then r else l)) (bif b then l else r) := by
  conv_lhs => unfold erase
  rw [if_neg hne, hb]
  cases b <;> rfl

/-- Only the removal of a leaf leaves nothing. -/
theorem eq_leaf_of_erase_eq_nil (h : erase p (node q u l r) = nil) : q = p ∧ l = nil ∧ r = nil := by
  by_cases hne : q = p
  · subst hne
    rw [erase_here] at h
    cases l <;> cases r <;> first | exact ⟨rfl, rfl, rfl⟩ | cases h
  · rw [erase_below hne rfl] at h
    cases hb : p.ip.getMsbD q.length <;> rw [hb] at h <;> cases h

/-- A removal makes no node of a new prefix. -/
theorem exists_of_mem_erase (hn : n ∈ (erase p t).nodes) : ∃ u, (n.1, u) ∈ t.nodes := by
  induction t with
  | nil => cases hn
  | node q u l r ihl ihr =>
    unfold erase at hn
    split_ifs at hn with heq hbit
    · split at hn
      · exact ⟨n.2, mem_cons_of_mem _ hn⟩
      · exact ⟨n.2, mem_left hn⟩
      · rw [nodes_node, mem_cons] at hn
        rcases hn with rfl | hn
        · exact ⟨u, mem_cons_self⟩
        · exact ⟨n.2, mem_cons_of_mem _ hn⟩
    · rcases mem_nodes.mp hn with rfl | hn | hn
      · exact ⟨u, mem_cons_self⟩
      · exact ⟨n.2, mem_left hn⟩
      · obtain ⟨u', hu'⟩ := ihr hn
        exact ⟨u', mem_right hu'⟩
    · rcases mem_nodes.mp hn with rfl | hn | hn
      · exact ⟨u, mem_cons_self⟩
      · obtain ⟨u', hu'⟩ := ihl hn
        exact ⟨u', mem_left hu'⟩
      · exact ⟨n.2, mem_right hn⟩

theorem On.erase (h : t.On c b) : (erase p t).On c b := by
  intro n hn
  obtain ⟨u, hu⟩ := exists_of_mem_erase hn
  exact h (n.1, u) hu

theorem Formed.erase (h : t.Formed) : (erase p t).Formed := by
  induction t with
  | nil => trivial
  | node q u l r ihl ihr =>
    unfold PathTree.erase
    split_ifs with heq hbit
    · split
      · exact h.2.2.2
      · exact h.2.2.1
      · exact h
    · exact ⟨h.1, h.2.1.erase, h.2.2.1, ihr h.2.2.2⟩
    · exact ⟨h.1.erase, h.2.1, ihl h.2.2.1, h.2.2.2⟩

theorem mem_erase_of_mem (hn : n ∈ t.nodes) (hne : n.1 ≠ p) : n ∈ (erase p t).nodes := by
  induction t with
  | nil => cases hn
  | node q u l r ihl ihr =>
    unfold erase
    rw [mem_nodes] at hn
    split_ifs with heq hbit
    · have hbelow : n ∈ l.nodes ∨ n ∈ r.nodes := by
        rcases hn with rfl | hn
        · exact absurd heq hne
        · exact hn
      split
      · exact hbelow.resolve_left (not_mem_nil)
      · exact hbelow.resolve_right (not_mem_nil)
      · exact mem_cons_of_mem _ (mem_append.mpr hbelow)
    · rw [mem_nodes]
      exact hn.imp_right (Or.imp_right ihr)
    · rw [mem_nodes]
      exact hn.imp_right (Or.imp_left ihl)

/-- What is in the tree afterwards: where the prefix keeps its node, there are others below. -/
theorem of_mem_erase (h : t.Formed) (hn : n ∈ (erase p t).nodes) :
    (n.1 ≠ p ∧ n ∈ t.nodes) ∨ (n = (p, none) ∧ p.length < w) := by
  induction t with
  | nil => cases hn
  | node q u l r ihl ihr =>
    unfold erase at hn
    split_ifs at hn with heq hbit
    · subst heq
      have hl : ∀ n ∈ l.nodes, n.1 ≠ q := fun n hn => (h.1 n hn).ne
      have hr : ∀ n ∈ r.nodes, n.1 ≠ q := fun n hn => (h.2.1 n hn).ne
      split at hn
      · exact .inl ⟨hr n hn, mem_cons_of_mem _ hn⟩
      · exact .inl ⟨hl n hn, mem_left hn⟩
      · next hnil _ =>
        rcases mem_nodes.mp hn with rfl | hn | hn
        · refine .inr ⟨rfl, ?_⟩
          cases l with
          | nil => exact (hnil rfl).elim
          | node q' u' l' r' =>
            exact Nat.lt_of_lt_of_le (h.1 (q', u') mem_cons_self).1 q'.length_le
        · exact .inl ⟨hl n hn, mem_left hn⟩
        · exact .inl ⟨hr n hn, mem_right hn⟩
    · rw [mem_nodes] at hn
      rcases hn with rfl | hn | hn
      · exact .inl ⟨heq, mem_cons_self⟩
      · refine .inl ⟨?_, mem_left hn⟩
        rintro rfl
        exact Bool.false_ne_true ((h.1 n hn).2.2.symm.trans hbit)
      · exact (ihr h.2.2.2 hn).imp_left fun hold =>
          ⟨hold.1, mem_right hold.2⟩
    · rw [mem_nodes] at hn
      rcases hn with rfl | hn | hn
      · exact .inl ⟨heq, mem_cons_self⟩
      · exact (ihl h.2.2.1 hn).imp_left fun hold =>
          ⟨hold.1, mem_left hold.2⟩
      · refine .inl ⟨?_, mem_right hn⟩
        rintro rfl
        exact hbit (h.2.1 n hn).2.2

/-! ## Search -/

/-- Descend along a string: the last node with a value on the way, or the node of the string
itself. -/
def probe (a : BitVec w) : PathTree w V → Option (Prefix w × Option V)
  | nil => none
  | node q u l r =>
    if q.Contains a then
      if q.length = w then some (q, u)
      else
        (bif a.getMsbD q.length then probe a r else probe a l).or
          (if u.isSome then some (q, u) else none)
    else none

/-- A node whose string goes through a fork is below the fork, on the side of the string. -/
theorem Formed.mem_of_contains (h : (node p u l r).Formed) (hn : n ∈ (node p u l r).nodes)
    (hne : n.1 ≠ p) (ha : n.1.Contains a) : n ∈ (bif a.getMsbD p.length then r else l).nodes := by
  rcases mem_nodes.mp hn with rfl | hn | hn
  · exact absurd rfl hne
  · rwa [(h.1 n hn).bit_of_contains ha]
  · rwa [(h.2.1 n hn).bit_of_contains ha]

theorem mem_of_mem_half (hn : n ∈ (bif b then r else l).nodes) : n ∈ (node p u l r).nodes := by
  rw [mem_nodes]
  cases b
  · exact .inr (.inl hn)
  · exact .inr (.inr hn)

theorem probe_node : probe a (node q u l r) =
    if q.Contains a then
      if q.length = w then some (q, u)
      else (probe a (bif a.getMsbD q.length then r else l)).or
        (if u.isSome then some (q, u) else none)
    else none := by
  rw [probe, Bool.apply_cond (probe a)]

/-- A descent ends at a node that contains the string. -/
theorem probe_mem (hprobe : probe a t = some n) :
    n ∈ t.nodes ∧ n.1.Contains a ∧ (n.2 = none → n.1.length = w) := by
  induction t with
  | nil => cases hprobe
  | node q u l r ihl ihr =>
    have hhalf : ∀ b, probe a (bif b then r else l) = some n → n ∈ (node q u l r).nodes ∧
        n.1.Contains a ∧ (n.2 = none → n.1.length = w) := by
      intro b hb
      cases b
      · exact (ihl hb).imp_left (mem_of_mem_half (b := false))
      · exact (ihr hb).imp_left (mem_of_mem_half (b := true))
    rw [probe_node] at hprobe
    split_ifs at hprobe with ha hfull hvalue
    · cases hprobe
      exact ⟨mem_cons_self, ha, fun _ => hfull⟩
    · rcases Option.or_eq_some_iff.mp hprobe with hprobe | ⟨-, hroot⟩
      · exact hhalf _ hprobe
      · cases hroot
        refine ⟨mem_cons_self, ha, fun hnone => ?_⟩
        obtain rfl : u = none := hnone
        cases hvalue
    · rw [or_none] at hprobe
      exact hhalf _ hprobe

/-- No value on the way is longer than the one found. -/
theorem probe_longest (h : t.Formed) (hn : n ∈ t.nodes) (ha : n.1.Contains a)
    (hvalue : n.2.isSome ∨ n.1.length = w) : ∃ m, probe a t = some m ∧ n.1.length ≤ m.1.length := by
  induction t with
  | nil => cases hn
  | node q u l r ihl ihr =>
    have hq : q.Contains a := (h.covers hn).contains ha
    rw [probe_node, if_pos hq]
    by_cases hfull : q.length = w
    · rw [if_pos hfull]
      exact ⟨_, rfl, n.1.length_le.trans hfull.ge⟩
    · rw [if_neg hfull]
      by_cases hne : n.1 = q
      · obtain ⟨p, u'⟩ := n
        obtain rfl : p = q := hne
        obtain rfl : u' = u := h.root_eq hn
        rw [if_pos (hvalue.resolve_right hfull)]
        cases hdeeper : probe a (bif a.getMsbD p.length then r else l) with
        | none => exact ⟨_, rfl, le_rfl⟩
        | some m => exact ⟨m, rfl, (h.covers (mem_of_mem_half (probe_mem hdeeper).1)).1⟩
      · have hn' := h.mem_of_contains hn hne ha
        have hhalf : ∃ m, probe a (bif a.getMsbD q.length then r else l) = some m ∧
            n.1.length ≤ m.1.length := by
          cases hbit : a.getMsbD q.length
          · rw [hbit] at hn'
            exact ihl h.2.2.1 hn'
          · rw [hbit] at hn'
            exact ihr h.2.2.2 hn'
        obtain ⟨m, hm, hlength⟩ := hhalf
        exact ⟨m, by rw [hm, some_or], hlength⟩

/-- A tree on one side is not found from elsewhere. -/
theorem On.probe_eq_none (h : t.On c b) (ha : ¬ (c.Contains a ∧ a.getMsbD c.length = b)) :
    probe a t = none := by
  cases hprobe : probe a t with
  | none => rfl
  | some n =>
    obtain ⟨hmem, hcontains, -⟩ := probe_mem hprobe
    have hside := h n hmem
    exact absurd ⟨hside.covers.contains hcontains, hside.bit_of_contains hcontains⟩ ha

/-- **A node without a value is erased unnoticed**, unless it is that of a string. -/
theorem probe_erase_none (h : t.Formed) (hn : (p, none) ∈ t.nodes) (hlt : p.length < w) :
    probe a (erase p t) = probe a t := by
  induction t with
  | nil => cases hn
  | node q u l r ihl ihr =>
    by_cases hne : q = p
    · subst hne
      obtain rfl : none = u := h.root_eq hn
      have hnode : probe a (node q none l r) =
          if q.Contains a then probe a (bif a.getMsbD q.length then r else l) else none := by
        rw [probe_node, if_neg (Nat.ne_of_lt hlt)]
        simp only [isSome_none, Bool.false_eq_true, if_false, or_none]
      -- what is left below the node is found on its own side only
      have hhalf {b : Bool} {t : PathTree w V} (hon : t.On q b)
          (hother : (bif b then l else r) = nil) (ht : (bif b then r else l) = t) :
          probe a t = probe a (node q none l r) := by
        rw [hnode]
        by_cases ha : q.Contains a
        · rw [if_pos ha]
          by_cases hbit : a.getMsbD q.length = b
          · rw [hbit, ht]
          · have hflip : a.getMsbD q.length = !b := Bool.eq_not_of_ne hbit
            rw [hon.probe_eq_none fun hboth => hbit hboth.2, hflip]
            cases b <;> exact (congrArg (probe a) hother).symm
        · rw [if_neg ha, hon.probe_eq_none fun hboth => ha hboth.1]
      rw [erase_here]
      split
      · exact hhalf h.2.1 rfl rfl
      · exact hhalf h.1 rfl rfl
      · rfl
    · obtain ⟨hcovers, hmem⟩ := h.mem_half hn hne
      rw [erase_below hne rfl]
      cases hb : p.ip.getMsbD q.length <;> rw [hb] at hmem
      · show probe a (node q u (erase p l) r) = _
        rw [probe, probe, ihl h.2.2.1 hmem]
      · show probe a (node q u l (erase p r)) = _
        rw [probe, probe, ihr h.2.2.2 hmem]

/-- The map that a tree is. -/
def Holds (t : PathTree w V) (m : Prefix w → Option V) : Prop :=
  ∀ p v, m p = some v ↔ (p, some v) ∈ t.nodes

variable {m : Prefix w → Option V}

theorem holds_leaf_none : (leaf p none : PathTree w V).Holds fun _ => none := by
  intro q v
  exact ⟨fun h => (nomatch h), fun h => (nomatch h)⟩

theorem Holds.insert (h : t.Formed) (hm : t.Holds m) :
    (insert p v t).Holds (Function.update m p (some v)) := by
  intro q v'
  by_cases hq : q = p
  · subst hq
    rw [Function.update_self]
    constructor
    · rintro heq
      cases heq
      exact mem_insert_self
    · intro hn
      exact h.insert.value_eq mem_insert_self hn
  · rw [Function.update_of_ne hq, hm q v']
    constructor
    · exact fun hn => mem_insert_of_mem hn hq
    · intro hn
      rcases of_mem_insert h hn with heq | ⟨-, hn⟩ | ⟨hnone, -⟩
      · exact absurd (Prod.mk.inj heq).1 hq
      · exact hn
      · cases hnone

theorem Holds.erase (h : t.Formed) (hm : t.Holds m) :
    (erase p t).Holds (Function.update m p none) := by
  intro q v'
  by_cases hq : q = p
  · subst hq
    rw [Function.update_self]
    refine ⟨fun heq => (nomatch heq), fun hn => ?_⟩
    rcases of_mem_erase h hn with ⟨hne, -⟩ | ⟨heq, -⟩
    · exact absurd rfl hne
    · cases (Prod.mk.inj heq).2
  · rw [Function.update_of_ne hq, hm q v']
    constructor
    · exact fun hn => mem_erase_of_mem hn hq
    · intro hn
      rcases of_mem_erase h hn with ⟨-, hn⟩ | ⟨heq, -⟩
      · exact hn
      · exact absurd (Prod.mk.inj heq).1 hq

/-- **A descent finds the longest match**, unless the string has a node without a value. -/
theorem Holds.probe_eq_some (h : t.Formed) (hm : t.Holds m) (hprobe : probe a t = some (p, some v)) :
    IsLongest m a p v := by
  obtain ⟨hmem, hcontains, -⟩ := probe_mem hprobe
  refine ⟨(hm p v).mpr hmem, hcontains, fun q v' hq ha => ?_⟩
  obtain ⟨n, hn, hle⟩ := probe_longest h ((hm q v').mp hq) ha (.inl rfl)
  obtain rfl := Option.mem_unique hn hprobe
  exact hle

/-- The node of the string itself is found, with or without a value. -/
theorem probe_host (h : t.Formed) (hn : (host a, u) ∈ t.nodes) : probe a t = some (host a, u) := by
  obtain ⟨m, hm, hle⟩ := probe_longest h hn (contains_host.mpr rfl) (.inr rfl)
  obtain ⟨hmem, hcontains, -⟩ := probe_mem hm
  have hlength : m.1.length = w := le_antisymm m.1.length_le hle
  have hhost : m.1 = host a := eq_host_of_length hcontains hlength
  have hvalue : m.2 = u := h.value_eq (p := host a) (hhost ▸ hmem) hn
  rw [hm, ← hhost, ← hvalue]

/-! ## Where bits lead -/

/-- The bits of a string lead to the node of another one: at every node above it they are those
of the other string. -/
def LeadsTo (t : PathTree w V) (b a : BitVec w) : Prop :=
  (∃ u, (host a, u) ∈ t.nodes) ∧
    ∀ n ∈ t.nodes, n.1.length < w → n.1.Contains a → b.getMsbD n.1.length = a.getMsbD n.1.length

theorem Formed.leadsTo_root (h : (node q u l r).Formed) (hfull : q.length = w) (b : BitVec w) :
    (node q u l r).LeadsTo b q.ip := by
  have hq : q = host q.ip := eq_host_of_length contains_self hfull
  refine ⟨⟨u, hq ▸ mem_cons_self⟩, fun n hn hlt _ => ?_⟩
  have hle := (h.covers hn).1
  omega

theorem Formed.leadsTo_iff (h : (node q u l r).Formed) (hlt : q.length < w) {a b : BitVec w} :
    (node q u l r).LeadsTo b a ↔ (bif b.getMsbD q.length then r else l).LeadsTo b a := by
  constructor
  · rintro ⟨⟨u', hmem⟩, hall⟩
    have hne : q ≠ host a := fun heq => Nat.ne_of_lt hlt (congrArg Prefix.length heq)
    obtain ⟨hcovers, hhalf⟩ := h.mem_half hmem hne
    have hbit : b.getMsbD q.length = a.getMsbD q.length :=
      hall _ mem_cons_self hlt hcovers.2
    rw [hbit]
    exact ⟨⟨u', hhalf⟩, fun n hn => hall n (mem_of_mem_half hn)⟩
  · rintro ⟨⟨u', hmem⟩, hall⟩
    have hbit : a.getMsbD q.length = b.getMsbD q.length :=
      ((h.half _).1 _ hmem).bit_of_contains (contains_host.mpr rfl)
    refine ⟨⟨u', mem_of_mem_half hmem⟩, fun n hn hn' hcontains => ?_⟩
    by_cases hq : n.1 = q
    · rw [hq, hbit]
    · have hhalf := h.mem_of_contains hn hq hcontains
      rw [hbit] at hhalf
      exact hall n hhalf hn' hcontains

end PathTree

end Foundation
