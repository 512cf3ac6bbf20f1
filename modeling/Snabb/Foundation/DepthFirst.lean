import Mathlib.Data.Finset.Card
import Mathlib.Data.List.Chain
import Mathlib.Logic.Relation

/-!
# Depth-first search

A depth-first search walks over a graph that is given by the successors of each node. It
notes the nodes that it has seen, and lists every node after it has walked over all of its
successors. Any number of nodes may be visited one after the other.

The graph may have cycles. The recursion is bounded by a fuel, and a node without an entry
makes the search fail; neither happens if the nodes are closed under successors and the fuel
exceeds the number of the nodes not yet seen (`visit_total`).

Read backwards, the list is a topological order as far as the graph has one: if there is an
edge from a node to one listed after it, then the edge lies on a cycle (`Sound.ordered`).
-/

namespace Foundation

open List
open Relation

variable {N : Type}

/-- The state of a search. -/
structure Search (N : Type) where
  visited : Finset N
  postOrder : List N

namespace Search

def new : Search N := ⟨∅, []⟩

variable [DecidableEq N]

/-- Walk over a node unless it was seen before. -/
def visit (successors : N → Option (List N)) : Nat → Search N → N → Option (Search N)
  | 0, _, _ => none
  | fuel + 1, s, node =>
    if node ∈ s.visited then some s
    else do
      let succs ← successors node
      let s' ← succs.foldlM (visit successors fuel) { s with visited := insert node s.visited }
      some { s' with postOrder := s'.postOrder ++ [node] }

end Search

/-- There is an edge between two nodes. -/
def Edge (successors : N → Option (List N)) (a b : N) : Prop :=
  ∃ succs, successors a = some succs ∧ b ∈ succs

namespace Search

/-- What holds between two visits. A node that is listed twice would have been left twice. -/
structure Sound (successors : N → Option (List N)) (s : Search N) : Prop where
  nodup : s.postOrder.Nodup
  listed_visited : ∀ a ∈ s.postOrder, a ∈ s.visited
  closed : ∀ a ∈ s.postOrder, ∀ b, Edge successors a b → b ∈ s.visited
  ordered : s.postOrder.Pairwise fun a b =>
    Edge successors a b → ReflTransGen (Edge successors) b a

/-- Visiting the roots has listed the nodes `new`. -/
structure Extends (successors : N → Option (List N)) (roots : List N) (s s' : Search N)
    (new : List N) : Prop where
  postOrder_eq : s'.postOrder = s.postOrder ++ new
  visited_iff : ∀ a, a ∈ s'.visited ↔ a ∈ s.visited ∨ a ∈ new
  fresh : ∀ a ∈ new, a ∉ s.visited
  reached : ∀ a ∈ new, ∃ r ∈ roots, ReflTransGen (Edge successors) r a
  visited : ∀ r ∈ roots, r ∈ s'.visited

variable {successors : N → Option (List N)} {s s' s'' : Search N} {node : N}
  {roots roots' new new' : List N}

theorem sound_new : Sound successors (Search.new : Search N) where
  nodup := nodup_nil
  listed_visited _ h := by cases h
  closed _ h := by cases h
  ordered := List.Pairwise.nil

theorem Extends.refl (h : ∀ r ∈ roots, r ∈ s.visited) : Extends successors roots s s [] where
  postOrder_eq := (append_nil _).symm
  visited_iff a := by simp
  fresh _ h := by cases h
  reached _ h := by cases h
  visited := h

theorem Extends.trans (h : Extends successors roots s s' new)
    (h' : Extends successors roots' s' s'' new') :
    Extends successors (roots ++ roots') s s'' (new ++ new') where
  postOrder_eq := by rw [h'.postOrder_eq, h.postOrder_eq, append_assoc]
  visited_iff a := by rw [h'.visited_iff, h.visited_iff, mem_append, or_assoc]
  fresh a ha := by
    rcases mem_append.mp ha with hold | hnew
    · exact h.fresh a hold
    · exact fun hv => h'.fresh a hnew ((h.visited_iff a).mpr (.inl hv))
  reached a ha := by
    rcases mem_append.mp ha with hold | hnew
    · obtain ⟨r, hr, hreach⟩ := h.reached a hold
      exact ⟨r, mem_append_left _ hr, hreach⟩
    · obtain ⟨r, hr, hreach⟩ := h'.reached a hnew
      exact ⟨r, mem_append_right _ hr, hreach⟩
  visited r hr := by
    rcases mem_append.mp hr with hold | hnew
    · exact (h'.visited_iff r).mpr (.inl (h.visited r hold))
    · exact h'.visited r hnew

variable [DecidableEq N] {fuel : Nat}

/-- Nodes that are visited one after the other, if each visit does what it should. -/
theorem Sound.foldlM (hvisit : ∀ {s s' : Search N} {node}, Sound successors s →
      visit successors fuel s node = some s' →
      Sound successors s' ∧ ∃ new, Extends successors [node] s s' new)
    (h : Sound successors s) (hfold : roots.foldlM (visit successors fuel) s = some s') :
    Sound successors s' ∧ ∃ new, Extends successors roots s s' new := by
  induction roots generalizing s with
  | nil =>
    cases hfold
    exact ⟨h, [], Extends.refl (by simp)⟩
  | cons root roots ih =>
    rw [foldlM_cons, Option.bind_eq_bind, Option.bind_eq_some_iff] at hfold
    obtain ⟨t, hroot, hrest⟩ := hfold
    obtain ⟨hsound, new, hnew⟩ := hvisit h hroot
    obtain ⟨hsound', new', hnew'⟩ := ih hsound hrest
    exact ⟨hsound', new ++ new', hnew.trans hnew'⟩

/-- **A node is left**: its successors were visited, and it is listed after all that were
reached from it. -/
theorem Sound.leave {succs : List N} (h : Sound successors s) (hnode : node ∉ s.visited)
    (hsuccs : successors node = some succs) (h' : Sound successors s')
    (hnew : Extends successors succs { s with visited := insert node s.visited } s' new) :
    Sound successors { s' with postOrder := s'.postOrder ++ [node] } ∧
      Extends successors [node] s { s' with postOrder := s'.postOrder ++ [node] }
        (new ++ [node]) := by
  have hvisited : node ∈ s'.visited := (hnew.visited_iff node).mpr (.inl (Finset.mem_insert_self ..))
  have hlisted : ∀ a ∈ s'.postOrder, a ∈ s.postOrder ∨ a ∈ new := by
    intro a ha
    rwa [hnew.postOrder_eq, mem_append] at ha
  have hreach : ∀ a ∈ new, ReflTransGen (Edge successors) node a := by
    intro a ha
    obtain ⟨b, hb, hba⟩ := hnew.reached a ha
    exact .head ⟨succs, hsuccs, hb⟩ hba
  have hnot : node ∉ s'.postOrder := by
    intro hin
    rcases hlisted node hin with hold | hin
    · exact hnode (h.listed_visited node hold)
    · exact hnew.fresh node hin (Finset.mem_insert_self ..)
  constructor
  · refine ⟨?_, ?_, ?_, ?_⟩
    · exact nodup_append.mpr ⟨h'.nodup, nodup_singleton _, by grind⟩
    · intro a ha
      rcases mem_append.mp ha with hold | hlast
      · exact h'.listed_visited a hold
      · rwa [mem_singleton.mp hlast]
    · intro a ha b hedge
      rcases mem_append.mp ha with hold | hlast
      · exact h'.closed a hold b hedge
      · obtain ⟨succs', hsuccs', hb⟩ := mem_singleton.mp hlast ▸ hedge
        obtain rfl := Option.mem_unique hsuccs hsuccs'
        exact hnew.visited b hb
    · refine pairwise_append.mpr ⟨h'.ordered, pairwise_singleton .., ?_⟩
      intro a ha b hb hedge
      obtain rfl := mem_singleton.mp hb
      -- a node that was left earlier has no edge to one that was not seen then
      rcases hlisted a ha with hold | hin
      · exact absurd (h.closed a hold b hedge) hnode
      · exact hreach a hin
  · constructor
    · show s'.postOrder ++ [node] = s.postOrder ++ (new ++ [node])
      rw [hnew.postOrder_eq, append_assoc]
    · intro a
      show a ∈ s'.visited ↔ _
      rw [hnew.visited_iff, Finset.mem_insert, mem_append, mem_singleton]
      tauto
    · intro a ha hold
      rcases mem_append.mp ha with hin | hlast
      · exact hnew.fresh a hin (Finset.mem_insert_of_mem hold)
      · exact hnode (mem_singleton.mp hlast ▸ hold)
    · intro a ha
      refine ⟨node, mem_singleton_self _, ?_⟩
      rcases mem_append.mp ha with hin | hlast
      · exact hreach a hin
      · rw [mem_singleton.mp hlast]
    · intro r hr
      rw [mem_singleton.mp hr]
      exact hvisited

theorem Sound.enter (h : Sound successors s) (node : N) :
    Sound successors { s with visited := insert node s.visited } :=
  { h with
    listed_visited := fun a ha => Finset.mem_insert_of_mem (h.listed_visited a ha)
    closed := fun a ha b hb => Finset.mem_insert_of_mem (h.closed a ha b hb) }

/-- **A visit** keeps the list sound and adds what was reached. -/
theorem Sound.visit (h : Sound successors s) (hvisit : visit successors fuel s node = some s') :
    Sound successors s' ∧ ∃ new, Extends successors [node] s s' new := by
  induction fuel generalizing s s' node with
  | zero => cases hvisit
  | succ fuel ih =>
    rw [Search.visit] at hvisit
    split at hvisit
    · next hseen =>
      cases hvisit
      exact ⟨h, [], Extends.refl (by simpa using hseen)⟩
    · next hnew =>
      simp only [Option.bind_eq_bind, Option.bind_eq_some_iff] at hvisit
      obtain ⟨succs, hsuccs, t, hfold, heq⟩ := hvisit
      cases heq
      obtain ⟨hsound, new, hext⟩ := (h.enter node).foldlM ih hfold
      obtain ⟨hsound', hext'⟩ := h.leave hnew hsuccs hsound hext
      exact ⟨hsound', _, hext'⟩

/-- Nodes that are visited one after the other, if each visit returns. -/
theorem Sound.foldlM_total {nodes : Finset N}
    (hvisit : ∀ {s : Search N} {node}, Sound successors s → node ∈ nodes →
      (nodes \ s.visited).card < fuel → ∃ s', Search.visit successors fuel s node = some s')
    (h : Sound successors s) (hroots : ∀ r ∈ roots, r ∈ nodes)
    (hfuel : (nodes \ s.visited).card < fuel) :
    ∃ s', roots.foldlM (Search.visit successors fuel) s = some s' := by
  induction roots generalizing s with
  | nil => exact ⟨s, rfl⟩
  | cons root roots ih =>
    obtain ⟨t, ht⟩ := hvisit h (hroots root mem_cons_self) hfuel
    obtain ⟨hsound, new, hext⟩ := h.visit ht
    have hsubset : nodes \ t.visited ⊆ nodes \ s.visited :=
      Finset.sdiff_subset_sdiff subset_rfl fun a ha => (hext.visited_iff a).mpr (.inl ha)
    obtain ⟨s', hs'⟩ := ih hsound (fun r hr => hroots r (mem_cons_of_mem _ hr))
      ((Finset.card_le_card hsubset).trans_lt hfuel)
    exact ⟨s', by rw [foldlM_cons, ht]; exact hs'⟩

/-- **A visit returns** if the nodes that can be reached have successors and the fuel exceeds
the number of nodes not yet seen. -/
theorem Sound.visit_total {nodes : Finset N}
    (hclosed : ∀ a ∈ nodes, ∃ succs, successors a = some succs ∧ ∀ b ∈ succs, b ∈ nodes)
    (h : Sound successors s) (hnode : node ∈ nodes) (hfuel : (nodes \ s.visited).card < fuel) :
    ∃ s', Search.visit successors fuel s node = some s' := by
  induction fuel generalizing s node with
  | zero => exact absurd hfuel (Nat.not_lt_zero _)
  | succ fuel ih =>
    rw [Search.visit]
    split
    · exact ⟨s, rfl⟩
    · next hnew =>
      obtain ⟨succs, hsuccs, hin⟩ := hclosed node hnode
      have hfewer : (nodes \ insert node s.visited).card < fuel := by
        have hlt : nodes \ insert node s.visited ⊂ nodes \ s.visited := by
          refine Finset.ssubset_iff_subset_ne.mpr ⟨Finset.sdiff_subset_sdiff subset_rfl
            (Finset.subset_insert ..), fun heq => ?_⟩
          have hmem : node ∈ nodes \ s.visited := Finset.mem_sdiff.mpr ⟨hnode, hnew⟩
          rw [← heq] at hmem
          exact (Finset.mem_sdiff.mp hmem).2 (Finset.mem_insert_self ..)
        exact Nat.lt_of_lt_of_le (Finset.card_lt_card hlt) (Nat.lt_succ_iff.mp hfuel)
      obtain ⟨t, ht⟩ := (h.enter node).foldlM_total ih hin hfewer
      exact ⟨{ t with postOrder := t.postOrder ++ [node] }, by rw [hsuccs]; simp [ht]⟩

end Search

section Paths

variable {r : N → N → Prop} {order path : List N} {a b : N}

/-- A node of a path, other than its first one, has one before it. -/
theorem exists_edge_of_mem (hpath : (a :: path).IsChain r) (hmem : b ∈ path) :
    ∃ c ∈ a :: path, r c b := by
  induction path generalizing a with
  | nil => cases hmem
  | cons d path ih =>
    rw [isChain_cons_cons] at hpath
    rcases mem_cons.mp hmem with rfl | htail
    · exact ⟨a, mem_cons_self, hpath.1⟩
    · obtain ⟨c, hc, hedge⟩ := ih hpath.2 htail
      exact ⟨c, mem_cons_of_mem _ hc, hedge⟩

/-- **A path follows the order.** In an order without an edge backwards the nodes of every
path stand one after the other, if the edges have no cycle. -/
theorem path_sublist (horder : order.Pairwise fun a b => ¬ r b a)
    (hacyclic : ∀ a, ¬ TransGen r a a) (hpath : path.IsChain r) (hmem : ∀ a ∈ path, a ∈ order) :
    path.Sublist order := by
  induction order generalizing path with
  | nil => rw [eq_nil_iff_forall_not_mem.mpr fun a ha => not_mem_nil (hmem a ha)]
  | cons x xs ih =>
    obtain ⟨hfirst, hrest⟩ := pairwise_cons.mp horder
    cases path with
    | nil => exact nil_sublist _
    | cons a path =>
      have htrans : (a :: path).Pairwise (TransGen r) :=
        isChain_iff_pairwise.mp (hpath.imp fun _ _ => TransGen.single)
      have htail := isChain_of_isChain_cons hpath
      by_cases hax : a = x
      · subst hax
        refine (ih hrest htail fun b hb => ?_).cons_cons a
        refine (mem_cons.mp (hmem b (mem_cons_of_mem _ hb))).resolve_left ?_
        rintro rfl
        exact hacyclic b ((pairwise_cons.mp htrans).1 b hb)
      · -- the first node of the order would have an edge from a later one
        have hnot : x ∉ path := by
          intro hx
          obtain ⟨c, hc, hedge⟩ := exists_edge_of_mem hpath hx
          rcases mem_cons.mp (hmem c hc) with rfl | hlater
          · exact hacyclic c (.single hedge)
          · exact hfirst c hlater hedge
        refine (ih hrest hpath fun b hb => ?_).cons x
        refine (mem_cons.mp (hmem b hb)).resolve_left ?_
        rintro rfl
        exact (mem_cons.mp hb).elim (fun h => hax h.symm) hnot

end Paths

end Foundation
