import Mathlib.Data.List.Basic
import Mathlib.Data.Set.Insert
import Mathlib.Logic.Function.Basic
import Mathlib.Order.Nat
import Mathlib.Tactic.Common

/-!
# Tries over infinite keys

The key of a leaf is an infinite sequence of digits, such as a hash that can always be extended.
A trie has nodes and leaves at finite sequences of digits, its slots: a leaf is at a beginning of
its key, and there is a node wherever two leaves have to be told apart. The trie is therefore
determined by its leaves (`Compact`), and so is what has to be undone when one is removed.

- `Shape.put`, `Placed.put_leaf`, `Placed.take_leaf`, `Placed.put_node`, `Placed.take_node`: what
  an update of one slot does, from which splitting and collapsing are put together;
- `leaf_at`: a descent along a key ends at the leaf with that key;
- `Loose`: the invariant of a walk to the root that removes nodes, and when it may stop.
-/

namespace Foundation.DigitTrie

open List Option
open Function (update update_apply update_of_ne update_self)

/-- What is at a slot. -/
inductive Slot (L N : Type) where
  | leaf (o : L)
  | node (r : N)

/-- A trie with digits in `D`. -/
abbrev Slots (D L N : Type) := List D → Option (Slot L N)

variable {D L N : Type}

/-- The first `n` digits of a key. -/
def path (f : Nat → D) (n : Nat) : List D := (List.range n).map f

variable {f g : Nat → D} {T : Slots D L N} {p q : List D} {i j : D} {r : N} {o l : L} {m n : Nat}
  {digits : L → Nat → D} {os : Set L} {x : Option (Slot L N)}

@[simp] theorem path_length : (path f n).length = n := by simp [path]

theorem path_succ : path f (n + 1) = path f n ++ [f n] := by simp [path, range_succ]

theorem append_one_inj : p ++ [i] = q ++ [j] ↔ p = q ∧ i = j := by
  simp only [← concat_eq_append, concat_inj]

theorem path_eq_iff : path f n = path g n ↔ ∀ i < n, f i = g i := by
  simp only [path, map_inj_left, mem_range]

/-! ## The shape of a trie -/

/-- Slots hang on nodes, and no node is at two slots. -/
structure Shape (T : Slots D L N) : Prop where
  closed : ∀ p i, T (p ++ [i]) ≠ none → ∃ r, T p = some (.node r)
  inj : ∀ p q r, T p = some (.node r) → T q = some (.node r) → p = q

/-- There is nothing below a slot that is no node. -/
theorem Shape.below (h : Shape T) (hq : ∀ r, T q ≠ some (.node r)) (i : D) :
    T (q ++ [i]) = none := by
  by_contra hne
  obtain ⟨r, hr⟩ := h.closed q i hne
  exact hq r hr

theorem Shape.above (h : Shape T) (hne : T (path f n) ≠ none) (hm : m < n) :
    ∃ r, T (path f m) = some (.node r) := by
  induction n with
  | zero => cases hm
  | succ n ih =>
    rw [path_succ] at hne
    obtain ⟨r, hr⟩ := h.closed _ _ hne
    rcases Nat.lt_succ_iff_lt_or_eq.mp hm with hlt | rfl
    · exact ih (by rw [hr]; exact some_ne_none _) hlt
    · exact ⟨r, hr⟩

variable [DecidableEq D]

/-- Change a slot that has nothing below it and hangs on a node. -/
theorem Shape.put (h : Shape T) (hparent : ∃ r, T p = some (.node r))
    (hbelow : ∀ j, T (p ++ [i] ++ [j]) = none)
    (hfresh : ∀ r, x = some (.node r) → ∀ p, T p ≠ some (.node r)) :
    Shape (update T (p ++ [i]) x) where
  closed p' j hne := by
    by_cases hchild : p' ++ [j] = p ++ [i]
    · obtain ⟨rfl, rfl⟩ := append_one_inj.mp hchild
      rw [update_of_ne (by simp)]
      exact hparent
    · rw [update_of_ne hchild] at hne
      have hother : p' ≠ p ++ [i] := by
        rintro rfl
        exact hne (hbelow j)
      rw [update_of_ne hother]
      exact h.closed p' j hne
  inj p' q' r hp' hq' := by
    simp only [update_apply] at hp' hq'
    split_ifs at hp' hq' with hp hq hq
    · rw [hp, hq]
    · exact absurd hq' (hfresh r hp' q')
    · exact absurd hp' (hfresh r hq' p')
    · exact h.inj p' q' r hp' hq'

/-! ## Leaves -/

omit [DecidableEq D] in
theorem leaf_unique (h : Shape T) (hm : T (path f m) = some (.leaf o))
    (hn : T (path f n) = some (.leaf l)) : m = n := by
  have hnot : ∀ {a b : Nat} {u v : L}, T (path f a) = some (.leaf u) →
      T (path f b) = some (.leaf v) → ¬ a < b := by
    intro a b u v ha hb hlt
    obtain ⟨r, hr⟩ := h.above (by rw [hb]; exact some_ne_none _) hlt
    cases ha.symm.trans hr
  rcases Nat.lt_trichotomy m n with hlt | rfl | hlt
  · exact absurd hlt (hnot hm hn)
  · rfl
  · exact absurd hlt (hnot hn hm)

/-- The leaves of a trie are those in `os`, each at a beginning of its key. -/
structure Placed (T : Slots D L N) (digits : L → Nat → D) (os : Set L) : Prop where
  placed : ∀ o ∈ os, ∃ n, T (path (digits o) n) = some (.leaf o)
  only : ∀ p o, T p = some (.leaf o) → o ∈ os ∧ p = path (digits o) p.length

omit [DecidableEq D] in
/-- **A descent along the key of a leaf ends at the leaf.** -/
theorem leaf_at (h : Shape T) (hplaced : Placed T digits os) (ho : o ∈ os)
    (hnode : T (path (digits o) m) = some (.node r))
    (hend : ∀ r, T (path (digits o) (m + 1)) ≠ some (.node r)) :
    T (path (digits o) (m + 1)) = some (.leaf o) := by
  obtain ⟨n, hn⟩ := hplaced.placed o ho
  rcases Nat.lt_trichotomy n (m + 1) with hlt | rfl | hlt
  · rcases Nat.lt_succ_iff_lt_or_eq.mp hlt with hbefore | rfl
    · obtain ⟨r', hr'⟩ := h.above (by rw [hnode]; exact some_ne_none _) hbefore
      cases hn.symm.trans hr'
    · cases hn.symm.trans hnode
  · exact hn
  · obtain ⟨r', hr'⟩ := h.above (by rw [hn]; exact some_ne_none _) hlt
    exact absurd hr' (hend r')

omit [DecidableEq D] in
/-- The beginning of a key that leads to a leaf is its own. -/
theorem leaf_alone (h : Shape T) (hplaced : Placed T digits os) (ho : o ∈ os) (hne : o ≠ l)
    (hl : T (path (digits l) n) = some (.leaf l)) : ∃ i < n, digits o i ≠ digits l i := by
  by_contra hagree
  push Not at hagree
  obtain ⟨m, hm⟩ := hplaced.placed o ho
  rw [← path_eq_iff.mpr hagree] at hl
  obtain rfl := leaf_unique h hm hl
  cases hm.symm.trans hl
  exact hne rfl

variable {digits' : L → Nat → D}

omit [DecidableEq D] in
/-- Only the keys of the leaves matter. -/
theorem Placed.congr (h : Placed T digits os)
    (heq : ∀ o ∈ os, digits' o = digits o) : Placed T digits' os where
  placed o ho := by
    rw [heq o ho]
    exact h.placed o ho
  only p o hp := by
    obtain ⟨ho, hpath⟩ := h.only p o hp
    rw [heq o ho]
    exact ⟨ho, hpath⟩

theorem Placed.put_leaf (h : Placed T digits os) (hq : q = path (digits o) n) (hfree : T q = none) :
    Placed (update T q (some (.leaf o))) digits (insert o os) where
  placed o' ho' := by
    rcases Set.mem_insert_iff.mp ho' with rfl | hold
    · exact ⟨n, by rw [← hq, update_self]⟩
    · obtain ⟨n', hn'⟩ := h.placed o' hold
      refine ⟨n', ?_⟩
      rwa [update_of_ne]
      rintro rfl
      cases hfree.symm.trans hn'
  only p o' hp := by
    rw [update_apply] at hp
    split_ifs at hp with heq
    · cases hp
      exact ⟨Set.mem_insert _ _, by rw [heq, hq, path_length]⟩
    · obtain ⟨hmem, hpath⟩ := h.only p o' hp
      exact ⟨Set.mem_insert_of_mem o hmem, hpath⟩

theorem Placed.take_leaf (hshape : Shape T) (h : Placed T digits os) (hq : T q = some (.leaf o)) :
    Placed (update T q none) digits (os \ {o}) where
  placed o' ho' := by
    obtain ⟨n', hn'⟩ := h.placed o' ho'.1
    refine ⟨n', ?_⟩
    rwa [update_of_ne]
    rintro rfl
    cases hn'.symm.trans hq
    exact ho'.2 rfl
  only p o' hp := by
    rw [update_apply] at hp
    split_ifs at hp with heq
    obtain ⟨hmem, hpath⟩ := h.only p o' hp
    refine ⟨⟨hmem, fun heq' => ?_⟩, hpath⟩
    obtain rfl : o' = o := heq'
    obtain ⟨-, hqpath⟩ := h.only q o' hq
    rw [hpath] at hp
    rw [hqpath] at hq
    exact heq (by rw [hpath, hqpath, leaf_unique hshape hp hq])

theorem Placed.put_node (h : Placed T digits os) (hfree : T q = none) :
    Placed (update T q (some (.node r))) digits os where
  placed o ho := by
    obtain ⟨n, hn⟩ := h.placed o ho
    refine ⟨n, ?_⟩
    rwa [update_of_ne]
    rintro rfl
    cases hfree.symm.trans hn
  only p o hp := by
    rw [update_apply] at hp
    split_ifs at hp
    · cases hp
    · exact h.only p o hp

theorem Placed.take_node (h : Placed T digits os) (hq : T q = some (.node r)) :
    Placed (update T q none) digits os where
  placed o ho := by
    obtain ⟨n, hn⟩ := h.placed o ho
    refine ⟨n, ?_⟩
    rwa [update_of_ne]
    rintro rfl
    cases hq.symm.trans hn
  only p o hp := by
    rw [update_apply] at hp
    split_ifs at hp
    exact h.only p o hp

/-! ## Compact tries -/

/-- Two leaves of `os` begin like this. -/
def Shared (digits : L → Nat → D) (os : Set L) (p : List D) : Prop :=
  ∃ o ∈ os, ∃ o' ∈ os, o ≠ o' ∧ path (digits o) p.length = p ∧ path (digits o') p.length = p

/-- There are nodes, besides the root, only where two leaves of `os` have to be told apart. -/
def Compact (T : Slots D L N) (digits : L → Nat → D) (os : Set L) : Prop :=
  ∀ p r, p ≠ [] → T p = some (.node r) → Shared digits os p

omit [DecidableEq D] in
theorem Shared.mono {os' : Set L} (h : Shared digits os p) (hsub : os ⊆ os') :
    Shared digits os' p := by
  obtain ⟨o, ho, o', ho', hrest⟩ := h
  exact ⟨o, hsub ho, o', hsub ho', hrest⟩

omit [DecidableEq D] in
theorem Compact.congr (h : Compact T digits os)
    (heq : ∀ o ∈ os, digits' o = digits o) : Compact T digits' os := by
  intro p r hp hr
  obtain ⟨o, ho, o', ho', hne, hpath, hpath'⟩ := h p r hp hr
  exact ⟨o, ho, o', ho', hne, (heq o ho).symm ▸ hpath, (heq o' ho').symm ▸ hpath'⟩

omit [DecidableEq D] in
theorem Compact.mono {os' : Set L} (h : Compact T digits os) (hsub : os ⊆ os') :
    Compact T digits os' := fun p r hp hr => (h p r hp hr).mono hsub

omit [DecidableEq D] in
theorem path_of_path_append (h : path f (p ++ q).length = p ++ q) : path f p.length = p := by
  have htake := congrArg (List.take p.length) h
  rw [take_left', path, ← map_take, take_range] at htake
  · rwa [List.length_append, min_eq_left (Nat.le_add_right _ _)] at htake
  · rfl

omit [DecidableEq D] in
/-- What is shared below is shared above. -/
theorem Shared.above (h : Shared digits os (p ++ q)) : Shared digits os p := by
  obtain ⟨o, ho, o', ho', hne, hpath, hpath'⟩ := h
  exact ⟨o, ho, o', ho', hne, path_of_path_append hpath, path_of_path_append hpath'⟩

omit [DecidableEq D] in
/-- Two leaves that differ before `b` share less than `b` digits. -/
theorem Shared.length_lt {b : Nat} (h : Shared digits os p)
    (hapart : ∀ o ∈ os, ∀ o' ∈ os, o ≠ o' → ∃ n < b, digits o n ≠ digits o' n) : p.length < b := by
  obtain ⟨o, ho, o', ho', hne, hpath, hpath'⟩ := h
  obtain ⟨n, hn, hdiffer⟩ := hapart o ho o' ho' hne
  by_contra hle
  exact hdiffer (path_eq_iff.mp (hpath.trans hpath'.symm) n (by omega))

omit [DecidableEq D] in
/-- Where the leaves of a slot in use begin. -/
theorem exists_below (hplaced : Placed T digits os)
    (hcompact : Compact T digits (insert o os)) (hp : p ≠ []) (hne : T p ≠ none) :
    ∃ l ∈ os, path (digits l) p.length = p := by
  cases hslot : T p with
  | none => exact absurd hslot hne
  | some x =>
    cases x with
    | leaf l =>
      obtain ⟨hmem, hpath⟩ := hplaced.only p l hslot
      exact ⟨l, hmem, hpath.symm⟩
    | node r =>
      obtain ⟨l, hl, l', hl', hne, hpath, hpath'⟩ := hcompact p r hp hslot
      rcases Set.mem_insert_iff.mp hl with rfl | hl
      · rcases Set.mem_insert_iff.mp hl' with rfl | hl'
        · exact absurd rfl hne
        · exact ⟨l', hl', hpath'⟩
      · exact ⟨l, hl, hpath⟩

omit [DecidableEq D] in
/-- Below a node on the path of a leaf there is a slot in use. -/
theorem exists_child (h : Shape T) (hplaced : Placed T digits os) (hl : l ∈ os)
    (hpath : path (digits l) p.length = p) (hnode : T p = some (.node r)) :
    T (p ++ [digits l p.length]) ≠ none := by
  obtain ⟨n, hn⟩ := hplaced.placed l hl
  rw [← hpath] at hnode
  have hlt : p.length < n := by
    rcases Nat.lt_trichotomy n p.length with hlt | rfl | hlt
    · obtain ⟨r', hr'⟩ := h.above (by rw [hnode]; exact some_ne_none _) hlt
      cases hn.symm.trans hr'
    · cases hn.symm.trans hnode
    · exact hlt
  have hnext : T (path (digits l) (p.length + 1)) ≠ none := by
    rcases Nat.lt_or_ge (p.length + 1) n with hbefore | hle
    · obtain ⟨r', hr'⟩ := h.above (by rw [hn]; exact some_ne_none _) hbefore
      rw [hr']
      exact some_ne_none _
    · rw [show p.length + 1 = n by omega, hn]
      exact some_ne_none _
  rwa [path_succ, hpath] at hnext

omit [DecidableEq D] in
/-- Below two slots of a node in use there are two leaves. -/
theorem shared_of_two (hplaced : Placed T digits os) (hcompact : Compact T digits (insert o os))
    (hij : i ≠ j) (hi : T (p ++ [i]) ≠ none) (hj : T (p ++ [j]) ≠ none) : Shared digits os p := by
  obtain ⟨l, hl, hpath⟩ := exists_below hplaced hcompact (by simp) hi
  obtain ⟨l', hl', hpath'⟩ := exists_below hplaced hcompact (by simp) hj
  refine ⟨l, hl, l', hl', ?_, path_of_path_append hpath, path_of_path_append hpath'⟩
  rintro rfl
  rw [List.length_append] at hpath hpath'
  exact hij (append_one_inj.mp (hpath.symm.trans hpath')).2

/-! ## Removing a leaf -/

/-- After the leaf `o` was taken out, the nodes on its path from level `n` on may have to go. -/
structure Loose (T : Slots D L N) (digits : L → Nat → D) (os : Set L) (o : L) (n : Nat) : Prop where
  compact : Compact T digits (insert o os)
  strict : ∀ m r, n < m → T (path (digits o) m) = some (.node r) →
    Shared digits os (path (digits o) m)

omit [DecidableEq D] in
/-- A node that is not on the path of `o` tells two other leaves apart. -/
theorem Compact.of_insert (h : Compact T digits (insert o os)) (hp : p ≠ [])
    (hnode : T p = some (.node r)) (hoff : path (digits o) p.length ≠ p) : Shared digits os p := by
  obtain ⟨l, hl, l', hl', hne, hpath, hpath'⟩ := h p r hp hnode
  have hin : ∀ {u : L}, u ∈ insert o os → path (digits u) p.length = p → u ∈ os := by
    intro u hu hpath
    rcases Set.mem_insert_iff.mp hu with rfl | hu
    · exact absurd hpath hoff
    · exact hu
  exact ⟨l, hin hl hpath, l', hin hl' hpath', hne, hpath, hpath'⟩

omit [DecidableEq D] in
/-- The walk may stop at a node that tells two leaves apart. -/
theorem Loose.compact_of_shared (h : Loose T digits os o n)
    (hshared : n = 0 ∨ Shared digits os (path (digits o) n)) : Compact T digits os := by
  intro p r hp hnode
  by_cases hon : path (digits o) p.length = p
  · rw [← hon]
    rw [← hon] at hnode
    rcases Nat.lt_or_ge n p.length with hlt | hle
    · exact h.strict _ r hlt hnode
    · have hpos := length_pos_of_ne_nil hp
      rcases hshared with rfl | hshared
      · omega
      · refine Shared.above (q := (path (digits o) n).drop p.length) ?_
        have htake : path (digits o) p.length = (path (digits o) n).take p.length := by
          rw [path, path, ← map_take, take_range, min_eq_left hle]
        rw [htake, take_append_drop]
        exact hshared
  · exact h.compact.of_insert hp hnode hon

omit [DecidableEq D] in
/-- A node whose child is a node tells two leaves apart. -/
theorem Loose.shared_of_child (h : Loose T digits os o n) (hp : p.length = n)
    (hnode : T (p ++ [i]) = some (.node r)) : Shared digits os p := by
  refine Shared.above (q := [i]) ?_
  by_cases hon : path (digits o) (p ++ [i]).length = p ++ [i]
  · rw [← hon]
    rw [← hon] at hnode
    exact h.strict _ r (by simp [hp]) hnode
  · exact h.compact.of_insert (by simp) hnode hon

end Foundation.DigitTrie
