import Mathlib.Algebra.Group.Nat.Defs
import Mathlib.Data.List.Basic
import Mathlib.Data.List.Induction
import Mathlib.Data.List.Nodup
import Mathlib.Order.Nat
import Mathlib.Tactic.Common

/-!
# Binary tries

A binary trie branches on the bits of a key, and a node may have a value. `walk` follows a path of
bits, `best` gives the last value met on the way. A walk that leaves the trie goes on in the absent
trie.

- `best_append`: a walk may be cut anywhere, handing over what was met so far;
- `value_walk_insert`, `present_walk_insert`: what an insertion changes;
- `best_ofList`: in a trie of entries a walk meets the longest entry that begins its path, the last
  one of those with the same path.

A path of `n` bits is also a number below `2 ^ n`, its `index`.
-/

namespace Foundation

open List

/-- A binary trie. -/
inductive BitTrie (V : Type) where
  | absent
  | node (value : Option V) (left right : BitTrie V)
deriving DecidableEq, Repr

namespace BitTrie

variable {V : Type}

def value : BitTrie V → Option V
  | absent => none
  | node value _ _ => value

/-- What is below on one side. -/
def side : BitTrie V → Bool → BitTrie V
  | absent, _ => absent
  | node _ left _, false => left
  | node _ _ right, true => right

def present : BitTrie V → Bool
  | absent => false
  | node _ _ _ => true

def hasChildren (t : BitTrie V) : Bool := (t.side false).present || (t.side true).present

def height : BitTrie V → Nat
  | absent => 0
  | node _ left right => max left.height right.height + 1

/-- What is below at the end of a path. -/
def walk : BitTrie V → List Bool → BitTrie V
  | t, [] => t
  | t, b :: p => walk (t.side b) p

/-- The last value on a path, or else the default. -/
def best : BitTrie V → Option V → List Bool → Option V
  | t, default, [] => t.value.or default
  | t, default, b :: p => best (t.side b) (t.value.or default) p

/-- Give the node at the end of a path a value. -/
def insert (v : V) : BitTrie V → List Bool → BitTrie V
  | t, [] => node (some v) (t.side false) (t.side true)
  | t, false :: p => node t.value (insert v (t.side false) p) (t.side true)
  | t, true :: p => node t.value (t.side false) (insert v (t.side true) p)

/-- The trie of a list of entries. -/
def ofList (es : List (List Bool × V)) : BitTrie V :=
  es.foldl (fun t e => t.insert e.2 e.1) absent

variable {t : BitTrie V} {d : Option V} {v : V} {b : Bool} {p q : List Bool}
  {es : List (List Bool × V)}

@[simp] theorem walk_absent (p : List Bool) : (absent : BitTrie V).walk p = absent := by
  induction p with
  | nil => rfl
  | cons b p ih => exact ih

@[simp] theorem best_absent (d : Option V) (p : List Bool) : absent.best d p = d := by
  induction p with
  | nil => rfl
  | cons b p ih => exact ih

theorem walk_append (t : BitTrie V) (p q : List Bool) : t.walk (p ++ q) = (t.walk p).walk q := by
  induction p generalizing t with
  | nil => rfl
  | cons b p ih => exact ih (t.side b)

/-- A default that the trie overrides anyway makes no difference. -/
theorem best_or (t : BitTrie V) (d : Option V) (p : List Bool) :
    t.best (t.value.or d) p = t.best d p := by
  have hor : t.value.or (t.value.or d) = t.value.or d := by
    cases t.value with
    | none => rfl
    | some v => rfl
  cases p with
  | nil => exact hor
  | cons b p => rw [best, best, hor]

theorem best_append (t : BitTrie V) (d : Option V) (p q : List Bool) :
    t.best d (p ++ q) = (t.walk p).best (t.best d p) q := by
  induction p generalizing t d with
  | nil => exact (best_or t d q).symm
  | cons b p ih => exact ih (t.side b) (t.value.or d)

/-- The default counts where nothing is met. -/
theorem best_eq_or (t : BitTrie V) (d : Option V) (p : List Bool) :
    t.best d p = (t.best none p).or d := by
  induction p generalizing t d with
  | nil =>
    rw [best, best]
    cases t.value with
    | none => rfl
    | some v => rfl
  | cons b p ih =>
    rw [best, best, ih, ih (t.side b) (t.value.or none)]
    cases (t.side b).best none p with
    | none =>
      cases t.value with
      | none => rfl
      | some v => rfl
    | some v => rfl

theorem not_present_iff : t.present = false ↔ t = absent := by
  cases t with
  | absent => exact iff_of_true rfl rfl
  | node value left right => exact iff_of_false Bool.noConfusion nofun

/-- Below a node without children there is nothing. -/
theorem side_of_not_hasChildren (h : t.hasChildren = false) (b : Bool) : t.side b = absent := by
  obtain ⟨hleft, hright⟩ := Bool.or_eq_false_iff.mp h
  cases b with
  | false => exact not_present_iff.mp hleft
  | true => exact not_present_iff.mp hright

theorem best_of_not_hasChildren (h : t.hasChildren = false) (d : Option V) (p : List Bool) :
    t.best d p = t.value.or d := by
  cases p with
  | nil => rfl
  | cons b p => rw [best, side_of_not_hasChildren h, best_absent]

theorem hasChildren_iff : t.hasChildren ↔ ∃ b, (t.side b).present := by
  rw [hasChildren, Bool.or_eq_true]
  constructor
  · rintro (h | h)
    · exact ⟨false, h⟩
    · exact ⟨true, h⟩
  · rintro ⟨b, h⟩
    cases b with
    | false => exact .inl h
    | true => exact .inr h

/-- A node with something below it has children. -/
theorem hasChildren_of_present_walk (h : (t.walk (b :: p)).present) : t.hasChildren := by
  cases hside : t.side b with
  | absent =>
    rw [walk, hside, walk_absent] at h
    cases h
  | node value left right => exact hasChildren_iff.mpr ⟨b, by rw [hside]; rfl⟩

theorem hasChildren_of_walk (h : (t.walk p).hasChildren) : t.hasChildren := by
  cases p with
  | nil => exact h
  | cons b p =>
    obtain ⟨b', hb'⟩ := hasChildren_iff.mp h
    have heq : t.walk (b :: (p ++ [b'])) = (t.walk (b :: p)).side b' := walk_append t (b :: p) [b']
    exact hasChildren_of_present_walk (p := p ++ [b']) (by rwa [heq])

/-- Behind a node without children the walk stays outside. -/
theorem not_hasChildren_append (h : (t.walk p).hasChildren = false) (q : List Bool) :
    (t.walk (p ++ q)).hasChildren = false := by
  rw [walk_append]
  by_contra hgoes
  rw [hasChildren_of_walk (Bool.not_eq_false _ ▸ hgoes)] at h
  cases h

/-- Behind a node without children nothing more is met. -/
theorem best_append_of_not_hasChildren (h : (t.walk p).hasChildren = false) (d : Option V)
    (q : List Bool) : t.best d (p ++ q) = t.best d p := by
  have hend := best_append t d p []
  rw [append_nil] at hend
  rw [best_append, best_of_not_hasChildren h]
  exact hend.symm

theorem present_of_hasChildren (h : t.hasChildren) : t.present := by
  cases t with
  | absent => cases h
  | node value left right => rfl

theorem height_side_lt (h : t.present) (b : Bool) : (t.side b).height < t.height := by
  cases t with
  | absent => cases h
  | node value left right =>
    cases b with
    | false => exact Nat.lt_succ_of_le (Nat.le_max_left _ _)
    | true => exact Nat.lt_succ_of_le (Nat.le_max_right _ _)

/-- Every step of a walk that ends in the trie goes down. -/
theorem height_walk (h : (t.walk p).present) : (t.walk p).height + p.length ≤ t.height := by
  induction p generalizing t with
  | nil => exact le_rfl
  | cons b p ih =>
    have hlt := height_side_lt (present_of_hasChildren (hasChildren_of_present_walk h)) b
    have hle := ih (t := t.side b) h
    have heq : t.walk (b :: p) = (t.side b).walk p := rfl
    rw [heq, length_cons]
    omega

/-! ## Insertions -/

@[simp] theorem side_insert_cons (t : BitTrie V) (c : Bool) :
    (t.insert v (b :: p)).side c = if c = b then (t.side b).insert v p else t.side c := by
  cases b <;> cases c <;> rfl

@[simp] theorem value_insert_cons (t : BitTrie V) : (t.insert v (b :: p)).value = t.value := by
  cases b <;> rfl

theorem side_insert_nil (t : BitTrie V) (c : Bool) : (t.insert v []).side c = t.side c := by
  cases c <;> rfl

theorem present_insert (t : BitTrie V) (p : List Bool) : (t.insert v p).present := by
  cases p with
  | nil => rfl
  | cons b p => cases b <;> rfl

theorem value_walk_insert (t : BitTrie V) (v : V) (p q : List Bool) :
    ((t.insert v q).walk p).value = if p = q then some v else (t.walk p).value := by
  induction q generalizing t p with
  | nil =>
    cases p with
    | nil => rfl
    | cons c p => rw [walk, side_insert_nil, if_neg (cons_ne_nil c p), walk]
  | cons b q ih =>
    cases p with
    | nil => rw [walk, value_insert_cons, if_neg (cons_ne_nil b q).symm, walk]
    | cons c p =>
      rw [walk, side_insert_cons, walk]
      by_cases hcb : c = b
      · rw [if_pos hcb, ih, hcb]
        simp only [List.cons.injEq, true_and]
      · rw [if_neg hcb, if_neg fun h => hcb (List.cons.inj h).1]

theorem present_walk_insert (t : BitTrie V) (v : V) (p q : List Bool) :
    ((t.insert v q).walk p).present ↔ (t.walk p).present ∨ p <+: q := by
  induction q generalizing t p with
  | nil =>
    cases p with
    | nil => exact iff_of_true rfl (.inr (prefix_refl _))
    | cons c p =>
      rw [walk, side_insert_nil, prefix_nil]
      exact (or_iff_left (cons_ne_nil c p)).symm
  | cons b q ih =>
    cases p with
    | nil => exact iff_of_true (present_insert t _) (.inr nil_prefix)
    | cons c p =>
      rw [walk, side_insert_cons, walk, cons_prefix_cons]
      by_cases hcb : c = b
      · rw [if_pos hcb, ih, hcb, and_iff_right rfl]
      · rw [if_neg hcb, or_iff_left fun h => hcb h.1]

theorem ofList_concat (es : List (List Bool × V)) (e : List Bool × V) :
    ofList (es ++ [e]) = (ofList es).insert e.2 e.1 := by
  rw [ofList, foldl_append]
  rfl

/-- There is a node wherever an entry passes. -/
theorem present_walk_ofList : ((ofList es).walk p).present ↔ ∃ e ∈ es, p <+: e.1 := by
  induction es using List.reverseRecOn with
  | nil => simp [ofList, present]
  | append_singleton es e ih =>
    rw [ofList_concat, present_walk_insert, ih]
    simp only [mem_append, mem_singleton, or_and_right, exists_or, exists_eq_left]

/-- A node has children if an entry goes on there. -/
theorem hasChildren_walk_ofList :
    ((ofList es).walk p).hasChildren ↔ ∃ e ∈ es, p <+: e.1 ∧ p.length < e.1.length := by
  rw [hasChildren_iff]
  have hside b : ((ofList es).walk p).side b = (ofList es).walk (p ++ [b]) := by
    rw [walk_append]
    rfl
  simp only [hside, present_walk_ofList]
  constructor
  · rintro ⟨b, e, he, hprefix⟩
    have hlength := hprefix.length_le
    rw [List.length_append] at hlength
    exact ⟨e, he, (prefix_append p [b]).trans hprefix, hlength⟩
  · rintro ⟨e, he, ⟨r, hr⟩, hlength⟩
    cases r with
    | nil =>
      rw [← hr, append_nil] at hlength
      exact absurd hlength (lt_irrefl _)
    | cons b r => exact ⟨b, e, he, r, by rw [← hr, append_assoc]; rfl⟩

/-- `v` is the value of the last entry with the path. -/
def IsLast (es : List (List Bool × V)) (p : List Bool) (v : V) : Prop :=
  ∃ before after, es = before ++ (p, v) :: after ∧ ∀ e ∈ after, e.1 ≠ p

theorem value_walk_ofList : ((ofList es).walk p).value = some v ↔ IsLast es p v := by
  induction es using List.reverseRecOn with
  | nil =>
    refine iff_of_false ?_ ?_
    · rw [ofList, foldl_nil, walk_absent]
      exact nofun
    · rintro ⟨before, after, h, -⟩
      simp at h
  | append_singleton es e ih =>
    rw [ofList_concat, value_walk_insert]
    by_cases hpath : p = e.1
    · rw [if_pos hpath, Option.some.injEq]
      constructor
      · intro hvalue
        exact ⟨es, [], by rw [hpath, ← hvalue], by simp⟩
      · rintro ⟨before, after, heq, hafter⟩
        rcases eq_nil_or_concat' after with rfl | ⟨after, last, rfl⟩
        · obtain ⟨-, hlast⟩ := append_inj' heq rfl
          rw [(List.cons.inj hlast).1]
        · rw [← cons_append, ← append_assoc] at heq
          obtain ⟨-, hlast⟩ := append_inj' heq rfl
          have hne := hafter last (by simp)
          rw [← (List.cons.inj hlast).1] at hne
          exact absurd hpath.symm hne
    · rw [if_neg hpath, ih]
      constructor
      · rintro ⟨before, after, rfl, hafter⟩
        refine ⟨before, after ++ [e], by simp, fun e' he' => ?_⟩
        rcases mem_append.mp he' with he' | he'
        · exact hafter e' he'
        · rw [mem_singleton.mp he']
          exact Ne.symm hpath
      · rintro ⟨before, after, heq, hafter⟩
        rcases eq_nil_or_concat' after with rfl | ⟨after, last, rfl⟩
        · obtain ⟨-, hlast⟩ := append_inj' heq rfl
          rw [(List.cons.inj hlast).1] at hpath
          exact absurd rfl hpath
        · rw [← cons_append, ← append_assoc] at heq
          obtain ⟨hes, -⟩ := append_inj' heq rfl
          exact ⟨before, after, hes, fun e' he' => hafter e' (mem_append_left _ he')⟩

theorem exists_isLast {e : List Bool × V} (he : e ∈ es) : ∃ v, IsLast es e.1 v := by
  induction es using List.reverseRecOn with
  | nil => cases he
  | append_singleton es last ih =>
    by_cases hlast : last.1 = e.1
    · exact ⟨last.2, es, [], by rw [← hlast], by simp⟩
    · rcases mem_append.mp he with he | he
      · obtain ⟨v, before, after, rfl, hafter⟩ := ih he
        refine ⟨v, before, after ++ [last], by simp, fun e' he' => ?_⟩
        rcases mem_append.mp he' with he' | he'
        · exact hafter e' he'
        · rwa [mem_singleton.mp he']
      · exact absurd (congrArg Prod.fst (mem_singleton.mp he)).symm hlast

/-- **What a walk meets**: nothing, or the value of the last node with one. -/
theorem best_cases (t : BitTrie V) (d : Option V) (p : List Bool) :
    ((∀ q, q <+: p → (t.walk q).value = none) ∧ t.best d p = d) ∨
      ∃ q v, q <+: p ∧ (t.walk q).value = some v ∧ t.best d p = some v ∧
        ∀ r, r <+: p → q.length < r.length → (t.walk r).value = none := by
  induction p generalizing t d with
  | nil =>
    cases hvalue : t.value with
    | none =>
      refine .inl ⟨fun q hq => ?_, by rw [best, hvalue]; rfl⟩
      rw [prefix_nil.mp hq]
      exact hvalue
    | some v =>
      refine .inr ⟨[], v, prefix_refl _, hvalue, by rw [best, hvalue]; rfl, fun r hr hlt => ?_⟩
      rw [prefix_nil.mp hr] at hlt
      cases hlt
  | cons b p ih =>
    rcases ih (t.side b) (t.value.or d) with ⟨hnone, hbest⟩ | ⟨q, v, hq, hvalue, hbest, hlonger⟩
    · cases hvalue : t.value with
      | none =>
        refine .inl ⟨fun q hq => ?_, hbest.trans (by rw [hvalue]; rfl)⟩
        rcases prefix_cons_iff.mp hq with rfl | ⟨q, rfl, hq'⟩
        · exact hvalue
        · exact hnone q hq'
      | some v =>
        refine .inr ⟨[], v, nil_prefix, hvalue, hbest.trans (by rw [hvalue]; rfl),
          fun r hr hlt => ?_⟩
        rcases prefix_cons_iff.mp hr with rfl | ⟨r, rfl, hr'⟩
        · cases hlt
        · exact hnone r hr'
    · refine .inr ⟨b :: q, v, cons_prefix_cons.mpr ⟨rfl, hq⟩, hvalue, hbest,
        fun r hr hlt => ?_⟩
      rcases prefix_cons_iff.mp hr with rfl | ⟨r, rfl, hr'⟩
      · cases hlt
      · exact hlonger r hr' (Nat.lt_of_succ_lt_succ hlt)

/-- `v` is the value of the longest entry that begins the path, the last one with its path. -/
def IsLongest (es : List (List Bool × V)) (p : List Bool) (v : V) : Prop :=
  ∃ q, q <+: p ∧ IsLast es q v ∧ ∀ e ∈ es, e.1 <+: p → e.1.length ≤ q.length

/-- **A walk through a trie of entries** meets the longest one. -/
theorem best_ofList (es : List (List Bool × V)) (p : List Bool) :
    (ofList es).best none p = none ∧ (∀ e ∈ es, ¬ e.1 <+: p) ∨
      ∃ v, (ofList es).best none p = some v ∧ IsLongest es p v := by
  -- Every entry has left a value at the end of its path.
  have hvalue {e : List Bool × V} (he : e ∈ es) : ((ofList es).walk e.1).value ≠ none := by
    obtain ⟨v, hlast⟩ := exists_isLast he
    rw [value_walk_ofList.mpr hlast]
    exact Option.some_ne_none v
  rcases best_cases (ofList es) none p with ⟨hnone, hbest⟩ | ⟨q, v, hq, hv, hbest, hlonger⟩
  · exact .inl ⟨hbest, fun e he hprefix => hvalue he (hnone e.1 hprefix)⟩
  · refine .inr ⟨v, hbest, q, hq, value_walk_ofList.mp hv, fun e he hprefix => ?_⟩
    by_contra hlt
    exact hvalue he (hlonger e.1 hprefix (Nat.lt_of_not_le hlt))

/-! ## Paths as numbers -/

/-- The number of a path, the first bit being the highest. -/
def index : List Bool → Nat
  | [] => 0
  | b :: p => b.toNat * 2 ^ p.length + index p

theorem index_lt (p : List Bool) : index p < 2 ^ p.length := by
  induction p with
  | nil => exact Nat.one_pos
  | cons b p ih =>
    rw [index, length_cons]
    cases b with
    | false => rw [Bool.toNat_false]; omega
    | true => rw [Bool.toNat_true]; omega

/-- All paths of a length, in the order of their numbers. -/
def paths : Nat → List (List Bool)
  | 0 => [[]]
  | n + 1 => (paths n).map (false :: ·) ++ (paths n).map (true :: ·)

theorem mem_paths {n : Nat} : p ∈ paths n ↔ p.length = n := by
  induction n generalizing p with
  | zero => rw [paths, mem_singleton, length_eq_zero_iff]
  | succ n ih =>
    rw [paths]
    cases p with
    | nil => simp
    | cons b p =>
      cases b with
      | false => simp [ih]
      | true => simp [ih]

theorem map_index_paths (n : Nat) : (paths n).map index = List.range (2 ^ n) := by
  induction n with
  | zero => rfl
  | succ n ih =>
    have hleft : ((paths n).map (false :: ·)).map index = List.range (2 ^ n) := by
      rw [← ih, map_map]
      refine map_congr_left fun p _ => ?_
      simp [index]
    have hright : ((paths n).map (true :: ·)).map index =
        (List.range (2 ^ n)).map (2 ^ n + ·) := by
      rw [← ih, map_map, map_map]
      refine map_congr_left fun p hp => ?_
      simp [index, mem_paths.mp hp]
    rw [paths, map_append, hleft, hright, ← range_add, Nat.pow_succ, Nat.mul_two]

theorem nodup_index_paths (n : Nat) : ((paths n).map index).Nodup := by
  rw [map_index_paths]
  exact nodup_range

theorem exists_index {n k : Nat} (h : k < 2 ^ n) : ∃ p ∈ paths n, index p = k := by
  rw [← mem_map, map_index_paths]
  exact mem_range.mpr h

end BitTrie

end Foundation
