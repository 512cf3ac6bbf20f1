import Mathlib.Data.List.Basic
import Mathlib.Tactic.Common

/-!
# Results of a search

A search with backtracking gives one result and a way to ask for the next one. It is the sequence of
its results, which ends when it fails or when asking does not return.

- `orElse`: the results of one search and then those of another;
- `bind`: for each result of a search the results of another one;
- `andThen`: the first result only, and what is found from there.

Whatever is found is found by one of the parts (`mem_of_mem_orElse`, `mem_of_mem_bind`). That all is
found takes searches that end (`mem_orElse_right`, `mem_bind`).
-/

namespace Foundation

/-- The results of a search. -/
inductive Matches (α : Type) where
  | fail
  | diverge
  | found (a : α) (more : Matches α)
deriving Repr

namespace Matches

variable {α β : Type} {a : α} {b : β} {x y : Matches α} {f : α → Matches β}

/-- One of the results. -/
inductive Mem : α → Matches α → Prop where
  | head (a : α) (more : Matches α) : Mem a (found a more)
  | tail {a b : α} {more : Matches α} (h : Mem a more) : Mem a (found b more)

instance : Membership α (Matches α) := ⟨fun x a => Mem a x⟩

/-- All results can be asked for. -/
def Ends : Matches α → Prop
  | fail => True
  | diverge => False
  | found _ more => more.Ends

@[simp] theorem not_mem_fail : a ∉ (fail : Matches α) := nofun

@[simp] theorem not_mem_diverge : a ∉ (diverge : Matches α) := nofun

@[simp] theorem mem_found {b : α} {more : Matches α} : a ∈ found b more ↔ a = b ∨ a ∈ more := by
  constructor
  · rintro (_ | h)
    · exact .inl rfl
    · exact .inr h
  · rintro (rfl | h)
    · exact .head _ _
    · exact .tail h

/-- A result is all that there is. -/
def one (a : α) : Matches α := found a fail

@[simp] theorem mem_one {b : α} : a ∈ one b ↔ a = b := by
  rw [one, mem_found, or_iff_left not_mem_fail]

/-- First the results of one search, then those of the other. -/
def orElse : Matches α → Matches α → Matches α
  | fail, y => y
  | diverge, _ => diverge
  | found a more, y => found a (more.orElse y)

/-- What is found by one search and then the other is found by one of them. -/
theorem mem_of_mem_orElse (h : a ∈ x.orElse y) : a ∈ x ∨ a ∈ y := by
  induction x with
  | fail => exact .inr h
  | diverge => exact absurd h not_mem_diverge
  | found b more ih =>
    rw [mem_found]
    rcases mem_found.mp h with rfl | hmore
    · exact .inl (.inl rfl)
    · exact (ih hmore).imp .inr id

/-- The results of the first search are not lost. -/
theorem mem_orElse_left (h : a ∈ x) : a ∈ x.orElse y := by
  induction x with
  | fail => exact absurd h not_mem_fail
  | diverge => exact absurd h not_mem_diverge
  | found b more ih => exact mem_found.mpr ((mem_found.mp h).imp id ih)

/-- The second search is asked if the first one ends. -/
theorem mem_orElse_right (hx : x.Ends) (h : a ∈ y) : a ∈ x.orElse y := by
  induction x with
  | fail => exact h
  | diverge => exact hx.elim
  | found b more ih => exact .tail (ih hx)

/-- One search that ends and then another one end. -/
theorem Ends.orElse (hx : x.Ends) (hy : y.Ends) : (x.orElse y).Ends := by
  induction x with
  | fail => exact hy
  | diverge => exact hx
  | found b more ih => exact ih hx

/-- The results of a search from each of the results. -/
def bind : Matches α → (α → Matches β) → Matches β
  | fail, _ => fail
  | diverge, _ => diverge
  | found a more, f => (f a).orElse (more.bind f)

/-- What is found from the results is found from one of them. -/
theorem mem_of_mem_bind (h : b ∈ x.bind f) : ∃ a ∈ x, b ∈ f a := by
  induction x with
  | fail => exact absurd h not_mem_fail
  | diverge => exact absurd h not_mem_diverge
  | found a more ih =>
    rcases mem_of_mem_orElse h with ha | hmore
    · exact ⟨a, .head _ _, ha⟩
    · obtain ⟨a', ha', hb⟩ := ih hmore
      exact ⟨a', .tail ha', hb⟩

/-- What is found from a result is found if no search before it fails to end. -/
theorem mem_bind (hf : ∀ a ∈ x, (f a).Ends) (ha : a ∈ x) (hb : b ∈ f a) : b ∈ x.bind f := by
  induction x with
  | fail => exact absurd ha not_mem_fail
  | diverge => exact absurd ha not_mem_diverge
  | found a' more ih =>
    rcases mem_found.mp ha with rfl | hmore
    · exact mem_orElse_left hb
    · exact mem_orElse_right (hf _ (.head _ _)) (ih (fun a h => hf a (.tail h)) hmore)

/-- A search that ends, with one that ends from each result, ends. -/
theorem Ends.bind (hx : x.Ends) (hf : ∀ a ∈ x, (f a).Ends) : (x.bind f).Ends := by
  induction x with
  | fail => trivial
  | diverge => exact hx
  | found a more ih => exact (hf a (.head _ _)).orElse (ih hx fun a h => hf a (.tail h))

/-- What is found from the first result. -/
def andThen : Matches α → (α → Matches β) → Matches β
  | fail, _ => fail
  | diverge, _ => diverge
  | found a _, f => f a

/-- What is found from the first result is found from a result. -/
theorem mem_of_mem_andThen (h : b ∈ x.andThen f) : ∃ a ∈ x, b ∈ f a := by
  cases x with
  | fail => exact absurd h not_mem_fail
  | diverge => exact absurd h not_mem_diverge
  | found a more => exact ⟨a, .head _ _, h⟩

/-- If there is but one result, nothing is lost. -/
theorem andThen_eq (h : a ∈ x) (hone : ∀ a' ∈ x, a' = a) : x.andThen f = f a := by
  cases x with
  | fail => exact absurd h not_mem_fail
  | diverge => exact absurd h not_mem_diverge
  | found a' more => rw [andThen, hone a' (.head _ _)]

/-- Less is asked than by `bind`, so it ends as well. -/
theorem Ends.andThen (hx : x.Ends) (hf : ∀ a ∈ x, (f a).Ends) : (x.andThen f).Ends := by
  cases x with
  | fail => trivial
  | diverge => exact hx
  | found a more => exact hf a (.head _ _)

end Matches

end Foundation
