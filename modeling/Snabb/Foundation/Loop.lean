import Mathlib.Data.Set.Basic
import Mathlib.Tactic.Common

/-!
# Loops

A loop is given by its round: from a state it goes on with another one or leaves with a result.
`loop` makes a bounded number of rounds, and `Ends` says that some number of them is enough.

- `not_ends_of_closed`: a loop that cannot get out of a set of states does not end.
- `step_after`: a loop that does not end goes through a sequence of states.
-/

namespace Foundation

variable {σ α : Type} {step : σ → σ ⊕ α}

/-- At most `fuel` rounds. -/
def loop (step : σ → σ ⊕ α) : Nat → σ → Option α
  | 0, _ => none
  | fuel + 1, s =>
    match step s with
    | .inl s' => loop step fuel s'
    | .inr a => some a

/-- Some number of rounds is enough. -/
def Ends (step : σ → σ ⊕ α) (s : σ) : Prop := ∃ fuel a, loop step fuel s = some a

theorem loop_inl {s s' : σ} (h : step s = .inl s') (fuel : Nat) :
    loop step (fuel + 1) s = loop step fuel s' := by
  rw [loop, h]

variable {s : σ} {a : α}

theorem loop_inr (h : step s = .inr a) (fuel : Nat) : loop step (fuel + 1) s = some a := by
  rw [loop, h]

/-- More rounds than are needed change nothing. -/
theorem loop_add {fuel : Nat} (h : loop step fuel s = some a) (more : Nat) :
    loop step (fuel + more) s = some a := by
  induction fuel generalizing s with
  | zero => cases h
  | succ fuel ih =>
    rw [Nat.succ_add]
    cases hstep : step s with
    | inl s' =>
      rw [loop_inl hstep] at h ⊢
      exact ih h
    | inr b =>
      rw [loop_inr hstep] at h ⊢
      exact h

theorem ends_inl {s s' : σ} (h : step s = .inl s') : Ends step s ↔ Ends step s' := by
  constructor
  · rintro ⟨fuel, a, hloop⟩
    cases fuel with
    | zero => cases hloop
    | succ fuel => exact ⟨fuel, a, by rwa [loop_inl h] at hloop⟩
  · rintro ⟨fuel, a, hloop⟩
    exact ⟨fuel + 1, a, by rwa [loop_inl h]⟩

theorem ends_inr (h : step s = .inr a) : Ends step s := ⟨1, a, loop_inr h 0⟩

/-- **A loop that stays in a set does not end.** -/
theorem not_ends_of_closed (S : Set σ) (h : ∀ s ∈ S, ∃ s' ∈ S, step s = .inl s')
    (hs : s ∈ S) : ¬ Ends step s := by
  rintro ⟨fuel, a, hloop⟩
  induction fuel generalizing s with
  | zero => cases hloop
  | succ fuel ih =>
    obtain ⟨s', hs', hstep⟩ := h s hs
    rw [loop_inl hstep] at hloop
    exact ih hs' hloop

/-- The next state, as long as there is one. -/
def follow (step : σ → σ ⊕ α) (s : σ) : σ :=
  match step s with
  | .inl s' => s'
  | .inr _ => s

/-- The state after a number of rounds. -/
def after (step : σ → σ ⊕ α) (s : σ) : Nat → σ
  | 0 => s
  | n + 1 => follow step (after step s n)

/-- **A loop that does not end has a next state after every number of rounds.** -/
theorem step_after (h : ¬ Ends step s) (n : Nat) :
    ¬ Ends step (after step s n) ∧ step (after step s n) = .inl (after step s (n + 1)) := by
  have hnext {s : σ} (h : ¬ Ends step s) : step s = .inl (follow step s) := by
    unfold follow
    cases hstep : step s with
    | inl s' => rfl
    | inr a => exact absurd (ends_inr hstep) h
  induction n with
  | zero => exact ⟨h, hnext h⟩
  | succ n ih =>
    have hgoes := (ends_inl ih.2).not.mp ih.1
    exact ⟨hgoes, hnext hgoes⟩

end Foundation
