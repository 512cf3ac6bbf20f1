import Mathlib.Data.List.Induction

/-!
# Outcomes of fallible computations

`Outcome E P x` says that `x` returns something in `P` or raises an error in `E`. It is proved
along the steps of a computation: `Outcome.bind` for two steps, `outcome_foldlM` for a loop whose
invariant depends on what is done.
-/

namespace Foundation

open List

variable {ε α β σ : Type} {E : ε → Prop} {P : α → Prop} {Q : β → Prop}

/-- A result in `P`, or an error in `E`. -/
def Outcome (E : ε → Prop) (P : α → Prop) : Except ε α → Prop
  | .ok a => P a
  | .error e => E e

variable {x : Except ε α}

theorem Outcome.of_eq_ok {a : α} (h : Outcome E P x) (hx : x = .ok a) : P a := by
  rw [hx] at h
  exact h

theorem Outcome.bind {f : α → Except ε β} (h : Outcome E P x)
    (hf : ∀ a, P a → Outcome E Q (f a)) : Outcome E Q (x >>= f) := by
  cases x with
  | ok a => exact hf a h
  | error e => exact h

theorem Outcome.mono {P' : α → Prop} (h : Outcome E P x) (hP : ∀ a, P a → P' a) :
    Outcome E P' x := by
  cases x with
  | ok a => exact hP a h
  | error e => exact h

/-- **Loops**: every round keeps the invariant. -/
theorem outcome_foldlM {I : List α → σ → Prop} {step : σ → α → Except ε σ} {s : σ} {xs : List α}
    (hinit : I [] s) (hstep : ∀ done x rest, xs = done ++ x :: rest → ∀ s, I done s →
      Outcome E (I (done ++ [x])) (step s x)) : Outcome E (I xs) (xs.foldlM step s) := by
  induction xs using List.reverseRecOn with
  | nil => exact hinit
  | append_singleton xs last ih =>
    have hbefore := ih fun done x rest heq => hstep done x (rest ++ [last]) (by rw [heq]; simp)
    rw [foldlM_append]
    refine hbefore.bind fun s hs => ?_
    exact (hstep xs last [] rfl s hs).bind fun s' hs' => hs'

/-- The loop over the numbers below a bound. -/
theorem outcome_foldlM_range {I : Nat → σ → Prop} {step : σ → Nat → Except ε σ} {s : σ} {n : Nat}
    (hinit : I 0 s) (hstep : ∀ k < n, ∀ s, I k s → Outcome E (I (k + 1)) (step s k)) :
    Outcome E (I n) ((List.range n).foldlM step s) := by
  have hloop : Outcome E (I (List.range n).length) ((List.range n).foldlM step s) := by
    refine outcome_foldlM (I := fun done => I done.length) hinit fun done x rest heq s hs => ?_
    have hlt : done.length < n := by
      have hlength := congrArg List.length heq
      rw [length_range, List.length_append, length_cons] at hlength
      omega
    have hx : x = done.length := by
      have hget := congrArg (fun l => l[done.length]?) heq
      simpa [hlt] using hget.symm
    rw [List.length_append, hx]
    exact hstep _ hlt s hs
  rwa [length_range] at hloop

end Foundation
