import Snabb.Foundation.Run

/-!
# Two runs side by side

A component that must not depend on some part of its inputs is run twice, on inputs that differ in
that part only. `Agree` says that two fallible computations end in the same way: both return, with
related values, or both raise, with related errors. `run_agree` is the rule for whole runs.
-/

namespace Foundation

variable {σ σ' ι ι' ε ε' A A' B B' : Type}

/-- Both computations return related values, or both raise related errors. -/
inductive Agree (R : A → A' → Prop) (E : ε → ε' → Prop) : Except ε A → Except ε' A' → Prop where
  | ok {a : A} {a' : A'} (h : R a a') : Agree R E (.ok a) (.ok a')
  | error {e : ε} {e' : ε'} (h : E e e') : Agree R E (.error e) (.error e')

variable {R : A → A' → Prop} {E : ε → ε' → Prop} {x : Except ε A} {x' : Except ε' A'}

/-- **Two runs**: steps that end in the same way make runs that end in the same way. -/
theorem run_agree {step : σ → ι → Except ε σ} {step' : σ' → ι' → Except ε' σ'}
    {R : σ → σ' → Prop} {I : ι → ι' → Prop}
    (hstep : ∀ s s' i i', R s s' → I i i' → Agree R E (step s i) (step' s' i'))
    {s : σ} {s' : σ'} {is : List ι} {is' : List ι'} (hR : R s s') (his : List.Forall₂ I is is') :
    Agree R E (run step s is) (run step' s' is') := by
  induction his generalizing s s' with
  | nil => exact .ok hR
  | @cons i i' is is' hi _ ih =>
    have hone := hstep s s' i i' hR hi
    rw [run, run]
    generalize step s i = x, step' s' i' = x' at hone
    cases hone with
    | ok h => exact ih h
    | error h => exact .error h

end Foundation
