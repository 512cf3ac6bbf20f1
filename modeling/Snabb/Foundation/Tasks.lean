import Mathlib.Data.List.Basic
import Mathlib.Tactic.Common

/-!
# Working through tasks

A computation that works through a list of tasks fails at the first of them that it cannot do.
`Yields` says this of a computation and the tasks it has, together with what holds of its value and
behind it if it can do them all, and `Works` says it of a computation without a value. Computations
in sequence have their tasks in sequence (`Yields.bind`, `Works.bind`), so the tasks of a whole
program are known without a look at the states between.
-/

namespace Foundation

open List

variable {σ ε ι A B : Type} {C : ι → Prop} {E : ι → ε → Prop} {ts ts' : List ι} {s s' : σ}

/-- The computation does the tasks that can be done, as `C` says. Either these are all, and `J`
holds when it returns, or it fails at the first other one, with an error that `E` allows. -/
def Yields (C : ι → Prop) (E : ι → ε → Prop) (ts : List ι) (x : StateT σ (Except ε) A) (s : σ)
    (J : A → σ → Prop) : Prop :=
  ((∀ t ∈ ts, C t) ∧ ∃ a s', x s = .ok (a, s') ∧ J a s') ∨
    ∃ pre t post e, ts = pre ++ t :: post ∧ (∀ t' ∈ pre, C t') ∧ ¬ C t ∧ x s = .error e ∧ E t e

section Yields

variable {x x' : StateT σ (Except ε) A} {f : A → StateT σ (Except ε) B} {J J' : A → σ → Prop}
  {K : B → σ → Prop} {a : A}

theorem Yields.done (h : x s = .ok (a, s')) (hJ : J a s') : Yields C E [] x s J :=
  .inl ⟨fun _ ht => absurd ht not_mem_nil, a, s', h, hJ⟩

variable {t : ι}

theorem Yields.one (hC : C t) (h : x s = .ok (a, s')) (hJ : J a s') : Yields C E [t] x s J :=
  .inl ⟨fun _ ht => mem_singleton.mp ht ▸ hC, a, s', h, hJ⟩

theorem Yields.fail {e : ε} (hC : ¬ C t) (h : x s = .error e) (hE : E t e) : Yields C E [t] x s J :=
  .inr ⟨[], t, [], e, rfl, fun _ ht => absurd ht not_mem_nil, hC, h, hE⟩

theorem Yields.mono (h : Yields C E ts x s J) (hJ : ∀ a s', J a s' → J' a s') :
    Yields C E ts x s J' := by
  rcases h with ⟨hC, a, s', hx, hs'⟩ | h
  · exact .inl ⟨hC, a, s', hx, hJ a s' hs'⟩
  · exact .inr h

/-- Behind the computation it is known that the tasks could be done. -/
theorem Yields.known (h : Yields C E ts x s J) :
    Yields C E ts x s fun a s' => J a s' ∧ ∀ t ∈ ts, C t := by
  rcases h with ⟨hC, a, s', hx, hJ⟩ | h
  · exact .inl ⟨hC, a, s', hx, hJ, hC⟩
  · exact .inr h

/-- A computation that goes on from another state as another one does. -/
theorem Yields.of_eq (heq : x' s' = x s) (h : Yields C E ts x s J) : Yields C E ts x' s' J := by
  unfold Yields
  rw [heq]
  exact h

/-- **One computation after the other.** -/
theorem Yields.bind (h : Yields C E ts x s J) (h' : ∀ a s', J a s' → Yields C E ts' (f a) s' K) :
    Yields C E (ts ++ ts') (x >>= f) s K := by
  rcases h with ⟨hC, a, s', hx, hJ⟩ | ⟨pre, t, post, e, rfl, hpre, hC, hx, hE⟩
  · have hbind : (x >>= f) s = f a s' := by
      simp only [Bind.bind, StateT.bind, hx]
      rfl
    unfold Yields
    rw [hbind]
    rcases h' a s' hJ with ⟨hC', b, s'', hy, hK⟩ | ⟨pre, t, post, e, rfl, hpre, hC', hy, hE⟩
    · refine .inl ⟨fun t ht => ?_, b, s'', hy, hK⟩
      exact (mem_append.mp ht).elim (hC t) (hC' t)
    · refine .inr ⟨ts ++ pre, t, post, e, (append_assoc _ _ _).symm, fun t' ht' => ?_, hC', hy,
        hE⟩
      exact (mem_append.mp ht').elim (hC t') (hpre t')
  · refine .inr ⟨pre, t, post ++ ts', e, by simp, hpre, hC, ?_, hE⟩
    simp only [Bind.bind, StateT.bind, hx]
    rfl

end Yields

variable {x y : StateT σ (Except ε) Unit} {J K : σ → Prop}

/-- The same for a computation without a value. -/
def Works (C : ι → Prop) (E : ι → ε → Prop) (ts : List ι) (x : StateT σ (Except ε) Unit) (s : σ)
    (J : σ → Prop) : Prop := Yields C E ts x s fun _ => J

theorem Works.done (h : x s = .ok ((), s')) (hJ : J s') : Works C E [] x s J := Yields.done h hJ

theorem Works.one (hC : C t) (h : x s = .ok ((), s')) (hJ : J s') : Works C E [t] x s J :=
  Yields.one hC h hJ

theorem Works.fail {e : ε} (hC : ¬ C t) (h : x s = .error e) (hE : E t e) :
    Works C E [t] x s J := Yields.fail hC h hE

theorem Works.mono (h : Works C E ts x s J) (hJK : ∀ s', J s' → K s') : Works C E ts x s K :=
  Yields.mono h fun _ => hJK

theorem Works.of_eq (heq : y s' = x s) (h : Works C E ts x s J) : Works C E ts y s' J :=
  Yields.of_eq heq h

theorem Works.known (h : Works C E ts x s J) :
    Works C E ts x s fun s' => J s' ∧ ∀ t ∈ ts, C t := Yields.known h

theorem Works.bind (h : Works C E ts x s J) (h' : ∀ s', J s' → Works C E ts' y s' K) :
    Works C E (ts ++ ts') (x >>= fun _ => y) s K := Yields.bind h fun _ => h'

theorem Works.bind_done (h : Works C E [] x s J) (h' : ∀ s', J s' → Works C E ts y s' K) :
    Works C E ts (x >>= fun _ => y) s K := h.bind h'

variable {f : A → StateT σ (Except ε) Unit} {as : List A}

/-- **A computation for each element of a list.** The invariant is about the elements that are
left. -/
theorem Works.forM {tasks : A → List ι} (I : List A → σ → Prop)
    (h : ∀ a rest s, I (a :: rest) s → Works C E (tasks a) (f a) s (I rest)) {s : σ}
    (hI : I as s) : Works C E (as.flatMap tasks) (as.forM f) s (I []) := by
  induction as generalizing s with
  | nil => exact .done rfl hI
  | cons a as ih =>
    exact (h a as s hI).bind fun s' hs' => ih hs'

/-- A computation without tasks for each element of a list. -/
theorem Works.forM_done (I : List A → σ → Prop)
    (h : ∀ a rest s, I (a :: rest) s → Works C E [] (f a) s (I rest)) {s : σ}
    (hI : I as s) : Works C E [] (as.forM f) s (I []) := by
  have hforM : Works C E (as.flatMap fun _ => []) (as.forM f) s (I []) := Works.forM I h hI
  rwa [flatMap_eq_nil_iff.mpr fun _ _ => rfl] at hforM

section

variable (h : Works C E ts x s J)
include h

/-- Where all tasks can be done, it returns. -/
theorem Works.returns (hC : ∀ t ∈ ts, C t) : ∃ s', x s = .ok ((), s') ∧ J s' := by
  rcases h with ⟨-, a, s', hok⟩ | ⟨pre, t, post, e, rfl, -, hnot, -⟩
  · exact ⟨s', hok⟩
  · exact absurd (hC t (by simp)) hnot

/-- What holds whenever it returns holds as well. -/
theorem Works.and (hK : ∀ s', x s = .ok ((), s') → K s') :
    Works C E ts x s fun s' => J s' ∧ K s' := by
  rcases h with ⟨hC, a, s', hx, hJ⟩ | h
  · exact .inl ⟨hC, a, s', hx, hJ, hK s' hx⟩
  · exact .inr h

/-- Where it returns, all tasks could be done. -/
theorem Works.of_ok (hx : x s = .ok ((), s')) : (∀ t ∈ ts, C t) ∧ J s' := by
  rcases h with ⟨hC, a, s'', hx', hJ⟩ | ⟨pre, t, post, e, -, -, -, hx', -⟩
  · rw [hx] at hx'
    cases hx'
    exact ⟨hC, hJ⟩
  · rw [hx] at hx'
    cases hx'

/-- Where it fails, it does so at the first task that cannot be done. -/
theorem Works.of_error {e : ε} (hx : x s = .error e) :
    ∃ pre t post, ts = pre ++ t :: post ∧ (∀ t' ∈ pre, C t') ∧ ¬ C t ∧ E t e := by
  rcases h with ⟨-, a, s', hx', -⟩ | ⟨pre, t, post, e', hts, hpre, hC, hx', hE⟩
  · rw [hx] at hx'
    cases hx'
  · rw [hx] at hx'
    cases hx'
    exact ⟨pre, t, post, hts, hpre, hC, hE⟩

end

/-- A task that cannot be done stops it, if none in front of it does. -/
theorem Works.stops (h : Works C E (ts ++ t :: ts') x s J) (ht : ¬ C t) :
    ∃ t' ∈ ts ++ [t], ∃ e, x s = .error e ∧ ¬ C t' ∧ E t' e := by
  rcases h with ⟨hC, -⟩ | ⟨pre, t', post, e, hts, hpre, hC, hx, hE⟩
  · exact absurd (hC t (by simp)) ht
  · refine ⟨t', ?_, e, hx, hC, hE⟩
    rcases append_eq_append_iff.mp hts with ⟨mid, hmid, hrest⟩ | ⟨mid, hmid, hrest⟩
    · cases mid with
      | nil =>
        cases hrest
        simp
      | cons first mid =>
        cases hrest
        exact absurd (hpre t (by rw [hmid]; simp)) ht
    · cases mid with
      | nil =>
        cases hrest
        simp
      | cons first mid =>
        cases hrest
        rw [hmid]
        simp

end Foundation
