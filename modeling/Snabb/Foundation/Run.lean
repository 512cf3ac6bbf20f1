import Mathlib.Algebra.Group.Nat.Defs
import Mathlib.Data.List.Basic
import Mathlib.Data.List.Forall2
import Mathlib.Logic.Relation

/-!
# Runs of a fallible step function

A component is a step function `step : σ → ι → Except ε σ`: it takes a state and
what the environment hands it, and either returns the next state or raises. A
run folds the step function over a list of inputs and stops at the first raise.

`Along P s is` says that the run from `s` meets the condition `P` before every
step it takes. The rules of this module are what a whole-run theorem is
assembled from:

- `run_ends`: what holds at the start and is preserved by every step that meets
  the condition holds where the run returns, and its consequence where it raises;
- `run_inv`: the same for a run that is known to return;
- `run_total`, `run_total_all`: if moreover no step that meets the condition raises, the run
  returns, and the invariant holds where it ends, or in all of its states;
- `prefixes_iff`: where the condition says exactly that a step keeps the invariant,
  every beginning of the run keeps it if and only if the run meets the condition;
- `returns_good_iff`, `returns_iff`: the same for runs that must not raise;
- `run_clock`: the invariant rule for a component that looks at a clock from time
  to time.
-/

namespace Foundation

open List
open Except (ok.inj)

variable {σ ι ε : Type}

/-- Fold a fallible step function over the inputs, stopping at the first raise. -/
def run (step : σ → ι → Except ε σ) : σ → List ι → Except ε σ
  | s, [] => .ok s
  | s, i :: is =>
    match step s i with
    | .ok s' => run step s' is
    | .error e => .error e

/-- Every step of the run is taken in a state and with an input that meet `P`. -/
def Along (step : σ → ι → Except ε σ) (P : σ → ι → Prop) : σ → List ι → Prop
  | _, [] => True
  | s, i :: is => P s i ∧ ∀ s', step s i = .ok s' → Along step P s' is

variable {step : σ → ι → Except ε σ} {P : σ → ι → Prop} {s s' : σ} {i : ι} {is js : List ι}

theorem along_cons_ok (h : step s i = .ok s') :
    Along step P s (i :: is) ↔ P s i ∧ Along step P s' is := by
  rw [Along, h]
  simp

theorem along_cons_error {e : ε} (h : step s i = .error e) : Along step P s (i :: is) ↔ P s i := by
  rw [Along, h]
  simp

/-- A condition that can be decided can be decided along a run. -/
instance Along.decidable [∀ s i, Decidable (P s i)] :
    ∀ (s : σ) (is : List ι), Decidable (Along step P s is)
  | _, [] => isTrue trivial
  | s, i :: is =>
    match h : step s i with
    | .ok s' =>
      have := Along.decidable s' is
      decidable_of_iff _ (along_cons_ok h).symm
    | .error _ => decidable_of_iff _ (along_cons_error h).symm

theorem run_cons_ok (h : step s i = .ok s') : run step s (i :: is) = run step s' is := by
  simp [run, h]

/-- The first step of a run that returns has returned. -/
theorem run_cons_eq_ok {s'' : σ} (h : run step s (i :: is) = .ok s'') :
    ∃ s', step s i = .ok s' ∧ run step s' is = .ok s'' := by
  cases hs : step s i with
  | ok s' => exact ⟨s', rfl, by rwa [run_cons_ok hs] at h⟩
  | error e => simp [run, hs] at h

/-- A run over a concatenation is two runs, one after the other. -/
theorem run_append (h : run step s is = .ok s') : run step s (is ++ js) = run step s' js := by
  induction is generalizing s with
  | nil =>
    cases h
    rfl
  | cons i is ih =>
    obtain ⟨t, ht, hrest⟩ := run_cons_eq_ok h
    rw [cons_append, run_cons_ok ht]
    exact ih hrest

/-- What a run has raised ends it. -/
theorem run_append_error {e : ε} (h : run step s is = .error e) :
    run step s (is ++ js) = .error e := by
  induction is generalizing s with
  | nil => cases h
  | cons i is ih =>
    rw [run] at h
    rw [cons_append, run]
    cases hs : step s i with
    | ok t =>
      rw [hs] at h
      exact ih h
    | error e' =>
      rw [hs] at h
      exact h

/-- A run that returns has returned before its last step. -/
theorem run_snoc_eq_ok {s'' : σ} (h : run step s (is ++ [i]) = .ok s'') :
    ∃ s', run step s is = .ok s' ∧ step s' i = .ok s'' := by
  induction is generalizing s with
  | nil =>
    obtain ⟨t, ht, hnil⟩ := run_cons_eq_ok h
    cases hnil
    exact ⟨s, rfl, ht⟩
  | cons j is ih =>
    obtain ⟨t, ht, hrest⟩ := run_cons_eq_ok h
    obtain ⟨s', hs', hlast⟩ := ih hrest
    exact ⟨s', by rw [run_cons_ok ht, hs'], hlast⟩

variable {I : σ → List ι → Prop}

section

variable (hstep : ∀ s i is s', I s (i :: is) → P s i → step s i = .ok s' → I s' is)
include hstep

/-- Rule for runs that may raise: an invariant that every step meeting the
condition preserves, and that makes every raise satisfy `Q`. The invariant may
speak of the inputs still to come. -/
theorem run_ends {Q : ε → Prop}
    (hraise : ∀ s i is e, I s (i :: is) → P s i → step s i = .error e → Q e)
    (hinit : I s is) (halong : Along step P s is) :
    match run step s is with
    | .ok s' => I s' []
    | .error e => Q e := by
  induction is generalizing s with
  | nil => exact hinit
  | cons i is ih =>
    rw [run]
    cases hs : step s i with
    | ok t => exact ih (hstep s i is t hinit halong.1 hs) (halong.2 t hs)
    | error e => exact hraise s i is e hinit halong.1 hs

/-- Invariant rule: preserved by every step that meets the condition, so true
where the run ends. -/
theorem run_inv (hinit : I s is) (halong : Along step P s is) (hrun : run step s is = .ok s') :
    I s' [] := by
  have hends := run_ends (Q := fun _ => True) hstep (fun _ _ _ _ _ _ _ => trivial) hinit halong
  rwa [hrun] at hends

end

/-- Totality rule: an invariant under which no step that meets the condition
raises makes the whole run return, in a state with the invariant. -/
theorem run_total (hok : ∀ s i is, I s (i :: is) → P s i → ∃ s', step s i = .ok s' ∧ I s' is)
    (hinit : I s is) (halong : Along step P s is) : ∃ s', run step s is = .ok s' ∧ I s' [] := by
  induction is generalizing s with
  | nil => exact ⟨s, rfl, hinit⟩
  | cons i is ih =>
    obtain ⟨t, ht, hinv⟩ := hok s i is hinit halong.1
    obtain ⟨s', hs', hend⟩ := ih hinv (halong.2 t ht)
    exact ⟨s', by rw [run_cons_ok ht, hs'], hend⟩

variable {Q : σ → ι → Prop}

theorem Along.and (h : Along step P s is) (h' : Along step Q s is) :
    Along step (fun s i => P s i ∧ Q s i) s is := by
  induction is generalizing s with
  | nil => trivial
  | cons i is ih => exact ⟨⟨h.1, h'.1⟩, fun s' hs' => ih (h.2 s' hs') (h'.2 s' hs')⟩

/-- A condition along a run holds along its beginnings. -/
theorem Along.take (halong : Along step P s is) (k : Nat) : Along step P s (is.take k) := by
  induction is generalizing s k with
  | nil =>
    rw [take_nil]
    trivial
  | cons i is ih =>
    cases k with
    | zero => trivial
    | succ k => exact ⟨halong.1, fun s' hs' => ih (halong.2 s' hs') k⟩

variable {I : σ → Prop}

/-- Totality rule for all states of a run. -/
theorem run_total_all (hok : ∀ s i, I s → P s i → ∃ s', step s i = .ok s' ∧ I s')
    (hinit : I s) (halong : Along step P s is) :
    (∃ s', run step s is = .ok s') ∧ ∀ k s', run step s (is.take k) = .ok s' → I s' := by
  have hall : ∀ k, ∃ s', run step s (is.take k) = .ok s' ∧ I s' := fun k =>
    run_total (I := fun s _ => I s) (fun s i _ hI hP => hok s i hI hP) hinit (halong.take k)
  constructor
  · obtain ⟨s', hrun, -⟩ := hall is.length
    exact ⟨s', by rwa [take_length] at hrun⟩
  · intro k s' hrun
    obtain ⟨s'', hrun', hI⟩ := hall k
    exact ok.inj (hrun'.symm.trans hrun) ▸ hI

/-- What every step does to an observation, a run does step by step. -/
theorem run_observe {β : Type} {obs : σ → β} {f : β → ι → β}
    (hstep : ∀ s i s', step s i = .ok s' → obs s' = f (obs s) i) (hrun : run step s is = .ok s') :
    obs s' = is.foldl f (obs s) := by
  induction is generalizing s with
  | nil =>
    cases hrun
    rfl
  | cons i is ih =>
    obtain ⟨t, ht, hrest⟩ := run_cons_eq_ok hrun
    rw [ih hrest, hstep s i t ht, foldl_cons]

theorem Along.mono (h : ∀ s i, P s i → Q s i) (halong : Along step P s is) : Along step Q s is := by
  induction is generalizing s with
  | nil => trivial
  | cons i is ih => exact ⟨h s i halong.1, fun s' hs' => ih (halong.2 s' hs')⟩

/-- What follows from an invariant and the condition of a step holds along the run. -/
theorem Along.imp (hstep : ∀ s i s', I s → P s i → step s i = .ok s' → I s')
    (himp : ∀ s i, I s → P s i → Q s i) (hinit : I s) (halong : Along step P s is) :
    Along step Q s is := by
  induction is generalizing s with
  | nil => trivial
  | cons i is ih =>
    refine ⟨himp s i hinit halong.1, fun s' hs' => ?_⟩
    exact ih (hstep s i s' hinit halong.1 hs') (halong.2 s' hs')

/-- Exactness rule: if the condition says exactly that a step keeps the invariant, then
the beginnings of a run keep it if and only if the run meets the condition. -/
theorem prefixes_iff
    (hexact : ∀ s i, I s → (P s i ↔ ∀ s', step s i = .ok s' → I s')) (hinit : I s) :
    (∀ k s', run step s (is.take k) = .ok s' → I s') ↔ Along step P s is := by
  induction is generalizing s with
  | nil =>
    refine ⟨fun _ => trivial, fun _ k s' hrun => ?_⟩
    rw [take_nil] at hrun
    cases hrun
    exact hinit
  | cons i is ih =>
    constructor
    · intro hall
      have hkeeps : ∀ s', step s i = .ok s' → I s' := by
        intro s' hs'
        refine hall 1 s' ?_
        rw [take_succ_cons, run_cons_ok hs']
        rfl
      refine ⟨(hexact s i hinit).mpr hkeeps, fun s' hs' => (ih (hkeeps s' hs')).mp ?_⟩
      intro k t hrun
      refine hall (k + 1) t ?_
      rwa [take_succ_cons, run_cons_ok hs']
    · rintro ⟨hP, hrest⟩ k t hrun
      cases k with
      | zero =>
        cases hrun
        exact hinit
      | succ k =>
        obtain ⟨s', hs', hrun'⟩ := run_cons_eq_ok hrun
        exact (ih ((hexact s i hinit).mp hP s' hs')).mpr (hrest s' hs') k t hrun'

variable {I G : σ → Prop}

/-- Exactness rule for runs that must not raise, under an invariant and an assumption on the
steps: if the condition says exactly that a step returns and keeps the state good, then a run
returns and its beginnings are good if and only if it meets the condition. -/
theorem returns_good_iff {A : σ → ι → Prop}
    (hkeep : ∀ s i s', I s → A s i → step s i = .ok s' → I s')
    (hexact : ∀ s i, I s → G s → A s i → (P s i ↔ ∃ s', step s i = .ok s' ∧ G s'))
    (hinit : I s) (hgood : G s) (halong : Along step A s is) :
    ((∃ s', run step s is = .ok s') ∧ ∀ k s', run step s (is.take k) = .ok s' → G s') ↔
      Along step P s is := by
  induction is generalizing s with
  | nil =>
    refine ⟨fun _ => trivial, fun _ => ⟨⟨s, rfl⟩, fun k s' hrun => ?_⟩⟩
    rw [take_nil] at hrun
    cases hrun
    exact hgood
  | cons i is ih =>
    constructor
    · rintro ⟨⟨u, hu⟩, hall⟩
      obtain ⟨t, ht, hrest⟩ := run_cons_eq_ok hu
      have hG : G t := by
        refine hall 1 t ?_
        rw [take_succ_cons, run_cons_ok ht]
        rfl
      rw [along_cons_ok ht]
      refine ⟨(hexact s i hinit hgood halong.1).mpr ⟨t, ht, hG⟩,
        (ih (hkeep s i t hinit halong.1 ht) hG (halong.2 t ht)).mp ⟨⟨u, hrest⟩,
          fun k s' hrun => ?_⟩⟩
      refine hall (k + 1) s' ?_
      rwa [take_succ_cons, run_cons_ok ht]
    · intro hP
      obtain ⟨t, ht, hG⟩ := (hexact s i hinit hgood halong.1).mp hP.1
      obtain ⟨⟨u, hu⟩, hall⟩ :=
        (ih (hkeep s i t hinit halong.1 ht) hG (halong.2 t ht)).mpr (hP.2 t ht)
      refine ⟨⟨u, by rwa [run_cons_ok ht]⟩, fun k s' hrun => ?_⟩
      cases k with
      | zero =>
        cases hrun
        exact hgood
      | succ k =>
        rw [take_succ_cons, run_cons_ok ht] at hrun
        exact hall k s' hrun

/-- A condition that every step meets holds along every run. -/
theorem along_true : Along step (fun _ _ => True) s is := by
  induction is generalizing s with
  | nil => trivial
  | cons i is ih => exact ⟨trivial, fun _ _ => ih⟩

/-- Exactness rule for runs that must not raise: if the condition says exactly that a step
returns and keeps the invariant, then a run returns and its beginnings keep the invariant if
and only if it meets the condition. -/
theorem returns_iff (hexact : ∀ s i, I s → (P s i ↔ ∃ s', step s i = .ok s' ∧ I s')) (hinit : I s) :
    ((∃ s', run step s is = .ok s') ∧ ∀ k s', run step s (is.take k) = .ok s' → I s') ↔
      Along step P s is :=
  returns_good_iff (I := fun _ => True) (A := fun _ _ => True) (fun _ _ _ _ _ _ => trivial)
    (fun s i _ hI _ => hexact s i hI) trivial hinit along_true

/-- Rule for runs that may raise: if the condition says exactly that a step that returns keeps the
state good, then it makes the beginnings of a run good, and where no step raises nothing else does. -/
theorem good_prefixes {A : ι → Prop} (is : List ι)
    (hkeep : ∀ s i s', I s → step s i = .ok s' → I s')
    (hexact : ∀ s i s', I s → G s → step s i = .ok s' → (G s' ↔ P s i))
    (hreturns : ∀ s i, I s → A i → ∃ s', step s i = .ok s') (hinit : I s) (hgood : G s) :
    (Along step P s is → ∀ k s', run step s (is.take k) = .ok s' → G s') ∧
      ((∀ i ∈ is, A i) → (∀ k s', run step s (is.take k) = .ok s' → G s') → Along step P s is) := by
  constructor
  · intro halong k s' hrun
    have hinv := run_inv (I := fun s _ => I s ∧ G s)
      (fun s i _ s' h hP hs => ⟨hkeep s i s' h.1 hs, (hexact s i s' h.1 h.2 hs).mpr hP⟩)
      ⟨hinit, hgood⟩ (halong.take k) hrun
    exact hinv.2
  · intro hA hall
    induction is generalizing s with
    | nil => trivial
    | cons i is ih =>
      obtain ⟨hAi, hA⟩ := forall_mem_cons.mp hA
      obtain ⟨t, ht⟩ := hreturns s i hinit hAi
      have hG : G t := by
        refine hall 1 t ?_
        rw [take_succ_cons, run_cons_ok ht]
        rfl
      rw [along_cons_ok ht]
      refine ⟨(hexact s i t hinit hgood ht).mp hG,
        ih (hkeep s i t hinit ht) hG hA fun k s' hrun => hall (k + 1) s' ?_⟩
      rwa [take_succ_cons, run_cons_ok ht]

/-- Runs one after the other are one run. -/
theorem run_run {iss : List (List ι)} : run (run step) s iss = run step s iss.flatten := by
  induction iss generalizing s with
  | nil => rfl
  | cons is iss ih =>
    rw [run, flatten_cons]
    cases hrun : run step s is with
    | ok t => rw [run_append hrun, ← ih]
    | error e => rw [run_append_error hrun]

/-- A condition along a concatenation is one along two runs, one after the other. -/
theorem Along.append (h : Along step P s is) (hrun : run step s is = .ok s')
    (h' : Along step P s' js) : Along step P s (is ++ js) := by
  induction is generalizing s with
  | nil =>
    cases hrun
    exact h'
  | cons i is ih =>
    obtain ⟨t, ht, hrest⟩ := run_cons_eq_ok hrun
    rw [cons_append, along_cons_ok ht]
    exact ⟨h.1, ih (h.2 t ht) hrest⟩

/-- A condition that the inputs meet on their own holds along every run. -/
theorem along_of_forall {Q : ι → Prop} (h : ∀ i ∈ is, Q i) : Along step (fun _ i => Q i) s is := by
  induction is generalizing s with
  | nil => trivial
  | cons i is ih =>
    exact ⟨h i (mem_cons_self ..), fun _ _ => ih fun j hj => h j (mem_cons_of_mem _ hj)⟩

/-! ## Runs on a clock -/

/-- Rule for components that remember when they last looked at the clock: an
invariant that a step keeps whenever the time has not gone back holds where a run on
a non-decreasing clock ends. -/
theorem run_clock {K : Type} [LE K] (last : σ → Option K) (now : ι → K)
    (hstep : ∀ s i s', I s → (∀ t ∈ last s, t ≤ now i) → step s i = .ok s' →
      I s' ∧ (last s' = last s ∨ last s' = some (now i)))
    (hinit : I s) (hlast : last s = none) (hclock : is.Pairwise fun a b => now a ≤ now b)
    (hrun : run step s is = .ok s') : I s' := by
  have hinv : ∀ s i is s', (I s ∧ (∀ t ∈ last s, ∀ j ∈ i :: is, t ≤ now j) ∧
      (i :: is).Pairwise fun a b => now a ≤ now b) → True → step s i = .ok s' →
      I s' ∧ (∀ t ∈ last s', ∀ j ∈ is, t ≤ now j) ∧ is.Pairwise fun a b => now a ≤ now b := by
    rintro s i is s' ⟨hI, hpast, hsorted⟩ - hs
    obtain ⟨hfirst, hrest⟩ := pairwise_cons.mp hsorted
    obtain ⟨hI', hlast'⟩ := hstep s i s' hI (fun t ht => hpast t ht i (mem_cons_self ..)) hs
    refine ⟨hI', fun t ht j hj => ?_, hrest⟩
    rcases hlast' with hsame | hnow
    · exact hpast t (hsame ▸ ht) j (mem_cons_of_mem _ hj)
    · obtain rfl : now i = t := Option.mem_unique hnow ht
      exact hfirst j hj
  have hpast : ∀ t ∈ last s, ∀ j ∈ is, t ≤ now j := by
    intro t ht
    rw [hlast] at ht
    cases ht
  exact (run_inv (I := fun s is => I s ∧ (∀ t ∈ last s, ∀ j ∈ is, t ≤ now j) ∧
    is.Pairwise fun a b => now a ≤ now b) (P := fun _ _ => True) hinv ⟨hinit, hpast, hclock⟩
    (along_of_forall fun _ _ => trivial) hrun).1

/-! ## Systems whose moves are not always possible -/

/-- Why a sequence of moves is not a run of a system. -/
inductive Disabled where
  | disabled
deriving DecidableEq, Repr

/-- The step function of a system that says which moves are possible. -/
def enabled (move : σ → ι → Option σ) (s : σ) (i : ι) : Except Disabled σ :=
  match move s i with
  | some s' => .ok s'
  | none => .error .disabled

variable {move : σ → ι → Option σ}

theorem enabled_eq_ok : enabled move s i = .ok s' ↔ move s i = some s' := by
  unfold enabled
  split
  · next heq => simp [heq]
  · next heq => simp [heq]

/-- What every move keeps holds wherever a run of the system ends. -/
theorem run_enabled (hmove : ∀ s i s', I s → move s i = some s' → I s') (hinit : I s)
    (hrun : run (enabled move) s is = .ok s') : I s' :=
  run_inv (I := fun s _ => I s) (P := fun _ _ => True)
    (fun s i _ s' h _ hstep => hmove s i s' h (enabled_eq_ok.mp hstep)) hinit
    (along_of_forall fun _ _ => trivial) hrun

/-! ## Results -/

variable {α β : Type} {f : α → Except ε β}

/-- The inversion of a bind that returns. -/
theorem bind_eq_ok {x : Except ε α} {b : β}
    (h : (x >>= f) = .ok b) : ∃ a, x = .ok a ∧ f a = .ok b := by
  cases x with
  | error e => cases h
  | ok a => exact ⟨a, rfl, h⟩

/-- A bind goes on with what its first part returns. -/
theorem bind_of_eq_ok {x : Except ε α} {a : α} (h : x = .ok a) : (x >>= f) = f a := by
  rw [h]
  rfl

theorem bind_of_eq_error {x : Except ε α} {e : ε} (h : x = .error e) : (x >>= f) = .error e := by
  rw [h]
  rfl

/-- A computation has one result. -/
theorem ok_unique {α : Type} {x : Except ε α} {a b : α} (ha : x = .ok a) (hb : x = .ok b) : a = b :=
  ok.inj (ha.symm.trans hb)

theorem ok_pair_inj {a a' : α} {b b' : β}
    (h : (.ok (a, b) : Except ε (α × β)) = .ok (a', b')) : a = a' ∧ b = b' :=
  Prod.mk.inj (ok.inj h)

theorem map_eq_ok {x : Except ε α} {f : α → β} {b : β} (h : x.map f = .ok b) :
    ∃ a, x = .ok a ∧ f a = b := by
  cases x with
  | error e => cases h
  | ok a => exact ⟨a, rfl, ok.inj h⟩

/-- A loop returns if its body does, in every state that the loop reaches. -/
theorem foldlM_isOk {α : Type} {f : σ → α → Except ε σ} {xs : List α}
    (hbody : ∀ s, ∀ x ∈ xs, I s → ∃ s', f s x = .ok s' ∧ I s') (hinit : I s) :
    ∃ s', xs.foldlM f s = .ok s' ∧ I s' := by
  induction xs generalizing s with
  | nil => exact ⟨s, rfl, hinit⟩
  | cons x xs ih =>
    obtain ⟨t, ht, hI⟩ := hbody s x (mem_cons_self ..) hinit
    obtain ⟨s', hs', hI'⟩ := ih (fun s y hy => hbody s y (mem_cons_of_mem _ hy)) hI
    exact ⟨s', by rw [foldlM_cons, ht]; exact hs', hI'⟩

/-- Two loops with the same body for each of their elements. -/
theorem foldlM_congr {α : Type} {f g : σ → α → Except ε σ} {xs : List α}
    (h : ∀ s, ∀ x ∈ xs, f s x = g s x) (s : σ) : xs.foldlM f s = xs.foldlM g s := by
  induction xs generalizing s with
  | nil => rfl
  | cons x xs ih =>
    rw [foldlM_cons, foldlM_cons, h s x mem_cons_self]
    have hrest := ih fun s y hy => h s y (mem_cons_of_mem _ hy)
    simp only [hrest]

theorem mapM_eq_some_map {f : α → Option β} {g : α → β} {xs : List α}
    (h : ∀ x ∈ xs, f x = some (g x)) : xs.mapM f = some (xs.map g) := by
  induction xs with
  | nil => rfl
  | cons x xs ih =>
    rw [mapM_cons, h x mem_cons_self, ih fun y hy => h y (mem_cons_of_mem _ hy)]
    rfl

variable {ys : List β}

theorem isSome_of_mapM {f : α → Option β} {xs : List α}
    (h : xs.mapM f = some ys) : ∀ x ∈ xs, (f x).isSome := by
  induction xs generalizing ys with
  | nil => exact nofun
  | cons x xs ih =>
    rw [mapM_cons] at h
    obtain ⟨y, hy, h⟩ := Option.bind_eq_some_iff.mp h
    obtain ⟨ys', hys, -⟩ := Option.bind_eq_some_iff.mp h
    rintro x' (_ | ⟨_, hx⟩)
    · rw [hy]
      rfl
    · exact ih hys x' hx

theorem exists_of_mapM {f : α → Option β} {xs : List α} {y : β}
    (h : xs.mapM f = some ys) (hy : y ∈ ys) : ∃ x ∈ xs, f x = some y := by
  induction xs generalizing ys with
  | nil =>
    cases h
    cases hy
  | cons x xs ih =>
    rw [mapM_cons] at h
    obtain ⟨z, hz, h⟩ := Option.bind_eq_some_iff.mp h
    obtain ⟨zs, hzs, h⟩ := Option.bind_eq_some_iff.mp h
    cases h
    rcases mem_cons.mp hy with rfl | hy
    · exact ⟨x, mem_cons_self, hz⟩
    · obtain ⟨x', hx', hfx'⟩ := ih hzs hy
      exact ⟨x', mem_cons_of_mem _ hx', hfx'⟩

/-- A function is applied to each element of a list, and raises for none of them. -/
theorem mapM_eq_ok {xs : List α} :
    xs.mapM f = .ok ys ↔ List.Forall₂ (fun x y => f x = .ok y) xs ys := by
  induction xs generalizing ys with
  | nil =>
    rw [forall₂_nil_left_iff]
    exact ⟨fun h => (ok.inj h).symm, fun h => h ▸ rfl⟩
  | cons x xs ih =>
    rw [mapM_cons, forall₂_cons_left_iff]
    cases hx : f x with
    | error e => simp [bind, Except.bind]
    | ok y =>
      cases hxs : xs.mapM f with
      | error e =>
        have hnone : ∀ ys, ¬ List.Forall₂ (fun x y => f x = .ok y) xs ys := by
          intro ys hall
          cases hxs.symm.trans (ih.mpr hall)
        simp [bind, Except.bind, hnone]
      | ok ys' =>
        have hall := ih.mp hxs
        constructor
        · intro heq
          exact ⟨y, ys', rfl, hall, (ok.inj heq).symm⟩
        · rintro ⟨y', ys'', heq, hall', rfl⟩
          cases heq
          obtain rfl := ok_unique hxs (ih.mpr hall')
          rfl

variable {R : α → β → Prop}

/-- There are results for a list if there is one for each of its elements. -/
theorem exists_results {xs : List α} (h : ∀ x ∈ xs, ∃ y, R x y) : ∃ ys, List.Forall₂ R xs ys := by
  induction xs with
  | nil => exact ⟨[], .nil⟩
  | cons x xs ih =>
    obtain ⟨hhead, htail⟩ := forall_mem_cons.mp h
    obtain ⟨y, hy⟩ := hhead
    obtain ⟨ys, hys⟩ := ih htail
    exact ⟨y :: ys, .cons hy hys⟩

theorem exists_result {xs : List α}
    (h : List.Forall₂ R xs ys) {x : α} (hx : x ∈ xs) : ∃ y ∈ ys, R x y := by
  induction h with
  | nil => cases hx
  | cons hhead _ ih =>
    rcases mem_cons.mp hx with rfl | htail
    · exact ⟨_, mem_cons_self, hhead⟩
    · obtain ⟨y, hy, hR⟩ := ih htail
      exact ⟨y, mem_cons_of_mem _ hy, hR⟩

theorem exists_element {xs : List α}
    (h : List.Forall₂ R xs ys) {y : β} (hy : y ∈ ys) : ∃ x ∈ xs, R x y :=
  exists_result h.flip hy

variable {r : Except ε σ}

/-- A result that passes a check is a returned state that passes it. -/
theorem ok_of_any {q : σ → Bool} (h : r.toOption.any q = true) : ∃ s, r = .ok s ∧ q s = true := by
  cases r with
  | error e => cases h
  | ok s => exact ⟨s, rfl, h⟩

/-- A result is a state with a property if it passes a check of which this follows. -/
theorem exists_ok_of_any {P : σ → Prop} (q : σ → Prop) [DecidablePred q]
    (h : r.toOption.any (fun s => q s) = true) (hP : ∀ s, r = .ok s → q s → P s) :
    ∃ s, r = .ok s ∧ P s := by
  obtain ⟨s, hs, hq⟩ := ok_of_any h
  exact ⟨s, hs, hP s hs (of_decide_eq_true hq)⟩

/-- What a result raises. -/
def raised : Except ε σ → Option ε
  | .error e => some e
  | .ok _ => none

theorem error_of_any {q : ε → Bool} (h : (raised r).any q = true) :
    ∃ e, r = .error e ∧ q e = true := by
  cases r with
  | error e => exact ⟨e, rfl, h⟩
  | ok s => cases h

end Foundation
