import Mathlib.Data.List.Induction
import Mathlib.Data.List.Perm.Basic
import Mathlib.Data.List.Sort
import Mathlib.Logic.Function.Basic

/-!
# Steps in any order

The steps of a run may fail, and their order may not be known. `Steady` says that all orders end
alike, `Doomed` that all of them fail.

- `foldlM_perm`: steps that commute may be taken in any order;
- `foldlM_eq_none_iff`: where no step decides whether another one fails, the run fails if and only
  if a step fails by itself;
- `Cellwise.steady_iff`: a state of independent cells is steady if one of the cells is doomed, or
  if all of them are steady;
- `steady_image`: steps that do nothing may be left out.
-/

namespace Foundation

open List

variable {σ ι κ V α : Type}

/-- All orders of the steps end alike. -/
def Steady (step : σ → ι → Option σ) (s : σ) (is : List ι) : Prop :=
  ∀ l₁ l₂ : List ι, l₁.Perm is → l₂.Perm is → l₁.foldlM step s = l₂.foldlM step s

/-- All orders of the steps fail. -/
def Doomed (step : σ → ι → Option σ) (s : σ) (is : List ι) : Prop :=
  ∀ l : List ι, l.Perm is → l.foldlM step s = none

variable {step : σ → ι → Option σ} {s s' : σ} {is l l₁ l₂ : List ι} {i : ι}

theorem Doomed.steady (h : Doomed step s is) : Steady step s is := by
  intro l₁ l₂ h₁ h₂
  rw [h l₁ h₁, h l₂ h₂]

theorem foldlM_snoc (l : List ι) (i : ι) :
    (l ++ [i]).foldlM step s = (l.foldlM step s).bind (step · i) := by
  rw [foldlM_append]
  refine congrArg (Option.bind _) (funext fun s' => ?_)
  rw [foldlM_cons]
  cases step s' i with
  | none => rfl
  | some s'' => rfl

/-- A run that comes to a step that fails. -/
theorem foldlM_eq_none_of_split (h : ∀ s', l₁.foldlM step s = some s' → step s' i = none) :
    (l₁ ++ i :: l₂).foldlM step s = none := by
  rw [foldlM_append]
  cases hbefore : l₁.foldlM step s with
  | none => rfl
  | some s' =>
    show (i :: l₂).foldlM step s' = none
    rw [foldlM_cons, h s' hbefore]
    rfl

/-- A run that comes to no step that fails. -/
theorem exists_foldlM (h : ∀ before i after, l = before ++ i :: after → ∀ s',
    before.foldlM step s = some s' → step s' i ≠ none) : ∃ s', l.foldlM step s = some s' := by
  induction l using List.reverseRecOn with
  | nil => exact ⟨s, rfl⟩
  | append_singleton l i ih =>
    obtain ⟨s₁, hs₁⟩ := ih fun before j after heq =>
      h before j (after ++ [i]) (by rw [heq]; simp)
    obtain ⟨s₂, hs₂⟩ := Option.ne_none_iff_exists'.mp (h l i [] rfl s₁ hs₁)
    refine ⟨s₂, ?_⟩
    rw [foldlM_snoc, hs₁]
    exact hs₂

/-- What is kept by the steps of a run holds where it ends. -/
theorem foldlM_inv {I : σ → Prop} (hinit : I s)
    (hstep : ∀ i ∈ l, ∀ s s', I s → step s i = some s' → I s') (h : l.foldlM step s = some s') :
    I s' := by
  induction l generalizing s with
  | nil =>
    cases h
    exact hinit
  | cons i l ih =>
    rw [foldlM_cons] at h
    obtain ⟨s₁, hs₁, h⟩ := Option.bind_eq_some_iff.mp h
    exact ih (hstep i mem_cons_self s s₁ hinit hs₁)
      (fun j hj => hstep j (mem_cons_of_mem i hj)) h

/-- **Steps that commute** may be taken in any order. -/
theorem foldlM_perm (h : l₁.Perm l₂) (hcomm : ∀ i ∈ l₁, ∀ j ∈ l₁, ∀ s,
    (step s i).bind (step · j) = (step s j).bind (step · i)) :
    l₁.foldlM step s = l₂.foldlM step s := by
  induction h generalizing s with
  | nil => rfl
  | cons i _ ih =>
    rw [foldlM_cons]
    refine congrArg (Option.bind _) (funext fun s' => ih fun j hj k hk => ?_)
    exact hcomm j (mem_cons_of_mem i hj) k (mem_cons_of_mem i hk)
  | swap i j l =>
    simp only [foldlM_cons]
    have hswap := hcomm j mem_cons_self i (mem_cons_of_mem j mem_cons_self) s
    have hassoc (a b : ι) : (step s a >>= fun s' => step s' b >>= fun s'' => l.foldlM step s'') =
        ((step s a).bind (step · b)).bind fun s'' => l.foldlM step s'' :=
      (Option.bind_assoc _ _ _).symm
    rw [hassoc, hassoc, hswap]
  | trans hfirst _ ih₁ ih₂ =>
    refine (ih₁ hcomm).trans (ih₂ fun i hi j hj => ?_)
    exact hcomm i (hfirst.mem_iff.mpr hi) j (hfirst.mem_iff.mpr hj)

/-- **Steps that do not decide whether others fail**: the run fails if a step fails by itself. -/
theorem foldlM_eq_none_iff {I : σ → Prop} (hinit : I s)
    (h : ∀ i ∈ l, ∀ s s', I s → step s i = some s' →
      I s' ∧ ∀ j ∈ l, (step s' j = none ↔ step s j = none)) :
    l.foldlM step s = none ↔ ∃ i ∈ l, step s i = none := by
  -- no beginning of the run changes what fails
  have hsame before (hsub : before ⊆ l) {s' : σ}
      hs' : ∀ j ∈ l, (step s' j = none ↔ step s j = none) :=
    (foldlM_inv (I := fun s' => I s' ∧ ∀ j ∈ l, (step s' j = none ↔ step s j = none))
      ⟨hinit, fun _ _ => Iff.rfl⟩
      (fun i hi s₁ s₂ hI hs₂ => ⟨(h i (hsub hi) s₁ s₂ hI.1 hs₂).1, fun j hj =>
        ((h i (hsub hi) s₁ s₂ hI.1 hs₂).2 j hj).trans (hI.2 j hj)⟩) hs').2
  constructor
  · intro hnone
    by_contra hall
    obtain ⟨s', hs'⟩ : ∃ s', l.foldlM step s = some s' := by
      refine exists_foldlM fun before i after heq s' hs' hfail => hall ⟨i, ?_, ?_⟩
      · rw [heq]
        simp
      · exact (hsame before (by rw [heq]; exact subset_append_left _ _) hs' i
          (by rw [heq]; simp)).mp hfail
    rw [hs'] at hnone
    cases hnone
  · rintro ⟨i, hi, hfail⟩
    obtain ⟨before, after, heq⟩ := append_of_mem hi
    have hsub : before ⊆ l := by
      rw [heq]
      exact subset_append_left _ _
    rw [heq]
    exact foldlM_eq_none_of_split fun s' hs' => (hsame before hsub hs' i hi).mpr hfail

/-! ## Independent cells -/

/-- Every cell of the state goes its own way, and a step fails if it fails for one of them. -/
def Cellwise (step : (κ → V) → ι → Option (κ → V)) (act : κ → V → ι → Option V)
    (is : List ι) : Prop :=
  ∀ i ∈ is, ∀ s s', step s i = some s' ↔ ∀ k, act k (s k) i = some (s' k)

section Cells

variable {step : (κ → V) → ι → Option (κ → V)} {act : κ → V → ι → Option V} {s s' : κ → V}

variable (h : Cellwise step act is)
include h

theorem Cellwise.foldlM_eq_some (hl : l ⊆ is) :
    l.foldlM step s = some s' ↔ ∀ k, l.foldlM (act k) (s k) = some (s' k) := by
  induction l generalizing s with
  | nil =>
    simp only [foldlM_nil, Option.pure_def, Option.some.injEq]
    exact funext_iff
  | cons i l ih =>
    have hi := h i (hl mem_cons_self)
    have hrest := subset_of_cons_subset hl
    simp only [foldlM_cons]
    constructor
    · intro hrun
      obtain ⟨s₁, hs₁, hrun⟩ := Option.bind_eq_some_iff.mp hrun
      intro k
      exact Option.bind_eq_some_iff.mpr ⟨s₁ k, (hi s s₁).mp hs₁ k, (ih hrest).mp hrun k⟩
    · intro hcells
      choose s₁ hs₁ hrun using fun k => Option.bind_eq_some_iff.mp (hcells k)
      exact Option.bind_eq_some_iff.mpr ⟨s₁, (hi s s₁).mpr hs₁, (ih hrest).mpr hrun⟩

theorem Cellwise.foldlM_eq_none (hl : l ⊆ is) :
    l.foldlM step s = none ↔ ∃ k, l.foldlM (act k) (s k) = none := by
  constructor
  · intro hnone
    by_contra hall
    choose s' hs' using fun k => Option.ne_none_iff_exists'.mp fun hk => hall ⟨k, hk⟩
    rw [(h.foldlM_eq_some hl).mpr hs'] at hnone
    cases hnone
  · rintro ⟨k, hk⟩
    by_contra hret
    obtain ⟨s', hs'⟩ := Option.ne_none_iff_exists'.mp hret
    rw [(h.foldlM_eq_some hl).mp hs' k] at hk
    cases hk

/-- **Independent cells**, if one order fails only for a cell that is doomed. -/
theorem Cellwise.steady_iff (hl : l.Perm is)
    (hdoom : ∀ k, l.foldlM (act k) (s k) = none → Doomed (act k) (s k) is) :
    Steady step s is ↔ (∃ k, Doomed (act k) (s k) is) ∨ ∀ k, Steady (act k) (s k) is := by
  constructor
  · intro hsteady
    cases hrun : l.foldlM step s with
    | none =>
      obtain ⟨k, hk⟩ := (h.foldlM_eq_none hl.subset).mp hrun
      exact .inl ⟨k, hdoom k hk⟩
    | some s' =>
      have hcell (l' : List ι) hl' k :
          l'.foldlM (act k) (s k) = some (s' k) :=
        (h.foldlM_eq_some hl'.subset).mp ((hsteady l' l hl' hl).trans hrun) k
      refine .inr fun k l₁ l₂ h₁ h₂ => ?_
      rw [hcell l₁ h₁, hcell l₂ h₂]
  · rintro (⟨k, hk⟩ | hall)
    · refine Doomed.steady fun l' hl' => ?_
      exact (h.foldlM_eq_none hl'.subset).mpr ⟨k, hk l' hl'⟩
    · intro l₁ l₂ h₁ h₂
      refine Option.ext fun s' => ?_
      rw [h.foldlM_eq_some h₁.subset, h.foldlM_eq_some h₂.subset]
      exact forall_congr' fun k => by rw [hall k l₁ l₂ h₁ h₂]

end Cells

/-! ## Steps that do nothing -/

variable {f : α → Option ι} {as : List α}

/-- Every order of the steps that count is one of all steps. -/
theorem exists_perm_filterMap (h : l.Perm (as.filterMap f)) :
    ∃ bs : List α, bs.Perm as ∧ bs.filterMap f = l := by
  induction l generalizing as with
  | nil => exact ⟨as, List.Perm.refl _, h.nil_eq.symm⟩
  | cons i l ih =>
    obtain ⟨a, ha, hi⟩ := mem_filterMap.mp (h.mem_iff.mp mem_cons_self)
    obtain ⟨before, after, rfl⟩ := append_of_mem ha
    have hmiddle := (perm_middle : (before ++ a :: after).Perm (a :: (before ++ after)))
    have hrest := h.trans (hmiddle.filterMap f)
    rw [filterMap_cons_some hi] at hrest
    obtain ⟨bs, hbs, hmap⟩ := ih hrest.cons_inv
    exact ⟨a :: bs, (hbs.cons a).trans hmiddle.symm, by rw [filterMap_cons_some hi, hmap]⟩

/-- **Steps that do nothing** may be left out, and so may what no step changes. -/
theorem steady_image {τ : Type} {step' : τ → α → Option τ} {g : σ → τ} (hg : Function.Injective g)
    (h : ∀ l : List α, l.foldlM step' (g s) = ((l.filterMap f).foldlM step s).map g) :
    Steady step' (g s) as ↔ Steady step s (as.filterMap f) := by
  constructor
  · intro hsteady l₁ l₂ h₁ h₂
    obtain ⟨bs₁, hbs₁, rfl⟩ := exists_perm_filterMap h₁
    obtain ⟨bs₂, hbs₂, rfl⟩ := exists_perm_filterMap h₂
    refine Option.map_injective hg ?_
    rw [← h, ← h]
    exact hsteady bs₁ bs₂ hbs₁ hbs₂
  · intro hsteady l₁ l₂ h₁ h₂
    rw [h, h, hsteady _ _ (h₁.filterMap f) (h₂.filterMap f)]

theorem exists_sorted (rank : α → Nat) (as : List α) :
    ∃ bs : List α, bs.Perm as ∧ bs.Pairwise fun a b => rank a ≤ rank b := by
  refine ⟨as.mergeSort fun a b => decide (rank a ≤ rank b), mergeSort_perm _ _, ?_⟩
  refine (pairwise_mergeSort ?_ ?_ as).imp fun h => of_decide_eq_true h
  · intro a b c hab hbc
    exact decide_eq_true ((of_decide_eq_true hab).trans (of_decide_eq_true hbc))
  · intro a b
    simpa using Nat.le_total (rank a) (rank b)

/-- If all elements are the same, the order of the list decides nothing. -/
theorem getLast?_eq_of_perm {as bs : List α} (h : as.Perm bs)
    (hall : ∀ a ∈ as, ∀ b ∈ as, a = b) : as.getLast? = bs.getLast? := by
  cases ha : as.getLast? with
  | none =>
    rw [List.getLast?_eq_none_iff] at ha
    rw [ha] at h
    rw [← h.nil_eq]
    rfl
  | some a =>
    cases hb : bs.getLast? with
    | none =>
      rw [List.getLast?_eq_none_iff] at hb
      rw [hb] at h
      rw [h.eq_nil] at ha
      cases ha
    | some b =>
      have hmem := h.mem_iff.mpr (mem_of_getLast? hb)
      rw [hall a (mem_of_getLast? ha) b hmem]

end Foundation
