import Mathlib.Data.List.Nodup
import Mathlib.Logic.Function.Basic

/-!
# Agendas

An agenda keeps, for every time, the queue of the items that are due then; an item is
due at most once. Its log says what has happened to the items: an item is set for a
time, and then it is fired or cancelled.

`Agrees next due log` relates the three views of an agenda: when every item is due
next, the queue of every time, and the log. `set`, `cancel` and `fire` are the rules
for the operations; `Rounds` says what they amount to for one item, and `fifo` what
they amount to for one time.
-/

namespace Foundation

open List
open Function (comp_def update update_of_ne update_self)

/-- What happens to an item. -/
inductive Event (κ : Type) where
  | set (due : κ)
  | fire (time : κ)
  | cancel
deriving DecidableEq, Repr

/-- The events of an item come in rounds: it is set for a time, and then it is either
fired at exactly that time or cancelled. The last round may still be open. -/
inductive Rounds {κ : Type} : List (Event κ) → Option κ → Prop where
  | nil : Rounds [] none
  | set {es : List (Event κ)} (due : κ) : Rounds es none → Rounds (es ++ [.set due]) (some due)
  | fire {es : List (Event κ)} {due : κ} : Rounds es (some due) → Rounds (es ++ [.fire due]) none
  | cancel {es : List (Event κ)} {due : κ} : Rounds es (some due) → Rounds (es ++ [.cancel]) none

namespace Agenda

variable {ι κ : Type} [DecidableEq ι] {log : List (ι × Event κ)} {i : ι}

/-- The events of one item. -/
def eventsOf (i : ι) (log : List (ι × Event κ)) : List (Event κ) :=
  (log.filter fun e => e.1 = i).map Prod.snd

@[simp] theorem eventsOf_snoc_self (i : ι) (e : Event κ) :
    eventsOf i (log ++ [(i, e)]) = eventsOf i log ++ [e] := by
  simp [eventsOf]

theorem eventsOf_snoc_of_ne {j : ι} (h : j ≠ i) (e : Event κ) :
    eventsOf j (log ++ [(i, e)]) = eventsOf j log := by
  simp [eventsOf, h.symm]

theorem eventsOf_append_self (i : ι) (es : List (Event κ)) :
    eventsOf i (log ++ es.map fun e => (i, e)) = eventsOf i log ++ es := by
  simp [eventsOf, filter_map, comp_def]

theorem eventsOf_append_of_ne {j : ι} (h : j ≠ i) (es : List (Event κ)) :
    eventsOf j (log ++ es.map fun e => (i, e)) = eventsOf j log := by
  simp [eventsOf, h.symm]

variable {o : Option κ}

/-- The rounds of the other items go on. -/
theorem rounds_update {next : ι → Option κ}
    (h : ∀ j, Rounds (eventsOf j log) (next j)) {e : Event κ}
    (hi : Rounds (eventsOf i log ++ [e]) o) (j : ι) :
    Rounds (eventsOf j (log ++ [(i, e)])) (update next i o j) := by
  by_cases hj : j = i
  · subst hj
    rw [eventsOf_snoc_self, update_self]
    exact hi
  · rw [eventsOf_snoc_of_ne hj, update_of_ne hj]
    exact h j

/-- The times for which the events set an item. -/
def sets (es : List (Event κ)) : List κ :=
  es.filterMap fun
    | .set due => some due
    | _ => none

/-- The times at which the events fire an item. -/
def fires (es : List (Event κ)) : List κ :=
  es.filterMap fun
    | .fire time => some time
    | _ => none

theorem sets_append (es es' : List (Event κ)) : sets (es ++ es') = sets es ++ sets es' :=
  filterMap_append

theorem fires_append (es es' : List (Event κ)) : fires (es ++ es') = fires es ++ fires es' :=
  filterMap_append

theorem rounds_nil (h : Rounds ([] : List (Event κ)) o) : o = none := by
  generalize heq : ([] : List (Event κ)) = es at h
  cases h with
  | nil => rfl
  | set _ _ | fire _ | cancel _ => simp at heq

variable {es : List (Event κ)}

/-- An item whose last event has set it is due then. -/
theorem rounds_snoc_set {k : κ} (h : Rounds (es ++ [.set k]) o) : o = some k := by
  generalize heq : es ++ [Event.set k] = es' at h
  cases h with
  | nil => simp at heq
  | set due _ =>
    have hlast := (append_inj' heq rfl).2
    simp at hlast
    rw [hlast]
  | fire _ | cancel _ => simpa using (append_inj' heq rfl).2

/-- Where nothing is cancelled, an item has fired as often as it was set, up to the round
that is still open. -/
theorem sets_eq (h : Rounds es o) (hes : .cancel ∉ es) : sets es = fires es ++ o.toList := by
  induction h with
  | nil => rfl
  | set due _ ih =>
    have hopen := ih fun hmem => hes (mem_append_left _ hmem)
    simp [sets, fires] at hopen ⊢
    exact hopen
  | fire _ ih =>
    have hopen := ih fun hmem => hes (mem_append_left _ hmem)
    simp [sets, fires] at hopen ⊢
    exact hopen
  | cancel _ _ => exact absurd (mem_append_right _ (mem_singleton_self _)) hes

variable [DecidableEq κ]

/-- The items set for a time, in the order of the log. -/
def setFor (k : κ) (log : List (ι × Event κ)) : List ι :=
  (log.filter fun e => e.2 = .set k).map Prod.fst

/-- The items fired at a time, in the order of the log. -/
def firedAt (k : κ) (log : List (ι × Event κ)) : List ι :=
  (log.filter fun e => e.2 = .fire k).map Prod.fst

/-- The views of an agenda agree. -/
structure Agrees (next : ι → Option κ) (due : κ → List ι) (log : List (ι × Event κ)) : Prop where
  next_eq_some_iff : ∀ i k, next i = some k ↔ i ∈ due k
  nodup : ∀ k, (due k).Nodup
  rounds : ∀ i, Rounds (eventsOf i log) (next i)
  /-- Where nothing is cancelled, a queue is first in, first out. -/
  fifo : (∀ e ∈ log, e.2 ≠ .cancel) → ∀ k, firedAt k log ++ due k = setFor k log

variable {next : ι → Option κ} {due : κ → List ι} {k : κ}

theorem Agrees.new : Agrees (fun _ : ι => none) (fun _ : κ => []) [] where
  next_eq_some_iff := by simp
  nodup _ := nodup_nil
  rounds _ := .nil
  fifo _ _ := rfl

variable (h : Agrees next due log)
include h

theorem Agrees.set (hi : next i = none) (k : κ) :
    Agrees (update next i (some k)) (update due k (due k ++ [i]))
      (log ++ [(i, .set k)]) where
  next_eq_some_iff := by
    intro j k'
    have hmem := h.next_eq_some_iff
    by_cases hj : j = i <;> by_cases hk : k' = k <;>
      grind [update_self, update_of_ne]
  nodup := by
    intro k'
    have hnot : i ∉ due k := fun hmem => by
      simp [(h.next_eq_some_iff i k).mpr hmem] at hi
    by_cases hk : k' = k
    · subst hk
      rw [update_self]
      exact nodup_append.mpr ⟨h.nodup _, nodup_singleton i, by grind⟩
    · rw [update_of_ne hk]
      exact h.nodup k'
  rounds := rounds_update h.rounds (.set k (hi ▸ h.rounds i))
  fifo := by
    intro hlog k'
    have hfifo := h.fifo (fun e he => hlog e (mem_append_left _ he)) k'
    by_cases hk : k' = k
    · subst hk
      simp [firedAt, setFor] at hfifo ⊢
      rw [← hfifo, append_assoc]
    · simpa [firedAt, setFor, hk, Ne.symm hk] using hfifo

theorem Agrees.fire {rest : List ι} (hdue : due k = i :: rest) :
    Agrees (update next i none) (update due k rest)
      (log ++ [(i, .fire k)]) where
  next_eq_some_iff := by
    intro j k'
    have hmem := h.next_eq_some_iff
    have hnodup := h.nodup k
    have hnext := (hmem i k).mpr (hdue ▸ mem_cons_self ..)
    by_cases hj : j = i <;> by_cases hk : k' = k <;>
      grind [update_self, update_of_ne]
  nodup := by
    intro k'
    by_cases hk : k' = k
    · subst hk
      have hnodup := h.nodup k'
      rw [hdue] at hnodup
      rw [update_self]
      exact hnodup.of_cons
    · rw [update_of_ne hk]
      exact h.nodup k'
  rounds := by
    have hnext := (h.next_eq_some_iff i k).mpr (hdue ▸ mem_cons_self ..)
    exact rounds_update h.rounds (.fire (hnext ▸ h.rounds i))
  fifo := by
    intro hlog k'
    have hfifo := h.fifo (fun e he => hlog e (mem_append_left _ he)) k'
    by_cases hk : k' = k
    · subst hk
      rw [hdue] at hfifo
      simpa [firedAt, setFor] using hfifo
    · simpa [firedAt, setFor, hk, Ne.symm hk] using hfifo

theorem Agrees.cancel (hi : next i = some k) :
    Agrees (update next i none) (update due k ((due k).erase i))
      (log ++ [(i, .cancel)]) where
  next_eq_some_iff := by
    intro j k'
    have hmem := h.next_eq_some_iff
    have hnodup := h.nodup k
    by_cases hj : j = i <;> by_cases hk : k' = k <;>
      grind [update_self, update_of_ne, List.Nodup.mem_erase_iff]
  nodup := by
    intro k'
    by_cases hk : k' = k
    · subst hk
      rw [update_self]
      exact (h.nodup k').erase i
    · rw [update_of_ne hk]
      exact h.nodup k'
  rounds := rounds_update h.rounds (.cancel (hi ▸ h.rounds i))
  fifo := by
    intro hlog
    exact absurd rfl (hlog (i, .cancel) (mem_append_right _ (mem_singleton_self _)))

end Agenda

end Foundation
