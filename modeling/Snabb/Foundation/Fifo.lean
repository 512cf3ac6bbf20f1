import Snabb.Foundation.Ring

/-!
# Bounded queues

What a queue of bounded capacity does, as a machine on lists: `fifo cap` stores an element
if there is room and refuses it otherwise, and takes the oldest element if there is one.
A queue that is built in another way is a machine of the same kind, and `Simulates` says
that it does the same, call by call, whatever its state is made of. Then it gives the same
results over every sequence of calls (`Simulates.calls`), and what was taken and what is
left are together what was stored (`fifo_conserves`).
-/

namespace Foundation

/-- A call of a queue. -/
inductive QueueOp (α : Type) where
  | enqueue (x : α)
  | dequeue
deriving DecidableEq, Repr

/-- What a call has done. -/
inductive QueueResult (α : Type) where
  | stored
  | refused
  | taken (x : α)
deriving DecidableEq, Repr

variable {α σ : Type}

/-- One call of a queue that holds at most `cap` elements, oldest first. There is nothing to
take from an empty queue. -/
def fifo (cap : Nat) (xs : List α) : QueueOp α → Option (QueueResult α × List α)
  | .enqueue x => some (if xs.length < cap then (.stored, xs ++ [x]) else (.refused, xs))
  | .dequeue =>
    match xs with
    | [] => none
    | x :: rest => some (.taken x, rest)

/-- The results of calls one after the other, and the state after them; nothing if one of
the calls is not possible. -/
def calls (step : σ → QueueOp α → Option (QueueResult α × σ)) :
    σ → List (QueueOp α) → Option (List (QueueResult α) × σ)
  | s, [] => some ([], s)
  | s, op :: ops =>
    match step s op with
    | none => none
    | some (r, s') => (calls step s' ops).map fun (rs, s'') => (r :: rs, s'')

/-- The elements that were stored. -/
def storedBy : List (QueueOp α) → List (QueueResult α) → List α
  | .enqueue x :: ops, .stored :: rs => x :: storedBy ops rs
  | _ :: ops, _ :: rs => storedBy ops rs
  | _, _ => []

/-- The elements that were taken. -/
def takenBy : List (QueueResult α) → List α
  | [] => []
  | .taken x :: rs => x :: takenBy rs
  | _ :: rs => takenBy rs

/-- In related states every call does the same, and leads to related states. -/
structure Simulates (cap : Nat) (step : σ → QueueOp α → Option (QueueResult α × σ))
    (R : σ → List α → Prop) : Prop where
  possible : ∀ s xs op, R s xs → fifo cap xs op = none → step s op = none
  does : ∀ s xs op r xs', R s xs → fifo cap xs op = some (r, xs') →
    ∃ s', step s op = some (r, s') ∧ R s' xs'

variable {cap : Nat} {step : σ → QueueOp α → Option (QueueResult α × σ)} {R : σ → List α → Prop}
  {s : σ} {xs : List α}

/-- **A simulation is the same machine**: the same calls are possible, they give the same
results, and the states they lead to are related. -/
theorem Simulates.calls (h : Simulates cap step R) (ops : List (QueueOp α)) (hR : R s xs) :
    (Foundation.calls step s ops).map Prod.fst =
        (Foundation.calls (fifo cap) xs ops).map Prod.fst ∧
      ∀ rs s', Foundation.calls step s ops = some (rs, s') →
        ∃ xs', Foundation.calls (fifo cap) xs ops = some (rs, xs') ∧ R s' xs' := by
  induction ops generalizing s xs with
  | nil =>
    refine ⟨rfl, fun rs s' heq => ?_⟩
    cases heq
    exact ⟨xs, rfl, hR⟩
  | cons op ops ih =>
    cases hop : fifo cap xs op with
    | none =>
      have hnone := h.possible s xs op hR hop
      simp [Foundation.calls, hop, hnone]
    | some next =>
      obtain ⟨r, xs'⟩ := next
      obtain ⟨s', hs', hR'⟩ := h.does s xs op r xs' hR hop
      obtain ⟨hsame, hstates⟩ := ih hR'
      simp only [Foundation.calls, hop, hs', Option.map_map]
      refine ⟨?_, fun rs t heq => ?_⟩
      · have hcons := congrArg (Option.map (r :: ·)) hsame
        rw [Option.map_map, Option.map_map] at hcons
        exact hcons
      · obtain ⟨⟨rs', t'⟩, hrest, heq'⟩ := Option.map_eq_some_iff.mp heq
        cases heq'
        obtain ⟨ys, hys, hR''⟩ := hstates rs' t' hrest
        exact ⟨ys, by rw [hys]; rfl, hR''⟩

/-- **First in, first out**: what was taken and then what is left is what was there and then
what was stored. -/
theorem fifo_conserves {ops : List (QueueOp α)} {rs : List (QueueResult α)} {xs' : List α}
    (h : Foundation.calls (fifo cap) xs ops = some (rs, xs')) :
    takenBy rs ++ xs' = xs ++ storedBy ops rs := by
  induction ops generalizing xs rs with
  | nil =>
    cases h
    simp [takenBy, storedBy]
  | cons op ops ih =>
    cases op with
    | enqueue x =>
      simp only [Foundation.calls, fifo] at h
      split_ifs at h with hroom
      · obtain ⟨⟨rs', ys⟩, hrest, heq⟩ := Option.map_eq_some_iff.mp h
        cases heq
        simpa [takenBy, storedBy] using ih hrest
      · obtain ⟨⟨rs', ys⟩, hrest, heq⟩ := Option.map_eq_some_iff.mp h
        cases heq
        simpa [takenBy, storedBy] using ih hrest
    | dequeue =>
      cases xs with
      | nil => cases h
      | cons x rest =>
        obtain ⟨⟨rs', ys⟩, hrest, heq⟩ := Option.map_eq_some_iff.mp h
        cases heq
        simpa [takenBy, storedBy] using ih hrest

end Foundation
