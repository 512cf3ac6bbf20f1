import Mathlib.Data.List.Basic

/-!
# The continuations of the backtracking combinators (`lib/maxpc.lua`)

`match.plus` and `match.alternate` return a function `more` with the first result. What is still to
be tried stands in its upvalues, and every call changes them. A continuation is known here by what
its calls return, and it says which continuations it calls itself.

- `plusMore`, `alternateMore`: the functions, with their upvalues as arguments;
- `combinators_enumerate`: the results, and the continuations that are called for them.
-/

namespace Snabb

open List

namespace Maxpc

/-- What a call of a matcher or a continuation returns: nothing, or a suffix and a continuation, if
there is one. In the course of it the continuations `calls` are called. -/
inductive Results (κ α : Type) where
  | nothing (calls : List κ)
  | last (calls : List κ) (suffix : α)
  | found (calls : List κ) (suffix : α) (more : Results κ α)
deriving Repr

namespace Results

variable {κ α : Type}

/-- The suffixes, if the continuation is called until it is exhausted. -/
def suffixes : Results κ α → List α
  | nothing _ => []
  | last _ suffix => [suffix]
  | found _ suffix more => suffix :: more.suffixes

/-- The calls until then. -/
def calls : Results κ α → List κ
  | nothing calls => calls
  | last calls _ => calls
  | found calls _ more => calls ++ more.calls

/-- The same calls, and after each that gives a suffix those of `b` until `b` is exhausted. -/
def callsWith (b : α → Results κ α) : Results κ α → List κ
  | nothing calls => calls
  | last calls suffix => calls ++ (b suffix).calls
  | found calls suffix more => calls ++ (b suffix).calls ++ more.callsWith b

/-- A call in the course of which other continuations are called first. -/
def after (calls : List κ) : Results κ α → Results κ α
  | nothing c => nothing (calls ++ c)
  | last c suffix => last (calls ++ c) suffix
  | found c suffix more => found (calls ++ c) suffix more

/-- `more` of `match.plus`, with its upvalues. -/
def plusMore (b : α → Results κ α) (aMore bMore : Option (Results κ α)) : Results κ α :=
  match bMore with
  | some (found c rest bMore) => found c rest (plusMore b aMore (some bMore))
  | some (last c rest) => found c rest (plusMore b aMore none)
  | some (nothing c) => (plusMore b aMore none).after c
  | none =>
    match aMore with
    | some (found c suffix aMore) => (plusMore b (some aMore) (some (b suffix))).after c
    | some (last c suffix) => (plusMore b none (some (b suffix))).after c
    | some (nothing c) => nothing c
    | none => nothing []
termination_by (sizeOf aMore, sizeOf bMore)

/-- `match.plus`. -/
def plus (a b : α → Results κ α) (s : α) : Results κ α := plusMore b (some (a s)) none

/-- `more` of `match.alternate`, which gives way to `y` in the end. -/
def alternateMore (y : α → Results κ α) (s : α) : Option (Results κ α) → Results κ α
  | some (found c rest xMore) => found c rest (alternateMore y s (some xMore))
  | some (last c rest) => found c rest (alternateMore y s none)
  | some (nothing c) => (y s).after c
  | none => y s

/-- `match.alternate`. -/
def alternate (x y : α → Results κ α) (s : α) : Results κ α := alternateMore y s (some (x s))

variable {a b x y : α → Results κ α} {s : α} {r : Results κ α} {c : List κ}

@[simp] theorem suffixes_after : (r.after c).suffixes = r.suffixes := by
  cases r <;> rfl

@[simp] theorem calls_after : (r.after c).calls = c ++ r.calls := by
  cases r <;> simp [after, calls]

/-- What is still to be tried: the rest of `b`, and then `b` from the rest of `a`. -/
theorem suffixes_plusMore (aMore bMore : Option (Results κ α)) :
    (plusMore b aMore bMore).suffixes = (bMore.elim [] suffixes) ++
      (aMore.elim [] suffixes).flatMap fun t => (b t).suffixes := by
  fun_induction plusMore b aMore bMore <;> simp_all [suffixes]

theorem calls_plusMore (aMore bMore : Option (Results κ α)) :
    (plusMore b aMore bMore).calls = (bMore.elim [] calls) ++ aMore.elim [] (callsWith b) := by
  fun_induction plusMore b aMore bMore <;> simp_all [calls, callsWith]

theorem suffixes_alternateMore (xMore : Option (Results κ α)) :
    (alternateMore y s xMore).suffixes = (xMore.elim [] suffixes) ++ (y s).suffixes := by
  fun_induction alternateMore y s xMore <;> simp_all [suffixes]

theorem calls_alternateMore (xMore : Option (Results κ α)) :
    (alternateMore y s xMore).calls = (xMore.elim [] calls) ++ (y s).calls := by
  fun_induction alternateMore y s xMore <;> simp_all [calls]

/-- **The combinators give all results**, each once and in their order, and call each continuation
until it is exhausted and not again. -/
theorem combinators_enumerate (a b : α → Results κ α) (s : α) :
    (plus a b s).suffixes = ((a s).suffixes.flatMap fun t => (b t).suffixes) ∧
    (plus a b s).calls = (a s).callsWith b ∧
    (alternate a b s).suffixes = (a s).suffixes ++ (b s).suffixes ∧
    (alternate a b s).calls = (a s).calls ++ (b s).calls :=
  ⟨suffixes_plusMore _ _, calls_plusMore _ _, suffixes_alternateMore _, calls_alternateMore _⟩

end Results

end Maxpc

end Snabb
