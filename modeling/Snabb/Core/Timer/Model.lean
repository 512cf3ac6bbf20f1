import Snabb.Foundation.Agenda
import Snabb.Foundation.Run
import Mathlib.Data.Rat.Floor

/-!
# Timers (`core/timer.lua`)

A timer fires some ticks (of a millisecond) after it was activated. The module keeps,
for every tick, the list of the timers that are due then; `run_to_time` visits the ticks
up to the new time one by one and calls the timers in their lists.

A timer is a Lua table; the model names it by a number. `timer` says what `timer.new`
has put into it, and `fn` what its callback does: the operations on this module, which
may depend on the state of the module at the time of the call. The loops of the source
are runs of their bodies (`run`), so that a condition on the steps of a run can be stated
with `Along` at every level.
-/

namespace Snabb

open Foundation
open Function (update)

/-- A timer, by the identity of its table. -/
abbrev TimerId := Nat

/-- `ns_per_tick`. -/
def nsPerTick : ℚ := 1000000

/-- The tick of a time. -/
def tickOf (ns : ℚ) : ℤ := ⌊ns / nsPerTick⌋

/-- The fields of a timer that `timer.new` sets and the module reads. -/
structure Timer where
  ticks : ℤ
  repeating : Bool

/-- Why an operation raises. -/
inductive TimerRaise where
  /-- The assertion of `activate`. -/
  | alreadyActivated
  /-- `call_timers` finds no timer at the index. -/
  | noTimer
  /-- `cancel` finds no list at the tick of the timer. -/
  | noList
  /-- `run_to_time` starts from `ticks = false`. -/
  | noTicks
deriving DecidableEq, Repr

/-- The state of the module, with the field `next_tick` of every timer and the log of
what has happened to the timers. -/
structure Timers where
  ticks : Option ℤ
  timers : ℤ → Option (List TimerId)
  nextTick : TimerId → Option ℤ
  log : List (TimerId × Event ℤ)

/-- What a callback may call. `now` is what `C.get_time_ns()` returns. -/
inductive TimerOp where
  | activate (t : TimerId) (now : Nat)
  | cancel (t : TimerId)
deriving DecidableEq

/-- What is called from outside. -/
inductive TimerCall where
  | op (op : TimerOp)
  | runToTime (ns : ℚ)

namespace Timers

/-- The module before its first use; a test may have set `ticks`. -/
def new (ticks : Option ℤ) : Timers where
  ticks := ticks
  timers _ := none
  nextTick _ := none
  log := []

/-- The list at a tick; there may be none. -/
def list (s : Timers) (tick : ℤ) : List TimerId := (s.timers tick).getD []

/-- Append a timer to the list of a tick. -/
def schedule (t : TimerId) (tick : ℤ) (s : Timers) : Timers := { s with
  timers := update s.timers tick (some (s.list tick ++ [t]))
  nextTick := update s.nextTick t (some tick)
  log := s.log ++ [(t, .set tick)] }

/-- Remove the first entry of a timer from the list of a tick. -/
def unschedule (t : TimerId) (tick : ℤ) (s : Timers) : Timers := { s with
  timers := update s.timers tick (some ((s.list tick).erase t))
  nextTick := update s.nextTick t none
  log := s.log ++ [(t, .cancel)] }

/-- A timer is about to be called. -/
def fire (t : TimerId) (tick : ℤ) (s : Timers) : Timers := { s with
  nextTick := update s.nextTick t none
  log := s.log ++ [(t, .fire tick)] }

section Operations

variable (timer : TimerId → Timer)

def activate (t : TimerId) (now : Nat) (s : Timers) : Except TimerRaise Timers :=
  if s.nextTick t = none then
    let ticks := s.ticks.getD (tickOf now)
    .ok (schedule t (ticks + (timer t).ticks) { s with ticks := some ticks })
  else .error .alreadyActivated

def cancel (t : TimerId) (s : Timers) : Except TimerRaise Timers :=
  match s.nextTick t with
  | none => .ok s
  | some tick =>
    match s.timers tick with
    | none => .error .noList
    | some l => .ok (if t ∈ l then s.unschedule t tick else s)

def perform (s : Timers) : TimerOp → Except TimerRaise Timers
  | .activate t now => activate timer t now s
  | .cancel t => cancel t s

variable (fn : TimerId → Timers → List TimerOp)

/-- The body of the loop of `call_timers`. The list is read at every turn, as the callbacks
may change it. -/
def callTimer (tick : ℤ) (s : Timers) (i : Nat) : Except TimerRaise Timers :=
  match (s.list tick)[i]? with
  | none => .error .noTimer
  | some t => do
    let s := s.fire t tick
    let s ← run (perform timer) s (fn t s)
    if (timer t).repeating then activate timer t 0 s else return s

/-- `call_timers`; the number of turns is fixed at its start. -/
def callTimers (tick : ℤ) (s : Timers) : Except TimerRaise Timers :=
  run (callTimer timer fn tick) s (List.range' 0 (s.list tick).length)

/-- The body of the loop of `run_to_time`. -/
def visit (s : Timers) (tick : ℤ) : Except TimerRaise Timers := do
  let s := { s with ticks := some tick }
  if (s.timers tick).isSome then
    let s ← callTimers timer fn tick s
    return { s with timers := update s.timers tick none }
  else return s

/-- The numbers of the loop `for tick = first, last`. -/
def ticksFrom (first last : ℤ) : List ℤ :=
  (List.range (last + 1 - first).toNat).map fun k : Nat => first + k

def runToTime (ns : ℚ) (s : Timers) : Except TimerRaise Timers :=
  match s.ticks with
  | none => .error .noTicks
  | some ticks => run (visit timer fn) s (ticksFrom ticks (tickOf ns))

def step (s : Timers) : TimerCall → Except TimerRaise Timers
  | .op op => perform timer s op
  | .runToTime ns => runToTime timer fn ns s

end Operations

end Timers

end Snabb
