import Runbook.Poll.Observation
import Runbook.Program.Basic

/-!
# `Poll.Loop` — looking until the end is seen

A remote status is looked at again and again until it shows the end or a bound is met. The first
look is taken at once; a look that fails counts as not showing the end.

## Contents
- **Bounds.** `PollBounds`, and `pause?`, how long to wait before the next look.
- **The loop.** `pollUntilDone`, by recursion on the number of looks that are left.
-/

namespace Runbook

/-- The bounds of a poll, in milliseconds and looks. -/
structure PollBounds where
  intervalMs : Int
  timeoutMs : Option Int
  maxRetries : Option Int

namespace PollBounds

/-- How many looks may be taken: at least one, and for practical purposes any number when no count
    is set. -/
def looks (b : PollBounds) : Nat :=
  match b.maxRetries with
  | some n => max 1 n.toNat
  | none => Nat.pow 2 62

/-- The milliseconds that are left, when time is bounded. -/
def remaining? (b : PollBounds) (elapsedMs : Float) : Except Fault (Option Float) :=
  match b.timeoutMs with
  | none => .ok none
  | some t =>
    if Number.isBeyondDoubles t.natAbs then .error .numberTooLarge
    else .ok (some (Float.ofInt t - elapsedMs))

/-- The interval in seconds. -/
def interval (b : PollBounds) : Except Fault Float :=
  if Number.isBeyondDoubles (b.intervalMs.natAbs / 1000) then .error .quotientTooLarge
  else .ok (Number.thousandths b.intervalMs)

/-- How many seconds to wait before the next look: the interval, but never longer than what is left.
    Nothing is left when the time bound is met. -/
def pause? (b : PollBounds) (elapsedMs : Float) : Except Fault (Option Float) := do
  match ← b.remaining? elapsedMs with
  | none => some <$> b.interval
  | some left =>
    if left <= 0.0 then return none
    else if Number.compareInt? left b.intervalMs = some .lt then return some (left / 1000.0)
    else some <$> b.interval

/-- Whether the time bound is met. -/
def isOver (b : PollBounds) (elapsedMs : Float) : Bool :=
  b.timeoutMs.any fun t => (Number.compareInt? elapsedMs t).any Ordering.isGE

end PollBounds

/-- Milliseconds since a reading of the clock. -/
def elapsedSince (started : Clock) : Action Float := do
  let now ← Action.call .clock
  return (now.seconds - started.seconds) * 1000.0

/-- Looks at most `left` more times, after `attempts` looks. -/
def pollLoop (look : Action Observation) (sleep : Float → Action Unit) (b : PollBounds)
    (started : Clock) : Nat → Nat → Action PollResult
  | 0, attempts => return .timedOut none attempts (← elapsedSince started)
  | left + 1, attempts => do
    let last := (← ExceptT.lift look.outcome).toOption
    let attempts := attempts + 1
    let elapsed ← elapsedSince started
    match last.filter Observation.isDone with
    | some o => return .settled o attempts elapsed
    | none =>
      if left = 0 then return .timedOut last attempts elapsed
      else
        match ← Action.ofExcept (b.pause? elapsed) with
        | none => return .timedOut last attempts elapsed
        | some seconds => do
          sleep seconds
          let elapsed ← elapsedSince started
          if b.isOver elapsed then return .timedOut last attempts elapsed
          else pollLoop look sleep b started left attempts

/-- Looks until the end is seen or a bound is met. -/
def pollUntilDone (look : Action Observation) (sleep : Float → Action Unit) (b : PollBounds) :
    Action PollResult := do
  pollLoop look sleep b (← Action.call .clock) b.looks 0

end Runbook
