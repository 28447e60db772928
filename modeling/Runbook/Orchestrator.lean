import Runbook.Engine.Run
import Runbook.Program.Scheduler

/-!
# `Orchestrator` — runs in a world

An orchestrator lets an engine carry out a run in a world, while signals arrive from outside.

## Contents
- **Signals.** `Signal` and `Signal.toFiber`.
- **Runs.** `RunResult` and `World.carryOut`.
- **Restarts.** `World.restart`.
-/

namespace Runbook

/-- An event that is sent some time after a run has begun. -/
structure Signal where
  /-- In seconds. -/
  after : Float
  token : String
  event : Value

/-- Waits, sends the event, and notes whether somebody took it. -/
def Signal.toFiber {ρ : Type} (s : Signal) (outcome : ρ) : Fiber ρ :=
  .ask (.pause s.after) fun _ =>
    .ask (.sendEvent s.token s.event) fun taken =>
      .ask (.note (.signal s.token taken)) fun _ => .done outcome

/-- The result of a run that was completed. -/
structure RunResult where
  context : Context
  result : Value
  runId : String

/-- The result as a value. -/
def RunResult.toValue (r : RunResult) : Value :=
  .object
    [("context", r.context.toValue), ("result", r.result), ("run_id", .text r.runId),
     ("status", .text "completed")]

namespace World

/-- Lets a run take its course while signals arrive; those that have not arrived when it ends are
    dropped. There is no outcome when the run waits for something that never happens. -/
def carryOut (w : World) (signals : List Signal) (run : Fiber Outcome) :
    Option (Except Fault RunResult) × World :=
  let s : Scheduler Outcome := { world := w }
  let s := signals.foldl (fun s signal => s.spawn (signal.toFiber (.error .restarted))) s
  let (outcome, s) := s.runMain run
  let result (o : Outcome) : Except Fault RunResult :=
    o.map fun r => ⟨r.context, r.output, s.world.attempt.runId⟩
  (outcome.map result, s.world)

/-- The world after the host was replaced: the events that it kept are gone. The new host may be
    stopped at one of its waits. -/
def restart (w : World) (sleepsLeft : Option Nat) : World :=
  { w with mailbox := {}, sleepsLeft }

/-- Sends an event from outside; tells whether somebody took it. -/
def send (w : World) (token : String) (event : Value) : Bool × World :=
  let s : Scheduler Unit := { world := w }
  let (taken, s) := s.send token event
  (taken, s.world)

end World

end Runbook
