import Runbook.Engine.Attempt
import Runbook.Plan.Path
import Runbook.Remote.Script
import Runbook.Store.Stores
import Runbook.Time.Clock

/-!
# `Program.Call` — what programs ask of the world

Programs of the library do not act; they ask. Each call names one thing that a program can ask for
and has a type of answers.

## Contents
- **Events.** `Event` and `LogEntry`, what an observer of the world can see.
- **Reports.** `Report`, how a step ended.
- **Calls.** `Call` and `Call.Answer`. Each call is answered in one piece: a fiber that changes the
  journal or saves the attempt is not interrupted by others while it does.
-/

namespace Runbook

/-- What an observer can see. -/
inductive Event where
  | request (r : Request)
  | sleep (seconds : Float)
  | check
  | wait (token : String) (seconds : Option Float)
  | signal (token : String) (delivered : Bool)
  /-- A wait ended; the event is absent when time ran out. -/
  | woke (name : String) (event : Option Value)
  | runUpdate (runId : String) (updates : Keyed Value)
  /-- A message that was handed to a worker failed. -/
  | deliveryFailed (kind : String)

/-- An event, and the clock when it happened. -/
structure LogEntry where
  time : Clock
  event : Event

/-- How a step ended that was carried out: its output, or why it failed. -/
structure Report where
  path : StepPath
  id : Option String
  outcome : Except Fault Value

/-- What a program can ask for. -/
inductive Call where
  /-- The time. -/
  | clock
  /-- A number that was not given out before. -/
  | freshId
  /-- The reply to a request. -/
  | request (r : Request)
  /-- A wait; others run even if it takes no time. -/
  | pause (seconds : Float)
  /-- A wait on the host, which takes no turn when it takes no time. -/
  | hostSleep (seconds : Float)
  /-- The next event of a token, or nothing when time runs out. -/
  | awaitEvent (token : String) (seconds : Option Float)
  /-- Sends an event; tells whether somebody took it. -/
  | sendEvent (token : String) (event : Value)
  /-- An operation on the stores. -/
  | store (op : StoreOp)
  /-- An update of a run record that may fail without anybody noticing. -/
  | updateRun (runId : String) (updates : Keyed Value)
  /-- A new attempt. -/
  | beginAttempt (a : Attempt)
  /-- The attempt goes on to a step of the root list. -/
  | enterStep (cursor : Int) (base : Context) (keepJournal : Bool)
  /-- What the journal of the attempt holds under a path. -/
  | recall (path : String)
  /-- Replaces an entry of the journal. -/
  | journal (path : String) (entry : Keyed Value)
  /-- Adds fields to an entry of the journal. -/
  | amend (path : String) (fields : Keyed Value)
  /-- Writes the attempt to the run record; one that cannot be stored is left out. -/
  | saveCheckpoint (runId : String)
  /-- Tells that a step has ended; nobody answers. -/
  | report (r : Report)
  /-- Something for observers to see. -/
  | note (e : Event)

/-- The answers to a call. -/
abbrev Call.Answer : Call → Type
  | .clock => Clock
  | .freshId => Nat
  | .request _ => Reply
  | .pause _ => Unit
  | .hostSleep _ => Except Fault Unit
  | .awaitEvent _ _ => Option Value
  | .sendEvent _ _ => Bool
  | .store _ => Except Fault StoreAnswer
  | .updateRun _ _ => Unit
  | .beginAttempt _ => Unit
  | .enterStep _ _ _ => Unit
  | .recall _ => Option Value
  | .journal _ _ => Unit
  | .amend _ _ => Except Fault Unit
  | .saveCheckpoint _ => Unit
  | .report _ => Unit
  | .note _ => Unit

end Runbook
