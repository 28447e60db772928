import Runbook.Address
import Runbook.Functions
import Runbook.Plan.Path
import Runbook.Plan.Step
import Runbook.Poll.Defaults
import Runbook.Program.Basic

/-!
# `Engine.Execution` — a plan that is being carried out

An engine carries out plans. While it does, it keeps the run record up to date and writes a
checkpoint whenever a step comes to an end. No run depends on whether these writes succeed.

## Contents
- **The types.** `Engine` and `Execution`.
- **Writes.** `writeRun`, `saveCheckpoint`.
- **The journal.** `journal`, `note`, `noted`.
-/

namespace Runbook

/-- What the runs of an engine have in common. -/
structure Engine where
  settings : DispatchSettings
  functions : Functions
  /-- How the jobs of workers are polled when nothing else is said. -/
  workerPoll : PollDefaults := {}
  /-- How long hooks wait in plans that do not say so. -/
  hookTimeout : Option Duration := none
  /-- Whether checkpoints are written. -/
  checkpoints : Bool := true

/-- A plan that is being carried out as a run. -/
structure Execution where
  engine : Engine
  plan : Plan
  runId : String

namespace Execution

/-- Lays an update over the run record. -/
def writeRun (x : Execution) (updates : Keyed Value) : Action Unit :=
  Action.call (.updateRun x.runId updates)

/-- Writes the state of the attempt to the run record. -/
def saveCheckpoint (x : Execution) : Action Unit :=
  if x.engine.checkpoints then Action.call (.saveCheckpoint x.runId) else return ()

/-- Writes how a step ended, or what became of it, into the journal and saves it. -/
def journal (x : Execution) (path : String) (entry : Keyed Value) : Action Unit := do
  Action.call (.journal path entry)
  x.saveCheckpoint

/-- Adds to the journal entry of a step that is being carried out and saves it. -/
def note (x : Execution) (path : String) (fields : Keyed Value) : Action Unit := do
  Action.ofExcept (← Action.call (.amend path fields))
  x.saveCheckpoint

/-- What an earlier attempt noted about a step. -/
def noted (path key : String) : Action Value := do
  Action.ofExcept (JournalEntry.noted (← Action.call (.recall path)) key)

end Execution

end Runbook
