import Runbook.Digest.NamedId
import Runbook.Dispatch
import Runbook.Engine.Execution
import Runbook.Payload
import Runbook.Plan.Resolution
import Runbook.Poll.Loop

/-!
# `Engine.Leaf` — carrying out a step that has no steps inside

Each kind of leaf step is an action that computes its output from the context. Around it,
`carryOut` sees to it that a step which has ended before is not carried out again: its output or
error is taken from the journal.

## Contents
- **Polls.** `requireCompletion`.
- **Kinds.** `runAgent`, `runWorker`, `runWorkflow`, `runHook`, `runSleep`.
- **Leaves.** `Finished`, `Outcome`, and `carryOut`.
-/

namespace Runbook

/-- What a finished step leaves: the context after it, and its output. -/
structure Finished where
  context : Context
  output : Value

/-- How a step ends. -/
abbrev Outcome := Except Fault Finished

namespace Execution

/-- The name under which a step starts a run elsewhere. -/
def startName (x : Execution) (path : String) : String := x.runId ++ ":" ++ path

/-- The name of a step among the steps of all runs, of which the id of its job is made. -/
def jobName (x : Execution) (path : String) : String := "stepflow:" ++ x.runId ++ "/" ++ path

/-- The id of the job that a step starts: the same for every attempt at the run. -/
def jobId (x : Execution) (path : String) : String :=
  "job-" ++ Digest.plainText (Digest.namedId Digest.addressSpace (x.jobName path))

/-! ## Polls -/

/-- The message of an error that a poll showed. -/
def pollMessage (error : Value) : String :=
  match error with
  | .null => "execution failed"
  | .object fields =>
    let message := (Keyed.get? fields "message").getD .null
    if message.truthy then message.display else error.display
  | v => v.display

/-- Fails when a poll did not end with completion. -/
def requireCompletion (r : PollResult) (what : String) : Action Unit :=
  match r.outcome with
  | .completed => return ()
  | .timeout => throw (.pollTimeout (.remote what r.attempts r.elapsedMs r.status))
  | .failed => throw (.stepFailed (what ++ " failed: " ++ pollMessage r.error) r.error)

/-! ## Kinds -/

/-- The output of a step that started something and does not wait for its end. -/
def startedOutput (name : String) (r : DispatchResult) : Value :=
  .object [(name, .ofText? r.id), ("status", .ofText? r.status)]

/-- Starts a run of a workflow. -/
def start (x : Execution) (workflow : String) (input : Value) (path : String) :
    Action DispatchResult :=
  Dispatch.startWorkflow x.engine.settings workflow input x.plan.messages (some (x.startName path))

/-- Calls an agent, or only starts it. -/
def runAgent (x : Execution) (call : Capability) (agent : String) (c : Context) (path : String) :
    Action Value := do
  let input ← Action.ofExcept (call.resolveInput x.engine.functions c)
  if call.awaits true then Dispatch.callAgent x.engine.settings agent input x.plan.messages
  else startedOutput "runId" <$> x.start agent input path

/-- How the job of a worker is polled: as the step says, or else the plan, or else the engine. -/
def workerPolicy (x : Execution) (poll : Option PollPolicy) : PollPolicy :=
  PollPolicy.merge [poll, x.plan.workerPoll, some x.engine.workerPoll.toPolicy]

/-- Triggers a worker, and waits for the end of its job if asked to. -/
def runWorker (x : Execution) (call : Capability) (worker : String) (poll : Option PollPolicy)
    (c : Context) (path : String) : Action Value := do
  let input ← Action.ofExcept (call.resolveInput x.engine.functions c)
  let jobId := x.jobId path
  let awaits := call.awaits false
  let triggered ← Dispatch.triggerWorker x.engine.settings worker input (some jobId) awaits .null
  if awaits then
    let r ← pollUntilDone (Dispatch.lookAtJob x.engine.settings worker jobId) Action.hostSleep
      (x.workerPolicy poll).toBounds
    requireCompletion r ("Worker " ++ worker ++ " job " ++ jobId)
    return .object
      [("jobId", .text jobId), ("status", .ofText? r.status), ("output", r.output),
       ("metadata", .object r.metadata)]
  else return startedOutput "jobId" triggered

/-- How a run elsewhere is polled when the plan does not say so. -/
def workflowDefaults : PollPolicy := ⟨some 5000, none, some 120⟩

/-- The run that a step waits for: the one that an earlier attempt started, or else a new one. -/
def nestedRun (x : Execution) (workflow : String) (input : Value) (path : String) :
    Action Value := do
  match ← noted path "runId" with
  | .null => do
    let runId := Value.ofText? (← x.start workflow input path).id
    x.note path [("runId", runId)]
    return runId
  | runId => return runId

/-- Starts a run of a workflow, and waits for its end if asked to. -/
def runWorkflow (x : Execution) (call : Capability) (workflow : String) (c : Context)
    (path : String) : Action Value := do
  let input ← Action.ofExcept (call.resolveInput x.engine.functions c)
  if call.awaits true then
    let runId := (← x.nestedRun workflow input path).display
    let policy := PollPolicy.merge [x.plan.workflowPoll, some workflowDefaults]
    let r ← pollUntilDone (Dispatch.lookAtRun x.engine.settings workflow runId) Action.hostSleep
      policy.toBounds
    requireCompletion r ("Workflow " ++ workflow ++ " run " ++ runId)
    return r.output
  else startedOutput "runId" <$> x.start workflow input path

/-- How long a hook waits: as the step says, or else the plan, or else the engine. -/
def hookPatience (x : Execution) (h : Hook) : Duration :=
  (((h.timeout).or x.plan.hookTimeout).or x.engine.hookTimeout).getD defaultHookTimeout

/-- Waits for the event of a token. -/
def awaitEvent (token : String) (seconds : Float) : Action (Option Value) := do
  Action.call (.note (.wait token (some seconds)))
  Action.call (.awaitEvent token (some seconds))

/-- Waits for an event; the run is paused meanwhile. -/
def runHook (x : Execution) (h : Hook) (c : Context) : Action Value := do
  let token ← Action.ofExcept (h.resolveToken x.engine.functions c)
  let seconds ← Action.ofExcept ((x.hookPatience h).seconds.mapError Fault.ofDuration)
  x.writeRun [("status", .text "paused"), ("hook_token", .text token)]
  let event ← awaitEvent token seconds
  x.writeRun [("status", .text "running"), ("hook_token", .null)]
  match event with
  | none => throw (.hookTimeout token seconds)
  | some payload =>
    let payload ← Action.ofExcept (checkPayload h.payloadModel payload)
    return .object [("token", .text token), ("payload", payload)]

/-- The time at which a sleep ends: as an earlier attempt noted it, or else counted from now. -/
def wakeTime (x : Execution) (d : Duration) (path : String) : Action Float := do
  match ← noted path "wakeAt" with
  | .null => do
    let now := (← Action.call .clock).seconds
    let wakeAt := now + (← Action.ofExcept (d.seconds.mapError Fault.ofDuration))
    x.note path [("wakeAt", .real wakeAt)]
    return wakeAt
  | .int n => return Float.ofInt n
  | .bool b => return if b then 1.0 else 0.0
  | .real wakeAt => return wakeAt
  | v => throw (.typeMismatch
      (.other ("unsupported operand type(s) for -: '" ++ v.typeName ++ "' and 'float'")))

/-- Sleeps until the wake time; the run is paused meanwhile. -/
def runSleep (x : Execution) (d : Duration) (path : String) : Action Value := do
  let left := (← x.wakeTime d path) - (← Action.call .clock).seconds
  x.writeRun [("status", .text "paused")]
  Action.hostSleep (if 0.0 < left then left else 0.0)
  x.writeRun [("status", .text "running")]
  return .object [("slept", d.toValue)]

/-! ## Leaves -/

/-- Whether a failure is fatal even when the plan goes on after errors. -/
def isFatal : Fault → Bool
  | .unknownStepType _ => true
  | _ => false

/-- Writes the error of a step into the journal, if the plan goes on after it. -/
def journalFault (x : Execution) (path : String) (f : Fault) : Action Unit :=
  if x.plan.continueOnError && !isFatal f then x.journal path [("error", .text f.describe)]
  else return ()

/-- Carries out a leaf step that has not ended before. -/
def carryOutNew (x : Execution) (path : StepPath) (id : Option String) (c : Context)
    (body : Action Value) : Action Finished := do
  let o ← ExceptT.lift body.outcome
  Action.call (.report ⟨path, id, o⟩)
  match o with
  | .error f => do
    x.journalFault path.text f
    throw f
  | .ok output => do
    x.journal path.text [("output", output)]
    return ⟨c.recordOutput id output, output⟩

/-- Carries out a leaf step, unless the journal says how it ended. -/
def carryOut (x : Execution) (path : StepPath) (id : Option String) (c : Context)
    (body : Action Value) : Action Finished := do
  let found ← Action.call (.recall path.text)
  match ← Action.ofExcept (JournalEntry.recorded? found "output") with
  | some output => return ⟨c.recordOutput id output, output⟩
  | none =>
    match ← Action.ofExcept (JournalEntry.recorded? found "error") with
    | some error => throw (.stepFailed error.display .null)
    | none => x.carryOutNew path id c body

end Execution

end Runbook
