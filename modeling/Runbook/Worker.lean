import Runbook.Dispatch
import Runbook.Payload
import Runbook.Poll.Loop

/-!
# `Worker` — carrying out the jobs of workers

A worker is a handler with optional schemas for its input and output. The runtime takes the message
that triggers a job, carries the job through its statuses, and reports the end to the address that
the message names.

## Contents
- **Workers.** `JobContext`, what a handler knows of its job, and `Worker`.
- **Helpers of handlers.** `JobContext.progress`, `getJob`, `dispatchWorker`.
- **Jobs.** `Runtime`, `runJob`, `handleMessage`.
- **Delivery.** `Program.delivering`, which hands the messages of requests to a runtime.
-/

namespace Runbook

/-- What a handler knows of its job. -/
structure JobContext where
  jobId : String
  workerId : String
  settings : DispatchSettings
  context : Keyed Value

/-- A worker. -/
structure Worker where
  id : String
  handler : Value → JobContext → Action Value
  inputModel : Option Schema
  outputModel : Option Schema

namespace Worker

/-- The input for the handler; a null input is read as an empty mapping. -/
def readInput (w : Worker) (input : Value) : Except Fault Value :=
  match w.inputModel with
  | some s => s.accept (if input.isNull then .object [] else input)
  | none => .ok input

/-- The output of the handler as plain data. -/
def readOutput (w : Worker) (output : Value) : Except Fault Value :=
  match w.outputModel with
  | some s => Value.plain <$> s.accept output
  | none => output.plainData

end Worker

namespace JobContext

/-- The id of the request that the job belongs to. -/
def requestId (c : JobContext) : Value := (c.context.get? "requestId").getD .null

/-- Notes the progress of the job. -/
def progress (c : JobContext) (progress message : Value) : Action Unit :=
  Action.updateJob c.jobId
    [("metadata", .object [("progress", progress), ("progressMessage", message)])]

/-- The record of a job, of this one when none is named. -/
def getJob (c : JobContext) (jobId : Option String) : Action (Option JobRecord) :=
  Action.getJob ((nonEmpty? jobId).getD c.jobId)

/-- What the record of a job shows. -/
def lookAtChild (jobId : String) : Action Observation := do
  match ← Action.getJob jobId with
  | none => return {}
  | some r =>
    return { status := some r.status.word, output := r.output,
             error := ErrorInfo.toValue? r.error }

/-- The message of an error of a child job. -/
def childMessage (workerId : String) (error : Value) : String :=
  (Dispatch.givenText? (error.getD "message")).getD ("Child worker " ++ workerId ++ " failed")

/-- How a child job is waited for, in milliseconds. -/
structure ChildPoll where
  intervalMs : Int := 2000
  timeoutMs : Int := 900000

/-- Waits for the end of a child job. -/
def awaitChild (workerId jobId : String) (triggered : DispatchResult) (poll : ChildPoll) :
    Action DispatchResult := do
  let r ← pollUntilDone (lookAtChild jobId) (fun s => Action.call (.pause s))
    ⟨poll.intervalMs, some poll.timeoutMs, none⟩
  match r.outcome with
  | .timeout =>
    throw (.pollTimeout (.child workerId jobId (.int poll.timeoutMs) r.attempts r.status))
  | .failed => throw (.stepFailed (childMessage workerId r.error) r.error)
  | .completed => return { triggered with status := r.status, output := r.output }

/-- Triggers a child job, notes it in the record of this job, and waits for its end if asked to. -/
def dispatchWorker (c : JobContext) (workerId : String) (input : Value) (jobId : Option String)
    (awaits : Bool) (poll : ChildPoll) : Action DispatchResult := do
  let context := if c.requestId.truthy then [("requestId", c.requestId)] else []
  let triggered ← Dispatch.triggerWorker c.settings workerId input jobId false (.object context)
  let child := triggered.id.getD ""
  discard (Action.store (.addInternalJob c.jobId ⟨child, workerId⟩))
  if awaits then awaitChild workerId child triggered poll else return triggered

end JobContext

/-- The workers that a runtime knows, and how they call others. -/
structure Runtime where
  workers : List Worker
  settings : DispatchSettings

namespace Runtime

/-- The worker with an id; of several the last one. -/
def worker? (r : Runtime) (id : Value) : Option Worker :=
  r.workers.reverse.find? fun w => id.text? = some w.id

/-- The header that names the sender of a report. -/
def reportHeaders : Keyed String := [("User-Agent", "stepflow-worker/1.0")]

/-- Reports the end of a job to an address, if there is one; that the report does not arrive is of
    no consequence. -/
def report (url : Value) (body : Keyed Value) : Action Unit := do
  if url.truthy then
    match ← ExceptT.lift
        (exchangeOf url (.object body)).outcome with
    | .ok _ | .error (.dispatch _) => return ()
    | .error f => throw f
where
  /-- The exchange that a report consists of. -/
  exchangeOf (url body : Value) : Action Response :=
    Dispatch.exchange "POST" url.display (some body) reportHeaders

/-- What is asked of a runtime. -/
structure JobRequest where
  workerId : Value
  jobId : String
  input : Value := .null
  webhookUrl : Value := .null
  metadata : Value := .null
  context : Value := .null

/-- The fields that all reports of a job share. -/
def reportOf (q : JobRequest) (status : String) (metadata : Value) (rest : Keyed Value) :
    Keyed Value :=
  [("jobId", .text q.jobId), ("workerId", q.workerId), ("status", .text status)] ++ rest
    ++ [("metadata", metadata)]

/-- Runs the handler of a worker on the input of a job. -/
def handle (r : Runtime) (w : Worker) (q : JobRequest) : Action Value := do
  let input ← Action.ofExcept (w.readInput q.input)
  let context := (q.context.fields?).getD []
  let output ← w.handler input ⟨q.jobId, w.id, r.settings, context⟩
  Action.ofExcept (w.readOutput output)

/-- Marks a job as failed, reports this, and fails in the same way. -/
def fail (q : JobRequest) (metadata : Value) (f : Fault) : Action Value := do
  let error := [("message", Value.text f.describe), ("stack", .text f.trace)]
  Action.updateJob q.jobId [("status", .text "failed"), ("error", .object error)]
  report q.webhookUrl
    (reportOf q "error" metadata [("error", .object (error ++ [("name", .text f.name)]))])
  throw f

/-- Marks a job as completed and reports this. -/
def complete (q : JobRequest) (metadata output : Value) : Action Value := do
  Action.updateJob q.jobId [("status", .text "completed"), ("output", output)]
  report q.webhookUrl (reportOf q "success" metadata [("output", output)])
  return output

/-- Carries out a job that has not ended. -/
def begin (r : Runtime) (w : Worker) (q : JobRequest) : Action Value := do
  let metadata := if q.metadata.truthy then q.metadata else .object []
  Action.setJob q.jobId
    [("worker_id", q.workerId), ("status", .text "queued"), ("input", q.input),
     ("metadata", metadata)]
  Action.updateJob q.jobId [("status", .text "running")]
  match ← ExceptT.lift (r.handle w q).outcome with
  | .ok output => complete q metadata output
  | .error f => fail q metadata f

/-- Carries out a job and returns its output. A job that has ended is not carried out again; its
    stored output is returned. -/
def runJob (r : Runtime) (q : JobRequest) : Action Value := do
  match r.worker? q.workerId with
  | none => throw (.workerNotFound q.workerId)
  | some w =>
    match (← Action.getJob q.jobId).filter JobRecord.isTerminal with
    | some record => return record.output
    | none => r.begin w q

/-- A field that a message must have. -/
def messageField (message : Value) (key : String) : Except Fault Value :=
  match message.get? key with
  | some v => .ok v
  | none => .error (.noSuchKey key)

/-- Carries out the job that a message describes. -/
def handleMessage (r : Runtime) (message : Value) : Action Value := do
  let workerId ← Action.ofExcept (messageField message "workerId")
  let jobId ← Action.ofExcept (messageField message "jobId")
  r.runJob
    { workerId, jobId := jobId.display, input := message.getD "input",
      webhookUrl := message.getD "webhookUrl", metadata := message.getD "metadata",
      context := message.getD "context" }

end Runtime

/-- Hands the messages of requests that deliver to a handler before their replies are returned; that
    the handler fails is only noted. -/
def Program.delivering {α : Type} (handle : Value → Action Value) : Program α → Program α
  | .done a => .done a
  | .ask (.request r) next =>
    .ask (.request r) fun reply =>
      if reply.delivers then
        (handle ((r.body.getD .null).getD "body")).outcome.bind fun
          | .ok _ => (next reply).delivering handle
          | .error f =>
            .ask (.note (.deliveryFailed f.name)) fun _ => (next reply).delivering handle
      else (next reply).delivering handle
  | .ask c next => .ask c fun answer => (next answer).delivering handle

/-- Handles a message, handing the messages of its own requests to the same runtime, up to a depth of
    nested deliveries. -/
def Runtime.deliver (r : Runtime) : Nat → Value → Action Value
  | 0, message => r.handleMessage message
  | depth + 1, message =>
    ExceptT.mk (Program.delivering (r.deliver depth) (r.handleMessage message).outcome)

end Runbook
