import Runbook.Address
import Runbook.Extract
import Runbook.Poll.Observation
import Runbook.Plan.Resolution
import Runbook.Program.Basic

/-!
# `Dispatch` — calling remote capabilities

Agents are called and reply at once, workflows are started, workers are triggered with a job. What a
remote side reports about a run or a job is read here as well.

## Contents
- **Names.** `hexId` and `newJobId`.
- **Requests.** `exchange` and `requireSuccess`.
- **Capabilities.** `callAgent`, `startWorkflow`, `triggerWorker`, and `dispatch` by kind.
- **Looks.** `lookAtJob` and `lookAtRun`, one look at the status of a job or a run.
-/

namespace Runbook

/-- What became of a call of a capability. -/
structure DispatchResult where
  /-- The id of the run or the job. -/
  id : Option String := none
  status : Option String := none
  output : Value := .null
  messageId : Option String := none

/-- A result as a value. -/
def DispatchResult.toValue (r : DispatchResult) : Value :=
  .object
    [("id", .ofText? r.id), ("status", .ofText? r.status), ("output", r.output),
     ("message_id", .ofText? r.messageId)]

namespace Dispatch

/-! ## Names -/

/-- The 32 hexadecimal digits of a number. -/
def hexId (n : Nat) : String := Text.hexText 32 n

/-- A job id that was not used before. -/
def newJobId : Action String := do return "job-" ++ hexId (← Action.call .freshId)

/-! ## Requests -/

/-- Sends a request and waits for the response. A body that JSON has no form for is refused before
    anything is sent. -/
def exchange (method url : String) (body : Option Value) (headers : Keyed String) :
    Action Response := do
  match body.bind Value.unwritable? with
  | some typeName => throw (.typeMismatch (.notWritable typeName))
  | none =>
    let reply ← Action.call (.request { method, url, body, headers })
    match reply.response with
    | .ok response => return response
    | .error reason => throw (.dispatch (.unreachable method url reason))

/-- The beginning of a response's text. -/
def excerpt (r : Response) : String := String.ofList (r.text.toList.take 500)

/-- Refuses a response that is not a success. -/
def requireSuccess (r : Response) (url what : String) : Action Unit :=
  if r.isSuccess then return ()
  else
    throw (.dispatch
      (.refused what (Request.encodedUrl url) r.status (Response.phrase r.status) (excerpt r)))

/-- The text that a value stands for, when it is not false. -/
def givenText? (v : Value) : Option String := if v.truthy then some v.display else none

variable (settings : DispatchSettings)

/-! ## Capabilities -/

/-- Calls an agent and returns the result in its reply. -/
def callAgent (agent : String) (input : Value) (messages : List Value) : Action Value := do
  let url := Address.agentUrl settings agent
  let body := .object [("messages", .list messages), ("input", input), ("params", input)]
  let response ← exchange "POST" url (some body) []
  requireSuccess response url ("Agent " ++ agent)
  return extract Strategy.all response.json

/-- The body that starts a run. -/
def startBody (input : Value) (messages : List Value) (executionId : Option String) : Value :=
  .object
    ([("input", input), ("messages", .list messages)]
      ++ match executionId with
        | some e => if e = "" then [] else [("executionId", .text e)]
        | none => [])

/-- The run that a response names. -/
def startedRun (workflow url : String) (response : Response) : Action DispatchResult := do
  match givenText? (response.json.getD "runId") with
  | none => throw (.dispatch (.noRunId workflow url (excerpt response)))
  | some runId =>
    let status := response.json.getD "status"
    let status ←
      if status.truthy then
        Action.ofExcept
          (Fault.ofChecked "DispatchResult" ((Decode.text status).under (.name "status")))
      else pure "running"
    return { id := some runId, status := some status }

/-- Starts a run of a workflow without waiting for its end. -/
def startWorkflow (workflow : String) (input : Value) (messages : List Value)
    (executionId : Option String) : Action DispatchResult := do
  let url := Address.workflowUrl settings workflow
  let response ← exchange "POST" url (some (startBody input messages executionId)) []
  requireSuccess response url ("Workflow " ++ workflow ++ " start")
  startedRun workflow url response

/-- The origin that is noted with a job. -/
def origin : Value := .object [("source", .text "workflow-orchestration")]

/-- The message that triggers a worker; a null input is sent as an empty object. -/
def triggerMessage (workerId jobId : String) (input context : Value) (webhook : Option String)
    (time : Stamp) : Value :=
  .object
    [("workerId", .text workerId), ("jobId", .text jobId),
     ("input", if input.isNull then .object [] else input),
     ("context", if context.truthy then context else .object []),
     ("webhookUrl", .ofText? webhook), ("metadata", origin), ("timestamp", .text time.isoText)]

/-- The header that authorises a trigger. -/
def triggerHeaders : Keyed String :=
  match settings.triggerApiKey with
  | some key => if key = "" then [] else [("x-workers-trigger-key", key)]
  | none => []

/-- Sends the trigger of a job; a failure of the request is noted with the job. -/
def sendTrigger (workerId jobId : String) (message : Value) : Action Response := do
  let url := Address.workerTriggerUrl settings
  let body := .object [("workerId", .text workerId), ("body", message)]
  let attempt : Action Response := do
    let response ← exchange "POST" url (some body) (triggerHeaders settings)
    requireSuccess response url ("Worker " ++ workerId ++ " trigger")
    return response
  match ← ExceptT.lift attempt.outcome with
  | .ok response => return response
  | .error (.dispatch p) => do
    Action.setJob jobId
      [("metadata",
        .object [("trigger_failed", .bool true), ("trigger_error", .text p.message)])]
    throw (.dispatch p)
  | .error f => throw f

/-- Whether the trigger of a recorded job has to be sent again. -/
def isUntriggered (r : JobRecord) : Bool := ((r.metadata.get? "trigger_failed").getD .null).truthy

/-- Records a queued job and triggers its worker. A recorded job is not triggered again, unless its
    trigger failed. -/
def triggerWorker (workerId : String) (input : Value) (jobId : Option String) (awaits : Bool)
    (context : Value) : Action DispatchResult := do
  let jobId ←
    match nonEmpty? jobId with
    | some id => pure id
    | none => newJobId
  let existing ← Action.getJob jobId
  match existing.filter fun r => !isUntriggered r with
  | some r => return { id := some jobId, status := some r.status.word }
  | none =>
    Action.setJob jobId
      [("worker_id", .text workerId), ("status", .text "queued"), ("input", input),
       ("metadata", origin)]
    let webhook := if awaits then Address.webhookUrl? settings workerId else none
    let message := triggerMessage workerId jobId input context webhook (← Action.now)
    let response ← sendTrigger settings workerId jobId message
    if existing.isSome then
      Action.setJob jobId [("metadata", .object [("trigger_failed", .bool false)])]
    let messageId := givenText? (response.json.getD "messageId")
    return { id := some jobId, status := some "queued",
             messageId := some (messageId.getD ("trigger-" ++ jobId)) }

/-- Sends one invocation of a capability of any kind. Only an agent whose reply is awaited gives an
    output. -/
def dispatch (kind target : String) (input : Value) (awaits : Bool) (messages : List Value)
    (jobId executionId : Option String) : Action DispatchResult :=
  match kind with
  | "agent" =>
    if awaits then do
      let output ← callAgent settings target input messages
      return { status := some "completed", output }
    else startWorkflow settings target input messages executionId
  | "workflow" => startWorkflow settings target input messages executionId
  | "worker" => triggerWorker settings target input jobId awaits .null
  | kind => throw (.unknownCapability kind)

/-! ## Looks -/

/-- Reads an observation from parts of a status reply. -/
def observe (status output error metadata : Value) : Action Observation :=
  Action.ofExcept
    (Fault.ofChecked Observation.structureName
      (Observation.ofFields
        [("status", status), ("output", output), ("error", error),
         ("metadata", if metadata.truthy then metadata else .object [])]))

/-- The status reply of a remote side, which must be an object; absent when nothing is known yet. -/
def statusReply (url what : String) : Action (Option Value) := do
  let response ← exchange "GET" url none []
  if response.status = 404 then return none
  requireSuccess response url what
  if response.json.isObject then return some response.json
  else throw (.dispatch (.badStatus url))

/-- Records what was seen of a job; that this fails is of no consequence. -/
def recordJob (workerId jobId : String) (o : Observation) : Action Unit :=
  discard (ExceptT.lift
    (Action.setJob jobId
      [("worker_id", .text workerId), ("status", .ofText? o.status), ("output", o.output),
       ("error", o.error), ("metadata", .object o.metadata)]).outcome)

/-- Looks at the status of a job, which counts as queued as long as nothing is known of it. -/
def lookAtJob (workerId jobId : String) : Action Observation := do
  let url := Address.workerStatusUrl settings workerId jobId
  match ← statusReply url ("Worker " ++ workerId ++ " job " ++ jobId ++ " status") with
  | none => return { status := some "queued" }
  | some data =>
    let status := data.getD "status"
    let o ← observe (if status.truthy then status else .text "queued") (data.getD "output")
      (data.getD "error") (data.getD "metadata")
    recordJob workerId jobId o
    return o

/-- The output of a run: its result, or else its output, or else the whole reply when the run was a
    success. -/
def runOutput (data : Value) : Value :=
  let output := if (data.getD "result").isNull then data.getD "output" else data.getD "result"
  if Observation.isSuccessful (data.getD "status").text? && output.isNull then data else output

/-- Looks at the status of a run, which counts as pending as long as nothing is known of it. -/
def lookAtRun (workflow runId : String) : Action Observation := do
  let url := Address.workflowStatusUrl settings workflow runId
  match ← statusReply url ("Workflow " ++ workflow ++ " run " ++ runId ++ " status") with
  | none => return { status := some "pending" }
  | some data =>
    observe (data.getD "status") (runOutput data) (data.getD "error") (data.getD "metadata")

end Dispatch

end Runbook
