import Runbook.Store.JobRecord

/-!
# `Store.QueueRecord` — the state of a pipeline of workers

One record for each run of a queue: the steps reached so far, and how the queue as a whole stands.

## Contents
- **Statuses.** `QueueStatus` and `Finish`, which keep also what was set without being checked.
- **The types.** `QueueStepRecord` and `QueueRecord`, their reading and their form as values.
- **Updates.** `QueueRecord.create`, `appendStep`, `updateStep` (the queue's status follows from
  that of its steps) and `override` (status, metadata and end of the queue set from outside).
-/

namespace Runbook

/-- How a queue stands. -/
inductive QueueStatus where
  | running
  | completed
  | failed
  | partly
  /-- A status set from outside that is none of the others. -/
  | other (v : Value)

namespace QueueStatus

/-- A status as a value. -/
def toValue : QueueStatus → Value
  | .running => .text "running"
  | .completed => .text "completed"
  | .failed => .text "failed"
  | .partly => .text "partial"
  | .other v => v

/-- The words for the statuses. -/
def words : List String := ["running", "completed", "failed", "partial"]

/-- The status that a value stands for. -/
def ofValue (v : Value) : QueueStatus :=
  match v with
  | .text "running" => .running
  | .text "completed" => .completed
  | .text "failed" => .failed
  | .text "partial" => .partly
  | v => .other v

/-- Reads a status. -/
def read (v : Value) : Checked QueueStatus :=
  match ofValue v with
  | .other _ => .complain (.literalError words)
  | s => .ok s

/-- Whether a queue has ended. -/
def isTerminal : QueueStatus → Bool
  | .completed | .failed | .partly => true
  | .running | .other _ => false

end QueueStatus

/-- When a queue ended: a stamp, or a value set from outside. -/
inductive Finish where
  | stamp (s : Stamp)
  | other (v : Value)

namespace Finish

/-- The time as a value. -/
def toValue : Finish → Value
  | .stamp s => s.toValue
  | .other v => v

/-- The optional time as a value. -/
def toValue? : Option Finish → Value
  | some f => f.toValue
  | none => .null

/-- A time that counts as given: a value that is false does not. -/
def given? : Option Finish → Option Finish
  | some (.other v) => if v.truthy then some (.other v) else none
  | f => f

end Finish

/-- One step of a queue. -/
structure QueueStepRecord where
  workerId : String
  workerJobId : String
  status : JobStatus
  input : Value
  output : Value
  error : Option ErrorInfo
  startedAt : Option Stamp
  completedAt : Option Stamp

namespace QueueStepRecord

/-- A step that its worker has not begun. -/
def queued (workerId workerJobId : String) : QueueStepRecord :=
  ⟨workerId, workerJobId, .queued, .null, .null, none, none, none⟩

/-- A step as a value. -/
def toValue (s : QueueStepRecord) : Value :=
  .object
    [("worker_id", .text s.workerId), ("worker_job_id", .text s.workerJobId),
     ("status", .text s.status.word), ("input", s.input), ("output", s.output),
     ("error", ErrorInfo.toValue? s.error), ("started_at", Stamp.toValue? s.startedAt),
     ("completed_at", Stamp.toValue? s.completedAt)]

/-- Reads a step. -/
def ofValue : Value → Checked QueueStepRecord
  | .object fields =>
    QueueStepRecord.mk
      <$> Decode.required fields "worker_id" Decode.text
      <*> Decode.required fields "worker_job_id" Decode.text
      <*> Decode.required fields "status" JobStatus.ofValue
      <*> Decode.optional fields "input" Value.null Decode.anything
      <*> Decode.optional fields "output" Value.null Decode.anything
      <*> Decode.option fields "error" ErrorInfo.ofValue
      <*> Decode.option fields "started_at" Decode.stamp
      <*> Decode.option fields "completed_at" Decode.stamp
  | _ => .complain (.modelType "QueueJobStep")

/-- Reads a list of steps. -/
def listOfValue (v : Value) : Checked (List QueueStepRecord) :=
  (Decode.list v).andThen fun items => Checked.items ofValue 0 items

/-- A time after an update: a given one, or else the one that a transition sets. -/
def newTime (updates : Keyed Value) (key : String) (transition : Option Stamp) :
    Checked (Option Stamp) :=
  match updates.get? key with
  | some v =>
    if v.truthy then (some <$> Decode.stamp v : Checked (Option Stamp)).under (.name key)
    else .ok transition
  | none => .ok transition

/-- The fields after an update, each checked against its type. The first time that a step runs or
    ends is kept. -/
def revise (s : QueueStepRecord) (updates : Keyed Value) (error : Option ErrorInfo) (now : Stamp) :
    Checked QueueStepRecord :=
  let status := (updates.get? "status").bind Value.text?
  let began := if status = some "running" then s.startedAt.or (some now) else s.startedAt
  let ended :=
    if status = some "completed" ∨ status = some "failed" then s.completedAt.or (some now)
    else s.completedAt
  (fun status input output startedAt completedAt =>
      ⟨s.workerId, s.workerJobId, status, input, output, error, startedAt, completedAt⟩)
    <$> Update.field updates "status" s.status JobStatus.ofValue
    <*> Update.field updates "input" s.input Decode.anything
    <*> Update.field updates "output" s.output Decode.anything
    <*> newTime updates "started_at" began
    <*> newTime updates "completed_at" ended

/-- Lays an update over a step. -/
def update (s : QueueStepRecord) (updates : Keyed Value) (now : Stamp) :
    Except Fault QueueStepRecord := do
  let error ←
    match Update.newValue? updates "error" with
    | some v => ErrorInfo.ofUpdate? v
    | none => pure s.error
  Fault.ofChecked "QueueJobStep" (s.revise updates error now)

end QueueStepRecord

/-- The state of a run of a queue. -/
structure QueueRecord where
  id : String
  queueId : String
  status : QueueStatus
  steps : List QueueStepRecord
  /-- The length of the pipeline, when it is known. -/
  totalSteps : Option Int
  metadata : Keyed Value
  createdAt : Stamp
  updatedAt : Stamp
  completedAt : Option Finish

namespace QueueRecord

/-- A record as a value. -/
def toValue (r : QueueRecord) : Value :=
  .object
    [("id", .text r.id), ("queue_id", .text r.queueId), ("status", r.status.toValue),
     ("steps", .list (r.steps.map QueueStepRecord.toValue)), ("total_steps", .ofInt? r.totalSteps),
     ("metadata", .object r.metadata), ("created_at", r.createdAt.toValue),
     ("updated_at", r.updatedAt.toValue), ("completed_at", Finish.toValue? r.completedAt)]

/-- The name of the record in messages. -/
def structureName : String := "QueueJobRecord"

/-- Reads a record. -/
def ofValue : Value → Checked QueueRecord
  | .object fields =>
    QueueRecord.mk
      <$> Decode.required fields "id" Decode.text
      <*> Decode.required fields "queue_id" Decode.text
      <*> Decode.required fields "status" QueueStatus.read
      <*> Decode.required fields "steps" QueueStepRecord.listOfValue
      <*> Decode.option fields "total_steps" Decode.whole
      <*> Decode.required fields "metadata" Decode.dictionary
      <*> Decode.required fields "created_at" Decode.stamp
      <*> Decode.required fields "updated_at" Decode.stamp
      <*> Decode.option fields "completed_at" (fun v => Finish.stamp <$> Decode.stamp v)
  | _ => .complain (.modelType structureName)

/-- A running queue whose first step is queued. -/
def create (id queueId workerId workerJobId : String) (metadata totalSteps : Value) (now : Stamp) :
    Except Fault QueueRecord :=
  Fault.ofChecked structureName
    ((fun totalSteps metadata =>
        (⟨id, queueId, .running, [.queued workerId workerJobId], totalSteps, metadata, now, now,
          none⟩ : QueueRecord))
      <$> (Decode.nullable Decode.whole totalSteps).under (.name "total_steps")
      <*> (if metadata.truthy then (Decode.dictionary metadata).under (.name "metadata")
        else .ok []))

/-- Appends a queued step. -/
def appendStep (r : QueueRecord) (workerId workerJobId : String) (now : Stamp) : QueueRecord :=
  { r with steps := r.steps ++ [.queued workerId workerJobId], updatedAt := now }

/-- Whether a number lies outside the positions of the steps. -/
def isOutside (r : QueueRecord) : Value → Bool
  | .real x => x < 0.0 || Float.ofNat r.steps.length ≤ x
  | v => v.integer?.any fun n => n < 0 || (r.steps.length : Int) ≤ n

/-- The position that a value names among the steps. -/
def position (r : QueueRecord) (index : Value) : Except Fault Nat :=
  if r.isOutside index then .error (.store (.noSuchStep r.id index.display))
  else
    match index.integer? with
    | some n => .ok n.toNat
    | none => .error (.typeMismatch (.notComparable index.typeName "int"))

/-- The number of steps with which the queue ends. -/
def lastCount (r : QueueRecord) : Int :=
  match r.totalSteps with
  | some 0 | none => r.steps.length
  | some n => n

/-- The time at which a queue that ends now ended: the time it has already, or now. -/
def endTime (r : QueueRecord) (now : Stamp) : Option Finish :=
  (Finish.given? r.completedAt).or (some (.stamp now))

/-- The queue after its step at `index` took a status: a failed step fails the queue, and the last
    step completes it. -/
def follow (r : QueueRecord) (index : Nat) (status : Option String) (now : Stamp) : QueueRecord :=
  if status = some "failed" then { r with status := .failed, completedAt := r.endTime now }
  else if status = some "completed" ∧ (index : Int) = r.lastCount - 1 then
    { r with status := .completed, completedAt := r.endTime now }
  else r

/-- Lays an update over the step at an index. -/
def updateStep (r : QueueRecord) (index : Value) (updates : Keyed Value) (now : Stamp) :
    Except Fault QueueRecord := do
  let position ← r.position index
  match r.steps[position]? with
  | none => return r
  | some step =>
    let step ← step.update updates now
    let r := { r with steps := r.steps.set position step, updatedAt := now }
    return r.follow position ((updates.get? "status").bind Value.text?) now

/-- The queue after a status was set from outside. -/
def withStatus (r : QueueRecord) (status : Value) (now : Stamp) : QueueRecord :=
  if status.isNull then r
  else
    let s := QueueStatus.ofValue status
    { r with
      status := s
      completedAt := if s.isTerminal then r.completedAt.or (some (.stamp now)) else r.completedAt }

/-- The queue after its time of completion was set from outside. -/
def withFinish (r : QueueRecord) (updates : Keyed Value) : QueueRecord :=
  match Update.newValue? updates "completed_at" with
  | some v => { r with completedAt := some (.other v) }
  | none => r

/-- Sets status, metadata and time of completion from outside, none of them checked; also what the
    queue has become when the metadata cannot be laid over. -/
def override (r : QueueRecord) (status : Value) (updates : Keyed Value) (now : Stamp) :
    QueueRecord × Option Fault :=
  let r := r.withStatus status now
  match Update.overlay r.metadata ((updates.get? "metadata").getD .null) with
  | .error f => (r, some f)
  | .ok metadata => ({ ({ r with metadata }.withFinish updates) with updatedAt := now }, none)

end QueueRecord

end Runbook
