import Runbook.Store.ErrorInfo
import Runbook.Time.Stamp

/-!
# `Store.JobRecord` — the state of a worker's job

One record for each job that was handed to a worker, with the jobs that it started itself.

## Contents
- **Statuses.** `JobStatus` with its words.
- **The types.** `InternalJob` and `JobRecord`, their reading and their form as values.
- **Updates.** `JobRecord.update`: a job that has ended only takes metadata.
  `JobRecord.addInternal` notes a job started by this one.
-/

namespace Runbook

/-- How far a job is. -/
inductive JobStatus where
  | queued
  | running
  | completed
  | failed
  deriving DecidableEq, Repr

namespace JobStatus

/-- The word for a status. -/
def word : JobStatus → String
  | .queued => "queued"
  | .running => "running"
  | .completed => "completed"
  | .failed => "failed"

/-- All statuses. -/
def all : List JobStatus := [.queued, .running, .completed, .failed]

/-- Reads a status. -/
def ofValue (v : Value) : Checked JobStatus :=
  match v.text?.bind fun w => all.find? fun s => s.word = w with
  | some s => .ok s
  | none => .complain (.literalError (all.map word))

/-- Whether a job has ended. -/
def isTerminal (s : JobStatus) : Bool := s = .completed || s = .failed

end JobStatus

/-- A job that another job started. -/
structure InternalJob where
  jobId : String
  workerId : String
  deriving DecidableEq, Repr

namespace InternalJob

/-- The reference as a value. -/
def toValue (j : InternalJob) : Value :=
  .object [("job_id", .text j.jobId), ("worker_id", .text j.workerId)]

/-- Reads a reference. -/
def ofValue : Value → Checked InternalJob
  | .object fields =>
    InternalJob.mk <$> Decode.required fields "job_id" Decode.text
      <*> Decode.required fields "worker_id" Decode.text
  | _ => .complain (.modelType "InternalJobEntry")

/-- Reads a list of references. -/
def listOfValue (v : Value) : Checked (List InternalJob) :=
  (Decode.list v).andThen fun items => Checked.items ofValue 0 items

/-- The items of what an update puts in place of the references: what is false stands for no items,
    a text for its characters and a mapping for its keys. A mapping among the items is read at
    once. -/
def itemsOfUpdate (v : Value) : Except Fault (List Value) := do
  let items ←
    if !v.truthy then pure []
    else
      match v with
      | .list items => pure items
      | .text s => pure (s.toList.map fun c => .text c.toString)
      | .object fields => pure (fields.map fun entry => .text entry.1)
      | v => throw (.typeMismatch (.other ("'" ++ v.typeName ++ "' object is not iterable")))
  for item in items do
    if item.isObject then
      let _ ← Fault.ofChecked "InternalJobEntry" (ofValue item)
  return items

end InternalJob

/-- The state of a job. -/
structure JobRecord where
  jobId : String
  workerId : String
  status : JobStatus
  input : Value
  output : Value
  error : Option ErrorInfo
  metadata : Keyed Value
  internalJobs : List InternalJob
  createdAt : Stamp
  updatedAt : Stamp
  completedAt : Option Stamp

namespace JobRecord

/-- The record of a job that nothing is known about yet. -/
def start (jobId : String) (now : Stamp) : JobRecord :=
  ⟨jobId, "", .queued, .null, .null, none, [], [], now, now, none⟩

/-- A record as a value. -/
def toValue (r : JobRecord) : Value :=
  .object
    [("job_id", .text r.jobId), ("worker_id", .text r.workerId), ("status", .text r.status.word),
     ("input", r.input), ("output", r.output), ("error", ErrorInfo.toValue? r.error),
     ("metadata", .object r.metadata),
     ("internal_jobs", .list (r.internalJobs.map InternalJob.toValue)),
     ("created_at", r.createdAt.toValue), ("updated_at", r.updatedAt.toValue),
     ("completed_at", Stamp.toValue? r.completedAt)]

/-- Reads a record. -/
def ofValue : Value → Checked JobRecord
  | .object fields =>
    JobRecord.mk
      <$> Decode.required fields "job_id" Decode.text
      <*> Decode.required fields "worker_id" Decode.text
      <*> Decode.required fields "status" JobStatus.ofValue
      <*> Decode.optional fields "input" Value.null Decode.anything
      <*> Decode.optional fields "output" Value.null Decode.anything
      <*> Decode.option fields "error" ErrorInfo.ofValue
      <*> Decode.required fields "metadata" Decode.dictionary
      <*> Decode.required fields "internal_jobs" InternalJob.listOfValue
      <*> Decode.required fields "created_at" Decode.stamp
      <*> Decode.required fields "updated_at" Decode.stamp
      <*> Decode.option fields "completed_at" Decode.stamp
  | _ => .complain (.modelType "JobRecord")

/-- The name of the record in messages. -/
def structureName : String := "JobRecord"

/-- Whether the job has ended. -/
def isTerminal (r : JobRecord) : Bool := r.status.isTerminal

/-- The parts of a job that an update replaces or overlays before the other fields are checked. -/
structure Overlays where
  metadata : Keyed Value
  error : Option ErrorInfo
  internalJobs : Option Value

/-- The overlays of an update, taken in the order in which the update names them; a job that has
    ended takes metadata only. -/
def overlays (base : JobRecord) (updates : Keyed Value) : Except Fault Overlays :=
  updates.foldlM
    (fun acc (key, v) =>
      if key = "metadata" then return { acc with metadata := ← Update.overlay base.metadata v }
      else if base.isTerminal then return acc
      else if key = "error" then return { acc with error := ← ErrorInfo.ofUpdate? v }
      else if key = "internal_jobs" then
        return { acc with internalJobs := some (.list (← InternalJob.itemsOfUpdate v)) }
      else return acc)
    ⟨base.metadata, base.error, none⟩

/-- The references after an update. -/
def newInternalJobs (base : JobRecord) (o : Overlays) : Checked (List InternalJob) :=
  match o.internalJobs with
  | some v => (InternalJob.listOfValue v).under (.name "internal_jobs")
  | none => .ok base.internalJobs

/-- The fields after an update, each checked against its type. -/
def revise (base : JobRecord) (updates : Keyed Value) (o : Overlays) (now : Stamp) :
    Checked JobRecord :=
  (fun workerId status input output internalJobs createdAt completedAt =>
      ⟨base.jobId, workerId, status, input, output, o.error, o.metadata, internalJobs, createdAt,
        now, completedAt⟩)
    <$> Update.field updates "worker_id" base.workerId Decode.text
    <*> Update.field updates "status" base.status JobStatus.ofValue
    <*> Update.field updates "input" base.input Decode.anything
    <*> Update.field updates "output" base.output Decode.anything
    <*> base.newInternalJobs o
    <*> Update.field updates "created_at" base.createdAt Decode.stamp
    <*> Update.field updates "completed_at" base.completedAt (fun v => some <$> Decode.stamp v)

/-- A job that has ended has a time of completion. -/
def settle (r : JobRecord) (now : Stamp) : JobRecord :=
  if r.isTerminal then { r with completedAt := r.completedAt.or (some now) } else r

/-- Lays an update over a record. -/
def revised (base : JobRecord) (updates : Keyed Value) (now : Stamp) : Except Fault JobRecord := do
  let o ← base.overlays updates
  let fields := if base.isTerminal then [] else updates
  let r ← Fault.ofChecked structureName (base.revise fields o now)
  return r.settle now

/-- Lays an update over the record of a job, or over a new record when there is none. -/
def update (existing : Option JobRecord) (jobId : String) (updates : Keyed Value) (now : Stamp) :
    Except Fault JobRecord := do
  let r ← (existing.getD (start jobId now)).revised updates now
  return { r with jobId }

/-- Notes a job that this one started. -/
def addInternal (r : JobRecord) (child : InternalJob) (now : Stamp) : JobRecord :=
  { r with internalJobs := r.internalJobs ++ [child], updatedAt := now }

end JobRecord

end Runbook
