import Runbook.Store.ErrorInfo
import Runbook.Time.Stamp

/-!
# `Store.RunRecord` — the status of a run

One record for each run: how far it is, what it waits for, and how it ended.

## Contents
- **Statuses.** `RunStatus` with its words.
- **The type.** `RunRecord`, its reading and its form as a value.
- **Updates.** `RunRecord.update`: fields that an update does not name keep their values, metadata
  is laid over, and the first terminal status sets the time of completion.
-/

namespace Runbook

/-- How far a run is. -/
inductive RunStatus where
  | pending
  | running
  | paused
  | completed
  | failed
  deriving DecidableEq, Repr

namespace RunStatus

/-- The word for a status. -/
def word : RunStatus → String
  | .pending => "pending"
  | .running => "running"
  | .paused => "paused"
  | .completed => "completed"
  | .failed => "failed"

/-- All statuses. -/
def all : List RunStatus := [.pending, .running, .paused, .completed, .failed]

/-- Reads a status. -/
def ofValue (v : Value) : Checked RunStatus :=
  match v.text?.bind fun w => all.find? fun s => s.word = w with
  | some s => .ok s
  | none => .complain (.literalError (all.map word))

/-- Whether a run has ended. -/
def isTerminal (s : RunStatus) : Bool := s = .completed || s = .failed

end RunStatus

/-- The status of a run. -/
structure RunRecord where
  runId : String
  executionId : Option String
  status : RunStatus
  hookToken : Option String
  result : Value
  error : Option ErrorInfo
  metadata : Keyed Value
  createdAt : Stamp
  updatedAt : Stamp
  completedAt : Option Stamp

namespace RunRecord

/-- The record of a run that nothing is known about yet. -/
def start (runId : String) (now : Stamp) : RunRecord :=
  ⟨runId, none, .pending, none, .null, none, [], now, now, none⟩

/-- A record as a value. -/
def toValue (r : RunRecord) : Value :=
  .object
    [("run_id", .text r.runId), ("execution_id", .ofText? r.executionId),
     ("status", .text r.status.word), ("hook_token", .ofText? r.hookToken), ("result", r.result),
     ("error", ErrorInfo.toValue? r.error), ("metadata", .object r.metadata),
     ("created_at", r.createdAt.toValue), ("updated_at", r.updatedAt.toValue),
     ("completed_at", Stamp.toValue? r.completedAt)]

/-- Reads a record. -/
def ofValue : Value → Checked RunRecord
  | .object fields =>
    RunRecord.mk
      <$> Decode.required fields "run_id" Decode.text
      <*> Decode.option fields "execution_id" Decode.text
      <*> Decode.required fields "status" RunStatus.ofValue
      <*> Decode.option fields "hook_token" Decode.text
      <*> Decode.optional fields "result" Value.null Decode.anything
      <*> Decode.option fields "error" ErrorInfo.ofValue
      <*> Decode.required fields "metadata" Decode.dictionary
      <*> Decode.required fields "created_at" Decode.stamp
      <*> Decode.required fields "updated_at" Decode.stamp
      <*> Decode.option fields "completed_at" Decode.stamp
  | _ => .complain (.modelType "WorkflowStatusRecord")

/-- The name of the record in messages. -/
def structureName : String := "WorkflowStatusRecord"

/-- Metadata and error after an update, taken in the order in which the update names them. -/
def overlays (base : RunRecord) (updates : Keyed Value) :
    Except Fault (Keyed Value × Option ErrorInfo) :=
  updates.foldlM
    (fun acc (key, v) =>
      if key = "metadata" then return (← Update.overlay base.metadata v, acc.2)
      else if key = "error" then return (acc.1, ← ErrorInfo.ofUpdate? v)
      else return acc)
    (base.metadata, base.error)

/-- The token after an update; null clears it. -/
def newToken (base : RunRecord) (updates : Keyed Value) : Checked (Option String) :=
  match updates.get? "hook_token" with
  | some v => (Decode.nullable Decode.text v).under (.name "hook_token")
  | none => .ok base.hookToken

/-- The fields after an update, each checked against its type. -/
def revise (base : RunRecord) (updates : Keyed Value) (metadata : Keyed Value)
    (error : Option ErrorInfo) (now : Stamp) : Checked RunRecord :=
  (fun executionId status hookToken result createdAt completedAt =>
      ⟨base.runId, executionId, status, hookToken, result, error, metadata, createdAt, now,
        completedAt⟩)
    <$> Update.field updates "execution_id" base.executionId (fun v => some <$> Decode.text v)
    <*> Update.field updates "status" base.status RunStatus.ofValue
    <*> base.newToken updates
    <*> Update.field updates "result" base.result Decode.anything
    <*> Update.field updates "created_at" base.createdAt Decode.stamp
    <*> Update.field updates "completed_at" base.completedAt (fun v => some <$> Decode.stamp v)

/-- A run that has ended has a time of completion. -/
def settle (r : RunRecord) (now : Stamp) : RunRecord :=
  if r.status.isTerminal then { r with completedAt := r.completedAt.or (some now) } else r

/-- Lays an update over the record of a run, or over a new record when there is none. -/
def update (existing : Option RunRecord) (runId : String) (updates : Keyed Value) (now : Stamp) :
    Except Fault RunRecord := do
  let base := existing.getD (start runId now)
  let (metadata, error) ← base.overlays updates
  let r ← Fault.ofChecked structureName (base.revise updates metadata error now)
  return { r with runId }.settle now

end RunRecord

end Runbook
