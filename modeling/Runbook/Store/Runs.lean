import Runbook.Store.Held

/-!
# `Store.Runs` — the store of run records

Run records under their run ids, with a look-up by the execution id that the caller gave a run.

## Contents
- **The type.** `RunColumns`, what a table keeps beside a document, and `RunStore`.
- **Writing.** `RunStore.set`.
- **Reading.** `get`, `runOfExecution?`, `list`.
-/

namespace Runbook

/-- What a table keeps beside the document of a run. -/
structure RunColumns where
  executionId : Option String
  status : RunStatus
  deriving DecidableEq, Repr

/-- A store of run records. -/
structure RunStore where
  backend : Backend
  /-- Records in the order in which their runs were first seen. -/
  records : Keyed (Held RunRecord) := []
  columns : Keyed RunColumns := []
  /-- The run that last took an execution id. -/
  executions : Keyed String := []

namespace RunStore

/-- The record of a run. -/
def get (s : RunStore) (runId : String) : Except Fault (Option RunRecord) :=
  s.records.readHeld runId

/-- The store after a record was kept. -/
def keep (s : RunStore) (r : RunRecord) : Except Fault RunStore := do
  let held ← hold s.backend r
  return { s with
    records := s.records.put r.runId held
    columns := s.columns.put r.runId ⟨r.executionId, r.status⟩
    executions :=
      match r.executionId with
      | some e => if e = "" then s.executions else s.executions.put e r.runId
      | none => s.executions }

/-- Lays an update over the record of a run. -/
def set (s : RunStore) (runId : String) (updates : Keyed Value) (now : Stamp) :
    Except Fault (RunRecord × RunStore) := do
  let r ← RunRecord.update (← s.get runId) runId updates now
  return (r, ← s.keep r)

/-- The run with an execution id: tables look for the first row that has it now, the other stores
    remember which run last took it. -/
def runOfExecution? (s : RunStore) (executionId : String) : Option String :=
  match s.backend with
  | .memory | .redis => s.executions.get? executionId
  | .sqlite | .postgres =>
    (s.columns.find? fun entry => entry.2.executionId = some executionId).map (·.1)

/-- The run ids in the order of listings: sorted in a key-value store, otherwise as first seen. -/
def order (s : RunStore) : List String :=
  match s.backend with
  | .redis => s.records.keys.mergeSort fun a b => decide (a ≤ b)
  | _ => s.records.keys

/-- Whether a record is listed under a status; null lists all. -/
def isListed (status : Value) (r : RunRecord) : Bool :=
  status.isNull || status.text? = some r.status.word

/-- All records, or those with a status. -/
def list (s : RunStore) (status : Value) : Except Fault (List RunRecord) :=
  match s.backend with
  | .memory | .redis => List.filter (isListed status) <$> s.records.readMany s.order
  | .sqlite | .postgres =>
    s.records.readMany
      (s.order.filter fun id =>
        (s.columns.get? id).any fun c => status.isNull || status.text? = some c.status.word)

end RunStore

end Runbook
