import Runbook.Store.Held

/-!
# `Store.Jobs` — the store of worker jobs

Job records under their job ids, listed for each worker from the newest to the oldest.

## Contents
- **Order.** `newestFirst`, and the keys by which the backends sort.
- **The type.** `JobColumns`, what a table keeps beside a document, and `JobStore`.
- **Writing.** `set`, `update`, `addInternal`.
- **Reading.** `get`, `listByWorker`.
-/

namespace Runbook

/-- Sorts from the greatest key to the smallest; equal keys keep their order. -/
def newestFirst {α : Type} (key : α → Int) (items : List α) : List α :=
  items.mergeSort fun a b => decide (key b ≤ key a)

/-- Sorts from the greatest text to the smallest; equal texts keep their order. -/
def lastTextFirst {α : Type} (key : α → String) (items : List α) : List α :=
  items.mergeSort fun a b => decide (key b ≤ key a)

/-- The members of an index from the greatest score to the smallest; equal scores are ordered by
    the member, the last one first. -/
def ranked (scores : Keyed Stamp) : List String :=
  (newestFirst (fun entry : String × Stamp => entry.2.score) (lastTextFirst (·.1) scores)).map
    (·.1)

/-- What a table keeps beside the document of a job. The time of creation is that of the row. -/
structure JobColumns where
  workerId : String
  createdAt : Stamp
  deriving DecidableEq, Repr

/-- A store of job records. -/
structure JobStore where
  backend : Backend
  /-- Records in the order in which their jobs were first seen. -/
  records : Keyed (Held JobRecord) := []
  columns : Keyed JobColumns := []
  /-- The jobs that each worker ever had, with their times of creation. -/
  byWorker : Keyed (Keyed Stamp) := []

namespace JobStore

/-- The record of a job. -/
def get (s : JobStore) (jobId : String) : Except Fault (Option JobRecord) :=
  s.records.readHeld jobId

/-- The columns of a row after a record was written: the time of creation is written once. -/
def newColumns (s : JobStore) (r : JobRecord) : JobColumns :=
  ⟨r.workerId, ((s.columns.get? r.jobId).map JobColumns.createdAt).getD r.createdAt⟩

/-- The store after a record was kept. -/
def keep (s : JobStore) (r : JobRecord) : Except Fault JobStore := do
  let held ← hold s.backend r
  return { s with
    records := s.records.put r.jobId held
    columns := s.columns.put r.jobId (s.newColumns r) }

/-- The store after a job was noted under its worker. -/
def note (s : JobStore) (r : JobRecord) : JobStore :=
  let jobs := (s.byWorker.get? r.workerId).getD []
  { s with byWorker := s.byWorker.put r.workerId (jobs.put r.jobId r.createdAt) }

/-- Lays an update over the record of a job, which need not exist. -/
def set (s : JobStore) (jobId : String) (updates : Keyed Value) (now : Stamp) :
    Except Fault (JobRecord × JobStore) := do
  let r ← JobRecord.update (← s.get jobId) jobId updates now
  return (r, (← s.keep r).note r)

/-- Lays an update over the record of a job that exists. -/
def update (s : JobStore) (jobId : String) (updates : Keyed Value) (now : Stamp) :
    Except Fault (JobRecord × JobStore) := do
  match ← s.get jobId with
  | none => .error (.store (.jobNotFound jobId))
  | some existing =>
    let r ← JobRecord.update (some existing) jobId updates now
    return (r, (← s.keep r).note r)

/-- Notes in the record of a job that it started another one. -/
def addInternal (s : JobStore) (parentId : String) (child : InternalJob) (now : Stamp) :
    Except Fault JobStore := do
  match ← s.get parentId with
  | none => .error (.store (.jobNotFound parentId))
  | some parent => s.keep (parent.addInternal child now)

/-- The ids of the rows of a worker, the newest row first. -/
def rowsOf (s : JobStore) (workerId : String) : List (String × JobColumns) :=
  s.columns.filter fun entry => entry.2.workerId = workerId

/-- The jobs of a worker, the newest first. In a table, rows are sorted by the time at which they
    were first written; in a key-value store a job stays listed under a worker that it had before. -/
def listByWorker (s : JobStore) (workerId : String) : Except Fault (List JobRecord) :=
  match s.backend with
  | .memory => do
    let mine := (← s.records.readMany s.records.keys).filter fun r => r.workerId = workerId
    if Stamp.comparable (mine.map JobRecord.createdAt) then
      return newestFirst (fun r => r.createdAt.instant) mine
    else throw (.typeMismatch (.other "can't compare offset-naive and offset-aware datetimes"))
  | .sqlite =>
    s.records.readMany
      ((lastTextFirst (fun entry => entry.2.createdAt.isoText) (s.rowsOf workerId).reverse).map
        (·.1))
  | .postgres =>
    s.records.readMany
      ((newestFirst (fun entry => entry.2.createdAt.instant) (s.rowsOf workerId)).map (·.1))
  | .redis => s.records.readMany (ranked ((s.byWorker.get? workerId).getD []))

end JobStore

end Runbook
