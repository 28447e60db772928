import Runbook.Store.Jobs

/-!
# `Store.Queues` — the store of queue records

Queue records under their ids, listed from the newest to the oldest, for all queues or for one.

## Contents
- **The type.** `QueueColumns`, what a table keeps beside a document, and `QueueStore`.
- **Writing.** `create`, `appendStep`, `updateStep`, `override`.
- **Reading.** `get`, and `list` with a limit.
-/

namespace Runbook

/-- What a table keeps beside the document of a queue, as the row was first written. -/
structure QueueColumns where
  queueId : String
  createdAt : Stamp
  deriving DecidableEq, Repr

/-- A store of queue records. -/
structure QueueStore where
  backend : Backend
  /-- Records in the order in which they were first seen. -/
  records : Keyed (Held QueueRecord) := []
  columns : Keyed QueueColumns := []
  /-- All records ever created, with their times of creation. -/
  everything : Keyed Stamp := []
  /-- The records ever created for each queue. -/
  byQueue : Keyed (Keyed Stamp) := []

namespace QueueStore

/-- The record of a queue. -/
def get (s : QueueStore) (id : String) : Except Fault (Option QueueRecord) :=
  s.records.readHeld id

/-- The store after a record was kept. -/
def keep (s : QueueStore) (r : QueueRecord) : Except Fault QueueStore := do
  let held ← hold s.backend r
  return { s with
    records := s.records.put r.id held
    columns := s.columns.put r.id ((s.columns.get? r.id).getD ⟨r.queueId, r.createdAt⟩) }

/-- The store after a record was noted in the indexes. -/
def note (s : QueueStore) (r : QueueRecord) : QueueStore :=
  let ids := (s.byQueue.get? r.queueId).getD []
  { s with
    everything := s.everything.put r.id r.createdAt
    byQueue := s.byQueue.put r.queueId (ids.put r.id r.createdAt) }

/-- A key-value store reads what it replaces. -/
def readReplaced (s : QueueStore) (id : String) : Except Fault Unit :=
  if s.backend = .redis then (fun _ => ()) <$> s.get id else .ok ()

/-- Keeps a new record, in place of one with the same id. -/
def create (s : QueueStore) (r : QueueRecord) : Except Fault (QueueRecord × QueueStore) := do
  s.readReplaced r.id
  return (r, (← s.keep r).note r)

/-- The record of a queue that must exist. -/
def require (s : QueueStore) (id : String) : Except Fault QueueRecord := do
  match ← s.get id with
  | some r => return r
  | none => .error (.store (.queueJobNotFound id))

/-- Appends a queued step. -/
def appendStep (s : QueueStore) (id workerId workerJobId : String) (now : Stamp) :
    Except Fault (QueueRecord × QueueStore) := do
  let r := (← s.require id).appendStep workerId workerJobId now
  return (r, ← s.keep r)

/-- Lays an update over a step. -/
def updateStep (s : QueueStore) (id : String) (index : Value) (updates : Keyed Value)
    (now : Stamp) : Except Fault (QueueRecord × QueueStore) := do
  let r ← (← s.require id).updateStep index updates now
  return (r, ← s.keep r)

/-- Sets status, metadata and time of completion from outside. A store in memory changes its record
    in place, so that the part before a failure remains. -/
def override (s : QueueStore) (id : String) (status : Value) (updates : Keyed Value)
    (now : Stamp) : Except Fault QueueRecord × QueueStore :=
  match s.require id with
  | .error f => (.error f, s)
  | .ok r =>
    match r.override status updates now with
    | (r, none) =>
      match s.keep r with
      | .ok s => (.ok r, s)
      | .error f => (.error f, s)
    | (r, some f) =>
      match s.backend with
      | .memory => (.error f, (s.keep r).toOption.getD s)
      | _ => (.error f, s)

/-- The first items of a list; a negative count leaves out items at the end. -/
def firstItems {α : Type} (limit : Int) (items : List α) : List α :=
  items.take (if limit < 0 then (items.length + limit).toNat else limit.toNat)

/-- The rows of a queue, or all rows. -/
def rowsOf (s : QueueStore) (queueId : Option String) : List (String × QueueColumns) :=
  s.columns.filter fun entry => queueId.all (· = entry.2.queueId)

/-- The index of a queue, or of everything. -/
def indexOf (s : QueueStore) (queueId : Option String) : Keyed Stamp :=
  match queueId with
  | some q => (s.byQueue.get? q).getD []
  | none => s.everything

/-- Whether a number fits into a column of a table. -/
def isColumnNumber (n : Int) : Bool := -(Nat.pow 2 63 : Int) ≤ n && n < Nat.pow 2 63

/-- The records of a queue, or all records, the newest first, up to a limit. A limit below zero
    means no limit in one kind of table, which takes numbers of eight bytes, and is refused by the
    other; a key-value store reads a limit below one as one. -/
def list (s : QueueStore) (queueId : Option String) (limit : Int) :
    Except Fault (List QueueRecord) :=
  match s.backend with
  | .memory => do
    let all ← s.records.readMany s.records.keys
    let mine := all.filter fun r => queueId.all (· = r.queueId)
    return firstItems limit (newestFirst (fun r => r.createdAt.instant) mine)
  | .sqlite =>
    if isColumnNumber limit then
      let rows := lastTextFirst (fun entry => entry.2.createdAt.isoText) (s.rowsOf queueId)
      s.records.readMany ((if limit < 0 then rows else rows.take limit.toNat).map (·.1))
    else .error .integerTooLarge
  | .postgres =>
    if limit < 0 then .error (.store .negativeLimit)
    else
      let rows := newestFirst (fun entry => entry.2.createdAt.instant) (s.rowsOf queueId)
      s.records.readMany ((rows.take limit.toNat).map (·.1))
  | .redis => s.records.readMany ((ranked (s.indexOf queueId)).take (max limit 1).toNat)

end QueueStore

end Runbook
