import Runbook.Store.Queues
import Runbook.Store.Runs

/-!
# `Store.Stores` — the stores of one orchestrator

Runs, jobs and queues are kept side by side by one backend. Every way of using the stores is an
operation, and `perform` says what an operation answers and what it leaves behind.

## Contents
- **Reliability.** `Outage`, the writes of run records that fail.
- **The type.** `Stores`, with `isOpen` for a database that can be closed.
- **Operations.** `StoreOp`, `StoreAnswer` and `Stores.perform`.
-/

namespace Runbook

/-- Which writes of run records fail. -/
inductive Outage where
  | never
  | always
  /-- Writes that set one of these statuses. -/
  | statuses (words : List String)
  deriving DecidableEq, Repr

/-- Whether a write fails. -/
def Outage.hits (o : Outage) (updates : Keyed Value) : Bool :=
  match o with
  | .never => false
  | .always => true
  | .statuses words => ((updates.get? "status").bind Value.text?).any words.contains

/-- The stores of one orchestrator. -/
structure Stores where
  runs : RunStore
  jobs : JobStore
  queues : QueueStore
  outage : Outage := .never
  /-- The file of the database. -/
  path : String := ":memory:"
  isOpen : Bool := true

namespace Stores

/-- Empty stores. -/
def empty (backend : Backend) : Stores :=
  { runs := { backend }, jobs := { backend }, queues := { backend } }

end Stores

/-- The ways of using the stores. -/
inductive StoreOp where
  | setRun (runId : String) (updates : Keyed Value)
  | getRun (runId : String)
  | runOfExecution (executionId : String)
  | listRuns (status : Value)
  | setJob (jobId : String) (updates : Keyed Value)
  | updateJob (jobId : String) (updates : Keyed Value)
  | addInternalJob (parentId : String) (child : InternalJob)
  | getJob (jobId : String)
  | listJobs (workerId : String)
  | createQueue (id queueId workerId workerJobId : String) (metadata totalSteps : Value)
  | appendStep (id workerId workerJobId : String)
  | updateStep (id : String) (index : Value) (updates : Keyed Value)
  | updateQueue (id : String) (status : Value) (updates : Keyed Value)
  | getQueue (id : String)
  | listQueues (queueId : Option String) (limit : Int)

/-- What an operation answers. -/
inductive StoreAnswer where
  | nothing
  | name (s : Option String)
  | run (r : Option RunRecord)
  | runs (rs : List RunRecord)
  | job (r : Option JobRecord)
  | jobs (rs : List JobRecord)
  | queue (r : Option QueueRecord)
  | queues (rs : List QueueRecord)

/-- An optional record as a value. -/
def Recorded.toValue? {ρ : Type} [Recorded ρ] : Option ρ → Value
  | some r => Recorded.toValue r
  | none => .null

/-- An answer as a value. -/
def StoreAnswer.toValue : StoreAnswer → Value
  | .nothing => .null
  | .name s => .ofText? s
  | .run r => Recorded.toValue? r
  | .runs rs => .list (rs.map Recorded.toValue)
  | .job r => Recorded.toValue? r
  | .jobs rs => .list (rs.map Recorded.toValue)
  | .queue r => Recorded.toValue? r
  | .queues rs => .list (rs.map Recorded.toValue)

namespace Stores

/-- What an operation answers and leaves behind. -/
abbrev Outcome := Except Fault StoreAnswer × Stores

/-- A reading changes nothing. -/
def reading (s : Stores) (r : Except Fault StoreAnswer) : Outcome := (r, s)

/-- A writing that failed changes nothing. -/
def writing {α : Type} (s : Stores) (r : Except Fault (α × Stores)) (answer : α → StoreAnswer) :
    Outcome :=
  match r with
  | .ok (a, after) => (.ok (answer a), after)
  | .error f => (.error f, s)

/-- An update of a run record, unless the store is down. -/
def setRun (s : Stores) (runId : String) (updates : Keyed Value) (now : Stamp) :
    Except Fault (RunRecord × Stores) :=
  if s.outage.hits updates then .error (.store (.down "database is down"))
  else do
    let (r, runs) ← s.runs.set runId updates now
    return (r, { s with runs })

/-- Carries out an operation on stores that are open. -/
def performOpen (s : Stores) (now : Stamp) : StoreOp → Outcome
  | .setRun runId updates => s.writing (s.setRun runId updates now) fun r => .run (some r)
  | .getRun runId => s.reading (.run <$> s.runs.get runId)
  | .runOfExecution e => s.reading (.ok (.name (s.runs.runOfExecution? e)))
  | .listRuns status => s.reading (.runs <$> s.runs.list status)
  | .setJob jobId updates =>
    s.writing ((fun (r, jobs) => (r, { s with jobs })) <$> s.jobs.set jobId updates now)
      fun r => .job (some r)
  | .updateJob jobId updates =>
    s.writing ((fun (r, jobs) => (r, { s with jobs })) <$> s.jobs.update jobId updates now)
      fun r => .job (some r)
  | .addInternalJob parentId child =>
    s.writing ((fun jobs => ((), { s with jobs })) <$> s.jobs.addInternal parentId child now)
      fun _ => .nothing
  | .getJob jobId => s.reading (.job <$> s.jobs.get jobId)
  | .listJobs workerId => s.reading (.jobs <$> s.jobs.listByWorker workerId)
  | .createQueue id queueId workerId workerJobId metadata totalSteps =>
    s.writing
      (do
        let r ← QueueRecord.create id queueId workerId workerJobId metadata totalSteps now
        let (r, queues) ← s.queues.create r
        return (r, { s with queues }))
      fun r => .queue (some r)
  | .appendStep id workerId workerJobId =>
    s.writing
      ((fun (r, queues) => (r, { s with queues }))
        <$> s.queues.appendStep id workerId workerJobId now)
      fun r => .queue (some r)
  | .updateStep id index updates =>
    s.writing
      ((fun (r, queues) => (r, { s with queues })) <$> s.queues.updateStep id index updates now)
      fun r => .queue (some r)
  | .updateQueue id status updates =>
    let (r, queues) := s.queues.override id status updates now
    ((fun r => .queue (some r)) <$> r, { s with queues })
  | .getQueue id => s.reading (.queue <$> s.queues.get id)
  | .listQueues queueId limit => s.reading (.queues <$> s.queues.list queueId limit)

/-- Why closed stores refuse an operation. What is wrong with a new queue record is found before the
    database is used. -/
def refusal (s : Stores) (now : Stamp) : StoreOp → Fault
  | .createQueue id queueId workerId workerJobId metadata totalSteps =>
    match QueueRecord.create id queueId workerId workerJobId metadata totalSteps now with
    | .error f => f
    | .ok _ => .store (.closed s.path)
  | _ => .store (.closed s.path)

/-- Carries out an operation; closed stores refuse all of them. -/
def perform (s : Stores) (now : Stamp) (op : StoreOp) : Outcome :=
  if s.isOpen then s.performOpen now op else (.error (s.refusal now op), s)

end Stores

end Runbook
