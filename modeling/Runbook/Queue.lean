import Runbook.Dispatch
import Runbook.Functions
import Runbook.Poll.Defaults

/-!
# `Queue` — pipelines of workers

A queue is a list of workers, each of which receives the output of the one before it, or what a
function makes of the first input and all earlier outputs. The pipeline stops at the first failure,
and its progress is kept in a queue record.

## Contents
- **Definitions.** `QueueStep`, `QueueDefinition` and their reading.
- **Inputs.** `QueueStep.inputFrom`.
- **Runs.** `Queue.runStep`, `Queue.runSteps`, and `runQueue`.
-/

namespace Runbook

/-- One worker of a queue. -/
structure QueueStep where
  workerId : String
  delaySeconds : Float
  /-- A function of the first input and the earlier outputs. -/
  mapInput : Option Value

/-- A pipeline of workers. -/
structure QueueDefinition where
  id : String
  steps : List QueueStep

namespace QueueStep

/-- A text that is not empty. -/
def readName (v : Value) : Checked String :=
  (Decode.text v).andThen fun s => if s = "" then .complain .stringTooShort else .ok s

/-- A number of seconds that is not negative. -/
def readDelay (v : Value) : Checked Float :=
  (Decode.real v).andThen fun x => if 0.0 ≤ x then .ok x else .complain .belowMinimum

/-- Something that can be called. -/
def readFunction (v : Value) : Checked Value :=
  if v.isCallable then .ok v else .complain .callableType

/-- Reads a step. -/
def ofValue : Value → Checked QueueStep
  | .object fields =>
    QueueStep.mk
      <$> Decode.required fields ⟨"workerId", "worker_id"⟩ readName
      <*> Decode.optional fields ⟨"delaySeconds", "delay_seconds"⟩ 0.0 readDelay
      <*> Decode.option fields ⟨"mapInput", "map_input"⟩ readFunction
  | _ => .complain (.modelType "QueueStep")

/-- The input of a step: what its function computes, or else the output before it, or else the first
    input. -/
def inputFrom (s : QueueStep) (functions : Functions) (initial : Value)
    (previous : List PreviousOutput) : Except Fault Value :=
  match s.mapInput with
  | some (.function ref) => functions.ofQueue ref initial previous
  | some _ => .error (.typeMismatch (.schemaCall 2))
  | none => .ok ((previous.getLast?.map PreviousOutput.output).getD initial)

end QueueStep

namespace QueueDefinition

/-- Reads a list of steps that is not empty. -/
def readSteps (v : Value) : Checked (List QueueStep) :=
  (Decode.list v).andThen fun
    | [] => .complain .listTooShort
    | items => Checked.items QueueStep.ofValue 0 items

/-- Reads a queue definition. -/
def ofValue : Value → Checked QueueDefinition
  | .object fields =>
    QueueDefinition.mk
      <$> Decode.required fields "id" Decode.text
      <*> Decode.required fields "steps" readSteps
  | _ => .complain (.modelType "QueueDefinition")

/-- The name of the structure in messages. -/
def structureName : String := "QueueDefinition"

end QueueDefinition

/-- What the runs of a queue have in common. -/
structure QueueRun where
  settings : DispatchSettings
  functions : Functions
  poll : PollDefaults
  definition : QueueDefinition
  initial : Value
  id : String

namespace QueueRun

/-- Lays an update over a step of the record. -/
def updateStep (q : QueueRun) (index : Nat) (updates : Keyed Value) : Action Unit :=
  discard (Action.store (.updateStep q.id (.int index) updates))

/-- Marks a step as failed. -/
def failStep (q : QueueRun) (index : Nat) (error : Value) : Action Unit :=
  q.updateStep index [("status", .text "failed"), ("error", error)]

/-- An error that consists of a message. -/
def errorOf (message : String) : Value := .object [("message", .text message)]

/-- Keeps the record of the run, or the step that is reached, before its worker is triggered. -/
def reach (q : QueueRun) (index : Nat) (s : QueueStep) (jobId : String) : Action Unit :=
  if index = 0 then
    discard (Action.store
      (.createQueue q.id q.definition.id s.workerId jobId (.object [("input", q.initial)])
        (.int q.definition.steps.length)))
  else discard (Action.store (.appendStep q.id s.workerId jobId))

/-- What the worker of a step is told about the queue. -/
def contextAt (q : QueueRun) (index : Nat) : Value :=
  .object
    [("queue",
      .object
        [("id", .text q.definition.id), ("stepIndex", .int index), ("initialInput", q.initial),
         ("queueJobId", .text q.id)])]

/-- The error with which a step failed that did not complete. -/
def errorOfPoll (index : Nat) (r : PollResult) : Value :=
  let error :=
    if r.outcome = .timeout then
      errorOf ("Step " ++ toString index ++ " did not complete after " ++ toString r.attempts
        ++ " checks")
    else r.error
  if error.truthy then error else errorOf "failed"

/-- Waits for the end of a step; its output, when it completed. -/
def awaitStep (q : QueueRun) (index : Nat) (s : QueueStep) (jobId : String) :
    Action (Option Value) := do
  let r ← pollUntilDone (Dispatch.lookAtJob q.settings s.workerId jobId) Action.observedPause
    q.poll.toBounds
  if r.outcome = .completed then
    q.updateStep index [("status", .text "completed"), ("output", r.output)]
    return some r.output
  else
    q.failStep index (errorOfPoll index r)
    return none

/-- Triggers the worker of a step and waits for its end. -/
def callStep (q : QueueRun) (index : Nat) (s : QueueStep) (jobId : String) (input : Value) :
    Action (Option Value) := do
  q.updateStep index [("status", .text "running"), ("input", input)]
  let triggered ← ExceptT.lift
    (Dispatch.triggerWorker q.settings s.workerId input (some jobId) true
      (q.contextAt index)).outcome
  match triggered with
  | .error f => do
    q.failStep index (errorOf f.message)
    return none
  | .ok _ => q.awaitStep index s jobId

/-- Carries out a step; its output, when it completed. -/
def runStep (q : QueueRun) (index : Nat) (s : QueueStep) (previous : List PreviousOutput) :
    Action (Option Value) := do
  let jobId ← if index = 0 then pure q.id else Dispatch.newJobId
  q.reach index s jobId
  if s.delaySeconds != 0.0 then Action.observedPause s.delaySeconds
  match s.inputFrom q.functions q.initial previous with
  | .error f => do
    q.failStep index (errorOf ("mapInput failed: " ++ f.message))
    return none
  | .ok input => q.callStep index s jobId input

/-- Carries out the steps from an index on, up to the first that does not complete. -/
def runSteps (q : QueueRun) : Nat → List QueueStep → List PreviousOutput → Action Unit
  | _, [], _ => return ()
  | index, s :: rest, previous => do
    match ← q.runStep index s previous with
    | none => return ()
    | some output => q.runSteps (index + 1) rest (previous ++ [⟨index, s.workerId, output⟩])

end QueueRun

/-- Carries out a queue and returns its record. The run is named after its first job. -/
def runQueue (settings : DispatchSettings) (functions : Functions) (poll : PollDefaults)
    (definition : QueueDefinition) (initial : Value) (id : Option String) :
    Action (Option QueueRecord) := do
  let id ←
    match nonEmpty? id with
    | some id => pure id
    | none => Dispatch.newJobId
  let q : QueueRun := ⟨settings, functions, poll, definition, initial, id⟩
  q.runSteps 0 definition.steps []
  match ← Action.store (.getQueue id) with
  | .queue r => return r
  | _ => return none

end Runbook
