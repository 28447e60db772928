import Runbook.Decode.Scalar

/-!
# `Poll.Observation` — what a look at a remote status shows

One look shows a status, and what comes with it. A poll is a series of looks; its result says how it
ended.

## Contents
- **Looks.** `Observation`, its reading, and `isDone`.
- **Results.** `PollOutcome`, `PollResult` and its form as a value.
-/

namespace Runbook

/-- What a look at a remote status shows. -/
structure Observation where
  status : Option String := none
  output : Value := .null
  error : Value := .null
  metadata : Keyed Value := []

namespace Observation

/-- Statuses that count as success: a partial result is kept. -/
def isSuccessful (status : Option String) : Bool :=
  status = some "completed" || status = some "partial"

/-- Whether the remote side has come to an end. -/
def isDone (o : Observation) : Bool := isSuccessful o.status || o.status = some "failed"

/-- Reads what a look shows from the fields of a mapping. -/
def ofFields (fields : Keyed Value) : Checked Observation :=
  Observation.mk
    <$> Decode.option fields "status" Decode.text
    <*> Decode.optional fields "output" Value.null Decode.anything
    <*> Decode.optional fields "error" Value.null Decode.anything
    <*> Decode.optional fields "metadata" [] Decode.dictionary

/-- The name of the structure in messages. -/
def structureName : String := "PollCheck"

/-- What is seen as a value. -/
def toValue (o : Observation) : Value :=
  .object
    [("status", .ofText? o.status), ("output", o.output), ("error", o.error),
     ("metadata", .object o.metadata)]

end Observation

/-- How a poll ended. -/
inductive PollOutcome where
  | completed
  | failed
  | timeout
  deriving DecidableEq, Repr

/-- The word for an outcome. -/
def PollOutcome.word : PollOutcome → String
  | .completed => "completed"
  | .failed => "failed"
  | .timeout => "timeout"

/-- The result of a poll. -/
structure PollResult where
  outcome : PollOutcome
  status : Option String
  output : Value
  error : Value
  metadata : Keyed Value
  /-- How many looks were taken. -/
  attempts : Nat
  elapsedMs : Float

namespace PollResult

/-- The result when the last look showed the end. -/
def settled (o : Observation) (attempts : Nat) (elapsedMs : Float) : PollResult :=
  ⟨if Observation.isSuccessful o.status then .completed else .failed, o.status, o.output, o.error,
    o.metadata, attempts, elapsedMs⟩

/-- The result when a bound was met first; the last look shows nothing when it failed. -/
def timedOut (last : Option Observation) (attempts : Nat) (elapsedMs : Float) : PollResult :=
  let o := last.getD {}
  ⟨.timeout, o.status, o.output, .null, o.metadata, attempts, elapsedMs⟩

/-- A result as a value. -/
def toValue (r : PollResult) : Value :=
  .object
    [("outcome", .text r.outcome.word), ("status", .ofText? r.status), ("output", r.output),
     ("error", r.error), ("metadata", .object r.metadata), ("attempts", .int r.attempts),
     ("elapsed_ms", .real r.elapsedMs)]

end PollResult

end Runbook
