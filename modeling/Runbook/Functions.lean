import Runbook.Context

/-!
# `Functions` — functions supplied with a plan

Plans and queue definitions may hold functions. A value refers to one by its place in a table; the
table says what each of them computes.

## Contents
- **The table.** `PreviousOutput` (what a queue function sees of earlier steps) and `Functions`.
- **Ready-made functions.** `Supplied`: constants, look-ups in the context, failures, and the
  collected inputs of a queue; `Supplied.table` makes a table of them.
-/

namespace Runbook

/-- The output of an earlier step of a queue. -/
structure PreviousOutput where
  stepIndex : Nat
  workerId : String
  output : Value

/-- An earlier output as a value. -/
def PreviousOutput.toValue (p : PreviousOutput) : Value :=
  .object
    [("step_index", .int p.stepIndex), ("worker_id", .text p.workerId), ("output", p.output)]

/-- What the functions that values refer to compute. -/
structure Functions where
  /-- A function of the run context. -/
  ofContext : Nat → Context → Except Fault Value
  /-- A function of the first input of a queue and its earlier outputs. -/
  ofQueue : Nat → Value → List PreviousOutput → Except Fault Value

/-- The ready-made functions. -/
inductive Supplied where
  | const (v : Value)
  | path (segments : List String)
  | fail (kind : RaisedKind) (message : String)
  | collect

namespace Supplied

/-- The value under a segment: a key of an object or a position of a list. -/
def child (v : Value) (segment : String) : Value :=
  match v with
  | .object fields => (Keyed.get? fields segment).getD .null
  | .list items =>
    if !segment.isEmpty && segment.toList.all Char.isDigit then
      (items[JsonReader.digitsValue segment.toList]?).getD .null
    else .null
  | _ => .null

/-- The value at a path of segments. -/
def lookup (v : Value) (segments : List String) : Value := segments.foldl child v

/-- A ready-made function of a value. -/
def apply (f : Supplied) (subject : Value) : Except Fault Value :=
  match f with
  | .const v => .ok v
  | .path segments => .ok (lookup subject segments)
  | .fail kind message => .error (.raised kind [.text message])
  | .collect => .ok subject

/-- What a queue function sees: the first input and all earlier outputs. -/
def queueSubject (initial : Value) (previous : List PreviousOutput) : Value :=
  .object [("start", initial), ("previous", .list (previous.map PreviousOutput.toValue))]

/-- The table of a list of ready-made functions; a place without one gives null. -/
def table (fs : List Supplied) : Functions where
  ofContext ref c := ((fs[ref]?).getD (.const .null)).apply c.toValue
  ofQueue ref initial previous :=
    ((fs[ref]?).getD (.const .null)).apply (queueSubject initial previous)

end Supplied

end Runbook
