import Runbook.Decode.Scalar
import Runbook.Fault

/-!
# `Context` — the state of a run

What the steps of a run see and leave behind: the run input, the outputs under their step ids, the
latest output, all outputs in order, and the errors collected so far.

## Contents
- **The type.** `StepRef`, `StepError`, `Context`.
- **Recording.** `recordOutput` (the first output of an id is kept), `recordError`.
- **Branches.** `fork`, a context that sees the current state and buffers what it records, and
  `merge`, which folds a branch back.
- **Snapshots.** `snapshot`, a context as data, and `restore`.
-/

namespace Runbook

/-- How an error names its step: by its place among parallel branches, or by name. -/
inductive StepRef where
  | index (n : Int)
  | name (s : String)
  deriving DecidableEq, Repr

/-- A reference as a value. -/
def StepRef.toValue : StepRef → Value
  | .index n => .int n
  | .name s => .text s

/-- An error collected from a step. -/
structure StepError where
  step : StepRef
  error : String
  deriving DecidableEq, Repr

/-- An error as a value. -/
def StepError.toValue (e : StepError) : Value :=
  .object [("step", e.step.toValue), ("error", .text e.error)]

/-- The state of a run. -/
structure Context where
  input : Value
  /-- Outputs under the ids of their steps. -/
  steps : Keyed Value
  /-- The latest output. -/
  previous : Value
  /-- All outputs, in the order of recording. -/
  all : List Value
  /-- Absent as long as errors are not collected. -/
  errors : Option (List StepError)
  runId : Option String

namespace Context

/-- The state in which a run starts. -/
def start (input : Value) (runId : Option String) (collectErrors : Bool) : Context :=
  ⟨input, [], .null, [], if collectErrors then some [] else none, runId⟩

/-- What a step without an input receives: the latest output, or the run input when there is none. -/
def defaultInput (c : Context) : Value := if c.previous.isNull then c.input else c.previous

/-- Records an output. A step id keeps its first output. -/
def recordOutput (c : Context) (id : Option String) (output : Value) : Context :=
  { c with
    steps :=
      match id with
      | some id => if c.steps.has id then c.steps else c.steps ++ [(id, output)]
      | none => c.steps
    previous := output
    all := c.all ++ [output] }

/-- Records an error by its text. -/
def recordError (c : Context) (step : StepRef) (text : String) : Context :=
  { c with errors := some (c.errors.getD [] ++ [⟨step, text⟩]) }

/-- Records a failure. -/
def recordFault (c : Context) (step : StepRef) (fault : Fault) : Context :=
  c.recordError step fault.describe

/-- A branch sees the current state and starts without outputs and errors of its own. -/
def fork (c : Context) : Context := { c with all := [], errors := c.errors.map fun _ => [] }

/-- Entries of the second mapping under keys that the first does not have. -/
def addMissing (steps entries : Keyed Value) : Keyed Value :=
  entries.foldl (fun acc (id, output) => if acc.has id then acc else acc ++ [(id, output)]) steps

/-- Folds the outputs and errors of a branch back. -/
def merge (c branch : Context) : Context :=
  { c with
    steps := addMissing c.steps branch.steps
    all := c.all ++ branch.all
    errors :=
      match branch.errors with
      | some (e :: rest) => some (c.errors.getD [] ++ e :: rest)
      | _ => c.errors }

/-- A context as an object. -/
def toValue (c : Context) : Value :=
  .object
    [("input", c.input), ("steps", .object c.steps), ("previous", c.previous),
     ("all", .list c.all),
     ("errors",
      match c.errors with
      | some es => .list (es.map StepError.toValue)
      | none => .null),
     ("run_id", .ofText? c.runId)]

/-- A context as data; absent when a part of it cannot be stored. -/
def snapshot (c : Context) : Except Fault Value :=
  match c.toValue.unwritable? with
  | some typeName => .error (.notStorable typeName)
  | none => .ok c.toValue

/-- A step reference: numbers and texts keep their form, a boolean counts as a number. -/
def readRef : Value → Checked StepRef
  | .text s => .ok (.name s)
  | v =>
    match Decode.whole v with
    | .ok n => .ok (.index n)
    | .bad problems =>
      .bad (problems.map (fun p => { p with loc := .name "int" :: p.loc })
        ++ [⟨[.name "str"], .stringType⟩])

/-- Reads an error entry. -/
def readError : Value → Checked StepError
  | .object fields =>
    StepError.mk <$> Decode.required fields "step" readRef
      <*> Decode.required fields "error" Decode.text
  | _ => .complain (.modelType "StepErrorEntry")

/-- Reads the list of errors. -/
def readErrors (v : Value) : Checked (List StepError) :=
  (Decode.list v).andThen fun items => Checked.items readError 0 items

/-- Reads a context from its fields. -/
def ofFields (fields : Keyed Value) : Checked Context :=
  Context.mk
    <$> Decode.optional fields "input" Value.null Decode.anything
    <*> Decode.optional fields "steps" [] Decode.dictionary
    <*> Decode.optional fields "previous" Value.null Decode.anything
    <*> Decode.optional fields "all" [] Decode.list
    <*> Decode.option fields "errors" readErrors
    <*> Decode.option fields "run_id" Decode.text

/-- Reads a context. -/
def ofValue : Value → Checked Context
  | .object fields => ofFields fields
  | _ => .complain (.modelType "ExecutionContext")

/-- The context that a snapshot was taken of. -/
def restore (snapshot : Value) : Except Fault Context :=
  Fault.ofChecked "ExecutionContext" (ofValue snapshot)

end Context

end Runbook
