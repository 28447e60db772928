import Runbook.Functions
import Runbook.Plan.Reading
import Runbook.Value.Truth

/-!
# `Plan.Resolution` — inputs, tokens and conditions of a step

What a step is called with, which event a hook waits for, and whether a condition holds, as
functions of the context. Nothing here has an effect, so all of it can be computed again.

## Contents
- **Joins.** `JoinDescriptor.gather`.
- **Inputs.** `resolveValue`, `Capability.resolveInput`.
- **Tokens.** `defaultToken`, `Hook.resolveToken`.
- **Conditions.** `StepFieldCondition.holds`, `Predicate.holds`.
-/

namespace Runbook

/-- A value at a path, with a failure of the library in place of a bad position. -/
def Value.reach (v : Value) (path : Option String) : Except Fault Value :=
  (v.atPath path).mapError .badPosition

/-- The text of an output in a join: a text stands for itself, anything else is written as JSON. -/
def joinText? : Value → Option String
  | .null => none
  | .text s => some s
  | v => some v.toJson

/-- The non-empty texts of the outputs a join names. -/
def JoinDescriptor.texts (d : JoinDescriptor) (c : Context) : Except Fault (List String) :=
  d.fromSteps.foldlM
    (fun acc id =>
      match c.steps.get? id with
      | none => .ok acc
      | some output => do
        match joinText? (← output.reach d.path) with
        | some text => return if text = "" then acc else acc ++ [text]
        | none => return acc)
    []

/-- Gathers earlier outputs into one object beside the further fields of the descriptor. -/
def JoinDescriptor.gather (d : JoinDescriptor) (c : Context) : Except Fault Value := do
  let texts ← d.texts c
  let fields := d.extra.put "data" (.list (texts.map .text))
  match d.join with
  | some separator =>
    return .object (fields.put "content" (.text (String.intercalate separator texts)))
  | none => return .object fields

/-- Calls what can be called; a payload schema cannot be called with a context. -/
def callOn (functions : Functions) (v : Value) (c : Context) : Except Fault Value :=
  match v with
  | .function ref => functions.ofContext ref c
  | _ => .error (.typeMismatch (.schemaCall 1))

/-- An input written as a value: a function is applied, a join is gathered, anything else stands
    for itself. -/
def resolveValue (functions : Functions) (v : Value) (c : Context) : Except Fault Value :=
  match v with
  | .function ref => functions.ofContext ref c
  | v => do
    match ← Fault.ofChecked "FromSteps" (StepInput.ofValue v) with
    | .join d => d.gather c
    | .given v => return v
    | .absent => return v

/-- The effective input of a capability step. -/
def Capability.resolveInput (functions : Functions) (call : Capability) (c : Context) :
    Except Fault Value :=
  if !call.hasInput then .ok c.defaultInput
  else
    match call.input with
    | .join d => d.gather c
    | .given v => resolveValue functions v c
    | .absent => .ok c.defaultInput

/-- A text that is not empty. -/
def nonEmpty? : Option String → Option String
  | some "" => none
  | s => s

/-- The token of a hook whose token function was removed: the step id and the workflow id or the
    run id. -/
def defaultToken (id : Option String) (c : Context) : String :=
  let workflow :=
    match c.input.get? "workflowId" with
    | some v => if v.truthy then some v.display else none
    | none => none
  (nonEmpty? id).getD "hook" ++ ":" ++ (workflow.or (nonEmpty? c.runId)).getD "default"

/-- The token of the event a hook waits for. -/
def Hook.resolveToken (functions : Functions) (h : Hook) (c : Context) : Except Fault String :=
  let fallback : Except Fault String :=
    if h.tokenIsFunction then .ok (defaultToken h.id c) else .error .hookTokenMissing
  match h.token with
  | some (.computed v) => Value.display <$> callOn functions v c
  | some (.text s) => if s = "" then fallback else .ok s
  | none => fallback

/-- Whether a compared value meets a comparison. -/
def ConditionOp.holds (op : ConditionOp) (actual expected : Value) : Bool :=
  match op with
  | .eq => actual.same expected
  | .neq => !actual.same expected
  | .truthy => actual.truthy
  | .falsy => !actual.truthy
  | .present => !actual.isNull
  | .absent => actual.isNull

/-- Whether a field condition holds; a step without output counts as null. -/
def StepFieldCondition.holds (cond : StepFieldCondition) (c : Context) : Except Fault Bool := do
  let actual ← ((c.steps.get? cond.stepId).getD .null).reach cond.path
  return cond.op.holds actual cond.value

/-- Whether a predicate holds. -/
def Predicate.holds (functions : Functions) (p : Predicate) (c : Context) : Except Fault Bool :=
  match p with
  | .constant b => .ok b
  | .stepField cond => cond.holds c
  | .other v =>
    if v.isCallable then Value.truthy <$> callOn functions v c
    else .error (.typeMismatch (.unsupportedCondition v))

/-- Whether a predicate written as a value holds. -/
def predicateHolds (functions : Functions) (v : Value) (c : Context) : Except Fault Bool := do
  let p ← Fault.ofChecked "StepFieldCondition" (Predicate.ofValue v)
  p.holds functions c

end Runbook
