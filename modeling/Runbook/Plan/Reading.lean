import Runbook.Plan.Step

/-!
# `Plan.Reading` — plans out of documents

Reads steps and plans from values. An object that has already been read is taken over as it is, so
plans can be built from a mixture of both.

## Contents
- **Parts.** `readDuration`, `readToken`, `StepInput.ofValue`, `StepFieldCondition.ofFields`,
  `Predicate.ofValue`.
- **Fields of a step.** `Capability.ofFields` and `stepOfFields`, one case for each type of step;
  the steps inside have been read beforehand.
- **Steps.** `readStep` by recursion on the document; `readSteps` and `nestedSteps` beside it.
- **Plans.** `Plan.ofFields`, `Plan.ofValue`.
-/

namespace Runbook

open Decode

/-! ## Parts of steps -/

/-- A duration: a text or a number keeps its form, a boolean counts as a number. -/
def readDuration : Value → Checked Duration
  | .text s => .ok (.text s)
  | .int n => .ok (.whole n)
  | .real x => .ok (.real x)
  | .bool b => .ok (.whole (if b then 1 else 0))
  | _ => .bad [⟨[.name "str"], .stringType⟩, ⟨[.name "int"], .intType⟩,
      ⟨[.name "float"], .floatType⟩]

/-- A hook token: a text, or something that can be called. -/
def readToken (v : Value) : Checked HookToken :=
  match v with
  | .text s => .ok (.text s)
  | v =>
    if v.isCallable then .ok (.computed v)
    else .bad [⟨[.name "str"], .stringType⟩, ⟨[.name "callable"], .callableType⟩]

/-- A list of texts. -/
def readTexts (v : Value) : Checked (List String) :=
  (Decode.list v).andThen fun items => Checked.items Decode.text 0 items

/-- The names of the list of step ids. -/
def fromStepsName : FieldName := ⟨"fromSteps", "from_steps"⟩

/-- Reads a join descriptor from the fields of a mapping. -/
def JoinDescriptor.ofFields (fields : Keyed Value) : Checked JoinDescriptor :=
  let known := [(fromStepsName.find? fields).map (·.1), some "path", some "join"].filterMap id
  (fun ids path join =>
      JoinDescriptor.mk ids path join (fields.filter fun entry => !known.contains entry.1))
    <$> required fields fromStepsName readTexts
    <*> option fields "path" Decode.text
    <*> option fields "join" Decode.text

/-- The fields of a mapping that lists ids of steps to join. -/
def joinFields? (v : Value) : Option (Keyed Value) :=
  match v.fields? with
  | some fields =>
    match fields.get? "fromSteps" with
    | some (.list (_ :: _)) => some fields
    | _ => none
  | none => none

/-- An input as it is written: a mapping that lists ids of steps is a join descriptor. -/
def StepInput.ofValue (v : Value) : Checked StepInput :=
  match v with
  | .parsed .join fields => (JoinDescriptor.ofFields fields).map .join
  | v =>
    match joinFields? v with
    | some fields => (JoinDescriptor.ofFields fields).map .join
    | none => .ok (.given v)

/-- One of the comparisons. -/
def readOp (v : Value) : Checked ConditionOp :=
  (Decode.word ConditionOp.words v).andThen fun w =>
    match ConditionOp.ofWord? w with
    | some op => .ok op
    | none => .complain (.literalError ConditionOp.words)

/-- The names of the id of the compared step. -/
def stepIdName : FieldName := ⟨"stepId", "step_id"⟩

/-- Reads a field condition from the fields of a mapping. -/
def StepFieldCondition.ofFields (fields : Keyed Value) : Checked StepFieldCondition :=
  (fun _ stepId path op value => StepFieldCondition.mk stepId path op value)
    <$> optional fields "type" "stepField" (Decode.word ["stepField"])
    <*> required fields stepIdName Decode.text
    <*> option fields "path" Decode.text
    <*> required fields "op" readOp
    <*> optional fields "value" Value.null Decode.anything

/-- Builds a field condition from its parts. -/
def StepFieldCondition.build (stepId path op value : Value) : Checked StepFieldCondition :=
  StepFieldCondition.ofFields
    [("step_id", stepId), ("path", path), ("op", op), ("value", value)]

/-- Whether a mapping is marked as a field condition. -/
def isStepField (v : Value) : Bool := (v.get? "type").bind Value.text? = some "stepField"

/-- A predicate as it is written. -/
def Predicate.ofValue (v : Value) : Checked Predicate :=
  match v with
  | .bool b => .ok (.constant b)
  | .parsed .stepField fields => (StepFieldCondition.ofFields fields).map .stepField
  | v =>
    match v.fields? with
    | some fields =>
      if isStepField v then (StepFieldCondition.ofFields fields).map .stepField
      else .ok (.other v)
    | none => .ok (.other v)

/-! ## Fields of steps -/

/-- The names of the flag for a function that was removed from an input. -/
def inputIsFunctionName : FieldName := ⟨"inputIsFunction", "input_is_function"⟩

/-- The names of the flag for a function that was removed from a token. -/
def tokenIsFunctionName : FieldName := ⟨"tokenIsFunction", "token_is_function"⟩

/-- Reads what capability steps share. -/
def Capability.ofFields (fields : Keyed Value) : Checked Capability :=
  Capability.mk
    <$> option fields "id" Decode.text
    <*> optional fields "input" StepInput.absent StepInput.ofValue
    <*> option fields ⟨"await", "await_"⟩ Decode.flag
    <*> optional fields inputIsFunctionName false Decode.flag

/-- Reads a hook. -/
def Hook.ofFields (fields : Keyed Value) : Checked Hook :=
  Hook.mk
    <$> option fields "id" Decode.text
    <*> option fields "token" readToken
    <*> option fields "timeout" readDuration
    <*> optional fields ⟨"payloadModel", "payload_model"⟩ Value.null Decode.anything
    <*> optional fields tokenIsFunctionName false Decode.flag

/-- The names of the poll bounds. -/
def workerPollName : FieldName := ⟨"workerPoll", "worker_poll"⟩

/-- The names of the steps taken when a condition does not hold. -/
def whenFalseName : FieldName := ⟨"else", "else_"⟩

/-- A list of steps under a field, which has been read beforehand. -/
def stepsUnder (nested : Keyed (Checked (List Step))) (f : FieldName) (default : List Step) :
    Checked (List Step) :=
  match nested.get? f.spelling with
  | some steps => steps.under (.name f.spelling)
  | none =>
    match nested.get? f.member with
    | some steps => steps.under (.name f.member)
    | none => .ok default

/-- Reads a step of a known type from its fields and the lists of steps among them. -/
def stepOfFields (shape : Shape) (fields : Keyed Value) (nested : Keyed (Checked (List Step))) :
    Checked Step :=
  match shape with
  | .agent => Step.agent <$> Capability.ofFields fields <*> required fields "agent" Decode.text
  | .foreign => Step.foreign <$> Capability.ofFields fields <*> required fields "agent" Decode.text
  | .worker =>
    Step.worker <$> Capability.ofFields fields <*> required fields "worker" Decode.text
      <*> option fields workerPollName PollPolicy.ofValue
  | .workflow =>
    Step.workflow <$> Capability.ofFields fields <*> required fields "workflow" Decode.text
  | .hook => Step.hook <$> Hook.ofFields fields
  | .sleep =>
    Step.sleep <$> option fields "id" Decode.text <*> required fields "duration" readDuration
  | .condition =>
    Step.condition <$> option fields "id" Decode.text
      <*> optional fields ⟨"if", "if_"⟩ (Predicate.other .null) Predicate.ofValue
      <*> stepsUnder nested "then" []
      <*> (match whenFalseName.find? fields with
        | some (_, .null) | none => .ok none
        | some _ => (stepsUnder nested whenFalseName []).map some)
  | .parallel =>
    Step.parallel <$> option fields "id" Decode.text <*> stepsUnder nested "steps" []
  | .plan | .stepField | .pollPolicy | .join | .payload _ => .complain .modelAttributesType

/-- The shape that a type of step stands for. -/
def shapeOfKind? : String → Option Shape
  | "agent" => some .agent
  | "worker" => some .worker
  | "workflow" => some .workflow
  | "hook" => some .hook
  | "sleep" => some .sleep
  | "condition" => some .condition
  | "parallel" => some .parallel
  | _ => none

/-- Reads a step by the type it names. -/
def stepOfDocument (fields : Keyed Value) (nested : Keyed (Checked (List Step))) : Checked Step :=
  match fields.get? "type" with
  | none => .complain .unionTagNotFound
  | some tag =>
    match tag.text?.bind shapeOfKind? with
    | some shape => (stepOfFields shape fields nested).under (.name tag.display)
    | none => .complain (.unionTagInvalid tag.display Step.kinds)

/-! ## Steps -/

mutual
/-- Reads a step. -/
def readStep : Value → Checked Step
  | .object fields => stepOfDocument fields (nestedSteps fields)
  | .parsed shape fields => stepOfFields shape fields (nestedSteps fields)
  | _ => .complain .modelAttributesType

/-- Reads a list of steps, the first of which stands at an index. -/
def readSteps : Nat → List Value → Checked (List Step)
  | _, [] => .ok []
  | n, v :: rest => (List.cons <$> (readStep v).under (.index n)) <*> readSteps (n + 1) rest

/-- Reads every field that holds a list as a list of steps. -/
def nestedSteps : List (String × Value) → List (String × Checked (List Step))
  | [] => []
  | (key, .list items) :: rest => (key, readSteps 0 items) :: nestedSteps rest
  | (key, _) :: rest => (key, .complain .listType) :: nestedSteps rest
end

/-- Reads a value as a list of steps. -/
def stepList : Value → Checked (List Step)
  | .list items => readSteps 0 items
  | _ => .complain .listType

/-- The steps read for a field are those of its value. -/
theorem get?_nestedSteps (fields : List (String × Value)) (key : String) :
    Keyed.get? (nestedSteps fields) key = (Keyed.get? fields key).map stepList := by
  induction fields with
  | nil => simp [nestedSteps, Keyed.get?]
  | cons entry rest ih =>
    obtain ⟨k, v⟩ := entry
    by_cases h : k = key
    · cases v <;> simp [nestedSteps, Keyed.get?, stepList, h]
    · cases v <;> simp [nestedSteps, Keyed.get?, h, ih]

/-! ## Plans -/

/-- The names of the hook timeout of a plan. -/
def hookTimeoutName : FieldName := ⟨"hookTimeout", "hook_timeout"⟩

/-- The names of the policy on step errors. -/
def continueOnErrorName : FieldName := ⟨"continueOnError", "continue_on_error"⟩

/-- The names of the poll bounds of nested workflows. -/
def workflowPollName : FieldName := ⟨"workflowPoll", "workflow_poll"⟩

/-- Reads a plan from the fields of a mapping. -/
def Plan.ofFields (fields : Keyed Value) : Checked Plan :=
  Plan.mk
    <$> option fields "id" Decode.text
    <*> required fields "steps" stepList
    <*> optional fields "input" (.object []) Decode.anything
    <*> optional fields "messages" [] Decode.list
    <*> optional fields continueOnErrorName false Decode.flag
    <*> optional fields hookTimeoutName none (fun v => (readDuration v).map some)
    <*> option fields workerPollName PollPolicy.ofValue
    <*> option fields workflowPollName PollPolicy.ofValue

/-- Reads a plan. -/
def Plan.ofValue : Value → Checked Plan
  | .object fields => Plan.ofFields fields
  | .parsed .plan fields => Plan.ofFields fields
  | _ => .complain (.modelType "OrchestrationConfig")

end Runbook
