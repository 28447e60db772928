import Runbook.Plan.Reading

/-!
# `Plan.Transport` — plans that can cross a process boundary

The transport form of a plan is a document without functions: a function given as input or token
leaves a mark, a function given as predicate is dropped. An object that has been read before is
spelled out as a mapping where it stands among messages, in the further fields of a join or in a
comparison; an input is written as it is.

## Contents
- **Values.** `Shape.spelling`, and `Value.spelledOut`, a value without objects that have been read.
- **Parts.** `some?`, a field that is left out when absent; documents of joins and conditions.
- **Steps.** `Step.toDocument`.
- **Plans.** `Plan.toDocument`.
-/

namespace Runbook

/-! ## Values -/

namespace Shape

/-- The names of the fields of an object whose attributes and spellings differ. -/
def fieldNames : Shape → List Decode.FieldName
  | .agent | .workflow | .foreign => [⟨"await", "await_"⟩, inputIsFunctionName]
  | .worker => [⟨"await", "await_"⟩, inputIsFunctionName, workerPollName]
  | .hook => [⟨"payloadModel", "payload_model"⟩, tokenIsFunctionName]
  | .condition => [⟨"if", "if_"⟩, whenFalseName]
  | .stepField => [stepIdName]
  | .pollPolicy => [PollPolicy.intervalName, PollPolicy.timeoutName, PollPolicy.retriesName]
  | .join => [fromStepsName]
  | .plan => [continueOnErrorName, hookTimeoutName, workerPollName, workflowPollName]
  | .sleep | .parallel | .payload _ => []

/-- How documents spell an attribute of an object. -/
def spelling (shape : Shape) (member : String) : String :=
  ((shape.fieldNames.find? (·.member = member)).map (·.spelling)).getD member

/-- Whether objects of a shape have an input. -/
def hasInput : Shape → Bool
  | .agent | .worker | .workflow | .foreign => true
  | _ => false

/-- The field for an input that was not written, where nulls are kept. -/
def unwrittenInput (shape : Shape) (nulls : Bool) (fields : Keyed Value) : Keyed Value :=
  if nulls && shape.hasInput && !fields.has "input" then [("input", .null)] else []

end Shape

namespace Value

mutual
/-- A value in which objects that have been read are mappings, with or without fields that are
    null. -/
def spelledOut (nulls : Bool) : Value → Value
  | .list items => .list (spelledItems nulls items)
  | .object fields => .object (spelledFields nulls fields)
  | .parsed shape fields =>
    .object (spelledMembers nulls shape fields ++ shape.unwrittenInput nulls fields)
  | v => v

/-- `spelledOut` of every item. -/
def spelledItems (nulls : Bool) : List Value → List Value
  | [] => []
  | v :: rest => v.spelledOut nulls :: spelledItems nulls rest

/-- `spelledOut` of every field. -/
def spelledFields (nulls : Bool) : List (String × Value) → List (String × Value)
  | [] => []
  | (key, v) :: rest => (key, v.spelledOut nulls) :: spelledFields nulls rest

/-- `spelledOut` of every field of an object, under the spelling of its name. -/
def spelledMembers (nulls : Bool) (shape : Shape) : List (String × Value) → List (String × Value)
  | [] => []
  | (key, v) :: rest =>
    if v.isNull && !nulls then spelledMembers nulls shape rest
    else (shape.spelling key, v.spelledOut nulls) :: spelledMembers nulls shape rest
end

end Value

namespace Transport

/-- A field that is left out when there is nothing to write. -/
def some? (name : String) : Option Value → Keyed Value
  | some v => [(name, v)]
  | none => []

/-- The further fields of a join, without those that are null. -/
def extra (fields : Keyed Value) : Keyed Value :=
  Value.spelledFields false (fields.filter fun (_, v) => !v.isNull)

/-- A join descriptor: fields that are null are left out. -/
def join (d : JoinDescriptor) : Value :=
  .object
    ([("fromSteps", .list (d.fromSteps.map .text))] ++ some? "path" (d.path.map .text)
      ++ some? "join" (d.join.map .text) ++ extra d.extra)

/-- A field condition, with all of its fields. -/
def stepField (c : StepFieldCondition) : Value :=
  .object
    [("type", .text "stepField"), ("stepId", .text c.stepId), ("path", .ofText? c.path),
     ("op", .text c.op.word), ("value", c.value.spelledOut true)]

/-- The input field, and whether a function was left out of it. -/
def input : StepInput → Keyed Value × Bool
  | .absent => ([], false)
  | .join d => ([("input", join d)], false)
  | .given v =>
    if v.isCallable then ([], true) else if v.isNull then ([], false) else ([("input", v)], false)

/-- The fields that capability steps share. -/
def capability (c : Capability) (kind : String) (rest : Keyed Value) : Value :=
  let (given, isFunction) := input c.input
  .object
    (some? "id" (c.id.map .text) ++ some? "await" (c.await.map .bool)
      ++ [("inputIsFunction", .bool (isFunction || c.inputIsFunction)), ("type", .text kind)]
      ++ rest ++ given)

/-- The token field, and whether a function was left out of it. -/
def token : Option HookToken → Keyed Value × Bool
  | none => ([], false)
  | some (.text s) => ([("token", .text s)], false)
  | some (.computed _) => ([], true)

/-- A hook; what its payload is checked against is left out. -/
def hook (h : Hook) : Value :=
  let (given, isFunction) := token h.token
  .object
    (some? "id" (h.id.map .text) ++ [("type", .text "hook")]
      ++ some? "timeout" (h.timeout.map Duration.toValue)
      ++ [("tokenIsFunction", .bool (isFunction || h.tokenIsFunction))] ++ given)

/-- The predicate field: constants and field conditions are written, everything else is dropped. -/
def predicate : Predicate → Keyed Value
  | .constant b => [("if", .bool b)]
  | .stepField c => [("if", stepField c)]
  | .other _ => []

end Transport

open Transport

mutual
/-- The transport form of a step. -/
def Step.toDocument : Step → Value
  | .agent call agent => capability call "agent" [("agent", .text agent)]
  | .foreign call agent => capability call "agent" [("agent", .text agent)]
  | .worker call worker poll =>
    capability call "worker"
      ([("worker", .text worker)] ++ some? "workerPoll" (poll.map PollPolicy.toDocument))
  | .workflow call workflow => capability call "workflow" [("workflow", .text workflow)]
  | .hook h => Transport.hook h
  | .sleep id duration =>
    .object
      (some? "id" (id.map .text) ++ [("type", .text "sleep"), ("duration", duration.toValue)])
  | .condition id p whenTrue whenFalse =>
    .object
      (some? "id" (id.map .text) ++ [("type", .text "condition")] ++ predicate p
        ++ [("then", .list (stepDocuments whenTrue))]
        ++ (match whenFalse with
          | some steps => [("else", .list (stepDocuments steps))]
          | none => []))
  | .parallel id branches =>
    .object
      (some? "id" (id.map .text)
        ++ [("type", .text "parallel"), ("steps", .list (stepDocuments branches))])

/-- The transport forms of steps. -/
def stepDocuments : List Step → List Value
  | [] => []
  | s :: rest => s.toDocument :: stepDocuments rest
end

/-- The transport form of a plan. -/
def Plan.toDocument (p : Plan) : Value :=
  .object
    (some? "id" (p.id.map .text)
      ++ [("messages", .list (Value.spelledItems false p.messages)),
          ("continueOnError", .bool p.continueOnError),
          ("hookTimeout", (p.hookTimeout.getD defaultHookTimeout).toValue)]
      ++ some? "workerPoll" (p.workerPoll.map PollPolicy.toDocument)
      ++ some? "workflowPoll" (p.workflowPoll.map PollPolicy.toDocument)
      ++ [("steps", .list (stepDocuments p.steps))]
      ++ (if p.input.isCallable then [] else [("input", p.input)]))

end Runbook
