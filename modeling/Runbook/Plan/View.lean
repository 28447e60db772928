import Runbook.Plan.Step

/-!
# `Plan.View` — steps and plans as values

A step or plan that has been read, seen again as a value: its fields under their attribute names.
Whatever inspects documents can inspect plans through this view.

## Contents
- **Parts.** `JoinDescriptor.toValue`, `StepFieldCondition.toValue`, `PollPolicy.toValue`, …
- **Steps and plans.** `Step.toValue`, `Plan.toValue`.
-/

namespace Runbook

/-- A policy as a value. -/
def PollPolicy.toValue (p : PollPolicy) : Value := .parsed .pollPolicy p.toFields

/-- An optional policy as a value. -/
def PollPolicy.toValue? : Option PollPolicy → Value
  | some p => p.toValue
  | none => .null

/-- An optional duration as a value. -/
def Duration.toValue? : Option Duration → Value
  | some d => d.toValue
  | none => .null

/-- An optional boolean as a value. -/
def Value.ofBool? : Option Bool → Value
  | some b => .bool b
  | none => .null

/-- A join descriptor as a value. -/
def JoinDescriptor.toValue (d : JoinDescriptor) : Value :=
  .parsed .join
    ([("from_steps", .list (d.fromSteps.map .text)), ("path", .ofText? d.path),
      ("join", .ofText? d.join)] ++ d.extra)

/-- A field condition as a value. -/
def StepFieldCondition.toValue (c : StepFieldCondition) : Value :=
  .parsed .stepField
    [("type", .text "stepField"), ("step_id", .text c.stepId), ("path", .ofText? c.path),
     ("op", .text c.op.word), ("value", c.value)]

/-- A predicate as a value. -/
def Predicate.toValue : Predicate → Value
  | .constant b => .bool b
  | .stepField c => c.toValue
  | .other v => v

/-- A token as a value. -/
def HookToken.toValue? : Option HookToken → Value
  | some (.text s) => .text s
  | some (.computed v) => v
  | none => .null

/-- The input field of a capability step, when one was written. -/
def StepInput.toFields : StepInput → Keyed Value
  | .absent => []
  | .given v => [("input", v)]
  | .join d => [("input", d.toValue)]

/-- The fields that capability steps share. -/
def Capability.toFields (c : Capability) (kind : String) : Keyed Value :=
  [("id", .ofText? c.id)] ++ c.input.toFields
    ++ [("await_", .ofBool? c.await), ("input_is_function", .bool c.inputIsFunction),
        ("type", .text kind)]

mutual
/-- A step as a value. -/
def Step.toValue : Step → Value
  | .agent call agent => .parsed .agent (call.toFields "agent" ++ [("agent", .text agent)])
  | .foreign call agent => .parsed .foreign (call.toFields "agent" ++ [("agent", .text agent)])
  | .worker call worker poll =>
    .parsed .worker
      (call.toFields "worker"
        ++ [("worker", .text worker), ("worker_poll", PollPolicy.toValue? poll)])
  | .workflow call workflow =>
    .parsed .workflow (call.toFields "workflow" ++ [("workflow", .text workflow)])
  | .hook h =>
    .parsed .hook
      [("id", .ofText? h.id), ("type", .text "hook"), ("token", HookToken.toValue? h.token),
       ("timeout", Duration.toValue? h.timeout), ("payload_model", h.payloadModel),
       ("token_is_function", .bool h.tokenIsFunction)]
  | .sleep id duration =>
    .parsed .sleep
      [("id", .ofText? id), ("type", .text "sleep"), ("duration", duration.toValue)]
  | .condition id predicate whenTrue whenFalse =>
    .parsed .condition
      [("id", .ofText? id), ("type", .text "condition"), ("if_", predicate.toValue),
       ("then", .list (stepValues whenTrue)),
       ("else_",
        match whenFalse with
        | some steps => .list (stepValues steps)
        | none => .null)]
  | .parallel id branches =>
    .parsed .parallel
      [("id", .ofText? id), ("type", .text "parallel"), ("steps", .list (stepValues branches))]

/-- Steps as values. -/
def stepValues : List Step → List Value
  | [] => []
  | s :: rest => s.toValue :: stepValues rest
end

/-- A plan as a value. -/
def Plan.toValue (p : Plan) : Value :=
  .parsed .plan
    [("id", .ofText? p.id), ("steps", .list (stepValues p.steps)), ("input", p.input),
     ("messages", .list p.messages), ("continue_on_error", .bool p.continueOnError),
     ("hook_timeout", (p.hookTimeout.getD defaultHookTimeout).toValue),
     ("worker_poll", PollPolicy.toValue? p.workerPoll),
     ("workflow_poll", PollPolicy.toValue? p.workflowPoll)]

end Runbook
