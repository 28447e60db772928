import Runbook.Plan.Reading

/-!
# `Plan.Builder` — plans built step by step

Steps made one after the other from their parts, then put together into a plan.

## Contents
- **Arguments.** `bind`, positional and named arguments under the names of the parameters.
- **Steps.** `StepMaker`, the ways to make a step with their parameters, and `StepMaker.make`.
- **Plans.** `buildPlan`.
-/

namespace Runbook

/-- The ways to make a step. -/
inductive StepMaker where
  | agent
  | worker
  | workflow
  | hook
  | sleep
  | condition
  | parallel
  deriving DecidableEq, Repr

namespace StepMaker

/-- The maker a word stands for. -/
def ofWord? : String → Option StepMaker
  | "agent" => some .agent
  | "worker" => some .worker
  | "workflow" => some .workflow
  | "hook" => some .hook
  | "sleep" => some .sleep
  | "condition" => some .condition
  | "parallel" => some .parallel
  | _ => none

/-- The parameters that can be given by position. -/
def parameters : StepMaker → List String
  | .agent => ["path", "input"]
  | .worker => ["worker_id", "input"]
  | .workflow => ["workflow_id", "input"]
  | .hook => ["token"]
  | .sleep => ["duration"]
  | .condition => ["predicate", "then_steps", "else_steps"]
  | .parallel => ["steps"]

/-- Arguments under the names of their parameters. -/
def bind (maker : StepMaker) (args : List Value) (named : Keyed Value) : Keyed Value :=
  Keyed.putAll (maker.parameters.zip args) named

/-- The input field, left out when no input was given. -/
def inputField (args : Keyed Value) : Keyed Value :=
  match Value.present? (args.get? "input") with
  | some v => [("input", v)]
  | none => []

/-- A parameter under the name of the field it fills, with the value taken when it is not given. -/
def field (args : Keyed Value) (parameter name : String) (default : Value) : String × Value :=
  (name, (args.get? parameter).getD default)

/-- The fields of a step, from its arguments. -/
def fields (maker : StepMaker) (args : Keyed Value) : Keyed Value :=
  match maker with
  | .agent =>
    [field args "path" "agent" .null, field args "await_" "await_" (.bool true),
     field args "id" "id" .null] ++ inputField args
  | .worker =>
    [field args "worker_id" "worker" .null, field args "await_" "await_" (.bool false),
     field args "id" "id" .null, field args "worker_poll" "worker_poll" .null] ++ inputField args
  | .workflow =>
    [field args "workflow_id" "workflow" .null, field args "await_" "await_" (.bool true),
     field args "id" "id" .null] ++ inputField args
  | .hook =>
    [field args "token" "token" .null, field args "id" "id" .null,
     field args "timeout" "timeout" .null, field args "payload_model" "payload_model" .null]
  | .sleep => [field args "duration" "duration" .null]
  | .condition =>
    [field args "predicate" "if_" .null, field args "then_steps" "then" .null,
     field args "else_steps" "else_" .null]
  | .parallel => [field args "steps" "steps" .null]

/-- The shape of the steps a maker makes. -/
def shape : StepMaker → Shape
  | .agent => .agent
  | .worker => .worker
  | .workflow => .workflow
  | .hook => .hook
  | .sleep => .sleep
  | .condition => .condition
  | .parallel => .parallel

/-- The name of the structure a maker fills. -/
def structureName : StepMaker → String
  | .agent => "AgentStep"
  | .worker => "WorkerStep"
  | .workflow => "WorkflowStep"
  | .hook => "HookStep"
  | .sleep => "SleepStep"
  | .condition => "ConditionStep"
  | .parallel => "ParallelStep"

/-- Makes a step. -/
def make (maker : StepMaker) (args : List Value) (named : Keyed Value) : Checked Step :=
  let fields := maker.fields (maker.bind args named)
  stepOfFields maker.shape fields (nestedSteps fields)

end StepMaker

/-- Puts steps together into a plan with the options given by name. -/
def buildPlan (steps : List Value) (options : Keyed Value) : Checked Plan :=
  Plan.ofFields (("steps", .list steps) :: options)

end Runbook
