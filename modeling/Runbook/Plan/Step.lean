import Runbook.Duration
import Runbook.Poll.Policy

/-!
# `Plan.Step` — steps and plans

A plan is a tree of steps with options for the whole run. A step calls an agent, a worker or a
workflow, waits for an event or for a length of time, chooses between two lists of steps, or runs
its steps side by side.

## Contents
- **Inputs and conditions.** `JoinDescriptor`, `StepInput`, `ConditionOp`, `StepFieldCondition`,
  `Predicate`, `HookToken`.
- **Steps.** `Capability` (what agent, worker and workflow steps share), `Hook`, `Step`.
- **Plans.** `Plan` and the default hook timeout.
- **Views.** `Step.kind`, `Step.id?`, `Step.isLeaf`, `Capability.hasInput`, `Step.awaits?`.
-/

namespace Runbook

/-- Gathers outputs of earlier steps into one input. -/
structure JoinDescriptor where
  fromSteps : List String
  path : Option String
  join : Option String
  /-- Further fields, handed on into the input. -/
  extra : Keyed Value

/-- The input of a capability step. -/
inductive StepInput where
  /-- No input was written. -/
  | absent
  /-- A literal, a function of the context, or null. -/
  | given (v : Value)
  | join (d : JoinDescriptor)

/-- How a condition compares a field. -/
inductive ConditionOp where
  | eq
  | neq
  | truthy
  | falsy
  | present
  | absent
  deriving DecidableEq, Repr

namespace ConditionOp

/-- The word for a comparison. -/
def word : ConditionOp → String
  | .eq => "eq"
  | .neq => "neq"
  | .truthy => "truthy"
  | .falsy => "falsy"
  | .present => "exists"
  | .absent => "notExists"

/-- All comparisons. -/
def all : List ConditionOp := [.eq, .neq, .truthy, .falsy, .present, .absent]

/-- The words for the comparisons. -/
def words : List String := all.map word

/-- The comparison a word stands for. -/
def ofWord? (w : String) : Option ConditionOp := all.find? fun op => op.word = w

theorem ofWord?_word (op : ConditionOp) : ofWord? op.word = some op := by
  cases op <;> decide

end ConditionOp

/-- Compares a field of an earlier step's output. -/
structure StepFieldCondition where
  stepId : String
  path : Option String
  op : ConditionOp
  value : Value

/-- What decides a condition step. -/
inductive Predicate where
  | constant (b : Bool)
  | stepField (c : StepFieldCondition)
  /-- Anything else; a function of the context can be evaluated, other values cannot. -/
  | other (v : Value)

/-- What names the event a hook waits for. -/
inductive HookToken where
  | text (s : String)
  /-- A function of the context. -/
  | computed (v : Value)

/-- What steps that call a remote capability share. -/
structure Capability where
  id : Option String
  input : StepInput
  await : Option Bool
  inputIsFunction : Bool

/-- A wait for an event. -/
structure Hook where
  id : Option String
  token : Option HookToken
  timeout : Option Duration
  /-- What the payload is checked against; null for nothing. -/
  payloadModel : Value
  tokenIsFunction : Bool

/-- A step of a plan. -/
inductive Step where
  | agent (call : Capability) (agent : String)
  | worker (call : Capability) (worker : String) (poll : Option PollPolicy)
  | workflow (call : Capability) (workflow : String)
  | hook (hook : Hook)
  | sleep (id : Option String) (duration : Duration)
  | condition (id : Option String) (predicate : Predicate) (whenTrue : List Step)
      (whenFalse : Option (List Step))
  | parallel (id : Option String) (branches : List Step)
  /-- A variant of an agent step that no interpreter knows. -/
  | foreign (call : Capability) (agent : String)

namespace Step

/-- The type of a step as it is written. -/
def kind : Step → String
  | .agent .. => "agent"
  | .worker .. => "worker"
  | .workflow .. => "workflow"
  | .hook .. => "hook"
  | .sleep .. => "sleep"
  | .condition .. => "condition"
  | .parallel .. => "parallel"
  | .foreign .. => "agent"

/-- The types of steps. -/
def kinds : List String :=
  ["agent", "worker", "workflow", "hook", "sleep", "condition", "parallel"]

/-- The id of a step. -/
def id? : Step → Option String
  | .agent call _ => call.id
  | .worker call _ _ => call.id
  | .workflow call _ => call.id
  | .hook h => h.id
  | .sleep id _ => id
  | .condition id .. => id
  | .parallel id _ => id
  | .foreign call _ => call.id

/-- Steps without steps inside that the interpreter knows. -/
def isLeaf : Step → Bool
  | .agent .. | .worker .. | .workflow .. | .hook .. | .sleep .. => true
  | .condition .. | .parallel .. | .foreign .. => false

end Step

namespace Capability

/-- Whether an input other than null was written. -/
def hasInput (c : Capability) : Bool :=
  match c.input with
  | .absent => false
  | .given v => !v.isNull
  | .join _ => true

/-- Whether the end of the call is awaited, given what holds when nothing is written. -/
def awaits (c : Capability) (default : Bool) : Bool := c.await.getD default

end Capability

/-- Whether a capability step awaits the end of its call: agents and workflows do unless told
    otherwise, workers only when told to. -/
def Step.awaits? : Step → Option Bool
  | .agent call _ => some (call.awaits true)
  | .worker call _ _ => some (call.awaits false)
  | .workflow call _ => some (call.awaits true)
  | .foreign call _ => some (call.awaits true)
  | _ => none

/-- How long a hook waits when nothing else is written. -/
def defaultHookTimeout : Duration := .text "7d"

/-- A tree of steps with the options of the run. -/
structure Plan where
  id : Option String
  steps : List Step
  input : Value
  messages : List Value
  continueOnError : Bool
  /-- Absent when the plan does not set it. -/
  hookTimeout : Option Duration
  workerPoll : Option PollPolicy
  workflowPoll : Option PollPolicy

end Runbook
