import Runbook.Decode.Problem
import Runbook.Duration

/-!
# `Plan.Issue` — what is wrong with a plan

The defects that make a plan unfit to run, or at least doubtful, and where each was found.

## Contents
- **Defects.** `TimeoutProblem`, `Defect` with its code, wording and severity.
- **Issues.** `Issue`, a defect at a step, and its form as a value.
-/

namespace Runbook

/-- How grave a defect is: an error keeps a plan from running. -/
inductive Severity where
  | error
  | warning
  deriving DecidableEq, Repr

/-- The word for a severity. -/
def Severity.word : Severity → String
  | .error => "error"
  | .warning => "warning"

/-- Why a value cannot be a timeout. -/
inductive TimeoutProblem where
  | notALength (p : DurationProblem)
  | notPositive (v : Value)

/-- The wording of a problem. -/
def TimeoutProblem.message : TimeoutProblem → String
  | .notALength p => p.message
  | .notPositive v => "Timeout must be positive, got " ++ v.literal

/-- The kinds of capability a step can call. -/
inductive CapabilityKind where
  | agent
  | worker
  | workflow
  deriving DecidableEq, Repr

/-- The word for a kind of capability: the type of its steps and their field for its name. -/
def CapabilityKind.word : CapabilityKind → String
  | .agent => "agent"
  | .worker => "worker"
  | .workflow => "workflow"

/-- What is wrong with a plan or a step. -/
inductive Defect where
  | planNotAnObject
  | planWithoutSteps
  | planEmpty
  | planTimeout (p : TimeoutProblem)
  /-- A part of the document could not be read. -/
  | unreadable (c : Complaint)
  | stepNotAnObject (typeName : String)
  | badId
  | duplicateId (id : String)
  | unknownType (v : Value)
  | blankName (kind : CapabilityKind)
  | unboundedAwait
  | hookWithoutToken
  | hookTimeout (p : TimeoutProblem)
  | sleepWithoutDuration
  | sleepDuration (p : DurationProblem)
  | badPredicate
  | conditionWithoutThen
  | badElse
  | parallelWithoutSteps

namespace Defect

/-- The code of a defect. -/
def code : Defect → String
  | .planNotAnObject | .planWithoutSteps | .planEmpty | .planTimeout _ | .unreadable _
  | .stepNotAnObject _ | .badId => "INVALID_CONFIG"
  | .duplicateId _ => "DUPLICATE_STEP_ID"
  | .unknownType _ => "UNKNOWN_STEP_TYPE"
  | .blankName .agent => "INVALID_AGENT_STEP"
  | .blankName .worker => "INVALID_WORKER_STEP"
  | .blankName .workflow => "INVALID_WORKFLOW_STEP"
  | .unboundedAwait => "INVALID_WORKER_AWAIT"
  | .hookWithoutToken | .hookTimeout _ => "INVALID_HOOK_STEP"
  | .sleepWithoutDuration | .sleepDuration _ => "INVALID_SLEEP_STEP"
  | .badPredicate | .conditionWithoutThen | .badElse => "INVALID_CONDITION_STEP"
  | .parallelWithoutSteps => "INVALID_PARALLEL_STEP"

/-- The wording of a defect. -/
def message : Defect → String
  | .planNotAnObject => "Config must be an object"
  | .planWithoutSteps => "Config must have a \"steps\" array"
  | .planEmpty => "Config must have at least one step"
  | .planTimeout p => "hookTimeout: " ++ p.message
  | .unreadable c => c.message
  | .stepNotAnObject typeName => "Step must be an object, got " ++ typeName
  | .badId => "Step id must be a non-empty string"
  | .duplicateId id => "Duplicate step ID \"" ++ id ++ "\" found"
  | .unknownType v => "Unknown step type " ++ v.literal
  | .blankName kind =>
    kind.word.capitalize ++ " step must have a valid \"" ++ kind.word ++ "\" (non-empty string)"
  | .unboundedAwait =>
    "Awaited worker steps need a bounded workerPoll policy "
      ++ "(timeoutMs or maxRetries) on the step or the config"
  | .hookWithoutToken => "Hook step should have a \"token\" (string or function)"
  | .hookTimeout p => p.message
  | .sleepWithoutDuration => "Sleep step must have a valid \"duration\" (string or number)"
  | .sleepDuration p => p.message
  | .badPredicate =>
    "Condition step must have an \"if\" (boolean, function or stepField condition)"
  | .conditionWithoutThen => "Condition step must have a \"then\" array"
  | .badElse => "Condition step \"else\" must be an array if provided"
  | .parallelWithoutSteps => "Parallel step must have a non-empty \"steps\" array"

/-- Only a hook without a token is a warning. -/
def severity : Defect → Severity
  | .hookWithoutToken => .warning
  | _ => .error

end Defect

/-- A defect, and the step at which it was found. -/
structure Issue where
  defect : Defect
  step : Option String

namespace Issue

/-- Whether an issue keeps a plan from running. -/
def isError (i : Issue) : Bool := i.defect.severity = .error

/-- An issue as a value. -/
def toValue (i : Issue) : Value :=
  .object
    [("code", .text i.defect.code), ("message", .text i.defect.message),
     ("step", .ofText? i.step), ("severity", .text i.defect.severity.word)]

/-- The issue for a part of a document that could not be read. -/
def ofProblem (p : Problem) : Issue :=
  ⟨.unreadable p.complaint, if p.path = "" then none else some p.path⟩

end Issue

end Runbook
