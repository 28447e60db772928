import Runbook.Plan.Issue
import Runbook.Value.Path
import Runbook.Value.Json

/-!
# `Fault` — why an operation failed

Every way in which an operation of the library can fail, by its cause, with one wording for each.

## Contents
- **Causes.** `DispatchProblem`, `StoreProblem`, `PollProblem`, `RaisedKind`, `TypeProblem`, `Fault`.
- **Wording.** `Fault.name`, the name of the class of a failure, and `Fault.message`; `describe` is
  the message, or the name when the message is empty.
-/

namespace Runbook

/-- Why a remote capability could not be called. -/
inductive DispatchProblem where
  /-- The request got no reply. -/
  | unreachable (method url reason : String)
  /-- The reply refused the request. -/
  | refused (what : String) (url : String) (status : Nat) (phrase body : String)
  /-- A started run was not named. -/
  | noRunId (workflow url body : String)
  /-- A status reply was not an object. -/
  | badStatus (url : String)
  deriving DecidableEq, Repr

namespace DispatchProblem

/-- The wording of a problem; blanks at the end are dropped. -/
def message : DispatchProblem → String
  | .unreachable method url reason => method ++ " " ++ url ++ " failed: " ++ reason
  | .refused what _ status phrase body =>
    String.ofList (Text.trimRight
      (what ++ " failed: " ++ toString status ++ " " ++ phrase ++ ". " ++ body).toList)
  | .noRunId workflow _ _ => "Workflow " ++ workflow ++ " start returned no runId"
  | .badStatus url => "Invalid status payload from " ++ url

/-- The address that was called. -/
def url : DispatchProblem → String
  | .unreachable _ url _ => url
  | .refused _ url _ _ _ => url
  | .noRunId _ url _ => url
  | .badStatus url => url

/-- The status of the reply, when it is what refused the request. -/
def status? : DispatchProblem → Option Nat
  | .refused _ _ status _ _ => some status
  | _ => none

/-- The beginning of the reply, when it matters. -/
def body? : DispatchProblem → Option String
  | .refused _ _ _ _ body => some body
  | .noRunId _ _ body => some body
  | _ => none

end DispatchProblem

/-- Why a store refused or failed an operation. -/
inductive StoreProblem where
  | jobNotFound (id : String)
  | queueJobNotFound (id : String)
  | noSuchStep (id index : String)
  | noStatus (runId : String)
  | closed (path : String)
  | negativeLimit
  /-- A failure reported by the store's medium. -/
  | down (reason : String)
  deriving DecidableEq, Repr

/-- The wording of a problem. -/
def StoreProblem.message : StoreProblem → String
  | .jobNotFound id => "Job " ++ id ++ " not found"
  | .queueJobNotFound id => "Queue job " ++ id ++ " not found"
  | .noSuchStep id index => "Queue job " ++ id ++ " has no step at index " ++ index
  | .noStatus runId => "No status recorded for run_id=" ++ runId
  | .closed path => "SQLite store " ++ path ++ " failed: Cannot operate on a closed database."
  | .negativeLimit => "PostgreSQL store failed: LIMIT must not be negative"
  | .down reason => reason

/-- What a poll that ran out of time was waiting for. -/
inductive PollProblem where
  | remote (what : String) (attempts : Nat) (elapsedMs : Float) (lastStatus : Option String)
  | child (worker job : String) (timeoutMs : Value) (attempts : Nat) (lastStatus : Option String)

namespace PollProblem

/-- The wording of a problem. -/
def message : PollProblem → String
  | .remote what attempts elapsedMs lastStatus =>
    what ++ " did not complete after " ++ toString attempts ++ " checks ("
      ++ Number.wholeText elapsedMs ++ "ms), last status " ++ (Value.ofText? lastStatus).literal
  | .child worker job timeoutMs _ _ =>
    "Child worker " ++ worker ++ " (" ++ job ++ ") did not complete within "
      ++ timeoutMs.display ++ "ms"

/-- How many checks were made. -/
def attempts : PollProblem → Nat
  | .remote _ n _ _ => n
  | .child _ _ _ n _ => n

/-- The status seen last. -/
def lastStatus : PollProblem → Option String
  | .remote _ _ _ s => s
  | .child _ _ _ _ s => s

end PollProblem

/-- The kinds of failure that caller-supplied functions raise. -/
inductive RaisedKind where
  | value
  | key
  | runtime
  | type
  | store
  deriving DecidableEq, Repr

/-- The class name of a kind. -/
def RaisedKind.name : RaisedKind → String
  | .value => "ValueError"
  | .key => "KeyError"
  | .runtime => "RuntimeError"
  | .type => "TypeError"
  | .store => "StoreError"

/-- The kind a class name stands for. -/
def RaisedKind.ofName? (name : String) : Option RaisedKind :=
  [RaisedKind.value, .key, .runtime, .type, .store].find? fun k => k.name = name

/-- Why a value was used in a way its type does not allow. -/
inductive TypeProblem where
  /-- JSON has no form for a part of a value. -/
  | notWritable (typeName : String)
  | unsupportedCondition (v : Value)
  | notAMapping (typeName : String)
  | notComparable (left right : String)
  /-- A payload schema was called with values in order, which it does not take. -/
  | schemaCall (given : Nat)
  | notAPosition (typeName : String)
  | other (message : String)

/-- The wording of a problem. -/
def TypeProblem.message : TypeProblem → String
  | .notWritable typeName => "Object of type " ++ typeName ++ " is not JSON serializable"
  | .unsupportedCondition v => "Unsupported condition predicate: " ++ v.literal
  | .notAMapping typeName => "'" ++ typeName ++ "' object is not a mapping"
  | .notComparable left right =>
    "'<' not supported between instances of '" ++ left ++ "' and '" ++ right ++ "'"
  | .schemaCall given =>
    "BaseModel.__init__() takes 1 positional argument but " ++ toString (given + 1)
      ++ " were given"
  | .notAPosition typeName => "int() argument must be a string or a number, not '" ++ typeName ++ "'"
  | .other message => message

/-- Why an operation failed. -/
inductive Fault where
  | planInvalid (issues : List Issue)
  | invalidDuration (p : DurationProblem)
  /-- An integer exceeds every double. -/
  | numberTooLarge
  /-- A quotient of integers exceeds every double. -/
  | quotientTooLarge
  /-- An integer does not fit into a column of a table. -/
  | integerTooLarge
  | dispatch (p : DispatchProblem)
  | pollTimeout (p : PollProblem)
  | hookTimeout (token : String) (seconds : Float)
  | hookTokenMissing
  | stepFailed (message : String) (details : Value)
  | unknownStepType (kind : String)
  | store (p : StoreProblem)
  | workerNotFound (id : Value)
  /-- A document does not have the fields of a structure. -/
  | unreadable (structureName : String) (problems : List Problem)
  | raised (kind : RaisedKind) (args : List Value)
  | badPosition (p : Value.BadPosition)
  | badNumeral (v : Value)
  | typeMismatch (p : TypeProblem)
  /-- A list has no such position. -/
  | noSuchPosition
  /-- A value lacks a part that was asked for. -/
  | noSuchPart (typeName part : String)
  | noSuchKey (key : String)
  /-- A value that JSON has no form for was to be stored. -/
  | notStorable (typeName : String)
  | unsupportedHost (backend : String)
  | unsupportedDatabase (url : String)
  | unknownCapability (kind : String)
  /-- The process was stopped. -/
  | restarted

namespace Fault

/-- The failure of a duration. -/
def ofDuration : DurationProblem → Fault
  | .tooLarge => .numberTooLarge
  | p => .invalidDuration p

/-- The class name of a failure. -/
def name : Fault → String
  | .planInvalid _ => "ConfigInvalid"
  | .invalidDuration _ => "InvalidDuration"
  | .numberTooLarge | .quotientTooLarge | .integerTooLarge => "OverflowError"
  | .dispatch _ => "DispatchError"
  | .pollTimeout _ => "PollTimeout"
  | .hookTimeout _ _ => "HookTimeout"
  | .hookTokenMissing => "HookTokenMissing"
  | .stepFailed _ _ => "StepFailed"
  | .unknownStepType _ => "UnknownStepType"
  | .store _ => "StoreError"
  | .workerNotFound _ => "WorkerNotFound"
  | .unreadable _ _ => "ValidationError"
  | .raised kind _ => kind.name
  | .badPosition _ | .badNumeral _ => "ValueError"
  | .typeMismatch _ => "TypeError"
  | .noSuchPosition => "IndexError"
  | .noSuchPart _ _ => "AttributeError"
  | .noSuchKey _ => "KeyError"
  | .notStorable _ => "PydanticSerializationError"
  | .unsupportedHost _ | .unsupportedDatabase _ | .unknownCapability _ => "ValueError"
  | .restarted => "RuntimeError"

/-- The text of the arguments of a raised failure: nothing, the one argument, or all of them in
    parentheses. A missing key is quoted. -/
def argsText (kind : RaisedKind) (args : List Value) : String :=
  match args with
  | [] => ""
  | [v] => if kind = .key then v.literal else v.display
  | vs => "(" ++ String.intercalate ", " (vs.map Value.literal) ++ ")"

/-- The count of problems and the structure that was read. -/
def unreadableText (structureName : String) (count : Nat) : String :=
  toString count ++ " validation error" ++ (if count = 1 then "" else "s") ++ " for "
    ++ structureName

/-- The wording of a failure. -/
def message : Fault → String
  | .planInvalid issues =>
    "Invalid orchestration config: "
      ++ String.intercalate "; " (issues.map fun i => i.defect.code ++ ": " ++ i.defect.message)
  | .invalidDuration p => p.message
  | .numberTooLarge => DurationProblem.tooLarge.message
  | .quotientTooLarge => "integer division result too large for a float"
  | .integerTooLarge => "Python int too large to convert to SQLite INTEGER"
  | .dispatch p => p.message
  | .pollTimeout p => p.message
  | .hookTimeout token seconds =>
    "Hook " ++ Text.quoted token ++ " timed out after " ++ Number.generalText seconds ++ "s"
  | .hookTokenMissing => "Hook token is missing and could not be resolved"
  | .stepFailed message _ => message
  | .unknownStepType kind => "Unknown step type: " ++ kind
  | .store p => p.message
  | .workerNotFound id => "No worker registered with id " ++ id.literal
  | .unreadable structureName problems => unreadableText structureName problems.length
  | .raised kind args => argsText kind args
  | .badPosition p => p.message
  | .badNumeral v => "invalid literal for int() with base 10: " ++ v.literal
  | .typeMismatch p => p.message
  | .noSuchPosition => "list index out of range"
  | .noSuchPart typeName part =>
    "'" ++ typeName ++ "' object has no attribute '" ++ part ++ "'"
  | .noSuchKey key => Text.quoted key
  | .notStorable typeName => "Unable to serialize unknown type: <class '" ++ typeName ++ "'>"
  | .unsupportedHost backend => "Unsupported host backend: " ++ backend
  | .unsupportedDatabase url => "Unsupported database backend: " ++ url
  | .unknownCapability kind => "Unknown capability kind: " ++ kind
  | .restarted => "process restarted"

/-- The message of a failure, or its name when the message is empty. -/
def describe (f : Fault) : String := if f.message = "" then f.name else f.message

/-- The trace that is kept with an error. -/
def trace (f : Fault) : String :=
  "Traceback (most recent call last):\n" ++ f.name
    ++ (if f.message = "" then "" else ": " ++ f.message) ++ "\n"

/-- A reading whose problems are a failure to read a structure. -/
def ofChecked {α : Type} (structureName : String) : Checked α → Except Fault α
  | .ok a => .ok a
  | .bad problems => .error (.unreadable structureName problems)

end Fault

end Runbook
