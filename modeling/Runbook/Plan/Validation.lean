import Runbook.Fault
import Runbook.Plan.Path
import Runbook.Plan.Step
import Runbook.Value.Truth

/-!
# `Plan.Validation` — checking a plan before it runs

The check walks the tree of steps depth first and reports every defect instead of stopping at the
first one. It looks at documents and at plans already read alike.

## Contents
- **Members.** `member?`, a field of a node under the name it has in its form.
- **Checks of one node.** Ids, capabilities, hooks, sleeps, conditions, parallels.
- **The walk.** `checkStep`, `checkSteps` and `nestedChecks`, by recursion on the document; ids seen
  so far are carried along.
- **Entry points.** `validate`, `isValid`. The only failure is a length of time that exceeds every
  double.
-/

namespace Runbook

namespace Validation

/-! ## Members -/

/-- The attribute name of a field whose spelling in documents differs. -/
def memberNames : List (String × String) :=
  [("await", "await_"), ("if", "if_"), ("else", "else_"), ("workerPoll", "worker_poll"),
   ("tokenIsFunction", "token_is_function"), ("intervalMs", "interval_ms"),
   ("timeoutMs", "timeout_ms"), ("maxRetries", "max_retries"), ("stepId", "step_id"),
   ("hookTimeout", "hook_timeout"), ("continueOnError", "continue_on_error")]

/-- The attribute name of a field. -/
def memberName (name : String) : String := (Keyed.get? memberNames name).getD name

/-- A field of a node with the key it stands under: a document may use either name of the field, an
    object already read uses the attribute name. -/
def fieldOf? (node : Value) (name : String) : Option (String × Value) :=
  match node with
  | .object fields =>
    match Keyed.get? fields name with
    | some v => some (name, v)
    | none => (Keyed.get? fields (memberName name)).map (memberName name, ·)
  | .parsed _ fields => (Keyed.get? fields (memberName name)).map (memberName name, ·)
  | _ => none

/-- A field of a node. -/
def member? (node : Value) (name : String) : Option Value := (fieldOf? node name).map (·.2)

/-- A field of a node, null when absent. -/
def member (node : Value) (name : String) : Value := (member? node name).getD .null

/-- Whether something can have fields. -/
def isNode : Value → Bool
  | .object _ | .parsed _ _ => true
  | _ => false

/-! ## Findings -/

/-- The ids met and the issues found so far. -/
structure Findings where
  seen : List String
  issues : List Issue

namespace Findings

/-- Nothing met yet. -/
def empty : Findings := ⟨[], []⟩

/-- Adds an issue. -/
def add (f : Findings) (defect : Defect) (step : Option String) : Findings :=
  { f with issues := f.issues ++ [⟨defect, step⟩] }

/-- Adds an issue at a path. -/
def addAt (f : Findings) (defect : Defect) (path : StepPath) : Findings :=
  f.add defect (some path.text)

end Findings

/-! ## Checks of one node -/

/-- What keeps a value from being a timeout. -/
def timeoutProblem? (v : Value) : Except Fault (Option TimeoutProblem) :=
  match Duration.millisecondsOf v with
  | .ok ms => .ok (if ms <= 0.0 then some (.notPositive v) else none)
  | .error .tooLarge => .error .numberTooLarge
  | .error p => .ok (some (.notALength p))

/-- Whether a poll policy sets a bound. -/
def isBoundedPoll (policy : Value) : Bool :=
  !(member policy "timeoutMs").isNull || !(member policy "maxRetries").isNull

/-- Whether a value can decide a condition. -/
def isPredicate (v : Value) : Bool :=
  match v with
  | .bool _ => true
  | .function _ | .schema _ => true
  | .parsed .stepField _ => true
  | .object fields =>
    (Keyed.get? fields "type").bind Value.text? = some "stepField"
      && (member? v "stepId").any (·.text?.isSome)
      && (((member? v "op").bind Value.text?).any ConditionOp.words.contains)
  | _ => false

/-- Notes the id of a step, if it has one. -/
def checkId (step : Value) (path : StepPath) (f : Findings) : Findings :=
  match member step "id" with
  | .null => f
  | .text id =>
    if id = "" then f.addAt .badId path
    else if f.seen.contains id then f.add (.duplicateId id) (some id)
    else { f with seen := f.seen ++ [id] }
  | _ => f.addAt .badId path

/-- A capability must be named by a text that is not blank. -/
def checkName (kind : CapabilityKind) (step : Value) (path : StepPath) (f : Findings) : Findings :=
  match member step kind.word with
  | .text name => if Text.isBlankText name then f.addAt (.blankName kind) path else f
  | _ => f.addAt (.blankName kind) path

/-- A worker that is awaited must be polled within bounds. -/
def checkAwait (plan step : Value) (path : StepPath) (f : Findings) : Findings :=
  match member step "await" with
  | .bool true =>
    if isBoundedPoll (member step "workerPoll") || isBoundedPoll (member plan "workerPoll") then f
    else f.addAt .unboundedAwait path
  | _ => f

/-- Whether a hook has a token, or had one before its function was removed. -/
def hasToken (step : Value) : Bool :=
  match member step "token" with
  | .text s => s ≠ "" || (member step "tokenIsFunction").truthy
  | .function _ | .schema _ => true
  | _ => (member step "tokenIsFunction").truthy

/-- A hook should have a token; its timeout must be a positive length of time. -/
def checkHook (step : Value) (path : StepPath) (f : Findings) : Except Fault Findings := do
  let f := if hasToken step then f else f.addAt .hookWithoutToken path
  match member step "timeout" with
  | .null => return f
  | timeout =>
    match ← timeoutProblem? timeout with
    | some p => return f.addAt (.hookTimeout p) path
    | none => return f

/-- A sleep must have a length of time. -/
def checkSleep (step : Value) (path : StepPath) (f : Findings) : Except Fault Findings :=
  match (member? step "duration").bind Duration.ofValue? with
  | none => .ok (f.addAt .sleepWithoutDuration path)
  | some d =>
    match d.milliseconds with
    | .ok _ => .ok f
    | .error .tooLarge => .error .numberTooLarge
    | .error p => .ok (f.addAt (.sleepDuration p) path)

/-! ## The walk -/

/-- The check of a list of steps that belongs to the step at a path. -/
abbrev ListCheck := Option (StepPath × Branch) → Findings → Except Fault Findings

/-- The list under a field of a node with its check: absent when the field holds no list. -/
def listUnder? (nested : Keyed (Option ListCheck)) (node : Value) (name : String) :
    Option ListCheck :=
  ((fieldOf? node name).bind fun (key, _) => nested.get? key).join

/-- A condition needs a predicate and a list of steps to take when it holds. -/
def checkCondition (step : Value) (nested : Keyed (Option ListCheck)) (path : StepPath)
    (f : Findings) : Except Fault Findings := do
  let f := if isPredicate (member step "if") then f else f.addAt .badPredicate path
  let f ←
    match listUnder? nested step "then" with
    | some check => check (some (path, .whenTrue)) f
    | none => pure (f.addAt .conditionWithoutThen path)
  match member step "else" with
  | .null => return f
  | _ =>
    match listUnder? nested step "else" with
    | some check => check (some (path, .whenFalse)) f
    | none => return f.addAt .badElse path

/-- A parallel step needs steps. -/
def checkParallel (step : Value) (nested : Keyed (Option ListCheck)) (path : StepPath)
    (f : Findings) : Except Fault Findings :=
  let empty :=
    match member step "steps" with
    | .list (_ :: _) => false
    | _ => true
  let f := if empty then f.addAt .parallelWithoutSteps path else f
  match listUnder? nested step "steps" with
  | some check => check (some (path, .parallel)) f
  | none => .ok f

/-- The check of a step that can have fields. -/
def checkNode (plan step : Value) (nested : Keyed (Option ListCheck)) (path : StepPath)
    (f : Findings) : Except Fault Findings :=
  let f := checkId step path f
  match member step "type" with
  | .text "agent" => .ok (checkName .agent step path f)
  | .text "worker" => .ok (checkAwait plan step path (checkName .worker step path f))
  | .text "workflow" => .ok (checkName .workflow step path f)
  | .text "hook" => checkHook step path f
  | .text "sleep" => checkSleep step path f
  | .text "condition" => checkCondition step nested path f
  | .text "parallel" => checkParallel step nested path f
  | kind => .ok (f.addAt (.unknownType kind) path)

/-- The path of a step that may be malformed: its type is shown as it is written. -/
def pathOf (parent : Option (StepPath × Branch)) (index : Nat) (step : Value) : StepPath :=
  StepPath.within parent index (member step "type").display

mutual
/-- The check of one step. -/
def checkStep (plan : Value) :
    Value → Option (StepPath × Branch) → Nat → Findings → Except Fault Findings
  | .object fields, parent, index, f =>
    checkNode plan (.object fields) (nestedChecks plan fields)
      (pathOf parent index (.object fields)) f
  | .parsed shape fields, parent, index, f =>
    checkNode plan (.parsed shape fields) (nestedChecks plan fields)
      (pathOf parent index (.parsed shape fields)) f
  | v, parent, index, f => .ok (f.addAt (.stepNotAnObject v.typeName) (pathOf parent index v))

/-- The check of a list of steps, the first of which stands at an index. -/
def checkSteps (plan : Value) : List Value → Nat → ListCheck
  | [], _, _, f => .ok f
  | v :: rest, index, parent, f => do
    checkSteps plan rest (index + 1) parent (← checkStep plan v parent index f)

/-- The check of each field that holds a list. -/
def nestedChecks (plan : Value) : List (String × Value) → List (String × Option ListCheck)
  | [] => []
  | (key, .list items) :: rest => (key, some (checkSteps plan items 0)) :: nestedChecks plan rest
  | (key, _) :: rest => (key, none) :: nestedChecks plan rest
end

/-- The check of a value as a list of steps, absent for everything that is no list. -/
def listCheck? (plan : Value) : Value → Option ListCheck
  | .list items => some (checkSteps plan items 0)
  | _ => none

/-- The check found for a field is that of its value. -/
theorem get?_nestedChecks (plan : Value) (fields : List (String × Value)) (key : String) :
    Keyed.get? (nestedChecks plan fields) key
      = (Keyed.get? fields key).map (listCheck? plan) := by
  induction fields with
  | nil => simp [nestedChecks, Keyed.get?]
  | cons entry rest ih =>
    obtain ⟨k, v⟩ := entry
    by_cases h : k = key
    · cases v <;> simp [nestedChecks, Keyed.get?, listCheck?, h]
    · cases v <;> simp [nestedChecks, Keyed.get?, h, ih]

end Validation

open Validation in
/-- Every defect of a plan, in the order of the walk. -/
def validate (plan : Value) : Except Fault (List Issue) :=
  if !isNode plan then .ok [⟨.planNotAnObject, none⟩]
  else
    match member plan "steps" with
    | .list steps => do
      let f := if steps.isEmpty then Findings.empty.add .planEmpty none else .empty
      let f ←
        match member plan "hookTimeout" with
        | .null => pure f
        | timeout =>
          match ← timeoutProblem? timeout with
          | some p => pure (f.add (.planTimeout p) none)
          | none => pure f
      let f ← checkSteps plan steps 0 none f
      return f.issues
    | _ => .ok [⟨.planWithoutSteps, none⟩]

/-- Whether nothing keeps a plan from running. -/
def isValid (issues : List Issue) : Bool := !issues.any Issue.isError

end Runbook
