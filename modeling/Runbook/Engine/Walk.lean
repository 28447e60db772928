import Runbook.Engine.Leaf

/-!
# `Engine.Walk` — carrying out the tree of steps

A sequence is carried out step by step, a condition chooses one of its lists, and a parallel step
carries out its branches side by side, each with a fork of the context, which it merges in the order
of the branches when all of them have ended.

## Contents
- **Errors.** `stepRef`, `guarded`: a step that failed is recorded when the plan goes on after
  errors.
- **Branches.** `mergeBranches`, `gather`.
- **The walk.** `walk` for a step, `walkList`, `walkBranches`.
-/

namespace Runbook

/-- An action as the beginning of a fiber, which ends when the action fails. -/
def Fiber.ofAction {α : Type} (a : Action α) (next : α → Fiber Outcome)
    (step : Option StepPath := none) : Fiber Outcome :=
  a.outcome.toFiber step fun
    | .ok v => next v
    | .error f => .done (.error f)

namespace Execution

/-! ## Errors -/

/-- How the error of a step names it: by its id, or else by its position and type. -/
def stepRef (s : Step) (index : Int) : StepRef :=
  .name ((nonEmpty? s.id?).getD (toString index ++ "-" ++ s.kind))

/-- The outcome of a step in a sequence: a failure that is not fatal is recorded when the plan goes
    on after errors. -/
def guarded (x : Execution) (s : Step) (index : Int) (c : Context) : Outcome → Outcome
  | .ok r => .ok r
  | .error f =>
    if x.plan.continueOnError && !isFatal f then .ok ⟨c.recordFault (stepRef s index) f, .null⟩
    else .error f

/-! ## Branches -/

/-- Merges the outcomes of branches in order; a failure is recorded under the index of its branch and
    has null for its result. -/
def mergeBranches : Nat → List Outcome → Context → List Value → Context × List Value
  | _, [], c, results => (c, results)
  | index, .ok r :: rest, c, results =>
    mergeBranches (index + 1) rest (c.merge r.context) (results ++ [r.output])
  | index, .error f :: rest, c, results =>
    mergeBranches (index + 1) rest (c.recordFault (.index index) f) (results ++ [.null])

/-- The failures among outcomes. -/
def faultsOf (outcomes : List Outcome) : List Fault :=
  outcomes.filterMap fun
    | .ok _ => none
    | .error f => some f

/-- The failure with which a parallel step fails: the first that is fatal, or else the first of all
    unless the plan goes on after errors. -/
def gatheredFault? (x : Execution) (outcomes : List Outcome) : Option Fault :=
  let faults := faultsOf outcomes
  (faults.find? isFatal).or (if x.plan.continueOnError then none else faults.head?)

/-- The outcome of a parallel step. -/
def gather (x : Execution) (id : Option String) (c : Context) (outcomes : List Outcome) : Outcome :=
  match x.gatheredFault? outcomes with
  | some f => .error f
  | none =>
    let (c, results) := mergeBranches 0 outcomes c []
    let output := Value.object [("results", .list results)]
    .ok ⟨c.recordOutput id output, output⟩

/-! ## The walk -/

/-- A leaf step. -/
def leaf (x : Execution) (path : StepPath) (id : Option String) (c : Context)
    (body : String → Action Value) : Fiber Outcome :=
  .ofAction (x.carryOut path id c (body path.text)) (fun r => .done (.ok r)) (some path)

/-- Reports the outcome of a step that contains steps, or is of a type that is not known. -/
def concluded (path : StepPath) (id : Option String) (o : Outcome) : Fiber Outcome :=
  .ask (.report ⟨path, id, o.map Finished.output⟩) (fun _ => .done o) (some path)

/-- The outcome of a condition after its list was carried out. -/
def chosen (b : Bool) : Outcome → Outcome
  | .ok r => .ok ⟨r.context, .object [("condition", .bool b)]⟩
  | .error f => .error f

mutual
/-- Carries out a step. -/
def walk (x : Execution) : Step → StepPath → Context → Fiber Outcome
  | .agent call agent, path, c => x.leaf path call.id c (x.runAgent call agent c)
  | .worker call worker poll, path, c => x.leaf path call.id c (x.runWorker call worker poll c)
  | .workflow call workflow, path, c => x.leaf path call.id c (x.runWorkflow call workflow c)
  | .hook h, path, c => x.leaf path h.id c fun _ => x.runHook h c
  | .sleep id duration, path, c => x.leaf path id c (x.runSleep duration)
  | .condition id predicate whenTrue whenFalse, path, c =>
    match predicate.holds x.engine.functions c with
    | .error f => concluded path id (.error f)
    | .ok true =>
      (walkList x whenTrue (path, .whenTrue) 0 c).andThen fun o =>
        concluded path id (chosen true o)
    | .ok false =>
      match whenFalse with
      | some steps =>
        (walkList x steps (path, .whenFalse) 0 c).andThen fun o =>
          concluded path id (chosen false o)
      | none => concluded path id (chosen false (.ok ⟨c, .null⟩))
  | .parallel id branches, path, c =>
    .fork (walkBranches x branches path 0 c.fork) fun outcomes =>
      concluded path id (x.gather id c outcomes)
  | .foreign call _, path, _ => concluded path call.id (.error (.unknownStepType "agent"))

/-- Carries out a list of steps that belongs to a step. -/
def walkList (x : Execution) :
    List Step → StepPath × Branch → Nat → Context → Fiber Outcome
  | [], _, _, c => .done (.ok ⟨c, .null⟩)
  | s :: rest, parent, index, c =>
    (walk x s (parent.1.child parent.2 index s.kind) c).andThen fun o =>
      match x.guarded s index c o with
      | .ok r => walkList x rest parent (index + 1) r.context
      | .error f => .done (.error f)

/-- The branches of a parallel step, each with the same context to start with. -/
def walkBranches (x : Execution) : List Step → StepPath → Nat → Context → List (Fiber Outcome)
  | [], _, _, _ => []
  | s :: rest, path, index, c =>
    walk x s (path.child .parallel index s.kind) c :: walkBranches x rest path (index + 1) c
end

end Execution

end Runbook
