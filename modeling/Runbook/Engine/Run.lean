import Runbook.Engine.Stored
import Runbook.Engine.Walk
import Runbook.Plan.Validation
import Runbook.Plan.View

/-!
# `Engine.Run` — runs, from their beginning or from a checkpoint

A run carries out the root list of its plan. Before each step of that list it saves a checkpoint;
its record says when it has begun and how it has ended.

## Contents
- **Acceptance.** `PlanSource` and `PlanSource.accept`.
- **The root list.** `Plan.stepsFrom`, `enter`, `walkRoot`, `conclude`, `carryOutFrom`.
- **Runs.** `Engine.run` and `Engine.resume`.
-/

namespace Runbook

/-! ## Acceptance -/

/-- A plan as it is handed in: a document, or a plan that has been read. -/
inductive PlanSource where
  | document (v : Value)
  | parsed (p : Plan)

namespace PlanSource

/-- The plan as a value. -/
def toValue : PlanSource → Value
  | .document v => v
  | .parsed p => p.toValue

/-- Reads the plan; what cannot be read counts as defects. -/
def read : PlanSource → Except Fault Plan
  | .parsed p => .ok p
  | .document v =>
    match Plan.ofValue v with
    | .ok p => .ok p
    | .bad problems => .error (.planInvalid (problems.map Issue.ofProblem))

/-- The plan, unless something keeps it from running. -/
def accept (source : PlanSource) : Except Fault Plan := do
  match (← validate source.toValue).filter Issue.isError with
  | [] => source.read
  | errors => throw (.planInvalid errors)

end PlanSource

/-! ## The root list -/

/-- The steps of the root list with their positions, from a position on. A position below zero counts
    from the end, and the whole list follows. -/
def Plan.stepsFrom (p : Plan) (start : Int) : Except Fault (List (Int × Step)) :=
  let numbered := p.steps.mapIdx fun i s => ((i : Int), s)
  if 0 ≤ start then .ok (numbered.drop start.toNat)
  else
    let back := (-start).toNat
    if p.steps.length < back then .error .noSuchPosition
    else
      let last := (p.steps.drop (p.steps.length - back)).mapIdx fun i s => ((i : Int) + start, s)
      .ok (last ++ numbered)

namespace Execution

/-- Begins a step of the root list. -/
def enter (x : Execution) (index : Int) (keepJournal : Bool) (c : Context) : Action Unit := do
  Action.call (.enterStep index c keepJournal)
  x.saveCheckpoint

/-- Carries out steps of the root list. Only the first one can have a journal from an earlier
    attempt. -/
def walkRoot (x : Execution) : List (Int × Step) → Bool → Context → Fiber Outcome
  | [], _, c => .done (.ok ⟨c, c.previous⟩)
  | (index, s) :: rest, keepJournal, c =>
    .ofAction (x.enter index keepJournal c) fun _ =>
      (x.walk s (.root index s.kind) c).andThen fun o =>
        match x.guarded s index c o with
        | .ok r => x.walkRoot rest false r.context
        | .error f => .done (.error f)

/-- Writes how the run ended. -/
def conclude (x : Execution) : Outcome → Action Finished
  | .error f => do
    x.writeRun
      [("status", .text "failed"), ("error", .object [("message", .text f.describe)])]
    throw f
  | .ok r => do
    x.enter x.plan.steps.length false r.context
    x.writeRun [("status", .text "completed"), ("result", r.context.previous)]
    return ⟨r.context, r.context.previous⟩

/-- Carries out the root list from the position of an attempt on. -/
def carryOutFrom (x : Execution) (a : Attempt) (keepJournal : Bool) : Fiber Outcome :=
  let walked : Fiber Outcome :=
    match x.plan.stepsFrom a.cursor with
    | .ok steps => x.walkRoot steps keepJournal a.base
    | .error f => .done (.error f)
  .ofAction (Action.call (.beginAttempt a)) fun _ =>
    walked.andThen fun o => .ofAction (x.conclude o) fun r => .done (.ok r)

end Execution

/-! ## Runs -/

namespace Engine

/-- The id of a new run. -/
def newRunId (given : Option String) : Action String :=
  match nonEmpty? given with
  | some id => return id
  | none => do return Digest.groupedText (← Action.call .freshId)

/-- The context with which a run of a plan begins. -/
def startContext (plan : Plan) (runId : String) : Context :=
  .start plan.input (some runId) plan.continueOnError

/-- Writes that a run has begun. -/
def announce (x : Execution) (executionId : Option String) : Action Unit :=
  x.writeRun
    [("status", .text "running"), ("execution_id", .ofText? executionId),
     ("metadata", .object [("config_id", .ofText? x.plan.id)])]

/-- Carries out a plan from its first step. -/
def run (e : Engine) (source : PlanSource) (runId executionId : Option String) : Fiber Outcome :=
  match source.accept with
  | .error f => .done (.error f)
  | .ok plan =>
    .ofAction (newRunId runId) fun runId =>
      let x : Execution := ⟨e, plan, runId⟩
      .ofAction (announce x executionId) fun _ =>
        x.carryOutFrom ⟨runId, 0, startContext plan runId, []⟩ false

/-- The outcome of a run that was completed before. -/
def completedBefore (plan : Plan) (record : RunRecord) (checkpoint : StoredCheckpoint) :
    Action Finished := do
  let context ←
    match checkpoint.context? with
    | some snapshot => Action.ofExcept (Context.restore snapshot)
    | none => pure (.start plan.input (some record.runId) false)
  Action.call (.beginAttempt ⟨record.runId, plan.steps.length, context, []⟩)
  return ⟨context, record.result⟩

/-- Continues an attempt from its checkpoint. -/
def continueFrom (x : Execution) (checkpoint : StoredCheckpoint) (snapshot : Value) :
    Fiber Outcome :=
  match (Context.restore snapshot).bind (checkpoint.toAttempt x.runId) with
  | .error f => .done (.error f)
  | .ok a =>
    .ofAction (x.writeRun [("status", .text "running")]) fun _ => x.carryOutFrom a true

/-- Continues a run with the record that was found of it. -/
def resumeRecord (e : Engine) (plan : Plan) (record : RunRecord) (runId : String) : Fiber Outcome :=
  match StoredCheckpoint.ofMetadata record.metadata with
  | .error f => .done (.error f)
  | .ok checkpoint =>
    if record.status = .completed then
      .ofAction (completedBefore plan { record with runId } checkpoint) fun r => .done (.ok r)
    else
      match checkpoint.context? with
      | some snapshot => continueFrom ⟨e, plan, runId⟩ checkpoint snapshot
      | none => e.run (.parsed plan) (some runId) record.executionId

/-- Continues a run from its last checkpoint. A run that was completed is not carried out again, and
    one without a checkpoint starts over under the same id. -/
def resume (e : Engine) (source : PlanSource) (runId : String) : Fiber Outcome :=
  match source.accept with
  | .error f => .done (.error f)
  | .ok plan =>
    .ofAction (Action.getRun runId) fun
      | none => .done (.error (.store (.noStatus runId)))
      | some record => e.resumeRecord plan record runId

end Engine

end Runbook
