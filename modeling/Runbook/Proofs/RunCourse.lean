import Runbook.Engine.Run
import Runbook.Proofs.Reports
import Runbook.Proofs.RunRecords

/-!
# `Proofs.RunCourse` — what runs do besides their steps

Between the steps of its root list a run writes: checkpoints when a step of the list begins, and in the
run record how far it is. None of these writes fails, and none is done on behalf of a step. What an
attempt, a run and a continuation can do is said once, case by case: later modules go through the cases.

## Contents
- **The root list.** `numbered`, its steps with their positions.
- **Plans.** `PlanSource.accept_eq_ok`, when a plan is accepted.
- **Writes.** The courses and ends of what is written, and `walkRoot_course`.
- **Silence.** What is done for no step and reports nothing.
- **Attempts.** `ConclusionCourse`, how an attempt is concluded, and `AttemptCourse`.
- **Runs.** `RunCourse`.
- **Continuations.** `RecordCourse`, for a record that was found, and `ResumeCourse`.
-/

namespace Runbook

variable {pace : Clock → Clock → Prop} {x : Execution} {ds : List Deed} {t : Clock}
  {k : Int}

/-! ## The root list -/

/-- The steps of a list with their positions, from a position on. -/
def numbered : Nat → List Step → List (Int × Step)
  | _, [] => []
  | i, s :: rest => (i, s) :: numbered (i + 1) rest

theorem mapIdx_eq_numbered (steps : List Step) : ∀ i : Nat,
    (steps.mapIdx fun j s => (((j + i : Nat) : Int), s)) = numbered i steps := by
  induction steps with
  | nil => intro i; rfl
  | cons s rest ih =>
    intro i
    rw [List.mapIdx_cons, numbered, ← ih (i + 1)]
    congr 1
    · simp
    · congr 1
      funext j s
      rw [Nat.add_right_comm, Nat.add_assoc]

theorem drop_numbered (steps : List Step) : ∀ i m : Nat,
    (numbered i steps).drop m = numbered (i + m) (steps.drop m) := by
  induction steps with
  | nil => intro i m; simp [numbered]
  | cons s rest ih =>
    intro i m
    cases m with
    | zero => rfl
    | succ m =>
      rw [numbered, List.drop_succ_cons, ih, List.drop_succ_cons]
      congr 1
      omega

/-- The steps from a position on. -/
theorem stepsFrom_ofNat (plan : Plan) (m : Nat) :
    plan.stepsFrom m = .ok (numbered m (plan.steps.drop m)) := by
  have h := drop_numbered plan.steps 0 m
  rw [Nat.zero_add, ← mapIdx_eq_numbered] at h
  simpa [Plan.stepsFrom] using h

/-! ## Plans -/

namespace PlanSource

/-- A plan is accepted when its check finds no error and it can be read. -/
theorem accept_eq_ok {source : PlanSource} {plan : Plan} :
    source.accept = .ok plan ↔ ∃ issues, validate source.toValue = .ok issues
      ∧ issues.filter Issue.isError = [] ∧ source.read = .ok plan := by
  unfold accept
  rw [Fault.bind_eq_ok]
  refine exists_congr fun issues => and_congr_right fun _ => ?_
  split
  · next hclean => simp [hclean]
  · next hne => exact iff_of_false (by simp [throw, throwThe, MonadExceptOf.throw]) fun h => hne h.1

theorem read_document_eq_ok {v : Value} {plan : Plan} :
    (document v).read = .ok plan ↔ Plan.ofValue v = .ok plan := by
  rw [read]
  split <;> simp_all

theorem eq_of_accept_parsed {plan plan' : Plan} (h : (parsed plan).accept = .ok plan') : plan' = plan := by
  obtain ⟨-, -, -, hread⟩ := accept_eq_ok.mp h
  exact (Except.ok.inj hread).symm

end PlanSource

/-! ## Writes -/

theorem saveCheckpoint_course {step : Option StepPath} {r : Option (Except Fault Unit × Clock)}
    (h : Program.Course pace step t x.saveCheckpoint.outcome ds r) :
    ∀ d ∈ ds, d.step = step ∧ d.call = .saveCheckpoint x.runId ∧ x.engine.checkpoints = true := by
  refine h.makes (P := fun c => c = .saveCheckpoint x.runId ∧ x.engine.checkpoints = true) ?_
  rw [Execution.outcome_saveCheckpoint]
  split
  · next hcheckpoints => exact ⟨⟨rfl, hcheckpoints⟩, fun _ => trivial⟩
  · trivial

/-- The course of the beginning of a step of the root list. -/
theorem enter_course {keepJournal : Bool} {c : Context} {r : Option (Except Fault Unit × Clock)}
    (h : Program.Course pace none t (x.enter k keepJournal c).outcome ds r) :
    (ds = [] ∧ r = none) ∨ ∃ d es, ds = d :: es ∧ d.step = none
      ∧ d.call = .enterStep k c keepJournal
      ∧ ∀ e ∈ es, e.step = none ∧ e.call = .saveCheckpoint x.runId
        ∧ x.engine.checkpoints = true := by
  have houtcome : (x.enter k keepJournal c).outcome
      = .ask (.enterStep k c keepJournal) fun _ => x.saveCheckpoint.outcome := rfl
  rw [houtcome] at h
  cases h with
  | stopped => exact .inl ⟨rfl, rfl⟩
  | ask _ _ rest => exact .inr ⟨_, _, rfl, rfl, rfl, saveCheckpoint_course rest⟩

theorem writeRun_course {step : Option StepPath} {updates : Keyed Value}
    {r : Option (Except Fault Unit × Clock)}
    (h : Program.Course pace step t (x.writeRun updates).outcome ds r) :
    ∀ d ∈ ds, d.step = step ∧ d.call = .updateRun x.runId updates :=
  h.makes (P := fun c => c = .updateRun x.runId updates) ⟨rfl, fun _ => trivial⟩

theorem saveCheckpoint_ends : x.saveCheckpoint.outcome.Ends fun o => o = .ok () := by
  rw [Execution.outcome_saveCheckpoint]
  split
  · exact fun _ => rfl
  · rfl

theorem enter_ends {keepJournal : Bool} {c : Context} :
    (x.enter k keepJournal c).outcome.Ends fun o => o = .ok () := fun _ => saveCheckpoint_ends

/-- The beginning of a step of the root list does not fail. -/
theorem enter_ended {keepJournal : Bool} {c : Context} {o : Except Fault Unit} {u : Clock}
    (h : Program.Course pace none t (x.enter k keepJournal c).outcome ds (some (o, u))) :
    o = .ok () := h.ends enter_ends (o, u) rfl

/-- **What the root list does**: each of its steps is entered, and then carried out. -/
theorem walkRoot_course {i : Int} {s : Step} {rest : List (Int × Step)} {keepJournal : Bool}
    {c : Context} {r : Option (Outcome × Clock)}
    (h : Fiber.Course pace t (x.walkRoot ((i, s) :: rest) keepJournal c) ds r) :
    InTurn (Program.Course pace none t (x.enter i keepJournal c).outcome)
      (fun _ u => Execution.StepThen pace x s (.root i s.kind) i c u (x.walkRoot rest false)) ds r := by
  have hends : (x.enter i keepJournal c).outcome.Ends fun o => ∃ v, o = .ok v :=
    fun _ => saveCheckpoint_ends.mono fun _ ho => ⟨_, ho⟩
  cases h.of_ofAction_ok hends with
  | first henter => exact .first henter
  | both henter hbody =>
    obtain ⟨_, rfl, hbody⟩ := hbody
    exact .both henter (.of_course hbody)

/-- To begin a step of the root list is to do something. -/
theorem enter_ne_nil {keepJournal : Bool} {c : Context} {res : Except Fault Unit × Clock}
    (h : Program.Course pace none t (x.enter k keepJournal c).outcome ds (some res)) : ds ≠ [] := by
  rcases enter_course h with ⟨-, hr⟩ | ⟨d, es, rfl, -⟩
  · exact absurd hr (by simp)
  · exact List.cons_ne_nil d es

/-- The attempt after the beginning of a step of the root list. -/
theorem attempt_of_enter {keepJournal : Bool} {c : Context} {res : Except Fault Unit × Clock}
    {w w' : World} (h : Program.Course pace none t (x.enter k keepJournal c).outcome ds (some res))
    (hadmits : w.Admits ds w') : w'.attempt = w.attempt.enter k c keepJournal := by
  rcases enter_course h with ⟨-, hr⟩ | ⟨d, es, rfl, -, hcall, hes⟩
  · exact absurd hr (by simp)
  · obtain ⟨w₁, hd, hrest⟩ := hadmits.of_cons
    refine hrest.keeps (I := fun w' => w'.attempt = w.attempt.enter k c keepJournal)
      (fun e he u u' hu hu' => ?_) (by rw [hd.attempt_eq, hcall]; rfl)
    rw [hu'.attempt_eq, (hes e he).2.1]
    exact hu

/-- The result of a run is the latest output at its end. -/
def concludedOutcome (o : Outcome) : Outcome := o.map fun r => ⟨r.context, r.context.previous⟩

/-- A run ends as its root list. -/
theorem conclude_ends (o : Outcome) :
    (x.conclude o).outcome.Ends fun o' => o' = concludedOutcome o := by
  cases o with
  | error f => exact fun _ => rfl
  | ok r =>
    unfold Execution.conclude
    rw [Action.outcome_bind]
    refine Program.ends_bind enter_ends fun o ho => ?_
    subst ho
    exact fun _ => rfl

/-! ## Silence -/

/-- What is done for no step, and reports nothing. -/
def Silent (ds : List Deed) : Prop := ∀ d ∈ ds, d.step = none ∧ d.call.report? = none

theorem Silent.of_course {α : Type} {p : Program α} {r : Option (α × Clock)}
    (h : Program.Course pace none t p ds r) (hp : p.Makes fun c => c.report? = none) : Silent ds :=
  h.makes hp

theorem saveCheckpoint_makes {P : Call → Prop} (h : P (.saveCheckpoint x.runId)) :
    x.saveCheckpoint.Makes P := by
  unfold Execution.saveCheckpoint
  split
  · exact Action.makes_call h
  · exact Action.makes_pure _

theorem enter_makes {P : Call → Prop} {keepJournal : Bool} {c : Context}
    (henter : P (.enterStep k c keepJournal)) (hsave : P (.saveCheckpoint x.runId)) :
    (x.enter k keepJournal c).Makes P :=
  Action.makes_bind (Action.makes_call henter) fun _ => saveCheckpoint_makes hsave

theorem conclude_makes {P : Call → Prop} (o : Outcome) (henter : ∀ k c, P (.enterStep k c false))
    (hsave : P (.saveCheckpoint x.runId)) (hwrite : ∀ updates, P (.updateRun x.runId updates)) :
    (x.conclude o).Makes P := by
  cases o with
  | error f => exact Action.makes_bind (Action.makes_call (hwrite _)) fun _ => Action.makes_throw _
  | ok r =>
    exact Action.makes_bind (enter_makes (henter _ _) hsave) fun _ =>
      Action.makes_bind (Action.makes_call (hwrite _)) fun _ => Action.makes_pure _

theorem makes_enter_silent {keepJournal : Bool} {c : Context} :
    (x.enter k keepJournal c).Makes fun c => c.report? = none := enter_makes rfl rfl

theorem makes_conclude_silent (o : Outcome) : (x.conclude o).Makes fun c => c.report? = none :=
  conclude_makes o (fun _ _ => rfl) rfl fun _ => rfl

/-! ## The beginning of a run -/

theorem groupedText_ne_empty (n : Nat) : Digest.groupedText n ≠ "" := by
  unfold Digest.groupedText
  intro h
  have := congrArg String.toList h
  simp at this

theorem nonEmpty?_eq_some {s : Option String} {id : String} (h : nonEmpty? s = some id) :
    s = some id ∧ id ≠ "" := by
  unfold nonEmpty? at h
  split at h
  · exact absurd h (by simp)
  · next hne =>
    subst h
    exact ⟨rfl, fun hid => hne (hid ▸ rfl)⟩

theorem newRunId_makes (given : Option String) {P : Call → Prop} (h : P .freshId) :
    (Engine.newRunId given).outcome.Makes P := by
  unfold Engine.newRunId
  split
  · trivial
  · exact ⟨h, fun _ => trivial⟩

/-- Every run has an id, which is not empty: the one that is given, if any. -/
theorem newRunId_ends (given : Option String) :
    (Engine.newRunId given).outcome.Ends fun o => ∃ id, o = .ok id ∧ id ≠ ""
      ∧ ∀ id', given = some id' → id' ≠ "" → id = id' := by
  unfold Engine.newRunId
  split
  · next id hid =>
    obtain ⟨rfl, hne⟩ := nonEmpty?_eq_some hid
    exact ⟨id, rfl, hne, fun id' h _ => Option.some.inj h⟩
  · next hid =>
    refine fun n => ⟨_, rfl, groupedText_ne_empty n, fun id' h hne => ?_⟩
    rw [h, nonEmpty?_of_ne hne] at hid
    exact absurd hid (by simp)

/-! ## Attempts -/

/-- An attempt that begins at a step of the root list. -/
theorem carryOutFrom_eq {a : Attempt} {m : Nat} (hm : a.cursor = m) (keepJournal : Bool) :
    x.carryOutFrom a keepJournal
      = .ask (.beginAttempt a) fun _ =>
          (x.walkRoot (numbered m (x.plan.steps.drop m)) keepJournal a.base).andThen fun o =>
            (x.conclude o).outcome.toFiber none .done := by
  unfold Execution.carryOutFrom
  rw [hm, stepsFrom_ofNat]
  simp only [Fiber.ofAction_done]
  rfl

section

variable {e : Engine} {source : PlanSource} {plan : Plan} {given executionId : Option String}
  {id : String} {r : Option (Outcome × Clock)}

/-- **How an attempt is concluded**: a failure is told at once; at the end of the root list the attempt is saved
    first. Nothing comes after the end was told. -/
inductive ConclusionCourse (pace : Clock → Clock → Prop) (x : Execution) (t : Clock) :
    Outcome → List Deed → Option (Outcome × Clock) → Prop where
  | untold {f : Fault} : ConclusionCourse pace x t (.error f) [] none
  | failed {f : Fault} {answer : Unit} {start stop : Clock} {r : Option (Outcome × Clock)}
      (hr : ∀ res ∈ r, res = (.error f, stop)) :
      ConclusionCourse pace x t (.error f)
        [⟨none, .updateRun x.runId (RunRecord.failedUpdate f), answer, start, stop⟩] r
  | entering {fin : Finished} {ds : List Deed} {q : Option (Except Fault Unit × Clock)}
      (henter : Program.Course pace none t (x.enter x.plan.steps.length false fin.context).outcome ds q) :
      ConclusionCourse pace x t (.ok fin) ds none
  | completed {fin : Finished} {u : Clock} {answer : Unit} {start stop : Clock}
      {ds : List Deed} {r : Option (Outcome × Clock)}
      (henter : Program.Course pace none t (x.enter x.plan.steps.length false fin.context).outcome ds
        (some (.ok (), u)))
      (hr : ∀ res ∈ r, res = (.ok ⟨fin.context, fin.context.previous⟩, stop)) :
      ConclusionCourse pace x t (.ok fin)
        (ds ++ [⟨none, .updateRun x.runId (RunRecord.completedUpdate fin.context), answer, start, stop⟩]) r

theorem ConclusionCourse.of_course {o : Outcome}
    (h : Program.Course pace none t (x.conclude o).outcome ds r) : ConclusionCourse pace x t o ds r := by
  cases o with
  | error f =>
    cases h with
    | stopped => exact .untold
    | ask _ _ hdone =>
      obtain ⟨rfl, hr⟩ := hdone.of_done
      exact .failed hr
  | ok fin =>
    unfold Execution.conclude at h
    cases h.of_bind_action with
    | first henter => exact .entering henter
    | both henter hrest =>
      obtain rfl := enter_ended henter
      cases hrest with
      | stopped =>
        rw [List.append_nil]
        exact .entering henter
      | ask _ _ hdone =>
        obtain ⟨rfl, hr⟩ := hdone.of_done
        exact .completed henter hr

/-- **What an attempt does** that begins at a step of the root list: it carries out the list from there on,
    and concludes. -/
inductive AttemptCourse (pace : Clock → Clock → Prop) (x : Execution) (a : Attempt) (m : Nat)
    (keepJournal : Bool) : List Deed → Option (Outcome × Clock) → Prop where
  | unbegun : AttemptCourse pace x a m keepJournal [] none
  | walking {answer : Unit} {start stop : Clock} {ds : List Deed}
      (hwalk : Fiber.Course pace stop
        (x.walkRoot (numbered m (x.plan.steps.drop m)) keepJournal a.base) ds none) :
      AttemptCourse pace x a m keepJournal (⟨none, .beginAttempt a, answer, start, stop⟩ :: ds) none
  | concluding {answer : Unit} {start stop u : Clock} {o : Outcome} {ds es : List Deed}
      {r : Option (Outcome × Clock)}
      (hwalk : Fiber.Course pace stop
        (x.walkRoot (numbered m (x.plan.steps.drop m)) keepJournal a.base) ds (some (o, u)))
      (hend : Program.Course pace none u (x.conclude o).outcome es r) :
      AttemptCourse pace x a m keepJournal
        (⟨none, .beginAttempt a, answer, start, stop⟩ :: (ds ++ es)) r

theorem AttemptCourse.of_course {a : Attempt} {m : Nat} {keepJournal : Bool} (hm : a.cursor = m)
    (h : Fiber.Course pace t (x.carryOutFrom a keepJournal) ds r) :
    AttemptCourse pace x a m keepJournal ds r := by
  rw [carryOutFrom_eq hm] at h
  cases h with
  | stopped => exact .unbegun
  | ask _ _ rest =>
    cases rest.of_andThen with
    | first hwalk => exact .walking hwalk
    | both hwalk hend => exact .concluding hwalk hend.of_toFiber_done

/-! ## Runs -/

/-- A write of the run record, and what follows it. -/
theorem writeRun_then {updates : Keyed Value} {next : Fiber Outcome}
    (h : Fiber.Course pace t (.ofAction (x.writeRun updates) fun _ => next) ds r) :
    InTurn (Program.Course pace none t (x.writeRun updates).outcome)
      (fun _ u => Fiber.Course pace u next) ds r := by
  have hends : (x.writeRun updates).outcome.Ends fun o => ∃ v, o = .ok v := fun _ => ⟨(), rfl⟩
  cases h.of_ofAction_ok hends with
  | first hwrite => exact .first hwrite
  | both hwrite hnext =>
    obtain ⟨-, -, hnext⟩ := hnext
    exact .both hwrite hnext

/-- **What a run does**: it is stopped before it has an id, or before it has told that it has begun; or
    it makes an attempt that begins with the first step. -/
inductive RunCourse (pace : Clock → Clock → Prop) (e : Engine) (plan : Plan)
    (given executionId : Option String) (t : Clock) : List Deed → Option (Outcome × Clock) → Prop where
  | naming {ds : List Deed} (hid : Program.Course pace none t (Engine.newRunId given).outcome ds none) :
      RunCourse pace e plan given executionId t ds none
  | announcing {runId : String} {u : Clock} {ds es : List Deed}
      (hid : Program.Course pace none t (Engine.newRunId given).outcome ds (some (.ok runId, u)))
      (hannounce : Program.Course pace none u
        (Engine.announce ⟨e, plan, runId⟩ executionId).outcome es none) :
      RunCourse pace e plan given executionId t (ds ++ es) none
  | attempting {runId : String} {u v : Clock} {o : Except Fault Unit} {ds es fs : List Deed}
      {r : Option (Outcome × Clock)}
      (hid : Program.Course pace none t (Engine.newRunId given).outcome ds (some (.ok runId, u)))
      (hannounce : Program.Course pace none u
        (Engine.announce ⟨e, plan, runId⟩ executionId).outcome es (some (o, v)))
      (hattempt : Fiber.Course pace v (Execution.carryOutFrom ⟨e, plan, runId⟩
        ⟨runId, 0, Engine.startContext plan runId, []⟩ false) fs r) :
      RunCourse pace e plan given executionId t (ds ++ (es ++ fs)) r

/-- A run has an id first, and then opens its attempt. -/
theorem run_then (haccept : source.accept = .ok plan)
    (h : Fiber.Course pace t (e.run source given executionId) ds r) :
    InTurn (Program.Course pace none t (Engine.newRunId given).outcome)
      (fun o u es r => ∃ runId, o = .ok runId ∧ Fiber.Course pace u
        (.ofAction (Engine.announce ⟨e, plan, runId⟩ executionId) fun _ =>
          Execution.carryOutFrom ⟨e, plan, runId⟩ ⟨runId, 0, Engine.startContext plan runId, []⟩ false)
        es r) ds r := by
  unfold Engine.run at h
  rw [haccept] at h
  exact h.of_ofAction_ok ((newRunId_ends given).mono fun _ ⟨id, hid, _⟩ => ⟨id, hid⟩)

theorem RunCourse.of_course (haccept : source.accept = .ok plan)
    (h : Fiber.Course pace t (e.run source given executionId) ds r) :
    RunCourse pace e plan given executionId t ds r := by
  cases run_then haccept h with
  | first hid => exact .naming hid
  | both hid hrest =>
    obtain ⟨runId, rfl, hrest⟩ := hrest
    cases writeRun_then hrest with
    | first hannounce => exact .announcing hid hannounce
    | both hannounce hattempt => exact .attempting hid hannounce hattempt

/-- Nothing is done with a plan that is refused. -/
theorem run_refused {f : Fault} (hrefuses : source.accept = .error f)
    (h : Fiber.Course pace t (e.run source given executionId) ds r) :
    ds = [] ∧ ∀ res ∈ r, res = (.error f, t) := by
  rw [Engine.run, hrefuses] at h
  exact h.of_done

/-! ## Continuations -/

/-- **What is done with a record** that was found: it cannot be read; or the run was completed before; or
    nothing was saved of it, and it starts over, if what was read of its plan is accepted; or it goes on
    from where it was saved, if that can be read. -/
inductive RecordCourse (pace : Clock → Clock → Prop) (e : Engine) (plan : Plan) (record : RunRecord)
    (id : String) (t : Clock) : List Deed → Option (Outcome × Clock) → Prop where
  | unreadable {f : Fault} {r : Option (Outcome × Clock)}
      (hcheckpoint : StoredCheckpoint.ofMetadata record.metadata = .error f)
      (hr : ∀ res ∈ r, res = (.error f, t)) : RecordCourse pace e plan record id t [] r
  | completed {checkpoint : StoredCheckpoint} {ds : List Deed} {r : Option (Outcome × Clock)}
      (hcheckpoint : StoredCheckpoint.ofMetadata record.metadata = .ok checkpoint)
      (hstatus : record.status = .completed)
      (hreturns : Program.Course pace none t
        (Engine.completedBefore plan { record with runId := id } checkpoint).outcome ds r) :
      RecordCourse pace e plan record id t ds r
  | refused {checkpoint : StoredCheckpoint} {f : Fault} {r : Option (Outcome × Clock)}
      (hcheckpoint : StoredCheckpoint.ofMetadata record.metadata = .ok checkpoint)
      (hstatus : record.status ≠ .completed) (hnone : checkpoint.context? = none)
      (hrefuses : (PlanSource.parsed plan).accept = .error f)
      (hr : ∀ res ∈ r, res = (.error f, t)) : RecordCourse pace e plan record id t [] r
  | afresh {checkpoint : StoredCheckpoint} {ds : List Deed} {r : Option (Outcome × Clock)}
      (hcheckpoint : StoredCheckpoint.ofMetadata record.metadata = .ok checkpoint)
      (hstatus : record.status ≠ .completed) (hnone : checkpoint.context? = none)
      (haccept : (PlanSource.parsed plan).accept = .ok plan)
      (hrun : Fiber.Course pace t (e.run (.parsed plan) (some id) record.executionId) ds r) :
      RecordCourse pace e plan record id t ds r
  | unrestored {checkpoint : StoredCheckpoint} {snapshot : Value} {f : Fault}
      {r : Option (Outcome × Clock)}
      (hcheckpoint : StoredCheckpoint.ofMetadata record.metadata = .ok checkpoint)
      (hstatus : record.status ≠ .completed) (hsnapshot : checkpoint.context? = some snapshot)
      (hattempt : (Context.restore snapshot).bind (checkpoint.toAttempt id) = .error f)
      (hr : ∀ res ∈ r, res = (.error f, t)) : RecordCourse pace e plan record id t [] r
  | continued {checkpoint : StoredCheckpoint} {snapshot : Value} {a : Attempt} {ds : List Deed}
      {r : Option (Outcome × Clock)}
      (hcheckpoint : StoredCheckpoint.ofMetadata record.metadata = .ok checkpoint)
      (hstatus : record.status ≠ .completed) (hsnapshot : checkpoint.context? = some snapshot)
      (hattempt : (Context.restore snapshot).bind (checkpoint.toAttempt id) = .ok a)
      (hcourse : Fiber.Course pace t
        (.ofAction (Execution.writeRun ⟨e, plan, id⟩ [("status", .text "running")]) fun _ =>
          Execution.carryOutFrom ⟨e, plan, id⟩ a true) ds r) :
      RecordCourse pace e plan record id t ds r

theorem RecordCourse.of_course {record : RunRecord}
    (h : Fiber.Course pace t (e.resumeRecord plan record id) ds r) :
    RecordCourse pace e plan record id t ds r := by
  unfold Engine.resumeRecord at h
  cases hcheckpoint : StoredCheckpoint.ofMetadata record.metadata with
  | error f =>
    rw [hcheckpoint] at h
    obtain ⟨rfl, hr⟩ := h.of_done
    exact .unreadable hcheckpoint hr
  | ok checkpoint =>
    rw [hcheckpoint] at h
    dsimp only at h
    by_cases hstatus : record.status = .completed
    · rw [if_pos hstatus, Fiber.ofAction_done] at h
      exact .completed hcheckpoint hstatus h.of_toFiber_done
    rw [if_neg hstatus] at h
    cases hsnapshot : checkpoint.context? with
    | none =>
      rw [hsnapshot] at h
      -- nothing was saved, so the plan is checked once more
      cases haccept : (PlanSource.parsed plan).accept with
      | error f =>
        obtain ⟨rfl, hr⟩ := run_refused haccept h
        exact .refused hcheckpoint hstatus hsnapshot haccept hr
      | ok plan' =>
        obtain rfl := PlanSource.eq_of_accept_parsed haccept
        exact .afresh hcheckpoint hstatus hsnapshot haccept h
    | some snapshot =>
      rw [hsnapshot] at h
      dsimp only [Engine.continueFrom] at h
      cases ha : (Context.restore snapshot).bind (checkpoint.toAttempt id) with
      | error f =>
        rw [ha] at h
        obtain ⟨rfl, hr⟩ := h.of_done
        exact .unrestored hcheckpoint hstatus hsnapshot ha hr
      | ok a =>
        rw [ha] at h
        exact .continued hcheckpoint hstatus hsnapshot ha h

/-- The record that an operation on the stores has found. -/
def foundRun : Except Fault StoreAnswer → Except Fault (Option RunRecord)
  | .ok (.run r) => .ok r
  | .ok _ => .ok none
  | .error f => .error f

theorem outcome_getRun (id : String) :
    (Action.getRun id).outcome = .ask (.store (.getRun id)) fun found => .done (foundRun found) := by
  unfold Action.getRun Action.store
  rw [Action.outcome_bind]
  change Program.ask _ _ = _
  congr 1
  funext found
  cases found with
  | error f => rfl
  | ok answer => cases answer <;> rfl

/-- **What a continuation does**: it looks for the record of the run. Without one it fails; with one it
    goes on. -/
inductive ResumeCourse (pace : Clock → Clock → Prop) (e : Engine) (plan : Plan) (id : String) :
    List Deed → Option (Outcome × Clock) → Prop where
  | unbegun : ResumeCourse pace e plan id [] none
  | failed {answer : Except Fault StoreAnswer} {start stop : Clock} {f : Fault}
      {r : Option (Outcome × Clock)} (hfound : foundRun answer = .error f)
      (hr : ∀ res ∈ r, res = (.error f, stop)) :
      ResumeCourse pace e plan id [⟨none, .store (.getRun id), answer, start, stop⟩] r
  | unknown {answer : Except Fault StoreAnswer} {start stop : Clock}
      {r : Option (Outcome × Clock)} (hfound : foundRun answer = .ok none)
      (hr : ∀ res ∈ r, res = (.error (.store (.noStatus id)), stop)) :
      ResumeCourse pace e plan id [⟨none, .store (.getRun id), answer, start, stop⟩] r
  | found {answer : Except Fault StoreAnswer} {start stop : Clock} {record : RunRecord}
      {ds : List Deed} {r : Option (Outcome × Clock)} (hfound : foundRun answer = .ok (some record))
      (hrest : Fiber.Course pace stop (e.resumeRecord plan record id) ds r) :
      ResumeCourse pace e plan id (⟨none, .store (.getRun id), answer, start, stop⟩ :: ds) r

/-- Nothing is done with a plan that is refused. -/
theorem resume_refused {f : Fault} (hrefuses : source.accept = .error f)
    (h : Fiber.Course pace t (e.resume source id) ds r) : ds = [] ∧ ∀ res ∈ r, res = (.error f, t) := by
  rw [Engine.resume, hrefuses] at h
  exact h.of_done

theorem ResumeCourse.of_course (haccept : source.accept = .ok plan)
    (h : Fiber.Course pace t (e.resume source id) ds r) : ResumeCourse pace e plan id ds r := by
  unfold Engine.resume at h
  rw [haccept] at h
  dsimp only [Fiber.ofAction] at h
  rw [outcome_getRun] at h
  cases h with
  | stopped => exact .unbegun
  | @ask _ _ _ _ _ _ answer _ _ _ _ rest =>
    dsimp only [Program.toFiber] at rest
    cases hfound : foundRun answer with
    | error f =>
      rw [hfound] at rest
      obtain ⟨rfl, hr⟩ := rest.of_done
      exact .failed hfound hr
    | ok found =>
      rw [hfound] at rest
      cases found with
      | none =>
        obtain ⟨rfl, hr⟩ := rest.of_done
        exact .unknown hfound hr
      | some record => exact .found hfound rest

end

end Runbook
