import Runbook.Proofs.Lineage
import Runbook.Proofs.Standings

/-!
# `Proofs.Tellings` — what a trial tells the record of its run

A trial that begins an attempt first says that the run is under way. While steps are carried out it says only
that the run is paused or goes on. And whoever comes to the end of the attempt has told, last of all and only
then, how it has ended. A trial that begins no attempt tells nothing: it has found the run completed, or nothing
to continue.

## Contents
- **On the way.** `Call.Hushed`, calls that tell nothing; `Call.Midway`, and that the root list is carried out so.
- **Ends.** `RunRecord.endUpdate`; `carryOutFrom_ended`.
- **Trials.** `Legible`, a record that a trial can continue; `Telling`, with `run_tells` and `resume_tells`.
- **Chains.** `Trial.Attempts.tells`, and what trials leave behind.
-/

namespace Runbook

open RunRecord

/-! ## On the way -/

/-- Calls that do not touch the record of a run, and that nobody outside answers. -/
structure Call.Inner (c : Call) : Prop where
  writesRun : c.writesRun = false
  isOutside : c.isOutside = false

/-- **Calls that tell a run nothing**, and wait for no event. -/
structure Call.Hushed (id : String) (c : Call) : Prop where
  told : c.told id = []
  awaits : ∀ token seconds, c ≠ .awaitEvent token seconds

theorem Call.Hushed.of_inner {c : Call} (h : c.Inner) {id : String} : c.Hushed id where
  told := Call.told_of_writesRun h.writesRun id
  awaits token seconds := by
    rintro rfl
    exact absurd h.isOutside (by simp [Call.isOutside])

theorem Call.Hushed.save {id other : String} : (Call.saveCheckpoint other).Hushed id := ⟨rfl, by simp⟩

/-- **The calls of an attempt on the way**: if they touch the record of the run, they save, or say that the run
    is paused or goes on. -/
inductive Call.Midway (id : String) : Call → Prop where
  | other {c : Call} (h : c.writesRun = false) : Midway id c
  | save : Midway id (.saveCheckpoint id)
  | stands {s : RunStatus} (token : Option (Option String)) (h : s = .paused ∨ s = .running) :
      Midway id (.updateRun id (standsUpdate s token))

namespace Call.Midway

variable {id : String} {c : Call}

theorem informs (h : c.Midway id) : c.Informs id := by
  cases h with
  | other h => exact .other h
  | save => exact .save
  | stands token h => exact .tells (.stands token h)

/-- On the way nothing is told but a status and a token. -/
theorem told_eq (h : c.Midway id) :
    c.told id = [] ∨ ∃ s token, (s = .paused ∨ s = .running) ∧ c.told id = standsUpdate s token := by
  cases h with
  | other h => exact .inl (Call.told_of_writesRun h id)
  | save => exact .inl rfl
  | stands token h => exact .inr ⟨_, token, h, Call.told_updateRun ..⟩

theorem toldResult?_eq (h : c.Midway id) : toldResult? (c.told id) = none := by
  rcases h.told_eq with h | ⟨s, token, -, h⟩ <;> rw [h]
  · rfl
  · exact toldResult?_stands

theorem toldError?_eq (h : c.Midway id) : toldError? (c.told id) = none := by
  rcases h.told_eq with h | ⟨s, token, -, h⟩ <;> rw [h]
  · rfl
  · exact toldError?_stands

theorem toldStatus?_eq (h : c.Midway id) :
    ∀ s ∈ toldStatus? (c.told id), s = .paused ∨ s = .running := by
  rcases h.told_eq with h | ⟨s, token, hs, h⟩ <;> rw [h]
  · exact fun s hs => absurd hs (by simp [toldStatus?, Keyed.get?, RunStatus.ofValue, Value.text?, Checked.complain])
  · rw [toldStatus?_stands]
    rintro _ ⟨⟩
    exact hs

end Call.Midway

section

variable {pace : Clock → Clock → Prop} {x : Execution} {ds es : List Deed} {t u : Clock}
  {r : Option (Outcome × Clock)} {o : Outcome} {d : Deed}

/-- What is done for a step is done on the way. -/
theorem Execution.TreeCall.midway {q : StepPath} {c : Call} (h : x.TreeCall q c) : c.Midway x.runId := by
  cases h with
  | serves hserves =>
    cases hserves with
    | outside hout => exact .other (by cases c <;> first | rfl | simp [Call.isOutside] at hout)
    | save => exact .save
    | status hstatus =>
      obtain ⟨s, token, hs, rfl⟩ := tidings_of_status hstatus
      exact .stands token hs
    | _ => exact .other rfl
  | journal => exact .other rfl
  | report => exact .other rfl

theorem walk_midway {s : Step} {path : StepPath} {c : Context} (hproper : path.Proper)
    (hkind : path.kind? = some s.kind) (h : Fiber.Course pace t (x.walk s path c) ds r) :
    ∀ d ∈ ds, d.call.Midway x.runId := by
  intro d hd
  obtain ⟨q, -, -, -, hcall⟩ := (x.walk_parts s hproper hkind h d hd).treeCall
  exact hcall.midway

theorem enter_midway {k : Int} {keepJournal : Bool} {c : Context} {q : Option (Except Fault Unit × Clock)}
    (h : Program.Course pace none t (x.enter k keepJournal c).outcome ds q) :
    ∀ d ∈ ds, d.call.Midway x.runId := fun d hd =>
  (h.makes (P := fun c => c.Midway x.runId) (enter_makes (.other rfl) .save) d hd).2

/-- **The root list is carried out on the way**, by induction on what is left of it. -/
theorem walkRoot_midway {steps : List (Int × Step)} :
    ∀ {keepJournal : Bool} {c : Context} {t : Clock} {ds : List Deed} {r : Option (Outcome × Clock)},
      Fiber.Course pace t (x.walkRoot steps keepJournal c) ds r → ∀ d ∈ ds, d.call.Midway x.runId := by
  induction steps with
  | nil =>
    intro keepJournal c t ds r h d hd
    rw [h.of_done.1] at hd
    exact absurd hd List.not_mem_nil
  | cons entry rest ih =>
    obtain ⟨i, s⟩ := entry
    intro keepJournal c t ds r h d hd
    cases walkRoot_course h with
    | first henter => exact enter_midway henter d hd
    | both henter hbody =>
      rcases List.mem_append.mp hd with hd | hd
      · exact enter_midway henter d hd
      have htree {t ds r} (h : Fiber.Course pace t (x.walk s (.root i s.kind) c) ds r) :=
        walk_midway (StepPath.proper_root i s) rfl h
      cases hbody with
      | stopped hwalk | failed hwalk => exact htree hwalk d hd
      | goesOn hwalk _ hnext =>
        rcases List.mem_append.mp hd with hd | hd
        · exact htree hwalk d hd
        · exact ih hnext d hd

/-! ## Ends -/

/-- The update with which a run says how it has ended. -/
def RunRecord.endUpdate : Outcome → Keyed Value
  | .ok fin => completedUpdate fin.context
  | .error f => failedUpdate f

/-- The status with which a run ends. -/
def RunStatus.ofEnd (o : Outcome) : RunStatus := if o.isOk then .completed else .failed

theorem RunRecord.toldStatus?_end (o : Outcome) : toldStatus? (endUpdate o) = some (.ofEnd o) := by
  cases o <;> rfl

theorem RunRecord.toldToken?_end (o : Outcome) : toldToken? (endUpdate o) = none := by cases o <;> rfl

theorem writeRun_ended_eq {updates : Keyed Value} {q : Except Fault Unit × Clock}
    (h : Program.Course pace none t (x.writeRun updates).outcome ds (some q)) :
    ∃ d, ds = [d] ∧ d.step = none ∧ d.call = .updateRun x.runId updates := by
  cases h with
  | ask _ _ rest =>
    obtain ⟨rfl, -⟩ := rest.of_done
    exact ⟨_, rfl, rfl, rfl⟩

/-- **The end of a run is told last**, and nothing else is told then. -/
theorem conclude_ended {q : Except Fault Finished × Clock}
    (h : Program.Course pace none t (x.conclude o).outcome ds (some q)) :
    q.1 = concludedOutcome o ∧ ∃ es d, ds = es ++ [d] ∧ (∀ e ∈ es, e.call.Hushed x.runId ∧ e.step = none)
      ∧ (∀ e ∈ es, e.call.Midway x.runId) ∧ d.step = none
      ∧ d.call = .updateRun x.runId (endUpdate o) := by
  refine ⟨h.ends (conclude_ends o) _ rfl, ?_⟩
  cases ConclusionCourse.of_course h with
  | failed => exact ⟨[], _, rfl, by simp, by simp, rfl, rfl⟩
  | completed henter =>
    refine ⟨_, _, rfl, fun e he => ?_, enter_midway henter, rfl, rfl⟩
    obtain ⟨hnone, hsteady⟩ := henter.makes (P := Call.Hushed x.runId)
      (enter_makes (.of_inner ⟨rfl, rfl⟩) .save) e he
    exact ⟨hsteady, hnone⟩

theorem conclude_informs {q : Option (Except Fault Finished × Clock)}
    (h : Program.Course pace none t (x.conclude o).outcome ds q) : ∀ d ∈ ds, d.call.Informs x.runId := by
  have hmakes : (x.conclude o).Makes fun c => c.Informs x.runId := by
    cases o with
    | error f => exact Action.makes_bind (Action.makes_call (.tells (.failed f))) fun _ => Action.makes_throw _
    | ok fin =>
      refine Action.makes_bind (enter_makes (.other rfl) .save) fun _ => ?_
      exact Action.makes_bind (Action.makes_call (.tells (.completed _))) fun _ => Action.makes_pure _
  exact fun d hd => (h.makes hmakes d hd).2

/-- The root list from the position of an attempt on. -/
def Execution.walkFrom (x : Execution) (a : Attempt) (keepJournal : Bool) : Fiber Outcome :=
  match x.plan.stepsFrom a.cursor with
  | .ok steps => x.walkRoot steps keepJournal a.base
  | .error f => .done (.error f)

theorem walkFrom_midway {a : Attempt} {keepJournal : Bool}
    (h : Fiber.Course pace t (x.walkFrom a keepJournal) ds r) : ∀ d ∈ ds, d.call.Midway x.runId := by
  unfold Execution.walkFrom at h
  split at h
  · exact walkRoot_midway h
  · rw [h.of_done.1]
    exact fun d hd => absurd hd List.not_mem_nil

/-- **The deeds of an attempt that has ended**: it begins, the root list is carried out, and the end is told
    after everything else. -/
inductive Execution.Concluded (pace : Clock → Clock → Prop) (x : Execution) (a : Attempt) (keepJournal : Bool) :
    List Deed → Outcome → Prop where
  | intro {b d : Deed} {ws cs : List Deed} {t u : Clock} {o : Outcome} (hb : b.call = .beginAttempt a)
      (hwalk : Fiber.Course pace t (x.walkFrom a keepJournal) ws (some (o, u)))
      (hcs : ∀ e ∈ cs, e.call.Hushed x.runId ∧ e.step = none) (hmidway : ∀ e ∈ cs, e.call.Midway x.runId)
      (hd : d.call = .updateRun x.runId (endUpdate o)) :
      Concluded pace x a keepJournal (b :: ws ++ cs ++ [d]) (concludedOutcome o)

variable {a : Attempt} {keepJournal : Bool}

theorem carryOutFrom_walk (x : Execution) (a : Attempt) (keepJournal : Bool) :
    x.carryOutFrom a keepJournal
      = .ask (.beginAttempt a) fun _ => (x.walkFrom a keepJournal).andThen fun o =>
          (x.conclude o).outcome.toFiber none .done := by
  unfold Execution.carryOutFrom
  simp only [Fiber.ofAction_done]
  rfl

theorem carryOutFrom_ended (h : Fiber.Course pace t (x.carryOutFrom a keepJournal) ds (some (o, u))) :
    x.Concluded pace a keepJournal ds o := by
  rw [carryOutFrom_walk] at h
  cases h with
  | ask _ _ rest =>
    cases rest.of_andThen with
    | both hwalk hend =>
      obtain ⟨rfl, cs, d, rfl, hcs, hmidway, -, hd⟩ := conclude_ended hend.of_toFiber_done
      rw [← List.append_assoc, ← List.cons_append, ← List.cons_append]
      exact .intro rfl hwalk hcs hmidway hd

theorem carryOutFrom_informs (h : Fiber.Course pace t (x.carryOutFrom a keepJournal) ds r) :
    ∀ d ∈ ds, d.call.Informs x.runId := by
  rw [carryOutFrom_walk] at h
  intro d hd
  cases h with
  | stopped => exact absurd hd List.not_mem_nil
  | ask _ _ rest =>
    rcases List.mem_cons.mp hd with rfl | hd
    · exact .other rfl
    cases rest.of_andThen with
    | first hwalk => exact (walkFrom_midway hwalk d hd).informs
    | both hwalk hend =>
      rcases List.mem_append.mp hd with hd | hd
      · exact (walkFrom_midway hwalk d hd).informs
      · exact conclude_informs hend.of_toFiber_done d hd

/-- The end of an attempt is told of its outcome. -/
theorem endUpdate_concluded (o : Outcome) : endUpdate (concludedOutcome o) = endUpdate o := by cases o <;> rfl

end

/-! ## Trials -/

/-- **A record that can be continued**: its checkpoint, if it holds one, is that of an attempt. -/
def World.Legible (id : String) (w : World) : Prop :=
  ∀ data, w.checkpointOf id = some data → ∃ a : Attempt, data = a.written

theorem Backend.keeps_written (b : Backend) (a : Attempt) : b.keeps a.written = (b.keepsAttempt a).written := by
  simp only [Attempt.written, keepsAttempt, keeps_object, keepsFields_cons, keepsFields_nil, keeps_int,
    toValue_keepsContext]

theorem World.Legible.of_runs {w w' : World} {id : String} (hw : w.Legible id)
    (h : w'.stores.runs = w.stores.runs) : w'.Legible id := by
  rwa [Legible, checkpointOf, recordOf_congr h]

/-- **The step lemma**: a record that can be continued stays so. -/
theorem World.Legible.answers {w w' : World} {id : String} {d : Deed} (hw : w.Legible id) (h : w.Answers d w')
    (hd : d.call.Informs id) : w'.Legible id := by
  obtain ⟨step, call, answer, start, stop⟩ := d
  -- what a backend keeps of an attempt is an attempt again
  have hkept {b : Backend} {data : Value} (hdata : (w.checkpointOf id).map b.keeps = some data) :
      ∃ a : Attempt, data = a.written := by
    obtain ⟨data₀, hdata₀, rfl⟩ := Option.map_eq_some_iff.mp hdata
    obtain ⟨a, rfl⟩ := hw data₀ hdata₀
    exact ⟨_, b.keeps_written a⟩
  cases hd with
  | other hcall => rwa [Legible, h.checkpointOf_eq hcall]
  | save =>
    rw [h.saveCheckpoint_eq]
    rcases ({ w with clock := start } : World).checkpointOf_saveCheckpoint id with hlost | hsame | ⟨data, hdata, hnew⟩
    · exact fun data hdata => absurd (hlost.checkpointOf_eq.symm.trans hdata) (by simp)
    · exact fun data hdata => hw data (hsame ▸ hdata)
    · intro data' hdata'
      obtain rfl := Option.some.inj (hnew.symm.trans hdata')
      exact ⟨_, by rw [Attempt.eq_written hdata, Backend.keeps_written]⟩
  | tells htidings =>
    rw [h.updateRun_eq]
    rcases ({ w with clock := start } : World).checkpointOf_writeRun id htidings.spares id with hlost | hsame | hsame
    · exact fun data hdata => absurd (hlost.checkpointOf_eq.symm.trans hdata) (by simp)
    · exact fun data hdata => hw data (hsame ▸ hdata)
    · exact fun data hdata => hkept (hsame.symm.trans hdata)

/-- What is read of the checkpoint in a record that can be continued. -/
theorem World.Legible.found {w : World} {id : String} {record : RunRecord} (hw : w.Legible id)
    (hrecord : w.recordOf id = .ok (some record)) :
    ∃ checkpoint, StoredCheckpoint.ofMetadata record.metadata = .ok checkpoint
      ∧ (checkpoint.context? = none ∧ w.checkpointOf id = none
        ∨ ∃ a : Attempt, w.checkpointOf id = some a.written ∧ checkpoint.context? = some a.base.toValue
          ∧ (Context.restore a.base.toValue).bind (checkpoint.toAttempt id)
            = .ok ⟨id, a.cursor, a.base, a.journal⟩) := by
  have hcheckpoint : w.checkpointOf id = record.metadata.get? StoredCheckpoint.key := by
    rw [checkpointOf, hrecord]
  cases hdata : record.metadata.get? StoredCheckpoint.key with
  | none =>
    exact ⟨_, StoredCheckpoint.ofMetadata_none hdata, .inl ⟨rfl, hcheckpoint.trans hdata⟩⟩
  | some data =>
    obtain ⟨a, rfl⟩ := hw data (hcheckpoint.trans hdata)
    obtain ⟨checkpoint, hread, hcontext, hattempt⟩ := StoredCheckpoint.ofMetadata_written hdata
    refine ⟨checkpoint, hread, .inr ⟨a, hcheckpoint.trans hdata, hcontext, ?_⟩⟩
    rw [Context.restore_toValue]
    exact hattempt id a.base

/-- **Why a continuation is refused** before it begins an attempt: nothing is known of the run; or it has to
    start over, and what was read of its plan is not accepted. -/
inductive Execution.Refuses (x : Execution) (w : World) : Fault → Prop where
  | unknown (h : w.recordOf x.runId = .ok none) : Refuses x w (.store (.noStatus x.runId))
  | again {record : RunRecord} {f : Fault} (hrecord : w.recordOf x.runId = .ok (some record))
      (hstatus : record.status ≠ .completed) (hnone : w.checkpointOf x.runId = none)
      (haccept : (PlanSource.parsed x.plan).accept = .error f) : Refuses x w f

/-- The first update of an attempt: the run is announced, or continued. -/
inductive RunRecord.Opening : Keyed Value → Prop where
  | announced (plan : Plan) (executionId : Option String) : Opening (announcedUpdate plan executionId)
  | continued : Opening continuedUpdate

theorem RunRecord.Opening.tidings {updates : Keyed Value} (h : Opening updates) : Tidings updates := by
  cases h with
  | announced plan executionId => exact .begun plan executionId
  | continued => exact tidings_continued

/-- An opening says that the run is under way, and nothing else. -/
theorem RunRecord.Opening.told {updates : Keyed Value} (h : Opening updates) :
    toldStatus? updates = some .running ∧ toldToken? updates = none ∧ toldResult? updates = none
      ∧ toldError? updates = none := by
  cases h <;> exact ⟨rfl, rfl, rfl, rfl⟩

/-- **What a trial tells**: nothing, as long as it only prepares, or when it is refused, or when it finds the
    run completed; or that the run is under way, and then what its attempt tells. -/
inductive Execution.Telling (pace : Clock → Clock → Prop) (x : Execution) (w : World) (anew : Prop) :
    List Deed → Option (Outcome × Clock) → Prop where
  | prepared {ds : List Deed} (hds : ∀ d ∈ ds, d.call.Inner) : Telling pace x w anew ds none
  | refused {ds : List Deed} {f : Fault} {t : Clock} (hanew : ¬ anew)
      (hds : ∀ d ∈ ds, d.call.Inner) (hrefuses : x.Refuses w f) :
      Telling pace x w anew ds (some (.error f, t))
  | restored {record : RunRecord} {c : Context} {ds : List Deed} {t : Clock} (hanew : ¬ anew)
      (hds : ∀ d ∈ ds, d.call.Inner) (hrecord : w.recordOf x.runId = .ok (some record))
      (hstatus : record.status = .completed) : Telling pace x w anew ds (some (.ok ⟨c, record.result⟩, t))
  | told {a : Attempt} {keepJournal : Bool} {updates : Keyed Value} {ds es : List Deed} {d : Deed} {t : Clock}
      {r : Option (Outcome × Clock)} (hds : ∀ d ∈ ds, d.call.Inner)
      (hd : d.call = .updateRun x.runId updates) (hopening : Opening updates)
      (hcourse : Fiber.Course pace t (x.carryOutFrom a keepJournal) es r) :
      Telling pace x w anew (ds ++ d :: es) r

section

variable {pace : Clock → Clock → Prop} {x : Execution} {w w' : World} {anew : Prop} {ds es : List Deed}
  {t : Clock} {r : Option (Outcome × Clock)} {e : Engine} {source : PlanSource} {plan : Plan} {id : String}

theorem Execution.Telling.after (hds : ∀ d ∈ ds, d.call.Inner)
    (h : x.Telling pace w anew es r) : x.Telling pace w anew (ds ++ es) r := by
  have happend {es : List Deed} (hes : ∀ d ∈ es, d.call.Inner) :
      ∀ d ∈ ds ++ es, d.call.Inner :=
    fun d hd => (List.mem_append.mp hd).elim (hds d) (hes d)
  cases h with
  | prepared hes => exact .prepared (happend hes)
  | refused hanew hes hrefuses => exact .refused hanew (happend hes) hrefuses
  | restored hanew hes hrecord hstatus => exact .restored hanew (happend hes) hrecord hstatus
  | told hes hd hopening hcourse =>
    rw [← List.append_assoc]
    exact .told (happend hes) hd hopening hcourse

/-- An attempt that is opened. -/
theorem telling_of_opening {updates : Keyed Value} {a : Attempt} {keepJournal : Bool}
    (hopening : Opening updates)
    (h : Fiber.Course pace t (.ofAction (x.writeRun updates) fun _ => x.carryOutFrom a keepJournal) ds r) :
    x.Telling pace w anew ds r := by
  cases writeRun_then h with
  | first hwrite =>
    cases hwrite with
    | stopped => exact .prepared (List.forall_mem_nil _)
    | ask _ _ rest =>
      -- it is stopped right after the write
      obtain ⟨rfl, -⟩ := rest.of_done
      have hstopped : Fiber.Course pace t (x.carryOutFrom a keepJournal) [] none := .stopped
      exact .told (List.forall_mem_nil _) rfl hopening hstopped
  | both hwrite hattempt =>
    obtain ⟨d, rfl, -, hcall⟩ := writeRun_ended_eq hwrite
    exact .told (List.forall_mem_nil _) hcall hopening hattempt

/-- **A run** tells that it has begun, whatever is known of it. -/
theorem run_tells {given executionId : Option String} (haccept : source.accept = .ok plan)
    (hid : RunsAs given ds id) (w : World) (h : Fiber.Course pace t (e.run source given executionId) ds r) :
    (⟨e, plan, id⟩ : Execution).Telling pace w anew ds r := by
  have hdraws {ds q} (h : Program.Course pace none t (Engine.newRunId given).outcome ds q) :
      ∀ d ∈ ds, d.call.Inner := fun d hd =>
    (h.makes (P := Call.Inner) (newRunId_makes given ⟨rfl, rfl⟩) d hd).2
  cases run_then haccept h with
  | first hfirst => exact .prepared (hdraws hfirst)
  | both hfirst hrest =>
    obtain ⟨runId, rfl, hrest⟩ := hrest
    obtain rfl := hid.eq_of_course hfirst
    exact .after (hdraws hfirst) (telling_of_opening (.announced plan executionId) hrest)

/-- What is done of a run that was completed before, which only returns its result. -/
theorem completedBefore_makes (record : RunRecord) (checkpoint : StoredCheckpoint) :
    (Engine.completedBefore plan record checkpoint).outcome.Makes Call.Inner := by
  have hreturns (c : Context) : Action.Makes Call.Inner
      (do Action.call (.beginAttempt ⟨record.runId, plan.steps.length, c, []⟩)
          return (⟨c, record.result⟩ : Finished)) :=
    Action.makes_bind (Action.makes_call ⟨rfl, rfl⟩) fun _ => Action.makes_pure _
  unfold Engine.completedBefore
  dsimp only
  split
  · exact Action.makes_bind (Action.makes_ofExcept _) hreturns
  · exact Action.makes_pure_bind (hreturns _)

theorem completedBefore_tells {record : RunRecord} {checkpoint : StoredCheckpoint} {a : Attempt}
    (hrecord : w.recordOf id = .ok (some record)) (hstatus : record.status = .completed)
    (hcontext : checkpoint.context? = none ∨ checkpoint.context? = some a.base.toValue)
    (h : Program.Course pace none t
      (Engine.completedBefore plan { record with runId := id } checkpoint).outcome ds r) :
    (⟨e, plan, id⟩ : Execution).Telling pace w False ds r := by
  have hds : ∀ d ∈ ds, d.call.Inner := fun d hd =>
    (h.makes (completedBefore_makes _ checkpoint) d hd).2
  have hrestored {c : Context} (hends : ∀ res ∈ r, res.1 = .ok ⟨c, record.result⟩) :
      (⟨e, plan, id⟩ : Execution).Telling pace w False ds r := by
    cases r with
    | none => exact .prepared hds
    | some res =>
      obtain ⟨o, u⟩ := res
      obtain rfl : o = .ok ⟨c, record.result⟩ := hends _ rfl
      exact .restored False.elim hds hrecord hstatus
  rcases hcontext with hcontext | hcontext
  · exact hrestored (h.ends (completedBefore_ends (.inl ⟨hcontext, rfl⟩)))
  · exact hrestored (h.ends (completedBefore_ends (.inr ⟨_, hcontext, Context.restore_toValue _⟩)))

/-- **A continuation** of what was found of a run. -/
theorem resumeRecord_tells {record : RunRecord} (hid : id ≠ "") (hw : w.Legible id)
    (hrecord : w.recordOf id = .ok (some record))
    (h : Fiber.Course pace t (e.resumeRecord plan record id) ds r) :
    (⟨e, plan, id⟩ : Execution).Telling pace w False ds r := by
  obtain ⟨checkpoint, hcheckpoint, hcontext⟩ := hw.found hrecord
  have hread {checkpoint' : StoredCheckpoint}
      (h : StoredCheckpoint.ofMetadata record.metadata = .ok checkpoint') : checkpoint = checkpoint' :=
    Except.ok.inj (hcheckpoint.symm.trans h)
  cases RecordCourse.of_course h with
  | unreadable hunread => exact absurd (hunread.symm.trans hcheckpoint) (by simp)
  | completed hcheckpoint' hstatus hreturns =>
    -- nothing is left to do, and what was stored is returned
    obtain rfl := hread hcheckpoint'
    rcases hcontext with ⟨hnone, -⟩ | ⟨a, -, hsome, -⟩
    · exact completedBefore_tells (a := ⟨id, 0, Engine.startContext plan id, []⟩) hrecord hstatus (.inl hnone)
        hreturns
    · exact completedBefore_tells hrecord hstatus (.inr hsome) hreturns
  | refused hcheckpoint' hstatus hnone hrefuses hr =>
    -- nothing was saved, and the plan that was read is validated again
    obtain rfl := hread hcheckpoint'
    rcases hcontext with ⟨-, hunsaved⟩ | ⟨a, -, hsome, -⟩
    · cases r with
      | none => exact .prepared (List.forall_mem_nil _)
      | some res =>
        obtain rfl := hr res rfl
        exact .refused False.elim (List.forall_mem_nil _) (.again hrecord hstatus hunsaved hrefuses)
    · exact absurd (hnone.symm.trans hsome) (by simp)
  | afresh _ _ _ haccept hrun => exact run_tells haccept (.given (nonEmpty?_of_ne hid)) w hrun
  | unrestored hcheckpoint' _ hsnapshot hunrestored _ =>
    obtain rfl := hread hcheckpoint'
    rcases hcontext with ⟨hnone, -⟩ | ⟨a, -, hsome, hattempt⟩
    · exact absurd (hsnapshot.symm.trans hnone) (by simp)
    · obtain rfl := Option.some.inj (hsnapshot.symm.trans hsome)
      exact absurd (hunrestored.symm.trans hattempt) (by simp)
  | continued _ _ _ _ hcourse => exact telling_of_opening .continued hcourse

/-- **A continuation**, in a store that works, of a run whose record can be continued. -/
theorem resume_tells (haccept : source.accept = .ok plan) (hid : id ≠ "") (hworking : w.Working id)
    (hw : w.Legible id) (hadmits : w.Admits ds w')
    (h : Fiber.Course pace t (e.resume source id) ds r) :
    (⟨e, plan, id⟩ : Execution).Telling pace w False ds r := by
  have hlooks (answer : Except Fault StoreAnswer) (start stop : Clock) :
      ∀ d ∈ [(⟨none, .store (.getRun id), answer, start, stop⟩ : Deed)], d.call.Inner :=
    List.forall_mem_singleton.mpr ⟨rfl, rfl⟩
  -- the store answers with what it keeps
  have hanswers {answer start stop es}
      (hadmits : w.Admits (⟨none, .store (.getRun id), answer, start, stop⟩ :: es) w') :
      foundRun answer = w.recordOf id := by
    obtain ⟨w₁, hd, -⟩ := hadmits.of_cons
    exact hd.foundRun_eq hworking.isOpen
  cases ResumeCourse.of_course haccept h with
  | unbegun => exact .prepared (List.forall_mem_nil _)
  | failed hfound =>
    obtain ⟨existing, hexisting, -⟩ := hworking.record
    exact absurd (hfound.symm.trans ((hanswers hadmits).trans hexisting)) (by simp)
  | unknown hfound hr =>
    cases r with
    | none => exact .prepared (hlooks _ _ _)
    | some res =>
      obtain rfl := hr res rfl
      exact .refused False.elim (hlooks _ _ _) (.unknown ((hanswers hadmits).symm.trans hfound))
  | found hfound hrest =>
    exact .after (hlooks _ _ _) (resumeRecord_tells hid hw ((hanswers hadmits).symm.trans hfound) hrest)

/-- **Whatever a trial tells** are tidings. -/
theorem Execution.Telling.informs (h : x.Telling pace w anew ds r) : ∀ d ∈ ds, d.call.Informs x.runId := by
  cases h with
  | prepared hds => exact fun d hd => .other (hds d hd).writesRun
  | refused _ hds => exact fun d hd => .other (hds d hd).writesRun
  | restored _ hds => exact fun d hd => .other (hds d hd).writesRun
  | told hds hd hopening hcourse =>
    intro d' hd'
    rcases List.mem_append.mp hd' with hd' | hd'
    · exact .other (hds d' hd').writesRun
    · rcases List.mem_cons.mp hd' with rfl | hd'
      · exact hd ▸ .tells hopening.tidings
      · exact carryOutFrom_informs hcourse d' hd'

end

/-! ## Chains -/

/-- **A trial over a store that works**, at times that its backend can hold. -/
structure Trial.Served (a : Trial) : Prop where
  isOpen : a.before.stores.isOpen = true
  outage : a.before.stores.outage = .never
  timely : ∀ d ∈ a.deeds, d.Timely a.before.backend

section

variable {pace : Clock → Clock → Prop} {source : PlanSource} {plan : Plan} {id : String} {a : Trial}
  {runs : RunStore} {trials earlier later : List Trial}

/-- What an attempt tells. -/
theorem Trial.Attempts.tells (h : a.Attempts pace source id) (haccept : source.accept = .ok plan)
    (hid : id ≠ "") (hworking : a.before.Working id) (hlegible : a.before.Legible id) :
    ∃ anew, (⟨a.engine, plan, id⟩ : Execution).Telling pace a.before anew a.deeds a.result
      ∧ a.before.Admits a.deeds a.after := by
  cases h with
  | anew hid hruns => exact ⟨True, run_tells haccept hid _ hruns.course, hruns.admits⟩
  | again hruns =>
    exact ⟨False, resume_tells haccept hid hworking hlegible hruns.admits hruns.course, hruns.admits⟩

/-- **A trial of a run**: what it finds, what it tells, and what it leaves. -/
structure Trial.Recorded (pace : Clock → Clock → Prop) (plan : Plan) (id : String) (a : Trial) : Prop where
  working : a.before.Working id
  legible : a.before.Legible id
  tells : ∃ anew, (⟨a.engine, plan, id⟩ : Execution).Telling pace a.before anew a.deeds a.result
  admits : a.before.Admits a.deeds a.after

namespace Trial.Recorded

theorem informs (h : a.Recorded pace plan id) : ∀ d ∈ a.deeds, d.call.Informs id := by
  obtain ⟨anew, htells⟩ := h.tells
  exact htells.informs

/-- What a trial leaves can be continued, in a store that works. -/
theorem leaves (h : a.Recorded pace plan id) (hserved : a.Served) :
    a.after.Working id ∧ a.after.Legible id ∧ a.after.backend = a.before.backend := by
  obtain ⟨hworking, hbackend, -⟩ := h.working.admits h.admits h.informs hserved.timely
  exact ⟨hworking, h.admits.keeps (I := World.Legible id) (fun d hd _ _ hu hu' => hu.answers hu' (h.informs d hd))
    h.legible, hbackend⟩

end Trial.Recorded

/-- **The run lemma for chains.** Every trial finds a record that it can continue, in a store that works; and
    the record says what the earlier ones have told last. -/
theorem Attempted.recorded (h : Attempted pace source id runs trials) (haccept : source.accept = .ok plan)
    (hid : id ≠ "") (hserved : ∀ a ∈ trials, a.Served) (htrials : trials = earlier ++ a :: later) :
    ∀ {w : World}, w.stores.runs = runs → runs.Keeps id → w.Legible id →
      a.Recorded pace plan id ∧ a.before.backend = w.backend
        ∧ (a.before.standing id).token
          = ((w.standing id).afterAll (tidingsOf id (earlier.flatMap Trial.deeds))).token
        ∧ ((∀ b ∈ earlier, ∀ d ∈ b.deeds, d.Holdable w.backend id) →
          w.backend.keepsStanding (w.standing id) = w.standing id → a.before.standing id
            = w.backend.keepsStanding ((w.standing id).afterAll (tidingsOf id (earlier.flatMap Trial.deeds)))) := by
  -- by induction on the chain: what the first trial leaves is what the others find
  induction h generalizing earlier with
  | nil => exact absurd htrials (by simp)
  | @cons runs b rest hbefore hattempts hrest ih =>
    intro w hw hkeeps hlegible
    have hsame : b.before.stores.runs = w.stores.runs := hbefore.trans hw.symm
    have hbserved := hserved b List.mem_cons_self
    have hworking : b.before.Working id := ⟨hbserved.isOpen, hbserved.outage, hbefore ▸ hkeeps⟩
    have hlegible := hlegible.of_runs hsame
    obtain ⟨anew, htells, hadmits⟩ := hattempts.tells haccept hid hworking hlegible
    have hrecorded : b.Recorded pace plan id := ⟨hworking, hlegible, ⟨anew, htells⟩, hadmits⟩
    have hbackend : b.before.backend = w.backend := by rw [World.backend, hsame]
    have hstanding : b.before.standing id = w.standing id :=
      World.standing_congr (World.recordOf_congr hsame id)
    cases earlier with
    | nil =>
      obtain ⟨rfl, rfl⟩ := List.cons.inj htrials
      exact ⟨hrecorded, hbackend, congrArg Standing.token hstanding, fun _ hkept => hstanding.trans hkept.symm⟩
    | cons b' earlier =>
      obtain ⟨rfl, htail⟩ := List.cons.inj htrials
      obtain ⟨hafter, hafterlegible, hafterbackend⟩ := hrecorded.leaves hbserved
      obtain ⟨ha, habackend, htoken, hasaid⟩ := ih (fun c hc => hserved c (.tail _ hc)) htail (w := b.after) rfl
        hafter.record hafterlegible
      have hbackends := hafterbackend.trans hbackend
      obtain ⟨-, -, hbtoken, hbsaid⟩ := hworking.admits hadmits hrecorded.informs hbserved.timely
      refine ⟨ha, habackend.trans hbackends, ?_, fun hheld hkept => ?_⟩
      · rw [htoken, Standing.token_afterAll, hbtoken, ← Standing.token_afterAll, hstanding, List.flatMap_cons,
          tidingsOf_append, Standing.afterAll_append, Standing.token_afterAll, Standing.token_afterAll]
      · -- the backend keeps at last what it would have kept of it all at once
        rw [hasaid (fun c hc d hd => hbackends ▸ hheld c (.tail _ hc) d hd) hafter.keepsStanding, hbackends]
        rw [hbsaid fun d hd => hbackend ▸ hheld b List.mem_cons_self d hd, hbackend, hstanding,
          Standing.keepsStanding_afterAll, List.flatMap_cons, tidingsOf_append, Standing.afterAll_append]

end

end Runbook
