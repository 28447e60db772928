import Runbook.Proofs.Layout
import Runbook.Proofs.Onward
import Runbook.Proofs.RunUpdates

/-!
# `Proofs.Attempts` — what a trial consists of

A trial looks up what it needs and says that the run goes on; then it begins one attempt, from the first
step or from the checkpoint of the record, and carries out the root list from there. A trial that finds
the run completed only reads the checkpoint. Everything that is done for a step is done within the
attempt.

## Contents
- **Before the attempt.** `Call.Prepares`; `BeginsWith`, with what an attempt begins.
- **Trials.** `Undertakes`, with `run_undertakes` and `resume_undertakes`.
- **Within the attempt.** `Execution.Between`, the calls that are made for no step, and `OfAttempt`;
  `onward_layout` and `Undertakes.layout`.
-/

namespace Runbook

/-! ## Before the attempt -/

/-- **The calls before an attempt.** -/
inductive Call.Prepares (runId : String) : Call → Prop where
  | freshId : Prepares runId .freshId
  | look : Prepares runId (.store (.getRun runId))
  | update {updates : Keyed Value} (hcalm : RunRecord.Calm updates)
      (hspares : RunRecord.SparesCheckpoint updates) : Prepares runId (.updateRun runId updates)

/-- What is done before an attempt. -/
def Preparing (runId : String) (ds : List Deed) : Prop :=
  ∀ d ∈ ds, d.step = none ∧ d.call.Prepares runId

theorem Preparing.append {runId : String} {ds es : List Deed} (hds : Preparing runId ds)
    (hes : Preparing runId es) : Preparing runId (ds ++ es) := fun d hd =>
  (List.mem_append.mp hd).elim (hds d) (hes d)

/-- Calls that leave checkpoints alone. -/
def Call.Quiet (c : Call) : Prop := c.Orderly ∧ ∀ other, c ≠ .saveCheckpoint other

/-- What is done before an attempt leaves checkpoints alone. -/
theorem Call.Prepares.quiet {runId : String} {call : Call} (h : call.Prepares runId) :
    call.Quiet := by
  cases h with
  | freshId => exact ⟨.other rfl, nofun⟩
  | look => exact ⟨.other rfl, nofun⟩
  | update _ hspares => exact ⟨.update _ hspares, nofun⟩

theorem Call.quiet_beginAttempt (a : Attempt) : Quiet (.beginAttempt a) := ⟨.other rfl, nofun⟩

/-- The context of a checkpoint as it is restored: a new one if it holds none. -/
inductive StoredCheckpoint.Restores (plan : Plan) (runId : String) (checkpoint : StoredCheckpoint) :
    Context → Prop where
  | stored {snapshot : Value} {c : Context} (hsnapshot : checkpoint.context? = some snapshot)
      (hc : Context.restore snapshot = .ok c) : Restores plan runId checkpoint c
  | none (h : checkpoint.context? = none) :
      Restores plan runId checkpoint (.start plan.input (some runId) false)

/-- A run that can be continued, with the checkpoint of its record. -/
structure World.Continues (w : World) (runId : String) (checkpoint : StoredCheckpoint) : Prop where
  found : ∃ record, w.recordOf runId = .ok (some record) ∧ record.status ≠ .completed
    ∧ StoredCheckpoint.ofMetadata record.metadata = .ok checkpoint

/-- **With what an attempt begins**: with the first step, if it is to start anew or if the record holds no
    context; or else with what the checkpoint of the record says. -/
inductive Execution.BeginsWith (x : Execution) (w : World) (anew : Prop) : Attempt → Bool → Prop where
  | afresh (h : anew ∨ ∃ checkpoint, w.Continues x.runId checkpoint ∧ checkpoint.context? = none) :
      BeginsWith x w anew ⟨x.runId, 0, Engine.startContext x.plan x.runId, []⟩ false
  | again {checkpoint : StoredCheckpoint} {snapshot : Value} {a : Attempt} (hanew : ¬ anew)
      (hfound : w.Continues x.runId checkpoint) (hsnapshot : checkpoint.context? = some snapshot)
      (ha : (Context.restore snapshot).bind (checkpoint.toAttempt x.runId) = .ok a) :
      BeginsWith x w anew a true

/-! ## Trials -/

/-- **What a trial undertakes**: it prepares, and fails, unless it starts anew; it finds the run
    completed; or it prepares and begins an attempt. -/
inductive Execution.Undertakes (pace : Clock → Clock → Prop) (x : Execution) (w : World) (anew : Prop) :
    List Deed → Option (Outcome × Clock) → Prop where
  | prepared {ds : List Deed} {r : Option (Outcome × Clock)} (hds : Preparing x.runId ds)
      (hr : ∀ res ∈ r, ¬ anew ∧ ∃ f, res.1 = .error f) : Undertakes pace x w anew ds r
  | restored {record : RunRecord} {checkpoint : StoredCheckpoint} {c : Context} {ds es : List Deed}
      {r : Option (Outcome × Clock)} (hanew : ¬ anew)
      (hrecord : w.recordOf x.runId = .ok (some record))
      (hstatus : record.status = .completed)
      (hcheckpoint : StoredCheckpoint.ofMetadata record.metadata = .ok checkpoint)
      (hc : checkpoint.Restores x.plan x.runId c) (hds : Preparing x.runId ds)
      (hes : ∀ d ∈ es, d.step = none ∧ d.call = .beginAttempt ⟨x.runId, x.plan.steps.length, c, []⟩)
      (hr : ∀ res ∈ r, res.1 = .ok ⟨c, record.result⟩) : Undertakes pace x w anew (ds ++ es) r
  | attempted {a : Attempt} {keepJournal : Bool} {ds es : List Deed} {t : Clock}
      {r : Option (Outcome × Clock)} (hds : Preparing x.runId ds)
      (hbegins : x.BeginsWith w anew a keepJournal)
      (hcourse : Fiber.Course pace t (x.carryOutFrom a keepJournal) es r) :
      Undertakes pace x w anew (ds ++ es) r

section

variable {pace : Clock → Clock → Prop} {x : Execution} {w w' : World} {anew : Prop} {ds : List Deed}
  {t : Clock} {r : Option (Outcome × Clock)} {e : Engine} {source : PlanSource} {plan : Plan}
  {runId id : String}

theorem Execution.Undertakes.after (hds : Preparing x.runId ds) {es : List Deed}
    (h : x.Undertakes pace w anew es r) : x.Undertakes pace w anew (ds ++ es) r := by
  cases h with
  | prepared hes hr => exact .prepared (hds.append hes) hr
  | restored hanew hrecord hstatus hcheckpoint hc hfirst hes hr =>
    rw [← List.append_assoc]
    exact .restored hanew hrecord hstatus hcheckpoint hc (hds.append hfirst) hes hr
  | attempted hfirst hbegins hcourse =>
    rw [← List.append_assoc]
    exact .attempted (hds.append hfirst) hbegins hcourse

theorem Preparing.of_writeRun {updates : Keyed Value} (hcalm : RunRecord.Calm updates)
    (hspares : RunRecord.SparesCheckpoint updates) {q : Option (Except Fault Unit × Clock)}
    (h : Program.Course pace none t (x.writeRun updates).outcome ds q) : Preparing x.runId ds := by
  intro d hd
  obtain ⟨hstep, hcall⟩ := writeRun_course h d hd
  exact ⟨hstep, hcall ▸ .update hcalm hspares⟩

/-- **The id of a run**: the one that is given, or the one that is made of the number drawn first. -/
inductive RunsAs (given : Option String) (ds : List Deed) (id : String) : Prop where
  | given (h : nonEmpty? given = some id)
  | drawn {n : Nat} {start stop : Clock} {rest : List Deed} (h : nonEmpty? given = none)
      (hds : ds = ⟨none, .freshId, n, start, stop⟩ :: rest) (hid : Digest.groupedText n = id)

theorem RunsAs.ne_empty {given : Option String} (h : RunsAs given ds id) : id ≠ "" := by
  cases h with
  | given h => exact (nonEmpty?_eq_some h).2
  | drawn _ _ hid => exact hid ▸ groupedText_ne_empty _

/-- The id that a run has found is its id. -/
theorem RunsAs.eq_of_course {given : Option String} {es fs : List Deed} {u : Clock}
    (hid : RunsAs given (es ++ fs) id)
    (h : Program.Course pace none t (Engine.newRunId given).outcome es (some (.ok runId, u))) :
    runId = id := by
  unfold Engine.newRunId at h
  cases hid with
  | given hgiven =>
    rw [hgiven] at h
    exact Except.ok.inj (congrArg Prod.fst (h.of_done.2 _ rfl))
  | drawn hgiven hds hid =>
    rw [hgiven] at h
    cases h with
    | ask _ _ rest =>
      obtain ⟨hnil, hres⟩ := rest.of_done
      obtain ⟨hdeed, -⟩ := List.cons.inj hds
      cases hdeed
      rw [← hid]
      exact Except.ok.inj (congrArg Prod.fst (hres _ rfl))

/-- **A run** has an id, given or new, and starts anew. -/
theorem run_undertakes {given executionId : Option String} (haccept : source.accept = .ok plan)
    (hid : RunsAs given ds id) (w : World)
    (h : Fiber.Course pace t (e.run source given executionId) ds r) :
    (⟨e, plan, id⟩ : Execution).Undertakes pace w True ds r := by
  have hpreparing {ds q} (h : Program.Course pace none t (Engine.newRunId given).outcome ds q) :
      Preparing id ds := by
    intro d hd
    obtain ⟨hstep, hcall⟩ := h.makes (P := fun c => c = .freshId) (newRunId_makes given rfl) d hd
    exact ⟨hstep, hcall ▸ .freshId⟩
  have hcalm := RunRecord.calm_announced plan executionId
  have hspares := RunRecord.spares_announced plan executionId
  cases RunCourse.of_course haccept h with
  | naming hfirst => exact .prepared (hpreparing hfirst) (by simp)
  | announcing hfirst hwrite =>
    obtain rfl := hid.eq_of_course hfirst
    exact .after (hpreparing hfirst) (.prepared (.of_writeRun hcalm hspares hwrite) (by simp))
  | @attempting runId _ _ _ _ _ _ _ hfirst hwrite hattempt =>
    obtain rfl := hid.eq_of_course hfirst
    have hwrites : Preparing runId _ :=
      Preparing.of_writeRun (x := ⟨e, plan, runId⟩) hcalm hspares hwrite
    have hbegins : (⟨e, plan, runId⟩ : Execution).BeginsWith w True
        ⟨runId, 0, Engine.startContext plan runId, []⟩ false := .afresh (.inl trivial)
    exact .after (hpreparing hfirst) (.attempted hwrites hbegins hattempt)

/-- Nothing is done any more. -/
theorem Execution.Undertakes.of_failed {f : Fault} (hr : ∀ res ∈ r, res = (.error f, t)) :
    x.Undertakes pace w False [] r :=
  .prepared (fun d hd => absurd hd List.not_mem_nil) fun res hres => ⟨False.elim, f, by rw [hr res hres]⟩

/-- A run that starts over because nothing is stored of it. -/
theorem Execution.Undertakes.again (h : x.Undertakes pace w True ds r)
    (hanew : ∃ checkpoint, w.Continues x.runId checkpoint ∧ checkpoint.context? = none) :
    x.Undertakes pace w False ds r := by
  cases h with
  | prepared hds hr => exact .prepared hds fun res hres => absurd trivial (hr res hres).1
  | restored hanew => exact absurd trivial hanew
  | attempted hds hbegins hcourse =>
    cases hbegins with
    | afresh => exact .attempted hds (.afresh (.inr hanew)) hcourse
    | again hanew => exact absurd trivial hanew

/-- A run that was completed before. -/
theorem completedBefore_undertakes {record : RunRecord} {checkpoint : StoredCheckpoint}
    (hrecord : w.recordOf id = .ok (some record)) (hstatus : record.status = .completed)
    (hcheckpoint : StoredCheckpoint.ofMetadata record.metadata = .ok checkpoint)
    (h : Program.Course pace none t
      (Engine.completedBefore plan { record with runId := id } checkpoint).outcome ds r) :
    (⟨e, plan, id⟩ : Execution).Undertakes pace w False ds r := by
  unfold Engine.completedBefore at h
  have hlast {c : Context} (hc : checkpoint.Restores plan id c)
      (h : Program.Course pace none t
        (do Action.call (.beginAttempt ⟨id, plan.steps.length, c, []⟩)
            return (⟨c, record.result⟩ : Finished) : Action Finished).outcome ds r) :
      (⟨e, plan, id⟩ : Execution).Undertakes pace w False ds r := by
    have hnothing : Preparing id [] := fun d hd => absurd hd List.not_mem_nil
    rw [← List.nil_append ds]
    refine .restored False.elim hrecord hstatus hcheckpoint hc hnothing
      (h.makes (P := fun call => call = .beginAttempt ⟨id, plan.steps.length, c, []⟩) ?_)
      (h.ends (P := fun o => o = .ok ⟨c, record.result⟩) ?_)
    · exact ⟨rfl, fun _ => trivial⟩
    · exact fun _ => rfl
  cases hsnapshot : checkpoint.context? with
  | none =>
    rw [hsnapshot] at h
    exact hlast (.none hsnapshot) h
  | some snapshot =>
    rw [hsnapshot] at h
    cases hc : Context.restore snapshot with
    | ok c =>
      dsimp only at h
      rw [hc] at h
      exact hlast (.stored hsnapshot hc) h
    | error f =>
      dsimp only at h
      rw [hc, Action.outcome_error_bind] at h
      obtain ⟨rfl, hr⟩ := h.of_done
      exact .of_failed hr

/-- **A run that is continued** with the record that was found of it. -/
theorem resumeRecord_undertakes {record : RunRecord} (hid : id ≠ "")
    (hrecord : w.recordOf id = .ok (some record))
    (h : Fiber.Course pace t (e.resumeRecord plan record id) ds r) :
    (⟨e, plan, id⟩ : Execution).Undertakes pace w False ds r := by
  cases RecordCourse.of_course h with
  | unreadable _ hr => exact .of_failed hr
  | refused _ _ _ _ hr => exact .of_failed hr
  | unrestored _ _ _ _ hr => exact .of_failed hr
  | completed hcheckpoint hstatus hreturns =>
    exact completedBefore_undertakes hrecord hstatus hcheckpoint hreturns
  | @afresh checkpoint _ _ hcheckpoint hstatus hnone haccept hrun =>
    have hfound : w.Continues id checkpoint := ⟨record, hrecord, hstatus, hcheckpoint⟩
    exact (run_undertakes haccept (.given (nonEmpty?_of_ne hid)) w hrun).again ⟨checkpoint, hfound, hnone⟩
  | @continued checkpoint _ _ _ _ hcheckpoint hstatus hsnapshot ha hcourse =>
    have hfound : w.Continues id checkpoint := ⟨record, hrecord, hstatus, hcheckpoint⟩
    have hwrites {ds q} (h : Program.Course pace none t
        (Execution.writeRun ⟨e, plan, id⟩ [("status", .text "running")]).outcome ds q) : Preparing id ds :=
      Preparing.of_writeRun (x := ⟨e, plan, id⟩) RunRecord.calm_continued RunRecord.spares_continued h
    cases writeRun_then hcourse with
    | first hwrite => exact .prepared (hwrites hwrite) (by simp)
    | both hwrite hattempt =>
      exact .attempted (hwrites hwrite) (.again False.elim hfound hsnapshot ha) hattempt

/-- **A run that is continued.** -/
theorem resume_undertakes (haccept : source.accept = .ok plan) (hid : id ≠ "")
    (hadmits : w.Admits ds w') (h : Fiber.Course pace t (e.resume source id) ds r) :
    (⟨e, plan, id⟩ : Execution).Undertakes pace w False ds r := by
  have hlooks (answer : Except Fault StoreAnswer) (start stop : Clock) :
      Preparing id [⟨none, .store (.getRun id), answer, start, stop⟩] :=
    List.forall_mem_singleton.mpr ⟨rfl, .look⟩
  cases ResumeCourse.of_course haccept h with
  | unbegun => exact .prepared (fun d hd => absurd hd List.not_mem_nil) (by simp)
  | failed _ hr => exact .prepared (hlooks _ _ _) fun res hres => ⟨False.elim, _, congrArg Prod.fst (hr res hres)⟩
  | unknown _ hr => exact .prepared (hlooks _ _ _) fun res hres => ⟨False.elim, _, congrArg Prod.fst (hr res hres)⟩
  | found hfound hrest =>
    obtain ⟨w₁, hd, -⟩ := hadmits.of_cons
    exact .after (hlooks _ _ _) (resumeRecord_undertakes hid (hd.recordOf_of_found hfound) hrest)

/-! ## Within the attempt -/

/-- The calls of an attempt that are made for no step, once it has begun. -/
inductive Execution.Between (x : Execution) : Call → Prop where
  | enters (k : Int) (c : Context) (keepJournal : Bool) : Between x (.enterStep k c keepJournal)
  | saves (h : x.engine.checkpoints = true) : Between x (.saveCheckpoint x.runId)
  | updates {updates : Keyed Value} (hspares : RunRecord.SparesCheckpoint updates) :
      Between x (.updateRun x.runId updates)

variable {m : Nat} {keepJournal : Bool} {c : Context} {a : Attempt} {d : Deed}

theorem Execution.Between.orderly {call : Call} (h : x.Between call) : call.Orderly := by
  cases h with
  | enters => exact .other rfl
  | saves => exact .save _
  | updates hspares => exact .update _ hspares

/-- A step saves the run that it belongs to. -/
theorem Execution.TreeCall.save_own {q : StepPath} {c : Call} {runId : String} (h : x.TreeCall q c)
    (hc : c = .saveCheckpoint runId) : c = .saveCheckpoint x.runId := by
  cases h with
  | serves hserves =>
    cases hserves with
    | save => rfl
    | outside hout =>
      rw [hc] at hout
      exact absurd hout (by simp [Call.isOutside])
    | _ => exact absurd hc (by simp)
  | journal => exact absurd hc (by simp)
  | report => exact absurd hc (by simp)

/-- What is done for no step from a position of the root list on. -/
theorem onward_between (hm : m ≤ x.plan.steps.length)
    (h : Fiber.Course pace t (x.onward m keepJournal c) ds r) :
    ∀ d ∈ ds, d.step = none → x.Between d.call := by
  -- by induction on the number of steps that are left
  obtain ⟨k, hk⟩ : ∃ k, m + k = x.plan.steps.length := ⟨_, Nat.add_sub_cancel' hm⟩
  induction k using Nat.strongRecOn generalizing m keepJournal c ds t r with | _ k ih =>
  have henters {ds : List Deed} {keepJournal : Bool} {q : Option (Except Fault Unit × Clock)} {t : Clock}
      (h : Program.Course pace none t (x.enter m keepJournal c).outcome ds q) :
      ∀ d ∈ ds, x.Between d.call := by
    intro d hd
    rcases enter_course h with ⟨rfl, -⟩ | ⟨e, es, rfl, -, hcall, hes⟩
    · exact absurd hd List.not_mem_nil
    · rcases List.mem_cons.mp hd with rfl | hd
      · rw [hcall]
        exact .enters ..
      · obtain ⟨-, hsave, hcheckpoints⟩ := hes d hd
        rw [hsave]
        exact .saves hcheckpoints
  have hsteps {s : Step} {ds : List Deed} {t : Clock} {q : Option (Outcome × Clock)}
      (h : Fiber.Course pace t (x.walk s (.root m s.kind) c) ds q) : ∀ d ∈ ds, d.step ≠ none := by
    intro d hd
    obtain ⟨p, -, -, hp, -⟩ := (x.walk_parts s (StepPath.proper_root m s) rfl h d hd).treeCall
    simp [hp]
  cases onward_course hm h with
  | entering henter => exact fun d hd _ => henters henter d hd
  | entered henter hrest =>
    intro d hd hnone
    rcases List.mem_append.mp hd with hd | hd
    · exact henters henter d hd
    cases hrest with
    | inside _ hwalk => exact absurd hnone (hsteps hwalk d hd)
    | failed _ hwalk _ hes =>
      rcases List.mem_append.mp hd with hd | hd
      · exact absurd hnone (hsteps hwalk d hd)
      · rw [(hes d hd).2]
        exact .updates (RunRecord.spares_failed _)
    | on hs hwalk _ hnext =>
      rcases List.mem_append.mp hd with hd | hd
      · exact absurd hnone (hsteps hwalk d hd)
      · have hlt : m < x.plan.steps.length := (List.getElem?_eq_some_iff.mp hs).1
        exact ih (k - 1) (by omega) hlt hnext (by omega) d hd hnone
    | last _ hds =>
      rw [(hds d hd).2]
      exact .updates (RunRecord.spares_completed _)

/-- **Deeds of an attempt** that has begun: each one is for a step, or between the steps. -/
def Execution.OfAttempt (x : Execution) (ds : List Deed) : Prop :=
  ∀ d ∈ ds, (∃ q : StepPath, d.step = some q ∧ x.TreeCall q d.call)
    ∨ d.step = none ∧ x.Between d.call

/-- **What is left of the root list has a layout.** -/
theorem onward_layout (h : Fiber.Course pace t (x.onward m keepJournal c) ds r) :
    Layout pace x x.plan.Has (r ≠ none) ds := by
  have hroot {es : List Deed} {q : Option (Outcome × Clock)}
      (h : Fiber.Course pace t (x.walkRoot (numbered m (x.plan.steps.drop m)) keepJournal c) es q) :
      Layout pace x x.plan.Has (q ≠ none) es :=
    (Execution.walkRoot_layout (nodup_numbered m _) h).weaken (fun _ _ => Plan.has_of_rootSites)
      fun h => h
  unfold Execution.onward at h
  cases h.of_andThen with
  | first hwalk => exact hroot hwalk
  | both hwalk hend =>
    exact ((hroot hwalk).weaken (fun _ _ hs => hs) fun _ => by simp).before_none
      hend.of_toFiber_done.step_eq

theorem onward_ofAttempt (hm : m ≤ x.plan.steps.length)
    (h : Fiber.Course pace t (x.onward m keepJournal c) ds r) : x.OfAttempt ds := by
  intro d hd
  cases hstep : d.step with
  | none => exact .inr ⟨rfl, onward_between hm h d hd hstep⟩
  | some q => exact .inl ⟨q, rfl, (onward_layout h).treeCall hd hstep⟩

/-- An attempt begins within the plan, if the record is well stored. -/
theorem Execution.BeginsWith.cursor (hstored : w.WellStored x.plan.steps.length x.runId)
    (h : x.BeginsWith w anew a keepJournal) : ∃ m : Nat, a.cursor = m ∧ m ≤ x.plan.steps.length := by
  cases h with
  | afresh => exact ⟨0, rfl, Nat.zero_le _⟩
  | again _ hfound hsnapshot ha =>
    obtain ⟨record, hrecord, -, hcheckpoint⟩ := hfound
    rcases hstored.read hrecord hcheckpoint with ⟨-, hnone⟩ | ⟨k, j, hsound, hk, -⟩
    · exact absurd (hsnapshot.symm.trans hnone) (by simp)
    · obtain ⟨context, -, ha⟩ := Fault.bind_eq_ok.mp ha
      obtain ⟨hk', -⟩ := StoredCheckpoint.toAttempt_eq_ok ha
      obtain rfl := Except.ok.inj (hk.symm.trans hk')
      obtain ⟨m, hm⟩ := Int.eq_ofNat_of_zero_le hsound.nonneg
      have hle := hsound.le
      exact ⟨m, hm, by omega⟩

/-- **What is done in a trial has a layout**: it is done for the steps of the plan, for each alone. -/
theorem Execution.Undertakes.layout (h : x.Undertakes pace w anew ds r)
    (hstored : w.WellStored x.plan.steps.length x.runId) :
    Layout pace x x.plan.Has (r ≠ none) ds
      ∧ ∀ d ∈ ds, d.step = none →
          d.call.Prepares x.runId ∨ (∃ a, d.call = .beginAttempt a) ∨ x.Between d.call := by
  cases h with
  | prepared hds => exact ⟨.of_none fun d hd => (hds d hd).1, fun d hd _ => .inl (hds d hd).2⟩
  | restored _ _ _ _ _ hds hes =>
    refine ⟨.of_none fun d hd => ?_, fun d hd _ => ?_⟩ <;> rcases List.mem_append.mp hd with hd | hd
    · exact (hds d hd).1
    · exact (hes d hd).1
    · exact .inl (hds d hd).2
    · exact .inr (.inl ⟨_, (hes d hd).2⟩)
  | @attempted a keepJournal ds es _ _ hds hbegins hcourse =>
    obtain ⟨m, hm, hle⟩ := hbegins.cursor hstored
    rw [carryOutFrom_onward hm] at hcourse
    have hall : Layout pace x x.plan.Has (r ≠ none) es
        ∧ ∀ d ∈ es, d.step = none → (∃ a, d.call = .beginAttempt a) ∨ x.Between d.call := by
      cases hcourse with
      | stopped => exact ⟨.nil, fun d hd => absurd hd List.not_mem_nil⟩
      | ask _ _ rest =>
        refine ⟨(onward_layout rest).after_none (List.forall_mem_singleton.mpr rfl), fun d hd hnone => ?_⟩
        rcases List.mem_cons.mp hd with rfl | hd
        · exact .inl ⟨a, rfl⟩
        · exact .inr (onward_between hle rest d hd hnone)
    refine ⟨hall.1.after_none fun d hd => (hds d hd).1, fun d hd hnone => ?_⟩
    rcases List.mem_append.mp hd with hd | hd
    · exact .inl (hds d hd).2
    · exact .inr (hall.2 d hd hnone)

end

end Runbook
