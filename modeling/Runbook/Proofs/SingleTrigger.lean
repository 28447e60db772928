import Runbook.Proofs.Attempts
import Runbook.Proofs.Triggers

/-!
# `Proofs.SingleTrigger` — a worker is started once, however often its run is

A run is attempted again and again, by `run` or by `resume`, over one store of jobs. Each attempt ends,
by returning or by failing. However many attempts there are, the trigger of a worker step is accepted at
most once: `worker_triggered_once`.

What joins the attempts is the job of the step, whose id depends only on the run and the path. An attempt
either leaves the job as spent as it was and has no trigger accepted, or it spends the job.

## Contents
- **Plans.** `Plan.OwnJob`.
- **One trial.** `Undertakes.spends`.
- **Chains.** `Restarts`, and `worker_triggered_once`.
-/

namespace Runbook

/-! ## Plans -/

/-- **A step with a job of its own**: no other leaf of the plan has a job with the same id. The ids are
    digests, so this is not a matter of the plan alone. -/
def Plan.OwnJob (p : Plan) (runId : String) (q : StepPath) : Prop :=
  ∀ (e : Engine) (q' : StepPath) (s : Step), p.Has q' s → s.isLeaf = true →
    Execution.jobId ⟨e, p, runId⟩ q'.text = Execution.jobId ⟨e, p, runId⟩ q.text → q' = q

/-- An accepted trigger of a step. -/
def Deed.triggers (q : StepPath) (d : Deed) : Bool := d.step = some q && d.call.accepted d.answer

/-! ## One trial -/

section

variable {pace : Clock → Clock → Prop} {x : Execution} {w w' : World} {anew : Prop} {ds : List Deed}
  {r : Option (Outcome × Clock)} {q : StepPath} {call : Capability} {worker : String}
  {poll : Option PollPolicy}

/-- What others do leaves the job of a step as it is. -/
theorem Layout.jobView_eq {ended : Prop} (h : Layout pace x x.plan.Has ended ds)
    (hnone : ∀ d ∈ ds, d.step = none →
      d.call.Prepares x.runId ∨ (∃ a, d.call = .beginAttempt a) ∨ x.Between d.call)
    (hown : x.plan.OwnJob x.runId q) {d : Deed} (hd : d ∈ ds) (hq : d.step ≠ some q) {u u' : World}
    (hu : u.Answers d u') : u'.jobView (x.jobId q.text) = u.jobView (x.jobId q.text) := by
  cases hstep : d.step with
  | none =>
    refine hu.jobView_eq ?_
    rcases hnone d hd hstep with hcall | ⟨a, hcall⟩ | hcall
    · generalize hc : d.call = c at hcall
      cases hcall with
      | look => exact .inr ⟨_, rfl⟩
      | _ => exact .inl rfl
    · rw [hcall]
      exact .inl rfl
    · generalize hc : d.call = c at hcall
      cases hcall <;> exact .inl rfl
  | some p =>
    rcases h.leaf_or_report hd hstep with ⟨s, hs, hleaf⟩ | ⟨report, hcall⟩
    · obtain ⟨hlocal, hpart⟩ := (h.treeCall hd hstep).isLocal
      refine hu.jobView_of_local hlocal fun part hmem heq => ?_
      rcases hpart part hmem with hentry | hjob
      · exact absurd (hentry.symm.trans heq) (by simp)
      · have hsame : x.jobId p.text = x.jobId q.text := Part.job.inj (hjob.symm.trans heq)
        exact hq (by rw [hstep, hown x.engine p s hs hleaf hsame])
    · exact hu.jobView_eq (.inl (by rw [hcall]; rfl))

/-- **In one trial** that has come to its end, the job of a worker step is spent at most once. -/
theorem Execution.Undertakes.spends (h : x.Undertakes pace w anew ds r)
    (hstored : w.WellStored x.plan.steps.length x.runId) (hended : r ≠ none)
    (hadmits : w.Admits ds w') (hworker : x.plan.Has q (.worker call worker poll))
    (hown : x.plan.OwnJob x.runId q) (hplain : ∀ d ∈ ds, d.call.leavesFlag d.answer = true) :
    Spends (w.jobView (x.jobId q.text), 0)
      (w'.jobView (x.jobId q.text), ds.countP (Deed.triggers q)) := by
  obtain ⟨hlayout, hnone⟩ := h.layout hstored
  have hfollows : Follows (JobStep (x.jobId q.text)) (w.jobView (x.jobId q.text)) (deedsFor q ds)
      (w'.jobView (x.jobId q.text)) := by
    refine World.Admits.follows (fun w => w.jobView (x.jobId q.text)) hadmits ?_ ?_
    · intro d hd hq u u' hu
      exact hlayout.jobView_eq hnone hown hd hq hu
    · intro d hd hq u u' hu
      exact hu.jobStep (hlayout.treeCall hd hq)
  have hcount : ds.countP (Deed.triggers q)
      = 0 + (deedsFor q ds).countP fun d => d.call.accepted d.answer := by
    rw [Nat.zero_add, deedsFor, List.countP_filter]
    refine List.countP_congr fun d _ => ?_
    simp [Deed.triggers, and_comm]
  rw [hcount]
  have hcounting := hfollows.counting (N := fun c answer => c.leavesFlag answer = true) Call.accepted
    (fun d hd => hplain d (mem_deedsFor.mp hd).1) 0
  -- what is done for the step is one course of it, up to its end
  have hdone := hlayout q
  generalize deedsFor q ds = es at hdone hcounting ⊢
  cases hdone with
  | nothing =>
    rw [hcounting.eq_of_nil]
    exact .refl _
  | @leaf s c t _ o hs hleaf hcourse hr =>
    obtain rfl := hs.unique hworker
    obtain ⟨body, hbody, hprogram⟩ := Execution.program_of_leaf hleaf hcourse
    obtain rfl := Option.some.inj hbody
    obtain ⟨res, rfl⟩ := Option.ne_none_iff_exists'.mp (hr hended)
    exact hprogram.heeds carryOut_spends hcounting res rfl
  | report hs hleaf =>
    obtain rfl := hs.unique hworker
    exact absurd hleaf (by simp [Step.isLeaf])

end

/-! ## Chains -/

/-- **An attempt at a run**, anew or going on. -/
inductive Trial.Attempts (pace : Clock → Clock → Prop) (source : PlanSource) (id : String) (a : Trial) :
    Prop where
  | anew {given executionId : Option String} (hid : RunsAs given a.deeds id)
      (hruns : a.before.Runs pace (a.engine.run source given executionId) a.deeds a.result a.after)
  | again (hruns : a.before.Runs pace (a.engine.resume source id) a.deeds a.result a.after)

/-- **One run, attempted again and again** over one store of jobs. Every attempt ends. The run records may
    be any, but a checkpoint that an attempt finds has been left by an earlier one. -/
inductive Restarts (pace : Clock → Clock → Prop) (source : PlanSource) (id : String) :
    JobStore → List Value → List Trial → Prop where
  | nil {jobs : JobStore} {left : List Value} : Restarts pace source id jobs left []
  | cons {jobs : JobStore} {left : List Value} {a : Trial} {rest : List Trial}
      (hjobs : a.before.stores.jobs = jobs) (hleft : ∀ data ∈ a.before.checkpointOf id, data ∈ left)
      (hattempts : a.Attempts pace source id) (hended : a.result ≠ none)
      (hrest : Restarts pace source id a.after.stores.jobs
        ((a.after.checkpointOf id).toList ++ left) rest) : Restarts pace source id jobs left (a :: rest)

section

variable {pace : Clock → Clock → Prop} {source : PlanSource} {plan : Plan} {id : String} {a : Trial}

/-- What an attempt undertakes, and that it leaves a record that is well stored. -/
theorem Trial.Attempts.undertakes (h : a.Attempts pace source id) (haccept : source.accept = .ok plan)
    (hid : id ≠ "") (hstored : a.before.WellStored plan.steps.length id) :
    a.before.Admits a.deeds a.after ∧ a.after.WellStored plan.steps.length id
      ∧ ∃ anew, (⟨a.engine, plan, id⟩ : Execution).Undertakes pace a.before anew a.deeds a.result := by
  -- of a place behind the end of the plan no checkpoint says that it has ended
  have hend : (StepPath.root plan.steps.length (Step.parallel none []).kind).Proper :=
    StepPath.proper_root ..
  cases h with
  | anew hgiven hruns =>
    have hundertakes := run_undertakes haccept hgiven a.before hruns.course
    have hfresh : ¬ a.before.StoredFinished id
        (.root plan.steps.length (Step.parallel none []).kind) := by
      rintro ⟨data, k, j, hdata, hsnapshot, hfinished⟩
      obtain ⟨k', j', hsnapshot', hsound⟩ := hstored data hdata
      obtain ⟨rfl, rfl⟩ := hsnapshot.eq hsnapshot'
      rcases hfinished with ⟨i, hi, hlt⟩ | ⟨fields, hsome, -⟩
      · have hi : (plan.steps.length : Int) = i := Option.some.inj hi
        have hle := hsound.le
        omega
      · have hhas := (Option.isSome_iff_exists.mpr ⟨_, hsome⟩ : Keyed.has j' _ = true)
        have hroot : (plan.steps.length : Int) = k' := Option.some.inj (hsound.keys _ hend hhas)
        have hne : j' ≠ [] := by
          rintro rfl
          simp [Keyed.get?] at hhas
        have hlt := hsound.inside hne
        omega
    have hthrough := run_through hend haccept rfl hstored hfresh hruns.course
    exact ⟨hruns.admits, hthrough.ends hruns.admits, True, hundertakes⟩
  | again hruns =>
    have hkeeps := (resume_keeps hend haccept hstored hruns).1
    exact ⟨hruns.admits, hkeeps, False, resume_undertakes haccept hid hruns.admits hruns.course⟩

theorem World.jobView_spent_congr {w w' : World} (h : w'.stores.jobs = w.stores.jobs) (jobId : String) :
    (w'.jobView jobId).Spent ↔ (w.jobView jobId).Spent := by
  have hfound : (w'.jobView jobId).found = (w.jobView jobId).found := by
    rw [World.found_jobView, World.found_jobView, h]
  rw [JobView.Spent, JobView.Spent, hfound]

/-- **The account of all attempts.** -/
theorem Restarts.spends {jobs : JobStore} {left : List Value} {trials : List Trial} {q : StepPath}
    {call : Capability} {worker : String} {poll : Option PollPolicy} (e : Engine)
    (h : Restarts pace source id jobs left trials)
    (hid : id ≠ "") (haccept : source.accept = .ok plan)
    (hworker : plan.Has q (.worker call worker poll)) (hown : plan.OwnJob id q)
    (hplain : ∀ a ∈ trials, ∀ d ∈ a.deeds, d.call.leavesFlag d.answer = true)
    (hleft : ∀ data ∈ left, ∃ k j, SnapshotOf data k j ∧ Sound plan.steps.length k j) :
    ∀ {w : World}, w.stores.jobs = jobs →
      (trials.flatMap Trial.deeds).countP (Deed.triggers q) ≤ 1
        ∧ ((w.jobView (Execution.jobId ⟨e, plan, id⟩ q.text)).Spent → (trials.flatMap Trial.deeds).countP (Deed.triggers q) = 0) := by
  induction h with
  | nil => exact fun _ => ⟨Nat.zero_le _, fun _ => rfl⟩
  | @cons jobs left a rest hjobs hfound hattempts hended hrest ih =>
    intro w hw
    have hstored : a.before.WellStored plan.steps.length id := fun data hdata =>
      hleft data (hfound data hdata)
    obtain ⟨hadmits, hafter, anew, hundertakes⟩ := hattempts.undertakes haccept hid hstored
    -- the id of the job does not depend on the engine
    have hspends : Spends (a.before.jobView (Execution.jobId ⟨e, plan, id⟩ q.text), 0)
        (a.after.jobView (Execution.jobId ⟨e, plan, id⟩ q.text), a.deeds.countP (Deed.triggers q)) :=
      hundertakes.spends hstored hended hadmits hworker hown (hplain a List.mem_cons_self)
    have hlater := ih (fun b hb => hplain b (.tail _ hb)) (fun data hdata => by
      rcases List.mem_append.mp hdata with hdata | hdata
      · exact hafter data (by simpa using hdata)
      · exact hleft data hdata) rfl
    have hsame := World.jobView_spent_congr (hjobs.trans hw.symm) (Execution.jobId ⟨e, plan, id⟩ q.text)
    rw [List.flatMap_cons, List.countP_append]
    rcases hspends with ⟨hcount, hspent⟩ | ⟨hcount, hbefore, hspent⟩
    · dsimp only at hcount hspent
      rw [hcount, Nat.zero_add]
      exact ⟨hlater.1, fun hw => hlater.2 (hspent (hsame.mpr hw))⟩
    · dsimp only at hcount hbefore hspent
      rw [hcount, hlater.2 hspent]
      exact ⟨Nat.le_refl 1, fun hw => absurd (hsame.mpr hw) hbefore⟩

/-- **A worker is started once.** Take any run that is attempted again and again over one store of jobs, by
    `run` or by `resume`, where every attempt ends. If no other leaf of the plan shares the job of a worker
    step, and no status reply names the flag of failed triggers in its metadata, then at most one trigger
    of the step was accepted. -/
theorem worker_triggered_once {jobs : JobStore} {trials : List Trial} {q : StepPath}
    {call : Capability} {worker : String} {poll : Option PollPolicy}
    (hrestarts : Restarts pace source id jobs [] trials)
    (hid : id ≠ "") (haccept : source.accept = .ok plan)
    (hworker : plan.Has q (.worker call worker poll)) (hown : plan.OwnJob id q)
    (hplain : ∀ a ∈ trials, ∀ d ∈ a.deeds, d.call.leavesFlag d.answer = true) :
    (trials.flatMap Trial.deeds).countP (Deed.triggers q) ≤ 1 := by
  cases hrestarts with
  | nil => exact Nat.zero_le _
  | @cons _ _ a rest hjobs hleft hattempts hended hrest =>
    exact ((Restarts.cons hjobs hleft hattempts hended hrest).spends a.engine hid haccept hworker hown
      hplain (fun data hdata => absurd hdata List.not_mem_nil) hjobs).1

end

/-! ### An instance -/

/-- One worker, whose end nobody waits for. -/
def oneWorker : PlanSource :=
  .document (.object
    [("steps", .list [.object [("type", .text "worker"), ("worker", .text "resize")]])])

/-- Surroundings in which every request is refused. -/
def refusing : Environment := .replying fun _ => { response := .ok ⟨500, "", .null⟩ }

/-- Surroundings in which every request is accepted. -/
def accepting : Environment := .replying fun _ => { response := .ok ⟨202, "", .object []⟩ }

/-- An attempt whose trigger is refused. -/
def refusedTrial : Trial :=
  .prompt plainEngine refusing {} (plainEngine.run oneWorker (some "run") none)

/-- The attempt that goes on from there; its trigger is accepted. -/
def acceptedTrial : Trial :=
  .prompt plainEngine accepting refusedTrial.after (plainEngine.resume oneWorker "run")

/-- An attempt that runs everything again. -/
def repeatedTrial : Trial :=
  .prompt plainEngine accepting acceptedTrial.after (plainEngine.run oneWorker (some "run") none)

/-- Of three attempts only the second one triggers the worker. -/
theorem resize_triggered_once :
    acceptedTrial.deeds.countP (Deed.triggers (.root 0 "worker")) = 1
      ∧ ([refusedTrial, acceptedTrial, repeatedTrial].flatMap Trial.deeds).countP
          (Deed.triggers (.root 0 "worker")) ≤ 1 := by
  obtain ⟨plan, call, poll, haccept, hsteps⟩ : ∃ plan call poll, oneWorker.accept = .ok plan
      ∧ plan.steps = [.worker call "resize" poll] := ⟨_, _, _, rfl, rfl⟩
  have hworker : plan.Has (.root 0 "worker") (.worker call "resize" poll) :=
    .root (i := 0) (by rw [hsteps]; rfl) .here
  have hown : plan.OwnJob "run" (.root 0 "worker") := by
    rintro e q' s ⟨hi, hs⟩ - -
    rw [hsteps, List.getElem?_singleton] at hi
    split at hi
    · next hi₀ =>
      obtain rfl := Option.some.inj hi
      cases hs with
      | here => rw [hi₀]; rfl
      | inside hj => simp [Step.listOf] at hj
    · exact absurd hi (by simp)
  have hfresh : World.checkpointOf {} "run" = none := rfl
  have hrestarts : Restarts (· ≤ ·) oneWorker "run" refusedTrial.before.stores.jobs []
      [refusedTrial, acceptedTrial, repeatedTrial] := by
    refine .cons rfl (fun data hdata => ?_) (.anew (.given rfl) (Trial.prompt_runs ..))
      (Option.some_ne_none _) ?_
    · exact absurd (hfresh.symm.trans hdata) (by simp)
    refine .cons rfl (fun data hdata => ?_) (.again (Trial.prompt_runs ..)) (Option.some_ne_none _) ?_
    · exact List.mem_append_left _ (Option.mem_toList.mpr hdata)
    refine .cons rfl (fun data hdata => ?_) (.anew (.given rfl) (Trial.prompt_runs ..))
      (Option.some_ne_none _) .nil
    exact List.mem_append_left _ (Option.mem_toList.mpr hdata)
  refine ⟨by decide +kernel, worker_triggered_once hrestarts (by decide) haccept hworker hown ?_⟩
  decide +kernel

end Runbook
