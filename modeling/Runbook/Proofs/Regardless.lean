import Runbook.Proofs.Bareness
import Runbook.Proofs.RunCourse
import Runbook.Proofs.StepCourse

/-!
# `Proofs.Regardless` — what becomes of its records makes no difference to a run

A run never asks for run records: it is blind to them. And to write checkpoints or not makes a difference to
run records only. So a run takes the same course whatever its store of run records does with the updates, and
whether checkpoints are kept or not: it makes the same requests and waits at the same times, and it ends the
same way.

## Contents
- **Composition.** Bare and blind forms of `bind`, `toFiber` and `andThen`; `Action.Alike`, actions with the
  same bare form.
- **Steps.** `Execution.walk_blind`, and `Execution.walk_alike`.
- **Runs.** `Engine.run_blind`, `Engine.run_alike`, and `run_regardless`.
-/

namespace Runbook

open Runbook.Action

/-! ## Composition -/

section

variable {α β ρ : Type}

theorem Program.bare_bind (p : Program α) (f : α → Program β) :
    (p.bind f).bare = p.bare.bind fun a => (f a).bare := by
  induction p with
  | done a => rfl
  | ask c next ih =>
    rw [Program.ask_bind, Program.bare, Program.bare]
    cases c.silent? with
    | some answer => exact ih answer
    | none =>
      rw [Program.ask_bind]
      exact congrArg (Program.ask c) (funext ih)

theorem Program.toFiber_bare (p : Program α) (step : Option StepPath) (f : α → Fiber ρ) :
    (p.toFiber step f).bare = p.bare.toFiber step fun a => (f a).bare := by
  induction p with
  | done a => rfl
  | ask c next ih =>
    rw [Program.toFiber, Fiber.bare, Program.bare]
    cases c.silent? with
    | some answer => exact ih answer
    | none =>
      rw [Program.toFiber]
      exact congrArg (fun next => Fiber.ask c next step) (funext ih)

theorem Program.toFiber_blind {p : Program α} (hp : p.Makes Call.Blind) (step : Option StepPath)
    {f : α → Fiber ρ} (hf : ∀ a, (f a).Blind) : (p.toFiber step f).Blind := by
  induction p with
  | done a => exact hf a
  | ask c next ih => exact ⟨hp.1, fun answer => ih answer (hp.2 answer)⟩

namespace Fiber

theorem andThen_bare (p : Fiber ρ) (f : ρ → Fiber ρ) :
    (p.andThen f).bare = p.bare.andThen fun o => (f o).bare := by
  induction p using Fiber.rec (motive_2 := fun _ => True) with
  | done outcome => rfl
  | ask c next step ih =>
    rw [andThen, bare, bare]
    cases c.silent? with
    | some answer => exact ih answer
    | none =>
      rw [andThen]
      exact congrArg (fun next => Fiber.ask c next step) (funext ih)
  | fork branches next _ ih => exact congrArg (Fiber.fork _) (funext ih)
  | nil => trivial
  | cons => trivial

theorem andThen_blind {p : Fiber ρ} (hp : p.Blind) {f : ρ → Fiber ρ} (hf : ∀ o, (f o).Blind) :
    (p.andThen f).Blind := by
  induction p using Fiber.rec (motive_2 := fun _ => True) with
  | done outcome => exact hf outcome
  | ask c next step ih => exact ⟨hp.1, fun answer => ih answer (hp.2 answer)⟩
  | fork branches next _ ih => exact ⟨hp.1, fun outcomes => ih outcomes (hp.2 outcomes)⟩
  | nil => trivial
  | cons => trivial

theorem ofAction_blind {a : Action α} (ha : a.Makes Call.Blind) {f : α → Fiber Outcome}
    (hf : ∀ v, (f v).Blind) (step : Option StepPath) : (ofAction a f step).Blind := by
  refine Program.toFiber_blind ha step fun o => ?_
  cases o with
  | ok v => exact hf v
  | error f => trivial

end Fiber

/-- Actions that differ in silent calls only. -/
def Action.Alike (a a' : Action α) : Prop := a.outcome.bare = a'.outcome.bare

namespace Action.Alike

variable {a a' : Action α}

theorem refl (a : Action α) : a.Alike a := Eq.refl _

theorem bind (ha : a.Alike a') {f f' : α → Action β} (hf : ∀ v, (f v).Alike (f' v)) :
    (a >>= f).Alike (a' >>= f') := by
  unfold Alike
  rw [outcome_bind, outcome_bind, Program.bare_bind, Program.bare_bind, show a.outcome.bare = _ from ha]
  congr 1
  funext o
  cases o with
  | ok v => exact hf v
  | error f => rfl

theorem toFiber (ha : a.Alike a') {f f' : α → Fiber Outcome} (hf : ∀ v, (f v).bare = (f' v).bare)
    (step : Option StepPath) : (Fiber.ofAction a f step).bare = (Fiber.ofAction a' f' step).bare := by
  unfold Fiber.ofAction
  rw [Program.toFiber_bare, Program.toFiber_bare, show a.outcome.bare = _ from ha]
  congr 1
  funext o
  cases o with
  | ok v => exact hf v
  | error f => rfl

end Action.Alike

end

/-! ## Steps -/

/-- An engine that keeps checkpoints or does not. -/
def Engine.saving (e : Engine) (checkpoints : Bool) : Engine := { e with checkpoints }

namespace Execution

/-- A plan that is carried out with checkpoints or without. -/
def saving (x : Execution) (checkpoints : Bool) : Execution := { x with engine := x.engine.saving checkpoints }

variable {x : Execution} {path : String} {c : Context} {b : Bool}

/-- What a step asks for is not a run record. -/
theorem Serves.blind {call : Call} (h : x.Serves path call) : call.Blind := by
  rintro op rfl
  cases h with
  | outside h => exact absurd h (by simp [Call.isOutside])
  | getJob | setJob => rfl

theorem saveCheckpoint_blind : x.saveCheckpoint.Makes Call.Blind :=
  saveCheckpoint_makes fun op h => absurd h (by simp)

theorem leaf_blind {body : String → Action Value} (q : StepPath) (id : Option String) (c : Context)
    (hbody : (body q.text).Makes Call.Blind) : (x.leaf q id c body).Blind := by
  have hjournal (path : String) (entry : Keyed Value) : (x.journal path entry).Makes Call.Blind :=
    makes_bind (makes_call fun op h => absurd h (by simp)) fun _ => saveCheckpoint_blind
  refine Fiber.ofAction_blind (f := fun r => .done (.ok r)) ?_ (fun _ => trivial) _
  unfold carryOut
  refine makes_bind (makes_call fun op h => absurd h (by simp)) fun found => ?_
  refine makes_bind (makes_ofExcept _) fun output => ?_
  cases output with
  | some output => exact makes_pure _
  | none =>
    refine makes_bind (makes_ofExcept _) fun error => ?_
    cases error with
    | some error => exact makes_throw _
    | none =>
      refine makes_bind (makes_lift hbody) fun o => ?_
      refine makes_bind (makes_call fun op h => absurd h (by simp)) fun _ => ?_
      cases o with
      | ok output => exact makes_bind (hjournal ..) fun _ => makes_pure _
      | error f =>
        refine makes_bind ?_ fun _ => makes_throw _
        unfold journalFault
        split
        · exact hjournal ..
        · exact makes_pure _

theorem handler_blind {s : Step} {body : String → Action Value} (h : x.handler? s c = some body)
    (q : StepPath) : (x.walk s q c).Blind := by
  rw [walk_of_handler h]
  exact leaf_blind q _ c (Program.Makes.mono (makes_handler h) fun _ hserves => hserves.blind)

theorem concluded_blind (q : StepPath) (id : Option String) (o : Outcome) : (concluded q id o).Blind :=
  ⟨fun op h => absurd h (by simp), fun _ => trivial⟩

mutual
/-- **A step is blind to run records.** -/
theorem walk_blind (x : Execution) : ∀ (s : Step) (q : StepPath) (c : Context), (x.walk s q c).Blind
  | .agent call agent, q, c => handler_blind rfl q
  | .worker call worker poll, q, c => handler_blind rfl q
  | .workflow call workflow, q, c => handler_blind rfl q
  | .hook h, q, c => handler_blind rfl q
  | .sleep id duration, q, c => handler_blind rfl q
  | .condition id predicate whenTrue whenFalse, q, c => by
    unfold walk
    split
    · exact concluded_blind ..
    · exact Fiber.andThen_blind (walkList_blind x whenTrue _ 0 c) fun o => concluded_blind ..
    · cases whenFalse with
      | some steps => exact Fiber.andThen_blind (walkList_blind x steps _ 0 c) fun o => concluded_blind ..
      | none => exact concluded_blind ..
  | .parallel id branches, q, c => by
    unfold walk
    exact ⟨walkBranches_blind x branches q 0 c.fork, fun outcomes => concluded_blind ..⟩
  | .foreign call _, q, c => by
    unfold walk
    exact concluded_blind ..

theorem walkList_blind (x : Execution) : ∀ (steps : List Step) (parent : StepPath × Branch) (i : Nat)
    (c : Context), (x.walkList steps parent i c).Blind
  | [], _, _, _ => trivial
  | s :: rest, parent, i, c => by
    unfold walkList
    refine Fiber.andThen_blind (walk_blind x s _ c) fun o => ?_
    split
    · exact walkList_blind x rest parent (i + 1) _
    · trivial

theorem walkBranches_blind (x : Execution) : ∀ (steps : List Step) (q : StepPath) (i : Nat) (c : Context),
    Fiber.AllBlind (x.walkBranches steps q i c)
  | [], _, _, _ => trivial
  | s :: rest, q, i, c => by
    unfold walkBranches
    exact ⟨walk_blind x s _ c, walkBranches_blind x rest q (i + 1) c⟩
end

/-! ### With checkpoints or without -/

theorem saveCheckpoint_alike : (x.saving b).saveCheckpoint.Alike x.saveCheckpoint := by
  have hsilent (x : Execution) : x.saveCheckpoint.outcome.bare = .done (.ok ()) := by
    unfold saveCheckpoint
    split <;> rfl
  exact (hsilent _).trans (hsilent _).symm

theorem note_alike (fields : Keyed Value) : ((x.saving b).note path fields).Alike (x.note path fields) :=
  .bind (.refl _) fun _ => .bind (.refl _) fun _ => saveCheckpoint_alike

theorem journal_alike (entry : Keyed Value) : ((x.saving b).journal path entry).Alike (x.journal path entry) :=
  .bind (.refl _) fun _ => saveCheckpoint_alike

theorem journalFault_alike (f : Fault) : ((x.saving b).journalFault path f).Alike (x.journalFault path f) := by
  unfold journalFault
  rw [show (x.saving b).plan = x.plan from rfl]
  split
  · exact journal_alike _
  · exact .refl _

theorem nestedRun_alike (workflow : String) (input : Value) :
    ((x.saving b).nestedRun workflow input path).Alike (x.nestedRun workflow input path) := by
  refine .bind (.refl _) fun found => ?_
  split
  · exact .bind (.refl _) fun _ => .bind (note_alike _) fun _ => .refl _
  · exact .refl _

theorem runWorkflow_alike (call : Capability) (workflow : String) (c : Context) :
    ((x.saving b).runWorkflow call workflow c path).Alike (x.runWorkflow call workflow c path) := by
  refine .bind (.refl _) fun input => ?_
  split
  · exact .bind (nestedRun_alike ..) fun _ => .refl _
  · exact .refl _

theorem wakeTime_alike (d : Duration) : ((x.saving b).wakeTime d path).Alike (x.wakeTime d path) := by
  refine .bind (.refl _) fun found => ?_
  cases found with
  | null =>
    exact .bind (.refl _) fun _ => .bind (.refl _) fun _ => .bind (note_alike _) fun _ => .refl _
  | _ => exact .refl _

theorem runSleep_alike (d : Duration) : ((x.saving b).runSleep d path).Alike (x.runSleep d path) :=
  .bind (wakeTime_alike d) fun _ => .refl _

theorem leaf_alike {body body' : String → Action Value} (q : StepPath) (id : Option String) (c : Context)
    (hbody : (body q.text).Alike (body' q.text)) :
    ((x.saving b).leaf q id c body).bare = (x.leaf q id c body').bare := by
  -- the journal is asked first; the handler is carried out only if it holds no entry
  refine Action.Alike.toFiber ?_ (fun _ => rfl) _
  refine .bind (.refl _) fun found => .bind (.refl _) fun output => ?_
  cases output with
  | some output => exact .refl _
  | none =>
    refine .bind (.refl _) fun error => ?_
    cases error with
    | some error => exact .refl _
    | none =>
      have hlift : Action.Alike (ExceptT.lift (body q.text).outcome)
          (ExceptT.lift (body' q.text).outcome) := by
        show Program.bare (Program.bind _ _) = Program.bare (Program.bind _ _)
        rw [Program.bare_bind, Program.bare_bind, show (body q.text).outcome.bare = _ from hbody]
      refine .bind hlift fun o => .bind (.refl _) fun _ => ?_
      cases o with
      | ok output => exact .bind (journal_alike _) fun _ => .refl _
      | error f =>
        refine .bind ?_ fun _ => .refl _
        exact journalFault_alike f

mutual
/-- **A step with checkpoints and without** differs in silent calls only. -/
theorem walk_alike (x : Execution) (b : Bool) : ∀ (s : Step) (q : StepPath) (c : Context),
    ((x.saving b).walk s q c).bare = (x.walk s q c).bare
  | .agent call agent, q, c => by
    unfold walk
    exact leaf_alike q _ c (.refl _)
  | .worker call worker poll, q, c => by
    unfold walk
    exact leaf_alike q _ c (.refl _)
  | .workflow call workflow, q, c => by
    unfold walk
    exact leaf_alike q _ c (runWorkflow_alike call workflow c)
  | .hook h, q, c => by
    unfold walk
    exact leaf_alike q _ c (.refl _)
  | .sleep id duration, q, c => by
    unfold walk
    exact leaf_alike q _ c (runSleep_alike duration)
  | .condition id predicate whenTrue whenFalse, q, c => by
    unfold walk
    rw [show (x.saving b).engine.functions = x.engine.functions from rfl]
    split
    · rfl
    · rw [Fiber.andThen_bare, Fiber.andThen_bare, walkList_alike x b whenTrue]
    · cases whenFalse with
      | some steps => dsimp only; rw [Fiber.andThen_bare, Fiber.andThen_bare, walkList_alike x b steps]
      | none => rfl
  | .parallel id branches, q, c => by
    unfold walk
    rw [Fiber.bare, Fiber.bare, walkBranches_alike x b branches]
    rfl
  | .foreign call _, q, c => by
    unfold walk
    rfl

theorem walkList_alike (x : Execution) (b : Bool) : ∀ (steps : List Step) (parent : StepPath × Branch)
    (i : Nat) (c : Context),
    ((x.saving b).walkList steps parent i c).bare = (x.walkList steps parent i c).bare
  | [], _, _, _ => rfl
  | s :: rest, parent, i, c => by
    unfold walkList
    rw [Fiber.andThen_bare, Fiber.andThen_bare, walk_alike x b s]
    congr 1
    funext o
    rw [show (x.saving b).guarded s i c o = x.guarded s i c o from rfl]
    split
    · exact walkList_alike x b rest parent (i + 1) _
    · rfl

theorem walkBranches_alike (x : Execution) (b : Bool) : ∀ (steps : List Step) (q : StepPath) (i : Nat)
    (c : Context), Fiber.bareAll ((x.saving b).walkBranches steps q i c)
      = Fiber.bareAll (x.walkBranches steps q i c)
  | [], _, _, _ => rfl
  | s :: rest, q, i, c => by
    unfold walkBranches
    rw [Fiber.bareAll, Fiber.bareAll, walk_alike x b s, walkBranches_alike x b rest]
end

/-! ## Runs -/

theorem walkRoot_blind (x : Execution) : ∀ (steps : List (Int × Step)) (keepJournal : Bool) (c : Context),
    (x.walkRoot steps keepJournal c).Blind
  | [], _, _ => trivial
  | (index, s) :: rest, keepJournal, c => by
    unfold walkRoot
    have henter : (x.enter index keepJournal c).Makes Call.Blind :=
      enter_makes (fun op h => absurd h (by simp)) fun op h => absurd h (by simp)
    refine Fiber.ofAction_blind henter (fun _ => Fiber.andThen_blind (x.walk_blind s _ c) fun o => ?_) _
    split
    · exact walkRoot_blind x rest false _
    · trivial

theorem walkRoot_alike (x : Execution) (b : Bool) : ∀ (steps : List (Int × Step)) (keepJournal : Bool)
    (c : Context), ((x.saving b).walkRoot steps keepJournal c).bare = (x.walkRoot steps keepJournal c).bare
  | [], _, _ => rfl
  | (index, s) :: rest, keepJournal, c => by
    unfold walkRoot
    have henter : ((x.saving b).enter index keepJournal c).Alike (x.enter index keepJournal c) :=
      .bind (.refl _) fun _ => saveCheckpoint_alike
    refine henter.toFiber (fun _ => ?_) _
    rw [Fiber.andThen_bare, Fiber.andThen_bare, x.walk_alike b s]
    congr 1
    funext o
    rw [show (x.saving b).guarded s index c o = x.guarded s index c o from rfl]
    split
    · exact walkRoot_alike x b rest false _
    · rfl

theorem carryOutFrom_blind (x : Execution) (a : Attempt) (keepJournal : Bool) :
    (x.carryOutFrom a keepJournal).Blind := by
  unfold carryOutFrom
  have hbegin : (Action.call (.beginAttempt a)).Makes Call.Blind :=
    makes_call fun op h => absurd h (by simp)
  refine Fiber.ofAction_blind hbegin (fun _ => Fiber.andThen_blind ?_ fun o => ?_) _
  · split
    · exact x.walkRoot_blind ..
    · trivial
  · refine Fiber.ofAction_blind (f := fun r => .done (.ok r)) ?_ (fun _ => trivial) _
    exact conclude_makes o (fun _ _ op h => absurd h (by simp)) (fun op h => absurd h (by simp))
      fun _ op h => absurd h (by simp)

theorem conclude_alike (o : Outcome) : ((x.saving b).conclude o).Alike (x.conclude o) := by
  cases o with
  | error f => exact .refl _
  | ok r =>
    have henter : ((x.saving b).enter x.plan.steps.length false r.context).Alike
        (x.enter x.plan.steps.length false r.context) := .bind (.refl _) fun _ => saveCheckpoint_alike
    exact .bind henter fun _ => .refl _

theorem carryOutFrom_alike (x : Execution) (b : Bool) (a : Attempt) (keepJournal : Bool) :
    ((x.saving b).carryOutFrom a keepJournal).bare = (x.carryOutFrom a keepJournal).bare := by
  unfold carryOutFrom
  rw [show (x.saving b).plan = x.plan from rfl]
  refine Action.Alike.toFiber (.refl _) (fun _ => ?_) _
  rw [Fiber.andThen_bare, Fiber.andThen_bare]
  congr 1
  · split
    · exact x.walkRoot_alike b ..
    · rfl
  · funext o
    exact (conclude_alike o).toFiber (fun _ => rfl) _

end Execution

section

variable (e : Engine) (source : PlanSource) (runId executionId : Option String)

/-- **A run is blind to run records.** -/
theorem Engine.run_blind : (e.run source runId executionId).Blind := by
  unfold run
  split
  · trivial
  · next plan _ =>
    have hname : (newRunId runId).Makes Call.Blind :=
      newRunId_makes runId fun op h => absurd h (by simp)
    have hannounce (x : Execution) : (announce x executionId).Makes Call.Blind :=
      makes_call fun op h => absurd h (by simp)
    exact Fiber.ofAction_blind hname (fun id => Fiber.ofAction_blind (hannounce _)
      (fun _ => Execution.carryOutFrom_blind ..) _) _

/-- **A run with checkpoints and without** differs in silent calls only. -/
theorem Engine.run_alike (b : Bool) :
    ((e.saving b).run source runId executionId).bare = (e.run source runId executionId).bare := by
  unfold run
  split
  · rfl
  · next plan _ =>
    refine Action.Alike.toFiber (.refl _) (fun id => ?_) _
    refine Action.Alike.toFiber (.refl _) (fun _ => ?_) _
    exact Execution.carryOutFrom_alike ⟨e, plan, id⟩ b ..

/-- The world with other run records, and with other writes of them that fail. -/
def World.withRuns (w : World) (runs : RunStore) (outage : Outage) : World :=
  { w with stores := { w.stores with runs, outage } }

/-- **Run records make no difference to a run.** Take any plan, any world with its remote side and its events
    to come, and any signals. Carry out the run there; and carry it out with other run records to begin with,
    over any recorder, with checkpoints or without. Both runs end the same way, or both never; and they leave
    the same world behind in all but the run records, so that observers have seen the same things at the same
    times, apart from the updates of run records. -/
theorem run_regardless (w : World) (runs : RunStore) (outage : Outage) (k : Recorder) (checkpoints : Bool)
    (signals : List Signal) :
    let here := w.carryOut signals (e.run source runId executionId)
    let there := (w.withRuns runs outage).carryOutBy k signals
      ((e.saving checkpoints).run source runId executionId)
    there.1 = here.1 ∧ there.2.bare = here.2.bare := by
  -- both runs are the bare run in the bare world, which is the same for both
  obtain ⟨hhere, hhereworld⟩ :=
    World.carryOutBy_bare World.keeping w signals (e.run_blind source runId executionId)
  obtain ⟨hthere, hthereworld⟩ := World.carryOutBy_bare k (w.withRuns runs outage) signals
    ((e.saving checkpoints).run_blind source runId executionId)
  rw [World.carryOutBy_keeping] at hhere hhereworld
  rw [e.run_alike source runId executionId checkpoints] at hthere hthereworld
  exact ⟨hthere.trans hhere.symm, hthereworld.trans hhereworld.symm⟩

end

end Runbook
