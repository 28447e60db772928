import Runbook.Proofs.Arrivals
import Runbook.Proofs.Readiness

/-!
# `Proofs.Patience` — how long hooks wait on the other side

A hook waits as long as it says, or else as long as its plan says, or else the engine, or else by default. The
transport form writes out the timeout of the plan even if the plan does not set one, so what is read of it always
sets one, and the engine is not asked any more. A hook therefore waits on the other side as long as it would have
waited here if somebody before the engine says how long, or if the engine says what holds by default; and
otherwise it does not. `hooks_wait_alike` says so of plans, and of all events that two runs of them wait for.

## Contents
- **Patience.** `Plan.FixesPatience`, and `Execution.seconds_hookPatience_arrived`.
- **Runs.** `parsed_run_waits`, every event that a run waits for is that of a hook.
- **The result.** `hooks_wait_alike`.
-/

namespace Runbook

/-! ## Patience -/

/-- **A hook that the transport form does not change**: how long it waits is said by the hook or its plan, or else
    the engine says the same as the default. -/
def Plan.FixesPatience (p : Plan) (e : Engine) (h : Hook) : Prop :=
  h.timeout = none → p.hookTimeout = none →
    (e.hookTimeout.getD defaultHookTimeout).seconds = defaultHookTimeout.seconds

variable {e : Engine} {p : Plan} {h : Hook}

/-- On the other side, the engine is not asked. -/
theorem Execution.hookPatience_arrived (runId : String) :
    hookPatience ⟨e, p.arrived, runId⟩ h.arrived = (h.timeout.or p.hookTimeout).getD defaultHookTimeout := by
  show ((h.timeout.or (some (p.hookTimeout.getD defaultHookTimeout))).or e.hookTimeout).getD defaultHookTimeout = _
  cases h.timeout <;> cases p.hookTimeout <;> rfl

/-- **A hook waits as long on the other side** exactly if the engine would not have made a difference. -/
theorem Execution.seconds_hookPatience_arrived (runId runId' : String) :
    (hookPatience ⟨e, p.arrived, runId'⟩ h.arrived).seconds = (hookPatience ⟨e, p, runId⟩ h).seconds
      ↔ p.FixesPatience e h := by
  have hhere : hookPatience ⟨e, p, runId⟩ h
      = ((h.timeout.or p.hookTimeout).or e.hookTimeout).getD defaultHookTimeout := rfl
  rw [hookPatience_arrived, hhere]
  by_cases hfixed : h.timeout = none ∧ p.hookTimeout = none
  · -- nobody before the engine says how long
    obtain ⟨hown, hplan⟩ := hfixed
    have hengine : ((none : Option Duration).or none |>.or e.hookTimeout) = e.hookTimeout := by simp
    rw [hown, hplan, hengine]
    constructor
    · intro hsame _ _
      exact hsame.symm
    · intro hsame
      exact (hsame hown hplan).symm
  · obtain ⟨d, hsaid⟩ : ∃ d, h.timeout.or p.hookTimeout = some d := by
      apply Option.ne_none_iff_exists'.mp
      simpa using hfixed
    rw [hsaid]
    constructor
    · intro _ hown hplan
      exact absurd ⟨hown, hplan⟩ hfixed
    · intro _
      rfl

/-! ## Runs -/

/-- **Every event that a run waits for** is that of a hook of its plan, at its place, for as long as it waits. -/
theorem parsed_run_waits {pace : Clock → Clock → Prop} {given executionId : Option String} {ds : List Deed}
    {r : Option (Outcome × Clock)} {w w' : World} (hruns : w.Runs pace (e.run (.parsed p) given executionId) ds r w')
    {d : Deed} (hd : d ∈ ds) {token : String} {seconds : Option Float} (hcall : d.call = .awaitEvent token seconds) :
    ∃ path h runId wait, d.step = some path ∧ p.Has path (.hook h)
      ∧ (Execution.hookPatience ⟨e, p, runId⟩ h).seconds = .ok wait ∧ seconds = some wait := by
  cases haccept : (PlanSource.parsed p).accept with
  | error f =>
    -- a plan that is refused has nothing done
    obtain ⟨rfl, -⟩ := run_refused haccept hruns.course
    exact absurd hd List.not_mem_nil
  | ok q =>
    obtain rfl := PlanSource.eq_of_accept_parsed haccept
    obtain ⟨runId, hsettles⟩ := run_settles haccept hruns
    obtain ⟨path, h, wait, hstep, hhas, hwait, hseconds⟩ := hsettles.waits hd hcall
    exact ⟨path, h, runId, wait, hstep, hhas, hwait, hseconds⟩

/-- Only hooks arrive as hooks. -/
theorem Step.hook_of_arrived {s : Step} {h' : Hook} (heq : s.arrived = .hook h') : ∃ h, s = .hook h ∧ h' = h.arrived := by
  cases s with
  | hook h => exact ⟨h, rfl, (Step.hook.inj heq).symm⟩
  | condition id predicate whenTrue whenFalse =>
    rw [arrived_condition] at heq
    exact absurd heq (by simp)
  | _ => exact absurd heq (by simp [arrived])

/-! ## The result -/

/-- **Hooks wait alike on both sides, unless the engine makes the difference.** The transport form of any plan that
    has been read can be read, by `q`. Hooks stand in `q` where they stand in the plan, and nowhere else; and on
    every engine a hook of `q` waits as long as that of the plan exactly if its patience is fixed without the
    engine. So does every event that two runs of the two plans on the same engine wait for at the same place. -/
theorem hooks_wait_alike {v : Value} {p : Plan} (hread : Plan.ofValue v = .ok p) (e : Engine) :
    ∃ q, Plan.ofValue p.toDocument = .ok q
      ∧ (∀ path h, p.Has path (.hook h) → ∃ h', q.Has path (.hook h') ∧ ∀ runId runId',
          ((Execution.hookPatience ⟨e, q, runId'⟩ h').seconds = (Execution.hookPatience ⟨e, p, runId⟩ h).seconds
            ↔ p.FixesPatience e h))
      ∧ (∀ path h', q.Has path (.hook h') → ∃ h, p.Has path (.hook h))
      ∧ ∀ {pace pace' : Clock → Clock → Prop} {given given' executionId executionId' : Option String}
          {ds ds' : List Deed} {r r' : Option (Outcome × Clock)} {w w' u u' : World},
          w.Runs pace (e.run (.parsed p) given executionId) ds r w' →
          u.Runs pace' (e.run (.parsed q) given' executionId') ds' r' u' →
          ∀ d ∈ ds, ∀ d' ∈ ds', d'.step = d.step → ∀ token token' seconds seconds',
            d.call = .awaitEvent token seconds → d'.call = .awaitEvent token' seconds' →
            ∃ path h, d.step = some path ∧ p.Has path (.hook h) ∧ (seconds' = seconds ↔ p.FixesPatience e h) := by
  refine ⟨p.arrived, Plan.ofValue_toDocument (Plan.formed_of_read hread), ?_, ?_, ?_⟩
  · intro path h hhas
    exact ⟨h.arrived, Plan.has_arrived.mpr ⟨_, hhas, rfl⟩, Execution.seconds_hookPatience_arrived⟩
  · intro path h' hhas
    obtain ⟨s, hs, heq⟩ := Plan.has_arrived.mp hhas
    obtain ⟨h, rfl, -⟩ := Step.hook_of_arrived heq.symm
    exact ⟨h, hs⟩
  · intro pace pace' given given' executionId executionId' ds ds' r r' w w' u u' hruns hruns' d hd d' hd' hplace
      token token' seconds seconds' hcall hcall'
    obtain ⟨path, h, runId, wait, hstep, hhas, hwait, rfl⟩ := parsed_run_waits hruns hd hcall
    obtain ⟨path', h', runId', wait', hstep', hhas', hwait', rfl⟩ := parsed_run_waits hruns' hd' hcall'
    obtain rfl : path' = path := Option.some.inj (hstep'.symm.trans (hplace.trans hstep))
    obtain ⟨s, hs, heq⟩ := Plan.has_arrived.mp hhas'
    -- both hooks stand at one place, so the second is the first as it has arrived
    obtain rfl := hhas.unique hs
    obtain rfl := Step.hook.inj heq
    refine ⟨path', h, hstep, hhas, ?_⟩
    rw [← Execution.seconds_hookPatience_arrived (e := e) runId runId', hwait, hwait']
    simp

/-- An approval, for which a document gives an hour. -/
def patientDocument : Value :=
  .object [("hookTimeout", .text "1h"),
    ("steps", .list [.object [("type", .text "hook"), ("token", .text "approval")]])]

/-- The plan that is read of it. -/
def patientPlan : Plan where
  id := none
  steps := [.hook ⟨none, some (.text "approval"), none, .null, false⟩]
  input := .object []
  messages := []
  continueOnError := false
  hookTimeout := some (.text "1h")
  workerPoll := none
  workflowPoll := none

/-- An engine that gives hooks two hours. -/
def twoHours : Engine := { plainEngine with hookTimeout := some (.text "2h") }

/-- The run of a plan on that engine, where no event comes. -/
def patientRun (p : Plan) : Prompt Outcome :=
  (twoHours.run (.parsed p) (some "run") none).promptly (.replying fun _ => { response := .error "refused" }) {}

/-- The deeds of a run that wait for the approval. -/
def approvalWaits (p : Plan) : List Deed :=
  (patientRun p).deeds.filter fun d => d.call.token? = some "approval"

theorem patientPlan_waits_alike :
    Plan.ofValue patientDocument = .ok patientPlan
      ∧ ∃ q, Plan.ofValue patientPlan.toDocument = .ok q ∧ approvalWaits patientPlan ≠ [] ∧ approvalWaits q ≠ []
        ∧ ∀ d ∈ approvalWaits patientPlan, ∀ d' ∈ approvalWaits q, d'.step = d.step →
            ∀ token token' seconds seconds', d.call = .awaitEvent token seconds →
              d'.call = .awaitEvent token' seconds' → seconds' = seconds := by
  obtain ⟨q, hq, -, -, halike⟩ := hooks_wait_alike (v := patientDocument) (p := patientPlan) rfl twoHours
  obtain rfl : q = patientPlan.arrived := Checked.ok.inj (hq.symm.trans rfl)
  have hruns (p : Plan) : World.Runs (· ≤ ·) {} (twoHours.run (.parsed p) (some "run") none) (patientRun p).deeds
      (some ((patientRun p).outcome, 0)) (patientRun p).world :=
    Fiber.runs_promptly Nat.le_refl (.replying fun _ => { response := .error "refused" }) _ {}
  refine ⟨rfl, patientPlan.arrived, hq, by decide +kernel, by decide +kernel, ?_⟩
  intro d hd d' hd' hplace token token' seconds seconds' hcall hcall'
  obtain ⟨path, h, -, hhas, hfixed⟩ := halike (hruns patientPlan) (hruns patientPlan.arrived) d
    (List.mem_of_mem_filter hd) d' (List.mem_of_mem_filter hd') hplace _ _ _ _ hcall hcall'
  exact hfixed.mpr fun _ hnone => absurd hnone (by simp [patientPlan])

end Runbook
