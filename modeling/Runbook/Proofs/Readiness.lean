import Runbook.Proofs.Acceptance
import Runbook.Proofs.Avoidance
import Runbook.Proofs.Company
import Runbook.Proofs.Pauses
import Runbook.Proofs.TwoReadings

/-!
# `Proofs.Readiness` — accepted documents do not fail for how they are written

Once a document has been accepted, whatever goes wrong in its run comes from outside: a request, a poll, an
event, a store. No step fails for a length of time that is none, for a condition that cannot be decided or for
a type that nobody knows; every hook waits for a positive length of time, wherever that is written; and whoever
waits for the end of a worker or of a run looks at bounded intervals and a bounded number of times.

## Contents
- **Prepared steps.** `Plan.Ready.prepared`.
- **Waits.** `Settles.waits`, an event is awaited by a hook for as long as it says.
- **Polls.** `Execution.pollPolicy?`, with `runWorker_polls` and `runWorkflow_polls`.
- **The result.** `accepted_run_structurally_sound`.
-/

namespace Runbook

/-! ## Prepared steps -/

theorem isPositive_defaultHookTimeout : defaultHookTimeout.IsPositive :=
  Validation.isPositive_of_read rfl rfl Validation.timeoutProblem?_default

section

variable {x : Execution}

/-- **However long a hook waits**, it is a positive length of time. -/
theorem Plan.Ready.isPositive_patience (h : x.plan.Ready) (hengine : ∀ d, x.engine.hookTimeout = some d → d.IsPositive)
    {hook : Hook} (hhook : (Step.hook hook).Ready) : (x.hookPatience hook).IsPositive := by
  unfold Execution.hookPatience
  cases hown : hook.timeout with
  | some d => exact hhook.2 d hown
  | none =>
    cases hplan : x.plan.hookTimeout with
    | some d => exact h.hookTimeout d hplan
    | none =>
      cases hgiven : x.engine.hookTimeout with
      | some d => exact hengine d hgiven
      | none => exact isPositive_defaultHookTimeout

theorem Duration.IsPositive.seconds {d : Duration} (h : d.IsPositive) :
    ∃ ms, d.milliseconds = .ok ms ∧ 0.0 < ms ∧ d.seconds = .ok (ms / 1000.0) := by
  obtain ⟨ms, hms, hpositive⟩ := h
  refine ⟨ms, hms, hpositive, ?_⟩
  unfold Duration.seconds
  rw [hms]
  rfl

/-- **The steps of a plan that can be carried out** are prepared as far as structural failures go. -/
theorem Plan.Ready.prepared (h : x.plan.Ready) (hengine : ∀ d, x.engine.hookTimeout = some d → d.IsPositive)
    {q : StepPath} {s : Step} (hhas : x.plan.Has q s) : x.Prepared .structures s := by
  have hready := h.steps q s hhas
  have hcall {call : Capability} (hcall : ∀ u, call.input = .given u → u.isPlain = true) :
      ∀ u, call.input = .given u → x.engine.functions.Clear .structures u := by
    rintro u hu ref rfl
    exact absurd (hcall _ hu) (by simp [Value.isPlain])
  cases s with
  | agent | worker | workflow => exact hcall hready
  | hook hook =>
    refine ⟨fun u hu => absurd hu (hready.1 u), ?_⟩
    obtain ⟨ms, -, -, hseconds⟩ := (h.isPositive_patience hengine hready).seconds
    rw [hseconds]
    exact .ok _
  | sleep id d =>
    obtain ⟨ms, hms⟩ := hready
    show Avoids .structures (((· / 1000.0) <$> d.milliseconds).mapError Fault.ofDuration)
    rw [hms]
    exact .ok _
  | condition id predicate whenTrue whenFalse =>
    intro c
    rcases hready with ⟨b, rfl⟩ | ⟨condition, rfl⟩
    · exact holds_avoids (by simp) c
    · exact holds_avoids (by simp) c
  | parallel => trivial
  | foreign => exact hready.elim

/-! ## Waits -/

/-- A call for which an event is awaited only by a hook, and for as long as that waits. -/
def Execution.WaitsAs (x : Execution) (s : Step) (c : Call) : Prop :=
  ∀ token seconds, c = .awaitEvent token seconds →
    ∃ hook wait, s = .hook hook ∧ (x.hookPatience hook).seconds = .ok wait ∧ seconds = some wait

theorem Execution.WaitsAs.of_other {s : Step} {c : Call} (h : ∀ token seconds, c ≠ .awaitEvent token seconds) :
    x.WaitsAs s c := fun token seconds hc => absurd hc (h token seconds)

theorem makes_hushed_waits {α : Type} {a : Action α} {s : Step} (h : a.Makes (Call.Hushed x.runId)) :
    a.Makes (x.WaitsAs s) :=
  Program.Makes.mono h fun _ hc => .of_other hc.awaits

theorem makes_writeRun_waits {s : Step} (updates : Keyed Value) : (x.writeRun updates).Makes (x.WaitsAs s) :=
  Action.makes_call (.of_other (by simp))

/-- **Only hooks wait for events**, and each as long as it says. -/
theorem makes_handler_waits {s : Step} {c : Context} {body : String → Action Value}
    (h : x.handler? s c = some body) (path : String) : (body path).Makes (x.WaitsAs s) := by
  cases s with
  | agent call agent =>
    obtain rfl := Option.some.inj h
    exact makes_hushed_waits (runAgent_hushed ..)
  | worker call worker poll =>
    obtain rfl := Option.some.inj h
    exact makes_hushed_waits (runWorker_hushed ..)
  | workflow call workflow =>
    obtain rfl := Option.some.inj h
    exact makes_hushed_waits (runWorkflow_hushed ..)
  | hook hook =>
    obtain rfl := Option.some.inj h
    show Action.Makes _ (x.runHook hook c)
    unfold Execution.runHook
    refine Action.makes_bind (Action.makes_ofExcept _) fun token => ?_
    cases hseconds : (x.hookPatience hook).seconds with
    | error problem => exact Action.makes_throw _
    | ok wait =>
      refine Action.makes_pure_bind (v := wait) ?_
      refine Action.makes_bind (makes_writeRun_waits _) fun _ => ?_
      refine Action.makes_bind (Action.makes_bind (Action.makes_call (.of_other (by simp))) fun _ =>
        Action.makes_call ?_) fun event => ?_
      -- the one wait of a hook, with the patience that its timeout stands for
      · intro token' seconds hc
        exact ⟨hook, wait, rfl, hseconds, (Call.awaitEvent.inj hc).2.symm⟩
      · refine Action.makes_bind (makes_writeRun_waits _) fun _ => ?_
        split
        · exact Action.makes_throw _
        · exact Action.makes_bind (Action.makes_ofExcept _) fun _ => Action.makes_pure _
  | sleep id d =>
    obtain rfl := Option.some.inj h
    show Action.Makes _ (x.runSleep d path)
    unfold Execution.runSleep
    refine Action.makes_bind (makes_hushed_waits (wakeTime_hushed ..)) fun wakeAt => ?_
    refine Action.makes_bind (Action.makes_call (.of_other (by simp))) fun now => ?_
    refine Action.makes_bind (makes_writeRun_waits _) fun _ => ?_
    refine Action.makes_bind (Action.makes_hostSleep (.of_other (by simp))) fun _ => ?_
    exact Action.makes_bind (makes_writeRun_waits _) fun _ => Action.makes_pure _
  | condition _ _ _ _ => exact absurd h (by simp [Execution.handler?])
  | parallel _ _ => exact absurd h (by simp [Execution.handler?])
  | foreign _ _ => exact absurd h (by simp [Execution.handler?])

/-- What a leaf has others do, it does while it is carried out. -/
theorem LeafCourse.body_of_outside {pace : Clock → Clock → Prop} {path : StepPath} {id : Option String}
    {c : Context} {body : Action Value} {ds : List Deed} {r : Option (Outcome × Clock)} {d : Deed}
    (h : Execution.LeafCourse pace x path id c body ds r) (hd : d ∈ ds) (hout : d.call.isOutside = true) :
    ∃ t es q, d ∈ es ∧ Program.Course pace (some path) t body.outcome es q := by
  cases h with
  | unbegun => exact absurd hd List.not_mem_nil
  | replayed =>
    rw [List.mem_singleton.mp hd] at hout
    exact absurd hout (by simp [Call.isOutside])
  | worked _ hbody =>
    rcases List.mem_cons.mp hd with rfl | hd
    · exact absurd hout (by simp [Call.isOutside])
    · exact ⟨_, _, _, hd, hbody⟩
  | reported _ hbody hes =>
    rcases List.mem_cons.mp hd with rfl | hd
    · exact absurd hout (by simp [Call.isOutside])
    · rcases List.mem_append.mp hd with hd | hd
      · exact ⟨_, _, _, hd, hbody⟩
      · rcases List.mem_cons.mp hd with rfl | hd
        · exact absurd hout (by simp [Call.isOutside])
        · cases hes d hd <;> exact absurd hout (by simp [Call.isOutside])

/-- **Every event that a run waits for** is that of a hook of its plan, which waits as long as it says. -/
theorem Settles.waits {pace : Clock → Clock → Prop} {ds : List Deed} {r : Option (Outcome × Clock)}
    (h : Settles pace x ds r) {d : Deed} (hd : d ∈ ds) {token : String} {seconds : Option Float}
    (hcall : d.call = .awaitEvent token seconds) :
    ∃ q hook wait, d.step = some q ∧ x.plan.Has q (.hook hook) ∧ (x.hookPatience hook).seconds = .ok wait
      ∧ seconds = some wait := by
  have hout : d.call.isOutside = true := by rw [hcall]; rfl
  obtain ⟨q, hq⟩ := h.orderly.owned d hd hout
  have hmem : d ∈ deedsFor q ds := mem_deedsFor.mpr ⟨hd, hq⟩
  have hdone := h.layout q
  generalize deedsFor q ds = es at hmem hdone
  cases hdone with
  | nothing => exact absurd hmem List.not_mem_nil
  | report =>
    rw [List.mem_singleton.mp hmem] at hcall
    exact absurd hcall (by simp)
  | @leaf s c _ _ _ hs hleaf hcourse =>
    obtain ⟨body, hbody, hcourse⟩ := Execution.walk_leaf_course hleaf hcourse
    obtain ⟨t, es, p, hin, hcourse⟩ := LeafCourse.body_of_outside hcourse hmem hout
    obtain ⟨hook, wait, rfl, hwait, hseconds⟩ :=
      (hcourse.makes (makes_handler_waits hbody _) d hin).2 token seconds hcall
    exact ⟨q, hook, wait, hq, hs, hwait, hseconds⟩

/-! ## Polls -/

/-- How a run elsewhere is polled: as the plan says, or else by default. -/
def Execution.workflowPolicy (x : Execution) : PollPolicy :=
  PollPolicy.merge [x.plan.workflowPoll, some workflowDefaults]

/-- The policy by which the end of a step is looked for, if that is awaited. -/
def Execution.pollPolicy? (x : Execution) : Step → Option PollPolicy
  | .worker call _ poll => if call.awaits false then some (x.workerPolicy poll) else none
  | .workflow call _ => if call.awaits true then some x.workflowPolicy else none
  | _ => none

/-- A worker whose end is awaited is polled by its policy. -/
theorem runWorker_polls {call : Capability} {worker : String} {poll : Option PollPolicy} {policy : PollPolicy}
    (h : x.pollPolicy? (.worker call worker poll) = some policy) (c : Context) (path : String) :
    x.runWorker call worker poll c path = (do
      let input ← Action.ofExcept (call.resolveInput x.engine.functions c)
      let _ ← Dispatch.triggerWorker x.engine.settings worker input (some (x.jobId path)) true .null
      let r ← pollUntilDone (Dispatch.lookAtJob x.engine.settings worker (x.jobId path)) Action.hostSleep
        policy.toBounds
      Execution.requireCompletion r ("Worker " ++ worker ++ " job " ++ x.jobId path)
      return .object
        [("jobId", .text (x.jobId path)), ("status", .ofText? r.status), ("output", r.output),
         ("metadata", .object r.metadata)]) := by
  rw [Execution.pollPolicy?] at h
  split at h
  · next hawaits =>
    obtain rfl := Option.some.inj h
    unfold Execution.runWorker
    simp only [hawaits, if_true]
  · exact absurd h (by simp)

/-- A run elsewhere whose end is awaited is polled by its policy. -/
theorem runWorkflow_polls {call : Capability} {workflow : String} {policy : PollPolicy}
    (h : x.pollPolicy? (.workflow call workflow) = some policy) (c : Context) (path : String) :
    x.runWorkflow call workflow c path = (do
      let input ← Action.ofExcept (call.resolveInput x.engine.functions c)
      let runId := (← x.nestedRun workflow input path).display
      let r ← pollUntilDone (Dispatch.lookAtRun x.engine.settings workflow runId) Action.hostSleep
        policy.toBounds
      Execution.requireCompletion r ("Workflow " ++ workflow ++ " run " ++ runId)
      return r.output) := by
  rw [Execution.pollPolicy?] at h
  split at h
  · next hawaits =>
    obtain rfl := Option.some.inj h
    unfold Execution.runWorkflow Execution.workflowPolicy
    simp only [hawaits, if_true]
  · exact absurd h (by simp)

/-- What a base sets is set in every policy over it. -/
theorem PollPolicy.isSome_withBase {p base : PollPolicy} (hinterval : base.intervalMs.isSome = true)
    (hretries : base.maxRetries.isSome = true) :
    (p.withBase base).intervalMs.isSome = true ∧ (p.withBase base).maxRetries.isSome = true := by
  simp [withBase, hinterval, hretries]

theorem PollPolicy.isSome_merge {policies : List (Option PollPolicy)} (base : PollPolicy)
    (hbase : some base ∈ policies) (hinterval : base.intervalMs.isSome = true)
    (hretries : base.maxRetries.isSome = true) :
    (merge policies).intervalMs.isSome = true ∧ (merge policies).maxRetries.isSome = true := by
  unfold merge
  have hmem : base ∈ policies.filterMap id := List.mem_filterMap.mpr ⟨_, hbase, rfl⟩
  generalize policies.filterMap id = given at hmem
  induction given with
  | nil => exact absurd hmem List.not_mem_nil
  | cons p rest ih =>
    rw [List.foldr_cons]
    rcases List.mem_cons.mp hmem with rfl | hmem
    · simp [withBase, hinterval, hretries]
    · obtain ⟨hrestInterval, hrestRetries⟩ := ih hmem
      exact isSome_withBase hrestInterval hrestRetries

/-- **Whoever waits for an end** looks for it at intervals, and a limited number of times. -/
theorem Execution.pollPolicy?_bounded {s : Step} {policy : PollPolicy} (h : x.pollPolicy? s = some policy) :
    policy.intervalMs.isSome = true ∧ policy.maxRetries.isSome = true := by
  unfold Execution.pollPolicy? at h
  split at h
  · split at h
    · obtain rfl := Option.some.inj h
      exact PollPolicy.isSome_merge x.engine.workerPoll.toPolicy (by simp) rfl rfl
    · exact absurd h (by simp)
  · split at h
    · obtain rfl := Option.some.inj h
      exact PollPolicy.isSome_merge workflowDefaults (by simp) rfl rfl
    · exact absurd h (by simp)
  · exact absurd h (by simp)

end

/-! ## The result -/

/-- **An accepted document does not fail for how it is written.** Take any document that has been accepted, on
    an engine that gives hooks no timeout or a positive one, and whatever others answer. No step of its run, and
    not the run itself, fails for a length of time that is none, a condition that cannot be decided or a step that
    is not known, unless the host raises such a failure itself when it is to sleep. Every hook that is waited for
    waits for a positive length of time, and every worker and every run whose end is awaited is polled by a policy
    with an interval and a number of retries. -/
theorem accepted_run_structurally_sound {pace : Clock → Clock → Prop} {e : Engine} {v : Value} {plan : Plan}
    {given executionId : Option String} {ds : List Deed} {r : Option (Outcome × Clock)} {w w' : World}
    (hjson : v.isJson = true) (haccept : (PlanSource.document v).accept = .ok plan)
    (hengine : ∀ d, e.hookTimeout = some d → d.IsPositive)
    (hhost : ∀ d ∈ ds, d.call.Wakens .structures d.answer)
    (hruns : w.Runs pace (e.run (.document v) given executionId) ds r w') :
    ∃ runId, (∀ a ∈ reports ds, ∀ f, a.outcome = .error f → f.isStructural = false)
      ∧ (∀ f t, r = some (.error f, t) → f.isStructural = false)
      ∧ (∀ d ∈ ds, ∀ token seconds, d.call = .awaitEvent token seconds →
          ∃ q hook ms, d.step = some q ∧ plan.Has q (.hook hook)
            ∧ (Execution.hookPatience ⟨e, plan, runId⟩ hook).milliseconds = .ok ms ∧ 0.0 < ms
            ∧ seconds = some (ms / 1000.0))
      ∧ ∀ q s policy, plan.Has q s → Execution.pollPolicy? ⟨e, plan, runId⟩ s = some policy →
          policy.intervalMs.isSome = true ∧ policy.maxRetries.isSome = true := by
  obtain ⟨runId, h⟩ := run_settles haccept hruns
  have hready := ready_of_accept hjson haccept
  have hclear : ∀ d ∈ ds, d.call.Clear .structures d.answer := fun d hd => by
    obtain ⟨pre, post, rfl⟩ := List.append_of_mem hd
    obtain ⟨u, -, hrest⟩ := hruns.admits.split
    obtain ⟨u', hanswers, -⟩ := hrest.of_cons
    exact hanswers.clear (hhost d hd)
  obtain ⟨hreports, hend⟩ := h.avoids (K := .structures) (fun q s hhas => Plan.Ready.prepared hready hengine hhas) hclear
  refine ⟨runId, fun a ha f hf => (hreports a ha).notHas f hf, fun f t hr => (hend _ t hr).notHas f rfl, ?_,
    fun q s policy _ hpolicy => Execution.pollPolicy?_bounded hpolicy⟩
  intro d hd token seconds hcall
  obtain ⟨q, hook, wait, hq, hhas, hwait, hseconds⟩ := h.waits hd hcall
  obtain ⟨ms, hms, hpositive, hlength⟩ :=
    (Plan.Ready.isPositive_patience (x := ⟨e, plan, runId⟩) hready hengine (hready.steps q _ hhas)).seconds
  obtain rfl := Except.ok.inj (hlength.symm.trans hwait)
  exact ⟨q, hook, ms, hq, hhas, hms, hpositive, hseconds⟩

/-- A sleep, a worker that is awaited if a condition holds, and an approval, as a document writes them. -/
def approvalDocument : Value :=
  .object
    [("workerPoll", .object [("maxRetries", .int 2)]),
     ("steps", .list
       [.object [("type", .text "sleep"), ("duration", .text "0.5s")],
        .object [("type", .text "condition"), ("if", .bool false),
          ("then", .list [.object [("type", .text "worker"), ("worker", .text "resize"), ("await", .bool true)]])],
        .object [("type", .text "hook"), ("token", .text "approval"), ("timeout", .text "5m")]])]

/-- The plan that is read of it. -/
def approvalPlan : Plan where
  id := none
  steps :=
    [.sleep none (.text "0.5s"),
     .condition none (.constant false) [.worker ⟨none, .absent, some true, false⟩ "resize" none] none,
     .hook ⟨none, some (.text "approval"), some (.text "5m"), .null, false⟩]
  input := .object []
  messages := []
  continueOnError := false
  hookTimeout := none
  workerPoll := some ⟨none, none, some 2⟩
  workflowPoll := none

/-- The run of that document where no event comes. -/
def approvalRun : Prompt Outcome :=
  (plainEngine.run (.document approvalDocument) (some "run") none).promptly
    (.replying fun _ => { response := .error "refused" }) {}

/-- It fails because nobody approves, and not for how it is written. -/
theorem approvalRun_structurally_sound :
    approvalDocument.isJson = true ∧ (PlanSource.document approvalDocument).accept = .ok approvalPlan
      ∧ approvalRun.outcome.toOption.isSome = false
      ∧ (∀ f, approvalRun.outcome = .error f → f.isStructural = false)
      ∧ ∃ d ∈ approvalRun.deeds, ∃ ms, d.call = .awaitEvent "approval" (some (ms / 1000.0)) ∧ 0.0 < ms := by
  have hjson : approvalDocument.isJson = true := by decide
  have haccept : (PlanSource.document approvalDocument).accept = .ok approvalPlan := by rfl
  let p := plainEngine.run (.document approvalDocument) (some "run") none
  have hruns := Fiber.runs_promptly Nat.le_refl (.replying fun _ => { response := .error "refused" }) p {}
  have hsound := (Fiber.promptly_course (.replying fun _ => { response := .error "refused" }) Nat.le_refl p {}).2
  rw [show p.promptly (.replying fun _ => { response := .error "refused" }) {} = approvalRun from rfl]
    at hruns hsound
  obtain ⟨runId, -, hend, hwaits, -⟩ := accepted_run_structurally_sound hjson haccept
    (fun d hd => absurd hd (by simp [plainEngine])) hsound.prompts.wakens hruns
  refine ⟨hjson, haccept, by decide +kernel, fun f hf => hend f _ (by rw [hf]), ?_⟩
  have hfound : (approvalRun.deeds.any fun d => d.call.token? = some "approval") = true := by decide +kernel
  obtain ⟨d, hd, htoken⟩ := List.any_eq_true.mp hfound
  cases hcall : d.call with
  | awaitEvent token seconds =>
    rw [hcall] at htoken
    obtain rfl : token = "approval" := Option.some.inj (of_decide_eq_true htoken)
    obtain ⟨q, hook, ms, -, -, -, hpositive, rfl⟩ := hwaits d hd _ _ hcall
    exact ⟨d, hd, ms, hcall, hpositive⟩
  | _ =>
    rw [hcall] at htoken
    exact nomatch of_decide_eq_true htoken

end Runbook
