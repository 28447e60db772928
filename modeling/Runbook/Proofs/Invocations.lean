import Runbook.Proofs.Reports
import Runbook.Proofs.Starts

/-!
# `Proofs.Invocations` — a capability is invoked with the input of its step

An agent, a worker or a workflow gets its input in the body of one request: the call of an agent, the start of a
run or the trigger of a job. Everything else that is asked on behalf of the step are looks at what has become of
it. A step sends no such request if an earlier attempt at the run has done so, which the journal or the record of
the job tells.

## Contents
- **Requests.** `Step.call?`, `Execution.Sends`, the requests with an input, and `Execution.Brings`.
- **Actions.** `Action.Invokes`, and its rules.
- **Capabilities.** `callAgent_invokes`, `start_invokes`, `triggerWorker_invokes`; `handler_invokes`.
- **Steps.** `Execution.InvokedWith`, and `walk_invokedWith`.
-/

namespace Runbook

/-! ## Requests -/

/-- The call of a capability step. -/
def Step.call? : Step → Option Capability
  | .agent call _ | .worker call _ _ | .workflow call _ => some call
  | _ => none

namespace Execution

/-- The request that starts a run for a step. -/
def startRequest (x : Execution) (workflow : String) (input : Value) (path : String) : Request :=
  ⟨"POST", Address.workflowUrl x.engine.settings workflow,
    some (Dispatch.startBody input x.plan.messages (some (x.startName path))), []⟩

/-- **The requests that invoke a capability**, given the input: an agent is called with it, or a run is started with
    it if the reply is not awaited; a workflow is started with it; and the message that triggers a worker holds it,
    or an empty object in place of null. -/
inductive Sends (x : Execution) (path : String) (input : Value) : Step → Request → Prop where
  | called {call : Capability} {agent : String} (h : call.awaits true = true) :
      Sends x path input (.agent call agent)
        ⟨"POST", Address.agentUrl x.engine.settings agent,
          some (.object [("messages", .list x.plan.messages), ("input", input), ("params", input)]), []⟩
  | agentStarted {call : Capability} {agent : String} (h : call.awaits true = false) :
      Sends x path input (.agent call agent) (x.startRequest agent input path)
  | started {call : Capability} {workflow : String} :
      Sends x path input (.workflow call workflow) (x.startRequest workflow input path)
  | triggered {call : Capability} {worker : String} {poll : Option PollPolicy} {message : Value}
      (hinput : message.get? "input" = some (if input.isNull then .object [] else input)) :
      Sends x path input (.worker call worker poll) (Dispatch.triggerRequest x.engine.settings worker message)

/-- **What brings the input to a capability**: a request that invokes it; or, if an earlier attempt has sent that,
    the answer that tells so: the run in the journal, or the record of the job. -/
inductive Brings (x : Execution) (path : String) (input : Value) : Step → (c : Call) → c.Answer → Prop where
  | sent {s : Step} {r : Request} {reply : Reply} (h : x.Sends path input s r) :
      Brings x path input s (.request r) reply
  | noted {call : Capability} {workflow : String} {found : Option Value} {runId : Value}
      (hawaits : call.awaits true = true) (hnoted : JournalEntry.noted found "runId" = .ok runId)
      (hne : runId ≠ .null) : Brings x path input (.workflow call workflow) (.recall path) found
  | recorded {call : Capability} {worker : String} {poll : Option PollPolicy} {r : JobRecord}
      (h : Dispatch.isUntriggered r = false) :
      Brings x path input (.worker call worker poll) (.store (.getJob (x.jobId path))) (.ok (.job (some r)))

end Execution

/-! ## Actions -/

/-- Whether the input has been brought by now. -/
def Bringing (x : Execution) (path : String) (input : Value) (s : Step) (brought : Prop) (c : Call)
    (answer : c.Answer) (brought' : Prop) : Prop := brought' = (brought ∨ x.Brings path input s c answer)

/-- A call that posts nothing but what invokes the capability. -/
def Call.PostsOnly (x : Execution) (path : String) (input : Value) (s : Step) (c : Call) : Prop :=
  ∀ r, c = .request r → r.method = "POST" → x.Sends path input s r

theorem Call.PostsNothing.postsOnly {x : Execution} {path : String} {input : Value} {s : Step} {c : Call}
    (h : c.PostsNothing) : c.PostsOnly x path input s := fun r hr hmethod => absurd hmethod (h r hr)

/-- **An action that invokes a capability** with an input: it posts nothing else, and when it succeeds, the input has
    been brought. -/
def Action.Invokes {α : Type} (x : Execution) (path : String) (input : Value) (s : Step) (a : Action α)
    (brought : Prop) : Prop :=
  a.Heeds (Bringing x path input s) (fun _ c => c.PostsOnly x path input s)
    (fun o brought' => ∀ v, o = .ok v → brought') brought

namespace Action.Invokes

variable {α β : Type} {x : Execution} {path : String} {input : Value} {s : Step} {a : Action α} {f : α → Action β}
  {brought : Prop}

/-- Once the input has been brought, the rest only must not post anything. -/
theorem of_brought (hbrought : brought) (h : a.Makes Call.PostsNothing) : a.Invokes x path input s brought := by
  refine heeds_weaken (heeds_of_makes (I := fun brought : Prop => brought) h (fun _ _ hc _ => hc.postsOnly) ?_
    hbrought) fun _ _ h _ _ => h
  rintro brought c answer _ - hbrought rfl
  exact .inl hbrought

/-- First something that posts nothing. -/
theorem before (ha : a.Makes Call.PostsNothing) (hf : ∀ v brought, (f v).Invokes x path input s brought) :
    (a >>= f).Invokes x path input s brought :=
  heeds_bind (heeds_of_makes (I := fun _ => True) ha (fun _ _ hc _ => hc.postsOnly) (fun _ _ _ _ _ _ _ => trivial)
    trivial) (fun v brought' _ => hf v brought') fun _ _ _ _ h => absurd h (by simp)

/-- In the end something that posts nothing. -/
theorem after (ha : a.Invokes x path input s brought) (hf : ∀ v, (f v).Makes Call.PostsNothing) :
    (a >>= f).Invokes x path input s brought :=
  heeds_bind ha (fun v _ hbrought => of_brought (hbrought v rfl) (hf v)) fun _ _ _ _ h => absurd h (by simp)

theorem map (g : α → β) (ha : a.Invokes x path input s brought) : (g <$> a).Invokes x path input s brought := by
  refine heeds_map (heeds_weaken ha fun o _ h v hv => ?_)
  cases o with
  | ok v' => exact h v' rfl
  | error e => exact absurd hv (by simp [Except.map])

theorem throw (f : Fault) : (MonadExcept.throw f : Action α).Invokes x path input s brought :=
  fun _ h => absurd h (by simp)

/-- Whatever answers come, only what invokes the capability is posted. -/
theorem makes {p : Program α} {Q : α → Prop → Prop}
    (h : p.Heeds (Bringing x path input s) (fun _ c => c.PostsOnly x path input s) Q brought) :
    p.Makes (Call.PostsOnly x path input s) := by
  induction p generalizing brought with
  | done => trivial
  | ask c next ih => exact ⟨h.1, fun answer => ih answer (h.2 answer _ rfl)⟩

/-- When it has come to an end, the input has been brought in one of its deeds. -/
theorem follows {ds : List Deed} (brought : Prop) :
    Follows (Bringing x path input s) brought ds (brought ∨ ∃ d ∈ ds, x.Brings path input s d.call d.answer) := by
  induction ds generalizing brought with
  | nil => simpa using Follows.nil
  | cons d ds ih =>
    have hrest := ih (brought ∨ x.Brings path input s d.call d.answer)
    rw [or_assoc] at hrest
    simp only [List.mem_cons, exists_eq_or_imp]
    exact .cons rfl hrest

end Action.Invokes

/-! ## Capabilities -/

section

open Runbook.Action

variable {x : Execution} {path : String} {input : Value} {s : Step} {brought : Prop}

/-- One exchange that invokes the capability. -/
theorem exchange_invokes {method url : String} {body : Option Value} {headers : Keyed String}
    (h : x.Sends path input s ⟨method, url, body, headers⟩) :
    (Dispatch.exchange method url body headers).Invokes x path input s brought := by
  refine Dispatch.exchange_heeds (fun name v hv => absurd hv (by simp)) (fun r hr _ => by cases hr; exact h) ?_
  rintro reply _ rfl
  exact ⟨fun _ _ _ _ => .inr (.sent h), fun _ _ _ _ => .inr (.sent h)⟩

theorem callAgent_invokes {call : Capability} {agent : String} (hawaits : call.awaits true = true) :
    (Dispatch.callAgent x.engine.settings agent input x.plan.messages).Invokes x path input (.agent call agent)
      brought := by
  refine (exchange_invokes (.called hawaits)).after fun response => ?_
  exact makes_bind (Dispatch.makes_requireSuccess ..) fun _ => makes_pure _

theorem start_invokes {workflow : String} (h : x.Sends path input s (x.startRequest workflow input path)) :
    (x.start workflow input path).Invokes x path input s brought := by
  refine (exchange_invokes h).after fun response => ?_
  refine makes_bind (Dispatch.makes_requireSuccess ..) fun _ => ?_
  unfold Dispatch.startedRun
  split
  · exact makes_throw _
  · dsimp only
    split
    · exact makes_bind (makes_ofExcept _) fun status => makes_pure _
    · exact makes_pure_bind (makes_pure _)

/-- The run of an earlier attempt is taken up, or one is started. -/
theorem nestedRun_invokes {call : Capability} {workflow : String} (hawaits : call.awaits true = true) :
    (x.nestedRun workflow input path).Invokes x path input (.workflow call workflow) brought := by
  have hnote (fields : Keyed Value) : (x.note path fields).Makes Call.PostsNothing := by
    refine makes_bind (makes_call (by simp [Call.PostsNothing])) fun _ => makes_bind (makes_ofExcept _) fun _ => ?_
    unfold Execution.saveCheckpoint
    split
    · exact makes_call (by simp [Call.PostsNothing])
    · exact makes_pure _
  unfold Execution.nestedRun
  refine heeds_bind (Q := fun o brought' => ∀ runId, o = .ok runId → runId ≠ .null → brought') ?_ ?_
    fun _ _ _ _ h => absurd h (by simp)
  · refine ⟨by simp [Call.PostsOnly], ?_⟩
    rintro found _ rfl runId hnoted hne
    exact .inr (.noted hawaits hnoted hne)
  · intro runId brought' hnoted
    split
    · exact (start_invokes .started).after fun r => makes_bind (hnote _) fun _ => makes_pure _
    · next hne => exact Action.Invokes.of_brought (hnoted _ rfl hne) (makes_pure _)

/-- A write of the job posts nothing. -/
theorem setJob_posts (jobId : String) (updates : Keyed Value) :
    (Action.setJob jobId updates).Makes Call.PostsNothing := makes_setJob (by simp [Call.PostsNothing])

/-- The message that triggers a worker is sent, and if that fails, this is noted. -/
theorem sendTrigger_invokes {worker jobId : String} {message : Value}
    (h : x.Sends path input s (Dispatch.triggerRequest x.engine.settings worker message)) :
    (Dispatch.sendTrigger x.engine.settings worker jobId message).Invokes x path input s brought := by
  unfold Dispatch.sendTrigger
  refine heeds_bind (Q := fun o brought' => ∀ v : Except Fault Response, o = .ok v → ∀ r, v = .ok r → brought')
    (heeds_lift ?_) ?_ fun _ _ _ _ h => absurd h (by simp)
  · refine Program.heeds_weaken ((exchange_invokes h).after fun response => ?_) fun o _ h => ?_
    · exact makes_bind (Dispatch.makes_requireSuccess ..) fun _ => makes_pure _
    · rintro _ ho r rfl
      obtain rfl := Except.ok.inj ho
      exact h r rfl
  · intro v brought' hbrought
    split
    · next response => exact Action.Invokes.of_brought (hbrought _ rfl response rfl) (makes_pure _)
    · exact Action.Invokes.before (setJob_posts ..) fun _ _ => Action.Invokes.throw _
    · exact Action.Invokes.throw _

/-- The trigger of an earlier attempt counts, or one is sent. -/
theorem triggerWorker_invokes {call : Capability} {worker : String} {poll : Option PollPolicy} {awaits : Bool} :
    (Dispatch.triggerWorker x.engine.settings worker input (some (x.jobId path)) awaits .null).Invokes x path input
      (.worker call worker poll) brought := by
  unfold Dispatch.triggerWorker
  rw [nonEmpty?_of_ne (x.jobId_ne_empty path)]
  refine heeds_bind (Q := fun o brought' => o = .ok (x.jobId path) ∧ brought' = brought) ⟨rfl, rfl⟩ ?_
    fun _ _ h => absurd h.1 (by simp)
  rintro jobId brought ⟨hid, rfl⟩
  obtain rfl := Except.ok.inj hid
  refine heeds_bind (Q := fun o brought' => ∀ r, o = .ok (some r) → Dispatch.isUntriggered r = false → brought')
    ?_ ?_ fun _ _ _ _ h => absurd h (by simp)
  · unfold Action.getJob Action.store
    refine ⟨by simp [Call.PostsOnly], ?_⟩
    rintro answer _ rfl
    cases answer with
    | error f => exact fun r hr => absurd hr (by simp)
    | ok answer =>
      cases answer with
      | job found =>
        -- a record without the flag says that the trigger of an earlier attempt was accepted
        rintro r ⟨⟩ hflag
        exact .inr (.recorded hflag)
      | _ => exact fun r hr => absurd hr (by simp)
  · intro existing brought' hexisting
    split
    · next r hr =>
      obtain ⟨rfl, hflag⟩ := Option.filter_eq_some_iff.mp hr
      exact Action.Invokes.of_brought (hexisting r rfl (by simpa using hflag)) (makes_pure _)
    · refine Action.Invokes.before (setJob_posts ..) fun _ brought => ?_
      refine Action.Invokes.before (makes_map _ (makes_call (by simp [Call.PostsNothing]))) fun time brought => ?_
      refine (sendTrigger_invokes (.triggered rfl)).after fun response => ?_
      split
      · exact makes_bind (setJob_posts ..) fun _ => makes_pure _
      · exact makes_pure _

/-- Without an input of its own, a step gets the default input. -/
theorem Capability.resolveInput_of_hasInput {call : Capability} (h : call.hasInput = false) (fns : Functions)
    (c : Context) : call.resolveInput fns c = .ok c.defaultInput := by
  unfold Capability.resolveInput
  rw [h]
  rfl

/-- **A capability step invokes its capability** with the input that is resolved for it, and what it does after
    that posts nothing. -/
theorem handler_invokes {call : Capability} {c : Context} {body : String → Action Value}
    (hcall : s.call? = some call) (hinput : call.resolveInput x.engine.functions c = .ok input)
    (hbody : x.handler? s c = some body) : (body path).Invokes x path input s brought := by
  have hresolved {α : Type} {f : Value → Action α} (h : (f input).Invokes x path input s brought) :
      (Action.ofExcept (call.resolveInput x.engine.functions c) >>= f).Invokes x path input s brought := by
    rw [hinput]
    exact h
  have hsleep (seconds : Float) : Makes Call.PostsNothing (Action.hostSleep seconds) :=
    makes_hostSleep (Call.postsNothing_hostSleep seconds)
  cases s <;> simp only [Step.call?, Option.some.injEq, reduceCtorEq] at hcall <;> subst hcall <;>
    simp only [Execution.handler?, Option.some.injEq] at hbody <;> subst hbody
  case agent call agent =>
    refine hresolved ?_
    split
    · next hawaits => exact callAgent_invokes hawaits
    · next hawaits => exact (start_invokes (.agentStarted (Bool.not_eq_true _ ▸ hawaits))).map _
  case worker call worker poll =>
    refine hresolved (triggerWorker_invokes.after fun triggered => ?_)
    split
    · refine makes_bind (makes_pollUntilDone ?_ hsleep (by simp [Call.PostsNothing]) _) fun r => ?_
      · exact Dispatch.makes_lookAtJob Call.postsNothing_get _ _ _ fun _ => by simp [Call.PostsNothing]
      · exact makes_bind (Execution.makes_requireCompletion ..) fun _ => makes_pure _
    · exact makes_pure _
  case workflow call workflow =>
    refine hresolved ?_
    split
    · next hawaits =>
      refine (nestedRun_invokes hawaits).after fun runId => ?_
      refine makes_bind (makes_pollUntilDone ?_ hsleep (by simp [Call.PostsNothing]) _) fun r => ?_
      · exact Dispatch.makes_lookAtRun Call.postsNothing_get ..
      · exact makes_bind (Execution.makes_requireCompletion ..) fun _ => makes_pure _
    · exact (start_invokes .started).map _

end

/-! ## Steps -/

namespace Execution

/-- **The deeds of a step that is carried out with an input**: whatever they post invokes its capability with that
    input; and if they report an output, the input has been brought. -/
structure InvokedWith (x : Execution) (path : String) (input : Value) (s : Step) (ds : List Deed) : Prop where
  posts : ∀ d ∈ ds, d.call.PostsOnly x path input s
  brought : ∀ r ∈ reports ds, ∀ v, r.outcome = .ok v → ∃ d ∈ ds, x.Brings path input s d.call d.answer

/-- **A step without an input is carried out with the default input** of its context. -/
theorem walk_invokedWith {x : Execution} {pace : Clock → Clock → Prop} {q : StepPath} {s : Step} {call : Capability}
    {c : Context} {t : Clock} {ds : List Deed} {r : Option (Outcome × Clock)}
    (h : Fiber.Course pace t (x.walk s q c) ds r) (hcall : s.call? = some call) (hinput : call.hasInput = false) :
    x.InvokedWith q.text c.defaultInput s ds := by
  have hleaf : s.isLeaf = true := by cases s <;> first | rfl | simp [Step.call?] at hcall
  obtain ⟨body, hbody, hcourse⟩ := walk_leaf_course hleaf h
  have hresolved := Capability.resolveInput_of_hasInput hinput x.engine.functions c
  have hinvokes : (body q.text).Invokes x q.text c.defaultInput s False := handler_invokes hcall hresolved hbody
  refine ⟨fun d hd => ?_, fun a ha v hv => ?_⟩
  · have hbodyPosts {t ds r} (h : Program.Course pace (some q) t (body q.text).outcome ds r) (hd : d ∈ ds) :=
      (h.makes (Action.Invokes.makes hinvokes) d hd).2
    cases hcourse with
    | unbegun => exact absurd hd List.not_mem_nil
    | replayed => exact List.mem_singleton.mp hd ▸ by simp [Call.PostsOnly]
    | worked _ hwork =>
      rcases List.mem_cons.mp hd with rfl | hd
      · simp [Call.PostsOnly]
      · exact hbodyPosts hwork hd
    | reported _ hwork hes _ =>
      rcases List.mem_cons.mp hd with rfl | hd
      · simp [Call.PostsOnly]
      · rcases List.mem_append.mp hd with hd | hd
        · exact hbodyPosts hwork hd
        · rcases List.mem_cons.mp hd with rfl | hd
          · simp [Call.PostsOnly]
          · cases hes d hd <;> simp [Call.PostsOnly]
  · obtain ⟨t', u, es, hes, hwork⟩ := hcourse.body_of_report hbody ha
    have hend := hwork.heeds hinvokes (Action.Invokes.follows False) _ rfl v hv
    rw [false_or] at hend
    obtain ⟨d, hd, hbrings⟩ := hend
    exact ⟨d, hes hd, hbrings⟩

end Execution

end Runbook
