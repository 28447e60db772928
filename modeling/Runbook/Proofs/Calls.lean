import Runbook.Engine.Walk
import Runbook.Proofs.Course

/-!
# `Proofs.Calls` — what a leaf step can ask of the world

While a leaf step is carried out it asks for replies and events, looks at the clock, and touches
what belongs to its path: its journal entry and its job. It can save the attempt and say that the run
is paused or running again. `makes_handler` says that this is all, whatever the answers are.

## Contents
- **Kinds of calls.** `Call.isOutside`, calls that somebody else answers; `StatusUpdates`;
  `Execution.Serves`, the calls of the step at a path.
- **Actions.** `Action.Makes` for the ways of composing actions.
- **Capabilities.** Requests, triggers, looks, polls.
- **Leaf steps.** `Step.handler?` and `makes_handler`.
-/

namespace Runbook

/-! ## Kinds of calls -/

/-- Calls that somebody else answers: the remote side, the host, or whoever sends an event. The others
    are answered by the state of the run. -/
def Call.isOutside : Call → Bool
  | .request _ | .pause _ | .hostSleep _ | .awaitEvent _ _ | .sendEvent _ _ => true
  | _ => false

/-- Updates that say that a run is paused or goes on, and which event it waits for. -/
def StatusUpdates (updates : Keyed Value) : Prop :=
  ∃ s : RunStatus, (s = .paused ∨ s = .running) ∧
    (updates = [("status", .text s.word)] ∨
      ∃ token, updates = [("status", .text s.word), ("hook_token", .ofText? token)])

/-- The keys of what a leaf step notes while it is carried out. -/
def noteKeys : List String := ["runId", "wakeAt"]

/-- **The calls of a leaf step** that is being carried out, given the text of its path. -/
inductive Execution.Serves (x : Execution) (path : String) : Call → Prop where
  | outside {c : Call} (h : c.isOutside = true) : Serves x path c
  | clock : Serves x path .clock
  | note (e : Event) : Serves x path (.note e)
  | recall : Serves x path (.recall path)
  | amend {fields : Keyed Value} (h : ∀ key ∈ fields.keys, key ∈ noteKeys) :
      Serves x path (.amend path fields)
  | save (h : x.engine.checkpoints = true) : Serves x path (.saveCheckpoint x.runId)
  | status {updates : Keyed Value} (h : StatusUpdates updates) :
      Serves x path (.updateRun x.runId updates)
  | getJob : Serves x path (.store (.getJob (x.jobId path)))
  | setJob (updates : Keyed Value) : Serves x path (.store (.setJob (x.jobId path) updates))

/-! ## Actions -/

/-- All calls that an action can make are of a kind. -/
def Action.Makes {α : Type} (P : Call → Prop) (a : Action α) : Prop := Program.Makes P a.outcome

section

variable {α β : Type} {P : Call → Prop}

theorem Program.makes_bind {p : Program α} {f : α → Program β} (hp : p.Makes P)
    (hf : ∀ a, (f a).Makes P) : (p.bind f).Makes P := by
  induction p with
  | done a => exact hf a
  | ask c next ih => exact ⟨hp.1, fun answer => ih answer (hp.2 answer)⟩

namespace Action

theorem makes_pure (v : α) : Makes P (pure v : Action α) := trivial

theorem makes_throw (f : Fault) : Makes P (throw f : Action α) := trivial

theorem makes_ofExcept (r : Except Fault α) : Makes P (Action.ofExcept r) := trivial

theorem makes_bind {a : Action α} {f : α → Action β} (ha : Makes P a) (hf : ∀ v, Makes P (f v)) :
    Makes P (a >>= f) := by
  refine Program.makes_bind ha fun o => ?_
  cases o with
  | ok v => exact hf v
  | error e => trivial

theorem makes_pure_bind {v : α} {f : α → Action β} (hf : Makes P (f v)) : Makes P (pure v >>= f) := hf

theorem makes_map {a : Action α} (f : α → β) (ha : Makes P a) : Makes P (f <$> a) := by
  refine Program.makes_bind ha fun o => ?_
  cases o <;> trivial

theorem makes_lift {p : Program α} (hp : p.Makes P) : Makes P (ExceptT.lift p : Action α) :=
  Program.makes_bind hp fun _ => trivial

theorem makes_call {c : Call} (h : P c) : Makes P (Action.call c) := makes_lift ⟨h, fun _ => trivial⟩

theorem makes_store {op : StoreOp} (h : P (.store op)) : Makes P (Action.store op) :=
  ⟨h, fun _ => trivial⟩

theorem makes_hostSleep {seconds : Float} (h : P (.hostSleep seconds)) :
    Makes P (Action.hostSleep seconds) := ⟨h, fun _ => trivial⟩

theorem makes_discard {a : Action α} (ha : Makes P a) : Makes P (discard a) := makes_map _ ha

theorem makes_setJob {id : String} {updates : Keyed Value} (h : P (.store (.setJob id updates))) :
    Makes P (Action.setJob id updates) := makes_discard (makes_store h)

theorem makes_getJob {id : String} (h : P (.store (.getJob id))) : Makes P (Action.getJob id) := by
  refine makes_bind (makes_store h) fun answer => ?_
  split <;> exact makes_pure _

end Action

end

open Runbook.Action

/-! ## Capabilities -/

theorem nonEmpty?_of_ne {id : String} (h : id ≠ "") : nonEmpty? (some id) = some id := by
  unfold nonEmpty?
  split
  · next hid => exact absurd (Option.some.inj hid) h
  · rfl

namespace Dispatch

variable {P : Call → Prop}

/-- One request is all that an exchange asks for. -/
theorem makes_exchange {method url : String} {body : Option Value} {headers : Keyed String}
    (h : P (.request ⟨method, url, body, headers⟩)) :
    Makes P (exchange method url body headers) := by
  unfold exchange
  split
  · exact makes_throw _
  · refine makes_bind (makes_call h) fun reply => ?_
    split
    · exact makes_pure _
    · exact makes_throw _

theorem makes_requireSuccess (r : Response) (url what : String) :
    Makes P (requireSuccess r url what) := by
  unfold requireSuccess
  split
  · exact makes_pure _
  · exact makes_throw _

/-! ### Looks -/

section

variable (hget : ∀ url : String, P (.request ⟨"GET", url, none, []⟩))
include hget

theorem makes_statusReply (url what : String) : Makes P (statusReply url what) := by
  unfold statusReply
  refine makes_bind (makes_exchange (hget _)) fun response => ?_
  split
  · exact makes_pure _
  · refine makes_bind (makes_requireSuccess ..) fun _ => ?_
    split
    · exact makes_pure _
    · exact makes_throw _

theorem makes_lookAtRun (settings : DispatchSettings) (workflow runId : String) :
    Makes P (lookAtRun settings workflow runId) := by
  unfold lookAtRun
  refine makes_bind (makes_statusReply hget ..) fun reply => ?_
  split
  · exact makes_pure _
  · exact makes_ofExcept _

theorem makes_lookAtJob (settings : DispatchSettings) (worker jobId : String)
    (hset : ∀ updates, P (.store (.setJob jobId updates))) :
    Makes P (lookAtJob settings worker jobId) := by
  unfold lookAtJob
  refine makes_bind (makes_statusReply hget ..) fun reply => ?_
  split
  · exact makes_pure _
  · refine makes_bind (makes_ofExcept _) fun o => ?_
    refine makes_bind ?_ fun _ => makes_pure _
    exact makes_discard (makes_lift (makes_setJob (hset _)))

end

/-! ### Starts and triggers -/

theorem makes_startedRun (workflow url : String) (response : Response) :
    Makes P (startedRun workflow url response) := by
  unfold startedRun
  split
  · exact makes_throw _
  · dsimp only
    split
    · exact makes_bind (makes_ofExcept _) fun status => makes_pure _
    · exact makes_pure_bind (makes_pure _)

variable (hrequest : ∀ r : Request, P (.request r))
include hrequest

theorem makes_callAgent (settings : DispatchSettings) (agent : String) (input : Value)
    (messages : List Value) : Makes P (callAgent settings agent input messages) := by
  unfold callAgent
  refine makes_bind (makes_exchange (hrequest _)) fun response => ?_
  exact makes_bind (makes_requireSuccess ..) fun _ => makes_pure _

theorem makes_startWorkflow (settings : DispatchSettings) (workflow : String) (input : Value)
    (messages : List Value) (executionId : Option String) :
    Makes P (startWorkflow settings workflow input messages executionId) :=
  makes_bind (makes_exchange (hrequest _)) fun _ =>
    makes_bind (makes_requireSuccess ..) fun _ => makes_startedRun ..

omit hrequest

/-- The request that triggers a worker. -/
def triggerRequest (settings : DispatchSettings) (worker : String) (message : Value) : Request :=
  ⟨"POST", Address.workerTriggerUrl settings,
    some (.object [("workerId", .text worker), ("body", message)]), triggerHeaders settings⟩

theorem makes_sendTrigger {settings : DispatchSettings} {worker jobId : String} {message : Value}
    (hpost : P (.request (triggerRequest settings worker message)))
    (hset : ∀ updates, P (.store (.setJob jobId updates))) :
    Makes P (sendTrigger settings worker jobId message) := by
  unfold sendTrigger
  refine makes_bind (makes_lift ?_) fun o => ?_
  · refine makes_bind (makes_exchange hpost) fun response => ?_
    exact makes_bind (makes_requireSuccess ..) fun _ => makes_pure _
  · split
    · exact makes_pure _
    · exact makes_bind (makes_setJob (hset _)) fun _ => makes_throw _
    · exact makes_throw _

/-- A trigger posts at most the message for its worker. -/
theorem makes_triggerWorker {settings : DispatchSettings} {worker jobId : String} {input : Value}
    {awaits : Bool} {context : Value}
    (hpost : ∀ time, P (.request (triggerRequest settings worker
      (triggerMessage worker jobId input context
        (if awaits then Address.webhookUrl? settings worker else none) time))))
    (hne : jobId ≠ "") (hclock : P .clock)
    (hget : P (.store (.getJob jobId))) (hset : ∀ updates, P (.store (.setJob jobId updates))) :
    Makes P (triggerWorker settings worker input (some jobId) awaits context) := by
  unfold triggerWorker
  rw [nonEmpty?_of_ne hne]
  refine makes_pure_bind (makes_bind (makes_getJob hget) fun existing => ?_)
  split
  · exact makes_pure _
  · refine makes_bind (makes_setJob (hset _)) fun _ => ?_
    refine makes_bind (makes_map _ (makes_call hclock)) fun time => ?_
    refine makes_bind (makes_sendTrigger (hpost time) hset) fun response => ?_
    split
    · exact makes_bind (makes_setJob (hset _)) fun _ => makes_pure _
    · exact makes_pure _

end Dispatch

section

variable {P : Call → Prop}

theorem makes_elapsedSince (hclock : P .clock) (started : Clock) :
    Makes P (elapsedSince started) := makes_bind (makes_call hclock) fun _ => makes_pure _

theorem makes_pollLoop {look : Action Observation} {sleep : Float → Action Unit}
    (hlook : Makes P look) (hsleep : ∀ s, Makes P (sleep s)) (hclock : P .clock) (b : PollBounds)
    (started : Clock) (left attempts : Nat) :
    Makes P (pollLoop look sleep b started left attempts) := by
  induction left generalizing attempts with
  | zero => exact makes_bind (makes_elapsedSince hclock _) fun _ => makes_pure _
  | succ left ih =>
    unfold pollLoop
    refine makes_bind (makes_lift hlook) fun o => ?_
    refine makes_bind (makes_elapsedSince hclock _) fun elapsed => ?_
    split
    · exact makes_pure _
    · split
      · exact makes_pure _
      · refine makes_bind (makes_ofExcept _) fun pause => ?_
        split
        · exact makes_pure _
        · refine makes_bind (hsleep _) fun _ => ?_
          refine makes_bind (makes_elapsedSince hclock _) fun elapsed => ?_
          split
          · exact makes_pure _
          · exact ih _

theorem makes_pollUntilDone {look : Action Observation} {sleep : Float → Action Unit}
    (hlook : Makes P look) (hsleep : ∀ s, Makes P (sleep s)) (hclock : P .clock) (b : PollBounds) :
    Makes P (pollUntilDone look sleep b) :=
  makes_bind (makes_call hclock) fun started => makes_pollLoop hlook hsleep hclock b started _ _

end

/-! ## Leaf steps -/

/-- How the output of a leaf step is computed, given a context and the text of a path. -/
def Execution.handler? (x : Execution) : Step → Context → Option (String → Action Value)
  | .agent call agent, c => some (x.runAgent call agent c)
  | .worker call worker poll, c => some (x.runWorker call worker poll c)
  | .workflow call workflow, c => some (x.runWorkflow call workflow c)
  | .hook h, c => some fun _ => x.runHook h c
  | .sleep _ duration, _ => some (x.runSleep duration)
  | .condition .., _ | .parallel .., _ | .foreign .., _ => none

theorem Execution.handler?_of_isLeaf (x : Execution) {s : Step} (h : s.isLeaf = true) (c : Context) :
    ∃ body, x.handler? s c = some body := by
  cases s <;> first | exact ⟨_, rfl⟩ | simp [Step.isLeaf] at h

/-- A step with a handler is a leaf. -/
theorem Execution.walk_of_handler {x : Execution} {s : Step} {c : Context}
    {body : String → Action Value} (h : x.handler? s c = some body) (path : StepPath) :
    x.walk s path c = x.leaf path s.id? c body := by
  cases s <;> simp only [Execution.handler?, Option.some.injEq, reduceCtorEq] at h <;>
    subst h <;> simp only [Execution.walk, Step.id?]

namespace Execution

variable {x : Execution} {path : String}

theorem jobId_ne_empty (x : Execution) (path : String) : x.jobId path ≠ "" := by
  intro h
  have := congrArg String.toList h
  simp [jobId, String.toList_append] at this

theorem makes_saveCheckpoint : Makes (x.Serves path) x.saveCheckpoint := by
  unfold saveCheckpoint
  split
  · next h => exact makes_call (.save h)
  · exact makes_pure _

theorem makes_note {fields : Keyed Value} (h : ∀ key ∈ fields.keys, key ∈ noteKeys) :
    Makes (x.Serves path) (x.note path fields) :=
  makes_bind (makes_call (.amend h)) fun _ =>
    makes_bind (makes_ofExcept _) fun _ => makes_saveCheckpoint

theorem makes_noted (key : String) : Makes (x.Serves path) (noted path key) :=
  makes_bind (makes_call .recall) fun _ => makes_ofExcept _

theorem makes_writeRun {updates : Keyed Value} (h : StatusUpdates updates) :
    Makes (x.Serves path) (x.writeRun updates) := makes_call (.status h)

theorem makes_requireCompletion {P : Call → Prop} (r : PollResult) (what : String) :
    Makes P (requireCompletion r what) := by
  unfold requireCompletion
  split
  · exact makes_pure _
  · exact makes_throw _
  · exact makes_throw _

theorem makes_runAgent (call : Capability) (agent : String) (c : Context) :
    Makes (x.Serves path) (x.runAgent call agent c path) := by
  unfold runAgent
  refine makes_bind (makes_ofExcept _) fun input => ?_
  split
  · exact Dispatch.makes_callAgent (fun _ => .outside rfl) ..
  · exact makes_map _ (Dispatch.makes_startWorkflow (fun _ => .outside rfl) ..)

theorem makes_runWorker (call : Capability) (worker : String) (poll : Option PollPolicy)
    (c : Context) : Makes (x.Serves path) (x.runWorker call worker poll c path) := by
  unfold runWorker
  refine makes_bind (makes_ofExcept _) fun input => ?_
  refine makes_bind (Dispatch.makes_triggerWorker (fun _ => .outside rfl)
    (x.jobId_ne_empty path) .clock .getJob .setJob) fun triggered => ?_
  split
  · refine makes_bind (makes_pollUntilDone ?_ (fun _ => makes_hostSleep (.outside rfl)) .clock _)
      fun r => ?_
    · exact Dispatch.makes_lookAtJob (fun _ => .outside rfl) _ _ _ .setJob
    · exact makes_bind (makes_requireCompletion ..) fun _ => makes_pure _
  · exact makes_pure _

theorem makes_nestedRun (workflow : String) (input : Value) :
    Makes (x.Serves path) (x.nestedRun workflow input path) := by
  unfold nestedRun
  refine makes_bind (makes_noted _) fun found => ?_
  split
  · refine makes_bind (Dispatch.makes_startWorkflow (fun _ => .outside rfl) ..) fun r => ?_
    refine makes_bind (makes_note ?_) fun _ => makes_pure _
    simp [Keyed.keys, noteKeys]
  · exact makes_pure _

theorem makes_runWorkflow (call : Capability) (workflow : String) (c : Context) :
    Makes (x.Serves path) (x.runWorkflow call workflow c path) := by
  unfold runWorkflow
  refine makes_bind (makes_ofExcept _) fun input => ?_
  split
  · refine makes_bind (makes_nestedRun ..) fun runId => ?_
    refine makes_bind (makes_pollUntilDone ?_ (fun _ => makes_hostSleep (.outside rfl)) .clock _)
      fun r => ?_
    · exact Dispatch.makes_lookAtRun (fun _ => .outside rfl) ..
    · exact makes_bind (makes_requireCompletion ..) fun _ => makes_pure _
  · exact makes_map _ (Dispatch.makes_startWorkflow (fun _ => .outside rfl) ..)

theorem makes_runHook (h : Hook) (c : Context) : Makes (x.Serves path) (x.runHook h c) := by
  unfold runHook
  refine makes_bind (makes_ofExcept _) fun token => ?_
  refine makes_bind (makes_ofExcept _) fun seconds => ?_
  refine makes_bind (makes_writeRun ⟨.paused, .inl rfl, .inr ⟨some token, rfl⟩⟩) fun _ => ?_
  refine makes_bind ?_ fun event => ?_
  · exact makes_bind (makes_call (.note _)) fun _ => makes_call (.outside rfl)
  · refine makes_bind (makes_writeRun ⟨.running, .inr rfl, .inr ⟨none, rfl⟩⟩) fun _ => ?_
    split
    · exact makes_throw _
    · exact makes_bind (makes_ofExcept _) fun _ => makes_pure _

theorem makes_wakeTime (d : Duration) : Makes (x.Serves path) (x.wakeTime d path) := by
  unfold wakeTime
  refine makes_bind (makes_noted _) fun found => ?_
  split
  · refine makes_bind (makes_call .clock) fun now => ?_
    refine makes_bind (makes_ofExcept _) fun seconds => ?_
    refine makes_bind (makes_note ?_) fun _ => makes_pure _
    simp [Keyed.keys, noteKeys]
  all_goals first | exact makes_pure _ | exact makes_throw _

theorem makes_runSleep (d : Duration) : Makes (x.Serves path) (x.runSleep d path) := by
  unfold runSleep
  refine makes_bind (makes_wakeTime d) fun wakeAt => ?_
  refine makes_bind (makes_call .clock) fun now => ?_
  refine makes_bind (makes_writeRun ⟨.paused, .inl rfl, .inl rfl⟩) fun _ => ?_
  refine makes_bind (makes_hostSleep (.outside rfl)) fun _ => ?_
  exact makes_bind (makes_writeRun ⟨.running, .inr rfl, .inl rfl⟩) fun _ => makes_pure _

/-- **A leaf step asks only for what belongs to it.** -/
theorem makes_handler {s : Step} {c : Context} {body : String → Action Value}
    (h : x.handler? s c = some body) : Makes (x.Serves path) (body path) := by
  cases s <;> simp only [handler?, Option.some.injEq, reduceCtorEq] at h <;> subst h
  case agent => exact makes_runAgent ..
  case worker => exact makes_runWorker ..
  case workflow => exact makes_runWorkflow ..
  case hook => exact makes_runHook ..
  case sleep => exact makes_runSleep ..

end Execution

end Runbook
