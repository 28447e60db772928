import Mathlib.Algebra.Order.BigOperators.Group.List
import Mathlib.Algebra.Order.Ring.Nat
import Runbook.Proofs.Lineage
import Runbook.Proofs.Places
import Runbook.Proofs.Readiness

/-!
# `Proofs.Requests` — how many requests an attempt makes

A leaf of the tree is carried out at most once in an attempt. To start what it starts it sends one request; and if
it waits for the end, it looks at most as often as its poll policy allows, whatever the intervals, the clock
and the replies are, and whether looks fail. So the plan, together with the poll bounds of the engine, limits
the requests of each step and of the whole attempt.

## Contents
- **Programs.** `Program.AtMost`, at most so many requests of a kind, with its ways of composing.
- **Capabilities.** What starts something sends one request; a poll looks at most as often as it may
  (`pollLoop_atMost`, by induction on the looks that are left).
- **Leaves.** `Step.mostStarts` and `Plan.mostLooks`; `handler_atMost` and `carryOut_atMost`.
- **Attempts.** `Trial.SetsOut`, and `Attempted.setsOut`, by induction on the attempts;
  `Trial.SetsOut.confined`: nothing is sent but for leaves of the plan.
- **The result.** `requests_bounded`.
-/

namespace Runbook

/-! ## Programs -/

/-- A request that only looks. -/
def Request.isLook (r : Request) : Bool := r.method == "GET"

/-- A request that starts something. -/
def Request.isStart (r : Request) : Bool := !r.isLook

/-- A call that makes a request of a kind. -/
def Call.sends (kind : Request → Bool) : Call → Bool
  | .request r => kind r
  | _ => false

/-- How many requests of a kind are made. -/
def sentIn (kind : Request → Bool) (ds : List Deed) : Nat := ds.countP fun d => d.call.sends kind

section

variable {α β : Type} {kind : Request → Bool} {m n : Nat}

/-- **At most so many requests of a kind** are made by a program, whatever it is told. -/
def Program.AtMost (kind : Request → Bool) : Program α → Nat → Prop
  | .done _, _ => True
  | .ask c next, n => ∃ m, m + (c.sends kind).toNat ≤ n ∧ ∀ answer, (next answer).AtMost kind m

namespace Program

variable {p : Program α} {f : α → Program β}

theorem AtMost.mono (h : p.AtMost kind m) (hmn : m ≤ n) : p.AtMost kind n := by
  cases p with
  | done a => trivial
  | ask c next =>
    obtain ⟨k, hk, hnext⟩ := h
    exact ⟨k, Nat.le_trans hk hmn, hnext⟩

theorem AtMost.bind (hp : p.AtMost kind m) (hf : ∀ a, (f a).AtMost kind n) : (p.bind f).AtMost kind (m + n) := by
  induction p generalizing m with
  | done a => exact (hf a).mono (Nat.le_add_left ..)
  | ask c next ih =>
    obtain ⟨k, hk, hnext⟩ := hp
    exact ⟨k + n, by omega, fun answer => ih answer (hnext answer)⟩

/-- A program that makes no call of the kind. -/
theorem AtMost.of_makes (h : p.Makes fun c => c.sends kind = false) : p.AtMost kind 0 := by
  induction p with
  | done a => trivial
  | ask c next ih => exact ⟨0, by simp [h.1], fun answer => ih answer (h.2 answer)⟩

/-- **What a program makes at most, is made at most** in a course of it. -/
theorem Course.sentIn_le {pace : Clock → Clock → Prop} {step : Option StepPath} {t : Clock} {ds : List Deed}
    {r : Option (α × Clock)} (h : Program.Course pace step t p ds r) (hp : p.AtMost kind n) :
    sentIn kind ds ≤ n := by
  induction h generalizing n with
  | stopped => exact Nat.zero_le n
  | done => exact Nat.zero_le n
  | @ask _ _ _ c _ answer _ _ _ _ _ ih =>
    obtain ⟨k, hk, hnext⟩ := hp
    have hrest := ih (hnext answer)
    rw [sentIn, List.countP_cons]
    unfold sentIn at hrest
    cases hc : c.sends kind <;> simp [hc] at hk ⊢ <;> omega

end Program

/-- At most so many requests of a kind are made by an action. -/
def Action.AtMost (kind : Request → Bool) (a : Action α) (n : Nat) : Prop := Program.AtMost kind a.outcome n

namespace Action

variable {a : Action α} {f : α → Action β}

theorem AtMost.mono (h : a.AtMost kind m) (hmn : m ≤ n) : a.AtMost kind n := Program.AtMost.mono h hmn

theorem AtMost.of_makes (h : a.Makes fun c => c.sends kind = false) : a.AtMost kind 0 :=
  Program.AtMost.of_makes h

theorem atMost_pure (v : α) : AtMost kind (pure v : Action α) n := trivial

theorem atMost_throw (g : Fault) : AtMost kind (throw g : Action α) n := trivial

theorem AtMost.bind (ha : a.AtMost kind m) (hf : ∀ v, (f v).AtMost kind n) : (a >>= f).AtMost kind (m + n) := by
  unfold AtMost
  rw [outcome_bind]
  refine Program.AtMost.bind ha fun o => ?_
  cases o with
  | ok v => exact hf v
  | error e => trivial

/-- What comes first makes no such request. -/
theorem AtMost.after (ha : a.Makes fun c => c.sends kind = false) (hf : ∀ v, (f v).AtMost kind n) :
    (a >>= f).AtMost kind n := by
  rw [← Nat.zero_add n]
  exact (AtMost.of_makes ha).bind hf

/-- What comes after makes no such request. -/
theorem AtMost.before (ha : a.AtMost kind n) (hf : ∀ v, (f v).Makes fun c => c.sends kind = false) :
    (a >>= f).AtMost kind n := ha.bind fun v => .of_makes (hf v)

theorem AtMost.map {g : α → β} (ha : a.AtMost kind n) : (g <$> a).AtMost kind n :=
  Program.AtMost.bind (n := 0) ha fun o => by cases o <;> trivial

theorem AtMost.lift {p : Program α} (hp : p.AtMost kind n) : (ExceptT.lift p : Action α).AtMost kind n :=
  Program.AtMost.bind (n := 0) hp fun _ => trivial

end Action

open Runbook.Action

/-! ## Capabilities -/

/-- **A kind of requests** of which a request that starts something counts for so much, and a look for so much. -/
structure Weighs (kind : Request → Bool) (m n : Nat) : Prop where
  start (url : String) (body : Option Value) (headers : Keyed String) : (kind ⟨"POST", url, body, headers⟩).toNat ≤ m
  look (url : String) : (kind ⟨"GET", url, none, []⟩).toNat ≤ n

theorem weighs_isStart : Weighs Request.isStart 1 0 := ⟨fun _ _ _ => Nat.le_refl _, fun _ => Nat.le_refl _⟩

theorem weighs_isLook : Weighs Request.isLook 0 1 := ⟨fun _ _ _ => Nat.le_refl _, fun _ => Nat.le_refl _⟩

namespace Dispatch

variable {settings : DispatchSettings}

/-- An exchange is one request, or none. -/
theorem exchange_atMost {method url : String} {body : Option Value} {headers : Keyed String}
    (h : (kind ⟨method, url, body, headers⟩).toNat ≤ n) : (exchange method url body headers).AtMost kind n := by
  unfold exchange
  split
  · exact atMost_throw _
  · refine AtMost.before ⟨0, by rw [Nat.zero_add]; exact h, fun _ => trivial⟩ fun reply => ?_
    split
    · exact makes_pure _
    · exact makes_throw _

section

variable (hkind : Weighs kind m n)
include hkind

theorem callAgent_atMost (agent : String) (input : Value) (messages : List Value) :
    (callAgent settings agent input messages).AtMost kind m := by
  unfold callAgent
  exact (exchange_atMost (hkind.start ..)).before fun response =>
    makes_bind (makes_requireSuccess ..) fun _ => makes_pure _

theorem startWorkflow_atMost (workflow : String) (input : Value) (messages : List Value)
    (executionId : Option String) :
    (startWorkflow settings workflow input messages executionId).AtMost kind m :=
  (exchange_atMost (hkind.start ..)).before fun _ =>
    makes_bind (makes_requireSuccess ..) fun _ => makes_startedRun ..

theorem sendTrigger_atMost (worker jobId : String) (message : Value) :
    (sendTrigger settings worker jobId message).AtMost kind m := by
  unfold sendTrigger
  refine AtMost.before (AtMost.lift ?_) fun o => ?_
  · exact (exchange_atMost (hkind.start ..)).before fun response =>
      makes_bind (makes_requireSuccess ..) fun _ => makes_pure _
  · split
    · exact makes_pure _
    · exact makes_bind (makes_setJob rfl) fun _ => makes_throw _
    · exact makes_throw _

theorem triggerWorker_atMost {jobId : String} (hid : jobId ≠ "") (worker : String) (input : Value) (awaits : Bool)
    (context : Value) : (triggerWorker settings worker input (some jobId) awaits context).AtMost kind m := by
  unfold triggerWorker
  rw [nonEmpty?_of_ne hid]
  refine AtMost.after (makes_pure _) fun _ => AtMost.after (makes_getJob rfl) fun existing => ?_
  split
  · exact atMost_pure _
  · refine AtMost.after (makes_setJob rfl) fun _ => AtMost.after (makes_map _ (makes_call rfl)) fun time => ?_
    refine (sendTrigger_atMost hkind ..).before fun response => ?_
    split
    · exact makes_bind (makes_setJob rfl) fun _ => makes_pure _
    · exact makes_pure _

theorem statusReply_atMost (url what : String) : (statusReply url what).AtMost kind n := by
  unfold statusReply
  refine (exchange_atMost (hkind.look url)).before fun response => ?_
  split
  · exact makes_pure _
  · refine makes_bind (makes_requireSuccess ..) fun _ => ?_
    split
    · exact makes_pure _
    · exact makes_throw _

theorem lookAtJob_atMost (worker jobId : String) : (lookAtJob settings worker jobId).AtMost kind n := by
  unfold lookAtJob
  refine (statusReply_atMost hkind ..).before fun reply => ?_
  split
  · exact makes_pure _
  · exact makes_bind (makes_ofExcept _) fun o =>
      makes_bind (makes_discard (makes_lift (makes_setJob rfl))) fun _ => makes_pure _

theorem lookAtRun_atMost (workflow runId : String) : (lookAtRun settings workflow runId).AtMost kind n := by
  unfold lookAtRun
  refine (statusReply_atMost hkind ..).before fun reply => ?_
  split
  · exact makes_pure _
  · exact makes_ofExcept _

end

end Dispatch

section

variable {look : Action Observation} {b : PollBounds}

/-- **A poll looks at most as often as it may**, whether or not its looks fail. By induction on the looks that are
    left. -/
theorem pollLoop_atMost (hlook : look.AtMost kind n) (started : Clock) (left : Nat) :
    ∀ attempts, (pollLoop look Action.hostSleep b started left attempts).AtMost kind (n * left) := by
  have helapsed : (elapsedSince started).Makes fun c => c.sends kind = false :=
    makes_elapsedSince (P := fun c => c.sends kind = false) rfl started
  induction left with
  | zero => exact fun attempts => .of_makes (makes_bind helapsed fun _ => makes_pure _)
  | succ left ih =>
    intro attempts
    rw [pollLoop, Nat.mul_succ, Nat.add_comm (n * left) n]
    refine AtMost.bind (AtMost.lift hlook) fun seen => AtMost.after helapsed fun elapsed => ?_
    split
    · exact atMost_pure _
    · split
      · exact atMost_pure _
      · refine AtMost.after (makes_ofExcept _) fun pause => ?_
        split
        · exact atMost_pure _
        · refine AtMost.after (makes_hostSleep rfl) fun _ => AtMost.after helapsed fun elapsed => ?_
          split
          · exact atMost_pure _
          · exact ih _

theorem pollUntilDone_atMost (hlook : look.AtMost kind n) :
    (pollUntilDone look Action.hostSleep b).AtMost kind (n * b.looks) :=
  AtMost.after (makes_call rfl) fun started => pollLoop_atMost hlook started _ _

end

/-! ## Leaves -/

/-- How many requests a step sends to start something. -/
def Step.mostStarts : Step → Nat
  | .agent .. | .worker .. | .workflow .. => 1
  | _ => 0

/-- **How often a step may look** for the end of what it has started: at least once; for a worker as often as the
    policy of the step says, or that of the plan, or else that of the engine, and for a workflow as that of the plan
    says, or else by default. -/
def Plan.mostLooks (p : Plan) (e : Engine) : Step → Nat
  | .worker call _ poll =>
    if call.awaits false then
      max 1 (((poll.bind PollPolicy.maxRetries).or (p.workerPoll.bind PollPolicy.maxRetries)).getD
        e.workerPoll.maxRetries).toNat
    else 0
  | .workflow call _ =>
    if call.awaits true then max 1 ((p.workflowPoll.bind PollPolicy.maxRetries).getD 120).toNat else 0
  | _ => 0

namespace Execution

variable {x : Execution}

/-- The policies of a worker step leave a bound, and the first that sets one decides. -/
theorem looks_workerPolicy (poll : Option PollPolicy) :
    (x.workerPolicy poll).toBounds.looks
      = max 1 (((poll.bind PollPolicy.maxRetries).or (x.plan.workerPoll.bind PollPolicy.maxRetries)).getD
          x.engine.workerPoll.maxRetries).toNat := by
  have hretries : (x.workerPolicy poll).maxRetries
      = some (((poll.bind PollPolicy.maxRetries).or (x.plan.workerPoll.bind PollPolicy.maxRetries)).getD
          x.engine.workerPoll.maxRetries) := by
    unfold workerPolicy PollPolicy.merge
    cases poll with
    | none => cases x.plan.workerPoll <;> simp [PollPolicy.withBase, PollDefaults.toPolicy]
    | some p => cases x.plan.workerPoll <;> simp [PollPolicy.withBase, PollDefaults.toPolicy]
  rw [PollBounds.looks, PollPolicy.toBounds, hretries]

theorem looks_workflowPolicy :
    x.workflowPolicy.toBounds.looks = max 1 ((x.plan.workflowPoll.bind PollPolicy.maxRetries).getD 120).toNat := by
  have hretries : x.workflowPolicy.maxRetries = some ((x.plan.workflowPoll.bind PollPolicy.maxRetries).getD 120) := by
    unfold workflowPolicy PollPolicy.merge
    cases x.plan.workflowPoll <;> simp [PollPolicy.withBase, workflowDefaults]
  rw [PollBounds.looks, PollPolicy.toBounds, hretries]

/-- A saved checkpoint is no request. -/
theorem saveCheckpoint_sends : x.saveCheckpoint.Makes fun c => c.sends kind = false :=
  saveCheckpoint_makes (P := fun c => c.sends kind = false) rfl

theorem noted_sends (path key : String) : (noted path key).Makes fun c => c.sends kind = false :=
  makes_bind (makes_call rfl) fun _ => makes_ofExcept _

theorem note_sends (path : String) (fields : Keyed Value) :
    (x.note path fields).Makes fun c => c.sends kind = false :=
  makes_bind (makes_call rfl) fun _ => makes_bind (makes_ofExcept _) fun _ => saveCheckpoint_sends

theorem runAgent_atMost (hkind : Weighs kind m n) (call : Capability) (agent : String) (c : Context)
    (path : String) : (x.runAgent call agent c path).AtMost kind m := by
  unfold runAgent
  refine AtMost.after (makes_ofExcept _) fun input => ?_
  split
  · exact Dispatch.callAgent_atMost hkind ..
  · exact (Dispatch.startWorkflow_atMost hkind ..).map

/-- A worker is triggered, and then polled if its end is awaited. -/
theorem runWorker_atMost (hkind : Weighs kind m n) (call : Capability) (worker : String) (poll : Option PollPolicy)
    (c : Context) (path : String) :
    (x.runWorker call worker poll c path).AtMost kind
      (m + n * x.plan.mostLooks x.engine (.worker call worker poll)) := by
  unfold runWorker
  refine AtMost.after (makes_ofExcept _) fun input => ?_
  refine (Dispatch.triggerWorker_atMost hkind (x.jobId_ne_empty path) ..).bind fun triggered => ?_
  rw [Plan.mostLooks, ← looks_workerPolicy]
  split
  · exact (pollUntilDone_atMost (Dispatch.lookAtJob_atMost hkind ..)).before fun r =>
      makes_bind (makes_requireCompletion ..) fun _ => makes_pure _
  · exact atMost_pure _

theorem nestedRun_atMost (hkind : Weighs kind m n) (workflow : String) (input : Value) (path : String) :
    (x.nestedRun workflow input path).AtMost kind m := by
  unfold nestedRun
  refine AtMost.after (noted_sends ..) fun found => ?_
  split
  · exact (Dispatch.startWorkflow_atMost hkind ..).before fun r => makes_bind (note_sends ..) fun _ => makes_pure _
  · exact atMost_pure _

/-- A run elsewhere is started, unless it was before, and then polled if its end is awaited. -/
theorem runWorkflow_atMost (hkind : Weighs kind m n) (call : Capability) (workflow : String) (c : Context)
    (path : String) :
    (x.runWorkflow call workflow c path).AtMost kind (m + n * x.plan.mostLooks x.engine (.workflow call workflow)) := by
  unfold runWorkflow
  refine AtMost.after (makes_ofExcept _) fun input => ?_
  rw [Plan.mostLooks, ← looks_workflowPolicy]
  split
  · refine (nestedRun_atMost hkind ..).bind fun runId => ?_
    exact (pollUntilDone_atMost (Dispatch.lookAtRun_atMost hkind ..)).before fun r =>
      makes_bind (makes_requireCompletion ..) fun _ => makes_pure _
  · exact (Dispatch.startWorkflow_atMost hkind ..).map.mono (Nat.le_add_right ..)

/-- A hook and a sleep ask nothing of the remote side. -/
theorem runHook_sends (h : Hook) (c : Context) : (x.runHook h c).Makes fun c => c.sends kind = false := by
  unfold runHook awaitEvent
  refine makes_bind (makes_ofExcept _) fun token => makes_bind (makes_ofExcept _) fun seconds => ?_
  refine makes_bind (makes_call rfl) fun _ => ?_
  refine makes_bind (makes_bind (makes_call rfl) fun _ => makes_call rfl) fun event => ?_
  refine makes_bind (makes_call rfl) fun _ => ?_
  split
  · exact makes_throw _
  · exact makes_bind (makes_ofExcept _) fun _ => makes_pure _

theorem runSleep_sends (d : Duration) (path : String) :
    (x.runSleep d path).Makes fun c => c.sends kind = false := by
  unfold runSleep wakeTime
  refine makes_bind (makes_bind (noted_sends ..) fun found => ?_) fun wakeAt => ?_
  · split
    · exact makes_bind (makes_call rfl) fun _ => makes_bind (makes_ofExcept _) fun _ =>
        makes_bind (note_sends ..) fun _ => makes_pure _
    all_goals first | exact makes_pure _ | exact makes_throw _
  · refine makes_bind (makes_call rfl) fun now => makes_bind (makes_call rfl) fun _ => ?_
    exact makes_bind (makes_hostSleep rfl) fun _ => makes_bind (makes_call rfl) fun _ => makes_pure _

/-- **What a leaf sends**, it sends as often as its kind allows. -/
theorem handler_atMost (hkind : Weighs kind m n) {s : Step} {c : Context} {body : String → Action Value}
    (h : x.handler? s c = some body) (path : String) :
    (body path).AtMost kind (m * s.mostStarts + n * x.plan.mostLooks x.engine s) := by
  cases s <;> simp only [handler?, Option.some.injEq, reduceCtorEq] at h <;> subst h
  case agent => simpa [Step.mostStarts, Plan.mostLooks] using runAgent_atMost hkind ..
  case worker => simpa [Step.mostStarts] using runWorker_atMost hkind ..
  case workflow => simpa [Step.mostStarts] using runWorkflow_atMost hkind ..
  case hook => exact .of_makes (runHook_sends ..)
  case sleep => exact .of_makes (runSleep_sends ..)

/-- Carrying out a leaf sends nothing beside. -/
theorem carryOut_atMost {path : StepPath} {id : Option String} {c : Context} {body : Action Value}
    (hbody : body.AtMost kind n) : (x.carryOut path id c body).AtMost kind n := by
  have hjournal (entry : Keyed Value) : (x.journal path.text entry).Makes fun c => c.sends kind = false :=
    makes_bind (makes_call rfl) fun _ => saveCheckpoint_sends
  unfold carryOut
  refine AtMost.after (makes_call rfl) fun found => AtMost.after (makes_ofExcept _) fun output => ?_
  split
  · exact atMost_pure _
  · refine AtMost.after (makes_ofExcept _) fun error => ?_
    split
    · exact atMost_throw _
    · unfold carryOutNew
      refine AtMost.before (AtMost.lift hbody) fun o => makes_bind (makes_call rfl) fun _ => ?_
      split
      · refine makes_bind ?_ fun _ => makes_throw _
        unfold journalFault
        split
        · exact hjournal _
        · exact makes_pure _
      · exact makes_bind (hjournal _) fun _ => makes_pure _

/-- **What is sent in a course of a leaf.** -/
theorem walk_sentIn_le (hkind : Weighs kind m n) {s : Step} (hleaf : s.isLeaf = true)
    {pace : Clock → Clock → Prop} {t : Clock} {path : StepPath} {c : Context} {ds : List Deed}
    {r : Option (Outcome × Clock)} (h : Fiber.Course pace t (x.walk s path c) ds r) :
    sentIn kind ds ≤ m * s.mostStarts + n * x.plan.mostLooks x.engine s := by
  obtain ⟨body, hbody, hprogram⟩ := program_of_leaf hleaf h
  exact hprogram.sentIn_le (carryOut_atMost (handler_atMost hkind hbody _))

end Execution

end

/-! ## Attempts -/

/-- What is done for no step, and asks nothing of others. -/
def Aside (ds : List Deed) : Prop := ∀ d ∈ ds, d.step = none ∧ d.call.isOutside = false

theorem Aside.of_course {α : Type} {pace : Clock → Clock → Prop} {t : Clock} {p : Program α} {ds : List Deed}
    {r : Option (α × Clock)} (h : Program.Course pace none t p ds r) (hp : p.Makes fun c => c.isOutside = false) :
    Aside ds := h.makes hp

/-- **What is asked of others is asked for leaves of the plan**, and what is done for a leaf is one course of it. -/
structure Execution.Confined (pace : Clock → Clock → Prop) (x : Execution) (ds : List Deed) : Prop where
  layout : Layout pace x x.plan.Has False ds
  owned : ∀ d ∈ ds, d.call.isOutside = true → ∃ q, d.step = some q

/-- **A record from which nobody goes back behind the first step**: the position that its checkpoint names is not
    below zero, if the run can be continued from it. -/
def World.Forward (w : World) (id : String) : Prop :=
  ∀ checkpoint snapshot k, w.Continues id checkpoint → checkpoint.context? = some snapshot →
    checkpoint.cursor = .ok k → 0 ≤ k

/-- **An attempt at a run**, from its beginning or from the checkpoint of its record. -/
inductive Trial.SetsOut (pace : Clock → Clock → Prop) (source : PlanSource) (a : Trial) : Prop where
  | anew {given executionId : Option String}
      (hruns : a.before.Runs pace (a.engine.run source given executionId) a.deeds a.result a.after)
  | again {id : String} (hforward : a.before.Forward id)
      (hruns : a.before.Runs pace (a.engine.resume source id) a.deeds a.result a.after)

section

variable {pace : Clock → Clock → Prop} {x : Execution} {e : Engine} {source : PlanSource} {plan : Plan}
  {ds es : List Deed} {t : Clock} {m : Nat} {keepJournal : Bool} {c : Context} {a : Attempt}
  {r : Option (Outcome × Clock)} {w w' : World} {id : String}

/-- A record that is well stored leads forward. -/
theorem World.WellStored.forward (h : w.WellStored plan.steps.length id) : w.Forward id := by
  rintro checkpoint snapshot k ⟨record, hrecord, -, hcheckpoint⟩ hsnapshot hcursor
  rcases h.read hrecord hcheckpoint with ⟨-, hnone⟩ | ⟨k', j, hsound, hk', -⟩
  · exact absurd (hsnapshot.symm.trans hnone) (by simp)
  · obtain rfl := Except.ok.inj (hk'.symm.trans hcursor)
    exact hsound.nonneg

namespace Execution.Confined

theorem of_aside (h : Aside ds) : Confined pace x ds :=
  ⟨.of_none fun d hd => (h d hd).1, fun d hd hout => by rw [(h d hd).2] at hout; exact absurd hout (by simp)⟩

theorem after_aside (hds : Aside ds) (h : Confined pace x es) : Confined pace x (ds ++ es) := by
  refine ⟨h.layout.after_none fun d hd => (hds d hd).1, fun d hd hout => ?_⟩
  rcases List.mem_append.mp hd with hd | hd
  · have haside : Confined pace x ds := of_aside hds
    exact haside.owned d hd hout
  · exact h.owned d hd hout

end Execution.Confined

/-- Between the steps nothing is asked of others. -/
theorem Execution.Between.isOutside_eq {call : Call} (h : x.Between call) : call.isOutside = false := by
  cases h <;> rfl

/-- Behind the end of the list there is nothing left either. -/
theorem Execution.onward_of_length_le (h : x.plan.steps.length ≤ m) :
    x.onward m keepJournal c = x.onward x.plan.steps.length keepJournal c := by
  unfold onward
  rw [List.drop_eq_nil_of_le h, List.drop_length]
  rfl

/-- What is left of the root list is confined to its steps. -/
theorem onward_confined (h : Fiber.Course pace t (x.onward m keepJournal c) ds r) : x.Confined pace ds := by
  refine ⟨(onward_layout h).weaken (fun _ _ hs => hs) False.elim, fun d hd hout => ?_⟩
  cases hstep : d.step with
  | some q => exact ⟨q, rfl⟩
  | none =>
    have hbetween : x.Between d.call := by
      rcases Nat.le_total m x.plan.steps.length with hm | hm
      · exact onward_between hm h d hd hstep
      · rw [Execution.onward_of_length_le hm] at h
        exact onward_between (Nat.le_refl _) h d hd hstep
    rw [hbetween.isOutside_eq] at hout
    exact absurd hout (by simp)

theorem carryOutFrom_confined (hm : a.cursor = m) (h : Fiber.Course pace t (x.carryOutFrom a keepJournal) ds r) :
    x.Confined pace ds := by
  rw [carryOutFrom_onward hm] at h
  cases h with
  | stopped => exact .of_aside fun d hd => absurd hd List.not_mem_nil
  | ask _ _ rest => exact .after_aside (List.forall_mem_singleton.mpr ⟨rfl, rfl⟩) (onward_confined rest)

/-- **A run is confined to the leaves of its plan.** -/
theorem run_confined {given executionId : Option String} (haccept : source.accept = .ok plan)
    (h : Fiber.Course pace t (e.run source given executionId) ds r) :
    ∃ runId, (⟨e, plan, runId⟩ : Execution).Confined pace ds := by
  have hdraws {ds q} (h : Program.Course pace none t (Engine.newRunId given).outcome ds q) : Aside ds :=
    .of_course h (newRunId_makes given rfl)
  have hannounces {runId u ds q}
      (h : Program.Course pace none u (Engine.announce ⟨e, plan, runId⟩ executionId).outcome ds q) :
      Aside ds := .of_course h ⟨rfl, fun _ => trivial⟩
  cases RunCourse.of_course haccept h with
  | naming hfirst => exact ⟨"", .of_aside (hdraws hfirst)⟩
  | announcing hfirst hwrite => exact ⟨"", .after_aside (hdraws hfirst) (.of_aside (hannounces hwrite))⟩
  | attempting hfirst hwrite hattempt =>
    have hconfined := carryOutFrom_confined (m := 0) rfl hattempt
    exact ⟨_, .after_aside (hdraws hfirst) (.after_aside (hannounces hwrite) hconfined)⟩

/-- Where nothing is done. -/
theorem confined_nil : x.Confined pace [] := .of_aside fun _ hd => absurd hd List.not_mem_nil

theorem resumeRecord_confined {record : RunRecord} (hforward : w.Forward id)
    (hrecord : w.recordOf id = .ok (some record))
    (h : Fiber.Course pace t (e.resumeRecord plan record id) ds r) :
    ∃ runId, (⟨e, plan, runId⟩ : Execution).Confined pace ds := by
  cases RecordCourse.of_course h with
  | unreadable | refused | unrestored => exact ⟨id, confined_nil⟩
  | completed _ _ hreturns =>
    exact ⟨id, .of_aside (.of_course hreturns
      (Program.Makes.mono (completedBefore_makes ..) fun _ hc => hc.isOutside))⟩
  | afresh _ _ _ haccept hrun => exact run_confined haccept hrun
  | @continued checkpoint snapshot a _ _ hcheckpoint hstatus hsnapshot ha hcourse =>
    have hcontinues : w.Continues id checkpoint := ⟨record, hrecord, hstatus, hcheckpoint⟩
    have hwrites {ds q} (h : Program.Course pace none t
        (Execution.writeRun ⟨e, plan, id⟩ [("status", .text "running")]).outcome ds q) : Aside ds :=
      .of_course h ⟨rfl, fun _ => trivial⟩
    refine ⟨id, ?_⟩
    cases writeRun_then hcourse with
    | first hwrite => exact .of_aside (hwrites hwrite)
    | both hwrite hattempt =>
      -- a position below zero would begin in another plan
      obtain ⟨context, -, ha⟩ := Fault.bind_eq_ok.mp ha
      obtain ⟨hcursor, -⟩ := StoredCheckpoint.toAttempt_eq_ok ha
      have hnonneg : 0 ≤ a.cursor := hforward checkpoint snapshot a.cursor hcontinues hsnapshot hcursor
      obtain ⟨m, hm⟩ := Int.eq_ofNat_of_zero_le hnonneg
      exact .after_aside (hwrites hwrite) (carryOutFrom_confined hm hattempt)

/-- **A continuation is confined to the leaves of its plan.** -/
theorem resume_confined (haccept : source.accept = .ok plan) (hforward : w.Forward id) (hadmits : w.Admits ds w')
    (h : Fiber.Course pace t (e.resume source id) ds r) :
    ∃ runId, (⟨e, plan, runId⟩ : Execution).Confined pace ds := by
  have hlooks (answer : Except Fault StoreAnswer) (start stop : Clock) :
      Aside [⟨none, .store (.getRun id), answer, start, stop⟩] := List.forall_mem_singleton.mpr ⟨rfl, rfl⟩
  cases ResumeCourse.of_course haccept h with
  | unbegun => exact ⟨id, confined_nil⟩
  | failed | unknown => exact ⟨id, .of_aside (hlooks _ _ _)⟩
  | found hfound hrest =>
    obtain ⟨w₁, hd, -⟩ := hadmits.of_cons
    obtain ⟨runId, hconfined⟩ := resumeRecord_confined hforward (hd.recordOf_of_found hfound) hrest
    exact ⟨runId, .after_aside (hlooks _ _ _) hconfined⟩

/-- **Attempts leave such records**: of a run that is attempted again and again, every attempt sets out so, if the
    record was well stored, or there was none, before the first. -/
theorem Attempted.setsOut {runs : RunStore} {trials : List Trial} (h : Attempted pace source id runs trials)
    (haccept : source.accept = .ok plan) (hid : id ≠ "") (hruns : w.stores.runs = runs)
    (hstored : w.WellStored plan.steps.length id) : ∀ a ∈ trials, a.SetsOut pace source := by
  induction h generalizing w with
  | nil => exact fun a ha => absurd ha List.not_mem_nil
  | @cons runs a rest hbefore hattempts _ ih =>
    have hstart : a.before.WellStored plan.steps.length id := hstored.of_runs (hbefore.trans hruns.symm)
    obtain ⟨-, hafter, -⟩ := hattempts.undertakes haccept hid hstart
    refine List.forall_mem_cons.mpr ⟨?_, ih rfl hafter⟩
    cases hattempts with
    | anew _ hruns => exact .anew hruns
    | again hruns => exact .again hstart.forward hruns

/-- An attempt is confined to the leaves of its plan. -/
theorem Trial.SetsOut.confined {a : Trial} (haccept : source.accept = .ok plan) (h : a.SetsOut pace source) :
    ∃ runId, (⟨a.engine, plan, runId⟩ : Execution).Confined pace a.deeds := by
  cases h with
  | anew hruns => exact run_confined haccept hruns.course
  | again hforward hruns => exact resume_confined haccept hforward hruns.admits hruns.course

/-! ## The result -/

section

variable {kind : Request → Bool} {n k : Nat} {q : StepPath} {s : Step}

/-- What is done for a leaf is one course of it. -/
theorem Execution.Confined.course (h : x.Confined pace ds) (hhas : x.plan.Has q s) (hleaf : s.isLeaf = true) :
    ∃ c t r, Fiber.Course pace t (x.walk s q c) (deedsFor q ds) r := by
  have hdone := h.layout q
  generalize deedsFor q ds = es at hdone
  cases hdone with
  | nothing => exact ⟨Engine.startContext x.plan x.runId, 0, none, .stopped⟩
  | leaf hs _ hcourse =>
    obtain rfl := hs.unique hhas
    exact ⟨_, _, _, hcourse⟩
  | report hs hnone =>
    obtain rfl := hs.unique hhas
    exact absurd hleaf (by simp [hnone])

/-- **What is sent for one step.** -/
theorem Execution.Confined.sentIn_le (h : x.Confined pace ds) (hkind : Weighs kind n k) (hhas : x.plan.Has q s) :
    sentIn kind (deedsFor q ds) ≤ n * s.mostStarts + k * x.plan.mostLooks x.engine s := by
  have hdone := h.layout q
  generalize deedsFor q ds = es at hdone
  cases hdone with
  | nothing => exact Nat.zero_le _
  | leaf hs hleaf hcourse =>
    obtain rfl := hs.unique hhas
    exact walk_sentIn_le hkind hleaf hcourse
  | report => exact Nat.zero_le _

/-- A request is made for a leaf. -/
theorem Execution.Confined.request_leaf (h : x.Confined pace ds) {d : Deed} (hd : d ∈ ds) {r : Request}
    (hr : d.call = .request r) : ∃ q s, d.step = some q ∧ x.plan.Has q s ∧ s.isLeaf = true := by
  obtain ⟨q, hq⟩ := h.owned d hd (by rw [hr]; rfl)
  rcases h.layout.leaf_or_report hd hq with ⟨s, hs, hleaf⟩ | ⟨report, hreport⟩
  · exact ⟨q, s, hq, hs, hleaf⟩
  · exact absurd (hr.symm.trans hreport) (by simp)

/-- **What is sent at all** is sent for one of the places where something is sent. By induction on the deeds. -/
theorem sentIn_le_sum (paths : List StepPath)
    (h : ∀ d ∈ ds, d.call.sends kind = true → ∃ q ∈ paths, d.step = some q) :
    sentIn kind ds ≤ (paths.map fun q => sentIn kind (deedsFor q ds)).sum := by
  induction ds with
  | nil => exact Nat.zero_le _
  | cons d ds ih =>
    have hrest := ih fun e he => h e (.tail _ he)
    -- one more for each place of the first deed
    have hsplit (q : StepPath) : sentIn kind (deedsFor q (d :: ds))
        = sentIn kind (deedsFor q ds) + if d.step = some q ∧ d.call.sends kind = true then 1 else 0 := by
      by_cases hq : d.step = some q
      · rw [deedsFor_cons_of_eq hq, sentIn, List.countP_cons]
        simp [hq, sentIn]
      · rw [deedsFor_cons_of_ne hq]
        simp [hq]
    simp only [hsplit, List.sum_map_add]
    rw [sentIn, List.countP_cons]
    refine Nat.add_le_add hrest ?_
    split
    · next hsends =>
      obtain ⟨q, hmem, hq⟩ := h d List.mem_cons_self hsends
      refine List.single_le_sum (fun _ _ => Nat.zero_le _) 1 (List.mem_map.mpr ⟨q, hmem, ?_⟩)
      rw [if_pos ⟨hq, hsends⟩]
    · exact Nat.zero_le _

end

/-- **The requests of an attempt are bounded by its plan** and the poll bounds of the engine, in whatever world it
    takes place. What is done for a leaf is one course of that leaf. For an agent, a worker and a workflow at most one
    request starts something; for a worker or a workflow whose end is awaited there are at most as many looks as its
    poll policy allows, and no others. Nothing is sent but for the leaves, so that the whole attempt sends at most
    what the steps of the plan add up to. -/
theorem requests_bounded {a : Trial} (haccept : source.accept = .ok plan) (hsets : a.SetsOut pace source) :
    (∃ runId, ∀ q s, plan.Has q s → s.isLeaf = true →
        ∃ c t r, Fiber.Course pace t ((⟨a.engine, plan, runId⟩ : Execution).walk s q c) (deedsFor q a.deeds) r)
      ∧ (∀ q s, plan.Has q s → sentIn Request.isStart (deedsFor q a.deeds) ≤ s.mostStarts
          ∧ sentIn Request.isLook (deedsFor q a.deeds) ≤ plan.mostLooks a.engine s)
      ∧ (∀ d ∈ a.deeds, ∀ r, d.call = .request r → ∃ q s, d.step = some q ∧ plan.Has q s ∧ s.isLeaf = true)
      ∧ sentIn (fun _ => true) a.deeds
          ≤ (plan.sites.map fun site => site.2.mostStarts + plan.mostLooks a.engine site.2).sum := by
  obtain ⟨runId, h⟩ := hsets.confined haccept
  refine ⟨⟨runId, fun q s hhas hleaf => h.course hhas hleaf⟩, fun q s hhas => ⟨?_, ?_⟩,
    fun d hd r hr => h.request_leaf hd hr, ?_⟩
  · simpa using h.sentIn_le weighs_isStart hhas
  · simpa using h.sentIn_le weighs_isLook hhas
  · have hplaced : ∀ d ∈ a.deeds, d.call.sends (fun _ => true) = true →
        ∃ q ∈ plan.sites.map Prod.fst, d.step = some q := by
      intro d hd hsends
      cases hcall : d.call with
      | request r =>
        obtain ⟨q, s, hq, hhas, -⟩ := h.request_leaf hd hcall
        exact ⟨q, List.mem_map.mpr ⟨(q, s), Plan.mem_sites.mpr hhas, rfl⟩, hq⟩
      | _ =>
        rw [hcall] at hsends
        exact absurd hsends (by simp [Call.sends])
    refine Nat.le_trans (sentIn_le_sum _ hplaced) ?_
    rw [List.map_map]
    refine List.sum_le_sum fun site hsite => ?_
    have hweighs : Weighs (fun _ => true) 1 1 := ⟨fun _ _ _ => Nat.le_refl _, fun _ => Nat.le_refl _⟩
    simpa using h.sentIn_le hweighs (Plan.mem_sites.mp hsite)

end

/-! ### An instance -/

/-- A workflow whose end is looked for twice. -/
def nestedReport : PlanSource :=
  .document (.object
    [("workflowPoll", .object [("maxRetries", .int 2)]),
     ("steps", .list [.object [("type", .text "workflow"), ("workflow", .text "report")]])])

/-- Where every run that is started stays under way. -/
def underway : Environment :=
  .replying fun r =>
    { response := .ok ⟨200, "", .object (if r.isLook then [("status", .text "running")] else [("runId", .text "n")])⟩ }

def nestedTrial : Trial := .prompt plainEngine underway {} (plainEngine.run nestedReport (some "run") none)

/-- The attempt starts the run and looks twice, as often as it may. -/
theorem nestedReport_bounded : ∃ plan, nestedReport.accept = .ok plan
    ∧ (plan.sites.map fun site => site.2.mostStarts + plan.mostLooks plainEngine site.2) = [3]
    ∧ sentIn (fun _ => true) nestedTrial.deeds ≤ 3
    ∧ sentIn Request.isStart nestedTrial.deeds = 1 ∧ sentIn Request.isLook nestedTrial.deeds = 2 := by
  obtain ⟨plan, haccept, hsum⟩ : ∃ plan, nestedReport.accept = .ok plan
      ∧ (plan.sites.map fun site => site.2.mostStarts + plan.mostLooks plainEngine site.2) = [3] := ⟨_, rfl, rfl⟩
  have hsets : nestedTrial.SetsOut (· ≤ ·) nestedReport := .anew (Trial.prompt_runs ..)
  obtain ⟨-, -, -, htotal⟩ := requests_bounded haccept hsets
  refine ⟨plan, haccept, hsum, ?_, by decide +kernel, by decide +kernel⟩
  rw [show nestedTrial.engine = plainEngine from rfl, hsum] at htotal
  exact htotal

end Runbook
