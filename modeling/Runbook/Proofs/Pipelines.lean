import Runbook.Proofs.Prompt
import Runbook.Proofs.Turns

/-!
# `Proofs.Pipelines` — a queue is carried out step by step

A queue reaches a step, triggers its worker and waits for its end; then it goes on, or has failed. What is
known of it is kept by each of its actions, and so by all of them in turn. Nothing in this depends on whether
the actions succeed: an action that fails ends the queue without a record. That none fails is shown along the
way, where everything works.

## Contents
- **Actions.** `Action.Secures`, what an action makes sure of.
- **Writes of the record.** `reach_secures`, `updateStep_secures`.
- **Looks and polls.** `look_heeds`, `poll_heeds`.
- **Steps and runs.** `runStep_secures`; `runSteps_secures`, by induction on the steps that are left; and
  `runQueue_secures`.
- **The result.** `QueueRecord.Chained` and `runQueue_chained`.
-/

namespace Runbook

section

variable {works : Prop} {b : Backend} {q : QueueRun} {begun begun' done : List (String × String)}
  {outputs : List PreviousOutput} {o o' : QueueOutline} {s s' : Seen} {c : Call} {answer : c.Answer}

/-! ## Actions -/

/-- What is returned is good; and where everything works, nothing fails. -/
def Sure {α : Type} (works : Prop) (Q : α → Seen → Prop) : Except Fault α → Seen → Prop
  | .ok a, s => Q a s
  | .error _, _ => ¬ works

/-- **What an action makes sure of.** -/
def Action.Secures {α : Type} (works : Prop) (b : Backend) (Q : α → Seen → Prop) (a : Action α) (s : Seen) :
    Prop :=
  a.Heeds (Seen.Step works b) (fun _ _ => True) (Sure works Q) s

namespace Action

variable {α β : Type} {Q : α → Seen → Prop} {Q' : β → Seen → Prop} {a : Action α} {f : α → Action β}

theorem secures_bind (ha : a.Secures works b Q s) (hf : ∀ v s', Q v s' → (f v).Secures works b Q' s') :
    (a >>= f).Secures works b Q' s :=
  heeds_bind ha (fun v s' h => hf v s' h) fun _ _ h => h

theorem secures_weaken {Q' : α → Seen → Prop} (ha : a.Secures works b Q s) (hQ : ∀ v s', Q v s' → Q' v s') :
    a.Secures works b Q' s := by
  refine heeds_weaken ha fun r s' h => ?_
  cases r with
  | ok v => exact hQ v s' h
  | error f => exact h

theorem secures_pure {v : α} (h : Q v s) : (pure v : Action α).Secures works b Q s := h

theorem secures_call {c : Call} {Q : c.Answer → Seen → Prop}
    (hQ : ∀ answer s', s.Step works b c answer s' → Q answer s') : (call c).Secures works b Q s :=
  heeds_call trivial hQ

/-- **A write of the record** that can be done where everything works. -/
theorem secures_write {op : StoreOp} {e : Stamp → Except Fault (QueueRecord × QueueStore)}
    (hs : Recounted works b q begun outputs s)
    (hop : ∀ now, op.queueWrite? s.world.stores.queues now = some (e now))
    (hshows : ∀ now r queues, e now = .ok (r, queues) → queues.Shows o)
    (hoffers : works → s.world.stores.isOpen = true ∧ ∀ now : Stamp, (b ≠ .memory → now.Proper) →
      ∃ r queues, e now = .ok (r, queues) ∧ queues.backend = b ∧ queues.Offers o) :
    (discard (Action.store op)).Secures works b (fun _ s' => Stands works b q begun outputs o s') s := by
  refine heeds_map ⟨trivial, fun answer s' hstep => ?_⟩
  have htold : Recounted works b q begun outputs s' := hs.step hstep (by simp)
  obtain ⟨_, _, _, hanswers⟩ := hstep.answers
  rcases hanswers.queueWrite (hop _) with ⟨r, queues, hopen, he, rfl, hstores⟩ | ⟨f, rfl, -, hrefused⟩
  · refine ⟨htold, ?_, fun hw => ?_⟩
    · rw [hstores]
      exact hshows _ r queues he
    · obtain ⟨-, hdone⟩ := hoffers hw
      obtain ⟨r', queues', he', hbackend, hqueues⟩ := hdone _ (hstep.timely hw)
      obtain ⟨rfl, rfl⟩ := Prod.mk.inj (Except.ok.inj (he'.symm.trans he))
      rw [hstores]
      exact ⟨hopen, hbackend, hqueues⟩
  · intro hw
    obtain ⟨hopen, hdone⟩ := hoffers hw
    obtain ⟨r, queues, he, -⟩ := hdone _ (hstep.timely hw)
    exact absurd (he.symm.trans (hrefused hopen)) (by simp)

end Action

open Runbook.Action QueueOutline

namespace QueueRun

variable {n : Nat} {worker job : String} {t₀ : JobStatus} {v : Value}

/-- The queue is told how the step stands that it is at. -/
theorem updateStep_secures (t : JobStatus) (key : String) (v : Value)
    (hs : Stands works b q begun outputs (reached q.id n done worker job t₀) s) (ht₀ : t₀ ≠ .failed)
    (hn : done.length < n) (htell : works → QueueStepRecord.Tellable key v)
    (hv : works → b ≠ .memory → key ≠ "error" → v.unwritable? = none) :
    (q.updateStep done.length (stepUpdate t key v)).Secures works b
      (fun _ s' => Stands works b q begun outputs (told q.id n done worker job t) s') s := by
  refine secures_write hs.told (fun now => rfl) (fun now r queues he => ?_) fun hw => ?_
  · rw [QueueStore.updateStep_eq] at he
    refine hs.kept.shows.change (status_told q.id n done worker job t) (fun r r' hr htold => ?_) he
    exact QueueRecord.outline_of_updateStep hr ht₀ hn htold
  · obtain ⟨hopen, hbackend, hoffers⟩ := hs.kept.offers hw
    refine ⟨hopen, fun now hnow => ?_⟩
    obtain ⟨r', queues, hchange, hoffers', hbackend'⟩ :=
      hoffers.change (told q.id n done worker job t) fun r hr hkeepable => by
        obtain ⟨r', hr'⟩ := QueueRecord.updateStep_taken hr t now (htell hw)
        rw [hbackend] at hkeepable ⊢
        exact ⟨r', hr', QueueRecord.outline_of_updateStep hr ht₀ hn hr',
          hkeepable.updateStep hr hn hnow (hv hw) hr'⟩
    exact ⟨r', queues, hchange, hbackend'.trans hbackend, hoffers'⟩

/-- A step that fails. -/
theorem failStep_secures (hs : Stands works b q begun outputs (reached q.id n done worker job t₀) s)
    (ht₀ : t₀ ≠ .failed) (hn : done.length < n) (htell : works → ∃ e, ErrorInfo.ofUpdate? v = .ok e) :
    (q.failStep done.length v).Secures works b
      (fun _ s' => Stands works b q begun outputs (reached q.id n done worker job .failed) s') s := by
  exact updateStep_secures .failed "error" v hs ht₀ hn (fun hw => .inr (.inr ⟨rfl, htell hw⟩))
    fun _ _ h => absurd rfl h

/-- **The first step is reached with a new record, any other with the record that there is.** -/
theorem reach_secures {step : QueueStep} (htold : Recounted works b q done outputs s)
    (hs : Between works b q done s.world) (hn : done.length < q.definition.steps.length)
    (hinitial : works → b ≠ .memory → q.initial.unwritable? = none) :
    (q.reach done.length step job).Secures works b
      (fun _ s' => Stands works b q (done ++ [(step.workerId, job)]) outputs
        (reached q.id q.definition.steps.length done step.workerId job .queued) s') s := by
  have htold' : Recounted works b q (done ++ [(step.workerId, job)]) outputs s :=
    htold.begin (List.prefix_append _ _)
  unfold reach
  cases hs with
  | fresh hdone hopen =>
    -- no step was reached before, so there is no record yet
    subst hdone
    rw [if_pos (by rfl)]
    refine secures_write htold' (fun now => rfl) ?_ ?_
    · intro now r queues he
      rw [QueueRecord.create_eq] at he
      exact QueueStore.Shows.create (by simp) he
    · intro hw
      obtain ⟨hopen, hbackend, hreplaceable⟩ := hopen hw
      refine ⟨hopen, fun now hnow => ?_⟩
      obtain ⟨queues, hcreate, hoffers, hbackend'⟩ := QueueStore.Offers.create
        (hbackend ▸ QueueRecord.keepable_new q.id q.definition.id step.workerId job
          q.definition.steps.length hnow (hinitial hw)) (hreplaceable q.id)
      exact ⟨_, queues, hcreate, hbackend'.trans hbackend, hoffers⟩
  | later hdone hkept =>
    have hindex : done.length ≠ 0 := fun h => hdone (List.length_eq_zero_iff.mp h)
    rw [if_neg hindex]
    refine secures_write htold' (fun now => rfl) ?_ ?_
    · intro now r queues he
      rw [QueueStore.appendStep_eq] at he
      refine hkept.shows.change (by simp [reached]) (fun r r' hr h => ?_) he
      obtain rfl := Except.ok.inj h
      exact QueueRecord.outline_appendStep hr hn now
    · intro hw
      obtain ⟨hopen, hbackend, hoffers⟩ := hkept.offers hw
      refine ⟨hopen, fun now hnow => ?_⟩
      obtain ⟨r', queues, hchange, hoffers', hbackend'⟩ :=
        hoffers.change (reached q.id q.definition.steps.length done step.workerId job .queued)
          fun r hr hkeepable => by
            rw [hbackend] at hkeepable ⊢
            exact ⟨_, rfl, QueueRecord.outline_appendStep hr hn now, hkeepable.appendStep hnow⟩
      exact ⟨r', queues, hchange, hbackend'.trans hbackend, hoffers'⟩

/-! ### Looks and polls -/

/-- Calls that a queue makes while it is at a step, besides writing its record. -/
structure Allows (q : QueueRun) (begun : List (String × String)) (outputs : List PreviousOutput) (c : Call) :
    Prop where
  spares : c.sparesQueues = true
  concerns : ∀ r, c = .request r → q.Concerns begun outputs outputs.length r

/-- What is no request is allowed at any step. -/
theorem Allows.quiet (hspares : c.sparesQueues = true) (hrequest : ∀ r, c ≠ .request r) :
    q.Allows begun outputs c :=
  ⟨hspares, fun r hr => absurd hr (hrequest r)⟩

end QueueRun

theorem Stands.step (hs : Stands works b q begun outputs o s) (h : s.Step works b c answer s')
    (hc : q.Allows begun outputs c) : Stands works b q begun outputs o s' :=
  ⟨hs.told.step h hc.concerns, hs.kept.step h hc.spares⟩

/-- A pause changes nothing, and does not fail. -/
theorem Stands.pause_heeds {seconds : Float} (hs : Stands works b q begun outputs o s) :
    (observedPause seconds).Heeds (Seen.Step works b) (fun _ _ => True)
      (fun r s' => Stands works b q begun outputs o s' ∧ r = .ok ()) s := by
  refine observedPause_heeds (fun _ _ => ⟨trivial, trivial⟩) ?_ ?_ hs
  · exact fun _ _ _ hs h => hs.step h (.quiet rfl (by simp))
  · exact fun _ _ _ hs h => hs.step h (.quiet rfl (by simp))

/-- What was observed can be taken down. -/
structure Observation.Usable (b : Backend) (v : Observation) : Prop where
  output : b ≠ .memory → v.output.unwritable? = none
  error : v.status = some "failed" → v.error.truthy = true → ∃ e, ErrorInfo.ofUpdate? v.error = .ok e

/-- **A look that succeeded**, and what its response holds. -/
structure Exchange.Looks (works : Prop) (b : Backend) (settings : DispatchSettings) (worker job : String)
    (data : Value) (x : Exchange) : Prop where
  request : x.1 = Dispatch.lookRequest settings worker job
  response : ∃ r : Response, x.2.response = .ok r ∧ r.isSuccess = true ∧ r.json = data ∧ (works → r.Legible b)

/-- **A look that was taken**: when it shows success, an exchange reports it. -/
structure Looked (works : Prop) (b : Backend) (settings : DispatchSettings) (worker job : String)
    (v : Observation) (s : Seen) : Prop where
  reports : Observation.isSuccessful v.status = true →
    ∃ x ∈ s.exchanges, x.Reports settings worker job v.output
  usable : works → v.Usable b

section

variable {settings : DispatchSettings} {worker job : String} {v : Observation}

theorem Looked.step (hv : Looked works b settings worker job v s) (h : s.Step works b c answer s') :
    Looked works b settings worker job v s' := by
  refine ⟨fun hsuccess => ?_, hv.usable⟩
  obtain ⟨x, hx, hreports⟩ := hv.reports hsuccess
  refine ⟨x, ?_, hreports⟩
  rw [h.exchanges]
  exact List.mem_append_left _ hx

/-- Of the status that is shown, only a word that says so is taken for another than queued. -/
theorem Observation.eq_text_of_read {status : Value} {word : String} (hword : word ≠ "queued")
    (h : Decode.nullable Decode.text (if status.truthy then status else .text "queued") = .ok (some word)) :
    status = .text word := by
  split at h
  · cases status <;> simp only [Decode.nullable, Decode.text, Checked.map, Checked.complain, Checked.ok.injEq,
      Option.some.injEq, reduceCtorEq] at h
    rw [h]
  · exact absurd (Option.some.inj (Checked.ok.inj h)).symm hword

/-- Where there is no such job, it is taken to be queued. -/
theorem Looked.of_none : Looked works b settings worker job { status := some "queued" } s where
  reports := fun h => absurd h (by decide)
  usable := fun _ => ⟨fun _ => rfl, fun h => absurd h (by simp)⟩

/-- **What a look shows that a successful response is read as.** -/
theorem Looked.of_looks {x : Exchange} {data metadata : Value} (hx : x ∈ s.exchanges)
    (hlooks : x.Looks works b settings worker job data)
    (hv : Fault.ofChecked Observation.structureName
      (Observation.ofFields
        [("status", if (data.getD "status").truthy then data.getD "status" else .text "queued"),
         ("output", data.getD "output"), ("error", data.getD "error"), ("metadata", metadata)]) = .ok v) :
    Looked works b settings worker job v s := by
  obtain ⟨hrequest, response, hresponse, hsuccess, rfl, hlegible⟩ := hlooks
  obtain ⟨hstatus, houtput, herror, -⟩ := Observation.ofFields_eq_ok (Fault.ofChecked_eq_ok.mp hv)
  have hstatus := Decode.of_optional_eq_ok rfl hstatus
  have houtput : response.json.getD "output" = v.output :=
    Checked.ok.inj (Decode.of_optional_eq_ok rfl houtput)
  have herror : response.json.getD "error" = v.error := Checked.ok.inj (Decode.of_optional_eq_ok rfl herror)
  have hword {word : String} (hword : word ≠ "queued") (h : v.status = some word) :
      response.json.getD "status" = .text word := Observation.eq_text_of_read hword (h ▸ hstatus)
  refine ⟨fun hdone => ⟨x, hx, hrequest, response, hresponse, hsuccess, ?_, houtput.symm⟩, fun hw => ?_⟩
  · rcases Bool.or_eq_true_iff.mp hdone with h | h
    · exact .inl (hword (by simp) (of_decide_eq_true h))
    · exact .inr (hword (by simp) (of_decide_eq_true h))
  · refine ⟨fun hb => ?_, fun hfailed htruthy => ?_⟩
    · rw [← houtput]
      exact Value.unwritable?_getD ((hlegible hw).writable hb) _
    · rw [← herror] at htruthy ⊢
      exact (hlegible hw).error (hword (by simp) hfailed) htruthy

end

namespace QueueRun

variable {n : Nat} {job : String} {step : QueueStep}

/-- The request for the status of a step's job. -/
theorem statusReply_heeds {what : String} (hstep : q.definition.steps[outputs.length]? = some step)
    (hjob : begun[outputs.length]? = some (step.workerId, job)) (hs : Stands works b q begun outputs o s) :
    (Dispatch.statusReply (Address.workerStatusUrl q.settings step.workerId job) what).Heeds
      (Seen.Step works b) (fun _ _ => True)
      (fun r s' => Stands works b q begun outputs o s' ∧ ∀ data, r = .ok (some data) →
        ∃ x ∈ s'.exchanges, x.Looks works b q.settings step.workerId job data) s := by
  refine Dispatch.statusReply_heeds hs trivial fun reply s' h => ⟨?_, ?_⟩
  · refine hs.step h ⟨rfl, fun r hr => ?_⟩
    obtain rfl := Call.request.inj hr
    exact ⟨step, job, hstep, hjob, .inl rfl⟩
  · intro response hresponse hsuccess
    refine ⟨(Dispatch.lookRequest q.settings step.workerId job, reply), ?_, rfl, response, hresponse, hsuccess,
      rfl, fun hw => h.legible hw rfl response hresponse hsuccess⟩
    rw [h.exchanges]
    exact List.mem_append_right _ (List.mem_singleton.mpr rfl)

/-- **A look at the job of a step.** -/
theorem look_heeds (hstep : q.definition.steps[outputs.length]? = some step)
    (hjob : begun[outputs.length]? = some (step.workerId, job)) (hs : Stands works b q begun outputs o s) :
    (Dispatch.lookAtJob q.settings step.workerId job).Heeds (Seen.Step works b) (fun _ _ => True)
      (fun r s' => Stands works b q begun outputs o s'
        ∧ ∀ v, r = .ok v → Looked works b q.settings step.workerId job v s') s := by
  unfold Dispatch.lookAtJob
  refine heeds_bind (statusReply_heeds hstep hjob hs) ?_ fun e s' h => ⟨h.1, by simp⟩
  rintro reply s' ⟨hs', hdata⟩
  split
  · refine ⟨hs', fun v hv => ?_⟩
    obtain rfl := Except.ok.inj hv
    exact .of_none
  · next data =>
    obtain ⟨x, hx, hlooks⟩ := hdata data rfl
    refine heeds_bind (Q := fun r s₁ => s₁ = s'
      ∧ ∀ v, r = .ok v → Looked works b q.settings step.workerId job v s₁)
      ⟨rfl, fun v hv => .of_looks hx hlooks hv⟩ ?_ fun e s₁ h => ⟨h.1 ▸ hs', by simp⟩
    rintro v s₁ ⟨rfl, hv⟩
    -- what is observed is recorded for the job, which leaves the queues alone
    have hrecorded : (Dispatch.recordJob step.workerId job v).Makes fun c =>
        c.sparesQueues = true ∧ ∀ r, c ≠ .request r :=
      makes_discard (makes_lift (makes_setJob ⟨rfl, by simp⟩))
    refine heeds_bind (heeds_of_makes (I := fun s' => Stands works b q begun outputs o s'
      ∧ Looked works b q.settings step.workerId job v s') hrecorded (fun _ _ _ _ => trivial) ?_
      ⟨hs', hv v rfl⟩) ?_ fun e s₂ h => ⟨h.1, by simp⟩
    · rintro s₂ c answer s₃ ⟨hspares, hrequest⟩ ⟨hs₂, hv₂⟩ h
      exact ⟨hs₂.step h (.quiet hspares hrequest), hv₂.step h⟩
    · rintro - s₂ ⟨hs₂, hv₂⟩
      exact ⟨hs₂, fun v' hv' => Except.ok.inj hv' ▸ hv₂⟩

/-- **A queue that can be carried out**: its inputs can be written where documents are kept, and the numbers of
    its poll are not too large. -/
structure Workable (q : QueueRun) (b : Backend) : Prop where
  initial : b ≠ .memory → q.initial.unwritable? = none
  mapped : b ≠ .memory → ∀ ref outputs v, q.functions.ofQueue ref q.initial outputs = .ok v →
    v.unwritable? = none
  pauses : ∀ elapsed, ∃ pause, q.poll.toBounds.pause? elapsed = .ok pause

/-- **The wait for the end of a step.** -/
theorem poll_heeds (hfit : works → q.Workable b) (hstep : q.definition.steps[outputs.length]? = some step)
    (hjob : begun[outputs.length]? = some (step.workerId, job)) (hs : Stands works b q begun outputs o s) :
    (pollUntilDone (Dispatch.lookAtJob q.settings step.workerId job) Action.observedPause
      q.poll.toBounds).Secures works b (fun r s' => Stands works b q begun outputs o s'
        ∧ r.Shows fun v => Looked works b q.settings step.workerId job v s') s := by
  refine heeds_weaken (pollUntilDone_heeds (I := Stands works b q begun outputs o)
    (E := Looked works b q.settings step.workerId job) (F := fun _ => ¬ works)
    (fun _ _ _ _ _ hv h => hv.step h) (fun _ _ => trivial) ?_ (fun _ hs => look_heeds hstep hjob hs) ?_ ?_ hs)
    fun r s' h => ?_
  · exact fun s now s' hs h => hs.step h (.quiet rfl (by simp))
  · -- the pause between two looks can be computed
    intro elapsed f hf hw
    obtain ⟨pause, hpause⟩ := (hfit hw).pauses elapsed
    exact absurd (hpause.symm.trans hf) (by simp)
  · intro seconds s hs
    refine heeds_weaken hs.pause_heeds ?_
    rintro r s' ⟨hs', rfl⟩
    exact ⟨hs', by simp⟩
  · cases r with
    | ok r => exact ⟨h.1, h.2.1 r rfl⟩
    | error f => exact h.2.2 f rfl

/-! ### Steps -/

/-- The error that is told of a poll reads as one. -/
theorem errorOfPoll_readable (index : Nat) {r : PollResult}
    (h : r.outcome ≠ .timeout → r.error.truthy = true → ∃ e, ErrorInfo.ofUpdate? r.error = .ok e) :
    ∃ e, ErrorInfo.ofUpdate? (errorOfPoll index r) = .ok e := by
  unfold errorOfPoll
  by_cases htimeout : r.outcome = .timeout
  · simp only [if_pos htimeout]
    split <;> exact ⟨_, rfl⟩
  · simp only [if_neg htimeout]
    split
    · next htruthy => exact h htimeout htruthy
    · exact ⟨_, rfl⟩

/-- **What became of a step**: the queue has failed with it, or has passed it with its output. -/
def Advanced (works : Prop) (b : Backend) (q : QueueRun) (done : List (String × String))
    (outputs : List PreviousOutput) (worker job : String) : Option Value → Seen → Prop
  | none, s => Stands works b q (done ++ [(worker, job)]) outputs
      (reached q.id q.definition.steps.length done worker job .failed) s
  | some output, s => Stands works b q (done ++ [(worker, job)])
      (outputs ++ [⟨done.length, worker, output⟩])
      (passed q.id q.definition.steps.length (done ++ [(worker, job)])) s

/-- A step that is carried out, part by part. -/
theorem runStep_eq (q : QueueRun) (index : Nat) (step : QueueStep) (outputs : List PreviousOutput) :
    q.runStep index step outputs = (do
      let job ← (if index = 0 then pure q.id else Dispatch.newJobId : Action String)
      q.reach index step job
      (if step.delaySeconds != 0.0 then Action.observedPause step.delaySeconds else pure () : Action Unit)
      (match step.inputFrom q.functions q.initial outputs with
        | .error f => do
          q.failStep index (errorOf ("mapInput failed: " ++ f.message))
          return none
        | .ok input => q.callStep index step job input : Action (Option Value))) := by
  unfold runStep
  cases index <;> cases step.delaySeconds != 0.0 <;> rfl

section

variable (hfit : works → q.Workable b) (hstep : q.definition.steps[done.length]? = some step)
  (hlength : outputs.length = done.length)

include hstep in
theorem length_lt_of_step : done.length < q.definition.steps.length := (List.getElem?_eq_some_iff.mp hstep).1

include hfit in
/-- What a step receives can be written down. -/
theorem writable_of_receives {input : Value} (hreceives : step.Receives q.functions q.initial outputs input)
    (htold : Recounted works b q begun outputs s) (hw : works) (hb : b ≠ .memory) : input.unwritable? = none := by
  cases hreceives with
  | mapped _ hv => exact (hfit hw).mapped hb _ _ _ hv
  | passedOn _ hp => exact htold.writable hw hb _ (by rw [hp]; simp)
  | first => exact (hfit hw).initial hb

include hfit hstep hlength

theorem awaitStep_secures
    (hs : Stands works b q (done ++ [(step.workerId, job)]) outputs
      (reached q.id q.definition.steps.length done step.workerId job .running) s) :
    (q.awaitStep done.length step job).Secures works b (Advanced works b q done outputs step.workerId job) s := by
  have hn := length_lt_of_step hstep
  unfold awaitStep
  refine secures_bind (poll_heeds hfit (by rw [hlength, hstep]) (by rw [hlength]; simp) hs) ?_
  rintro r s' ⟨hs', hshows⟩
  split
  · next hcompleted =>
    obtain ⟨v, hv, hsuccess, houtput⟩ := hshows.of_completed hcompleted
    -- the exchange that the look was is the one that reports the output
    obtain ⟨x, hx, hreports⟩ := hv.reports hsuccess
    rw [← houtput] at hreports
    have hwritable (hw : works) (hb : b ≠ .memory) : r.output.unwritable? = none :=
      houtput ▸ (hv.usable hw).output hb
    have hs'' := Stands.mk (hs'.told.complete hlength hx hreports hwritable) hs'.kept
    rw [hlength] at hs''
    refine secures_bind (updateStep_secures .completed "output" r.output hs'' (by simp) hn
      (fun _ => .inr (.inl rfl)) fun hw hb _ => hwritable hw hb) ?_
    exact fun _ s'' h => secures_pure h
  · next hfailed =>
    -- the error was reported by a look, or is made up for a poll that ended without one
    refine secures_bind (failStep_secures hs' (by simp) hn fun hw => errorOfPoll_readable _ ?_) ?_
    · intro htimeout htruthy
      rcases hshows.of_not_completed hfailed with h | ⟨v, hv, hstatus, herror⟩
      · exact absurd h htimeout
      · rw [herror] at htruthy ⊢
        exact (hv.usable hw).error hstatus htruthy
    · exact fun _ s'' h => secures_pure h

theorem callStep_secures {input : Value} (hne : job ≠ "")
    (hreceives : step.Receives q.functions q.initial outputs input)
    (hwritable : works → b ≠ .memory → input.unwritable? = none)
    (hs : Stands works b q (done ++ [(step.workerId, job)]) outputs
      (reached q.id q.definition.steps.length done step.workerId job .queued) s) :
    (q.callStep done.length step job input).Secures works b
      (Advanced works b q done outputs step.workerId job) s := by
  have hn := length_lt_of_step hstep
  unfold callStep
  refine secures_bind (updateStep_secures .running "input" input hs (by simp) hn
    (fun _ => .inl rfl) fun hw hb _ => hwritable hw hb) ?_
  intro _ s₁ hs₁
  refine secures_bind (Q := fun _ s' => Stands works b q (done ++ [(step.workerId, job)]) outputs
    (reached q.id q.definition.steps.length done step.workerId job .running) s') ?_ ?_
  · -- whatever becomes of the trigger, it is for this step
    refine heeds_lift (Program.heeds_weaken (Program.heeds_of_makes
      (C := q.Allows (done ++ [(step.workerId, job)]) outputs) (Dispatch.makes_triggerWorker ?_ hne
        (.quiet rfl (by simp)) (.quiet rfl (by simp)) fun _ => .quiet rfl (by simp))
      (Program.ends_true _) (fun _ _ _ _ => trivial) (fun _ _ _ _ hc hs h => hs.step h hc) hs₁)
      fun _ _ h => h.2)
    refine fun time => ⟨rfl, fun r hr => ?_⟩
    obtain rfl := Call.request.inj hr
    refine ⟨step, job, by rw [hlength, hstep], by rw [hlength]; simp, .inr ⟨input, ?_, ?_⟩⟩
    · rwa [List.take_length]
    · exact Dispatch.triggerRequest_triggers ..
  · intro triggered s₂ hs₂
    split
    · refine secures_bind (failStep_secures hs₂ (by simp) hn fun _ => ⟨_, rfl⟩) ?_
      exact fun _ s' h => secures_pure h
    · exact awaitStep_secures hfit hstep hlength hs₂

/-- **A step that is carried out**: it is reached, and then the queue fails with it or passes it. -/
theorem runStep_secures (hid : q.id ≠ "") (htold : Recounted works b q done outputs s)
    (hs : Between works b q done s.world) :
    (q.runStep done.length step outputs).Secures works b
      (fun result s' => ∃ job, Advanced works b q done outputs step.workerId job result s') s := by
  have hn := length_lt_of_step hstep
  rw [runStep_eq]
  refine secures_bind (Q := fun job s' => job ≠ "" ∧ Recounted works b q done outputs s'
    ∧ Between works b q done s'.world) ?_ ?_
  · split
    · exact secures_pure ⟨hid, htold, hs⟩
    · refine secures_bind (Q := fun _ s' => Recounted works b q done outputs s' ∧ Between works b q done s'.world)
        (secures_call fun _ s' h => ⟨htold.step h (by simp), hs.step h rfl⟩) fun n s' h => ?_
      refine secures_pure ⟨?_, h⟩
      simp [← String.toList_inj]
  rintro job s₁ ⟨hne, htold₁, hs₁⟩
  refine secures_bind (reach_secures htold₁ hs₁ hn fun hw => (hfit hw).initial) ?_
  intro _ s₂ hs₂
  refine secures_bind (Q := fun _ s' => Stands works b q (done ++ [(step.workerId, job)]) outputs
    (reached q.id q.definition.steps.length done step.workerId job .queued) s') ?_ ?_
  · split
    · refine heeds_weaken hs₂.pause_heeds ?_
      rintro r s' ⟨hs', rfl⟩
      exact hs'
    · exact secures_pure hs₂
  · intro _ s₃ hs₃
    split
    · refine secures_bind (failStep_secures hs₃ (by simp) hn fun _ => ⟨_, rfl⟩) ?_
      exact fun _ s' h => secures_pure ⟨job, h⟩
    · next input hinput =>
      have hreceives := QueueStep.receives_of_inputFrom hinput
      refine secures_weaken (callStep_secures hfit hstep hlength hne hreceives
        (fun hw => writable_of_receives hfit hreceives htold₁ hw) hs₃) ?_
      exact fun result s' h => ⟨job, h⟩

end

/-! ### Runs -/

/-- **How a queue has ended**: with its last step completed, or with a step that failed. -/
inductive Ends (n : Nat) : List (String × String) → QueueOutline → Prop where
  | completed {id : String} {done : List (String × String)} (hall : done.length = n) :
      Ends n done (passed id n done)
  | failed {id worker job : String} {done : List (String × String)} (hn : done.length < n) :
      Ends n (done ++ [(worker, job)]) (reached id n done worker job .failed)

/-- **A queue that has ended**: its steps were begun in order. -/
structure Ended (works : Prop) (b : Backend) (q : QueueRun) (begun : List (String × String))
    (o : QueueOutline) (s : Seen) : Prop where
  ends : Ends q.definition.steps.length begun o
  id : o.id = q.id
  workers : begun.map Prod.fst <+: q.definition.steps.map QueueStep.workerId
  stands : ∃ outputs, Stands works b q begun outputs o s

/-- **A queue is carried out up to its end**, by induction on the steps that are left. -/
theorem runSteps_secures (hfit : works → q.Workable b) (hid : q.id ≠ "") (hne : q.definition.steps ≠ [])
    {rest : List QueueStep} : ∀ {earlier : List QueueStep} {done : List (String × String)}
    {outputs : List PreviousOutput} {s : Seen}, q.definition.steps = earlier ++ rest →
    done.map Prod.fst = earlier.map QueueStep.workerId → outputs.length = done.length →
    Recounted works b q done outputs s → Between works b q done s.world →
    (q.runSteps done.length rest outputs).Secures works b
      (fun _ s' => ∃ begun o, Ended works b q begun o s') s := by
  induction rest with
  | nil =>
    intro earlier done outputs s hsteps hworkers hlength htold hs
    rw [List.append_nil] at hsteps
    have hdone : done.length = q.definition.steps.length := by
      rw [hsteps, ← List.length_map (f := QueueStep.workerId), ← hworkers, List.length_map]
    -- the steps that were passed are all, and there are some
    cases hs with
    | fresh hnone =>
      subst hnone
      exact absurd (List.length_eq_zero_iff.mp hdone.symm) hne
    | later _ hkept =>
      have hall : done.map Prod.fst = q.definition.steps.map QueueStep.workerId := by rw [hworkers, hsteps]
      exact secures_pure ⟨done, _, .completed hdone, rfl, hall ▸ List.prefix_refl _, outputs, htold, hkept⟩
  | cons step rest ih =>
    intro earlier done outputs s hsteps hworkers hlength htold hs
    have hdone : done.length = earlier.length := by
      rw [← List.length_map (f := Prod.fst), hworkers, List.length_map]
    have hstep : q.definition.steps[done.length]? = some step := by rw [hsteps, hdone]; simp
    have hn := length_lt_of_step hstep
    have hsteps' : q.definition.steps = (earlier ++ [step]) ++ rest := by rw [hsteps]; simp
    have hworkers' (job : String) : (done ++ [(step.workerId, job)]).map Prod.fst
        = (earlier ++ [step]).map QueueStep.workerId := by
      rw [List.map_append, List.map_append, hworkers]
      rfl
    unfold runSteps
    refine secures_bind (runStep_secures hfit hstep hlength hid htold hs) ?_
    rintro result s' ⟨job, hadvanced⟩
    cases result with
    | none =>
      refine secures_pure ⟨_, _, .failed hn, rfl, ?_, outputs, hadvanced⟩
      rw [hworkers', hsteps']
      exact (List.prefix_append _ _).map _
    | some output =>
      have hlater := ih hsteps' (hworkers' job) (by simp [hlength]) hadvanced.told
        (.later (by simp) hadvanced.kept)
      rw [List.length_append] at hlater
      exact hlater

/-- The record of a queue that has ended is found as it was kept. -/
theorem getQueue_secures (hs : Ended works b q begun o s) :
    (Action.store (.getQueue q.id)).Secures works b (fun answer s' => ∃ r, answer = .queue (some r)
      ∧ Ended works b q begun r.outline s' ∧ s'.world.stores.queues.get r.id = .ok (some r)) s := by
  obtain ⟨outputs, hstands⟩ := hs.stands
  refine ⟨trivial, fun answer s' hstep => ?_⟩
  have hstands' := hstands.step hstep ⟨rfl, by simp⟩
  obtain ⟨_, _, _, hanswers⟩ := hstep.answers
  obtain ⟨hqueues, -⟩ := hanswers.queues_eq rfl
  have hshows := hstands.kept.shows
  unfold QueueStore.Shows at hshows
  rw [hs.id] at hshows
  rcases hanswers.getQueue with ⟨-, rfl⟩ | ⟨hclosed, f, rfl⟩
  · cases hget : s.world.stores.queues.get q.id with
    | ok found =>
      obtain ⟨r, rfl, rfl⟩ := hshows found hget
      refine ⟨r, rfl, ⟨hs.ends, hs.id, hs.workers, outputs, hstands'⟩, ?_⟩
      have hid : r.id = q.id := hs.id
      rw [hqueues, hid, hget]
    | error f =>
      intro hw
      obtain ⟨-, -, r, hr, -⟩ := hstands.kept.offers hw
      rw [hs.id, hget] at hr
      exact absurd hr (by simp)
  · intro hw
    rw [(hstands.kept.offers hw).1] at hclosed
    exact absurd hclosed (by simp)

end QueueRun

/-- A queue that is carried out, part by part. -/
theorem runQueue_eq (settings : DispatchSettings) (functions : Functions) (poll : PollDefaults)
    (definition : QueueDefinition) (initial : Value) (id : Option String) :
    runQueue settings functions poll definition initial id = (do
      let id ← (match nonEmpty? id with | some id => pure id | none => Dispatch.newJobId : Action String)
      (QueueRun.mk settings functions poll definition initial id).runSteps 0 definition.steps []
      (do match ← Action.store (.getQueue id) with | .queue r => return r | _ => return none :
        Action (Option QueueRecord))) := by
  unfold runQueue
  cases nonEmpty? id <;> rfl

/-- **A queue that is carried out** ends, and its record is returned. -/
theorem runQueue_secures (settings : DispatchSettings) (functions : Functions) (poll : PollDefaults)
    (definition : QueueDefinition) (initial : Value) (id : Option String)
    (hne : definition.steps ≠ [])
    (hfit : works → ∀ id, (QueueRun.mk settings functions poll definition initial id).Workable b)
    (hopen : works → s.world.stores.isOpen = true ∧ s.world.stores.queues.backend = b
      ∧ ∀ id, s.world.stores.queues.Replaceable id)
    (hs : s.exchanges = []) :
    (runQueue settings functions poll definition initial id).Secures works b
      (fun found s' => ∃ r begun, found = some r
        ∧ QueueRun.Ended works b ⟨settings, functions, poll, definition, initial, r.id⟩ begun r.outline s'
        ∧ s'.world.stores.queues.get r.id = .ok (some r)) s := by
  rw [runQueue_eq]
  refine secures_bind (Q := fun id s' => id ≠ "" ∧ s'.exchanges = []
    ∧ (works → s'.world.stores.isOpen = true ∧ s'.world.stores.queues.backend = b
      ∧ ∀ id, s'.world.stores.queues.Replaceable id)) ?_ ?_
  · split
    · next id' hid => exact secures_pure ⟨(nonEmpty?_eq_some hid).2, hs, hopen⟩
    · refine secures_bind (Q := fun _ s' => s'.exchanges = []
        ∧ (works → s'.world.stores.isOpen = true ∧ s'.world.stores.queues.backend = b
          ∧ ∀ id, s'.world.stores.queues.Replaceable id))
        (secures_call fun _ s' h => ?_) fun n s' h => ?_
      · obtain ⟨_, _, _, hanswers⟩ := h.answers
        obtain ⟨hqueues, hopen'⟩ := hanswers.queues_eq rfl
        exact ⟨by rw [h.exchanges_eq (by simp), hs], by rw [hqueues, hopen']; exact hopen⟩
      · refine secures_pure ⟨?_, h⟩
        simp [← String.toList_inj]
  rintro id s₁ ⟨hid, hs₁, hopen₁⟩
  have hnothing : Recounted works b (QueueRun.mk settings functions poll definition initial id) [] [] s₁ :=
    ⟨hs₁ ▸ .nil, fun i hi => absurd hi (by simp), by simp⟩
  have hruns := QueueRun.runSteps_secures (fun hw => hfit hw id) hid hne (List.nil_append _).symm
    (by simp) (by simp) hnothing (.fresh rfl hopen₁)
  refine secures_bind hruns ?_
  rintro - s₂ ⟨begun, o, hended⟩
  refine secures_bind (QueueRun.getQueue_secures hended) ?_
  rintro _ s₃ ⟨r, rfl, hended₃, hget⟩
  have hr : r.id = id := hended₃.id
  exact secures_pure ⟨r, begun, rfl, hr ▸ hended₃, hget⟩

end

/-! ## The result -/

/-- The exchange that a deed is. -/
def Deed.exchange? (d : Deed) : Option Exchange := d.call.exchange? d.answer

/-- The exchanges among some deeds, in order. -/
def exchangesOf (ds : List Deed) : List Exchange := ds.filterMap Deed.exchange?

/-- What is known along the deeds that a world goes along with; that everything works is not presumed. -/
theorem World.Admits.seen {w w' : World} {ds : List Deed} (h : w.Admits ds w') (b : Backend)
    (xs : List Exchange) : Follows (Seen.Step False b) ⟨w, xs⟩ ds ⟨w', xs ++ exchangesOf ds⟩ := by
  induction h generalizing xs with
  | nil =>
    rw [exchangesOf, List.filterMap_nil, List.append_nil]
    exact .nil
  | @cons w w₁ w' d ds first _ ih =>
    have hmore : xs ++ exchangesOf (d :: ds) = (xs ++ d.exchange?.toList) ++ exchangesOf ds := by
      rw [exchangesOf, List.filterMap_cons, exchangesOf]
      cases d.exchange? <;> simp
    rw [hmore]
    exact .cons ⟨⟨_, _, _, first⟩, rfl, False.elim, False.elim⟩ (ih _)

/-- The workers of the steps of a record, and their jobs. -/
def QueueRecord.begun (r : QueueRecord) : List (String × String) :=
  r.steps.map fun s => (s.workerId, s.workerJobId)

/-- **The record of a queue whose workers took their turns**, and the exchanges that led to it. -/
structure QueueRecord.Chained (r : QueueRecord) (q : QueueRun) (xs : List Exchange) : Prop where
  /-- At least one step was reached, and none that the definition does not have. -/
  reached : 1 ≤ r.steps.length ∧ r.steps.length ≤ q.definition.steps.length
  /-- The steps name the workers of the definition. -/
  workers : r.steps.map QueueStepRecord.workerId <+: q.definition.steps.map QueueStep.workerId
  /-- All steps but the last are completed. -/
  earlier : ∀ s ∈ r.steps.dropLast, s.status = .completed
  /-- Either all steps of the definition are completed, or the last one that was reached has failed. -/
  ended : (r.status = .completed ∧ r.steps.length = q.definition.steps.length
      ∧ ∀ s ∈ r.steps, s.status = .completed)
    ∨ r.status = .failed ∧ ∃ last, r.steps.getLast? = some last ∧ last.status = .failed
  /-- The exchanges were made in turn, and steps received what they are to receive. -/
  exchanges : ∃ outputs, q.Accounted r.begun outputs xs

namespace QueueRun.Ends

variable {n : Nat} {begun : List (String × String)} {r : QueueRecord}

theorem begun_eq (h : Ends n begun r.outline) : r.begun = begun := by
  have hbegun : r.begun = r.outline.steps.map fun s => (s.worker, s.job) := by
    rw [QueueRecord.outline, List.map_map]
    rfl
  have hcompleted (done : List (String × String)) :
      (QueueOutline.completed done).map (fun s => (s.worker, s.job)) = done := by
    rw [QueueOutline.completed, List.map_map]
    exact List.map_id' done
  rw [hbegun]
  generalize r.outline = o at h
  cases h with
  | completed => exact hcompleted _
  | failed => rw [QueueOutline.reached, List.map_append, hcompleted]; rfl

theorem length_le (h : Ends n begun o) (hn : 0 < n) : 1 ≤ begun.length ∧ begun.length ≤ n := by
  cases h with
  | completed hall => omega
  | failed hlt => rw [List.length_append, List.length_singleton]; omega

theorem earlier (h : Ends n begun r.outline) : ∀ s ∈ r.steps.dropLast, s.status = .completed := by
  intro s hs
  have hmem : s.outline ∈ r.outline.steps.dropLast := by
    rw [QueueRecord.outline, ← List.map_dropLast]
    exact List.mem_map_of_mem hs
  generalize r.outline = o at h hmem
  show s.outline.status = .completed
  cases h with
  | completed => exact QueueOutline.status_of_mem_completed (List.dropLast_subset _ hmem)
  | failed =>
    rw [QueueOutline.reached, List.dropLast_concat] at hmem
    exact QueueOutline.status_of_mem_completed hmem

theorem ended (h : Ends n begun r.outline) :
    (r.status = .completed ∧ r.steps.length = n ∧ ∀ s ∈ r.steps, s.status = .completed)
      ∨ r.status = .failed ∧ ∃ last, r.steps.getLast? = some last ∧ last.status = .failed := by
  have hstatus : r.outline.status = r.status := rfl
  have hsteps : r.outline.steps = r.steps.map QueueStepRecord.outline := rfl
  generalize r.outline = o at h hstatus hsteps
  cases h with
  | completed hall =>
    refine .inl ⟨by rw [← hstatus, QueueOutline.passed, if_pos hall], ?_, fun s hs => ?_⟩
    · rw [← hall, ← List.length_map (f := QueueStepRecord.outline), ← hsteps, QueueOutline.passed,
        QueueOutline.length_completed]
    · have hmem : s.outline ∈ r.steps.map QueueStepRecord.outline := List.mem_map_of_mem hs
      rw [← hsteps] at hmem
      exact QueueOutline.status_of_mem_completed hmem
  | failed =>
    refine .inr ⟨by rw [← hstatus, QueueOutline.reached, if_pos rfl], ?_⟩
    obtain ⟨before, last, hsplit, -, hlast⟩ := List.map_eq_append_iff.mp hsteps.symm
    obtain ⟨step, rfl, hstep⟩ := List.map_eq_singleton_iff.mp hlast
    exact ⟨step, by rw [hsplit, List.getLast?_concat], congrArg StepOutline.status hstep⟩

end QueueRun.Ends

/-- **The workers of a queue take their turns.** Take any definition with a step, any first input and any
    mapping functions, and whatever the remote side replies. When a queue that is carried out returns a record,
    steps were reached in the order of the definition, each after those before it were completed; all of them
    are completed and the queue is, or the last one that was reached has failed and so has the queue. No
    request was made but looks and triggers for these steps, each after all earlier steps had been seen
    completed; and each trigger carried what its step is to receive. -/
theorem runQueue_chained {settings : DispatchSettings} {functions : Functions} {poll : PollDefaults}
    {definition : QueueDefinition} {initial : Value} {id : Option String} {pace : Clock → Clock → Prop}
    {step : Option StepPath} {w w' : World} {ds : List Deed} {r : QueueRecord} {t : Clock}
    (hne : definition.steps ≠ [])
    (hcourse : Program.Course pace step w.clock
      (runQueue settings functions poll definition initial id).outcome ds (some (.ok (some r), t)))
    (hadmits : w.Admits ds w') :
    r.Chained ⟨settings, functions, poll, definition, initial, r.id⟩ (exchangesOf ds) := by
  have hruns : Action.Secures False .memory _ _ ⟨w, []⟩ :=
    runQueue_secures settings functions poll definition initial id hne False.elim False.elim rfl
  obtain ⟨r', begun, hr', hended, -⟩ := hcourse.heeds hruns (hadmits.seen .memory []) _ rfl
  obtain rfl := Option.some.inj hr'
  obtain ⟨outputs, hstands⟩ := hended.stands
  obtain ⟨hone, hle⟩ := hended.ends.length_le (List.length_pos_iff.mpr hne)
  have hbegun : r.begun = begun := hended.ends.begun_eq
  have hlength : r.steps.length = begun.length := by
    rw [← hbegun, QueueRecord.begun, List.length_map]
  refine ⟨⟨hlength ▸ hone, hlength ▸ hle⟩, ?_, hended.ends.earlier, hended.ends.ended, outputs, ?_⟩
  · have hworkers := hended.workers
    rw [← hbegun, QueueRecord.begun, List.map_map] at hworkers
    exact hworkers
  · rw [hbegun]
    exact hstands.told.accounted

/-- Thumbnails are made, and then published together with the picture that they were made of. -/
def thumbnails : QueueDefinition :=
  ⟨"thumbnails", [⟨"resize", 0.0, none⟩, ⟨"publish", 0.0, some (.function 0)⟩]⟩

/-- What the second worker receives. -/
def thumbnailFunctions : Functions :=
  { ofContext := fun _ _ => .ok .null
    ofQueue := fun _ initial outputs =>
      .ok (.object [("picture", initial), ("made", .list (outputs.map PreviousOutput.output))]) }

/-- Workers that complete their jobs at once. -/
def diligent : Environment :=
  .replying fun r =>
    { response := .ok (.ofJson 200 (if r.method = "GET"
        then .object [("status", .text "completed"), ("output", .text r.url)] else .object [])) }

/-- The thumbnails of a picture are made and published. -/
def thumbnailsRun : Prompt (Except Fault (Option QueueRecord)) :=
  ((runQueue {} thumbnailFunctions {} thumbnails (.text "cat.png") none).outcome.toFiber none .done).promptly
    diligent {}

/-- Both workers have taken their turns, with two requests each. -/
theorem thumbnails_chained :
    ∃ r, thumbnailsRun.outcome = .ok (some r) ∧ r.steps.length = 2 ∧ (exchangesOf thumbnailsRun.deeds).length = 4
      ∧ r.Chained ⟨{}, thumbnailFunctions, {}, thumbnails, .text "cat.png", r.id⟩
        (exchangesOf thumbnailsRun.deeds) := by
  have hlength : (thumbnailsRun.outcome.toOption.join.map fun r => r.steps.length) = some 2 := by
    decide +kernel
  obtain ⟨r, hr, htwo⟩ := Option.map_eq_some_iff.mp hlength
  have hruns : World.Runs (· ≤ ·) {} _ thumbnailsRun.deeds (some (thumbnailsRun.outcome, 0)) thumbnailsRun.world :=
    Fiber.runs_promptly Nat.le_refl diligent _ {}
  have houtcome : thumbnailsRun.outcome = .ok (some r) := by
    cases ho : thumbnailsRun.outcome with
    | error f => simp [ho, Except.toOption] at hr
    | ok found =>
      rw [ho] at hr
      exact congrArg Except.ok hr
  rw [houtcome] at hruns
  exact ⟨r, houtcome, htwo, by decide +kernel,
    runQueue_chained (by simp [thumbnails]) (Fiber.Course.of_toFiber_done hruns.course) hruns.admits⟩

end Runbook
