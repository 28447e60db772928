import Mathlib.Data.List.Induction
import Runbook.Proofs.Attempts
import Runbook.Proofs.Entries
import Runbook.Proofs.Growth

/-!
# `Proofs.Outputs` — what comes in can be written down, and so can what is kept

Replies and events are JSON. The outputs of steps are made of them, of texts and of numbers, so they can be
written down as well; and so can the journal, in which they are noted, and the contexts, in which they are
recorded. Nothing that an attempt keeps ever stops it from being saved.

## Contents
- **Parts.** What parts of a value that can be written down can be written down too.
- **Answers.** `Call.Plain`, `Call.PlainEntry` and `Action.Yields`, what an action makes of plain answers.
- **Capabilities and leaves.** `handler_yields` and `carryOut_yields`.
- **Attempts.** `leavesYield_of_plain`; `Attempt.Tidy` and `Layout.tidy`, by induction on the deeds so
  far; and `Context.writableRule`.
-/

namespace Runbook

/-! ## Parts -/

namespace Value

theorem unwritable?_getD {v : Value} (h : v.unwritable? = none) (key : String) :
    (v.getD key).unwritable? = none := by
  unfold getD get? fields?
  cases v <;> try rfl
  rename_i fields
  cases hv : Keyed.get? fields key with
  | none => simp [hv, unwritable?]
  | some v => simpa [hv] using unwritable?_of_get? h hv

@[simp] theorem unwritable?_ofText? (s : Option String) : (ofText? s).unwritable? = none := by
  cases s <;> rfl

end Value

open Value

/-! ### Replies -/

namespace Extract

theorem messagesOf_writable {reply : Value} (h : reply.unwritable? = none) :
    ∀ m ∈ messagesOf reply, m.unwritable? = none := by
  unfold messagesOf
  split
  · exact unwritableItem?_eq_none.mp h
  · simpa using h

theorem parts_writable {messages : List Value} (h : ∀ m ∈ messages, m.unwritable? = none) :
    ∀ part ∈ parts messages, unwritableField? part = none := by
  intro part hpart
  obtain ⟨m, hm, hpart⟩ := List.mem_flatMap.mp hpart
  split at hpart
  · next items hitems =>
    obtain ⟨v, hv, hfields⟩ := List.mem_filterMap.mp hpart
    have hm := h m hm
    cases m <;> simp only [Value.get?, fields?, Option.bind_none, Option.bind_some,
      reduceCtorEq] at hitems
    have hlist : (Value.list items).unwritable? = none := unwritable?_of_get? hm hitems
    have hv := unwritableItem?_eq_none.mp hlist v hv
    cases v <;> simp only [fields?, Option.some.injEq, reduceCtorEq] at hfields
    rwa [hfields] at hv
  · exact absurd hpart List.not_mem_nil

theorem ofPart?_writable {s : Strategy} {part : Keyed Value} {v : Value}
    (hpart : unwritableField? part = none) (hv : ofPart? s part = some v) : v.unwritable? = none := by
  unfold ofPart? at hv
  split at hv
  · split at hv
    · rcases Option.or_eq_some_iff.mp hv with hv | ⟨-, hv⟩ <;> exact unwritable?_of_get? hpart hv
    · exact absurd hv (by simp)
  · split at hv
    · split at hv
      · exact unwritable?_of_get? hpart hv
      · exact absurd hv (by simp)
    · exact absurd hv (by simp)
  · split at hv
    · exact unwritable?_of_get? hpart hv
    · exact absurd hv (by simp)
  · exact absurd hv (by simp)

theorem bareResult?_writable {messages : List Value} {v : Value}
    (h : ∀ m ∈ messages, m.unwritable? = none) (hv : bareResult? messages = some v) : v.unwritable? = none := by
  unfold bareResult? at hv
  split at hv
  · next fields =>
    have hfields : unwritableField? fields = none := h (.object fields) (by simp)
    split at hv
    · split at hv
      · exact absurd hv (by simp)
      · exact unwritable?_of_get? hfields hv
    · split at hv
      · next result hresult =>
        rw [← Option.some.inj hv]
        exact unwritable?_of_get? hfields hresult
      · split at hv
        · exact absurd hv (by simp)
        · rw [← Option.some.inj hv]
          exact hfields
  · exact absurd hv (by simp)

end Extract

/-- What a strategy finds in a reply is a part of it. -/
theorem extract_writable {strategies : List Strategy} {reply : Value}
    (h : reply.unwritable? = none) : (extract strategies reply).unwritable? = none := by
  have hmessages := Extract.messagesOf_writable h
  have hfind {s : Strategy} {v : Value} (hv : s.find? (messagesOf reply) = some v) :
      v.unwritable? = none := by
    unfold Strategy.find? at hv
    split at hv
    · exact Extract.bareResult?_writable hmessages hv
    · obtain ⟨part, hpart, hv⟩ := List.exists_of_findSome?_eq_some hv
      exact Extract.ofPart?_writable (Extract.parts_writable hmessages part hpart) hv
  unfold extract
  split
  · rfl
  · cases hfound : strategies.findSome? fun s => s.find? (messagesOf reply) with
    | none => rfl
    | some v =>
      obtain ⟨s, -, hv⟩ := List.exists_of_findSome?_eq_some hfound
      exact hfind hv

/-! ## Answers -/

/-- **Plain answers**: what is replied, sent or remembered can be written down. -/
def Call.Plain : (c : Call) → c.Answer → Prop
  | .request _, reply => ∀ response, reply.response = .ok response → response.json.unwritable? = none
  | .awaitEvent _ _, event => ∀ v, event = some v → v.unwritable? = none
  | .recall _, found => ∀ v, found = some v → v.unwritable? = none
  | _, _ => True

instance Call.decidablePlain : (c : Call) → (answer : c.Answer) → Decidable (c.Plain answer)
  | .request _, reply =>
    decidable_of_iff (∀ r ∈ reply.response.toOption, r.json.unwritable?.isNone = true) <| by
      simp only [Plain]
      cases reply.response <;> simp [Except.toOption]
  | .awaitEvent _ _, event => decidable_of_iff (∀ v ∈ event, v.unwritable?.isNone = true) (by simp [Plain])
  | .«recall» _, found => decidable_of_iff (∀ v ∈ found, v.unwritable?.isNone = true) (by simp [Plain])
  | .clock, _ | .freshId, _ | .pause _, _ | .hostSleep _, _ | .sendEvent _ _, _ | .store _, _
  | .updateRun _ _, _ | .beginAttempt _, _ | .enterStep _ _ _, _ | .journal _ _, _ | .amend _ _, _
  | .saveCheckpoint _, _ | .report _, _ | .note _, _ => isTrue trivial

/-- What a call writes into the journal can be written down. -/
def Call.PlainEntry : Call → Prop
  | .journal _ fields | .amend _ fields => unwritableField? fields = none
  | _ => True

theorem Call.plainEntry_of_isOutside {c : Call} (h : c.isOutside = true) : c.PlainEntry := by
  cases c <;> trivial

/-- A call with a plain answer. -/
abbrev PlainStep (_ : Unit) (c : Call) (answer : c.Answer) (_ : Unit) : Prop := c.Plain answer

/-- **What an action makes of plain answers**: it writes plain entries, and yields something good unless it
    fails. -/
def Action.Yields {α : Type} (a : Action α) (Good : α → Prop) : Prop :=
  a.Heeds PlainStep (fun _ c => c.PlainEntry) (fun o _ => ∀ v, o = .ok v → Good v) ()

namespace Action

variable {α β : Type} {a : Action α} {f : α → Action β} {G : α → Prop} {G' : β → Prop}

theorem yields_bind (ha : a.Yields G) (hf : ∀ v, G v → (f v).Yields G') : (a >>= f).Yields G' :=
  heeds_bind ha (fun v _ h => hf v (h v rfl)) fun _ _ _ => by simp

theorem yields_weaken {G' : α → Prop} (ha : a.Yields G) (h : ∀ v, G v → G' v) : a.Yields G' :=
  heeds_weaken ha fun _ _ ho v hv => h v (ho v hv)

theorem yields_pure {v : α} (h : G v) : (pure v : Action α).Yields G := by
  rintro v' hv
  exact Except.ok.inj hv ▸ h

theorem yields_throw (e : Fault) : (throw e : Action α).Yields G := by
  rintro v hv
  exact absurd hv (by simp)

theorem yields_ofExcept {r : Except Fault α} (h : ∀ v, r = .ok v → G v) :
    (Action.ofExcept r).Yields G := h

theorem yields_map {g : α → β} (ha : a.Yields fun v => G' (g v)) : (g <$> a).Yields G' := by
  refine heeds_map (heeds_weaken ha fun o _ ho v hv => ?_)
  obtain ⟨v', rfl, rfl⟩ := Fault.map_eq_ok.mp hv
  exact ho v' rfl

/-- Of what is yielded nothing need be known. -/
theorem yields_of_makes (h : Makes Call.PlainEntry a) : a.Yields fun _ => True :=
  heeds_weaken (heeds_of_makes (I := fun _ => True) h (fun _ _ hc _ => hc)
    (fun _ _ _ _ _ _ _ => trivial) trivial) fun _ _ _ _ _ => trivial

/-- A single call. -/
theorem yields_call {c : Call} (h : c.PlainEntry) : (call c).Yields fun answer => c.Plain answer := by
  refine heeds_call h fun answer _ hanswer v hv => ?_
  exact Except.ok.inj hv ▸ hanswer

end Action

open Runbook.Action

/-! ## Capabilities -/

/-- **An observation that can be written down.** -/
def Observation.Writable (o : Observation) : Prop :=
  o.output.unwritable? = none ∧ unwritableField? o.metadata = none

namespace Dispatch

variable {settings : DispatchSettings}

theorem exchange_yields {method url : String} {body : Option Value} {headers : Keyed String} :
    (exchange method url body headers).Yields fun r => r.json.unwritable? = none := by
  refine exchange_heeds (fun _ => by simp) trivial fun reply _ hplain => ⟨fun response h v hv => ?_, ?_⟩
  · exact Except.ok.inj hv ▸ hplain response h
  · simp

/-- The result in an agent's reply. -/
theorem callAgent_yields {agent : String} {input : Value} {messages : List Value} :
    (callAgent settings agent input messages).Yields fun v => v.unwritable? = none := by
  unfold callAgent
  refine yields_bind exchange_yields fun response hresponse => ?_
  refine yields_bind (yields_of_makes (makes_requireSuccess ..)) fun _ _ => ?_
  exact yields_pure (extract_writable hresponse)

/-- A status reply. -/
theorem statusReply_yields {url what : String} :
    (statusReply url what).Yields fun data? => ∀ data, data? = some data → data.unwritable? = none := by
  refine heeds_weaken (statusReply_heeds (J := fun _ => True) (G := fun data _ => data.unwritable? = none)
    trivial trivial fun reply _ hplain => ⟨trivial, fun response hresponse _ => hplain response hresponse⟩) ?_
  rintro o - ⟨-, ho⟩ data? rfl data rfl
  exact ho data rfl

theorem observe_yields {status output error metadata : Value} (houtput : output.unwritable? = none)
    (hmetadata : metadata.unwritable? = none) :
    (observe status output error metadata).Yields Observation.Writable := by
  refine yields_ofExcept fun o ho => ?_
  obtain ⟨-, hout, -, hmeta⟩ := Observation.ofFields_eq_ok (Fault.ofChecked_eq_ok.mp ho)
  simp only [Decode.optional, Decode.FieldName.find?, Decode.FieldName.plain, Keyed.get?,
    String.reduceEq, ↓reduceIte, Checked.under_eq_ok, Decode.anything, Checked.ok.injEq] at hout hmeta
  refine ⟨hout ▸ houtput, ?_⟩
  split at hmeta
  · cases metadata <;> simp only [Decode.dictionary, Checked.complain, Checked.ok.injEq,
      reduceCtorEq] at hmeta
    exact hmeta ▸ hmetadata
  · rw [← Checked.ok.inj hmeta]
    rfl

theorem lookAtRun_yields {workflow runId : String} :
    (lookAtRun settings workflow runId).Yields Observation.Writable := by
  unfold lookAtRun
  refine yields_bind statusReply_yields fun data? hdata => ?_
  split
  · exact yields_pure ⟨rfl, rfl⟩
  · next data =>
    have hdata : data.unwritable? = none := hdata data rfl
    refine observe_yields ?_ (unwritable?_getD hdata _)
    unfold runOutput
    dsimp only
    repeat' split
    all_goals first | exact hdata | exact unwritable?_getD hdata _

theorem lookAtJob_yields {worker jobId : String} :
    (lookAtJob settings worker jobId).Yields Observation.Writable := by
  unfold lookAtJob
  refine yields_bind statusReply_yields fun data? hdata => ?_
  split
  · exact yields_pure ⟨rfl, rfl⟩
  · next data =>
    have hdata : data.unwritable? = none := hdata data rfl
    refine yields_bind (observe_yields (unwritable?_getD hdata _) (unwritable?_getD hdata _))
      fun o ho => ?_
    refine yields_bind (yields_of_makes ?_) fun _ _ => yields_pure ho
    exact makes_discard (makes_lift (makes_setJob trivial))

end Dispatch

/-- **The result of a poll** can be written down if all that was seen can. -/
theorem pollUntilDone_yields {look : Action Observation} {b : PollBounds}
    (hlook : look.Yields Observation.Writable) :
    (pollUntilDone look Action.hostSleep b).Yields fun r =>
      r.output.unwritable? = none ∧ unwritableField? r.metadata = none := by
  refine Action.heeds_weaken (pollUntilDone_heeds (I := fun _ => True)
    (E := fun o _ => Observation.Writable o) (F := fun _ => True) (fun _ _ _ _ _ h _ => h)
    (fun _ _ => trivial) (fun _ _ _ _ _ => trivial)
    (fun _ _ => Action.heeds_weaken hlook fun _ _ h => ⟨trivial, h⟩) (fun _ _ _ => trivial)
    (fun _ _ _ => ?_) trivial) ?_
  · exact Action.heeds_weaken (yields_of_makes (makes_hostSleep trivial))
      fun _ _ _ => ⟨trivial, fun _ _ => trivial⟩
  · rintro o - ⟨-, hshows, -⟩ r hr
    cases hshows r hr with
    | settled _ ho => exact ho
    | @timedOut last attempts elapsedMs hlast =>
      cases last with
      | none => exact ⟨rfl, rfl⟩
      | some seen => exact hlast seen rfl

/-! ## Leaves -/

/-- What is read of a field is a text, a number or a truth value. -/
theorem SchemaField.read_writable {f : SchemaField} {fields : Keyed Value} {v : Value}
    (h : f.read fields = .ok v) : v.plain.unwritable? = none := by
  have hkind {given : Value} (h : f.kind.read given = .ok v) : v.plain.unwritable? = none := by
    unfold FieldKind.read at h
    split at h <;> obtain ⟨_, -, rfl⟩ := Checked.map_eq_ok.mp h <;> rfl
  unfold SchemaField.read at h
  split at h
  · next d _ =>
    unfold Decode.optional at h
    split at h
    · exact hkind (Checked.under_eq_ok.mp h)
    · rw [← Checked.ok.inj h]
      cases d <;> rfl
  · unfold Decode.required at h
    split at h
    · exact hkind (Checked.under_eq_ok.mp h)
    · exact absurd (Checked.under_eq_ok.mp h) (by simp [Checked.complain])

theorem Schema.readFields_writable {fs : List SchemaField} : ∀ {fields read : Keyed Value},
    readFields fs fields = .ok read → unwritableField? (plainFields read) = none := by
  induction fs with
  | nil =>
    intro fields read h
    rw [← Checked.ok.inj h]
    rfl
  | cons f rest ih =>
    intro fields read h
    simp only [readFields, Checked.seq_eq_ok, Checked.map_eq_ok] at h
    obtain ⟨g, vs, ⟨v, hv, rfl⟩, hvs, rfl⟩ := h
    rw [plainFields, unwritableField?, SchemaField.read_writable hv, ih hvs]
    rfl

/-- A payload that is written as plain data can be written down. -/
theorem checkPayload_writable {model payload v : Value} (hpayload : payload.unwritable? = none)
    (h : checkPayload model payload = .ok v) : v.unwritable? = none := by
  unfold checkPayload at h
  split at h
  · rwa [← Except.ok.inj h]
  · next s =>
    obtain ⟨accepted, haccepted, hv⟩ := Fault.bind_eq_ok.mp h
    obtain ⟨fields, hfields, rfl⟩ := Fault.map_eq_ok.mp haccepted
    rw [← Except.ok.inj hv]
    have hcheck := Fault.ofChecked_eq_ok.mp hfields
    unfold Schema.check at hcheck
    split at hcheck
    · exact Schema.readFields_writable hcheck
    · exact absurd hpayload (by simp [unwritable?])
    · exact absurd hcheck (by simp [Checked.complain])
  · exact absurd h (by simp)

section

variable {x : Execution} {path : String}

theorem saveCheckpoint_plainEntry : Makes Call.PlainEntry x.saveCheckpoint := by
  unfold Execution.saveCheckpoint
  split
  · exact makes_call trivial
  · exact makes_pure _

theorem note_yields {fields : Keyed Value} (h : unwritableField? fields = none) :
    (x.note path fields).Yields fun _ => True :=
  yields_of_makes <| makes_bind (makes_call h) fun _ =>
    makes_bind (makes_ofExcept _) fun _ => saveCheckpoint_plainEntry

/-- What is known of a step is asked for, whatever it is. -/
theorem noted_yields {key : String} : (Execution.noted path key).Yields fun _ => True :=
  yields_of_makes <| makes_bind (makes_call trivial) fun _ => makes_ofExcept _

theorem writeRun_yields (updates : Keyed Value) : (x.writeRun updates).Yields fun _ => True :=
  yields_of_makes (makes_call trivial)

theorem start_yields {workflow : String} {input : Value} :
    (x.start workflow input path).Yields fun _ => True :=
  yields_of_makes (Dispatch.makes_startWorkflow (fun _ => Call.plainEntry_of_isOutside rfl) ..)

theorem requireCompletion_yields {r : PollResult} {what : String} :
    (Execution.requireCompletion r what).Yields fun _ => True :=
  yields_of_makes (Execution.makes_requireCompletion ..)

theorem ofExcept_yields {α : Type} {r : Except Fault α} : (Action.ofExcept r).Yields fun _ => True :=
  yields_of_makes (makes_ofExcept r)

theorem startedOutput_writable (name : String) (r : DispatchResult) :
    (Execution.startedOutput name r).unwritable? = none := by
  simp [Execution.startedOutput, unwritable?, unwritableField?]

theorem runAgent_yields (call : Capability) (agent : String) (c : Context) :
    (x.runAgent call agent c path).Yields fun v => v.unwritable? = none := by
  unfold Execution.runAgent
  refine yields_bind ofExcept_yields fun input _ => ?_
  split
  · exact Dispatch.callAgent_yields
  · exact yields_map (yields_weaken start_yields fun r _ => startedOutput_writable "runId" r)

theorem runWorker_yields (call : Capability) (worker : String) (poll : Option PollPolicy)
    (c : Context) : (x.runWorker call worker poll c path).Yields fun v => v.unwritable? = none := by
  unfold Execution.runWorker
  refine yields_bind ofExcept_yields fun input _ => ?_
  refine yields_bind (yields_of_makes (Dispatch.makes_triggerWorker
    (fun _ => Call.plainEntry_of_isOutside rfl) (x.jobId_ne_empty path) trivial trivial
    fun _ => trivial)) fun triggered _ => ?_
  split
  · refine yields_bind (pollUntilDone_yields Dispatch.lookAtJob_yields) fun r hr => ?_
    refine yields_bind requireCompletion_yields fun _ _ => yields_pure ?_
    simp [unwritable?, unwritableField?, hr.1, hr.2]
  · exact yields_pure (startedOutput_writable ..)

theorem runWorkflow_yields (call : Capability) (workflow : String) (c : Context) :
    (x.runWorkflow call workflow c path).Yields fun v => v.unwritable? = none := by
  unfold Execution.runWorkflow
  refine yields_bind ofExcept_yields fun input _ => ?_
  split
  · have hnested : (x.nestedRun workflow input path).Yields fun _ => True := by
      unfold Execution.nestedRun
      refine yields_bind noted_yields fun found _ => ?_
      split
      · refine yields_bind start_yields fun r _ => ?_
        refine yields_bind (note_yields ?_) fun _ _ => yields_pure trivial
        simp [unwritableField?]
      · exact yields_pure trivial
    refine yields_bind hnested fun runId _ => ?_
    refine yields_bind (pollUntilDone_yields Dispatch.lookAtRun_yields) fun r hr => ?_
    exact yields_bind requireCompletion_yields fun _ _ => yields_pure hr.1
  · exact yields_map (yields_weaken start_yields fun r _ => startedOutput_writable "runId" r)

theorem runHook_yields (h : Hook) (c : Context) :
    (x.runHook h c).Yields fun v => v.unwritable? = none := by
  have hawait (token : String) (seconds : Float) : (Execution.awaitEvent token seconds).Yields
      fun event => ∀ v, event = some v → v.unwritable? = none :=
    yields_bind (yields_call (c := .note _) trivial) fun _ _ =>
      yields_call (c := .awaitEvent token (some seconds)) trivial
  unfold Execution.runHook
  refine yields_bind ofExcept_yields fun token _ => ?_
  refine yields_bind ofExcept_yields fun seconds _ => ?_
  refine yields_bind (writeRun_yields _) fun _ _ => ?_
  refine yields_bind (hawait token seconds) fun event hevent => ?_
  refine yields_bind (writeRun_yields _) fun _ _ => ?_
  split
  · exact yields_throw _
  · next payload =>
    refine yields_bind (yields_ofExcept fun v hv => checkPayload_writable (hevent payload rfl) hv)
      fun v hv => yields_pure ?_
    simp [unwritable?, unwritableField?, hv]

theorem runSleep_yields (d : Duration) :
    (x.runSleep d path).Yields fun v => v.unwritable? = none := by
  have hwake : (x.wakeTime d path).Yields fun _ => True := by
    unfold Execution.wakeTime
    refine yields_bind noted_yields fun found _ => ?_
    split
    · refine yields_bind (yields_call (c := .clock) trivial) fun now _ => ?_
      refine yields_bind ofExcept_yields fun seconds _ => ?_
      exact yields_bind (note_yields rfl) fun _ _ => yields_pure trivial
    all_goals first | exact yields_pure trivial | exact yields_throw _
  unfold Execution.runSleep
  refine yields_bind hwake fun wakeAt _ => ?_
  refine yields_bind (yields_call (c := .clock) trivial) fun now _ => ?_
  refine yields_bind (writeRun_yields _) fun _ _ => ?_
  refine yields_bind (yields_of_makes (makes_hostSleep trivial)) fun _ _ => ?_
  refine yields_bind (writeRun_yields _) fun _ _ => yields_pure ?_
  cases d <;> rfl

/-- **A leaf** yields an output that can be written down. -/
theorem handler_yields {s : Step} {c : Context} {body : String → Action Value}
    (h : x.handler? s c = some body) : (body path).Yields fun v => v.unwritable? = none := by
  cases s <;> simp only [Execution.handler?, Option.some.injEq, reduceCtorEq] at h <;> subst h
  case agent => exact runAgent_yields ..
  case worker => exact runWorker_yields ..
  case workflow => exact runWorkflow_yields ..
  case hook => exact runHook_yields ..
  case sleep => exact runSleep_yields ..

/-- What the journal says of a step that has ended can be written down. -/
theorem replay_writable {found : Option Value} {v : Value}
    (hfound : ∀ v, found = some v → v.unwritable? = none)
    (h : JournalEntry.replay? found = some (.ok v)) : v.unwritable? = none := by
  have hrecorded {key : String} {v : Value}
      (h : JournalEntry.recorded? found key = .ok (some v)) : v.unwritable? = none := by
    have hread : (JournalEntry.read found).unwritable? = none := by
      unfold JournalEntry.read
      dsimp only
      split
      · cases found with
        | none => rfl
        | some v => exact hfound v rfl
      · rfl
    unfold JournalEntry.recorded? at h
    generalize JournalEntry.read found = entry at h hread
    cases entry <;> simp only [fields?] at h
    case object fields => exact unwritable?_of_get? hread (Except.ok.inj h)
    case text => split at h <;> exact absurd h (by simp)
    case list => split at h <;> exact absurd h (by simp)
    all_goals exact absurd h (by simp)
  unfold JournalEntry.replay? at h
  split at h
  · exact absurd h (by simp)
  · next output houtput =>
    rw [← Except.ok.inj (Option.some.inj h)]
    exact hrecorded houtput
  · split at h <;> exact absurd h (by simp)

/-- What is noted of the end of a leaf can be written down, when its output can. -/
theorem close_yields {q : StepPath} {o : Except Fault Value} (ho : ∀ v, o = .ok v → v.unwritable? = none) :
    (x.close q o).Heeds PlainStep (fun _ c => c.PlainEntry) (fun _ _ => True) () := by
  unfold Execution.close
  cases hentry : x.entry? o with
  | none => trivial
  | some fields =>
    refine ⟨?_, fun _ _ _ => ?_⟩
    · cases o with
      | ok v =>
        rw [← Option.some.inj hentry]
        simp [Call.PlainEntry, unwritableField?, ho v rfl]
      | error f =>
        simp only [Execution.entry?, Option.ite_none_right_eq_some, Option.some.injEq] at hentry
        rw [← hentry.2]
        rfl
    · split
      · exact ⟨trivial, fun _ _ _ => trivial⟩
      · trivial

/-- **A leaf that is carried out** writes entries that can be written down, and ends with such an output. -/
theorem carryOut_yields {s : Step} {c c' : Context} {body : String → Action Value} {q : StepPath}
    {id : Option String} (hbody : x.handler? s c = some body) :
    (x.carryOut q id c' (body q.text)).outcome.Heeds PlainStep (fun _ c => c.PlainEntry)
      (fun o _ => ∀ fin, o = .ok fin → fin.output.unwritable? = none) () := by
  rw [Execution.carryOut_eq]
  refine ⟨trivial, fun found _ hfound => ?_⟩
  have hout {o : Except Fault Value} (ho : ∀ v, o = .ok v → v.unwritable? = none) :
      ∀ fin, Execution.leafOutcome id c' o = .ok fin → fin.output.unwritable? = none := by
    intro fin hfin
    obtain ⟨v, rfl, rfl⟩ := Fault.map_eq_ok.mp hfin
    exact ho v rfl
  dsimp only
  cases hreplay : JournalEntry.replay? found with
  | some o => exact hout fun v hv => replay_writable hfound (hv ▸ hreplay)
  | none =>
    dsimp only
    rw [Execution.carryOutNew_eq]
    -- the body is carried out, its end is reported, and then noted
    refine Program.heeds_bind (handler_yields hbody) fun o _ ho => ⟨trivial, fun _ _ _ => ?_⟩
    exact Program.heeds_bind (close_yields ho) fun _ _ _ => hout ho

end

/-! ## Attempts -/

section

variable {pace : Clock → Clock → Prop} {x : Execution} {D ds es : List Deed} {w w' u : World}

theorem follows_plain (h : ∀ d ∈ ds, d.call.Plain d.answer) : Follows PlainStep () ds () := by
  induction ds with
  | nil => exact .nil
  | cons d rest ih => exact .cons (h d List.mem_cons_self) (ih fun e he => h e (.tail _ he))

/-- **The outputs of leaves** can be written down where all answers are plain. -/
theorem leavesYield_of_plain (h : ∀ d ∈ D, d.call.Plain d.answer) :
    LeavesYield pace x (fun v => v.unwritable? = none) D := by
  intro s q c t u ds fin hleaf hcourse hds
  obtain ⟨body, hbody, hprogram⟩ := Execution.program_of_leaf hleaf hcourse
  exact hprogram.heeds (carryOut_yields hbody) (follows_plain fun d hd => h d (hds hd)) _ rfl fin rfl

theorem Attempt.withNote_writable {a a' : Attempt} {path : String} {fields : Keyed Value}
    (h : a.withNote path fields = .ok a') (ha : unwritableField? a.journal = none)
    (hfields : unwritableField? fields = none) : unwritableField? a'.journal = none := by
  unfold withNote at h
  split at h
  · rw [← Except.ok.inj h]
    exact unwritableField?_put ha hfields
  · next entry hentry =>
    rw [← Except.ok.inj h]
    exact unwritableField?_put ha
      (RunRecord.unwritableField?_putAll (unwritable?_of_get? ha hentry) hfields)
  · exact absurd h (by simp)

/-- A call of a step leaves a journal that can be written down. -/
theorem Execution.TreeCall.journal_writable {q : StepPath} {c : Call} (h : x.TreeCall q c)
    {a : Attempt} (ha : unwritableField? a.journal = none) (hc : c.PlainEntry) :
    unwritableField? (a.after c).journal = none := by
  cases h with
  | journal => exact unwritableField?_put ha hc
  | report => exact ha
  | serves hserves =>
    cases hserves with
    | outside hout => rwa [Attempt.after_of_isOutside hout]
    | amend =>
      rcases a.after_amend q.text _ with hsame | hnote
      · rwa [hsame]
      · exact Attempt.withNote_writable hnote ha hc
    | _ => exact ha

/-- **An attempt whose journal is tidy**: its entries are mappings, and can be written down. -/
structure Attempt.Tidy (a : Attempt) : Prop where
  writable : unwritableField? a.journal = none
  mapping : ∀ key, JournalEntry.Mapping (a.journal.get? key)

theorem Attempt.tidy_of_nil {a : Attempt} (h : a.journal = []) : a.Tidy :=
  ⟨by rw [h]; rfl, fun key => by rw [h]; exact JournalEntry.mapping_none⟩

theorem Execution.TreeCall.tidy {q : StepPath} {c : Call} (h : x.TreeCall q c) {a : Attempt}
    (ha : a.Tidy) (hc : c.PlainEntry) : (a.after c).Tidy where
  writable := h.journal_writable ha.writable hc
  mapping key := by
    rw [Attempt.get?_after h]
    exact (ha.mapping key).after key c

theorem Execution.Between.tidy {c : Call} (h : x.Between c) {a : Attempt} (ha : a.Tidy) :
    (a.after c).Tidy := by
  cases h with
  | enters k c keepJournal =>
    cases keepJournal with
    | false => exact Attempt.tidy_of_nil rfl
    | true => exact ⟨ha.writable, ha.mapping⟩
  | saves => exact ha
  | updates => exact ha

/-- **Where answers from outside are plain**, what is remembered is plain, too, and the journal is tidy
    all the time. -/
theorem Layout.tidy {S : Sites} {e : Prop} {pre post : List Deed} (h : Layout pace x S e ds)
    (hcalls : x.OfAttempt ds)
    (houtside : ∀ d ∈ ds, d.call.isOutside = true → d.call.Plain d.answer)
    (hw : w.attempt.Tidy) (hds : ds = pre ++ post) (hadmits : w.Admits pre u) :
    u.attempt.Tidy ∧ ∀ d ∈ pre, d.call.Plain d.answer := by
  induction pre using List.reverseRecOn generalizing post u with
  | nil =>
    rw [hadmits.eq_of_nil]
    exact ⟨hw, by simp⟩
  | append_singleton pre d ih =>
    obtain ⟨u₁, hpre, hlast⟩ := hadmits.split
    obtain ⟨u', hd, hnil⟩ := hlast.of_cons
    obtain rfl := hnil.eq_of_nil
    have hsplit : ds = pre ++ d :: post := by rw [hds, List.append_assoc]; rfl
    obtain ⟨htidy, hplain⟩ := ih hsplit hpre
    have hmem : d ∈ ds := by simp [hsplit]
    -- the answer
    have hanswer : d.call.Plain d.answer := by
      have houtside := houtside d hmem
      obtain ⟨step, call, answer, start, stop⟩ := d
      cases call <;> first
        | exact trivial
        | exact houtside rfl
        | skip
      intro v hv
      have hfound := hd.recall_eq
      exact unwritable?_of_get? htidy.writable (hfound.symm.trans hv)
    -- and the call
    have hentry {q : StepPath} (hstep : d.step = some q) : d.call.PlainEntry := by
      have hown := h q
      rw [hsplit, deedsFor_append, deedsFor_cons_of_eq hstep] at hown
      generalize hes : deedsFor q pre ++ d :: deedsFor q post = es at hown
      cases hown with
      | nothing => exact absurd hes (by simp)
      | report =>
        have hmem : d ∈ deedsFor q pre ++ d :: deedsFor q post := by simp
        rw [hes] at hmem
        rw [List.mem_singleton.mp hmem]
        trivial
      | leaf _ hleaf hcourse =>
        obtain ⟨body, hbody, hprogram⟩ := Execution.program_of_leaf hleaf hcourse
        rw [← hes] at hprogram
        exact hprogram.heeds_at (carryOut_yields hbody)
          (follows_plain fun d hd => hplain d (mem_deedsFor.mp hd).1)
    refine ⟨?_, fun e he => ?_⟩
    · rw [hd.attempt_eq]
      rcases hcalls d hmem with ⟨q, hstep, hcall⟩ | ⟨-, hcall⟩
      · exact hcall.tidy htidy (hentry hstep)
      · exact hcall.tidy htidy
    · rcases List.mem_append.mp he with he | he
      · exact hplain e he
      · rw [List.mem_singleton.mp he]
        exact hanswer

end

/-! ### Contexts -/

theorem writable_outputRule : OutputRule fun v => v.unwritable? = none where
  null := rfl
  condition _ := rfl
  results outputs h := by
    simp [unwritable?, unwritableField?, unwritableItem?_eq_none.mpr h]

namespace Context

theorem Writable.recordOutput {c : Context} (h : c.Writable) (id : Option String) {v : Value}
    (hv : v.unwritable? = none) : (c.recordOutput id v).Writable where
  input := h.input
  steps := by
    unfold Context.recordOutput
    dsimp only
    split
    · split
      · exact h.steps
      · exact (unwritableField?_append ..).mpr ⟨h.steps, by simp [unwritableField?, hv]⟩
    · exact h.steps
  previous := hv
  all := (unwritableItem?_append ..).mpr ⟨h.all, by simp [unwritableItem?, hv]⟩

theorem addMissing_writable {steps entries : Keyed Value} (hsteps : unwritableField? steps = none)
    (hentries : unwritableField? entries = none) :
    unwritableField? (addMissing steps entries) = none := by
  unfold addMissing
  induction entries generalizing steps with
  | nil => exact hsteps
  | cons entry rest ih =>
    obtain ⟨key, v⟩ := entry
    rw [unwritableField?, Option.or_eq_none_iff] at hentries
    refine ih ?_ hentries.2
    dsimp only
    split
    · exact hsteps
    · exact (unwritableField?_append ..).mpr ⟨hsteps, by simp [unwritableField?, hentries.1]⟩

theorem Writable.merge {c branch : Context} (h : c.Writable) (hbranch : branch.Writable) :
    (c.merge branch).Writable :=
  ⟨h.input, addMissing_writable h.steps hbranch.steps, h.previous,
    (unwritableItem?_append ..).mpr ⟨h.all, hbranch.all⟩⟩

theorem Writable.mergeBranches {os : List Outcome} : ∀ {i : Nat} {c : Context} {results : List Value},
    c.Writable → (∀ r, .ok r ∈ os → r.context.Writable) →
    (Execution.mergeBranches i os c results).1.Writable := by
  induction os with
  | nil => exact fun h _ => h
  | cons o rest ih =>
    intro i c results h hos
    have hrest : ∀ r, .ok r ∈ rest → r.context.Writable := fun r hr => hos r (.tail _ hr)
    cases o with
    | ok r => exact ih (h.merge (hos r List.mem_cons_self)) hrest
    | error f => exact ih ⟨h.input, h.steps, h.previous, h.all⟩ hrest

/-- **Contexts of outputs that can be written down** can be written down. -/
theorem writableRule : ContextRule (fun v => v.unwritable? = none) Writable Writable where
  output id _ h hv := h.recordOutput id hv
  fault _ _ h := ⟨h.input, h.steps, h.previous, h.all⟩
  fork h := ⟨h.input, h.steps, h.previous, rfl⟩
  gathered id _ h hos hv := (Writable.mergeBranches h hos).recordOutput id hv

end Context

/-- **What a step leaves** can be written down if what it found can, and all answers are plain. -/
theorem Execution.walk_writable {pace : Clock → Clock → Prop} {x : Execution} {s : Step}
    {path : StepPath} {i : Int} {c : Context} {t u : Clock} {ds : List Deed} {o : Outcome}
    {fin : Finished} (hplain : ∀ d ∈ ds, d.call.Plain d.answer) (hc : c.Writable)
    (h : Fiber.Course pace t (x.walk s path c) ds (some (o, u)))
    (hguarded : x.guarded s i c o = .ok fin) : fin.context.Writable := by
  refine (guarded_keepsContext writable_outputRule Context.writableRule hc ?_ hguarded).1
  rintro r rfl
  exact walk_keepsContext writable_outputRule Context.writableRule (leavesYield_of_plain hplain) s
    Context.writableRule (List.Subset.refl ds) hc h

end Runbook
