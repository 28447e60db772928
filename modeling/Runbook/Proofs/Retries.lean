import Runbook.Proofs.Pipelines
import Runbook.Proofs.Redeliveries

/-!
# `Proofs.Retries` — a trigger is sent until it is accepted

A job may be triggered by one call after the other. Before the first request goes out the job is recorded; when the
request fails, this is noted in the metadata of the record, and the next call sends it again. As soon as a
request was accepted the note is gone, and no later call sends anything. In between, others may write the
record as they like, the worker that carries out the job first of all, as long as they leave the note alone; even
a job that has ended is triggered again when its trigger is known to have failed.

## Contents
- **Others.** `World.Spares`, others that leave the note of a job alone, and `Stores.Keeps.spares_perform`, what
  they may do to the stores.
- **Runs amid others.** `Program.Among`, with `Among.heeds`, by induction on the run.
- **Writes of a trigger.** `TriggerUpdate`, and `JobRecord.update_trigger`: these writes are taken, and how they
  leave the note.
- **The view.** `Sight`, what is known while a job is triggered, `Sight.Step` and `Sight.Holds`.
- **One call.** `TriggerCall` and its `Result`; `TriggerCall.heeds`.
- **The result.** `CallsInTurn`, and `sent_until_accepted`.
- **An instance.** `Program.among_momentsAlone`, and a trigger that is sent again after its job has ended.
-/

namespace Runbook

/-! ## Others -/

/-- Whether the trigger of a job is noted to have failed; nothing is said of a job that is unknown. -/
def noted? (found : Option JobRecord) : Option Bool := found.map Dispatch.isUntriggered

/-- **Others have acted, but left the note of a job alone**: the stores are as good as they were, and hold a record
    of the job if they did, with the same note. -/
def World.Spares (b : Backend) (id : String) (w u : World) : Prop :=
  ∀ found, w.stores.Keeps b id found →
    ∃ found', u.stores.Keeps b id found' ∧ noted? found' = noted? found

section

variable {b : Backend} {id : String} {s : Stores} {w : World} {found : Option JobRecord} {r e : JobRecord}
  {fields : Keyed Value} {op : StoreOp} {t : Clock}

theorem World.Spares.refl (w : World) : World.Spares b id w w := fun found h => ⟨found, h, rfl⟩

/-- **The note after metadata were laid over those of a record**: what was laid over it last, or what it was. -/
theorem JobRecord.Filed.noted (h : e.Filed b id) (hr : r.metadata = e.metadata.putAll fields) :
    Dispatch.isUntriggered (b.keepsJob r)
      = match Keyed.get? fields.reverse flagKey with
        | some v => (b.keeps v).truthy
        | none => Dispatch.isUntriggered e := by
  have hget : (b.keepsJob r).metadata.get? flagKey
      = ((Keyed.get? fields.reverse flagKey).map b.keeps).or (e.metadata.get? flagKey) := by
    rw [← h.get?_metadata fields flagKey, ← hr]
    rfl
  have hflag (r : JobRecord) : Dispatch.isUntriggered r = ((r.metadata.get? flagKey).getD .null).truthy := rfl
  rw [hflag, hget, hflag]
  cases Keyed.get? fields.reverse flagKey <;> rfl

/-- **What others may do to the stores**: any operation that does not name the note in the metadata of the job. -/
theorem Stores.Keeps.spares_perform (h : s.Keeps b id (some e)) (htime : t < Stamp.lastMicro)
    (hop : ∀ updates ∈ op.updates? id, ∀ fields, ("metadata", Value.object fields) ∈ updates →
      Keyed.get? fields.reverse JobRecord.flagKey = none) :
    ∃ r, (s.perform (.ofMicros t) op).2.Keeps b id (some r)
      ∧ Dispatch.isUntriggered r = Dispatch.isUntriggered e := by
  have hfiled : e.Filed b id := h.filed e rfl
  obtain ⟨found', hkeeps, hmakes⟩ := h.perform op htime
  cases hmakes with
  | same => exact ⟨e, hkeeps, rfl⟩
  | @updated updates r hupdates hr =>
    refine ⟨_, hkeeps, ?_⟩
    obtain ⟨o, ho, hmetadata⟩ := JobRecord.metadata_of_update hr
    rcases JobRecord.metadata_of_overlays ho with hsame | ⟨v, hmem, hoverlay⟩
    · have hnothing : r.metadata = e.metadata.putAll [] := hmetadata.trans hsame
      exact hfiled.noted hnothing
    · rw [hfiled.noted (hmetadata.trans (Update.overlay_eq_ok hoverlay))]
      cases v with
      | object fields => rw [Value.fields?, Option.getD_some, hop updates hupdates fields hmem]
      | _ => rfl
  | noted he =>
    obtain rfl := Option.some.inj he
    have hnothing : e.metadata = e.metadata.putAll [] := rfl
    exact ⟨_, hkeeps, hfiled.noted hnothing⟩

end

/-! ## Runs amid others -/

/-- A deed, and the world in which it was done. -/
structure Moment where
  world : World
  deed : Deed

section

variable {σ α : Type} {Others : World → World → Prop} {R : σ → (c : Call) → c.Answer → σ → Prop}
  {P : σ → Call → Prop} {Q : α → σ → Prop} {Link : σ → World → Prop}

/-- **A program comes to its end amid others**, who act before each of its deeds and in the end, within what they
    may do. There is time for a stamp to be made. -/
inductive Program.Among (Others : World → World → Prop) : Program α → World → List Moment → α → World → Prop where
  | done {a : α} {w w' : World} (others : Others w w') : Among Others (.done a) w [] a w'
  | ask {c : Call} {next : c.Answer → Program α} {answer : c.Answer} {step : Option StepPath} {start stop : Clock}
      {a : α} {w u w₁ w' : World} {ms : List Moment} (others : Others w u)
      (first : u.Answers ⟨step, c, answer, start, stop⟩ w₁) (timely : w₁.clock < Stamp.lastMicro)
      (rest : Among Others (next answer) w₁ ms a w') :
      Among Others (.ask c next) w (⟨u, ⟨step, c, answer, start, stop⟩⟩ :: ms) a w'

/-- **What a program heeds, amid others**, when what is known is linked to the world, and neither the deeds of the
    program nor those of others break the link: it holds in the end, what is said of the calls held at each
    of them, and all that was done is known. By induction on the run. -/
theorem Program.Among.heeds {p : Program α} {w w' : World} {ms : List Moment} {a : α} {s : σ}
    (h : Program.Among Others p w ms a w') (hp : p.Heeds R P Q s) (hlink : Link s w)
    (hothers : ∀ {s w u}, Link s w → Others w u → Link s u)
    (hdeed : ∀ {s u d w₁}, Link s u → P s d.call → u.Answers d w₁ → w₁.clock < Stamp.lastMicro →
      ∃ s₁, R s d.call d.answer s₁ ∧ Link s₁ w₁) :
    ∃ s', Q a s' ∧ Link s' w' ∧ Follows R s (ms.map Moment.deed) s'
      ∧ ∀ m ∈ ms, ∃ s₁, Link s₁ m.world ∧ P s₁ m.deed.call := by
  induction h generalizing s with
  | done others => exact ⟨s, hp, hothers hlink others, .nil, by simp⟩
  | ask others first timely _ ih =>
    have hu := hothers hlink others
    obtain ⟨s₁, hstep, hlink₁⟩ := hdeed hu hp.1 first timely
    obtain ⟨s', hq, hlink', hfollows, hcalls⟩ := ih (hp.2 _ s₁ hstep) hlink₁
    exact ⟨s', hq, hlink', .cons hstep hfollows, List.forall_mem_cons.mpr ⟨⟨s, hu, hp.1⟩, hcalls⟩⟩

end

/-! ## Writes of a trigger -/

/-- The metadata of a job whose trigger has failed. -/
def failedFields (message : String) : Keyed Value :=
  [(JobRecord.flagKey, .bool true), ("trigger_error", .text message)]

/-- **What is written of a job that is triggered**, the metadata with it, and what they note: the job is queued, its
    trigger has failed, or has been accepted after all. -/
inductive TriggerUpdate : Keyed Value → Keyed Value → Option Bool → Prop
  | queued {worker : String} {input : Value} (hinput : input.unwritable? = none) :
      TriggerUpdate [("worker_id", .text worker), ("status", .text "queued"), ("input", input),
        ("metadata", Dispatch.origin)] [("source", .text "workflow-orchestration")] none
  | failed {message : String} :
      TriggerUpdate [("metadata", .object (failedFields message))] (failedFields message) (some true)
  | cleared :
      TriggerUpdate [("metadata", .object [(JobRecord.flagKey, .bool false)])] [(JobRecord.flagKey, .bool false)]
        (some false)

namespace TriggerUpdate

variable {updates fields : Keyed Value} {noted : Option Bool}

theorem writable (h : TriggerUpdate updates fields noted) : Value.unwritableField? updates = none := by
  cases h with
  | queued hinput => simp [Value.unwritableField?, Value.unwritable?, hinput, Dispatch.origin]
  | failed => rfl
  | cleared => rfl

/-- What such metadata say of the note. -/
theorem get?_flagKey (h : TriggerUpdate updates fields noted) :
    Keyed.get? fields.reverse JobRecord.flagKey = noted.map Value.bool := by
  cases h <;> rfl

/-- What is written decides what is noted. -/
theorem noted_eq {updates' fields' : Keyed Value} {noted' : Option Bool} (h : TriggerUpdate updates fields noted)
    (h' : TriggerUpdate updates' fields' noted') (heq : updates = updates') : noted = noted' := by
  cases h <;> cases h' <;> first | rfl | exact absurd heq (by simp [failedFields])

theorem overlay_eq (h : TriggerUpdate updates fields noted) (base : JobRecord) :
    base.overlays updates = .ok ⟨base.metadata.putAll fields, base.error, none⟩ := by
  cases hended : base.isTerminal <;> cases h <;>
    simp [JobRecord.overlays, hended, Update.overlay, Dispatch.origin, failedFields, Value.truthy, bind, Except.bind,
      pure, Except.pure]

end TriggerUpdate

/-- **Such a write does not fail**, not even when the job has ended, and lays its metadata over those of the
    record. -/
theorem JobRecord.update_trigger {updates fields : Keyed Value} {noted : Option Bool}
    (h : TriggerUpdate updates fields noted) (existing : Option JobRecord) (id : String) (now : Stamp) :
    ∃ r, update existing id updates now = .ok r
      ∧ r.metadata = (existing.getD (start id now)).metadata.putAll fields := by
  generalize hbase : existing.getD (start id now) = base
  -- nothing but metadata is written of a job that has ended
  have hcases : (∃ worker input, (if base.isTerminal then [] else updates)
        = [("worker_id", .text worker), ("status", .text "queued"), ("input", input), ("metadata", Dispatch.origin)])
      ∨ (∃ v, (if base.isTerminal then [] else updates) = [("metadata", v)])
      ∨ (if base.isTerminal then [] else updates) = [] := by
    cases base.isTerminal with
    | true => exact .inr (.inr rfl)
    | false =>
      cases h with
      | queued => exact .inl ⟨_, _, rfl⟩
      | failed => exact .inr (.inl ⟨_, rfl⟩)
      | cleared => exact .inr (.inl ⟨_, rfl⟩)
  obtain ⟨r₀, hrevise, hmetadata⟩ : ∃ r₀,
      base.revise (if base.isTerminal then [] else updates) ⟨base.metadata.putAll fields, base.error, none⟩ now
          = .ok r₀
        ∧ r₀.metadata = base.metadata.putAll fields := by
    rcases hcases with ⟨worker, input, heq⟩ | ⟨v, heq⟩ | heq <;> rw [heq]
    · exact ⟨_, revise_eq_ok.mpr
        ⟨_, _, _, _, _, _, _, rfl, rfl, Update.field_anything .., rfl, rfl, rfl, rfl, rfl⟩, rfl⟩
    · exact ⟨_, revise_eq_ok.mpr ⟨_, _, _, _, _, _, _, rfl, rfl, rfl, rfl, rfl, rfl, rfl, rfl⟩, rfl⟩
    · exact ⟨_, revise_eq_ok.mpr ⟨_, _, _, _, _, _, _, rfl, rfl, rfl, rfl, rfl, rfl, rfl, rfl⟩, rfl⟩
  have hupdate : update existing id updates now = .ok { r₀.settle now with jobId := id } := by
    refine update_eq_ok.mpr ⟨⟨base.metadata.putAll fields, base.error, none⟩, r₀, ?_, ?_, rfl⟩
    · rw [hbase, h.overlay_eq]
    · rw [hbase]
      exact hrevise
  exact ⟨_, hupdate, (settle_metadata ..).trans hmetadata⟩

/-! ## The view -/

/-- **What is known while a job is triggered**: the note in its record, if there is one, and the exchanges so far. -/
structure Sight where
  note : Option Bool
  exchanges : List Exchange

/-- What is known of a job is so. -/
def Sight.Holds (b : Backend) (id : String) (s : Sight) (w : World) : Prop :=
  ∃ found, w.stores.Keeps b id found ∧ noted? found = s.note

/-- **What a call of a trigger makes of the note**. -/
inductive NoteStep (id : String) (note : Option Bool) : (c : Call) → c.Answer → Option Bool → Prop
  | looked {found : Option JobRecord} (h : noted? found = note) :
      NoteStep id note (.store (.getJob id)) (.ok (.job found)) note
  | wrote {updates fields : Keyed Value} {noted : Option Bool} {answer : StoreAnswer}
      (h : TriggerUpdate updates fields noted) :
      NoteStep id note (.store (.setJob id updates)) (.ok answer) (some (noted.getD (note.getD false)))
  | aside {c : Call} {answer : c.Answer} (h : c.usesStore = false) : NoteStep id note c answer note

/-- **What a call of a trigger makes of what is known.** -/
structure Sight.Step (id : String) (s : Sight) (c : Call) (answer : c.Answer) (s' : Sight) : Prop where
  note : NoteStep id s.note c answer s'.note
  exchanges : s'.exchanges = s.exchanges ++ (c.exchange? answer).toList

/-- A call of a trigger. -/
structure TriggerCall where
  settings : DispatchSettings
  worker : String
  input : Value
  awaits : Bool
  context : Value
  moments : List Moment
  outcome : Except Fault DispatchResult

namespace TriggerCall

variable (k : TriggerCall) (id : String)

/-- What is done in the call. -/
def program : Program (Except Fault DispatchResult) :=
  (Dispatch.triggerWorker k.settings k.worker k.input (some id) k.awaits k.context).outcome

/-- The request of the call at some time. -/
def request (time : Stamp) : Request :=
  Dispatch.triggerRequest k.settings k.worker (Dispatch.triggerMessage k.worker id k.input k.context
    (if k.awaits then Address.webhookUrl? k.settings k.worker else none) time)

/-- What was sent in the call, and what was replied. -/
def exchanges : List Exchange := exchangesOf (k.moments.map Moment.deed)

/-- What the call hands on can be written down. -/
def Writable : Prop := k.input.unwritable? = none ∧ k.context.unwritable? = none

/-- **What the call may do**: a request is made only of a job that is recorded. -/
inductive Makes (s : Sight) : Call → Prop
  | look : Makes s (.store (.getJob id))
  | write {updates fields : Keyed Value} {noted : Option Bool} (h : TriggerUpdate updates fields noted) :
      Makes s (.store (.setJob id updates))
  | clock : Makes s .clock
  | request {time : Stamp} (h : s.note.isSome = true) : Makes s (.request (k.request id time))

end TriggerCall

/-- A request was accepted. -/
def Exchange.accepted (x : Exchange) : Bool := x.2.response.toOption.any Response.isSuccess

section

variable {b : Backend} {id : String} {w w' : World} {s s' : Sight} {c : Call} {answer : c.Answer}
  {updates fields : Keyed Value} {noted : Option Bool} {k : TriggerCall}

/-- **A write of a trigger is taken**, and leaves the note as its metadata say. -/
theorem Stores.Keeps.wrote_trigger {stores stores' : Stores} {found : Option JobRecord} {t : Clock}
    {answer : Except Fault StoreAnswer} (h : stores.Keeps b id found) (hupdate : TriggerUpdate updates fields noted)
    (htime : t < Stamp.lastMicro) (hperform : stores.perform (.ofMicros t) (.setJob id updates) = (answer, stores')) :
    (∃ a, answer = .ok a) ∧ ∃ r, stores'.Keeps b id (some r)
      ∧ Dispatch.isUntriggered r = noted.getD ((noted? found).getD false) := by
  obtain ⟨r, hr, hmetadata⟩ := JobRecord.update_trigger hupdate found id (Stamp.ofMicros t)
  have hbase : (found.getD (JobRecord.start id (.ofMicros t))).Filed b id := by
    cases found with
    | none =>
      have hnow := Stamp.proper_ofMicros htime
      refine ⟨rfl, ⟨hnow, hnow, by simp [JobRecord.start]⟩, ?_, ?_⟩
      · simp [JobRecord.Timed, JobRecord.start, JobRecord.isTerminal, JobStatus.isTerminal]
      · cases b <;> rfl
    | some e => exact h.filed e rfl
  obtain ⟨stores₁, hset, hkeeps⟩ := h.setJob htime hr fun hb =>
    JobRecord.Writable.update (h.writable_base _ hb) hupdate.writable hr
  obtain ⟨rfl, rfl⟩ := Prod.mk.inj (hperform.symm.trans hset)
  refine ⟨⟨_, rfl⟩, _, hkeeps, ?_⟩
  rw [hbase.noted hmetadata, hupdate.get?_flagKey]
  cases noted with
  | none => cases found <;> rfl
  | some f => cases b <;> rfl

/-- Others leave what is known of a job. -/
theorem Sight.Holds.spares (h : s.Holds b id w) (hothers : World.Spares b id w w') : s.Holds b id w' := by
  obtain ⟨found, hkeeps, hnote⟩ := h
  obtain ⟨found', hkeeps', hsame⟩ := hothers found hkeeps
  exact ⟨found', hkeeps', hsame.trans hnote⟩

/-- **A deed of a call**, and what it makes of what is known. -/
theorem Sight.Holds.answers {d : Deed} (h : s.Holds b id w) (hmakes : k.Makes id s d.call) (hd : w.Answers d w')
    (htime : w'.clock < Stamp.lastMicro) : ∃ s', s.Step id d.call d.answer s' ∧ s'.Holds b id w' := by
  obtain ⟨found, hkeeps, hnote⟩ := h
  obtain ⟨step, call, answer, start, stop⟩ := d
  -- what is no operation on the stores leaves them as they are
  have haside (hcall : call.usesStore = false) : ∃ s', s.Step id call answer s' ∧ s'.Holds b id w' := by
    obtain ⟨hjobs, hopen⟩ := hd.jobs_eq (.inl hcall)
    exact ⟨⟨s.note, s.exchanges ++ (call.exchange? answer).toList⟩, ⟨.aside hcall, rfl⟩,
      found, hkeeps.of_jobs_eq (hopen.trans hkeeps.isOpen) hjobs, hnote⟩
  dsimp only at hmakes ⊢
  cases hmakes with
  | clock => exact haside rfl
  | request => exact haside rfl
  | look =>
    obtain ⟨hanswer, hstores⟩ := hd.store
    rw [Stores.perform_getJob, if_pos hkeeps.isOpen, hkeeps.get] at hanswer
    rw [Stores.perform_getJob] at hstores
    subst hanswer
    exact ⟨⟨s.note, s.exchanges⟩, ⟨.looked hnote, (List.append_nil _).symm⟩, found, hstores ▸ hkeeps, hnote⟩
  | write hupdate =>
    obtain ⟨hanswer, hstores⟩ := hd.store
    obtain ⟨⟨a, rfl⟩, r, hkeeps', hnote'⟩ := hkeeps.wrote_trigger hupdate htime (Prod.ext hanswer.symm hstores.symm)
    refine ⟨⟨_, s.exchanges⟩, ⟨.wrote hupdate, (List.append_nil _).symm⟩, some r, hkeeps', ?_⟩
    rw [← hnote, ← hnote']
    rfl

/-! ## One call -/

namespace TriggerCall

/-- **What comes of a call**: nothing is sent when the trigger was accepted before; otherwise one request is, and it is
    accepted, or the call fails, and its failure is noted. -/
inductive Result (id : String) (s : Sight) : Except Fault DispatchResult → Sight → Prop
  | skipped {r : DispatchResult} (hnote : s.note = some false) (hid : r.id = some id) : Result id s (.ok r) s
  | accepted {x : Exchange} {r : DispatchResult} (hnote : s.note ≠ some false) (hx : x.accepted = true)
      (hid : r.id = some id) : Result id s (.ok r) ⟨some false, s.exchanges ++ [x]⟩
  | failed {x : Exchange} {p : DispatchProblem} (hnote : s.note ≠ some false) (hx : x.accepted = false) :
      Result id s (.error (.dispatch p)) ⟨some true, s.exchanges ++ [x]⟩

/-- A look at the job shows the note. -/
theorem getJob_heeds : (Action.getJob id).Heeds (Sight.Step id) (k.Makes id)
    (fun o s' => s' = s ∧ ∃ found, o = .ok found ∧ noted? found = s.note) s := by
  unfold Action.getJob Action.store
  refine ⟨.look, fun answer s' ⟨hnote, hexchanges⟩ => ?_⟩
  obtain ⟨note, exchanges⟩ := s'
  rw [show (Call.store (.getJob id)).exchange? answer = none from rfl, Option.toList_none, List.append_nil]
    at hexchanges
  dsimp only at hnote hexchanges
  cases hnote with
  | looked hfound => exact ⟨by rw [hexchanges], _, rfl, hfound⟩
  | aside h => exact absurd h (by simp [Call.usesStore])

/-- A write of the trigger does not fail. -/
theorem setJob_heeds (h : TriggerUpdate updates fields noted) :
    (Action.setJob id updates).Heeds (Sight.Step id) (k.Makes id)
      (fun o s' => o = .ok () ∧ s' = ⟨some (noted.getD (s.note.getD false)), s.exchanges⟩) s := by
  refine Action.heeds_map ⟨.write h, fun answer s' ⟨hnote, hexchanges⟩ => ?_⟩
  obtain ⟨note, exchanges⟩ := s'
  rw [show (Call.store (.setJob id updates)).exchange? answer = none from rfl, Option.toList_none, List.append_nil]
    at hexchanges
  dsimp only at hnote hexchanges
  cases hnote with
  | wrote h' =>
    exact ⟨rfl, by rw [h.noted_eq h' rfl, hexchanges]⟩
  | aside h => exact absurd h (by simp [Call.usesStore])

/-- The time is read, which changes nothing. -/
theorem now_heeds : Action.now.Heeds (Sight.Step id) (k.Makes id) (fun o s' => s' = s ∧ ∃ time, o = .ok time) s := by
  refine Action.heeds_map (Action.heeds_call .clock fun time s' ⟨hnote, hexchanges⟩ => ?_)
  obtain ⟨note, exchanges⟩ := s'
  rw [show Call.clock.exchange? time = none from rfl, Option.toList_none, List.append_nil] at hexchanges
  dsimp only at hnote hexchanges
  cases hnote with
  | aside => exact ⟨by rw [hexchanges], _, rfl⟩

/-- What is sent can be written down, if what the call hands on can. -/
theorem unwritable?_request (hwritable : k.Writable) (id : String) (time : Stamp) :
    (k.request id time).body.bind Value.unwritable? = none := by
  have hinput : Value.unwritable? (if k.input.isNull then .object [] else k.input) = none := by
    split
    · rfl
    · exact hwritable.1
  have hcontext : Value.unwritable? (if k.context.truthy then k.context else .object []) = none := by
    split
    · exact hwritable.2
    · rfl
  have hwebhook (url : Option String) : Value.unwritable? (.ofText? url) = none := by cases url <;> rfl
  simp [TriggerCall.request, Dispatch.triggerRequest, Dispatch.triggerMessage, Value.unwritable?,
    Value.unwritableField?, hinput, hcontext, hwebhook, Dispatch.origin]

/-- One exchange about a job that is recorded: there is a reply, or the connection has failed. -/
theorem exchange_heeds (id : String) (time : Stamp) (hwritable : k.Writable) (hnote : s.note.isSome = true) :
    (Dispatch.exchange "POST" (k.request id time).url (k.request id time).body
      (Dispatch.triggerHeaders k.settings)).Heeds (Sight.Step id) (k.Makes id)
        (fun o s' => ∃ x : Exchange, s' = ⟨s.note, s.exchanges ++ [x]⟩ ∧
          ((∃ response, x.2.response = .ok response ∧ o = .ok response)
            ∨ ∃ reason p, x.2.response = .error reason ∧ o = .error (.dispatch p))) s := by
  unfold Dispatch.exchange
  rw [k.unwritable?_request hwritable]
  refine Action.heeds_bind (Q := fun o s' => ∃ reply : Reply, o = .ok reply
    ∧ s' = ⟨s.note, s.exchanges ++ [(k.request id time, reply)]⟩)
    (Action.heeds_call (.request hnote) fun reply s' hstep => ⟨reply, rfl, ?_⟩) ?_ ?_
  · obtain ⟨note, exchanges⟩ := s'
    obtain ⟨hnote', hexchanges⟩ := hstep
    dsimp only at hnote' hexchanges
    cases hnote' with
    | aside => exact congrArg _ hexchanges
  · rintro reply s' ⟨_, hreply, rfl⟩
    obtain rfl := Except.ok.inj hreply
    split
    · next response hresponse => exact ⟨_, rfl, .inl ⟨response, hresponse, rfl⟩⟩
    · next reason hreason => exact ⟨_, rfl, .inr ⟨reason, _, hreason, rfl⟩⟩
  · rintro e s' ⟨reply, h, -⟩
    exact absurd h (by simp)

/-- **The request is sent** of a job that is recorded: it is accepted, or the call fails. -/
theorem attempt_heeds (id : String) (time : Stamp) (hwritable : k.Writable) (hnote : s.note.isSome = true)
    (what : String) : Action.Heeds (Sight.Step id) (k.Makes id)
      (fun o s' => ∃ x : Exchange, s' = ⟨s.note, s.exchanges ++ [x]⟩
        ∧ ((x.accepted = true ∧ ∃ response, o = .ok response)
          ∨ (x.accepted = false ∧ ∃ p, o = .error (.dispatch p))))
      (do
        let response ← Dispatch.exchange "POST" (k.request id time).url (k.request id time).body
          (Dispatch.triggerHeaders k.settings)
        Dispatch.requireSuccess response (k.request id time).url what
        return response) s := by
  refine Action.heeds_bind (k.exchange_heeds id time hwritable hnote) ?_ ?_
  · rintro response s' ⟨x, rfl, ⟨response', hx, hok⟩ | ⟨_, _, _, hok⟩⟩
    · obtain rfl := Except.ok.inj hok
      unfold Dispatch.requireSuccess
      split
      · next hsuccess => exact ⟨x, rfl, .inl ⟨by simp [Exchange.accepted, hx, Except.toOption, hsuccess], _, rfl⟩⟩
      · next hsuccess => exact ⟨x, rfl, .inr ⟨by simp [Exchange.accepted, hx, Except.toOption, hsuccess], _, rfl⟩⟩
    · exact absurd hok (by simp)
  · rintro f s' ⟨x, rfl, ⟨_, _, hok⟩ | ⟨reason, p, hx, hok⟩⟩
    · exact absurd hok (by simp)
    · exact ⟨x, rfl, .inr ⟨by simp [Exchange.accepted, hx, Except.toOption], p, by rw [Except.error.inj hok]⟩⟩

/-- **A trigger is sent**, and when it fails this is noted. -/
theorem sendTrigger_heeds {time : Stamp} (hwritable : k.Writable) (hnote : s.note.isSome = true) :
    (Dispatch.sendTrigger k.settings k.worker id (Dispatch.triggerMessage k.worker id k.input k.context
      (if k.awaits then Address.webhookUrl? k.settings k.worker else none) time)).Heeds (Sight.Step id) (k.Makes id)
      (fun o s' => ∃ x : Exchange,
        (x.accepted = true ∧ (∃ response, o = .ok response) ∧ s' = ⟨s.note, s.exchanges ++ [x]⟩)
          ∨ (x.accepted = false ∧ (∃ p, o = .error (.dispatch p)) ∧ s' = ⟨some true, s.exchanges ++ [x]⟩)) s := by
  refine Action.heeds_bind (Q := fun o s' => ∃ o' : Except Fault Response, o = .ok o' ∧ ∃ x : Exchange,
      s' = ⟨s.note, s.exchanges ++ [x]⟩ ∧ ((x.accepted = true ∧ ∃ response, o' = .ok response)
        ∨ (x.accepted = false ∧ ∃ p, o' = .error (.dispatch p))))
    (Action.heeds_lift (Program.heeds_weaken
      (attempt_heeds id time hwritable hnote ("Worker " ++ k.worker ++ " trigger"))
      fun o s' h => ⟨o, rfl, h⟩)) ?_ fun e s' ⟨_, h, _⟩ => absurd h (by simp)
  rintro o s' ⟨o', ho, x, rfl, h⟩
  obtain rfl := Except.ok.inj ho
  rcases h with ⟨hx, response, rfl⟩ | ⟨hx, p, rfl⟩
  · exact ⟨x, .inl ⟨hx, ⟨response, rfl⟩, rfl⟩⟩
  · refine Action.heeds_bind (setJob_heeds .failed) ?_ fun e s' h => absurd h.1 (by simp)
    rintro - s' ⟨-, rfl⟩
    exact ⟨x, .inr ⟨hx, ⟨p, rfl⟩, rfl⟩⟩

/-- **What a call makes sure of.** -/
theorem heeds (hid : id ≠ "") (hwritable : k.Writable) (s : Sight) :
    (k.program id).Heeds (Sight.Step id) (k.Makes id) (Result id s) s := by
  show (Dispatch.triggerWorker k.settings k.worker k.input (some id) k.awaits k.context).Heeds _ _ _ _
  unfold Dispatch.triggerWorker
  rw [nonEmpty?_of_ne hid]
  refine Action.heeds_bind (Q := fun o s' => o = .ok id ∧ s' = s) ⟨rfl, rfl⟩ ?_ fun e s' h => absurd h.1 (by simp)
  rintro jobId s ⟨hok, rfl⟩
  obtain rfl := Except.ok.inj hok
  refine Action.heeds_bind getJob_heeds ?_ fun e s' ⟨_, _, h, _⟩ => absurd h (by simp)
  rintro existing s ⟨rfl, found, hfound, hnote⟩
  obtain rfl := Except.ok.inj hfound
  split
  · next r hr =>
    obtain ⟨hsome, hflag⟩ := Option.filter_eq_some_iff.mp hr
    refine .skipped ?_ rfl
    rw [← hnote, hsome, noted?, Option.map_some]
    simpa using hflag
  · next hnone =>
    have hsends : s.note ≠ some false := by
      rw [← hnote]
      intro h
      cases existing <;> simp_all [noted?]
    refine Action.heeds_bind (setJob_heeds (.queued hwritable.1)) ?_ fun e s' h => absurd h.1 (by simp)
    rintro - s₁ ⟨-, rfl⟩
    refine Action.heeds_bind now_heeds ?_ fun e s' ⟨_, _, h⟩ => absurd h (by simp)
    rintro time s₂ ⟨rfl, -⟩
    refine Action.heeds_bind (sendTrigger_heeds hwritable rfl) ?_ ?_
    · rintro response s₃ ⟨x, ⟨hx, -, rfl⟩ | ⟨-, ⟨_, h⟩, -⟩⟩
      · -- the note is taken back, if there was one
        split
        · refine Action.heeds_bind (setJob_heeds .cleared) ?_ fun e s' h => absurd h.1 (by simp)
          rintro - s' ⟨-, rfl⟩
          exact .accepted hsends hx rfl
        · next hnew =>
          have hunknown : s.note = none := by rw [← hnote, noted?, Option.map_eq_none_iff]; simpa using hnew
          have hgone : (Option.none.getD (s.note.getD false)) = false := by rw [hunknown]; rfl
          rw [hgone]
          exact .accepted hsends hx rfl
      · exact absurd h (by simp)
    · rintro f s₃ ⟨x, ⟨-, ⟨_, h⟩, -⟩ | ⟨hx, ⟨p, h⟩, rfl⟩⟩
      · exact absurd h (by simp)
      · rw [Except.error.inj h]
        exact .failed hsends hx

end TriggerCall

/-- The exchanges that are known are those that were made. -/
theorem Follows.exchanges {ds : List Deed} (h : Follows (Sight.Step id) s ds s') :
    s'.exchanges = s.exchanges ++ exchangesOf ds := by
  induction h with
  | nil => exact (List.append_nil _).symm
  | @cons s s₁ s' d ds first _ ih =>
    rw [ih, first.exchanges, List.append_assoc, exchangesOf, exchangesOf, List.filterMap_cons]
    cases hd : d.exchange? <;> simp [Deed.exchange?] at hd <;> simp [hd]

/-- **One call amid others**: what comes of it, and that the job is recorded when its request is sent. -/
theorem TriggerCall.result {note : Option Bool} (hid : id ≠ "") (hwritable : k.Writable)
    (h : (k.program id).Among (World.Spares b id) w k.moments k.outcome w') (hholds : Sight.Holds b id ⟨note, []⟩ w) :
    ∃ note', Sight.Holds b id ⟨note', []⟩ w' ∧ Result id ⟨note, []⟩ k.outcome ⟨note', k.exchanges⟩
      ∧ ∀ m ∈ k.moments, ∀ r, m.deed.call = .request r →
        (∃ time, r = k.request id time) ∧ ∃ record, m.world.stores.jobs.get id = .ok (some record) := by
  obtain ⟨⟨note', exchanges⟩, hresult, hholds', hfollows, hmoments⟩ :=
    h.heeds (k.heeds hid hwritable ⟨note, []⟩) hholds (fun h hothers => h.spares hothers)
      fun h hmakes hd htime => h.answers hmakes hd htime
  obtain rfl : exchanges = k.exchanges := hfollows.exchanges.trans (List.nil_append _)
  refine ⟨note', hholds', hresult, fun m hm r hr => ?_⟩
  obtain ⟨s₁, ⟨found, hkeeps, hnote⟩, hmakes⟩ := hmoments m hm
  rw [hr] at hmakes
  cases hmakes with
  | request hknown =>
    refine ⟨⟨_, rfl⟩, ?_⟩
    rw [← hnote, noted?, Option.isSome_map, Option.isSome_iff_exists] at hknown
    obtain ⟨record, rfl⟩ := hknown
    exact ⟨record, hkeeps.get⟩

/-- **A call is what the note decides**: it sends one request unless an earlier one was accepted, and then notes what
    became of it. -/
theorem TriggerCall.Result.account {o : Except Fault DispatchResult} {note note' : Option Bool} {xs : List Exchange}
    (h : Result id ⟨note, []⟩ o ⟨note', xs⟩) :
    xs.length ≤ 1 ∧ (xs ≠ [] ↔ note ≠ some false)
      ∧ (note' = some false ↔ note = some false ∨ ∃ x ∈ xs, x.accepted = true)
      ∧ ((∃ p, o = .error (.dispatch p)) ↔ ∃ x ∈ xs, x.accepted = false)
      ∧ ((∀ x ∈ xs, x.accepted = true) → ∃ r, o = .ok r ∧ r.id = some id) := by
  cases h with
  | skipped hnote hid => exact ⟨by simp, by simp_all, by simp, by simp, fun _ => ⟨_, rfl, hid⟩⟩
  | accepted hnote hx hid => exact ⟨by simp, by simp_all, by simp [hx], by simp [hx], fun _ => ⟨_, rfl, hid⟩⟩
  | failed hnote hx => exact ⟨by simp, by simp_all, by simp_all, by simp [hx], by simp [hx]⟩

end

/-! ## The result -/

/-- **Calls for one job, one after the other**, amid others who leave the note of the job alone. -/
inductive CallsInTurn (b : Backend) (id : String) : World → List TriggerCall → World → Prop where
  | nil {w : World} : CallsInTurn b id w [] w
  | cons {w w₁ w' : World} {k : TriggerCall} {ks : List TriggerCall}
      (first : (k.program id).Among (World.Spares b id) w k.moments k.outcome w₁) (rest : CallsInTurn b id w₁ ks w') :
      CallsInTurn b id w (k :: ks) w'

section

variable {b : Backend} {id : String} {w w' : World} {pre post ks js : List TriggerCall} {k : TriggerCall}

theorem CallsInTurn.split (h : CallsInTurn b id w (ks ++ js) w') :
    ∃ w₁, CallsInTurn b id w ks w₁ ∧ CallsInTurn b id w₁ js w' := by
  induction ks generalizing w with
  | nil => exact ⟨w, .nil, h⟩
  | cons k ks ih =>
    cases h with
    | cons first rest =>
      obtain ⟨w₁, h₁, h₂⟩ := ih rest
      exact ⟨w₁, .cons first h₁, h₂⟩

/-- **The note after calls in turn** says whether a request was accepted. By induction on the calls. -/
theorem CallsInTurn.noted (hid : id ≠ "") (h : CallsInTurn b id w ks w') (hwritable : ∀ k ∈ ks, k.Writable)
    {note : Option Bool} (hholds : Sight.Holds b id ⟨note, []⟩ w) :
    ∃ note', Sight.Holds b id ⟨note', []⟩ w'
      ∧ (note' = some false ↔ note = some false ∨ ∃ k ∈ ks, ∃ x ∈ k.exchanges, x.accepted = true) := by
  induction h generalizing note with
  | nil => exact ⟨note, hholds, by simp⟩
  | @cons w w₁ w' k ks first _ ih =>
    rw [List.forall_mem_cons] at hwritable
    obtain ⟨note₁, hholds₁, hresult, -⟩ := TriggerCall.result hid hwritable.1 first hholds
    obtain ⟨note', hholds', hnote'⟩ := ih hwritable.2 hholds₁
    refine ⟨note', hholds', ?_⟩
    rw [hnote', hresult.account.2.2.1]
    simp [or_assoc]

/-- **A trigger is sent until it is accepted, and never after.** Of calls in turn for one job that is unknown at first,
    each sends a request, and only one, if and only if no request of an earlier call was accepted. It fails as a
    dispatch does if and only if its request was not accepted, and gives the id of the job otherwise; and the job is
    recorded at each moment at which a request is sent. -/
theorem sent_until_accepted (hid : id ≠ "") (hunknown : w.stores.Keeps b id none)
    (hcalls : CallsInTurn b id w (pre ++ k :: post) w') (hwritable : ∀ e ∈ pre ++ [k], e.Writable) :
    k.exchanges.length ≤ 1
      ∧ (k.exchanges ≠ [] ↔ ∀ e ∈ pre, ∀ x ∈ e.exchanges, x.accepted = false)
      ∧ ((∃ p, k.outcome = .error (.dispatch p)) ↔ ∃ x ∈ k.exchanges, x.accepted = false)
      ∧ ((∀ x ∈ k.exchanges, x.accepted = true) → ∃ r, k.outcome = .ok r ∧ r.id = some id)
      ∧ ∀ m ∈ k.moments, ∀ r, m.deed.call = .request r →
        (∃ time, r = k.request id time) ∧ ∃ record, m.world.stores.jobs.get id = .ok (some record) := by
  obtain ⟨w₁, hpre, hrest⟩ := hcalls.split
  have hholds : Sight.Holds b id ⟨none, []⟩ w := ⟨none, hunknown, rfl⟩
  obtain ⟨note, hholds₁, hnote⟩ := hpre.noted hid (fun e he => hwritable e (List.mem_append_left _ he)) hholds
  cases hrest with
  | cons first _ =>
    obtain ⟨note', -, hresult, hmoments⟩ := TriggerCall.result hid (hwritable k (by simp)) first hholds₁
    obtain ⟨hone, hsends, -, hfails, hgives⟩ := hresult.account
    refine ⟨hone, hsends.trans ?_, hfails, hgives, hmoments⟩
    rw [Ne, hnote]
    simp

end

/-! ### An instance -/

/-- What a program does when it runs alone, and in which worlds. -/
def Program.momentsAlone {α : Type} : Program α → World → List Moment
  | .done _, _ => []
  | .ask c next, w =>
    ⟨w, ⟨none, c, (w.alone c).1, (w.alone c).2.clock, (w.alone c).2.clock⟩⟩
      :: (next (w.alone c).1).momentsAlone (w.alone c).2

/-- Who is alone is amid others who do nothing before the end. -/
theorem Program.among_momentsAlone {α : Type} {Others : World → World → Prop} (hothers : ∀ w, Others w w)
    (p : Program α) {w w' : World} (hlast : Others (p.runAlone w).2 w')
    (htime : (p.runAlone w).2.clock < Stamp.lastMicro) :
    Program.Among Others p w (p.momentsAlone w) (p.runAlone w).1 w' := by
  induction p generalizing w with
  | done a => exact .done hlast
  | ask c next ih =>
    rw [runAlone_ask] at hlast htime ⊢
    exact .ask (hothers w) (w.answers_alone c) (Nat.lt_of_le_of_lt (Program.le_clock_runAlone _ _) htime)
      (ih _ hlast htime)

/-- The trigger of a thumbnail. -/
def thumbnailTrigger : Program (Except Fault DispatchResult) :=
  (Dispatch.triggerWorker {} "resize" (.text "cat.png") (some "thumbnail") false .null).outcome

/-- A call that triggers it when nobody else is there. -/
def thumbnailCall (w : World) : TriggerCall :=
  ⟨{}, "resize", .text "cat.png", false, .null, thumbnailTrigger.momentsAlone w, (thumbnailTrigger.runAlone w).1⟩

theorem thumbnailCall_among {w w' : World}
    (hlast : World.Spares .sqlite "thumbnail" (thumbnailTrigger.runAlone w).2 w')
    (htime : (thumbnailTrigger.runAlone w).2.clock < Stamp.lastMicro) :
    ((thumbnailCall w).program "thumbnail").Among (World.Spares .sqlite "thumbnail") w (thumbnailCall w).moments
      (thumbnailCall w).outcome w' := Program.among_momentsAlone .refl thumbnailTrigger hlast htime

/-- A world without jobs, whose remote side refuses the first request it gets. -/
def refusingWorld : World :=
  { stores := .empty .sqlite
    remote := { replies := [(Remote.shared, [{ response := .ok (.ofJson 500 .null) },
      { response := .ok (.ofJson 202 .null) }])] } }

/-- The worker carries out the job. -/
def World.thumbnailDone (w : World) : World :=
  { w with stores := (w.stores.perform (.ofMicros 0) (.updateJob "thumbnail" [("status", .text "completed")])).2 }

theorem World.spares_thumbnailDone {w : World}
    (h : (w.stores.jobs.get "thumbnail").toOption.join.isSome = true) :
    World.Spares .sqlite "thumbnail" w w.thumbnailDone := by
  intro found hkeeps
  rw [hkeeps.get] at h
  obtain ⟨e, rfl⟩ : ∃ e, found = some e := Option.isSome_iff_exists.mp (by simpa [Except.toOption] using h)
  have hdone : ∀ updates ∈ (StoreOp.updateJob "thumbnail" [("status", .text "completed")]).updates? "thumbnail",
      ∀ fields, ("metadata", Value.object fields) ∈ updates →
        Keyed.get? fields.reverse JobRecord.flagKey = none := by
    simp [StoreOp.updates?]
  obtain ⟨r, hkeeps', hsame⟩ := hkeeps.spares_perform (t := 0) (by decide) hdone
  exact ⟨some r, hkeeps', congrArg some hsame⟩

/-- The world after the first call: the job is carried out although its trigger was answered with an error. -/
def refusedWorld : World := (thumbnailTrigger.runAlone refusingWorld).2.thumbnailDone

/-- The world after the second call. -/
def acceptedWorld : World := (thumbnailTrigger.runAlone refusedWorld).2

/-- The request of the first call is refused, so that the second call sends it again, although the job has ended by
    then. It is accepted, and the third call sends nothing. -/
theorem thumbnail_sent_again :
    (thumbnailCall refusingWorld).exchanges.map Exchange.accepted = [false]
      ∧ (refusedWorld.stores.jobs.get "thumbnail").toOption.join.any JobRecord.isTerminal = true
      ∧ (thumbnailCall refusedWorld).exchanges ≠ []
      ∧ (thumbnailCall refusedWorld).exchanges.map Exchange.accepted = [true]
      ∧ (thumbnailCall acceptedWorld).exchanges = [] := by
  have hrefused : (thumbnailCall refusingWorld).exchanges.map Exchange.accepted = [false] := by decide +kernel
  have haccepted : (thumbnailCall refusedWorld).exchanges.map Exchange.accepted = [true] := by decide +kernel
  have hwritable (w : World) : (thumbnailCall w).Writable := ⟨rfl, rfl⟩
  have hcalls : CallsInTurn .sqlite "thumbnail" refusingWorld
      [thumbnailCall refusingWorld, thumbnailCall refusedWorld, thumbnailCall acceptedWorld]
      (thumbnailTrigger.runAlone acceptedWorld).2 :=
    .cons (thumbnailCall_among (World.spares_thumbnailDone (by decide +kernel)) (by decide +kernel))
      (.cons (thumbnailCall_among (by rw [acceptedWorld]; exact .refl _) (by decide +kernel))
        (.cons (thumbnailCall_among (.refl _) (by decide +kernel)) .nil))
  have hunknown : refusingWorld.stores.Keeps .sqlite "thumbnail" none := .empty .sqlite "thumbnail"
  have hfirst : ∀ k ∈ [thumbnailCall refusingWorld], k.Writable := List.forall_mem_singleton.mpr (hwritable _)
  have hsecond : ∀ k ∈ [thumbnailCall refusingWorld] ++ [thumbnailCall refusedWorld], k.Writable :=
    List.forall_mem_append.mpr ⟨hfirst, List.forall_mem_singleton.mpr (hwritable _)⟩
  have hthird : ∀ k ∈ [thumbnailCall refusingWorld, thumbnailCall refusedWorld] ++ [thumbnailCall acceptedWorld],
      k.Writable := List.forall_mem_append.mpr ⟨hsecond, List.forall_mem_singleton.mpr (hwritable _)⟩
  obtain ⟨-, hagain, -⟩ := sent_until_accepted (by decide) hunknown
    (show CallsInTurn _ _ _ ([_] ++ _ :: [_]) _ from hcalls) hsecond
  obtain ⟨-, hnever, -⟩ := sent_until_accepted (by decide) hunknown
    (show CallsInTurn _ _ _ ([_, _] ++ _ :: []) _ from hcalls) hthird
  refine ⟨hrefused, by decide +kernel, hagain.mpr ?_, haccepted, ?_⟩
  · intro k hk x hx
    obtain rfl := List.mem_singleton.mp hk
    simpa [hrefused] using List.mem_map_of_mem (f := Exchange.accepted) hx
  · by_contra hsent
    have hnone := hnever.mp hsent (thumbnailCall refusedWorld) (by simp)
    obtain ⟨x, hx, htrue⟩ := List.mem_map.mp (haccepted ▸ List.mem_singleton_self true)
    rw [hnone x hx] at htrue
    exact absurd htrue (by decide)

end Runbook
