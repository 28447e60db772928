import Runbook.Proofs.Undisturbed
import Runbook.Worker

/-!
# `Proofs.Redeliveries` — a job is carried out once, however often it is delivered

A queue that triggers workers may deliver the message of a job more than once. The first delivery records that the
job is queued, and that it runs; then comes the handler; then the end is recorded and reported. Whatever goes wrong
on the way, with the input, in the handler or with its output, the record, the report and what the delivery
returns say the same. After that the job has ended, and every other delivery looks at its record, finds that,
and returns the output that is stored.

## Contents
- **Helpers of handlers.** `leaves_progress` and `leaves_dispatchWorker`: they leave it to the runtime how the
  job ends.
- **Outputs.** `Worker.isData_readOutput`: what is read of a JSON value is JSON.
- **Requests.** What the record of a job is updated with on its way, and what is reported of it.
- **Stages.** What these updates make of the record; `JobRecord.Shows`.
- **Deliveries.** `Handover`, `Delivery`, and `Runtime.Delivers`, deliveries one after the other;
  `Runtime.CarriesOut` and `Delivery.Repeats`, what they can come to.
- **The parts of a delivery.** First the report and each write, then the stretches that they make up, and with
  these `passes_first` and `passes_again`; `delivers_again` by induction on the deliveries.
- **The result.** `job_carried_out_once`.
-/

namespace Runbook

/-! ## Helpers of handlers -/

section

variable {α β : Type} {id : String}

namespace Action

variable {a : Action α} {f : α → Action β}

theorem leavesJob_of_makes (h : a.Makes (Call.LeavesOutcome id)) : a.LeavesJob id :=
  heeds_of_makes (I := fun _ => True) h (fun _ _ hc _ => hc) (fun _ _ _ _ _ _ _ => trivial) trivial

theorem leavesJob_bind (ha : a.LeavesJob id) (hf : ∀ v, (f v).LeavesJob id) : (a >>= f).LeavesJob id :=
  heeds_bind ha (fun v _ _ => hf v) fun _ _ _ => trivial

end Action

/-- A new name is not empty. -/
theorem Dispatch.newName_ne_empty (n : Nat) : "job-" ++ hexId n ≠ "" := by
  intro h
  have := congrArg String.toList h
  simp [String.toList_append] at this

/-- **The job of a trigger** is the one that was named, or gets the name of a number that is given out. -/
theorem Dispatch.triggerWorker_cases (settings : DispatchSettings) (worker : String) (input : Value)
    (jobId : Option String) (awaits : Bool) (context : Value) :
    (∃ id, jobId = some id ∧ id ≠ "")
      ∨ triggerWorker settings worker input jobId awaits context
        = Action.call .freshId >>= fun n =>
            triggerWorker settings worker input (some ("job-" ++ hexId n)) awaits context := by
  cases hj : nonEmpty? jobId with
  | some id =>
    unfold nonEmpty? at hj
    split at hj
    · exact absurd hj (by simp)
    · next hempty => exact .inl ⟨id, hj, fun h => hempty (by rw [hj, h])⟩
  | none =>
    refine .inr ?_
    unfold triggerWorker
    simp only [hj, nonEmpty?_of_ne (newName_ne_empty _)]
    rfl

/-- A job is triggered that is another one: it was named so, or its name is new. -/
theorem Dispatch.leaves_triggerWorker (settings : DispatchSettings) (worker : String) (input : Value)
    {jobId : Option String} (awaits : Bool) (context : Value) (hid : jobId ≠ some id) :
    (triggerWorker settings worker input jobId awaits context).LeavesJob id := by
  have hnamed {j : String} (hne : j ≠ "") (hj : j ≠ id) :
      (triggerWorker settings worker input (some j) awaits context).LeavesJob id :=
    Action.leavesJob_of_makes
      (makes_triggerWorker (fun _ => trivial) hne trivial (StoreOp.leavesOutcome_of_eq_none rfl) fun _ =>
        StoreOp.leavesOutcome_of_eq_none (if_neg hj))
  rcases triggerWorker_cases settings worker input jobId awaits context with ⟨j, rfl, hne⟩ | hnew
  · exact hnamed hne fun h => hid (by rw [h])
  · rw [hnew]
    refine Action.heeds_bind (a := Action.call .freshId) (Q := fun o _ => ∀ n, o = .ok n → "job-" ++ hexId n ≠ id)
      ⟨trivial, fun n _ hfresh => ?_⟩ (fun n _ hn => ?_) fun _ _ _ => trivial
    · rintro _ ⟨⟩
      exact hfresh
    · exact hnamed (newName_ne_empty n) (hn n rfl)

namespace JobContext

variable (c : JobContext)

/-- **To note progress** is to change the metadata of a job. -/
theorem leaves_progress (progress message : Value) : (c.progress progress message).LeavesJob id := by
  refine Action.leavesJob_of_makes (Action.makes_discard (Action.makes_store ?_))
  intro updates hupdates key hkey
  obtain rfl := Option.some.inj (Option.ite_none_right_eq_some.mp hupdates).2
  simpa [Keyed.keys] using hkey

/-- **To dispatch another worker** is to trigger another job, to note it, and to wait for its end. -/
theorem leaves_dispatchWorker (workerId : String) (input : Value) {jobId : Option String} (awaits : Bool)
    (poll : ChildPoll) (hid : jobId ≠ some id) :
    (c.dispatchWorker workerId input jobId awaits poll).LeavesJob id := by
  have hawait (child : String) (triggered : DispatchResult) :
      (awaitChild workerId child triggered poll).Makes (Call.LeavesOutcome id) := by
    refine Action.makes_bind (makes_pollUntilDone ?_ (fun _ => Action.makes_call trivial) trivial _) fun r => ?_
    · refine Action.makes_bind (Action.makes_getJob (StoreOp.leavesOutcome_of_eq_none rfl)) fun found => ?_
      split <;> exact Action.makes_pure _
    · split
      · exact Action.makes_throw _
      · exact Action.makes_throw _
      · exact Action.makes_pure _
  unfold dispatchWorker
  refine Action.leavesJob_bind (Dispatch.leaves_triggerWorker _ _ _ _ _ hid) fun triggered => ?_
  have hnoted : Call.LeavesOutcome id (.store (.addInternalJob c.jobId ⟨triggered.id.getD "", workerId⟩)) :=
    StoreOp.leavesOutcome_of_eq_none rfl
  refine Action.leavesJob_of_makes (Action.makes_bind (Action.makes_discard (Action.makes_store hnoted)) fun _ => ?_)
  split
  · exact hawait _ _
  · exact Action.makes_pure _

end JobContext

end

/-! ## Outputs -/

namespace Value

mutual
/-- Plain data stays the same. -/
theorem plain_of_isData : ∀ {v : Value}, v.isData = true → v.plain = v
  | .null, _ | .bool _, _ | .int _, _ | .text _, _ | .real _, _ => rfl
  | .list items, h => by
    rw [isData] at h
    rw [plain, plainItems_of_allData h]
  | .object fields, h => by
    rw [isData] at h
    rw [plain, plainFields_of_allFieldsData h]

theorem plainItems_of_allData : ∀ {items : List Value}, allData items = true → plainItems items = items
  | [], _ => rfl
  | v :: rest, h => by
    rw [allData, Bool.and_eq_true] at h
    rw [plainItems, plain_of_isData h.1, plainItems_of_allData h.2]

theorem plainFields_of_allFieldsData : ∀ {fields : Keyed Value}, allFieldsData fields = true →
    plainFields fields = fields
  | [], _ => rfl
  | (k, v) :: rest, h => by
    rw [allFieldsData, Bool.and_eq_true] at h
    rw [plainFields, plain_of_isData h.1, plainFields_of_allFieldsData h.2]
end

end Value

theorem FieldKind.isData_of_read {kind : FieldKind} {v u : Value} (h : kind.read v = .ok u) : u.isData = true := by
  cases kind <;> obtain ⟨_, -, rfl⟩ := Checked.map_eq_ok.mp h <;> rfl

/-- What is read of a field is data: a text, an integer or a boolean. -/
theorem SchemaField.isData_of_read {f : SchemaField} {fields : Keyed Value} {u : Value}
    (h : f.read fields = .ok u) : u.isData = true := by
  unfold SchemaField.read Decode.optional Decode.required at h
  split at h
  · next d _ =>
    split at h
    · exact FieldKind.isData_of_read (Checked.under_eq_ok.mp h)
    · rw [← Checked.ok.inj h]
      cases d <;> rfl
  · split at h
    · exact FieldKind.isData_of_read (Checked.under_eq_ok.mp h)
    · exact nomatch Checked.under_eq_ok.mp h

theorem Schema.isData_of_readFields {fs : List SchemaField} {fields out : Keyed Value}
    (h : readFields fs fields = .ok out) : Value.allFieldsData out = true := by
  induction fs generalizing out with
  | nil => rw [← Checked.ok.inj h]; rfl
  | cons f rest ih =>
    obtain ⟨_, vs, ⟨v, hv, rfl⟩, hvs, rfl⟩ := by
      simpa only [readFields, Checked.seq_eq_ok, Checked.map_eq_ok] using h
    rw [Value.allFieldsData, SchemaField.isData_of_read hv, ih hvs]
    rfl

/-- **What is read of the output of a handler is data**, whatever the schema, when the output is. -/
theorem Worker.isData_readOutput {k : Worker} {raw v : Value} (hraw : raw.isData = true)
    (h : k.readOutput raw = .ok v) : v.isData = true := by
  unfold readOutput at h
  split at h
  · next s _ =>
    obtain ⟨_, haccept, rfl⟩ := Fault.map_eq_ok.mp h
    obtain ⟨fields, hcheck, rfl⟩ := Fault.map_eq_ok.mp haccept
    have hcheck := Fault.ofChecked_eq_ok.mp hcheck
    have hfields : Value.allFieldsData fields = true := by
      cases raw with
      | object given => exact Schema.isData_of_readFields hcheck
      | parsed => exact absurd hraw (by simp [Value.isData])
      | _ => exact nomatch hcheck
    rw [Value.plain, Value.isData, Value.plainFields_of_allFieldsData hfields]
    exact hfields
  · unfold Value.plainData at h
    rw [Value.plain_of_isData hraw, Value.unwritable?_of_isData hraw] at h
    exact Except.ok.inj h ▸ hraw

/-! ## Requests -/

namespace Runtime

/-- What is kept of a failure with a job. -/
def errorFields (f : Fault) : Keyed Value := [("message", .text f.describe), ("stack", .text f.trace)]

namespace JobRequest

variable (q : JobRequest)

/-- The metadata that a job is queued and reported with. -/
def givenMetadata : Value := if q.metadata.truthy then q.metadata else .object []

/-- The update with which a job is queued. -/
def queued : Keyed Value :=
  [("worker_id", q.workerId), ("status", .text "queued"), ("input", q.input), ("metadata", q.givenMetadata)]

/-- The update with which a job begins to run. -/
def running : Keyed Value := [("status", .text "running")]

/-- The update with which a job ends. -/
def ended : Except Fault Value → Keyed Value
  | .ok output => [("status", .text "completed"), ("output", output)]
  | .error f => [("status", .text "failed"), ("error", .object (errorFields f))]

/-- What is reported of the end of a job. -/
def body : Except Fault Value → Keyed Value
  | .ok output => reportOf q "success" q.givenMetadata [("output", output)]
  | .error f =>
    reportOf q "error" q.givenMetadata [("error", .object (errorFields f ++ [("name", .text f.name)]))]

/-- **The calls before the handler**: a look at the job, and two writes. -/
def openings : List Call :=
  [.store (.getJob q.jobId), .store (.setJob q.jobId q.queued), .store (.updateJob q.jobId running)]

/-- The report of the end of a job, when there is an address for it. -/
def reports (o : Except Fault Value) : List Call :=
  if q.webhookUrl.truthy then
    [.request ⟨"POST", q.webhookUrl.display, some (.object (q.body o)), reportHeaders⟩]
  else []

/-- **The calls after the handler**: the last write, and the report. -/
def closings (o : Except Fault Value) : List Call := .store (.updateJob q.jobId (ended o)) :: q.reports o

/-- **A request of JSON**, with metadata that are a mapping when there are any. -/
structure Proper (q : JobRequest) : Prop where
  input : q.input.unwritable? = none
  metadata : q.metadata.unwritable? = none
  mapping : q.metadata.truthy = true → q.metadata.isObject = true

variable {q : JobRequest}

theorem Proper.givenMetadata (h : q.Proper) :
    q.givenMetadata.unwritable? = none ∧ ∃ fields, q.givenMetadata = .object fields := by
  unfold JobRequest.givenMetadata
  split
  · next hgiven =>
    refine ⟨h.metadata, ?_⟩
    cases hm : q.metadata with
    | object fields => exact ⟨fields, rfl⟩
    | _ => exact absurd (h.mapping hgiven) (by simp [hm, Value.isObject])
  · exact ⟨rfl, [], rfl⟩

end JobRequest

end Runtime

/-! ## Stages -/

/-- **The record shows how the job ended**: it is completed with the value that was returned, or has failed with the
    message of the failure, which is the name of its class when there is none. -/
def JobRecord.Shows (r : JobRecord) : Except Fault Value → Prop
  | .ok v => r.status = .completed ∧ r.output = v
  | .error f => r.status = .failed ∧ r.output = .null ∧ r.error = some ⟨f.describe, some f.trace⟩

namespace Runtime.JobRequest

variable {q : JobRequest} {found : Option JobRecord} {e : JobRecord} {id name : String} {o : Except Fault Value}

/-- **A job that is new, or queued without an output, is queued.** -/
theorem update_queued (hq : q.Proper) (hworker : q.workerId = .text name)
    (hnew : ∀ e ∈ found, e.status = .queued ∧ e.output = .null) (now : Stamp) :
    ∃ r, JobRecord.update found id q.queued now = .ok r ∧ r.status = .queued ∧ r.output = .null := by
  obtain ⟨-, fields, hmetadata⟩ := hq.givenMetadata
  have hbase : (found.getD (JobRecord.start id now)).status = .queued
      ∧ (found.getD (JobRecord.start id now)).output = .null := by
    cases found with
    | none => exact ⟨rfl, rfl⟩
    | some e => exact hnew e rfl
  generalize hb : found.getD (JobRecord.start id now) = base at hbase
  obtain ⟨hstatus, houtput⟩ := hbase
  have hopen : base.isTerminal = false := by rw [JobRecord.isTerminal, hstatus]; rfl
  obtain ⟨m, hm⟩ : ∃ m, Update.overlay base.metadata q.givenMetadata = .ok m := by
    rw [hmetadata]
    unfold Update.overlay
    split <;> exact ⟨_, rfl⟩
  have hoverlays : base.overlays q.queued = .ok ⟨m, base.error, none⟩ := by
    simp [JobRecord.overlays, queued, hopen, hm, bind, Except.bind, pure, Except.pure]
  have hfield : Update.field q.queued "worker_id" base.workerId Decode.text = .ok name := by
    simp [Update.field, Update.newValue?, queued, Keyed.get?, hworker, Value.present?, Decode.text]
    rfl
  subst hb
  obtain ⟨r, hr, hrstatus, -, hroutput⟩ : ∃ r, JobRecord.update found id q.queued now = .ok r
      ∧ r.status = .queued ∧ r.error = _ ∧ r.output = _ :=
    JobRecord.update_stage hopen hoverlays rfl hfield rfl rfl rfl
  exact ⟨r, hr, hrstatus, hroutput.trans houtput⟩

/-- **A queued job begins to run.** -/
theorem update_running (hstatus : e.status = .queued) (houtput : e.output = .null) (now : Stamp) :
    ∃ r, JobRecord.update (some e) id running now = .ok r ∧ r.status = .running ∧ r.output = .null := by
  have hopen : e.isTerminal = false := by rw [JobRecord.isTerminal, hstatus]; rfl
  have hoverlays : e.overlays running = .ok ⟨e.metadata, e.error, none⟩ := by
    simp [JobRecord.overlays, running, hopen, bind, Except.bind, pure, Except.pure]
  obtain ⟨r, hr, hrstatus, -, hroutput⟩ : ∃ r, JobRecord.update (some e) id running now = .ok r
      ∧ r.status = .running ∧ r.error = _ ∧ r.output = _ :=
    JobRecord.update_stage hopen hoverlays rfl rfl rfl rfl rfl
  exact ⟨r, hr, hrstatus, hroutput.trans houtput⟩

/-- **A running job ends**, and its record shows how. -/
theorem update_ended (hstatus : e.status = .running) (houtput : e.output = .null) (now : Stamp) :
    ∃ r, JobRecord.update (some e) id (ended o) now = .ok r ∧ r.Shows o := by
  have hopen : e.isTerminal = false := by rw [JobRecord.isTerminal, hstatus]; rfl
  cases o with
  | ok v =>
    have hoverlays : e.overlays (ended (.ok v)) = .ok ⟨e.metadata, e.error, none⟩ := by
      simp [JobRecord.overlays, ended, hopen, bind, Except.bind, pure, Except.pure]
    obtain ⟨r, hr, hrstatus, -, hroutput⟩ : ∃ r, JobRecord.update (some e) id (ended (.ok v)) now = .ok r
        ∧ r.status = .completed ∧ r.error = _ ∧ r.output = _ :=
      JobRecord.update_stage hopen hoverlays rfl rfl rfl rfl rfl
    refine ⟨r, hr, hrstatus, hroutput.trans ?_⟩
    -- a null output is no new value, and was there before
    cases v with
    | null => exact houtput
    | _ => rfl
  | error f =>
    have hoverlays : e.overlays (ended (.error f))
        = .ok ⟨e.metadata, some ⟨f.describe, some f.trace⟩, none⟩ := by
      simp [JobRecord.overlays, ended, hopen, bind, Except.bind, pure, Except.pure]
      rfl
    obtain ⟨r, hr, hrstatus, hrerror, hroutput⟩ : ∃ r, JobRecord.update (some e) id (ended (.error f)) now = .ok r
        ∧ r.status = .failed ∧ r.error = _ ∧ r.output = _ :=
      JobRecord.update_stage hopen hoverlays rfl rfl rfl rfl rfl
    exact ⟨r, hr, hrstatus, hroutput.trans houtput, hrerror⟩

end Runtime.JobRequest

/-! ## Deliveries -/

/-- How a job is handed to a runtime: in a call, or with the message that triggers it. -/
inductive Handover where
  | call (q : Runtime.JobRequest)
  | message (m : Value)

namespace Handover

/-- What is asked of the runtime, unless the message lacks a field. -/
def request : Handover → Except Fault Runtime.JobRequest
  | .call q => .ok q
  | .message m => do
    let workerId ← Runtime.messageField m "workerId"
    let jobId ← Runtime.messageField m "jobId"
    return { workerId, jobId := jobId.display, input := m.getD "input", webhookUrl := m.getD "webhookUrl",
             metadata := m.getD "metadata", context := m.getD "context" }

/-- What the runtime does with the job. -/
def carryOut (r : Runtime) : Handover → Action Value
  | .call q => r.runJob q
  | .message m => r.handleMessage m

/-- A message is handled as the call that it stands for. -/
theorem carryOut_eq {r : Runtime} {h : Handover} {q : Runtime.JobRequest} (hq : h.request = .ok q) :
    h.carryOut r = r.runJob q := by
  cases h with
  | call => exact congrArg r.runJob (Except.ok.inj hq)
  | message m =>
    obtain ⟨workerId, hworker, hq⟩ := Fault.bind_eq_ok.mp hq
    obtain ⟨jobId, hjob, hq⟩ := Fault.bind_eq_ok.mp hq
    rw [carryOut, Runtime.handleMessage, hworker, hjob, ← Except.ok.inj hq]
    rfl

end Handover

/-- **A delivery of a job**: how it was handed over, what was done, and what came of it. -/
structure Delivery where
  handover : Handover
  deeds : List Deed
  outcome : Except Fault Value

/-- The delivery repeats a job that has ended: it looks at the record and returns the output that is stored,
    and this is all. -/
structure Delivery.Repeats (d : Delivery) (id : String) (record : JobRecord) : Prop where
  calls : d.deeds.map Deed.call = [.store (.getJob id)]
  outcome : d.outcome = .ok record.output

namespace Runtime

/-- **Deliveries of a job, one after the other**, while nobody else touches its record. -/
inductive Delivers (r : Runtime) (id : String) : World → List Delivery → World → Prop where
  | nil {w w' : World} (others : World.SameJob id w w') : Delivers r id w [] w'
  | cons {w w₁ w' : World} {d : Delivery} {ds : List Delivery}
      (first : (d.handover.carryOut r).Passes id w d.deeds d.outcome w₁) (rest : Delivers r id w₁ ds w') :
      Delivers r id w (d :: ds) w'

/-- The runtime is handed a job of a worker that it knows. -/
structure Receives (r : Runtime) (id : String) (h : Handover) (q : JobRequest) (k : Worker) : Prop where
  request : h.request = .ok q
  jobId : q.jobId = id
  worker : r.worker? q.workerId = some k

/-- What a handler knows of a job that was asked for. -/
def contextOf (r : Runtime) (k : Worker) (q : JobRequest) : JobContext :=
  ⟨q.jobId, k.id, r.settings, q.context.fields?.getD []⟩

/-- **What came of the handler**: it did not run, since the input was refused, or it ran once. -/
inductive Handles (r : Runtime) (k : Worker) (q : JobRequest) : List Deed → Except Fault Value → Prop where
  | refused {f : Fault} (hinput : k.readInput q.input = .error f) : Handles r k q [] (.error f)
  | ran {input : Value} {w w' : World} {ds : List Deed} {raw : Except Fault Value}
      (hinput : k.readInput q.input = .ok input)
      (hran : (k.handler input (r.contextOf k q)).Passes q.jobId w ds raw w') : Handles r k q ds raw

/-- **The deeds of a delivery, cut at the handler**: its look and its first writes, then the handler, and what is
    done after that. -/
def Runs (r : Runtime) (k : Worker) (q : JobRequest) (ds : List Deed) (raw : Except Fault Value)
    (after : List Deed) : Prop :=
  ∃ before during, ds = before ++ during ++ after ∧ before.map Deed.call = q.openings ∧ r.Handles k q during raw

/-- **A delivery carries out a job**: it runs the handler at most once, and returns what is read of its output. It
    records this end and reports it, and the record shows it. -/
structure CarriesOut (r : Runtime) (k : Worker) (q : JobRequest) (d : Delivery) (record : JobRecord) : Prop where
  deeds : ∃ raw after, r.Runs k q d.deeds raw after ∧ d.outcome = raw >>= k.readOutput
    ∧ after.map Deed.call = q.closings d.outcome
  shows : record.Shows d.outcome

end Runtime

/-! ## The parts of a delivery -/

theorem JobRecord.Shows.isTerminal {r : JobRecord} {o : Except Fault Value} (h : r.Shows o) :
    r.isTerminal = true := by
  unfold JobRecord.isTerminal
  cases o <;> rw [h.1] <;> rfl

/-- A backend keeps what a record shows, when the output is data. -/
theorem JobRecord.Shows.keeps {r : JobRecord} {o : Except Fault Value} (h : r.Shows o) (b : Backend)
    (hdata : ∀ v, o = .ok v → v.isData = true) : (b.keepsJob r).Shows o := by
  cases o with
  | ok v => exact ⟨h.1, (congrArg b.keeps h.2).trans (b.keeps_of_isData (hdata v rfl))⟩
  | error f => exact ⟨h.1, (congrArg b.keeps h.2.1).trans b.keeps_null, h.2.2⟩

/-- The base of an update can be written down when what is kept can. -/
theorem Stores.Keeps.writable_base {s : Stores} {b : Backend} {id : String} {found : Option JobRecord}
    (h : s.Keeps b id found) (now : Stamp) (hb : b ≠ .memory) :
    (found.getD (JobRecord.start id now)).Writable := by
  cases found with
  | none => exact JobRecord.writable_start id now
  | some e => exact h.writable hb e rfl

namespace Runtime

variable {r : Runtime} {k : Worker} {q : JobRequest} {b : Backend} {id name : String} {found : Option JobRecord}
  {e : JobRecord} {w w' : World} {ds : List Deed} {o result : Except Fault Value}

/-- The id of a worker that is known is a text. -/
theorem workerId_of_worker? {v : Value} (h : r.worker? v = some k) : v = .text k.id := by
  have hk : v.text? = some k.id := by simpa using List.find?_some h
  cases v <;> simp only [Value.text?, Option.some.injEq, reduceCtorEq] at hk
  rw [hk]

/-- **An exchange whose body can be written down** makes its request. It fails only when there is no response. -/
theorem passes_exchange {method url : String} {body : Option Value} {headers : Keyed String}
    {reply : Except Fault Response} (hpasses : (Dispatch.exchange method url body headers).Passes id w ds reply w')
    (hbody : body.bind Value.unwritable? = none) (h : w.stores.Keeps b id found) :
    (∀ f, reply = .error f → ∃ p, f = .dispatch p) ∧ w'.stores.Keeps b id found
      ∧ ds.map Deed.call = [.request ⟨method, url, body, headers⟩] := by
  unfold Dispatch.exchange at hpasses
  rw [hbody] at hpasses
  obtain ⟨d, answer, w₁, fs, rfl, hd, hamid, hrest⟩ := Action.Passes.of_call_bind hpasses
  have hkeeps := h.amid hamid (by rw [hd]; rfl)
  split at hrest
  · obtain ⟨rfl, rfl, rfl⟩ := hrest.of_pure
    exact ⟨by simp, hkeeps, by rw [List.map_singleton, hd]⟩
  · obtain ⟨rfl, rfl, rfl⟩ := hrest.of_throw
    refine ⟨?_, hkeeps, by rw [List.map_singleton, hd]⟩
    rintro _ ⟨⟩
    exact ⟨_, rfl⟩

/-- **A report arrives or does not**; either way, that is all. -/
theorem passes_report {url : Value} {body : Keyed Value} {o : Except Fault Unit}
    (hpasses : (report url body).Passes id w ds o w') (hbody : Value.unwritableField? body = none)
    (h : w.stores.Keeps b id found) :
    o = .ok () ∧ w'.stores.Keeps b id found
      ∧ ds.map Deed.call
        = if url.truthy then [.request ⟨"POST", url.display, some (.object body), reportHeaders⟩] else [] := by
  unfold report at hpasses
  by_cases hurl : url.truthy = true
  · rw [if_pos hurl] at hpasses ⊢
    obtain ⟨reply, w₁, es, fs, rfl, hreply, hrest⟩ := Action.Passes.of_lift_bind hpasses
    obtain ⟨hfaults, hkeeps, hcalls⟩ := passes_exchange hreply hbody h
    split at hrest
    · obtain ⟨rfl, rfl, rfl⟩ := hrest.of_pure
      exact ⟨rfl, hkeeps, by rw [List.append_nil, hcalls]⟩
    · obtain ⟨rfl, rfl, rfl⟩ := hrest.of_pure
      exact ⟨rfl, hkeeps, by rw [List.append_nil, hcalls]⟩
    · -- there is no other way to fail
      next f hother =>
      obtain ⟨p, rfl⟩ := hfaults f rfl
      exact absurd rfl (hother p)
  · rw [if_neg hurl] at hpasses ⊢
    obtain ⟨rfl, rfl, rfl⟩ := hpasses.of_pure
    exact ⟨rfl, h, rfl⟩

/-! ### Writes -/

/-- **The first write** queues a job that is new, or queued without an output. -/
theorem passes_queued {answer : Except Fault Unit}
    (hpasses : (Action.setJob q.jobId q.queued).Passes q.jobId w ds answer w') (hq : q.Proper)
    (hworker : q.workerId = .text name) (h : w.stores.Keeps b q.jobId found)
    (hnew : ∀ e ∈ found, e.status = .queued ∧ e.output = .null) :
    answer = .ok () ∧ ds.map Deed.call = [.store (.setJob q.jobId q.queued)]
      ∧ ∃ e, w'.stores.Keeps b q.jobId (some e) ∧ e.status = .queued ∧ e.output = .null := by
  obtain ⟨r, hr, hstatus, houtput⟩ : ∃ r, JobRecord.update found q.jobId q.queued w'.stamp = .ok r
      ∧ r.status = .queued ∧ r.output = .null := JobRequest.update_queued hq hworker hnew w'.stamp
  have hwritable : Value.unwritableField? q.queued = none := by
    simp [JobRequest.queued, Value.unwritableField?, Value.unwritable?, hworker, hq.input, hq.givenMetadata.1]
  obtain ⟨rfl, hcalls, hkeeps⟩ := h.passes_setJob hpasses hr fun hb =>
    JobRecord.Writable.update (h.writable_base w'.stamp hb) hwritable hr
  exact ⟨rfl, hcalls, _, hkeeps, hstatus, (congrArg b.keeps houtput).trans b.keeps_null⟩

/-- **The second write** says that the job runs. -/
theorem passes_running {answer : Except Fault Unit}
    (hpasses : (Action.updateJob q.jobId JobRequest.running).Passes q.jobId w ds answer w')
    (h : w.stores.Keeps b q.jobId (some e)) (hstatus : e.status = .queued) (houtput : e.output = .null) :
    answer = .ok () ∧ ds.map Deed.call = [.store (.updateJob q.jobId JobRequest.running)]
      ∧ ∃ e', w'.stores.Keeps b q.jobId (some e') ∧ e'.status = .running ∧ e'.output = .null := by
  obtain ⟨r, hr, hstatus', houtput'⟩ : ∃ r, JobRecord.update (some e) q.jobId JobRequest.running w'.stamp = .ok r
      ∧ r.status = .running ∧ r.output = .null := JobRequest.update_running hstatus houtput w'.stamp
  obtain ⟨rfl, hcalls, hkeeps⟩ := h.passes_updateJob hpasses hr fun hb =>
    JobRecord.Writable.update (h.writable_base w'.stamp hb) rfl hr
  exact ⟨rfl, hcalls, _, hkeeps, hstatus', (congrArg b.keeps houtput').trans b.keeps_null⟩

/-- **The last write** shows how the job has ended. -/
theorem passes_ended {answer : Except Fault Unit}
    (hpasses : (Action.updateJob q.jobId (JobRequest.ended result)).Passes q.jobId w ds answer w')
    (hdata : ∀ v, result = .ok v → v.isData = true) (h : w.stores.Keeps b q.jobId (some e))
    (hstatus : e.status = .running) (houtput : e.output = .null) :
    answer = .ok () ∧ ds.map Deed.call = [.store (.updateJob q.jobId (JobRequest.ended result))]
      ∧ ∃ record, w'.stores.Keeps b q.jobId (some record) ∧ record.Shows result := by
  have hwritable : Value.unwritableField? (JobRequest.ended result) = none := by
    cases result with
    | ok v => simp [JobRequest.ended, Value.unwritableField?, Value.unwritable?,
        Value.unwritable?_of_isData (hdata v rfl)]
    | error f => rfl
  obtain ⟨r, hr, hshows⟩ : ∃ r, JobRecord.update (some e) q.jobId (JobRequest.ended result) w'.stamp = .ok r
      ∧ r.Shows result := JobRequest.update_ended hstatus houtput w'.stamp
  obtain ⟨rfl, hcalls, hkeeps⟩ := h.passes_updateJob hpasses hr fun hb =>
    JobRecord.Writable.update (h.writable_base w'.stamp hb) hwritable hr
  exact ⟨rfl, hcalls, _, hkeeps, hshows.keeps b hdata⟩

/-! ### Stretches -/

/-- The end of a job: it is recorded and reported, and then the delivery ends in the same way. -/
def conclude (q : JobRequest) (result : Except Fault Value) : Action Value := do
  Action.updateJob q.jobId (JobRequest.ended result)
  report q.webhookUrl (q.body result)
  Action.ofExcept result

/-- **The end of a job that runs**: the record shows what the delivery returns, and so does the report. -/
theorem passes_conclude (hpasses : (conclude q result).Passes q.jobId w ds o w') (hq : q.Proper)
    (hworker : q.workerId = .text name) (hdata : ∀ v, result = .ok v → v.isData = true)
    (h : w.stores.Keeps b q.jobId (some e)) (hstatus : e.status = .running) (houtput : e.output = .null) :
    o = result ∧ ds.map Deed.call = q.closings result
      ∧ ∃ record, w'.stores.Keeps b q.jobId (some record) ∧ record.Shows result := by
  have hbody : Value.unwritableField? (q.body result) = none := by
    cases result with
    | ok v => simp [JobRequest.body, reportOf, Value.unwritableField?, Value.unwritable?, hworker,
        hq.givenMetadata.1, Value.unwritable?_of_isData (hdata v rfl)]
    | error f => simp [JobRequest.body, reportOf, errorFields, Value.unwritableField?, Value.unwritable?, hworker,
        hq.givenMetadata.1]
  obtain ⟨_, w₁, es, fs, rfl, hwrite, hrest⟩ := hpasses.of_bind_ok fun hfailed =>
    absurd (passes_ended hfailed hdata h hstatus houtput).1 (by simp)
  obtain ⟨-, hcalls, record, hkeeps, hshows⟩ := passes_ended hwrite hdata h hstatus houtput
  obtain ⟨_, w₂, es₂, fs₂, rfl, hreport, hend⟩ := hrest.of_bind_ok fun hfailed =>
    absurd (passes_report hfailed hbody hkeeps).1 (by simp)
  obtain ⟨-, hkeeps₂, hcalls₂⟩ := passes_report hreport hbody hkeeps
  obtain ⟨rfl, rfl, rfl⟩ := hend.of_ofExcept
  refine ⟨rfl, ?_, record, hkeeps₂, hshows⟩
  rw [List.append_nil, List.map_append, hcalls, hcalls₂]
  rfl

/-- **What the handler makes of a job that runs**: it runs at most once, and leaves the record to the runtime. -/
theorem passes_handle (hpasses : (r.handle k q).Passes q.jobId w ds result w')
    (hleaves : ∀ input, (k.handler input (r.contextOf k q)).LeavesJob q.jobId)
    (h : w.stores.Keeps b q.jobId (some e)) :
    ∃ raw, r.Handles k q ds raw ∧ result = raw >>= k.readOutput
      ∧ ∃ e', w'.stores.Keeps b q.jobId (some e') ∧ e.SameOutcome e' := by
  unfold handle at hpasses
  rcases Action.Passes.of_bind hpasses with ⟨input, w₁, es, fs, rfl, hread, hrest⟩ | ⟨f, rfl, hread⟩
  · obtain ⟨rfl, hinput, rfl⟩ := hread.of_ofExcept
    rcases Action.Passes.of_bind hrest with ⟨output, w₂, es₂, fs₂, rfl, hran, hend⟩ | ⟨f, rfl, hran⟩
    · obtain ⟨rfl, rfl, rfl⟩ := hend.of_ofExcept
      rw [List.append_nil, List.nil_append]
      exact ⟨.ok output, .ran hinput.symm hran, rfl, Program.Passes.leaves hran (hleaves input) h⟩
    · exact ⟨.error f, .ran hinput.symm hran, rfl, Program.Passes.leaves hran (hleaves input) h⟩
  · obtain ⟨rfl, hinput, rfl⟩ := hread.of_ofExcept
    exact ⟨.error f, .refused hinput.symm, rfl, e, h, .refl e⟩

/-- **The beginning of a job**: two writes, after which it runs and has no output; then the handler, then the end. -/
theorem passes_begin (hpasses : (r.begin k q).Passes q.jobId w ds o w') (hq : q.Proper)
    (hworker : q.workerId = .text name) (h : w.stores.Keeps b q.jobId found)
    (hnew : ∀ e ∈ found, e.status = .queued ∧ e.output = .null) :
    ∃ before during after result w₁ w₂ e, ds = before ++ during ++ after
      ∧ before.map Deed.call = q.openings.tail ∧ w₁.stores.Keeps b q.jobId (some e)
      ∧ e.status = .running ∧ e.output = .null ∧ (r.handle k q).Passes q.jobId w₁ during result w₂
      ∧ (conclude q result).Passes q.jobId w₂ after o w' := by
  unfold begin at hpasses
  obtain ⟨_, w₁, es₁, fs₁, rfl, hqueue, hrest⟩ := Action.Passes.of_bind_ok hpasses fun hfailed =>
    absurd (passes_queued hfailed hq hworker h hnew).1 (by simp)
  obtain ⟨-, hcalls₁, e₁, hkeeps₁, hstatus₁, houtput₁⟩ := passes_queued hqueue hq hworker h hnew
  obtain ⟨_, w₂, es₂, fs₂, rfl, hrun, hrest⟩ := Action.Passes.of_bind_ok hrest fun hfailed =>
    absurd (passes_running hfailed hkeeps₁ hstatus₁ houtput₁).1 (by simp)
  obtain ⟨-, hcalls₂, e₂, hkeeps₂, hstatus₂, houtput₂⟩ := passes_running hrun hkeeps₁ hstatus₁ houtput₁
  obtain ⟨result, w₃, es₃, fs₃, rfl, hhandle, hend⟩ := Action.Passes.of_lift_bind hrest
  refine ⟨es₁ ++ es₂, es₃, fs₃, result, w₂, w₃, e₂, by simp, ?_, hkeeps₂, hstatus₂, houtput₂, hhandle, ?_⟩
  · rw [List.map_append, hcalls₁, hcalls₂]
    rfl
  · cases result with
    | ok output => exact hend
    | error f => exact hend

/-- A job is looked for before anything else is done. -/
theorem passes_look (hpasses : (r.runJob q).Passes q.jobId w ds o w') (hworker : r.worker? q.workerId = some k)
    (h : w.stores.Keeps b q.jobId found) :
    ∃ look rest w₁, ds = look ++ rest ∧ look.map Deed.call = [.store (.getJob q.jobId)]
      ∧ w₁.stores.Keeps b q.jobId found
      ∧ Action.Passes q.jobId (match found.filter JobRecord.isTerminal with
        | some record => pure record.output
        | none => r.begin k q) w₁ rest o w' := by
  unfold runJob at hpasses
  rw [hworker] at hpasses
  obtain ⟨found', w₁, es, fs, rfl, hget, hrest⟩ := Action.Passes.of_bind_ok hpasses fun hfailed =>
    absurd (h.passes_getJob hfailed).1 (by simp)
  obtain ⟨heq, hcalls, hkeeps⟩ := h.passes_getJob hget
  obtain rfl := Except.ok.inj heq
  exact ⟨es, fs, w₁, rfl, hcalls, hkeeps, hrest⟩

/-- **The first delivery** carries out the job. -/
theorem passes_first {d : Delivery} (hpasses : (d.handover.carryOut r).Passes id w d.deeds d.outcome w')
    (hreceives : r.Receives id d.handover q k) (hq : q.Proper)
    (hleaves : ∀ input, (k.handler input (r.contextOf k q)).LeavesJob id)
    (hjson : ∀ v after, r.Runs k q d.deeds (.ok v) after → v.isData = true) (h : w.stores.Keeps b id found)
    (hnew : ∀ e ∈ found, e.status = .queued ∧ e.output = .null) :
    ∃ record, w'.stores.Keeps b id (some record) ∧ r.CarriesOut k q d record := by
  obtain ⟨hrequest, rfl, hworker⟩ := hreceives
  rw [Handover.carryOut_eq hrequest] at hpasses
  have hname := workerId_of_worker? hworker
  obtain ⟨look, rest, w₁, hlook, hcalls, hkeeps, hrest⟩ := passes_look hpasses hworker h
  have hopen : found.filter JobRecord.isTerminal = none := by
    cases found with
    | none => rfl
    | some e => simp [Option.filter, JobRecord.isTerminal, (hnew e rfl).1, JobStatus.isTerminal]
  rw [hopen] at hrest
  obtain ⟨before, during, after, result, w₂, w₃, e, rfl, hbefore, hkeeps₂, hstatus, houtput, hhandle, hend⟩ :=
    passes_begin hrest hq hname hkeeps hnew
  obtain ⟨raw, hhandles, rfl, e', hkeeps₃, hsame⟩ := passes_handle hhandle hleaves hkeeps₂
  have hruns : r.Runs k q d.deeds raw after := by
    refine ⟨look ++ before, during, by rw [hlook]; simp, ?_, hhandles⟩
    rw [List.map_append, hcalls, hbefore]
    rfl
  -- the output is read of a JSON value
  have hdata : ∀ v, raw >>= k.readOutput = .ok v → v.isData = true := by
    intro v hv
    obtain ⟨v₀, rfl, hread⟩ := Fault.bind_eq_ok.mp hv
    exact Worker.isData_readOutput (hjson v₀ after hruns) hread
  obtain ⟨houtcome, hclosings, record, hkeeps₄, hshows⟩ := passes_conclude hend hq hname hdata hkeeps₃
    (hsame.status.trans hstatus) (hsame.output.trans houtput)
  exact ⟨record, hkeeps₄, ⟨raw, after, hruns, houtcome, houtcome ▸ hclosings⟩, houtcome ▸ hshows⟩

/-- **Every other delivery** repeats it. -/
theorem passes_again {d : Delivery} {record : JobRecord}
    (hpasses : (d.handover.carryOut r).Passes id w d.deeds d.outcome w')
    (hreceives : r.Receives id d.handover q k) (h : w.stores.Keeps b id (some record))
    (hended : record.isTerminal = true) : w'.stores.Keeps b id (some record) ∧ d.Repeats id record := by
  obtain ⟨hrequest, rfl, hworker⟩ := hreceives
  rw [Handover.carryOut_eq hrequest] at hpasses
  obtain ⟨look, rest, w₁, hlook, hcalls, hkeeps, hrest⟩ := passes_look hpasses hworker h
  rw [show (some record).filter JobRecord.isTerminal = some record by simp [Option.filter, hended]] at hrest
  obtain ⟨rfl, houtcome, rfl⟩ := hrest.of_pure
  exact ⟨hkeeps, by rw [hlook, List.append_nil, hcalls], houtcome⟩

/-- By induction on the deliveries: none of them changes the record of a job that has ended. -/
theorem delivers_again {ds : List Delivery} {record : JobRecord} (hdelivers : r.Delivers id w ds w')
    (hreceives : ∀ d ∈ ds, ∃ q k, r.Receives id d.handover q k) (h : w.stores.Keeps b id (some record))
    (hended : record.isTerminal = true) :
    w'.stores.Keeps b id (some record) ∧ ∀ d ∈ ds, d.Repeats id record := by
  induction hdelivers with
  | nil others => exact ⟨h.sameJob others, fun d hd => absurd hd List.not_mem_nil⟩
  | @cons w w₁ w' d ds first _ ih =>
    obtain ⟨q, k, hfirst⟩ := hreceives d List.mem_cons_self
    obtain ⟨hkeeps, hrepeats⟩ := passes_again first hfirst h hended
    obtain ⟨hkeeps', hrest⟩ := ih (fun d hd => hreceives d (.tail _ hd)) hkeeps
    exact ⟨hkeeps', List.forall_mem_cons.mpr ⟨hrepeats, hrest⟩⟩

end Runtime

/-! ## The result -/

section

variable {r : Runtime} {k : Worker} {q : Runtime.JobRequest} {b : Backend} {id : String} {found : Option JobRecord}
  {first : Delivery} {later : List Delivery} {w w' : World}

/-- **A job is carried out once.** Take any runtime, and any worker that it knows, with any schemas for its input
    and output and any handler that leaves it to the runtime how the job ends. Deliver a job to it any number of
    times, by call or by message, while others do what they like but do not touch the record of the job. When the
    job was unknown, or queued without an output, the first delivery carries it out, and every other one looks
    at the record and returns the output that is stored. The replies to the report do not matter. -/
theorem job_carried_out_once (hjob : w.stores.Keeps b id found)
    (hnew : ∀ e ∈ found, e.status = .queued ∧ e.output = .null) (hfirst : r.Receives id first.handover q k)
    (hrequest : q.Proper) (hleaves : ∀ input, (k.handler input (r.contextOf k q)).LeavesJob id)
    (hjson : ∀ v after, r.Runs k q first.deeds (.ok v) after → v.isData = true)
    (hlater : ∀ d ∈ later, ∃ q k, r.Receives id d.handover q k) (hdelivers : r.Delivers id w (first :: later) w') :
    ∃ u record, r.Delivers id w [first] u ∧ r.Delivers id u later w'
      ∧ u.stores.jobs.get id = .ok (some record) ∧ w'.stores.jobs.get id = .ok (some record)
      ∧ r.CarriesOut k q first record ∧ ∀ d ∈ later, d.Repeats id record := by
  cases hdelivers with
  | @cons _ u _ _ _ hpasses hrest =>
    obtain ⟨record, hkeeps, hcarries⟩ :=
      Runtime.passes_first hpasses hfirst hrequest hleaves hjson hjob hnew
    obtain ⟨hkeeps', hrepeats⟩ := Runtime.delivers_again hrest hlater hkeeps hcarries.shows.isTerminal
    exact ⟨u, record, .cons hpasses (.nil (.refl id u)), hrest, hkeeps.get, hkeeps'.get, hcarries, hrepeats⟩

end

/-- A worker that makes a picture smaller, and has another worker tell of it. -/
def resizer : Worker :=
  { id := "resize"
    handler := fun input c => do
      c.progress (.int 50) (.text "half of it")
      let told ← c.dispatchWorker "tell" input none false {}
      return .object [("told", .ofText? told.id)]
    inputModel := none
    outputModel := none }

/-- A runtime that knows this worker. -/
def studio : Runtime := ⟨[resizer], {}⟩

/-- The message of a job for it. -/
def thumbnailMessage : Value :=
  .object [("workerId", .text "resize"), ("jobId", .text "thumbnail"), ("input", .text "cat.png"),
    ("webhookUrl", .text "https://example.com/done")]

/-- The request that the message stands for. -/
def thumbnailRequest : Runtime.JobRequest :=
  { workerId := .text "resize", jobId := "thumbnail", input := .text "cat.png",
    webhookUrl := .text "https://example.com/done" }

/-- The world in which the message arrives: a remote side that answers every request with success. -/
def studioWorld : World :=
  { stores := .empty .sqlite
    remote := { replies := [(Remote.shared, [{ response := .ok (.ofJson 200 (.object [])) }])] } }

/-- What comes of the message when nobody else is there. -/
def madeThumbnail : Except Fault Value × World :=
  ((Handover.message thumbnailMessage).carryOut studio).outcome.runAlone studioWorld

/-- A message and a call for one picture: the picture is made once. -/
theorem thumbnail_carried_out_once :
    ∃ first again w' u record, first.handover = .message thumbnailMessage ∧ first.outcome.toOption.isSome = true
      ∧ again.handover = .call thumbnailRequest ∧ studio.Delivers "thumbnail" studioWorld [first, again] w'
      ∧ studio.Delivers "thumbnail" studioWorld [first] u ∧ studio.Delivers "thumbnail" u [again] w'
      ∧ u.stores.jobs.get "thumbnail" = .ok (some record) ∧ w'.stores.jobs.get "thumbnail" = .ok (some record)
      ∧ studio.CarriesOut resizer thumbnailRequest first record ∧ again.Repeats "thumbnail" record := by
  have hid (n : Nat) : "job-" ++ Dispatch.hexId n ≠ "thumbnail" := by
    intro h
    have := congrArg String.toList h
    simp [String.toList_append] at this
  -- both deliveries meet nobody else
  obtain ⟨ds, hfirst⟩ := Program.passes_runAlone ((Handover.message thumbnailMessage).carryOut studio).outcome
    studioWorld hid (by decide +kernel)
  obtain ⟨es, hagain⟩ := Program.passes_runAlone ((Handover.call thumbnailRequest).carryOut studio).outcome
    madeThumbnail.2 hid (by decide +kernel)
  have hleaves (input : Value) :
      (resizer.handler input (studio.contextOf resizer thumbnailRequest)).LeavesJob "thumbnail" :=
    Action.leavesJob_bind (JobContext.leaves_progress ..) fun _ =>
      Action.leavesJob_bind (JobContext.leaves_dispatchWorker _ _ _ _ _ (by simp)) fun _ => trivial
  have hjson (v : Value) (after : List Deed) (h : studio.Runs resizer thumbnailRequest ds (.ok v) after) :
      v.isData = true := by
    obtain ⟨_, during, -, -, hhandles⟩ := h
    cases hhandles with
    | ran _ hran =>
      rcases Action.Passes.of_bind hran with ⟨_, _, _, _, -, -, hrest⟩ | ⟨f, h, -⟩
      · rcases Action.Passes.of_bind hrest with ⟨told, _, _, _, -, -, hend⟩ | ⟨f, h, -⟩
        · obtain ⟨-, hv, -⟩ := hend.of_pure
          obtain rfl := Except.ok.inj hv
          simp [Value.isData, Value.allFieldsData, Value.isData_ofText?]
        · exact absurd h (by simp)
      · exact absurd h (by simp)
  have hreceives : studio.Receives "thumbnail" (.message thumbnailMessage) thumbnailRequest resizer :=
    ⟨rfl, rfl, rfl⟩
  have hrequest : thumbnailRequest.Proper := ⟨rfl, rfl, by simp [thumbnailRequest, Value.truthy]⟩
  have hdelivers := Runtime.Delivers.cons (d := ⟨_, ds, _⟩) hfirst
    (.cons (d := ⟨_, es, _⟩) hagain (.nil (.refl "thumbnail" _)))
  have hlater (o : Except Fault Value) :
      ∀ d ∈ [Delivery.mk (.call thumbnailRequest) es o], ∃ q k, studio.Receives "thumbnail" d.handover q k := by
    intro d hd
    obtain rfl := List.mem_singleton.mp hd
    exact ⟨thumbnailRequest, resizer, rfl, rfl, rfl⟩
  obtain ⟨u, record, hu, hw', hget, hget', hcarries, hrepeats⟩ :=
    job_carried_out_once (Stores.Keeps.empty .sqlite "thumbnail") (by simp) hreceives hrequest hleaves hjson
      (hlater _) hdelivers
  refine ⟨_, _, _, u, record, rfl, ?_, rfl, hdelivers, hu, hw', hget, hget', hcarries, hrepeats _ List.mem_cons_self⟩
  show madeThumbnail.1.toOption.isSome = true
  decide +kernel

end Runbook
