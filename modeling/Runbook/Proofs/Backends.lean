import Runbook.Proofs.PlainRecords
import Runbook.Proofs.QueueRecords

/-!
# `Proofs.Backends` — stores that keep documents answer as a store in memory does

A store in memory holds its records as they are; the others hold documents, out of which a record is read
again for every operation. As long as the records are plain data, nobody can tell: carried out by any
backend, operations on single records answer the same.

The one exception is the end of a queue. What is set of a queue from outside is not checked: a status that
queues do not have is answered by a store in memory, while its document cannot be read any more.

## Contents
- **Records.** `Faithful`, kinds of records whose documents are read again; `Alike`, stores that hold the
  same records.
- **Stores.** What each operation on runs, jobs and queues answers in stores that are alike; the exception,
  `QueueStore.get_of_unknown_status`.
- **Operations.** `StoreOp.IsKeyed`; one step, `Stores.Alike.carryOut`, and `backends_agree`.
-/

namespace Runbook

/-! ## Records -/

section

variable {ρ : Type} [Recorded ρ] {Plain : ρ → Prop} {settled : ρ → ρ} {b : Backend}

/-- **Kinds of records whose documents are read again**: the plain ones are data, and are read as
    settled ones. -/
structure Faithful (Plain : ρ → Prop) (settled : ρ → ρ) : Prop where
  isData : ∀ r, Plain r → (Recorded.toValue r).isData = true
  read : ∀ r, Plain r → Recorded.ofValue (Recorded.toValue r) = .ok (settled r)

theorem Faithful.hold_eq (h : Faithful Plain settled) (hb : b ≠ .memory) {r : ρ} (hr : Plain r) :
    hold b r = .ok (.document (Recorded.toValue r)) := by
  have hencode : encode r = .ok (Recorded.toValue r) := by
    rw [encode, Value.unwritable?_of_isData (h.isData r hr), Value.storable_of_isData (h.isData r hr)]
  cases b with
  | memory => exact absurd rfl hb
  | _ => exact congrArg (Held.document <$> ·) hencode

/-- **Stores that hold the same records**: one as they are, the other as documents. -/
def Alike (Plain : ρ → Prop) (settled : ρ → ρ) (live kept : Keyed (Held ρ)) : Prop :=
  ∀ id, ∃ found, live.readHeld id = .ok found ∧ (∀ r ∈ found, Plain r)
    ∧ kept.readHeld id = .ok (found.map settled)

/-- What is found of a record in both. -/
def Found (Plain : ρ → Prop) (settled : ρ → ρ) (found found' : Option ρ) : Prop :=
  (∀ r ∈ found, Plain r) ∧ found' = found.map settled

variable {live kept : Keyed (Held ρ)}

theorem Alike.find (h : Alike Plain settled live kept) (id : String) :
    Fault.Agree (Found Plain settled) (live.readHeld id) (kept.readHeld id) := by
  obtain ⟨found, hlive, hplain, hkept⟩ := h id
  rw [hlive, hkept]
  exact .ok ⟨hplain, rfl⟩

theorem alike_nil : Alike Plain settled ([] : Keyed (Held ρ)) [] := fun _ => ⟨none, rfl, nofun, rfl⟩

/-- **A record that both keep.** -/
theorem Alike.put (h : Alike Plain settled live kept) (hfaithful : Faithful Plain settled) {r r' : ρ}
    (hr : Plain r) (hr' : Plain r') (hsame : settled r' = settled r) (id : String) :
    Alike Plain settled (live.put id (.live r)) (kept.put id (.document (Recorded.toValue r'))) := by
  intro other
  by_cases hother : other = id
  · subst hother
    refine ⟨some r, by rw [Keyed.readHeld_put_self]; rfl, fun _ heq => Option.some.inj heq ▸ hr, ?_⟩
    rw [Keyed.readHeld_put_self]
    show some <$> decode (Recorded.toValue r') = _
    rw [decode, hfaithful.read r' hr', hsame]
    rfl
  · rw [Keyed.readHeld_put_of_ne _ _ hother, Keyed.readHeld_put_of_ne _ _ hother]
    exact h other

end

theorem RunRecord.faithful : Faithful RunRecord.Plain id :=
  ⟨fun _ h => h.toValue_isData, fun _ h => ofValue_toValue h.toProper⟩

theorem JobRecord.faithful : Faithful JobRecord.Plain id :=
  ⟨fun _ h => h.toValue_isData, fun _ h => ofValue_toValue h.toProper⟩

theorem QueueRecord.faithful : Faithful QueueRecord.Plain QueueRecord.dated :=
  ⟨fun _ h => h.toValue_isData, fun _ h => ofValue_toValue h.toProper⟩

/-! ## Stores -/

/-! ### Runs -/

namespace RunStore

/-- **Stores that hold the same runs.** -/
structure Alike (s t : RunStore) : Prop where
  live : s.backend = .memory
  kept : t.backend ≠ .memory
  records : Runbook.Alike RunRecord.Plain id s.records t.records

variable {s t : RunStore} {updates : Keyed Value} {now : Stamp}

theorem Alike.keep (h : s.Alike t) {r : RunRecord} (hr : r.Plain) :
    Fault.Agree Alike (s.keep r) (t.keep r) := by
  unfold RunStore.keep
  rw [h.live, RunRecord.faithful.hold_eq h.kept hr]
  exact .ok ⟨rfl, h.kept, h.records.put RunRecord.faithful hr hr rfl _⟩

theorem Alike.set (h : s.Alike t) (id : String) (hupdates : Value.allFieldsData updates = true)
    (hnow : now.Proper) :
    Fault.Agree (fun x y => y.1 = x.1 ∧ x.2.Alike y.2) (s.set id updates now) (t.set id updates now) := by
  refine (h.records.find id).bind ?_
  rintro found _ ⟨hplain, rfl⟩
  rw [Option.map_id]
  refine Fault.Agree.bind (R := fun r r' => r' = r ∧ r.Plain) ?_ ?_
  · exact .self fun r hr => ⟨rfl, RunRecord.plain_of_update hplain hupdates hnow hr⟩
  · rintro r _ ⟨rfl, hr⟩
    exact (h.keep hr).bind fun s' t' h' => .ok ⟨rfl, h'⟩

end RunStore

/-! ### Jobs -/

namespace JobStore

/-- **Stores that hold the same jobs.** -/
structure Alike (s t : JobStore) : Prop where
  live : s.backend = .memory
  kept : t.backend ≠ .memory
  records : Runbook.Alike JobRecord.Plain id s.records t.records

variable {s t : JobStore} {updates : Keyed Value} {now : Stamp}

theorem Alike.keep (h : s.Alike t) {r : JobRecord} (hr : r.Plain) :
    Fault.Agree Alike (s.keep r) (t.keep r) := by
  unfold JobStore.keep
  rw [h.live, JobRecord.faithful.hold_eq h.kept hr]
  exact .ok ⟨rfl, h.kept, h.records.put JobRecord.faithful hr hr rfl _⟩

theorem Alike.note (h : s.Alike t) (r : JobRecord) : (s.note r).Alike (t.note r) :=
  ⟨h.live, h.kept, h.records⟩

/-- An update that is laid over what was found, and kept. -/
theorem Alike.revise (h : s.Alike t) {found : Option JobRecord} (hplain : ∀ r ∈ found, r.Plain) (id : String)
    (hupdates : Value.allFieldsData updates = true) (hnow : now.Proper) :
    Fault.Agree (fun x y => y.1 = x.1 ∧ x.2.Alike y.2)
      (do let r ← JobRecord.update found id updates now; return (r, (← s.keep r).note r))
      (do let r ← JobRecord.update found id updates now; return (r, (← t.keep r).note r)) := by
  refine Fault.Agree.bind (R := fun r r' => r' = r ∧ r.Plain) ?_ ?_
  · exact .self fun r hr => ⟨rfl, JobRecord.plain_of_update hplain hupdates hnow hr⟩
  · rintro r _ ⟨rfl, hr⟩
    exact (h.keep hr).bind fun s' t' h' => .ok ⟨rfl, h'.note _⟩

theorem Alike.set (h : s.Alike t) (id : String) (hupdates : Value.allFieldsData updates = true)
    (hnow : now.Proper) :
    Fault.Agree (fun x y => y.1 = x.1 ∧ x.2.Alike y.2) (s.set id updates now) (t.set id updates now) := by
  refine (h.records.find id).bind ?_
  rintro found _ ⟨hplain, rfl⟩
  rw [Option.map_id]
  exact h.revise hplain id hupdates hnow

theorem Alike.update (h : s.Alike t) (id : String) (hupdates : Value.allFieldsData updates = true)
    (hnow : now.Proper) :
    Fault.Agree (fun x y => y.1 = x.1 ∧ x.2.Alike y.2) (s.update id updates now)
      (t.update id updates now) := by
  refine (h.records.find id).bind ?_
  rintro found _ ⟨hplain, rfl⟩
  rw [Option.map_id]
  cases found with
  | none => exact .error _
  | some existing => exact h.revise hplain id hupdates hnow

theorem Alike.addInternal (h : s.Alike t) (id : String) (child : InternalJob) (hnow : now.Proper) :
    Fault.Agree Alike (s.addInternal id child now) (t.addInternal id child now) := by
  refine (h.records.find id).bind ?_
  rintro found _ ⟨hplain, rfl⟩
  rw [Option.map_id]
  cases found with
  | none => exact .error _
  | some parent => exact h.keep ((hplain parent rfl).addInternal child hnow)

end JobStore

/-! ### Queues -/

namespace QueueStore

/-- **Stores that hold the same queues.** -/
structure Alike (s t : QueueStore) : Prop where
  live : s.backend = .memory
  kept : t.backend ≠ .memory
  records : Runbook.Alike QueueRecord.Plain QueueRecord.dated s.records t.records

variable {s t : QueueStore} {r r' : QueueRecord} {updates : Keyed Value} {now : Stamp}

theorem Alike.keep (h : s.Alike t) (hr : r.Twin r') : Fault.Agree Alike (s.keep r) (t.keep r') := by
  have hid : r'.id = r.id := by
    obtain ⟨finish, rfl, -⟩ := hr.eq_with
    rfl
  unfold QueueStore.keep
  rw [h.live, QueueRecord.faithful.hold_eq h.kept hr.right, hid]
  exact .ok ⟨rfl, h.kept, h.records.put QueueRecord.faithful hr.left hr.right hr.same _⟩

theorem Alike.note (h : s.Alike t) (r r' : QueueRecord) : (s.note r).Alike (t.note r') :=
  ⟨h.live, h.kept, h.records⟩

theorem Alike.require (h : s.Alike t) (id : String) :
    Fault.Agree QueueRecord.Twin (s.require id) (t.require id) := by
  refine (h.records.find id).bind ?_
  rintro found _ ⟨hplain, rfl⟩
  cases found with
  | none => exact .error _
  | some r => exact .ok (hplain r rfl).twin_dated

/-- What is answered and left when a record is kept. -/
abbrev Outcomes (x y : QueueRecord × QueueStore) : Prop := x.1.Twin y.1 ∧ x.2.Alike y.2

theorem Alike.create (h : s.Alike t) (hr : r.Plain) :
    Fault.Agree Outcomes (s.create r) (t.create r) := by
  -- what is replaced could be read in both
  obtain ⟨found, hlive, -, hkept⟩ := h.records r.id
  have hreplaced : s.readReplaced r.id = .ok () := readReplaced_eq_ok.mpr fun _ => ⟨found, hlive⟩
  have hreplaced' : t.readReplaced r.id = .ok () := readReplaced_eq_ok.mpr fun _ => ⟨_, hkept⟩
  unfold QueueStore.create
  rw [hreplaced, hreplaced']
  exact (h.keep ⟨hr, hr, rfl⟩).bind fun _ _ h' => .ok ⟨⟨hr, hr, rfl⟩, h'.note r r⟩

theorem Alike.appendStep (h : s.Alike t) (id workerId workerJobId : String) (hnow : now.Proper) :
    Fault.Agree Outcomes (s.appendStep id workerId workerJobId now)
      (t.appendStep id workerId workerJobId now) := by
  refine (h.require id).bind fun r r' hr => ?_
  have hstep := hr.appendStep workerId workerJobId hnow
  exact (h.keep hstep).bind fun _ _ h' => .ok ⟨hstep, h'⟩

theorem Alike.updateStep (h : s.Alike t) (id : String) (index : Value)
    (hupdates : Value.allFieldsData updates = true) (hnow : now.Proper) :
    Fault.Agree Outcomes (s.updateStep id index updates now) (t.updateStep id index updates now) := by
  refine (h.require id).bind fun r r' hr => ?_
  refine (hr.updateStep index hupdates hnow).bind fun q q' hq => ?_
  exact (h.keep hq).bind fun _ _ h' => .ok ⟨hq, h'⟩

/-- **What is set of a queue from outside** is answered the same, and leaves the same. -/
theorem Alike.override (h : s.Alike t) (id : String) {status : Value}
    (hset : QueueRecord.Settable status updates) (hupdates : Value.allFieldsData updates = true)
    (hnow : now.Proper) :
    Fault.Agree QueueRecord.Twin (s.override id status updates now).1 (t.override id status updates now).1
      ∧ (s.override id status updates now).2.Alike (t.override id status updates now).2 := by
  have hrequire := h.require id
  unfold QueueStore.override
  generalize s.require id = x at hrequire ⊢
  generalize t.require id = y at hrequire ⊢
  cases hrequire with
  | error f => exact ⟨.error f, h⟩
  | @ok r r' hr =>
    obtain ⟨q, q', hq, hq', htwin⟩ := hr.override hnow hset hupdates
    dsimp only
    rw [hq, hq']
    have hkeep := h.keep htwin
    dsimp only
    generalize s.keep q = x at hkeep ⊢
    generalize t.keep q' = y at hkeep ⊢
    cases hkeep with
    | error f => exact ⟨.error f, h⟩
    | ok h' => exact ⟨.ok htwin, h'⟩

end QueueStore

/-! ### Statuses that queues do not have -/

theorem QueueStatus.ofValue_of_unknown {v : Value} (h : ∀ word ∈ words, v ≠ .text word) :
    ofValue v = .other v := by
  unfold ofValue
  split <;> first | exact absurd rfl (h _ (by decide)) | rfl

/-- A status that queues do not have is not read from a document. -/
theorem QueueStatus.read_keeps (b : Backend) {v : Value} (h : ∀ word ∈ words, v ≠ .text word)
    (s : QueueStatus) : read (b.keeps v) ≠ .ok s := by
  have hother (u : Value) (hu : ∀ word ∈ words, u ≠ .text word) : read u ≠ .ok s := by
    rw [read, ofValue_of_unknown hu]
    exact nofun
  unfold Backend.keeps
  split
  · exact hother v h
  · refine hother _ fun word hword heq => h word hword ?_
    cases v with
    | real x =>
      rw [Value.storable] at heq
      split at heq <;> exact absurd heq nofun
    | list | object => exact absurd heq nofun
    | _ => exact heq

theorem QueueRecord.status_of_override {q r : QueueRecord} {status : Value} {updates : Keyed Value}
    {now : Stamp} (hnull : status ≠ .null) (h : q.override status updates now = (r, none)) :
    r.status = QueueStatus.ofValue status := by
  have hset : (q.withStatus status now).status = QueueStatus.ofValue status := by
    have hisNull : status.isNull = false := by
      cases status <;> first | exact absurd rfl hnull | rfl
    rw [withStatus, hisNull]
    rfl
  obtain ⟨metadata, -, rfl⟩ := QueueRecord.override_eq_none.mp h
  unfold withFinish
  cases Update.newValue? updates "completed_at" <;> exact hset

/-- **A status set from outside that queues do not have** is read again from memory, while no other store
    can read the queue any more. -/
theorem QueueStore.get_of_unknown_status {s s' : QueueStore} {id : String} {status : Value}
    {updates : Keyed Value} {now : Stamp} {r : QueueRecord} (hnull : status ≠ .null)
    (hstatus : ∀ word ∈ QueueStatus.words, status ≠ .text word)
    (h : s.override id status updates now = (.ok r, s')) :
    (s.backend = .memory → s'.get r.id = .ok (some r))
      ∧ (s.backend ≠ .memory → ∃ f, s'.get r.id = .error f) := by
  obtain ⟨q, -, hoverride, hkeep⟩ := of_override_eq_ok h
  obtain ⟨held, hheld, -, hget⟩ := keep_eq_ok hkeep
  have hrstatus : r.status = .other status :=
    (QueueRecord.status_of_override hnull hoverride).trans (QueueStatus.ofValue_of_unknown hstatus)
  refine ⟨fun hb => ?_, fun hb => ?_⟩
  · rw [hb] at hheld
    obtain rfl := Except.ok.inj hheld
    exact hget
  · rw [hget, hold_eq_document hb hheld]
    cases hread : (Held.document (s.backend.keeps (Recorded.toValue r)) : Held QueueRecord).read with
    | error f => exact ⟨f, rfl⟩
    | ok q =>
      have hread : QueueRecord.ofValue (s.backend.keeps r.toValue) = .ok q := Fault.ofChecked_eq_ok.mp hread
      rw [QueueRecord.toValue, Backend.keeps_object] at hread
      obtain ⟨-, -, hunread, -⟩ := QueueRecord.ofValue_eq_ok.mp hread
      simp only [Backend.keepsFields_cons, Decode.required, Decode.FieldName.find?, Decode.FieldName.plain,
        Keyed.get?, hrstatus, QueueStatus.toValue] at hunread
      exact absurd (Checked.under_eq_ok.mp hunread) (QueueStatus.read_keeps _ hstatus _)
/-! ## Operations -/

/-- **An operation on one record, with plain data.** What is set of a queue from outside is what can be
    set. -/
def StoreOp.IsKeyed : StoreOp → Prop
  | .setRun _ updates | .setJob _ updates | .updateJob _ updates | .updateStep _ _ updates =>
    Value.allFieldsData updates = true
  | .createQueue _ _ _ _ metadata _ => metadata.isData = true
  | .updateQueue _ status updates =>
    Value.allFieldsData updates = true ∧ QueueRecord.Settable status updates
  | .addInternalJob .. | .appendStep .. | .getRun _ | .getJob _ | .getQueue _ => True
  | .runOfExecution _ | .listRuns _ | .listJobs _ | .listQueues .. => False

namespace Stores

/-- **Stores that hold the same records.** -/
structure Alike (s t : Stores) : Prop where
  runs : s.runs.Alike t.runs
  jobs : s.jobs.Alike t.jobs
  queues : s.queues.Alike t.queues
  isOpen : s.isOpen = true ∧ t.isOpen = true
  outage : s.outage = .never ∧ t.outage = .never

/-- Answers that are written the same. -/
theorem map_toValue_eq {x y : Except Fault StoreAnswer}
    (h : Fault.Agree (fun a b : StoreAnswer => b.toValue = a.toValue) x y) :
    y.map StoreAnswer.toValue = x.map StoreAnswer.toValue := by
  cases h with
  | ok h => exact congrArg Except.ok h
  | error f => rfl

/-- **Outcomes that nobody can tell apart**: the same fault, or answers that are written the same. -/
structure SameOutcome (x y : Outcome) : Prop where
  answer : Fault.Agree (fun a b : StoreAnswer => b.toValue = a.toValue) x.1 y.1
  stores : x.2.Alike y.2

variable {s t : Stores} {now : Stamp}

theorem alike_empty {b : Backend} (hb : b ≠ .memory) : (empty .memory).Alike (empty b) where
  runs := ⟨rfl, hb, alike_nil⟩
  jobs := ⟨rfl, hb, alike_nil⟩
  queues := ⟨rfl, hb, alike_nil⟩
  isOpen := ⟨rfl, rfl⟩
  outage := ⟨rfl, rfl⟩

theorem Alike.reading (h : s.Alike t) {x y : Except Fault StoreAnswer}
    (hanswer : Fault.Agree (fun a b : StoreAnswer => b.toValue = a.toValue) x y) :
    SameOutcome (s.reading x) (t.reading y) := ⟨hanswer, h⟩

theorem Alike.writing {α : Type} (h : s.Alike t) {x y : Except Fault (α × Stores)} {answer : α → StoreAnswer}
    (hresult : Fault.Agree (fun p q : α × Stores =>
      (answer q.1).toValue = (answer p.1).toValue ∧ p.2.Alike q.2) x y) :
    SameOutcome (s.writing x answer) (t.writing y answer) := by
  cases hresult with
  | ok hresult => exact ⟨.ok hresult.1, hresult.2⟩
  | error f => exact ⟨.error f, h⟩

/-- **An operation on one record** has the same outcome in stores that hold the same records. -/
theorem Alike.performOpen (h : s.Alike t) (hnow : now.Proper) {op : StoreOp} (hop : op.IsKeyed) :
    SameOutcome (s.performOpen now op) (t.performOpen now op) := by
  cases op with
  | setRun id updates =>
    refine h.writing ?_
    unfold setRun
    rw [h.outage.1, h.outage.2]
    refine (h.runs.set id hop hnow).bind ?_
    rintro ⟨r, runs⟩ ⟨_, runs'⟩ ⟨rfl, hruns⟩
    exact .ok ⟨rfl, { h with runs := hruns, outage := ⟨rfl, rfl⟩ }⟩
  | setJob id updates =>
    refine h.writing ((h.jobs.set id hop hnow).map ?_)
    rintro ⟨r, jobs⟩ ⟨_, jobs'⟩ ⟨rfl, hjobs⟩
    exact ⟨rfl, { h with jobs := hjobs }⟩
  | updateJob id updates =>
    refine h.writing ((h.jobs.update id hop hnow).map ?_)
    rintro ⟨r, jobs⟩ ⟨_, jobs'⟩ ⟨rfl, hjobs⟩
    exact ⟨rfl, { h with jobs := hjobs }⟩
  | addInternalJob id child =>
    exact h.writing ((h.jobs.addInternal id child hnow).map fun _ _ hjobs => ⟨rfl, { h with jobs := hjobs }⟩)
  | createQueue id queueId workerId workerJobId metadata totalSteps =>
    refine h.writing (Fault.Agree.bind (R := fun r r' => r' = r ∧ r.Plain) ?_ ?_)
    · exact .self fun r hr => ⟨rfl, QueueRecord.plain_of_create hop hnow hr⟩
    · rintro r _ ⟨rfl, hr⟩
      exact (h.queues.create hr).bind fun _ _ hq => .ok ⟨hq.1.toValue_eq, { h with queues := hq.2 }⟩
  | appendStep id workerId workerJobId =>
    exact h.writing ((h.queues.appendStep id workerId workerJobId hnow).map
      fun _ _ hq => ⟨hq.1.toValue_eq, { h with queues := hq.2 }⟩)
  | updateStep id index updates =>
    exact h.writing ((h.queues.updateStep id index hop hnow).map
      fun _ _ hq => ⟨hq.1.toValue_eq, { h with queues := hq.2 }⟩)
  | updateQueue id status updates =>
    obtain ⟨hanswer, hqueues⟩ := h.queues.override id hop.2 hop.1 hnow
    exact ⟨hanswer.map fun _ _ hq => hq.toValue_eq, { h with queues := hqueues }⟩
  | getRun id =>
    refine h.reading ((h.runs.records.find id).map ?_)
    rintro found _ ⟨-, rfl⟩
    rw [Option.map_id]
    rfl
  | getJob id =>
    refine h.reading ((h.jobs.records.find id).map ?_)
    rintro found _ ⟨-, rfl⟩
    rw [Option.map_id]
    rfl
  | getQueue id =>
    refine h.reading ((h.queues.records.find id).map ?_)
    -- the records differ in how a time of completion is held, which is written the same
    rintro found _ ⟨hplain, rfl⟩
    cases found with
    | none => rfl
    | some r => exact (hplain r rfl).toValue_dated
  | runOfExecution | listRuns | listJobs | listQueues => exact hop.elim

theorem Alike.carryOut (h : s.Alike t) {c : TimedOp} (hclock : c.clock < Stamp.lastMicro)
    (hop : c.op.IsKeyed) : SameOutcome (s.carryOut c) (t.carryOut c) := by
  unfold Stores.carryOut perform
  rw [if_pos h.isOpen.1, if_pos h.isOpen.2]
  exact h.performOpen (Stamp.proper_ofMicros hclock) hop

/-- **Operations in order** are answered the same. -/
theorem Alike.answers (h : s.Alike t) {cs : List TimedOp} (hclock : ∀ c ∈ cs, c.clock < Stamp.lastMicro)
    (hkeyed : ∀ c ∈ cs, c.op.IsKeyed) : (t.answers cs).map (Except.map StoreAnswer.toValue)
      = (s.answers cs).map (Except.map StoreAnswer.toValue) := by
  induction cs generalizing s t with
  | nil => rfl
  | cons c rest ih =>
    obtain ⟨hanswer, hstores⟩ := h.carryOut (hclock c List.mem_cons_self) (hkeyed c List.mem_cons_self)
    rw [Stores.answers, Stores.answers, List.map_cons, List.map_cons, map_toValue_eq hanswer,
      ih hstores (fun d hd => hclock d (.tail _ hd)) fun d hd => hkeyed d (.tail _ hd)]

end Stores

/-- **All backends answer the same.** Operations on single records, in any order and with plain data, are
    answered by every backend as by a store in memory: the same records and the same faults. -/
theorem backends_agree (b : Backend) {cs : List TimedOp} (hclock : ∀ c ∈ cs, c.clock < Stamp.lastMicro)
    (hkeyed : ∀ c ∈ cs, c.op.IsKeyed) :
    ((Stores.empty b).answers cs).map (Except.map StoreAnswer.toValue)
      = ((Stores.empty .memory).answers cs).map (Except.map StoreAnswer.toValue) := by
  by_cases hb : b = .memory
  · rw [hb]
  · exact (Stores.alike_empty hb).answers hclock hkeyed

/-- Operations on a run, a job and a queue, some of which fail. -/
def dayOfStores : List TimedOp :=
  [⟨0, .setRun "run" [("status", .text "running"), ("metadata", .object [("attempt", .int 1)])]⟩,
    ⟨1, .updateJob "job" [("status", .text "running")]⟩,
    ⟨2, .setJob "job" [("worker_id", .text "resize"), ("status", .text "lost")]⟩,
    ⟨3, .setJob "job" [("worker_id", .text "resize"), ("status", .text "completed")]⟩,
    ⟨4, .createQueue "queue" "images" "resize" "job" .null (.int 2)⟩,
    ⟨5, .updateStep "queue" (.int 0) [("status", .text "completed"), ("output", .text "small")]⟩,
    ⟨6, .updateQueue "queue" (.text "partial") [("metadata", .object [("reason", .text "manual")])]⟩,
    ⟨7, .appendStep "queue" "upload" "job-2"⟩,
    ⟨8, .getRun "run"⟩, ⟨9, .getJob "job"⟩, ⟨10, .getQueue "queue"⟩]

theorem dayOfStores_agrees : (∀ c ∈ dayOfStores, c.clock < Stamp.lastMicro)
    ∧ (∀ c ∈ dayOfStores, c.op.IsKeyed)
    ∧ ((Stores.empty .sqlite).answers dayOfStores).map (Except.map StoreAnswer.toValue)
      = ((Stores.empty .memory).answers dayOfStores).map (Except.map StoreAnswer.toValue) := by
  have hclock : ∀ c ∈ dayOfStores, c.clock < Stamp.lastMicro := by decide
  have hpartial : QueueRecord.Settable (.text "partial")
      [("metadata", .object [("reason", .text "manual")])] :=
    ⟨.inr ⟨"partial", by decide, rfl⟩, .inr ⟨_, rfl⟩, nofun⟩
  have hkeyed : ∀ c ∈ dayOfStores, c.op.IsKeyed := by
    simp [dayOfStores, StoreOp.IsKeyed, Value.allFieldsData, Value.isData, hpartial]
  exact ⟨hclock, hkeyed, backends_agree .sqlite hclock hkeyed⟩

end Runbook
