import Runbook.Proofs.Documents
import Runbook.Proofs.Footprint

/-!
# `Proofs.JobHistory` — what becomes of the record of a job

Whatever is done to the stores, the record of a job is always read as the last write left it, and each
write makes it out of what was read before. Once a job has ended, only its metadata still change, and of
these only what an update names.

## Contents
- **Operations in order.** `TimedOp`, `Stores.after` and `Stores.answers`.
- **Updates.** What `JobRecord.update` makes of a record: `update_eq_ok`, and `update_of_terminal` for jobs
  that have ended.
- **Filed records.** `JobRecord.Filed`, what is known of every record that is read; `JobStore.Wrote`, one
  write, and `JobStore.Sound`.
- **Steps.** `JobStore.Answers`, what an operation does to the jobs and answers; `JobStore.Change`, all that
  it can do, with `Sound.change` and `Sound.ended_change`.
- **Histories.** `Stores.patches`, what operations lay over metadata, and `ended_job_frozen`.
-/

namespace Runbook

/-! ## Operations in order -/

/-- An operation on the stores, and the reading of the clock when it is carried out. -/
structure TimedOp where
  clock : Clock
  op : StoreOp

namespace Stores

/-- What an operation answers and leaves behind. -/
def carryOut (s : Stores) (c : TimedOp) : Outcome := s.perform (.ofMicros c.clock) c.op

theorem carryOut_of_open {s : Stores} (h : s.isOpen = true) (c : TimedOp) :
    s.carryOut c = s.performOpen (.ofMicros c.clock) c.op := if_pos h

/-- The stores after operations in order. -/
def after (s : Stores) (cs : List TimedOp) : Stores := cs.foldl (fun s c => (s.carryOut c).2) s

/-- What operations in order answer. -/
def answers (s : Stores) : List TimedOp → List (Except Fault StoreAnswer)
  | [] => []
  | c :: cs => (s.carryOut c).1 :: answers (s.carryOut c).2 cs

theorem after_append (s : Stores) (cs ds : List TimedOp) : s.after (cs ++ ds) = (s.after cs).after ds :=
  List.foldl_append ..

end Stores

/-! ## Updates -/

/-- A field after an update is what it was, or was read from the update. -/
theorem Update.field_cases {α : Type} {updates : Keyed Value} {key : String} {old a : α}
    {read : Value → Checked α} (h : field updates key old read = .ok a) : a = old ∨ ∃ v, read v = .ok a := by
  unfold field at h
  split at h
  · next v _ => exact .inr ⟨v, Checked.under_eq_ok.mp h⟩
  · exact .inl (Checked.ok.inj h).symm

/-- What is overlaid on metadata is a mapping, or nothing. -/
theorem Update.overlay_eq_ok {m m' : Keyed Value} {v : Value} (h : overlay m v = .ok m') :
    m' = m.putAll (v.fields?.getD []) := by
  unfold overlay at h
  cases v with
  | object fields =>
    cases fields with
    | nil => exact (Except.ok.inj h).symm
    | cons entry rest => exact (Except.ok.inj h).symm
  | _ =>
    dsimp only at h
    split at h
    · exact (Except.ok.inj h).symm
    · exact absurd h (by simp)

/-- Without a new value, a field stays what it was. -/
theorem Update.field_nil {α : Type} (key : String) (old : α) (read : Value → Checked α) :
    field [] key old read = .ok old := rfl

namespace JobRecord

variable {base r : JobRecord} {updates : Keyed Value} {id : String} {now : Stamp}

theorem revise_eq_ok {o : Overlays} :
    base.revise updates o now = .ok r ↔ ∃ workerId status input output internalJobs createdAt completedAt,
      Update.field updates "worker_id" base.workerId Decode.text = .ok workerId
        ∧ Update.field updates "status" base.status JobStatus.ofValue = .ok status
        ∧ Update.field updates "input" base.input Decode.anything = .ok input
        ∧ Update.field updates "output" base.output Decode.anything = .ok output
        ∧ base.newInternalJobs o = .ok internalJobs
        ∧ Update.field updates "created_at" base.createdAt Decode.stamp = .ok createdAt
        ∧ Update.field updates "completed_at" base.completedAt (fun v => some <$> Decode.stamp v)
          = .ok completedAt
        ∧ r = ⟨base.jobId, workerId, status, input, output, o.error, o.metadata, internalJobs, createdAt,
            now, completedAt⟩ := by
  simp only [revise, Checked.seq_eq_ok, Checked.map_eq_ok]
  constructor
  · rintro ⟨_, _, ⟨_, _, ⟨_, _, ⟨_, _, ⟨_, _, ⟨_, _, ⟨_, h₁, rfl⟩, h₂, rfl⟩, h₃, rfl⟩, h₄, rfl⟩, h₅, rfl⟩,
      h₆, rfl⟩, h₇, rfl⟩
    exact ⟨_, _, _, _, _, _, _, h₁, h₂, h₃, h₄, h₅, h₆, h₇, rfl⟩
  · rintro ⟨_, _, _, _, _, _, _, h₁, h₂, h₃, h₄, h₅, h₆, h₇, rfl⟩
    exact ⟨_, _, ⟨_, _, ⟨_, _, ⟨_, _, ⟨_, _, ⟨_, _, ⟨_, h₁, rfl⟩, h₂, rfl⟩, h₃, rfl⟩, h₄, rfl⟩, h₅, rfl⟩,
      h₆, rfl⟩, h₇, rfl⟩

/-- Without new values, only what is overlaid changes. -/
theorem revise_nil {o : Overlays} (hjobs : o.internalJobs = none) (h : base.revise [] o now = .ok r) :
    r = { base with error := o.error, metadata := o.metadata, updatedAt := now } := by
  obtain ⟨_, _, _, _, _, _, _, hworker, hstatus, hinput, houtput, hnew, hcreated, hcompleted, rfl⟩ :=
    revise_eq_ok.mp h
  rw [Update.field_nil, Checked.ok.injEq] at hworker hstatus hinput houtput hcreated hcompleted
  rw [newInternalJobs, hjobs, Checked.ok.injEq] at hnew
  subst hworker hstatus hinput houtput hcreated hcompleted hnew
  rfl

/-- An update that succeeds. -/
theorem update_eq_ok {existing : Option JobRecord} :
    update existing id updates now = .ok r ↔ ∃ o r₀,
      (existing.getD (start id now)).overlays updates = .ok o
        ∧ (existing.getD (start id now)).revise
            (if (existing.getD (start id now)).isTerminal then [] else updates) o now = .ok r₀
        ∧ r = { r₀.settle now with jobId := id } := by
  unfold update revised
  constructor
  · intro h
    obtain ⟨r₁, h₁, h⟩ := Fault.bind_eq_ok.mp h
    obtain ⟨o, ho, h₁⟩ := Fault.bind_eq_ok.mp h₁
    obtain ⟨r₀, h₀, h₁⟩ := Fault.bind_eq_ok.mp h₁
    refine ⟨o, r₀, ho, Fault.ofChecked_eq_ok.mp h₀, ?_⟩
    rw [Except.ok.inj h₁]
    exact (Except.ok.inj h).symm
  · rintro ⟨o, r₀, ho, h₀, rfl⟩
    refine Fault.bind_eq_ok.mpr ⟨r₀.settle now, Fault.bind_eq_ok.mpr ⟨o, ho, ?_⟩, rfl⟩
    exact Fault.bind_eq_ok.mpr ⟨r₀, Fault.ofChecked_eq_ok.mpr h₀, rfl⟩

/-- **An ended job has a time of completion.** -/
def Timed (r : JobRecord) : Prop := r.isTerminal = true → r.completedAt.isSome = true

theorem timed_settle (r : JobRecord) (now : Stamp) : (r.settle now).Timed := by
  unfold settle
  split
  · intro _
    show (r.completedAt.or (some now)).isSome = true
    cases r.completedAt <;> rfl
  · next h => exact fun h' => absurd h' h

/-- A record with a time of completion keeps it. -/
theorem settle_of_timed {r : JobRecord} (h : r.Timed) (now : Stamp) : r.settle now = r := by
  unfold settle
  split
  · next hended =>
    obtain ⟨t, ht⟩ := Option.isSome_iff_exists.mp (h hended)
    rw [ht, Option.some_or, ← ht]
  · rfl

theorem proper_settle (h : r.Proper) (hnow : now.Proper) : (r.settle now).Proper := by
  unfold settle
  split
  · refine ⟨h.createdAt, h.updatedAt, fun s hs => ?_⟩
    cases hcompleted : r.completedAt with
    | none =>
      simp only [hcompleted, Option.none_or] at hs
      exact Option.some.inj hs ▸ hnow
    | some t =>
      simp only [hcompleted, Option.some_or] at hs
      exact h.completedAt s (hcompleted.trans hs)
  · exact h

theorem proper_of_revise {o : Overlays} (hbase : base.Proper) (hnow : now.Proper)
    (h : base.revise updates o now = .ok r) : r.Proper := by
  obtain ⟨_, _, _, _, _, createdAt, completedAt, -, -, -, -, -, hcreated, hcompleted, rfl⟩ :=
    revise_eq_ok.mp h
  refine ⟨?_, hnow, ?_⟩
  · rcases Update.field_cases hcreated with rfl | ⟨v, hv⟩
    · exact hbase.createdAt
    · exact Decode.proper_of_stamp hv
  · rcases Update.field_cases hcompleted with rfl | ⟨v, hv⟩
    · exact hbase.completedAt
    · obtain ⟨s, hs, rfl⟩ := Checked.map_eq_ok.mp hv
      intro t ht
      exact Option.some.inj ht ▸ Decode.proper_of_stamp hs

/-- **Updates leave proper records**, and a time of completion when the job has ended. -/
theorem proper_of_update {existing : Option JobRecord} (hbase : ∀ e ∈ existing, e.Proper)
    (hnow : now.Proper) (h : update existing id updates now = .ok r) : r.Proper ∧ r.Timed := by
  obtain ⟨o, r₀, -, hrevise, rfl⟩ := update_eq_ok.mp h
  have hstart : (existing.getD (start id now)).Proper := by
    cases existing with
    | none => exact ⟨hnow, hnow, by simp [start]⟩
    | some e => exact hbase e rfl
  have hsettled := proper_settle (proper_of_revise hstart hnow hrevise) hnow
  exact ⟨⟨hsettled.createdAt, hsettled.updatedAt, hsettled.completedAt⟩, timed_settle r₀ now⟩

/-! ### Ended jobs -/

/-- What one field of an update makes of what was to be laid over the metadata. -/
def relay (m : Keyed Value) (field : String × Value) : Keyed Value :=
  if field.1 = "metadata" then field.2.fields?.getD [] else m

/-- What an update lays over the metadata of a job: the last mapping that it names. -/
def patch (updates : Keyed Value) : Keyed Value := updates.foldl relay []

/-- The overlays on a job that has ended: metadata, and nothing else. -/
theorem overlays_of_terminal {o : Overlays} (hended : base.isTerminal = true)
    (h : base.overlays updates = .ok o) : o = ⟨base.metadata.putAll (patch updates), base.error, none⟩ := by
  unfold overlays at h
  unfold patch
  -- every round puts the last mapping in the place of the one before
  change updates.foldlM _ (⟨base.metadata.putAll [], base.error, none⟩ : Overlays) = _ at h
  generalize ([] : Keyed Value) = m at h ⊢
  induction updates generalizing m with
  | nil => exact (Except.ok.inj h).symm
  | cons entry rest ih =>
    obtain ⟨key, v⟩ := entry
    rw [List.foldlM_cons] at h
    obtain ⟨acc, hacc, h⟩ := Fault.bind_eq_ok.mp h
    rw [List.foldl_cons, relay]
    dsimp only at hacc ⊢
    by_cases hkey : key = "metadata"
    · rw [if_pos hkey] at hacc ⊢
      obtain ⟨m', hm', hacc⟩ := Fault.bind_eq_ok.mp hacc
      rw [Update.overlay_eq_ok hm'] at hacc
      exact ih _ (Except.ok.inj hacc ▸ h)
    · rw [if_neg hkey, if_pos hended] at hacc
      rw [if_neg hkey]
      exact ih _ (Except.ok.inj hacc ▸ h)

/-- **An update of a job that has ended** lays its metadata over those of the job. -/
theorem update_of_terminal (hended : base.isTerminal = true) (htimed : base.Timed)
    (h : update (some base) id updates now = .ok r) :
    r = { base with jobId := id, metadata := base.metadata.putAll (patch updates), updatedAt := now } := by
  obtain ⟨o, r₀, ho, hrevise, rfl⟩ := update_eq_ok.mp h
  obtain rfl := overlays_of_terminal hended ho
  rw [Option.getD_some, if_pos hended] at hrevise
  obtain rfl := revise_nil rfl hrevise
  have htimed' : Timed { base with metadata := base.metadata.putAll (patch updates), updatedAt := now } :=
    htimed
  exact congrArg (fun r : JobRecord => { r with jobId := id }) (settle_of_timed htimed' now)

end JobRecord

/-! ## Filed records -/

/-- What was put under a key last is found there. -/
theorem Keyed.get?_putAll {α : Type} (m entries : Keyed α) (key : String) :
    (m.putAll entries).get? key = (Keyed.get? entries.reverse key).or (m.get? key) := by
  unfold putAll
  induction entries generalizing m with
  | nil => rfl
  | cons entry rest ih =>
    obtain ⟨k, v⟩ := entry
    rw [List.foldl_cons, ih, List.reverse_cons, get?_append, Option.or_assoc]
    congr 1
    by_cases hk : key = k
    · rw [hk, get?_put_self, get?, if_pos rfl, Option.some_or]
    · rw [get?_put_of_ne _ _ hk, get?, if_neg (Ne.symm hk), get?, Option.none_or]

/-- **What is known of a record that is read** from the store of a backend. -/
structure JobRecord.Filed (b : Backend) (id : String) (r : JobRecord) : Prop where
  jobId : r.jobId = id
  proper : r.Proper
  timed : r.Timed
  kept : b.keepsJob r = r

/-- What a backend keeps of a record is filed. -/
theorem JobRecord.filed_keeps (b : Backend) {r : JobRecord} (h : r.Proper) (htimed : r.Timed) :
    (b.keepsJob r).Filed b r.jobId :=
  ⟨rfl, h.keeps b, htimed, b.keepsJob_keepsJob r⟩

/-- What a backend keeps of metadata that others were laid over. -/
theorem JobRecord.Filed.get?_metadata {b : Backend} {id : String} {r : JobRecord} (h : r.Filed b id)
    (fields : Keyed Value) (key : String) : (b.keepsFields (r.metadata.putAll fields)).get? key
      = ((Keyed.get? fields.reverse key).map b.keeps).or (r.metadata.get? key) := by
  have hkept : (r.metadata.get? key).map b.keeps = r.metadata.get? key := by
    rw [← Backend.get?_keepsFields]
    exact congrArg (fun r : JobRecord => r.metadata.get? key) h.kept
  rw [Backend.get?_keepsFields, Keyed.get?_putAll, Option.map_or, hkept]

namespace JobStore

/-- **Every record of the store can be read**, and is filed. -/
def Sound (s : JobStore) : Prop :=
  ∀ id, ∃ existing, s.get id = .ok existing ∧ ∀ r ∈ existing, r.Filed s.backend id

/-- **A record was written** to a store. -/
structure Wrote (s : JobStore) (r : JobRecord) (s' : JobStore) : Prop where
  backend : s'.backend = s.backend
  records : ∃ held, hold s.backend r = .ok held ∧ s'.records = s.records.put r.jobId held
  columns : s'.columns = s.columns.put r.jobId (s.newColumns r)

variable {s s' : JobStore} {r : JobRecord} {id : String} {now : Stamp} {updates : Keyed Value}

theorem Wrote.get_self (h : s.Wrote r s') (hr : r.Proper) :
    s'.get r.jobId = .ok (some (s.backend.keepsJob r)) := by
  obtain ⟨held, hheld, hrecords⟩ := h.records
  rw [get, hrecords, Keyed.readHeld_put_self, JobRecord.read_of_hold hr hheld]
  rfl

theorem Wrote.get_of_ne (h : s.Wrote r s') (hne : id ≠ r.jobId) : s'.get id = s.get id := by
  obtain ⟨held, -, hrecords⟩ := h.records
  rw [get, hrecords, Keyed.readHeld_put_of_ne _ _ hne, get]

theorem wrote_of_keep (h : s.keep r = .ok s') : s.Wrote r s' := by
  obtain ⟨held, hheld, h⟩ := Fault.bind_eq_ok.mp h
  cases h
  exact ⟨rfl, ⟨held, hheld, rfl⟩, rfl⟩

theorem byWorker_of_keep (h : s.keep r = .ok s') : s'.byWorker = s.byWorker := by
  obtain ⟨held, -, h⟩ := Fault.bind_eq_ok.mp h
  cases h
  rfl

theorem wrote_of_set (h : s.set id updates now = .ok (r, s')) :
    ∃ existing, s.get id = .ok existing ∧ JobRecord.update existing id updates now = .ok r
      ∧ s.Wrote r s' := by
  obtain ⟨existing, hread, h⟩ := Fault.bind_eq_ok.mp h
  obtain ⟨r', hr, h⟩ := Fault.bind_eq_ok.mp h
  obtain ⟨kept, hkept, h⟩ := Fault.bind_eq_ok.mp h
  cases h
  have hwrote := wrote_of_keep hkept
  exact ⟨existing, hread, hr, ⟨hwrote.backend, hwrote.records, hwrote.columns⟩⟩

/-- A record that is set is noted under its worker. -/
theorem noted_of_set (h : s.set id updates now = .ok (r, s')) : s'.byWorker = (s.note r).byWorker := by
  obtain ⟨existing, -, h⟩ := Fault.bind_eq_ok.mp h
  obtain ⟨r', -, h⟩ := Fault.bind_eq_ok.mp h
  obtain ⟨kept, hkept, h⟩ := Fault.bind_eq_ok.mp h
  cases h
  simp only [note, byWorker_of_keep hkept]

theorem set_of_update (h : s.update id updates now = .ok (r, s')) : s.set id updates now = .ok (r, s') := by
  obtain ⟨existing, hread, h⟩ := Fault.bind_eq_ok.mp h
  cases existing with
  | none => simp at h
  | some e => exact Fault.bind_eq_ok.mpr ⟨_, hread, h⟩

/-- **A write of a record that is filed** leaves a sound store. -/
theorem Sound.wrote (h : s.Sound) (hwrote : s.Wrote r s') (hr : r.Proper) (htimed : r.Timed) : s'.Sound := by
  intro id
  rw [hwrote.backend]
  by_cases hid : id = r.jobId
  · subst hid
    refine ⟨_, hwrote.get_self hr, fun r' hr' => ?_⟩
    exact Option.some.inj hr' ▸ JobRecord.filed_keeps s.backend hr htimed
  · rw [hwrote.get_of_ne hid]
    exact h id

end JobStore

/-! ## Steps -/

/-- **What two records of an ended job have in common**: all but what is known of its own jobs, its
    metadata and its last update. -/
structure JobRecord.SameOutcome (r r' : JobRecord) : Prop where
  status : r'.status = r.status
  workerId : r'.workerId = r.workerId
  input : r'.input = r.input
  output : r'.output = r.output
  error : r'.error = r.error
  createdAt : r'.createdAt = r.createdAt
  completedAt : r'.completedAt = r.completedAt

theorem JobRecord.SameOutcome.refl (r : JobRecord) : r.SameOutcome r := ⟨rfl, rfl, rfl, rfl, rfl, rfl, rfl⟩

theorem JobRecord.SameOutcome.trans {r r' r'' : JobRecord} (h : r.SameOutcome r') (h' : r'.SameOutcome r'') :
    r.SameOutcome r'' :=
  ⟨h'.status.trans h.status, h'.workerId.trans h.workerId, h'.input.trans h.input,
    h'.output.trans h.output, h'.error.trans h.error, h'.createdAt.trans h.createdAt,
    h'.completedAt.trans h.completedAt⟩

/-- What a backend keeps of a record that it kept before, when only other parts have changed. -/
theorem JobRecord.Filed.sameOutcome {b : Backend} {id : String} {r r' : JobRecord} (h : r.Filed b id)
    (h' : r.SameOutcome r') : r.SameOutcome (b.keepsJob r') where
  status := h'.status
  workerId := h'.workerId
  input := (congrArg b.keeps h'.input).trans (congrArg JobRecord.input h.kept)
  output := (congrArg b.keeps h'.output).trans (congrArg JobRecord.output h.kept)
  error := h'.error
  createdAt := h'.createdAt
  completedAt := h'.completedAt

/-- What an operation lays over the metadata of a job. -/
def StoreOp.patch (id : String) : StoreOp → Keyed Value
  | .setJob jobId updates | .updateJob jobId updates =>
    if jobId = id then JobRecord.patch updates else []
  | _ => []

/-- Operations that write the record of a job. -/
def StoreOp.writesJob : StoreOp → Bool
  | .setJob .. | .updateJob .. | .addInternalJob .. => true
  | _ => false

theorem StoreOp.patch_eq_nil {op : StoreOp} (h : op.writesJob = false) (id : String) : op.patch id = [] := by
  cases op with
  | setJob | updateJob | addInternalJob => exact absurd h (by simp [writesJob])
  | _ => rfl

/-- What an operation that is carried out lays over the metadata of a job. -/
def Stores.patch (s : Stores) (c : TimedOp) (id : String) : Keyed Value :=
  match (s.carryOut c).1 with
  | .ok _ => c.op.patch id
  | .error _ => []

/-- **What an operation does to the jobs, and answers**: it writes a record, made out of what is read of the
    job, notes it under its worker and answers it; or it notes in the record of a job that the job started
    another one. -/
inductive JobStore.Answers (s : JobStore) (now : Stamp) : StoreOp → Except Fault StoreAnswer → JobStore → Prop
  | none {op : StoreOp} {answer : Except Fault StoreAnswer}
      (h : op.writesJob = false ∨ ∃ f, answer = .error f) : Answers s now op answer s
  | written {op : StoreOp} {id : String} {updates : Keyed Value} {existing : Option JobRecord} {r : JobRecord}
      {s' : JobStore} (hop : op = .setJob id updates ∨ op = .updateJob id updates)
      (hread : s.get id = .ok existing) (hr : JobRecord.update existing id updates now = .ok r)
      (hwrote : s.Wrote r s') (hnoted : s'.byWorker = (s.note r).byWorker) :
      Answers s now op (.ok (.job (some r))) s'
  | child {id : String} {child : InternalJob} {parent : JobRecord} {s' : JobStore}
      (hread : s.get id = .ok (some parent)) (hwrote : s.Wrote (parent.addInternal child now) s')
      (hunnoted : s'.byWorker = s.byWorker) : Answers s now (.addInternalJob id child) (.ok .nothing) s'

/-- **All that an operation can do to the jobs** is to write one record, made out of what is read of
    the job. -/
inductive JobStore.Change (s : JobStore) (now : Stamp) (lay : String → Keyed Value) : JobStore → Prop
  | none (hlay : ∀ id, lay id = []) : Change s now lay s
  | written {id : String} {updates : Keyed Value} {existing : Option JobRecord} {r : JobRecord} {s' : JobStore}
      (hlay : lay id = JobRecord.patch updates) (hothers : ∀ other, other ≠ id → lay other = [])
      (hread : s.get id = .ok existing) (hr : JobRecord.update existing id updates now = .ok r)
      (hwrote : s.Wrote r s') : Change s now lay s'
  | child {id : String} {child : InternalJob} {parent : JobRecord} {s' : JobStore}
      (hlay : ∀ id, lay id = []) (hread : s.get id = .ok (some parent))
      (hwrote : s.Wrote (parent.addInternal child now) s') : Change s now lay s'

namespace JobStore

variable {s s' : JobStore} {now : Stamp} {op : StoreOp} {answer : Except Fault StoreAnswer}

theorem Answers.backend_eq (h : s.Answers now op answer s') : s'.backend = s.backend := by
  cases h with
  | none => rfl
  | written _ _ _ hwrote | child _ hwrote => exact hwrote.backend

/-- What an operation lays over metadata, it lays only when it is carried out. -/
theorem Answers.change {lay : String → Keyed Value} (h : s.Answers now op answer s')
    (hok : ∀ a, answer = .ok a → ∀ id, lay id = op.patch id) (herror : ∀ f, answer = .error f → ∀ id, lay id = []) :
    s.Change now lay s' := by
  cases h with
  | none hnone =>
    refine .none fun id => ?_
    cases hanswer : answer with
    | error f => exact herror f hanswer id
    | ok a =>
      rcases hnone with hwrites | ⟨f, rfl⟩
      · exact (hok a hanswer id).trans (op.patch_eq_nil hwrites id)
      · exact absurd hanswer nofun
  | @written _ id updates _ r _ hop hread hr hwrote =>
    have hlay (other : String) : lay other = if id = other then JobRecord.patch updates else [] := by
      rw [hok _ rfl other]
      rcases hop with rfl | rfl <;> rfl
    exact .written ((hlay id).trans (if_pos rfl)) (fun other hne => (hlay other).trans (if_neg hne.symm)) hread hr
      hwrote
  | child hread hwrote => exact .child (hok _ rfl) hread hwrote

end JobStore

namespace Stores

variable {s : Stores} {c : TimedOp}

theorem patch_of_error {f : Fault} (h : (s.carryOut c).1 = .error f) (id : String) : s.patch c id = [] := by
  rw [patch, h]

theorem patch_of_ok {answer : StoreAnswer} (h : (s.carryOut c).1 = .ok answer) (id : String) :
    s.patch c id = c.op.patch id := by
  rw [patch, h]

/-- **Only writes of job records** change what is kept of jobs. -/
theorem jobs_perform {op : StoreOp} {now : Stamp} (h : op.writesJob = false) :
    (s.perform now op).2.jobs = s.jobs :=
  (s.perform_touches now op).jobs_eq (by cases op <;> simp_all [StoreOp.writesJob, StoreOp.writes?])

/-- **An operation changes the jobs, and answers what it wrote**, or leaves them as they are. -/
theorem jobs_answers (s : Stores) (c : TimedOp) :
    s.jobs.Answers (.ofMicros c.clock) c.op (s.carryOut c).1 (s.carryOut c).2.jobs := by
  obtain ⟨clock, op⟩ := c
  by_cases hwrites : op.writesJob = false
  · rw [show (s.carryOut ⟨clock, op⟩).2.jobs = s.jobs from jobs_perform hwrites]
    exact .none (.inl hwrites)
  by_cases hopen : s.isOpen = true
  · rw [carryOut_of_open hopen]
    cases op with
    -- an operation that fails leaves the jobs as they are; else its answer is what it wrote
    | setJob id updates =>
      cases hresult : s.jobs.set id updates (.ofMicros clock) with
      | error f => rw [performOpen, hresult]; exact .none (.inr ⟨f, rfl⟩)
      | ok result =>
        rw [performOpen, hresult]
        obtain ⟨existing, hread, hr, hwrote⟩ := JobStore.wrote_of_set hresult
        exact .written (.inl rfl) hread hr hwrote (JobStore.noted_of_set hresult)
    | updateJob id updates =>
      cases hresult : s.jobs.update id updates (.ofMicros clock) with
      | error f => rw [performOpen, hresult]; exact .none (.inr ⟨f, rfl⟩)
      | ok result =>
        rw [performOpen, hresult]
        obtain ⟨existing, hread, hr, hwrote⟩ := JobStore.wrote_of_set (JobStore.set_of_update hresult)
        exact .written (.inr rfl) hread hr hwrote (JobStore.noted_of_set (JobStore.set_of_update hresult))
    | addInternalJob id child =>
      cases hresult : s.jobs.addInternal id child (.ofMicros clock) with
      | error f => rw [performOpen, hresult]; exact .none (.inr ⟨f, rfl⟩)
      | ok jobs =>
        rw [performOpen, hresult]
        obtain ⟨found, hread, hkeep⟩ := Fault.bind_eq_ok.mp hresult
        cases found with
        | none => simp at hkeep
        | some parent => exact .child hread (JobStore.wrote_of_keep hkeep) (JobStore.byWorker_of_keep hkeep)
    | _ => exact absurd rfl hwrites
  · rw [show s.carryOut ⟨clock, op⟩ = (.error _, s) from if_neg hopen]
    exact .none (.inr ⟨_, rfl⟩)

theorem change_carryOut (s : Stores) (c : TimedOp) :
    s.jobs.Change (.ofMicros c.clock) (s.patch c) (s.carryOut c).2.jobs :=
  (s.jobs_answers c).change (fun _ => patch_of_ok) fun _ => patch_of_error

end Stores

namespace JobStore

variable {s s' : JobStore} {now : Stamp} {lay : String → Keyed Value}

theorem Change.backend_eq (h : s.Change now lay s') : s'.backend = s.backend := by
  cases h with
  | none => rfl
  | written _ _ _ _ hwrote => exact hwrote.backend
  | child _ _ hwrote => exact hwrote.backend

/-- **An operation leaves a sound store.** -/
theorem Sound.change (hs : s.Sound) (hnow : now.Proper) (h : s.Change now lay s') : s'.Sound := by
  cases h with
  | none => exact hs
  | @written id _ existing _ _ _ _ hread hr hwrote =>
    obtain ⟨found, hfound, hfiled⟩ := hs id
    obtain rfl := Except.ok.inj (hread.symm.trans hfound)
    have hproper := JobRecord.proper_of_update (fun e he => (hfiled e he).proper) hnow hr
    exact hs.wrote hwrote hproper.1 hproper.2
  | @child id _ _ _ _ hread hwrote =>
    obtain ⟨found, hfound, hfiled⟩ := hs id
    obtain rfl := Except.ok.inj (hread.symm.trans hfound)
    have hparent := hfiled _ rfl
    exact hs.wrote hwrote ⟨hparent.proper.createdAt, hnow, hparent.proper.completedAt⟩ hparent.timed

/-- **An operation leaves an ended job as it ended**, with what it lays over the metadata. -/
theorem Sound.ended_change (hs : s.Sound) (h : s.Change now lay s') {id : String} {r : JobRecord}
    (hr : s.get id = .ok (some r)) (hended : r.isTerminal = true) (hnow : now.Proper) :
    ∃ r', s'.get id = .ok (some r') ∧ r.SameOutcome r'
      ∧ ∀ key, r'.metadata.get? key
        = ((Keyed.get? (lay id).reverse key).map s.backend.keeps).or (r.metadata.get? key) := by
  obtain ⟨found, hfound, hfiled⟩ := hs id
  obtain rfl := Except.ok.inj (hr.symm.trans hfound)
  have hr' := hfiled r rfl
  have hsame (hget : s'.get id = s.get id) (hlay : lay id = []) : ∃ r', s'.get id = .ok (some r')
      ∧ r.SameOutcome r' ∧ ∀ key, r'.metadata.get? key
        = ((Keyed.get? (lay id).reverse key).map s.backend.keeps).or (r.metadata.get? key) := by
    refine ⟨r, hget.trans hr, .refl r, fun key => ?_⟩
    rw [hlay]
    rfl
  cases h with
  | none hlay => exact hsame rfl (hlay id)
  | @written other updates existing r₁ _ hlay hothers hread hupdate hwrote =>
    have hid : r₁.jobId = other := JobRecord.jobId_of_update hupdate
    -- an ended record takes only the metadata of an update
    by_cases hother : id = other
    · subst hother
      obtain rfl := Except.ok.inj (hr.symm.trans hread)
      obtain rfl := JobRecord.update_of_terminal hended hr'.timed hupdate
      rw [hlay]
      have hget := hwrote.get_self ⟨hr'.proper.createdAt, hnow, hr'.proper.completedAt⟩
      exact ⟨_, hget, hr'.sameOutcome ⟨rfl, rfl, rfl, rfl, rfl, rfl, rfl⟩, hr'.get?_metadata _⟩
    · exact hsame (hwrote.get_of_ne fun heq => hother (heq.trans hid)) (hothers id hother)
  | @child other child parent _ hlay hread hwrote =>
    by_cases hother : id = parent.jobId
    · obtain ⟨found', hfound', hfiled'⟩ := hs other
      obtain rfl := Except.ok.inj (hread.symm.trans hfound')
      obtain rfl : other = id := (hfiled' parent rfl).jobId.symm.trans hother.symm
      obtain rfl := Option.some.inj (Except.ok.inj (hr.symm.trans hread))
      have hget := hwrote.get_self ⟨hr'.proper.createdAt, hnow, hr'.proper.completedAt⟩
      refine ⟨_, (congrArg s'.get hother).trans hget, hr'.sameOutcome ⟨rfl, rfl, rfl, rfl, rfl, rfl, rfl⟩, ?_⟩
      rw [hlay]
      exact hr'.get?_metadata []
    · exact hsame (hwrote.get_of_ne hother) (hlay id)

end JobStore

/-! ## Histories -/

namespace Stores

variable {s : Stores} {cs : List TimedOp}

/-- What operations in order lay over the metadata of a job. -/
def patches (s : Stores) (id : String) : List TimedOp → Keyed Value
  | [] => []
  | c :: cs => s.patch c id ++ (s.carryOut c).2.patches id cs

/-- **Operations leave sound stores.** -/
theorem sound_after (hs : s.jobs.Sound) (hclock : ∀ c ∈ cs, c.clock < Stamp.lastMicro) :
    (s.after cs).jobs.Sound ∧ (s.after cs).jobs.backend = s.jobs.backend := by
  induction cs generalizing s with
  | nil => exact ⟨hs, rfl⟩
  | cons c rest ih =>
    have hchange := s.change_carryOut c
    have hnow := Stamp.proper_ofMicros (hclock c List.mem_cons_self)
    obtain ⟨hsound, hbackend⟩ := ih (hs.change hnow hchange) fun d hd => hclock d (.tail _ hd)
    exact ⟨hsound, hbackend.trans hchange.backend_eq⟩

/-- **Operations leave an ended job as it ended.** -/
theorem ended_after (hs : s.jobs.Sound) (hclock : ∀ c ∈ cs, c.clock < Stamp.lastMicro) {id : String}
    {r : JobRecord} (hr : s.jobs.get id = .ok (some r)) (hended : r.isTerminal = true) :
    ∃ r', (s.after cs).jobs.get id = .ok (some r') ∧ r.SameOutcome r'
      ∧ ∀ key, r'.metadata.get? key
        = ((Keyed.get? (s.patches id cs).reverse key).map s.jobs.backend.keeps).or (r.metadata.get? key) := by
  induction cs generalizing s r with
  | nil => exact ⟨r, hr, .refl r, fun _ => rfl⟩
  | cons c rest ih =>
    have hchange := s.change_carryOut c
    have hnow := Stamp.proper_ofMicros (hclock c List.mem_cons_self)
    obtain ⟨r₁, hr₁, hsame₁, hmetadata₁⟩ := hs.ended_change hchange hr hended hnow
    have hended₁ : r₁.isTerminal = true := by
      rw [JobRecord.isTerminal, hsame₁.status]
      exact hended
    obtain ⟨r₂, hr₂, hsame₂, hmetadata₂⟩ :=
      ih (hs.change hnow hchange) (fun d hd => hclock d (.tail _ hd)) hr₁ hended₁
    refine ⟨r₂, hr₂, hsame₁.trans hsame₂, fun key => ?_⟩
    rw [hmetadata₂, hmetadata₁, hchange.backend_eq, patches, List.reverse_append, Keyed.get?_append,
      Option.map_or, Option.or_assoc]

end Stores

theorem JobStore.sound_empty (b : Backend) : (Stores.empty b).jobs.Sound :=
  fun _ => ⟨none, rfl, by simp⟩

end Runbook
