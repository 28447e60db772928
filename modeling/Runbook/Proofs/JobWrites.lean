import Runbook.Proofs.QueueRecords
import Runbook.Proofs.Triggers

/-!
# `Proofs.JobWrites` — the record of a job that one party carries out

Whoever carries out a job writes its record stage by stage: it is queued, then it runs, then it has ended. As
long as nobody else writes it, such a write does not fail, and what the store keeps of the job is what was
written. Other operations leave the record alone, or change what does not matter to its outcome.

## Contents
- **Stages.** `JobRecord.update_stage`, what an update makes of a job that has not ended; `Writable.update`; and
  `sameOutcome_of_metadata` for updates of the metadata.
- **Kept jobs.** `Stores.Keeps`, with `Keeps.setJob` and `Keeps.updateJob` for writes that are taken,
  `Keeps.perform` for all that an operation can do, `Keeps.leaves` for those that leave the outcome alone, and
  `Keeps.after`, by induction on operations.
-/

namespace Runbook

/-! ## Stages -/

/-- A field that takes any value. -/
theorem Update.field_anything (updates : Keyed Value) (key : String) (old : Value) :
    field updates key old Decode.anything = .ok ((newValue? updates key).getD old) := by
  unfold field
  cases newValue? updates key <;> rfl

theorem Update.newValue?_writable {updates : Keyed Value} {key : String} {old : Value}
    (hupdates : Value.unwritableField? updates = none) (hold : old.unwritable? = none) :
    ((newValue? updates key).getD old).unwritable? = none := by
  cases hv : newValue? updates key with
  | none => exact hold
  | some v =>
    unfold newValue? Value.present? at hv
    split at hv
    · exact absurd hv (by simp)
    · exact Value.unwritable?_of_get? hupdates hv

namespace JobRecord

variable {base r : JobRecord} {existing : Option JobRecord} {updates : Keyed Value} {o : Overlays} {id : String}
  {now : Stamp}

@[simp] theorem settle_status (r : JobRecord) (now : Stamp) : (r.settle now).status = r.status := by
  unfold settle; split <;> rfl

@[simp] theorem settle_error (r : JobRecord) (now : Stamp) : (r.settle now).error = r.error := by
  unfold settle; split <;> rfl

/-- **What an update makes of a job that has not ended.** -/
theorem update_stage {workerId : String} {status : JobStatus}
    (hopen : (existing.getD (start id now)).isTerminal = false)
    (hoverlays : (existing.getD (start id now)).overlays updates = .ok o) (hjobs : o.internalJobs = none)
    (hworker : Update.field updates "worker_id" (existing.getD (start id now)).workerId Decode.text = .ok workerId)
    (hstatus : Update.field updates "status" (existing.getD (start id now)).status JobStatus.ofValue = .ok status)
    (hcreated : Update.newValue? updates "created_at" = none)
    (hcompleted : Update.newValue? updates "completed_at" = none) :
    ∃ r, update existing id updates now = .ok r ∧ r.status = status ∧ r.error = o.error
      ∧ r.output = (Update.newValue? updates "output").getD (existing.getD (start id now)).output := by
  have hnew : (existing.getD (start id now)).newInternalJobs o
      = .ok (existing.getD (start id now)).internalJobs := by
    rw [newInternalJobs, hjobs]
  have hkept {α : Type} {key : String} {old : α} {read : Value → Checked α}
      (hkey : Update.newValue? updates key = none) : Update.field updates key old read = .ok old := by
    rw [Update.field, hkey]
  obtain ⟨r₀, hrevise, hfields⟩ : ∃ r₀, (existing.getD (start id now)).revise updates o now = .ok r₀
      ∧ r₀.status = status ∧ r₀.error = o.error
      ∧ r₀.output = (Update.newValue? updates "output").getD (existing.getD (start id now)).output :=
    ⟨_, revise_eq_ok.mpr ⟨_, _, _, _, _, _, _, hworker, hstatus, Update.field_anything .., Update.field_anything ..,
      hnew, hkept hcreated, hkept hcompleted, rfl⟩, rfl, rfl, rfl⟩
  refine ⟨{ r₀.settle now with jobId := id }, update_eq_ok.mpr ⟨o, r₀, hoverlays, ?_, rfl⟩, ?_⟩
  · rwa [hopen, if_neg Bool.false_ne_true]
  · simpa using hfields

/-- Updates with what can be written down leave records that can be written down. -/
theorem Writable.update (hbase : (existing.getD (start id now)).Writable)
    (hupdates : Value.unwritableField? updates = none) (h : JobRecord.update existing id updates now = .ok r) :
    r.Writable := by
  obtain ⟨o, r₀, hoverlays, hrevise, rfl⟩ := update_eq_ok.mp h
  obtain ⟨_, _, _, _, _, _, _, -, -, hinput, houtput, -, -, -, rfl⟩ := revise_eq_ok.mp hrevise
  have hfields : Value.unwritableField?
      (if (existing.getD (start id now)).isTerminal then [] else updates) = none := by
    split
    · rfl
    · exact hupdates
  rw [Update.field_anything, Checked.ok.injEq] at hinput houtput
  refine ⟨?_, ?_, ?_⟩
  · rw [settle_input, ← hinput]
    exact Update.newValue?_writable hfields hbase.input
  · rw [settle_output, ← houtput]
    exact Update.newValue?_writable hfields hbase.output
  · rw [settle_metadata]
    dsimp only
    rcases metadata_of_overlays hoverlays with hsame | ⟨v, hmem, hm⟩
    · rw [hsame]
      exact hbase.metadata
    · exact RunRecord.overlay_writable hbase.metadata (Value.unwritableField?_eq_none.mp hupdates _ hmem) hm

theorem writable_start (id : String) (now : Stamp) : (start id now).Writable := ⟨rfl, rfl, rfl⟩

theorem SameOutcome.timed (h : base.SameOutcome r) (htimed : base.Timed) : r.Timed := by
  unfold Timed isTerminal
  rw [h.status, h.completedAt]
  exact htimed

/-- **Updates of the metadata** leave the outcome as it is. -/
theorem sameOutcome_of_metadata (hupdates : ∀ key ∈ updates.keys, key = "metadata") (htimed : base.Timed)
    (h : update (some base) id updates now = .ok r) : base.SameOutcome r := by
  obtain ⟨o, r₀, hoverlays, hrevise, rfl⟩ := update_eq_ok.mp h
  rw [Option.getD_some] at hoverlays hrevise
  -- every round of the overlay finds the key of the metadata
  have herror : o.error = base.error := by
    refine foldlM_keeps (I := fun acc : Overlays => acc.error = base.error) ?_ rfl hoverlays
    rintro acc ⟨key, v⟩ hmem acc' hacc hround
    dsimp only at hround
    rw [if_pos (hupdates key (List.mem_map_of_mem hmem))] at hround
    obtain ⟨m, -, hacc'⟩ := Fault.bind_eq_ok.mp hround
    rw [← Except.ok.inj hacc']
    exact hacc
  -- so no other field has a new value
  have hfields : ∀ key ∈ Keyed.keys (if base.isTerminal then [] else updates), key = "metadata" := by
    split
    · simp [Keyed.keys]
    · exact hupdates
  generalize (if base.isTerminal then [] else updates) = fields at hrevise hfields
  have hkept {α : Type} {key : String} {old : α} {read : Value → Checked α} (hkey : key ≠ "metadata") :
      Update.field fields key old read = .ok old := by
    have hnone : Keyed.get? fields key = none :=
      Option.not_isSome_iff_eq_none.mp fun h => hkey (hfields key ((Keyed.mem_keys_iff ..).mpr h))
    rw [Update.field, Update.newValue?, hnone]
    rfl
  have hsame : base.SameOutcome r₀ := by
    obtain ⟨_, _, _, _, _, _, _, hworker, hstatus, hinput, houtput, -, hcreated, hcompleted, rfl⟩ :=
      revise_eq_ok.mp hrevise
    rw [hkept (by decide), Checked.ok.injEq] at hworker hstatus hinput houtput hcreated hcompleted
    exact ⟨hstatus.symm, hworker.symm, hinput.symm, houtput.symm, herror, hcreated.symm, hcompleted.symm⟩
  rw [settle_of_timed (hsame.timed htimed)]
  exact ⟨hsame.status, hsame.workerId, hsame.input, hsame.output, hsame.error, hsame.createdAt, hsame.completedAt⟩

end JobRecord

/-! ## Kept jobs -/

/-- **What stores keep of a job**: nothing, or a record that can be read and written again. -/
structure Stores.Keeps (b : Backend) (id : String) (found : Option JobRecord) (s : Stores) : Prop where
  isOpen : s.isOpen = true
  backend : s.jobs.backend = b
  sound : s.jobs.Sound
  get : s.jobs.get id = .ok found
  writable : b ≠ .memory → ∀ r ∈ found, r.Writable

/-- What an operation updates a job with. -/
def StoreOp.updates? (id : String) : StoreOp → Option (Keyed Value)
  | .setJob jobId updates | .updateJob jobId updates => if jobId = id then some updates else none
  | _ => none

/-- Operations that leave it to others how a job ends: they change at most the metadata of its record, and the
    list of the jobs that it started. -/
def StoreOp.LeavesOutcome (id : String) (op : StoreOp) : Prop :=
  ∀ updates ∈ op.updates? id, ∀ key ∈ updates.keys, key = "metadata"

/-- Operations that do not update a job leave its outcome alone. -/
theorem StoreOp.leavesOutcome_of_eq_none {id : String} {op : StoreOp} (h : op.updates? id = none) :
    op.LeavesOutcome id := by
  intro updates hupdates
  exact absurd (h.symm.trans hupdates) (by simp)

/-- **What an operation makes of a record that is kept**: it updates the record, or notes in it that the job started
    another one, or does neither. -/
inductive StoreOp.Makes (b : Backend) (id : String) (now : Stamp) (op : StoreOp) (found : Option JobRecord) :
    Option JobRecord → Prop
  | same : Makes b id now op found found
  | updated {updates : Keyed Value} {r : JobRecord} (hop : op.updates? id = some updates)
      (hr : JobRecord.update found id updates now = .ok r) : Makes b id now op found (some (b.keepsJob r))
  | noted {child : InternalJob} {e : JobRecord} (he : found = some e) :
      Makes b id now op found (some (b.keepsJob (e.addInternal child now)))

namespace JobStore

variable {s : JobStore} {id : String} {found : Option JobRecord} {r e : JobRecord} {updates : Keyed Value}
  {now : Stamp}

/-- A write that can be made. -/
theorem set_eq_ok (hget : s.get id = .ok found) (hr : JobRecord.update found id updates now = .ok r)
    (hwritable : s.backend ≠ .memory → r.Writable) : ∃ s', s.set id updates now = .ok (r, s') := by
  have hheld : ∃ held, hold s.backend r = .ok held := by
    by_cases hb : s.backend = .memory
    · exact ⟨.live r, by rw [hb]; rfl⟩
    · exact World.hold_eq_ok (JobRecord.writable_iff.mpr (hwritable hb))
  obtain ⟨held, hheld⟩ := hheld
  refine ⟨s.after id r held, ?_⟩
  rw [set_eq, hget]
  simp [revision, bind, Except.bind, hr, hheld, pure, Except.pure, Functor.map, Except.map]

/-- A record that exists is updated as it is set. -/
theorem update_eq_set (hget : s.get id = .ok (some e)) : s.update id updates now = s.set id updates now := by
  unfold update set
  rw [hget]
  rfl

end JobStore

namespace Stores.Keeps

variable {b : Backend} {s s' : Stores} {id : String} {found : Option JobRecord} {r e : JobRecord}
  {updates : Keyed Value} {op : StoreOp} {t : Clock}

theorem filed (h : s.Keeps b id found) : ∀ r ∈ found, r.Filed b id := by
  obtain ⟨existing, hget, hfiled⟩ := h.sound id
  obtain rfl := Except.ok.inj (hget.symm.trans h.get)
  exact h.backend ▸ hfiled

/-- What is kept after a write of the job. -/
theorem wrote (h : s.Keeps b id found) (hopen : s'.isOpen = true) (hwrote : s.jobs.Wrote r s'.jobs)
    (hid : r.jobId = id) (hproper : r.Proper) (htimed : r.Timed) : s'.Keeps b id (some (b.keepsJob r)) where
  isOpen := hopen
  backend := hwrote.backend.trans h.backend
  sound := h.sound.wrote hwrote hproper htimed
  get := by
    rw [← hid, hwrote.get_self hproper, h.backend]
  writable := by
    rintro hb _ ⟨⟩
    obtain ⟨held, hheld, -⟩ := hwrote.records
    rw [h.backend] at hheld
    exact (job_of_hold hheld (JobRecord.read_of_hold hproper hheld)).2 hb

/-- Nothing was written of any job. -/
theorem of_jobs_eq (h : s.Keeps b id found) (hopen : s'.isOpen = true) (hjobs : s'.jobs = s.jobs) :
    s'.Keeps b id found :=
  ⟨hopen, hjobs ▸ h.backend, hjobs ▸ h.sound, hjobs ▸ h.get, h.writable⟩

/-- Something was written of another job. -/
theorem of_ne (h : s.Keeps b id found) (hopen : s'.isOpen = true) (hwrote : s.jobs.Wrote r s'.jobs)
    (hid : id ≠ r.jobId) (hproper : r.Proper) (htimed : r.Timed) : s'.Keeps b id found :=
  ⟨hopen, hwrote.backend.trans h.backend, h.sound.wrote hwrote hproper htimed,
    (hwrote.get_of_ne hid).trans h.get, h.writable⟩

/-- **A job is set** to what an update makes of it. -/
theorem setJob (h : s.Keeps b id found) (htime : t < Stamp.lastMicro)
    (hr : JobRecord.update found id updates (.ofMicros t) = .ok r) (hwritable : b ≠ .memory → r.Writable) :
    ∃ s', s.perform (.ofMicros t) (.setJob id updates) = (.ok (.job (some r)), s')
      ∧ s'.Keeps b id (some (b.keepsJob r)) := by
  obtain ⟨jobs, hset⟩ := JobStore.set_eq_ok h.get hr (h.backend ▸ hwritable)
  obtain ⟨-, -, -, hwrote⟩ := JobStore.wrote_of_set hset
  obtain ⟨hproper, htimed⟩ :=
    JobRecord.proper_of_update (fun e he => (h.filed e he).proper) (Stamp.proper_ofMicros htime) hr
  refine ⟨{ s with jobs }, ?_, h.wrote h.isOpen hwrote (JobRecord.jobId_of_update hr) hproper htimed⟩
  rw [perform, if_pos h.isOpen, performOpen, hset]
  rfl

/-- **A job that exists is updated** in the same way. -/
theorem updateJob (h : s.Keeps b id (some e)) (htime : t < Stamp.lastMicro)
    (hr : JobRecord.update (some e) id updates (.ofMicros t) = .ok r) (hwritable : b ≠ .memory → r.Writable) :
    ∃ s', s.perform (.ofMicros t) (.updateJob id updates) = (.ok (.job (some r)), s')
      ∧ s'.Keeps b id (some (b.keepsJob r)) := by
  obtain ⟨s', hset, hkeeps⟩ := h.setJob htime hr hwritable
  refine ⟨s', ?_, hkeeps⟩
  rw [perform, if_pos h.isOpen] at hset ⊢
  rw [performOpen, JobStore.update_eq_set h.get]
  exact hset

/-- **All that an operation does to a job** is to update its record, or to note in it that the job started another
    one. -/
theorem perform (h : s.Keeps b id found) (op : StoreOp) (htime : t < Stamp.lastMicro) :
    ∃ found', (s.perform (.ofMicros t) op).2.Keeps b id found'
      ∧ op.Makes b id (.ofMicros t) found found' := by
  have hnow : Stamp.Proper (.ofMicros t) := Stamp.proper_ofMicros htime
  have hopen := (perform_fixed s (.ofMicros t) op).isOpen.trans h.isOpen
  have hanswers : s.jobs.Answers (.ofMicros t) op (s.perform (.ofMicros t) op).1
      (s.perform (.ofMicros t) op).2.jobs := s.jobs_answers ⟨t, op⟩
  generalize (s.perform (.ofMicros t) op).2 = s' at hopen hanswers ⊢
  generalize (s.perform (.ofMicros t) op).1 = answer at hanswers
  generalize hjobs : s'.jobs = jobs at hanswers
  cases hanswers with
  | none => exact ⟨found, h.of_jobs_eq hopen hjobs, .same⟩
  -- a record is written under the id that it names, so either this job is meant or the write is none of its own
  | @written _ jobId updates existing r _ hop hread hr hwrote =>
    subst hjobs
    obtain ⟨existing', hfound, hfiled⟩ := h.sound jobId
    obtain rfl := Except.ok.inj (hread.symm.trans hfound)
    obtain ⟨hproper, htimed⟩ := JobRecord.proper_of_update (fun e he => (hfiled e he).proper) hnow hr
    have hrId : r.jobId = jobId := JobRecord.jobId_of_update hr
    by_cases hid : jobId = id
    · subst hid
      obtain rfl := Except.ok.inj (hread.symm.trans h.get)
      have hupdates : op.updates? jobId = some updates := by
        rcases hop with rfl | rfl <;> exact if_pos rfl
      exact ⟨_, h.wrote hopen hwrote hrId hproper htimed, .updated hupdates hr⟩
    · exact ⟨found, h.of_ne hopen hwrote (fun heq => hid (heq.trans hrId).symm) hproper htimed, .same⟩
  | @child parentId child parent _ hread hwrote =>
    subst hjobs
    obtain ⟨existing, hfound, hfiled⟩ := h.sound parentId
    obtain rfl := Except.ok.inj (hread.symm.trans hfound)
    have hparent := hfiled parent rfl
    have hproper : (parent.addInternal child (.ofMicros t)).Proper :=
      ⟨hparent.proper.createdAt, hnow, hparent.proper.completedAt⟩
    by_cases hid : parentId = id
    · subst hid
      obtain rfl := Except.ok.inj (hread.symm.trans h.get)
      exact ⟨_, h.wrote hopen hwrote hparent.jobId hproper hparent.timed, .noted rfl⟩
    · refine ⟨found, h.of_ne hopen hwrote (fun heq => hid ?_) hproper hparent.timed, .same⟩
      exact hparent.jobId.symm.trans heq.symm

/-- **An operation that leaves the outcome alone** leaves a record with the same outcome. -/
theorem leaves (h : s.Keeps b id (some r)) (hop : op.LeavesOutcome id) (htime : t < Stamp.lastMicro) :
    ∃ r', (s.perform (.ofMicros t) op).2.Keeps b id (some r') ∧ r.SameOutcome r' := by
  have hfiled : r.Filed b id := h.filed r rfl
  obtain ⟨found', hkeeps, hmakes⟩ := h.perform op htime
  cases hmakes with
  | same => exact ⟨r, hkeeps, .refl r⟩
  | updated hupdates hr₁ =>
    have hsame := JobRecord.sameOutcome_of_metadata (hop _ hupdates) hfiled.timed hr₁
    exact ⟨_, hkeeps, hfiled.sameOutcome hsame⟩
  | noted he =>
    obtain rfl := Option.some.inj he
    exact ⟨_, hkeeps, hfiled.sameOutcome ⟨rfl, rfl, rfl, rfl, rfl, rfl, rfl⟩⟩

/-- **Stores that operations have made out of empty ones** keep something of every job, by induction on the
    operations. -/
theorem after (h : s.Keeps b id found) {cs : List TimedOp} (htime : ∀ c ∈ cs, c.clock < Stamp.lastMicro) :
    ∃ found', (s.after cs).Keeps b id found' := by
  induction cs generalizing s found with
  | nil => exact ⟨found, h⟩
  | cons c cs ih =>
    obtain ⟨found₁, hkeeps, -⟩ := h.perform c.op (htime c List.mem_cons_self)
    exact ih hkeeps fun d hd => htime d (.tail _ hd)

/-- Nothing is kept of a job in empty stores. -/
theorem empty (b : Backend) (id : String) : (Stores.empty b).Keeps b id none :=
  ⟨rfl, rfl, JobStore.sound_empty b, rfl, by simp⟩

end Stores.Keeps

end Runbook
