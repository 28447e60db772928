import Runbook.Proofs.PlainRecords
import Runbook.Proofs.RunUpdates

/-!
# `Proofs.QueueRecords` — how far a queue is, as its record tells it

The record of a queue tells how the queue stands, and of each step that was reached its worker, its job and
its status. This outline does not depend on the data in the record, and no backend changes it. So what an
update makes of a queue is a matter of outlines alone; and that the update is taken depends only on whether
the data can be written down.

## Contents
- **Outlines.** `StepOutline`, `QueueOutline`, and `QueueRecord.outline_of_hold`: what is read again has
  the outline of what was kept.
- **Records that can be kept.** `QueueRecord.Keepable`, and `Keepable.kept`.
- **Updates.** `stepUpdate`, and what it makes of a step and of a queue; what `QueueRecord.override` makes of a
  record, also when it fails.
- **Stores.** `QueueStore.Shows` and `QueueStore.Offers`, and what the operations make of them.
- **Worlds.** `Answers.queueWrite` and `Answers.getQueue`, what a world answers; `Answers.queues_eq`, what
  leaves the records of queues alone.
-/

namespace Runbook

/-! ## Outlines -/

/-- How far a step is: its worker, its job and its status. -/
structure StepOutline where
  worker : String
  job : String
  status : JobStatus

/-- How far a queue is. -/
structure QueueOutline where
  id : String
  status : QueueStatus
  totalSteps : Option Int
  steps : List StepOutline

def QueueStepRecord.outline (s : QueueStepRecord) : StepOutline := ⟨s.workerId, s.workerJobId, s.status⟩

def QueueRecord.outline (r : QueueRecord) : QueueOutline :=
  ⟨r.id, r.status, r.totalSteps, r.steps.map QueueStepRecord.outline⟩

namespace Decode

variable {α : Type} {fields : Keyed Value} {key : String} {v : Value} {a : α} {read : Value → Checked α}

theorem of_required_eq_ok (hv : fields.get? key = some v) (h : required fields (.plain key) read = .ok a) :
    read v = .ok a := by
  simp only [required, FieldName.find?, FieldName.plain, hv] at h
  exact Checked.under_eq_ok.mp h

theorem of_optional_eq_ok {default : α} (hv : fields.get? key = some v)
    (h : optional fields (.plain key) default read = .ok a) : read v = .ok a := by
  simp only [optional, FieldName.find?, FieldName.plain, hv] at h
  exact Checked.under_eq_ok.mp h

end Decode

/-- Items that were read, one by one. -/
theorem Checked.forall₂_of_items {α β : Type} {read : Value → Checked α} {write : β → Value} {items : List β}
    {out : List α} {n : Nat} (h : Checked.items read n (items.map write) = .ok out) :
    List.Forall₂ (fun b a => read (write b) = .ok a) items out := by
  induction items generalizing n out with
  | nil => exact Checked.ok.inj h ▸ .nil
  | cons b rest ih =>
    simp only [List.map_cons, Checked.items, Checked.seq_eq_ok, Checked.map_eq_ok] at h
    obtain ⟨_, _, ⟨a, ha, rfl⟩, hrest, rfl⟩ := h
    exact .cons (Checked.under_eq_ok.mp ha) (ih hrest)

namespace Backend

variable (b : Backend)

theorem keeps_status {s : QueueStatus} (h : ∀ v, s ≠ .other v) : b.keeps s.toValue = s.toValue := by
  cases s with
  | other v => exact absurd rfl (h v)
  | _ => exact b.keeps_text _

theorem keeps_ofInt? (n : Option Int) : b.keeps (Value.ofInt? n) = Value.ofInt? n :=
  b.keeps_of_isData (by cases n <;> rfl)

end Backend

/-- What is read again of a step has its outline. -/
theorem QueueStepRecord.outline_of_read {b : Backend} {s s' : QueueStepRecord}
    (h : QueueStepRecord.ofValue (b.keeps s.toValue) = .ok s') : s'.outline = s.outline := by
  simp only [QueueStepRecord.toValue, Backend.keeps_object, Backend.keepsFields_cons,
    Backend.keepsFields_nil, Backend.keeps_text] at h
  obtain ⟨hworker, hjob, hstatus, -⟩ := QueueStepRecord.ofValue_eq_ok.mp h
  have hworker := Decode.of_required_eq_ok rfl hworker
  have hworker : s.workerId = s'.workerId := Checked.ok.inj hworker
  have hjob := Decode.of_required_eq_ok rfl hjob
  have hjob : s.workerJobId = s'.workerJobId := Checked.ok.inj hjob
  have hstatus := Decode.of_required_eq_ok rfl hstatus
  rw [JobStatus.ofValue_word] at hstatus
  rw [outline, ← hworker, ← hjob, ← Checked.ok.inj hstatus]
  rfl

namespace QueueRecord

variable {b : Backend} {r r' : QueueRecord} {held : Held QueueRecord}

/-- **What is read again of a record has its outline.** -/
theorem outline_of_hold (hstatus : ∀ v, r.status ≠ .other v) (hheld : hold b r = .ok held)
    (hread : held.read = .ok r') : r'.outline = r.outline := by
  by_cases hb : b = .memory
  · subst hb
    obtain rfl := Except.ok.inj hheld
    rw [Except.ok.inj hread]
  · rw [hold_eq_document hb hheld] at hread
    have hfields : ofValue (b.keeps r.toValue) = .ok r' := Fault.ofChecked_eq_ok.mp hread
    rw [toValue, Backend.keeps_object] at hfields
    simp only [Backend.keepsFields_cons, Backend.keepsFields_nil, Backend.keeps_text,
      Backend.keeps_list] at hfields
    obtain ⟨hid, -, hstatus', hsteps, htotal, -⟩ := ofValue_eq_ok.mp hfields
    have hid := Decode.of_required_eq_ok rfl hid
    have hid : r.id = r'.id := Checked.ok.inj hid
    have htotal : r.totalSteps = r'.totalSteps := by
      have htotal := Decode.of_optional_eq_ok rfl htotal
      rw [b.keeps_ofInt?, Decode.nullable_ofInt?] at htotal
      exact Checked.ok.inj htotal
    have hstatus' : r.status = r'.status := by
      have hread := Decode.of_required_eq_ok rfl hstatus'
      rw [b.keeps_status hstatus, QueueStatus.read_toValue hstatus] at hread
      exact Checked.ok.inj hread
    have hsteps : r'.steps.map QueueStepRecord.outline = r.steps.map QueueStepRecord.outline := by
      have hread := Decode.of_required_eq_ok rfl hsteps
      rw [List.map_map] at hread
      have hread := Checked.forall₂_of_items (show Checked.items QueueStepRecord.ofValue 0
        (r.steps.map (b.keeps ∘ QueueStepRecord.toValue)) = .ok r'.steps from hread)
      -- step by step
      generalize r.steps = steps at hread ⊢
      generalize r'.steps = steps' at hread ⊢
      induction hread with
      | nil => rfl
      | cons hs _ ih => exact congrArg₂ List.cons (QueueStepRecord.outline_of_read hs) ih
    rw [outline, outline, ← hid, ← hstatus', ← htotal, hsteps]

end QueueRecord

/-! ## Records that can be kept -/

/-- **A step that can be written down.** -/
structure QueueStepRecord.Writable (s : QueueStepRecord) : Prop where
  input : s.input.unwritable? = none
  output : s.output.unwritable? = none

/-- **A queue record that can be written down.** -/
structure QueueRecord.Writable (r : QueueRecord) : Prop where
  steps : ∀ s ∈ r.steps, s.Writable
  metadata : Value.unwritableField? r.metadata = none

/-- **A record that a backend can keep.** A store in memory keeps any record. -/
structure QueueRecord.Keepable (b : Backend) (r : QueueRecord) : Prop where
  status : ∀ v, r.status ≠ .other v
  document : b ≠ .memory → r.Proper ∧ r.Writable

namespace Backend

variable (b : Backend)

/-- The step of a queue that a backend keeps. -/
def keepsStep (s : QueueStepRecord) : QueueStepRecord :=
  { s with
    input := b.keeps s.input
    output := b.keeps s.output }

/-- The queue record that a backend keeps. -/
def keepsQueue (r : QueueRecord) : QueueRecord :=
  { r with
    steps := r.steps.map b.keepsStep
    metadata := b.keepsFields r.metadata }

theorem keeps_step (s : QueueStepRecord) : b.keeps s.toValue = (b.keepsStep s).toValue := by
  simp only [QueueStepRecord.toValue, keepsStep, keeps_object, keepsFields_cons, keepsFields_nil,
    keeps_text, b.keeps_of_isData (ErrorInfo.isData_toValue? _),
    b.keeps_of_isData (Stamp.isData_toValue? _)]

theorem keeps_queue {r : QueueRecord} (h : r.Proper) : b.keeps r.toValue = (b.keepsQueue r).toValue := by
  have hsteps : (r.steps.map QueueStepRecord.toValue).map b.keeps
      = (r.steps.map b.keepsStep).map QueueStepRecord.toValue := by
    rw [List.map_map, List.map_map]
    exact List.map_congr_left fun s _ => b.keeps_step s
  have hfinish : b.keeps (Finish.toValue? r.completedAt) = Finish.toValue? r.completedAt := by
    cases hcompleted : r.completedAt with
    | none => exact b.keeps_null
    | some f =>
      obtain ⟨s, -, -, hvalue⟩ := Finish.dated_eq (h.completedAt f hcompleted)
      show b.keeps f.toValue = f.toValue
      rw [hvalue]
      exact b.keeps_text _
  simp only [QueueRecord.toValue, keepsQueue, keeps_object, keepsFields_cons, keepsFields_nil, keeps_text,
    keeps_list, b.keeps_status h.status, hsteps, b.keeps_ofInt?, hfinish, Stamp.toValue]

end Backend

theorem QueueStepRecord.Writable.toValue {s : QueueStepRecord} (h : s.Writable) :
    s.toValue.unwritable? = none := by
  simp [QueueStepRecord.toValue, Value.unwritable?, Value.unwritableField?,
    Value.unwritable?_of_isData (ErrorInfo.isData_toValue? _),
    Value.unwritable?_of_isData (Stamp.isData_toValue? _), h.input, h.output]

namespace QueueRecord

variable {b : Backend} {r : QueueRecord}

theorem Proper.keeps (h : r.Proper) (b : Backend) : (b.keepsQueue r).Proper where
  status := h.status
  steps := fun s hs => by
    obtain ⟨s, hmem, rfl⟩ := List.mem_map.mp hs
    exact ⟨(h.steps s hmem).startedAt, (h.steps s hmem).completedAt⟩
  createdAt := h.createdAt
  updatedAt := h.updatedAt
  completedAt := h.completedAt

theorem Writable.keeps (h : r.Writable) (b : Backend) : (b.keepsQueue r).Writable where
  steps := fun s hs => by
    obtain ⟨s, hmem, rfl⟩ := List.mem_map.mp hs
    exact ⟨b.unwritable?_keeps (h.steps s hmem).input, b.unwritable?_keeps (h.steps s hmem).output⟩
  metadata := b.unwritableField?_keepsFields h.metadata

/-- What a queue record consists of besides can always be written down. -/
theorem Writable.toValue (h : r.Writable) (hr : r.Proper) : r.toValue.unwritable? = none := by
  have hsteps : Value.unwritableItem? (r.steps.map QueueStepRecord.toValue) = none :=
    Value.unwritableItem?_eq_none.mpr (List.forall_mem_map.mpr fun s hs => (h.steps s hs).toValue)
  have hstatus : r.status.toValue.unwritable? = none := by
    cases hs : r.status with
    | other v => exact absurd hs (hr.status v)
    | _ => rfl
  have hcount : (Value.ofInt? r.totalSteps).unwritable? = none := by cases r.totalSteps <;> rfl
  have hfinish : (Finish.toValue? r.completedAt).unwritable? = none := by
    cases hcompleted : r.completedAt with
    | none => rfl
    | some f =>
      obtain ⟨s, -, -, hvalue⟩ := Finish.dated_eq (hr.completedAt f hcompleted)
      show f.toValue.unwritable? = none
      rw [hvalue]
      rfl
  simp [QueueRecord.toValue, Value.unwritable?, Value.unwritableField?, Stamp.toValue, hsteps, hstatus,
    hcount, hfinish, h.metadata]

/-- **A record that can be kept** is read again, and can be kept again. -/
theorem Keepable.kept (h : r.Keepable b) :
    ∃ held r', hold b r = .ok held ∧ held.read = .ok r' ∧ r'.outline = r.outline ∧ r'.Keepable b := by
  by_cases hb : b = .memory
  · subst hb
    exact ⟨.live r, r, rfl, rfl, rfl, h⟩
  · obtain ⟨hproper, hwritable⟩ := h.document hb
    obtain ⟨held, hheld⟩ : ∃ held, hold b r = .ok held :=
      World.hold_eq_ok (hwritable.toValue hproper)
    have hread : held.read = .ok (b.keepsQueue r).dated := by
      refine read_of_hold hheld (fun hmemory => absurd hmemory hb) fun _ => ?_
      show ofValue (b.keeps r.toValue) = _
      rw [b.keeps_queue hproper]
      exact ofValue_toValue (hproper.keeps b)
    refine ⟨held, _, hheld, hread, outline_of_hold h.status hheld hread, h.status, fun _ => ?_⟩
    exact ⟨(hproper.keeps b).dated, (hwritable.keeps b).steps, (hwritable.keeps b).metadata⟩

end QueueRecord

/-! ## Updates -/

/-- What is told of a step: its status, and one thing besides. -/
def stepUpdate (t : JobStatus) (key : String) (v : Value) : Keyed Value :=
  [("status", .text t.word), (key, v)]

/-- Besides the status only the one thing is told. -/
theorem newValue?_stepUpdate {t : JobStatus} {key field : String} {v v' : Value} (hfield : field ≠ "status")
    (h : Update.newValue? (stepUpdate t key v) field = some v') : key = field ∧ v' = v := by
  simp only [Update.newValue?, stepUpdate, Keyed.get?] at h
  rw [if_neg (Ne.symm hfield)] at h
  by_cases hkey : key = field
  · rw [if_pos hkey] at h
    refine ⟨hkey, ?_⟩
    cases v <;> first | exact (Option.some.inj h).symm | exact absurd h (by simp [Value.present?])
  · rw [if_neg hkey] at h
    exact absurd h (by simp [Value.present?])

namespace QueueStepRecord

variable {s s' : QueueStepRecord} {t : JobStatus} {key : String} {v : Value} {now : Stamp}

/-- A step has the status that was told of it. -/
theorem outline_of_update (h : s.update (stepUpdate t key v) now = .ok s') :
    s'.outline = ⟨s.workerId, s.workerJobId, t⟩ := by
  obtain ⟨hworker, hjob, hstatus, -⟩ := of_update h
  have hnew : Update.newValue? (stepUpdate t key v) "status" = some (.text t.word) := by
    simp [Update.newValue?, stepUpdate, Keyed.get?, Value.present?]
  simp only [Update.field, hnew, Checked.under_eq_ok, JobStatus.ofValue_word] at hstatus
  rw [outline, hworker, hjob, ← Checked.ok.inj hstatus]

/-- What a field holds after it was told something that can be written down. -/
theorem writable_of_field {old new : Value} {field : String} (hfield : field ≠ "status")
    (hv : key = field → v.unwritable? = none) (hold : old.unwritable? = none)
    (h : Update.field (stepUpdate t key v) field old Decode.anything = .ok new) :
    new.unwritable? = none := by
  unfold Update.field at h
  split at h
  · next v' hv' =>
    obtain ⟨hkey, rfl⟩ := newValue?_stepUpdate hfield hv'
    have hnew : v' = new := Checked.ok.inj (Checked.under_eq_ok.mp h)
    exact hnew ▸ hv hkey
  · exact Checked.ok.inj h ▸ hold

theorem writable_of_update (h : s.Writable) (hv : key ≠ "error" → v.unwritable? = none)
    (hs : s.update (stepUpdate t key v) now = .ok s') : s'.Writable := by
  obtain ⟨-, -, -, hinput, houtput, -⟩ := of_update hs
  constructor
  · exact writable_of_field (by simp) (fun hkey => hv (by simp [hkey])) h.input hinput
  · exact writable_of_field (by simp) (fun hkey => hv (by simp [hkey])) h.output houtput

/-- A step that waits has no times yet. -/
theorem proper_queued {worker job : String} : (queued worker job).Proper :=
  ⟨by simp [queued], by simp [queued]⟩

/-- What can be told of a step besides its status: an error only when it can be read. -/
def Tellable (key : String) (v : Value) : Prop :=
  key = "input" ∨ key = "output" ∨ key = "error" ∧ ∃ e, ErrorInfo.ofUpdate? v = .ok e

/-- No times are told. -/
theorem newTime_of_tellable {field : String} (hfield : field = "started_at" ∨ field = "completed_at")
    (h : Tellable key v) (transition : Option Stamp) :
    newTime (stepUpdate t key v) field transition = .ok transition := by
  have hnone : Keyed.get? (stepUpdate t key v) field = none := by
    rcases hfield with rfl | rfl <;> rcases h with rfl | rfl | ⟨rfl, -⟩ <;> simp [stepUpdate, Keyed.get?]
  simp [newTime, hnone]

theorem revise_taken (s : QueueStepRecord) (t : JobStatus) (error : Option ErrorInfo) (now : Stamp)
    (h : Tellable key v) : ∃ s', s.revise (stepUpdate t key v) error now = .ok s' := by
  have hfield (field : String) (old : Value) :
      ∃ new, Update.field (stepUpdate t key v) field old Decode.anything = .ok new := by
    unfold Update.field
    split <;> exact ⟨_, rfl⟩
  obtain ⟨input, hinput⟩ := hfield "input" s.input
  obtain ⟨output, houtput⟩ := hfield "output" s.output
  have hstatus : Update.field (stepUpdate t key v) "status" s.status JobStatus.ofValue = .ok t := by
    simp [Update.field, Update.newValue?, stepUpdate, Keyed.get?, Value.present?, JobStatus.ofValue_word,
      Checked.under]
  simp only [revise, hstatus, hinput, houtput, newTime_of_tellable (.inl rfl) h,
    newTime_of_tellable (.inr rfl) h]
  exact ⟨_, rfl⟩

/-- **What is told of a step is taken.** -/
theorem update_taken (s : QueueStepRecord) (t : JobStatus) (now : Stamp) (h : Tellable key v) :
    ∃ s', s.update (stepUpdate t key v) now = .ok s' := by
  unfold update
  split
  · next v' hv' =>
    obtain ⟨rfl, rfl⟩ := newValue?_stepUpdate (by simp) hv'
    obtain ⟨e, he⟩ : ∃ e, ErrorInfo.ofUpdate? v' = .ok e := by simpa [Tellable] using h
    obtain ⟨s', hs'⟩ := s.revise_taken t e now h
    exact ⟨s', by simp [he, hs', bind, Except.bind, Fault.ofChecked]⟩
  · obtain ⟨s', hs'⟩ := s.revise_taken t s.error now h
    exact ⟨s', Fault.ofChecked_eq_ok.mpr hs'⟩

end QueueStepRecord

namespace QueueOutline

/-- The workers that have completed their jobs. -/
def completed (done : List (String × String)) : List StepOutline :=
  done.map fun (worker, job) => ⟨worker, job, .completed⟩

/-- **A queue of `n` steps between two of them**: the steps that were reached are completed. -/
def passed (id : String) (n : Nat) (done : List (String × String)) : QueueOutline :=
  ⟨id, if done.length = n then .completed else .running, some n, completed done⟩

/-- **A queue of `n` steps at one of them**, which has a status; those before are completed. -/
def reached (id : String) (n : Nat) (done : List (String × String)) (worker job : String)
    (t : JobStatus) : QueueOutline :=
  ⟨id, if t = .failed then .failed else .running, some n, completed done ++ [⟨worker, job, t⟩]⟩

/-- The queue after a status was told of the step that it is at. -/
def told (id : String) (n : Nat) (done : List (String × String)) (worker job : String) (t : JobStatus) :
    QueueOutline :=
  if t = .completed then passed id n (done ++ [(worker, job)]) else reached id n done worker job t

theorem completed_append (done : List (String × String)) (worker job : String) :
    completed (done ++ [(worker, job)]) = completed done ++ [⟨worker, job, .completed⟩] := by
  simp [completed]

theorem status_of_mem_completed {done : List (String × String)} {s : StepOutline} (h : s ∈ completed done) :
    s.status = .completed := by
  obtain ⟨⟨worker, job⟩, -, rfl⟩ := List.mem_map.mp h
  rfl

/-- What is told of a queue says how it stands. -/
theorem status_told (id : String) (n : Nat) (done : List (String × String)) (worker job : String)
    (t : JobStatus) (v : Value) : (told id n done worker job t).status ≠ .other v := by
  unfold told passed reached
  split <;> dsimp only <;> split <;> simp

@[simp] theorem length_completed (done : List (String × String)) : (completed done).length = done.length := by
  simp [completed]

end QueueOutline

namespace QueueRecord

open QueueOutline

variable {b : Backend} {r r' : QueueRecord} {id queueId worker job key : String} {n : Nat}
  {done : List (String × String)} {t t₀ : JobStatus} {v : Value} {now : Stamp}

/-- A new record. -/
theorem create_eq (id queueId worker job : String) (initial : Value) (n : Nat) (now : Stamp) :
    create id queueId worker job (.object [("input", initial)]) (.int n) now
      = .ok ⟨id, queueId, .running, [.queued worker job], some n, [("input", initial)], now, now, none⟩ :=
  rfl

theorem outline_appendStep (h : r.outline = passed id n done) (hn : done.length < n) (now : Stamp) :
    (r.appendStep worker job now).outline = reached id n done worker job .queued := by
  obtain ⟨hid, hstatus, htotal, hsteps⟩ := QueueOutline.mk.inj h
  rw [if_neg (by omega)] at hstatus
  simp [outline, appendStep, reached, hid, hstatus, htotal, hsteps, QueueStepRecord.outline,
    QueueStepRecord.queued]

theorem position_of_lt {i : Nat} (h : i < r.steps.length) : r.position (.int i) = .ok i := by
  have hinside : r.isOutside (.int i) = false := by
    simp [isOutside, Value.integer?]
    omega
  simp [position, hinside, Value.integer?]

/-- The step that a queue is at. -/
theorem step_of_reached (h : r.outline = reached id n done worker job t) :
    ∃ before step, r.steps = before ++ [step] ∧ before.length = done.length
      ∧ before.map QueueStepRecord.outline = completed done ∧ step.outline = ⟨worker, job, t⟩ := by
  have hsteps : r.steps.map QueueStepRecord.outline = completed done ++ [⟨worker, job, t⟩] :=
    congrArg QueueOutline.steps h
  obtain ⟨before, last, hsplit, hbefore, hlast⟩ := List.map_eq_append_iff.mp hsteps
  obtain ⟨step, rfl, hstep⟩ := List.map_eq_singleton_iff.mp hlast
  refine ⟨before, step, hsplit, ?_, hbefore, hstep⟩
  rw [← length_completed done, ← hbefore, List.length_map]

/-- The status of a queue after its step at `i` took a status. -/
theorem status_follow {i : Nat} (htotal : r.totalSteps = some (n : Int)) (hn : i < n) (t : JobStatus)
    (now : Stamp) : (r.follow i (some t.word) now).status
      = if t = .failed then .failed else if t = .completed ∧ i + 1 = n then .completed else r.status := by
  have hcount : r.lastCount = n := by
    unfold lastCount
    rw [htotal]
    split
    · next h => simp only [Option.some.injEq] at h; omega
    · next h => simp at h
    · next h => exact (Option.some.inj h).symm
  have hlast : (i : Int) = r.lastCount - 1 ↔ i + 1 = n := by rw [hcount]; omega
  cases t with
  | queued => simp [follow, JobStatus.word]
  | running => simp [follow, JobStatus.word]
  | failed => simp [follow, JobStatus.word]
  | completed =>
    by_cases hi : i + 1 = n
    · simp [follow, JobStatus.word, hlast, hi]
    · simp [follow, JobStatus.word, hlast, hi]

theorem follow_same (r : QueueRecord) (i : Nat) (status : Option String) (now : Stamp) :
    (r.follow i status now).id = r.id ∧ (r.follow i status now).totalSteps = r.totalSteps
      ∧ (r.follow i status now).steps = r.steps ∧ (r.follow i status now).metadata = r.metadata := by
  unfold follow
  split
  · exact ⟨rfl, rfl, rfl, rfl⟩
  · split <;> exact ⟨rfl, rfl, rfl, rfl⟩

/-- An update of the step that a queue is at changes this step, and the queue follows. -/
theorem updateStep_eq (h : r.outline = reached id n done worker job t₀) (t : JobStatus) (key : String)
    (v : Value) (now : Stamp) :
    ∃ before step, r.steps = before ++ [step] ∧ before.map QueueStepRecord.outline = completed done
      ∧ step.outline = ⟨worker, job, t₀⟩
      ∧ r.updateStep (.int done.length) (stepUpdate t key v) now =
        (fun step' => ({ r with steps := before ++ [step'], updatedAt := now } : QueueRecord).follow
          done.length (some t.word) now) <$> step.update (stepUpdate t key v) now := by
  obtain ⟨before, step, hsteps, hlength, hbefore, hstep⟩ := step_of_reached h
  refine ⟨before, step, hsteps, hbefore, hstep, ?_⟩
  have hlt : done.length < r.steps.length := by
    rw [hsteps, List.length_append, hlength]
    exact Nat.lt_succ_self _
  have hget : r.steps[done.length]? = some step := by
    rw [hsteps, ← hlength]
    simp
  have hset (step' : QueueStepRecord) : r.steps.set done.length step' = before ++ [step'] := by
    rw [hsteps, ← hlength]
    simp
  unfold updateStep
  rw [position_of_lt hlt]
  simp only [bind, Except.bind, hget, hset]
  cases step.update (stepUpdate t key v) now <;> rfl

/-- **What an update makes of a queue**: the step has the status that was told, and the queue is completed
    with its last step and has failed with a step that failed. -/
theorem outline_of_updateStep (h : r.outline = reached id n done worker job t₀) (ht₀ : t₀ ≠ .failed)
    (hn : done.length < n)
    (htold : r.updateStep (.int done.length) (stepUpdate t key v) now = .ok r') :
    r'.outline = told id n done worker job t := by
  obtain ⟨before, step, -, hbefore, hstep, heq⟩ := updateStep_eq h t key v now
  obtain ⟨step', hupdate, rfl⟩ := Fault.map_eq_ok.mp (heq.symm.trans htold)
  obtain ⟨hid, hstatus, htotal, -⟩ := QueueOutline.mk.inj h
  rw [if_neg ht₀] at hstatus
  obtain ⟨hworker, hjob, -⟩ := StepOutline.mk.inj hstep
  have hstep' : step'.outline = ⟨worker, job, t⟩ := by
    rw [QueueStepRecord.outline_of_update hupdate, hworker, hjob]
  have hfollow := status_follow (r := { r with steps := before ++ [step'], updatedAt := now }) htotal hn t now
  obtain ⟨hid', htotal', hsteps', -⟩ := follow_same { r with steps := before ++ [step'], updatedAt := now }
    done.length (some t.word) now
  rw [outline, hid', htotal', hsteps', hfollow, hid, htotal, hstatus, List.map_append, hbefore,
    List.map_singleton, hstep']
  cases t with
  | completed => simp [told, passed, completed_append]
  | _ =>
    -- the queue stays at this step
    simp [told, reached]

/-- **An update of the step that a queue is at is taken**, when what is told can be. -/
theorem updateStep_taken (h : r.outline = reached id n done worker job t₀) (t : JobStatus) (now : Stamp)
    (htell : QueueStepRecord.Tellable key v) :
    ∃ r', r.updateStep (.int done.length) (stepUpdate t key v) now = .ok r' := by
  obtain ⟨before, step, -, -, -, heq⟩ := updateStep_eq h t key v now
  obtain ⟨step', hstep'⟩ := step.update_taken t now htell
  exact ⟨_, heq.trans (by rw [hstep']; rfl)⟩

/-- A proper time of completion. -/
theorem endTime_proper (hr : r.Proper) (hnow : now.Proper) : ∀ f ∈ r.endTime now, f.Proper := by
  intro f hf
  unfold endTime at hf
  cases hcompleted : r.completedAt with
  | none =>
    rw [hcompleted] at hf
    obtain rfl := Option.some.inj hf
    exact hnow
  | some g =>
    have hg := hr.completedAt g hcompleted
    rw [hcompleted, Finish.given?_eq hg] at hf
    exact Option.some.inj hf ▸ hg

theorem Proper.follow (hr : r.Proper) (hnow : now.Proper) (i : Nat) (status : Option String) :
    (r.follow i status now).Proper := by
  unfold QueueRecord.follow
  split
  · exact ⟨by simp, hr.steps, hr.createdAt, hr.updatedAt, endTime_proper hr hnow⟩
  · split
    · exact ⟨by simp, hr.steps, hr.createdAt, hr.updatedAt, endTime_proper hr hnow⟩
    · exact hr

/-- A record whose last step was exchanged or added. -/
theorem Proper.steps_changed {before : List QueueStepRecord} {step : QueueStepRecord} (hr : r.Proper)
    (hbefore : before ⊆ r.steps) (hstep : step.Proper) (hnow : now.Proper) :
    ({ r with steps := before ++ [step], updatedAt := now } : QueueRecord).Proper where
  status := hr.status
  steps := List.forall_mem_append.mpr
    ⟨fun s hs => hr.steps s (hbefore hs), List.forall_mem_singleton.mpr hstep⟩
  createdAt := hr.createdAt
  updatedAt := hnow
  completedAt := hr.completedAt

theorem Writable.steps_changed {before : List QueueStepRecord} {step : QueueStepRecord} (hr : r.Writable)
    (hbefore : before ⊆ r.steps) (hstep : step.Writable) :
    ({ r with steps := before ++ [step], updatedAt := now } : QueueRecord).Writable where
  steps := List.forall_mem_append.mpr
    ⟨fun s hs => hr.steps s (hbefore hs), List.forall_mem_singleton.mpr hstep⟩
  metadata := hr.metadata

theorem Writable.follow (hr : r.Writable) (i : Nat) (status : Option String) (now : Stamp) :
    (r.follow i status now).Writable := by
  obtain ⟨-, -, hsteps, hmetadata⟩ := follow_same r i status now
  exact ⟨hsteps ▸ hr.steps, hmetadata ▸ hr.metadata⟩

/-- **A record that can be kept** can be kept after an update with what can be written down. -/
theorem Keepable.updateStep (hr : r.Keepable b) (h : r.outline = reached id n done worker job t₀)
    (hn : done.length < n) (hnow : b ≠ .memory → now.Proper)
    (hv : b ≠ .memory → key ≠ "error" → v.unwritable? = none)
    (htold : r.updateStep (.int done.length) (stepUpdate t key v) now = .ok r') : r'.Keepable b := by
  obtain ⟨before, step, hsteps, -, -, heq⟩ := updateStep_eq h t key v now
  obtain ⟨step', hupdate, rfl⟩ := Fault.map_eq_ok.mp (heq.symm.trans htold)
  constructor
  · -- the queue follows its step, or keeps the status that it has
    intro other
    have hfollow := status_follow (r := { r with steps := before ++ [step'], updatedAt := now })
      (congrArg QueueOutline.totalSteps h) hn t now
    rw [hfollow]
    split
    · simp
    · split
      · simp
      · exact hr.status other
  · intro hb
    obtain ⟨hproper, hwritable⟩ := hr.document hb
    have hstep : step ∈ r.steps := by rw [hsteps]; simp
    have hbefore : before ⊆ r.steps := by
      rw [hsteps]
      exact List.subset_append_left _ _
    have hproper' := (QueueStepRecord.of_update hupdate).2.2.2.2.2 (hproper.steps step hstep) (hnow hb)
    have hwritable' := QueueStepRecord.writable_of_update (hwritable.steps step hstep) (hv hb) hupdate
    constructor
    · exact (hproper.steps_changed hbefore hproper' (hnow hb)).follow (hnow hb) _ _
    · exact (hwritable.steps_changed hbefore hwritable').follow _ _ _

theorem Keepable.appendStep (hr : r.Keepable b) (hnow : b ≠ .memory → now.Proper) :
    (r.appendStep worker job now).Keepable b := by
  refine ⟨hr.status, fun hb => ?_⟩
  obtain ⟨hproper, hwritable⟩ := hr.document hb
  constructor
  · exact hproper.steps_changed (List.Subset.refl _) QueueStepRecord.proper_queued (hnow hb)
  · exact hwritable.steps_changed (List.Subset.refl _) ⟨rfl, rfl⟩

/-- A new record can be kept, when the first input can be written down. -/
theorem keepable_new (id queueId worker job : String) (n : Nat) {initial : Value} (hnow : b ≠ .memory → now.Proper)
    (hinitial : b ≠ .memory → initial.unwritable? = none) :
    Keepable b ⟨id, queueId, .running, [.queued worker job], some n, [("input", initial)], now, now,
      none⟩ := by
  refine ⟨by simp, fun hb => ⟨⟨by simp, ?_, hnow hb, hnow hb, by simp⟩, ?_, ?_⟩⟩
  · exact List.forall_mem_singleton.mpr QueueStepRecord.proper_queued
  · exact List.forall_mem_singleton.mpr ⟨rfl, rfl⟩
  · simp [Value.unwritableField?, hinitial hb]

/-- **A record whose metadata could not be changed** has taken the status all the same. -/
theorem override_eq_error {status : Value} {updates : Keyed Value} {f : Fault} :
    r.override status updates now = (r', some f) ↔
      Update.overlay (r.withStatus status now).metadata ((updates.get? "metadata").getD .null) = .error f
        ∧ r' = r.withStatus status now := by
  unfold override
  dsimp only
  cases Update.overlay (r.withStatus status now).metadata ((updates.get? "metadata").getD .null) with
  | error g => simp [and_comm, eq_comm]
  | ok metadata => simp

/-- What an update from outside makes of a record. -/
theorem override_eq_none {status : Value} {updates : Keyed Value} :
    r.override status updates now = (r', none) ↔ ∃ metadata,
      Update.overlay (r.withStatus status now).metadata ((updates.get? "metadata").getD .null) = .ok metadata
        ∧ r' = { ({ r.withStatus status now with metadata }.withFinish updates) with updatedAt := now } := by
  unfold override
  dsimp only
  cases Update.overlay (r.withStatus status now).metadata ((updates.get? "metadata").getD .null) with
  | error g => simp
  | ok metadata => simp [eq_comm]

end QueueRecord

/-! ## Stores -/

namespace QueueStore

open QueueOutline

variable {s s' : QueueStore} {o o' : QueueOutline} {r r' : QueueRecord} {now : Stamp}
  {f : QueueRecord → Except Fault QueueRecord}

/-- **What a store shows of a queue**, if anything can be read of it. -/
def Shows (s : QueueStore) (o : QueueOutline) : Prop :=
  ∀ found, s.get o.id = .ok found → ∃ r, found = some r ∧ r.outline = o

/-- **A store offers the record of a queue**: it can be read, and can be kept again. -/
def Offers (s : QueueStore) (o : QueueOutline) : Prop :=
  ∃ r, s.get o.id = .ok (some r) ∧ r.outline = o ∧ r.Keepable s.backend

theorem keep_eq_ok (h : s.keep r = .ok s') : ∃ held, hold s.backend r = .ok held
    ∧ s'.backend = s.backend ∧ s'.get r.id = some <$> held.read := by
  obtain ⟨held, hheld, h⟩ := Fault.bind_eq_ok.mp h
  refine ⟨held, hheld, ?_⟩
  rw [← Except.ok.inj h]
  exact ⟨rfl, Keyed.readHeld_put_self ..⟩

theorem Shows.of_keep (hstatus : ∀ v, r.status ≠ .other v) (h : s.keep r = .ok s') :
    s'.Shows r.outline := by
  obtain ⟨held, hheld, -, hget⟩ := keep_eq_ok h
  intro found hfound
  obtain ⟨r', hread, rfl⟩ := Fault.map_eq_ok.mp (hget.symm.trans hfound)
  exact ⟨r', rfl, QueueRecord.outline_of_hold hstatus hheld hread⟩

theorem Offers.of_keep (hr : r.Keepable s.backend) :
    ∃ s', s.keep r = .ok s' ∧ s'.Offers r.outline ∧ s'.backend = s.backend := by
  obtain ⟨held, r', hheld, hread, houtline, hr'⟩ := hr.kept
  obtain ⟨s', hs'⟩ : ∃ s', s.keep r = .ok s' := by
    unfold keep
    rw [hheld]
    exact ⟨_, rfl⟩
  obtain ⟨held', hheld', hbackend, hget⟩ := keep_eq_ok hs'
  obtain rfl := Except.ok.inj (hheld'.symm.trans hheld)
  refine ⟨s', hs', ⟨r', ?_, houtline, hbackend ▸ hr'⟩, hbackend⟩
  show s'.get r.id = _
  rw [hget, hread]
  rfl

/-- **A record can be replaced**: a key-value store has to read the one that stands under the id. -/
def Replaceable (s : QueueStore) (id : String) : Prop := s.backend = .redis → ∃ found, s.get id = .ok found

theorem readReplaced_eq_ok {id : String} {u : Unit} : s.readReplaced id = .ok u ↔ s.Replaceable id := by
  unfold readReplaced Replaceable
  split
  · next hb =>
    rw [forall_prop_of_true hb, Fault.map_eq_ok]
    exact exists_congr fun _ => and_iff_left rfl
  · next hb => exact ⟨fun _ h => absurd h hb, fun _ => rfl⟩

/-- **A new record that is kept**, in place of one that could be read if it had to be. -/
theorem create_eq_ok : s.create r = .ok (r', s') ↔
    s.Replaceable r.id ∧ ∃ s₁, s.keep r = .ok s₁ ∧ r' = r ∧ s' = s₁.note r := by
  unfold create
  simp only [Fault.bind_eq_ok, readReplaced_eq_ok, exists_const]
  refine and_congr_right fun _ => exists_congr fun s₁ => and_congr_right fun _ => ?_
  simp [pure, Except.pure, eq_comm]

theorem Shows.create (hstatus : ∀ v, r.status ≠ .other v) (h : s.create r = .ok (r', s')) :
    s'.Shows r.outline := by
  obtain ⟨-, s₁, hkeep, -, rfl⟩ := create_eq_ok.mp h
  have hshows : s₁.Shows r.outline := .of_keep hstatus hkeep
  exact hshows

theorem Offers.create (hr : r.Keepable s.backend) (hold : s.Replaceable r.id) :
    ∃ s', s.create r = .ok (r, s') ∧ s'.Offers r.outline ∧ s'.backend = s.backend := by
  obtain ⟨s₁, hkeep, hoffers, hbackend⟩ := of_keep hr
  exact ⟨s₁.note r, create_eq_ok.mpr ⟨hold, s₁, hkeep, rfl, rfl⟩, hoffers, hbackend⟩

/-- Changes the record of a queue that must exist. -/
def change (s : QueueStore) (id : String) (f : QueueRecord → Except Fault QueueRecord) :
    Except Fault (QueueRecord × QueueStore) := do
  let r ← f (← s.require id)
  return (r, ← s.keep r)

theorem require_eq_ok {id : String} : s.require id = .ok r ↔ s.get id = .ok (some r) := by
  unfold require
  cases s.get id with
  | error e => simp [bind, Except.bind]
  | ok found => cases found <;> simp [bind, Except.bind, pure, Except.pure]

theorem Shows.change (hs : s.Shows o) (hstatus : ∀ v, o'.status ≠ .other v)
    (hf : ∀ r r', r.outline = o → f r = .ok r' → r'.outline = o')
    (h : s.change o.id f = .ok (r', s')) : s'.Shows o' := by
  obtain ⟨r, hr, h⟩ := Fault.bind_eq_ok.mp h
  obtain ⟨r₁, hr₁, h⟩ := Fault.bind_eq_ok.mp h
  obtain ⟨s₁, hs₁, h⟩ := Fault.bind_eq_ok.mp h
  obtain ⟨rfl, rfl⟩ := Prod.mk.inj (Except.ok.inj h)
  obtain ⟨r₀, hfound, houtline⟩ := hs _ (require_eq_ok.mp hr)
  obtain rfl := Option.some.inj hfound
  obtain rfl := hf r r₁ houtline hr₁
  exact .of_keep hstatus hs₁

theorem Offers.change (hs : s.Offers o) (o' : QueueOutline)
    (hf : ∀ r, r.outline = o → r.Keepable s.backend →
      ∃ r', f r = .ok r' ∧ r'.outline = o' ∧ r'.Keepable s.backend) :
    ∃ r' s', s.change o.id f = .ok (r', s') ∧ s'.Offers o' ∧ s'.backend = s.backend := by
  obtain ⟨r, hr, houtline, hkeepable⟩ := hs
  obtain ⟨r', hr', rfl, hkeepable'⟩ := hf r houtline hkeepable
  obtain ⟨s', hs', hoffers, hbackend⟩ := Offers.of_keep hkeepable'
  refine ⟨r', s', ?_, hoffers, hbackend⟩
  unfold QueueStore.change
  rw [require_eq_ok.mpr hr]
  simp [bind, Except.bind, hr', hs', pure, Except.pure]

theorem appendStep_eq (s : QueueStore) (id worker job : String) (now : Stamp) :
    s.appendStep id worker job now = s.change id fun r => .ok (r.appendStep worker job now) := rfl

theorem updateStep_eq (s : QueueStore) (id : String) (index : Value) (updates : Keyed Value) (now : Stamp) :
    s.updateStep id index updates now = s.change id fun r => r.updateStep index updates now := rfl

/-- **What is set of a queue from outside** is answered with the record that is kept. -/
theorem of_override_eq_ok {id : String} {status : Value} {updates : Keyed Value}
    (h : s.override id status updates now = (.ok r', s')) :
    ∃ r, s.get id = .ok (some r) ∧ r.override status updates now = (r', none) ∧ s.keep r' = .ok s' := by
  unfold override at h
  cases hfound : s.require id with
  | error f =>
    rw [hfound] at h
    exact absurd (congrArg Prod.fst h) nofun
  | ok r =>
    rw [hfound] at h
    dsimp only at h
    split at h
    · next r₁ hr =>
      cases hkeep : s.keep r₁ with
      | error f =>
        rw [hkeep] at h
        exact absurd (congrArg Prod.fst h) nofun
      | ok s₁ =>
        rw [hkeep] at h
        obtain ⟨rfl, rfl⟩ : r₁ = r' ∧ s₁ = s' := ⟨Except.ok.inj (congrArg Prod.fst h), congrArg Prod.snd h⟩
        exact ⟨r, require_eq_ok.mp hfound, hr, hkeep⟩
    · split at h <;> exact absurd (congrArg Prod.fst h) nofun

end QueueStore

/-! ## Worlds -/

/-- What an operation that writes the record of a queue makes of the store. -/
def StoreOp.queueWrite? (op : StoreOp) (s : QueueStore) (now : Stamp) :
    Option (Except Fault (QueueRecord × QueueStore)) :=
  match op with
  | .createQueue id queueId worker job metadata total =>
    some (QueueRecord.create id queueId worker job metadata total now >>= s.create)
  | .appendStep id worker job => some (s.appendStep id worker job now)
  | .updateStep id index updates => some (s.updateStep id index updates now)
  | _ => none

/-- Calls that leave the records of queues alone. -/
def Call.sparesQueues : Call → Bool
  | .store (.createQueue ..) | .store (.appendStep ..) | .store (.updateStep ..)
  | .store (.updateQueue ..) => false
  | _ => true

theorem Call.Performs.sparesQueues_eq {c : Call} {op : StoreOp} (h : c.Performs op) :
    (Call.store op).sparesQueues = c.sparesQueues := by
  cases h <;> rfl

namespace Stores

variable {s : Stores} {op : StoreOp} {now : Stamp} {e : Except Fault (QueueRecord × QueueStore)}

/-- What is answered to a write of a queue record, and what it leaves behind. -/
def writingQueue (s : Stores) (e : Except Fault (QueueRecord × QueueStore)) : Outcome :=
  s.writing ((fun (r, queues) => (r, { s with queues })) <$> e) fun r => .queue (some r)

theorem performOpen_queueWrite (h : op.queueWrite? s.queues now = some e) :
    s.performOpen now op = s.writingQueue e := by
  cases op with
  | createQueue id queueId worker job metadata total =>
    obtain rfl := Option.some.inj h
    simp only [performOpen, writingQueue]
    cases QueueRecord.create id queueId worker job metadata total now with
    | error f => rfl
    | ok r =>
      show s.writing (s.queues.create r >>= _) _ = s.writing (_ <$> s.queues.create r) _
      cases s.queues.create r <;> rfl
  | appendStep id worker job =>
    obtain rfl := Option.some.inj h
    rfl
  | updateStep id index updates =>
    obtain rfl := Option.some.inj h
    rfl
  | _ => exact absurd h (by simp [StoreOp.queueWrite?])

/-- Only writes of queue records change what is kept of queues. -/
theorem perform_queues (h : (Call.store op).sparesQueues = true) :
    (s.perform now op).2.queues = s.queues :=
  (s.perform_touches now op).queues_eq (by cases op <;> simp_all [Call.sparesQueues, StoreOp.writes?])

end Stores

namespace World

variable {w w' : World} {d : Deed} {step : Option StepPath} {op : StoreOp} {id : String}
  {answer : Except Fault StoreAnswer} {start stop : Clock} {e : Except Fault (QueueRecord × QueueStore)}

theorem Answers.store (h : w.Answers ⟨step, .store op, answer, start, stop⟩ w') :
    answer = (w.stores.perform w'.stamp op).1 ∧ w'.stores = (w.stores.perform w'.stamp op).2 := by
  obtain ⟨rfl, rfl⟩ := Progress.now.inj (h.step_eq rfl).2.2
  exact ⟨rfl, rfl⟩

/-- **A write of a queue record** is taken by stores that are open when it can be done; otherwise it changes
    nothing. -/
theorem Answers.queueWrite (h : w.Answers ⟨step, .store op, answer, start, stop⟩ w')
    (hop : op.queueWrite? w.stores.queues w'.stamp = some e) :
    (∃ r queues, w.stores.isOpen = true ∧ e = .ok (r, queues) ∧ answer = .ok (.queue (some r))
        ∧ w'.stores = { w.stores with queues })
      ∨ ∃ f, answer = .error f ∧ w'.stores = w.stores ∧ (w.stores.isOpen = true → e = .error f) := by
  obtain ⟨hanswer, hstores⟩ := h.store
  by_cases hopen : w.stores.isOpen = true
  · rw [Stores.perform, if_pos hopen, Stores.performOpen_queueWrite hop] at hanswer hstores
    cases e with
    | ok written => exact .inl ⟨written.1, written.2, hopen, rfl, hanswer, hstores⟩
    | error f => exact .inr ⟨f, hanswer, hstores, fun _ => rfl⟩
  · -- stores that are closed refuse whatever they are asked
    rw [Stores.perform, if_neg hopen] at hanswer hstores
    exact .inr ⟨_, hanswer, hstores, fun h => absurd h hopen⟩

/-- What is found of a queue, in stores that are open. -/
theorem Answers.getQueue (h : w.Answers ⟨step, .store (.getQueue id), answer, start, stop⟩ w') :
    (w.stores.isOpen = true ∧ answer = StoreAnswer.queue <$> w.stores.queues.get id)
      ∨ w.stores.isOpen = false ∧ ∃ f, answer = .error f := by
  obtain ⟨hanswer, -⟩ := h.store
  by_cases hopen : w.stores.isOpen = true
  · rw [Stores.perform, if_pos hopen] at hanswer
    exact .inl ⟨hopen, hanswer⟩
  · rw [Stores.perform, if_neg hopen] at hanswer
    exact .inr ⟨by simpa using hopen, _, hanswer⟩

/-- What does not write records of queues leaves them alone. -/
theorem Answers.queues_eq (h : w.Answers d w') (hd : d.call.sparesQueues = true) :
    w'.stores.queues = w.stores.queues ∧ w'.stores.isOpen = w.stores.isOpen := by
  refine ⟨?_, h.fixed.isOpen⟩
  rcases h.stores_cases with hsame | ⟨op, hop, hstores⟩
  · rw [hsame]
  · rw [hstores]
    exact Stores.perform_queues (hop.sparesQueues_eq.trans hd)

end World

end Runbook
