import Runbook.Proofs.JobRecords
import Runbook.Proofs.Stamps
import Runbook.Store.Stores

/-!
# `Proofs.Documents` — records are read again as they were

A record whose stamps are proper has a document, unless it holds a function; and what is read from the
document is the record again, with the values that JSON has of its values. So for each kind of records it
is known exactly what a store reads back.

## Contents
- **Fields.** Reading a field of a mapping, and the parts of records.
- **Kinds of records.** `RunRecord.ofValue_toValue`, `JobRecord.ofValue_toValue` and
  `QueueRecord.ofValue_toValue`, for records that are `Proper`.
- **Held records.** `read_of_hold`; `Backend.keepsJob`, what a backend makes of a job.
-/

namespace Runbook

/-! ## Fields -/

namespace Decode

variable {α : Type} {fields : Keyed Value} {key : String} {v : Value} {a : α} {read : Value → Checked α}

theorem required_eq_ok (hv : fields.get? key = some v) (ha : read v = .ok a) :
    required fields (.plain key) read = .ok a := by
  simp [required, FieldName.find?, FieldName.plain, hv, ha, Checked.under]

theorem optional_eq_ok {default : α} (hv : fields.get? key = some v) (ha : read v = .ok a) :
    optional fields (.plain key) default read = .ok a := by
  simp [optional, FieldName.find?, FieldName.plain, hv, ha, Checked.under]

theorem option_eq_ok {a : Option α} (hv : fields.get? key = some v) (ha : nullable read v = .ok a) :
    option fields (.plain key) read = .ok a := optional_eq_ok hv ha

theorem nullable_ofText? (s : Option String) : nullable text (.ofText? s) = .ok s := by
  cases s <;> rfl

theorem nullable_ofInt? (n : Option Int) : nullable whole (.ofInt? n) = .ok n := by
  cases n <;> rfl

theorem nullable_error (e : Option ErrorInfo) :
    nullable ErrorInfo.ofValue (ErrorInfo.toValue? e) = .ok e := by
  cases e with
  | none => rfl
  | some e => obtain ⟨message, stack⟩ := e; cases stack <;> rfl

theorem nullable_stamp {s : Option Stamp} (h : ∀ t ∈ s, t.Proper) :
    nullable stamp (Stamp.toValue? s) = .ok s := by
  cases s with
  | none => rfl
  | some s =>
    show (stamp s.toValue).map some = .ok (some s)
    rw [stamp_toValue (h s rfl)]
    rfl

end Decode

theorem JobStatus.ofValue_word (s : JobStatus) : JobStatus.ofValue (.text s.word) = .ok s := by
  cases s <;> rfl

/-- Items are read one by one. -/
theorem Checked.items_map {α : Type} {read : Value → Checked α} {write : α → Value}
    {items : List α} (h : ∀ a ∈ items, read (write a) = .ok a) (n : Nat) :
    Checked.items read n (items.map write) = .ok items := by
  induction items generalizing n with
  | nil => rfl
  | cons a rest ih =>
    rw [List.map_cons, Checked.items, h a List.mem_cons_self, ih fun b hb => h b (.tail _ hb)]
    rfl

theorem InternalJob.listOfValue_map (jobs : List InternalJob) :
    listOfValue (.list (jobs.map toValue)) = .ok jobs := by
  have h : ∀ j ∈ jobs, ofValue (toValue j) = .ok j := fun _ _ => rfl
  exact Checked.items_map h 0

/-! ## Kinds of records -/

/-! ### Runs and jobs -/

/-- **A run record with proper stamps.** -/
structure RunRecord.Proper (r : RunRecord) : Prop where
  createdAt : r.createdAt.Proper
  updatedAt : r.updatedAt.Proper
  completedAt : ∀ s ∈ r.completedAt, s.Proper

/-- **A job record with proper stamps.** -/
structure JobRecord.Proper (r : JobRecord) : Prop where
  createdAt : r.createdAt.Proper
  updatedAt : r.updatedAt.Proper
  completedAt : ∀ s ∈ r.completedAt, s.Proper

theorem RunRecord.ofValue_toValue {r : RunRecord} (h : r.Proper) : ofValue r.toValue = .ok r := by
  unfold toValue
  refine ofValue_eq_ok.mpr ⟨Decode.required_eq_ok rfl rfl, Decode.option_eq_ok rfl (Decode.nullable_ofText? _),
    Decode.required_eq_ok rfl (RunStatus.ofValue_word _), Decode.option_eq_ok rfl (Decode.nullable_ofText? _),
    Decode.optional_eq_ok rfl rfl, Decode.option_eq_ok rfl (Decode.nullable_error _),
    Decode.required_eq_ok rfl rfl, Decode.required_eq_ok rfl (Decode.stamp_toValue h.createdAt),
    Decode.required_eq_ok rfl (Decode.stamp_toValue h.updatedAt),
    Decode.option_eq_ok rfl (Decode.nullable_stamp h.completedAt)⟩

theorem JobRecord.ofValue_toValue {r : JobRecord} (h : r.Proper) : ofValue r.toValue = .ok r := by
  unfold toValue
  exact ofValue_eq_ok.mpr ⟨Decode.required_eq_ok rfl rfl, Decode.required_eq_ok rfl rfl,
    Decode.required_eq_ok rfl (JobStatus.ofValue_word _), Decode.optional_eq_ok rfl rfl,
    Decode.optional_eq_ok rfl rfl, Decode.option_eq_ok rfl (Decode.nullable_error _),
    Decode.required_eq_ok rfl rfl, Decode.required_eq_ok rfl (InternalJob.listOfValue_map _),
    Decode.required_eq_ok rfl (Decode.stamp_toValue h.createdAt),
    Decode.required_eq_ok rfl (Decode.stamp_toValue h.updatedAt),
    Decode.option_eq_ok rfl (Decode.nullable_stamp h.completedAt)⟩

/-! ### Queues -/

/-- **A time of completion that a document can hold**: a stamp, or the text of one. -/
def Finish.Proper : Finish → Prop
  | .stamp s => s.Proper
  | .other v => ∃ s : Stamp, s.Proper ∧ v = s.toValue

/-- A time of completion as it is read again. -/
def Finish.dated : Finish → Finish
  | .stamp s => .stamp s
  | .other v =>
    match Decode.stamp v with
    | .ok s => .stamp s
    | .bad _ => .other v

/-- A proper time of completion is a stamp, when it is read again, and is written as before. -/
theorem Finish.dated_eq {f : Finish} (h : f.Proper) :
    ∃ s : Stamp, s.Proper ∧ f.dated = .stamp s ∧ f.toValue = s.toValue := by
  cases f with
  | stamp s => exact ⟨s, h, rfl, rfl⟩
  | other v =>
    obtain ⟨s, hs, rfl⟩ := h
    exact ⟨s, hs, by rw [dated, Decode.stamp_toValue hs], rfl⟩

theorem Finish.read_toValue? {f : Option Finish} (h : ∀ g ∈ f, g.Proper) :
    Decode.nullable (fun v => Finish.stamp <$> Decode.stamp v) (toValue? f) = .ok (f.map dated) := by
  cases f with
  | none => rfl
  | some f =>
    obtain ⟨s, hs, hdated, hvalue⟩ := dated_eq (h f rfl)
    have hread : (Finish.stamp <$> Decode.stamp s.toValue : Checked Finish) = .ok (.stamp s) := by
      rw [Decode.stamp_toValue hs]
      rfl
    show Decode.nullable _ f.toValue = .ok (some f.dated)
    rw [hvalue, hdated]
    show (Finish.stamp <$> Decode.stamp s.toValue : Checked Finish).map some = _
    rw [hread]
    rfl

/-- **A step of a queue with proper stamps.** -/
structure QueueStepRecord.Proper (s : QueueStepRecord) : Prop where
  startedAt : ∀ t ∈ s.startedAt, t.Proper
  completedAt : ∀ t ∈ s.completedAt, t.Proper

/-- **A queue record that is read again**: its status is one of the statuses of queues, and its stamps
    are proper. -/
structure QueueRecord.Proper (r : QueueRecord) : Prop where
  status : ∀ v, r.status ≠ .other v
  steps : ∀ s ∈ r.steps, s.Proper
  createdAt : r.createdAt.Proper
  updatedAt : r.updatedAt.Proper
  completedAt : ∀ f ∈ r.completedAt, f.Proper

/-- A queue record as it is read again. -/
def QueueRecord.dated (r : QueueRecord) : QueueRecord := { r with completedAt := r.completedAt.map Finish.dated }

theorem QueueStatus.read_toValue {s : QueueStatus} (h : ∀ v, s ≠ .other v) : read s.toValue = .ok s := by
  cases s with
  | other v => exact absurd rfl (h v)
  | _ => rfl

/-- A step is read from a mapping field by field. -/
theorem QueueStepRecord.ofValue_eq_ok {fields : Keyed Value} {s : QueueStepRecord} :
    ofValue (.object fields) = .ok s ↔
      Decode.required fields "worker_id" Decode.text = .ok s.workerId
        ∧ Decode.required fields "worker_job_id" Decode.text = .ok s.workerJobId
        ∧ Decode.required fields "status" JobStatus.ofValue = .ok s.status
        ∧ Decode.optional fields "input" Value.null Decode.anything = .ok s.input
        ∧ Decode.optional fields "output" Value.null Decode.anything = .ok s.output
        ∧ Decode.option fields "error" ErrorInfo.ofValue = .ok s.error
        ∧ Decode.option fields "started_at" Decode.stamp = .ok s.startedAt
        ∧ Decode.option fields "completed_at" Decode.stamp = .ok s.completedAt := by
  simp only [ofValue, Checked.seq_eq_ok, Checked.map_eq_ok]
  constructor
  · rintro ⟨_, _, ⟨_, _, ⟨_, _, ⟨_, _, ⟨_, _, ⟨_, _, ⟨_, _, ⟨_, h₁, rfl⟩, h₂, rfl⟩, h₃, rfl⟩, h₄, rfl⟩, h₅, rfl⟩,
      h₆, rfl⟩, h₇, rfl⟩, h₈, rfl⟩
    exact ⟨h₁, h₂, h₃, h₄, h₅, h₆, h₇, h₈⟩
  · rintro ⟨h₁, h₂, h₃, h₄, h₅, h₆, h₇, h₈⟩
    exact ⟨_, _, ⟨_, _, ⟨_, _, ⟨_, _, ⟨_, _, ⟨_, _, ⟨_, _, ⟨_, h₁, rfl⟩, h₂, rfl⟩, h₃, rfl⟩, h₄, rfl⟩, h₅, rfl⟩,
      h₆, rfl⟩, h₇, rfl⟩, h₈, rfl⟩

theorem QueueStepRecord.ofValue_toValue {s : QueueStepRecord} (h : s.Proper) : ofValue s.toValue = .ok s := by
  unfold toValue
  exact ofValue_eq_ok.mpr ⟨Decode.required_eq_ok rfl rfl, Decode.required_eq_ok rfl rfl,
    Decode.required_eq_ok rfl (JobStatus.ofValue_word _), Decode.optional_eq_ok rfl rfl,
    Decode.optional_eq_ok rfl rfl, Decode.option_eq_ok rfl (Decode.nullable_error _),
    Decode.option_eq_ok rfl (Decode.nullable_stamp h.startedAt),
    Decode.option_eq_ok rfl (Decode.nullable_stamp h.completedAt)⟩

theorem QueueStepRecord.listOfValue_map {steps : List QueueStepRecord} (h : ∀ s ∈ steps, s.Proper) :
    listOfValue (.list (steps.map toValue)) = .ok steps :=
  Checked.items_map (fun s hs => ofValue_toValue (h s hs)) 0

/-- A queue record is read from a mapping field by field. -/
theorem QueueRecord.ofValue_eq_ok {fields : Keyed Value} {r : QueueRecord} :
    ofValue (.object fields) = .ok r ↔
      Decode.required fields "id" Decode.text = .ok r.id
        ∧ Decode.required fields "queue_id" Decode.text = .ok r.queueId
        ∧ Decode.required fields "status" QueueStatus.read = .ok r.status
        ∧ Decode.required fields "steps" QueueStepRecord.listOfValue = .ok r.steps
        ∧ Decode.option fields "total_steps" Decode.whole = .ok r.totalSteps
        ∧ Decode.required fields "metadata" Decode.dictionary = .ok r.metadata
        ∧ Decode.required fields "created_at" Decode.stamp = .ok r.createdAt
        ∧ Decode.required fields "updated_at" Decode.stamp = .ok r.updatedAt
        ∧ Decode.option fields "completed_at" (fun v => Finish.stamp <$> Decode.stamp v)
          = .ok r.completedAt := by
  simp only [ofValue, Checked.seq_eq_ok, Checked.map_eq_ok]
  constructor
  · rintro ⟨_, _, ⟨_, _, ⟨_, _, ⟨_, _, ⟨_, _, ⟨_, _, ⟨_, _, ⟨_, _, ⟨_, h₁, rfl⟩, h₂, rfl⟩, h₃, rfl⟩, h₄, rfl⟩,
      h₅, rfl⟩, h₆, rfl⟩, h₇, rfl⟩, h₈, rfl⟩, h₉, rfl⟩
    exact ⟨h₁, h₂, h₃, h₄, h₅, h₆, h₇, h₈, h₉⟩
  · rintro ⟨h₁, h₂, h₃, h₄, h₅, h₆, h₇, h₈, h₉⟩
    exact ⟨_, _, ⟨_, _, ⟨_, _, ⟨_, _, ⟨_, _, ⟨_, _, ⟨_, _, ⟨_, _, ⟨_, h₁, rfl⟩, h₂, rfl⟩, h₃, rfl⟩, h₄, rfl⟩,
      h₅, rfl⟩, h₆, rfl⟩, h₇, rfl⟩, h₈, rfl⟩, h₉, rfl⟩

theorem QueueRecord.ofValue_toValue {r : QueueRecord} (h : r.Proper) : ofValue r.toValue = .ok r.dated := by
  unfold toValue
  exact ofValue_eq_ok.mpr ⟨Decode.required_eq_ok rfl rfl, Decode.required_eq_ok rfl rfl,
    Decode.required_eq_ok rfl (QueueStatus.read_toValue h.status),
    Decode.required_eq_ok rfl (QueueStepRecord.listOfValue_map h.steps),
    Decode.option_eq_ok rfl (Decode.nullable_ofInt? _), Decode.required_eq_ok rfl rfl,
    Decode.required_eq_ok rfl (Decode.stamp_toValue h.createdAt),
    Decode.required_eq_ok rfl (Decode.stamp_toValue h.updatedAt),
    Decode.option_eq_ok rfl (Finish.read_toValue? h.completedAt)⟩

/-! ## Held records -/

section

variable {ρ : Type} [Recorded ρ]

theorem hold_eq_document {b : Backend} {r : ρ} {held : Held ρ} (hb : b ≠ .memory) (h : hold b r = .ok held) :
    held = .document (b.keeps (Recorded.toValue r)) := by
  rcases hold_cases h with ⟨rfl, -⟩ | ⟨-, -, rfl⟩
  · exact absurd rfl hb
  · rw [Backend.keeps, if_neg hb]

/-- **What is read of a held record**: the record itself from memory, and otherwise what is read from what a
    document holds of it. -/
theorem read_of_hold {b : Backend} {r r' : ρ} {held : Held ρ} (hheld : hold b r = .ok held)
    (hlive : b = .memory → r' = r)
    (hdocument : b ≠ .memory → Recorded.ofValue (b.keeps (Recorded.toValue r)) = .ok r') :
    held.read = .ok r' := by
  by_cases hb : b = .memory
  · subst hb
    obtain rfl := Except.ok.inj hheld
    rw [hlive rfl]
    rfl
  · rw [hold_eq_document hb hheld]
    exact Fault.ofChecked_eq_ok.mpr (hdocument hb)

end

/-! ### Jobs -/

namespace Backend

variable (b : Backend)

/-- The job record that a backend keeps. -/
def keepsJob (r : JobRecord) : JobRecord :=
  { r with
    input := b.keeps r.input
    output := b.keeps r.output
    metadata := b.keepsFields r.metadata }

theorem keepsJob_keepsJob (r : JobRecord) : b.keepsJob (b.keepsJob r) = b.keepsJob r := by
  simp [keepsJob]

theorem keepsJob_memory (r : JobRecord) : Backend.memory.keepsJob r = r := rfl

theorem keeps_job (r : JobRecord) : b.keeps r.toValue = (b.keepsJob r).toValue := by
  have hinternal : b.keeps (.list (r.internalJobs.map InternalJob.toValue))
      = .list (r.internalJobs.map InternalJob.toValue) := b.keeps_of_isData (InternalJob.allData_toValue _)
  simp only [JobRecord.toValue, keepsJob, keeps_object, keepsFields_cons, keepsFields_nil, keeps_text,
    hinternal, b.keeps_of_isData (ErrorInfo.isData_toValue? _), b.keeps_of_isData (Stamp.isData_toValue? _),
    Stamp.toValue]

end Backend

theorem JobRecord.Proper.keeps {r : JobRecord} (h : r.Proper) (b : Backend) : (b.keepsJob r).Proper :=
  ⟨h.createdAt, h.updatedAt, h.completedAt⟩

/-- **What is read of a held job** is what the backend keeps of it. -/
theorem JobRecord.read_of_hold {b : Backend} {r : JobRecord} {held : Held JobRecord} (h : r.Proper)
    (hheld : hold b r = .ok held) : held.read = .ok (b.keepsJob r) :=
  Runbook.read_of_hold hheld (fun hb => by rw [hb, Backend.keepsJob_memory]) fun _ => by
    show JobRecord.ofValue (b.keeps r.toValue) = _
    rw [b.keeps_job r]
    exact JobRecord.ofValue_toValue (h.keeps b)

end Runbook
