import Runbook.Dispatch
import Runbook.Proofs.Keeping

/-!
# `Proofs.JobRecords` — what the record of a job remembers of its trigger

Before a worker is triggered, its job is recorded; if the trigger fails, a flag in the metadata says so.
A record without the flag keeps its worker from being triggered again. Whatever is written to it later
keeps it so, unless the flag itself is set; and a flag that has been set can always be cleared.

## Contents
- **Copies.** `job_of_hold`, and `JobRecord.Writable`.
- **Updates.** `JobRecord.metadata_of_update`, and `SparesFlag`, updates that do not set the flag.
- **Clearing.** `JobRecord.update_metadata`: an update of the metadata alone does not fail.
-/

namespace Runbook

namespace JobRecord

/-! ## Copies -/

/-- A record is read from a mapping field by field. -/
theorem ofValue_eq_ok {fields : Keyed Value} {r : JobRecord} :
    ofValue (.object fields) = .ok r ↔
      Decode.required fields "job_id" Decode.text = .ok r.jobId
        ∧ Decode.required fields "worker_id" Decode.text = .ok r.workerId
        ∧ Decode.required fields "status" JobStatus.ofValue = .ok r.status
        ∧ Decode.optional fields "input" Value.null Decode.anything = .ok r.input
        ∧ Decode.optional fields "output" Value.null Decode.anything = .ok r.output
        ∧ Decode.option fields "error" ErrorInfo.ofValue = .ok r.error
        ∧ Decode.required fields "metadata" Decode.dictionary = .ok r.metadata
        ∧ Decode.required fields "internal_jobs" InternalJob.listOfValue = .ok r.internalJobs
        ∧ Decode.required fields "created_at" Decode.stamp = .ok r.createdAt
        ∧ Decode.required fields "updated_at" Decode.stamp = .ok r.updatedAt
        ∧ Decode.option fields "completed_at" Decode.stamp = .ok r.completedAt := by
  simp only [ofValue, Checked.seq_eq_ok, Checked.map_eq_ok]
  constructor
  · rintro ⟨_, _, ⟨_, _, ⟨_, _, ⟨_, _, ⟨_, _, ⟨_, _, ⟨_, _, ⟨_, _, ⟨_, _, ⟨_, _, ⟨_, h₁, rfl⟩, h₂, rfl⟩, h₃, rfl⟩,
      h₄, rfl⟩, h₅, rfl⟩, h₆, rfl⟩, h₇, rfl⟩, h₈, rfl⟩, h₉, rfl⟩, h₁₀, rfl⟩, h₁₁, rfl⟩
    exact ⟨h₁, h₂, h₃, h₄, h₅, h₆, h₇, h₈, h₉, h₁₀, h₁₁⟩
  · rintro ⟨h₁, h₂, h₃, h₄, h₅, h₆, h₇, h₈, h₉, h₁₀, h₁₁⟩
    exact ⟨_, _, ⟨_, _, ⟨_, _, ⟨_, _, ⟨_, _, ⟨_, _, ⟨_, _, ⟨_, _, ⟨_, _, ⟨_, _, ⟨_, h₁, rfl⟩, h₂, rfl⟩, h₃, rfl⟩,
      h₄, rfl⟩, h₅, rfl⟩, h₆, rfl⟩, h₇, rfl⟩, h₈, rfl⟩, h₉, rfl⟩, h₁₀, rfl⟩, h₁₁, rfl⟩

/-- **A record that can be written down.** -/
structure Writable (r : JobRecord) : Prop where
  input : r.input.unwritable? = none
  output : r.output.unwritable? = none
  metadata : Value.unwritableField? r.metadata = none

/-- What a record consists of besides can always be written down. -/
theorem writable_iff {r : JobRecord} : r.toValue.unwritable? = none ↔ r.Writable := by
  have herror (e : Option ErrorInfo) := Value.unwritable?_of_isData (ErrorInfo.isData_toValue? e)
  have hstamp (s : Option Stamp) := Value.unwritable?_of_isData (Stamp.isData_toValue? s)
  have hjobs (js : List InternalJob) := Value.unwritableItem?_of_allData (InternalJob.allData_toValue js)
  have hparts : r.toValue.unwritable? = none ↔ r.input.unwritable? = none
      ∧ r.output.unwritable? = none ∧ Value.unwritableField? r.metadata = none := by
    simp only [toValue, Value.unwritable?, Value.unwritableField?, herror, hstamp, hjobs,
      Stamp.toValue, Option.none_or, Option.or_eq_none_iff, and_true]
  rw [hparts]
  exact ⟨fun h => ⟨h.1, h.2.1, h.2.2⟩, fun h => ⟨h.input, h.output, h.metadata⟩⟩

end JobRecord

/-- A record that is held reads as what the backend keeps of it. -/
theorem job_of_hold {b : Backend} {r r' : JobRecord} {held : Held JobRecord}
    (hheld : hold b r = .ok held) (hread : held.read = .ok r') :
    r'.metadata = b.keepsFields r.metadata ∧ (b ≠ .memory → r'.Writable) := by
  rcases hold_cases hheld with ⟨rfl, rfl⟩ | ⟨hb, hwritable, rfl⟩
  · obtain rfl : r = r' := Except.ok.inj hread
    exact ⟨rfl, fun h => absurd rfl h⟩
  · have hread : JobRecord.ofValue (JobRecord.toValue r).storable = .ok r' :=
      Fault.ofChecked_eq_ok.mp hread
    simp only [JobRecord.toValue, Value.storable] at hread
    obtain ⟨-, -, -, hinput, houtput, -, hmetadata, -⟩ := JobRecord.ofValue_eq_ok.mp hread
    simp [Decode.optional, Decode.FieldName.find?, Decode.FieldName.plain, get?_storableFields,
      Keyed.get?, Checked.under_eq_ok, Decode.anything] at hinput houtput
    simp [Decode.required, Decode.FieldName.find?, Decode.FieldName.plain, get?_storableFields,
      Keyed.get?, Checked.under_eq_ok, Value.storable, Decode.dictionary] at hmetadata
    have hr : r.Writable := JobRecord.writable_iff.mp hwritable
    refine ⟨by rw [Backend.keepsFields, if_neg hb, hmetadata], fun _ => ⟨?_, ?_, ?_⟩⟩
    · exact hinput ▸ Value.unwritable?_storable hr.input
    · exact houtput ▸ Value.unwritable?_storable hr.output
    · exact hmetadata ▸ Value.unwritableField?_storable hr.metadata

namespace JobRecord

/-! ## Updates -/

@[simp] theorem settle_input (r : JobRecord) (now : Stamp) : (r.settle now).input = r.input := by
  unfold settle; split <;> rfl

@[simp] theorem settle_output (r : JobRecord) (now : Stamp) : (r.settle now).output = r.output := by
  unfold settle; split <;> rfl

@[simp] theorem settle_metadata (r : JobRecord) (now : Stamp) :
    (r.settle now).metadata = r.metadata := by
  unfold settle; split <;> rfl

theorem metadata_of_revise {base r : JobRecord} {updates : Keyed Value} {o : Overlays} {now : Stamp}
    (h : base.revise updates o now = .ok r) : r.metadata = o.metadata := by
  simp only [revise, Checked.seq_eq_ok, Checked.map_eq_ok] at h
  obtain ⟨_, _, ⟨_, _, ⟨_, _, ⟨_, _, ⟨_, _, ⟨_, _, ⟨_, -, rfl⟩, -, rfl⟩, -, rfl⟩, -, rfl⟩, -, rfl⟩, -, rfl⟩,
    -, rfl⟩ := h
  rfl

/-- The metadata of a record after an update are those that were overlaid. -/
theorem metadata_of_update {existing : Option JobRecord} {id : String} {updates : Keyed Value}
    {now : Stamp} {r : JobRecord} (h : update existing id updates now = .ok r) :
    ∃ o, (existing.getD (start id now)).overlays updates = .ok o ∧ r.metadata = o.metadata := by
  obtain ⟨r₁, hrevised, h⟩ := Fault.bind_eq_ok.mp h
  obtain ⟨o, ho, hrevised⟩ := Fault.bind_eq_ok.mp hrevised
  obtain ⟨r₂, hrevise, hsettle⟩ := Fault.bind_eq_ok.mp hrevised
  refine ⟨o, ho, ?_⟩
  rw [← Except.ok.inj h, ← Except.ok.inj hsettle]
  exact (settle_metadata ..).trans (metadata_of_revise (Fault.ofChecked_eq_ok.mp hrevise))

/-- The key of the flag that says that the trigger of a job has failed. -/
def flagKey : String := "trigger_failed"

/-- Metadata in which the flag is set. -/
def Flagged (metadata : Keyed Value) : Prop :=
  ((metadata.get? flagKey).getD .null).truthy = true

theorem isUntriggered_iff {r : JobRecord} :
    Dispatch.isUntriggered r = true ↔ Flagged r.metadata := Iff.rfl

theorem not_flagged_nil : ¬ Flagged [] := by simp [Flagged, Keyed.get?, Value.truthy]

/-- Fields that do not set the flag. -/
def LeavesFlag (fields : Keyed Value) : Prop :=
  ∀ entry ∈ fields, entry.1 = flagKey → entry.2.truthy = false

theorem not_flagged_putAll {m fields : Keyed Value} (hm : ¬ Flagged m) (hfields : LeavesFlag fields) :
    ¬ Flagged (m.putAll fields) := by
  unfold Keyed.putAll
  induction fields generalizing m with
  | nil => exact hm
  | cons entry rest ih =>
    obtain ⟨k, v⟩ := entry
    refine ih ?_ fun e he => hfields e (.tail _ he)
    unfold Flagged
    by_cases hk : k = flagKey
    · rw [hk, Keyed.get?_put_self, Option.getD_some, hfields (k, v) List.mem_cons_self hk]
      exact Bool.false_ne_true
    · rwa [Keyed.get?_put_of_ne _ _ (Ne.symm hk)]

/-- What a backend keeps of what is false is false. -/
theorem truthy_of_keeps {b : Backend} {v : Value} (h : (b.keeps v).truthy = true) :
    v.truthy = true := by
  unfold Backend.keeps at h
  split at h
  · exact h
  · cases v with
    | object fields => cases fields <;> exact h
    | list items => cases items <;> exact h
    | real x =>
      rw [Value.storable] at h
      split at h
      · exact h
      · exact absurd h (by simp [Value.truthy])
    | _ => exact h

/-- A backend does not set the flag. -/
theorem flagged_of_keeps {b : Backend} {m : Keyed Value} (h : Flagged (b.keepsFields m)) : Flagged m := by
  unfold Flagged at h ⊢
  rw [Backend.get?_keepsFields] at h
  cases hv : m.get? flagKey with
  | none => rw [hv] at h; exact h
  | some v => rw [hv] at h; exact truthy_of_keeps h

/-- **Updates that do not set the flag.** -/
def SparesFlag (updates : Keyed Value) : Prop :=
  ∀ fields, ("metadata", Value.object fields) ∈ updates → LeavesFlag fields

/-- The metadata after the overlays are as they were, or a value was laid over them. -/
theorem metadata_of_overlays {base : JobRecord} {updates : Keyed Value} {o : Overlays}
    (h : base.overlays updates = .ok o) :
    o.metadata = base.metadata
      ∨ ∃ v, ("metadata", v) ∈ updates ∧ Update.overlay base.metadata v = .ok o.metadata := by
  -- every round lays a value over the metadata of the record, or leaves what there is
  refine foldlM_keeps (I := fun acc : Overlays => acc.metadata = base.metadata
    ∨ ∃ v, ("metadata", v) ∈ updates ∧ Update.overlay base.metadata v = .ok acc.metadata) ?_ (.inl rfl) h
  rintro acc ⟨key, v⟩ hmem acc' hacc hround
  dsimp only at hround
  split at hround
  · next hkey =>
    obtain ⟨m, hm, hacc'⟩ := Fault.bind_eq_ok.mp hround
    rw [← Except.ok.inj hacc']
    exact .inr ⟨v, hkey ▸ hmem, hm⟩
  · split at hround
    · rwa [← Except.ok.inj hround]
    · split at hround
      · obtain ⟨e, -, hacc'⟩ := Fault.bind_eq_ok.mp hround
        rwa [← Except.ok.inj hacc']
      · split at hround
        · obtain ⟨items, -, hacc'⟩ := Fault.bind_eq_ok.mp hround
          rwa [← Except.ok.inj hacc']
        · rwa [← Except.ok.inj hround]

/-- Such an update leaves a record without the flag. -/
theorem not_flagged_update {existing : Option JobRecord} {id : String} {updates : Keyed Value}
    {now : Stamp} {r : JobRecord} (hupdates : SparesFlag updates)
    (hbase : ∀ e ∈ existing, ¬ Flagged e.metadata) (h : update existing id updates now = .ok r) :
    ¬ Flagged r.metadata := by
  obtain ⟨o, ho, hmetadata⟩ := metadata_of_update h
  have hstart : ¬ Flagged (existing.getD (start id now)).metadata := by
    cases existing with
    | none => exact not_flagged_nil
    | some e => exact hbase e rfl
  rw [hmetadata]
  rcases metadata_of_overlays ho with hsame | ⟨v, hmem, hm⟩
  · rwa [hsame]
  · unfold Update.overlay at hm
    split at hm
    · rwa [← Except.ok.inj hm]
    · cases v <;> simp only [Except.ok.injEq, reduceCtorEq] at hm
      rw [← hm]
      exact not_flagged_putAll hstart (hupdates _ hmem)

/-! ## Clearing -/

/-- **An update of the metadata alone** does not fail. -/
theorem update_metadata (e : JobRecord) (id : String) (fields : Keyed Value) (hne : fields ≠ [])
    (now : Stamp) :
    ∃ r, update (some e) id [("metadata", .object fields)] now = .ok r
      ∧ r.input = e.input ∧ r.output = e.output ∧ r.metadata = e.metadata.putAll fields := by
  have htruthy : (Value.object fields).truthy = true := by
    cases fields with
    | nil => exact absurd rfl hne
    | cons => rfl
  have hoverlays : e.overlays [("metadata", .object fields)]
      = .ok ⟨e.metadata.putAll fields, e.error, none⟩ := by
    simp [overlays, Update.overlay, htruthy, bind, Except.bind, pure, Except.pure]
  have hrevise (updates : Keyed Value) (hupdates : updates = [] ∨ updates = [("metadata", .object fields)])
      (o : Overlays) (ho : o.internalJobs = none) :
      e.revise updates o now = .ok ⟨e.jobId, e.workerId, e.status, e.input, e.output, o.error,
        o.metadata, e.internalJobs, e.createdAt, now, e.completedAt⟩ := by
    rcases hupdates with rfl | rfl <;>
      simp [revise, Update.field, Update.newValue?, Keyed.get?, Value.present?, newInternalJobs, ho,
        Functor.map, Checked.map, Seq.seq, Checked.both]
  unfold update revised
  simp only [Option.getD_some, hoverlays, bind, Except.bind]
  rw [hrevise _ (by split <;> simp) _ rfl]
  refine ⟨_, rfl, ?_, ?_, ?_⟩ <;> simp

end JobRecord

end Runbook
