import Runbook.Engine.Stored
import Runbook.Proofs.Runs

/-!
# `Proofs.RunRecords` — what run records keep

A record that is read again is the record that was written, or at least a copy of it that went
through a document. Whatever the backend does, an update that does not name the metadata leaves the
checkpoint of a run as it was, and other runs are not touched at all.

## Contents
- **Readings.** When a composed reading succeeds.
- **Copies.** `Value.Kept`, a value or the copy of it that a document holds; `RunRecord.Copy`.
- **Updates.** What `RunRecord.update` does to the metadata.
- **Writes.** `hold_cases`; `World.checkpointOf`, the data of the checkpoint of a run, after a write.
- **Operations.** `Stores.Touches`, what an operation leaves of the stores, and `World.Answers.stores_cases`, what
  a deed makes of them.
-/

namespace Runbook

/-! ## Readings -/

namespace Checked

variable {α β : Type}

theorem map_eq_ok {f : α → β} {a : Checked α} {b : β} :
    f <$> a = .ok b ↔ ∃ v, a = .ok v ∧ f v = b := by
  cases a <;> simp [Functor.map, Checked.map]

theorem seq_eq_ok {f : Checked (α → β)} {a : Checked α} {b : β} :
    f <*> a = .ok b ↔ ∃ g v, f = .ok g ∧ a = .ok v ∧ g v = b := by
  cases f <;> cases a <;> simp [Seq.seq, both]

theorem under_eq_ok {part : LocPart} {a : Checked α} {v : α} :
    a.under part = .ok v ↔ a = .ok v := by
  cases a <;> simp [under]

end Checked

theorem Fault.ofChecked_eq_ok {α : Type} {name : String} {a : Checked α} {v : α} :
    Fault.ofChecked name a = .ok v ↔ a = .ok v := by
  cases a <;> simp [Fault.ofChecked]

theorem Fault.bind_eq_ok {α β : Type} {a : Except Fault α} {f : α → Except Fault β} {b : β} :
    a >>= f = .ok b ↔ ∃ v, a = .ok v ∧ f v = .ok b := by
  cases a <;> simp [bind, Except.bind]

theorem Fault.map_eq_ok {α β : Type} {f : α → β} {a : Except Fault α} {b : β} :
    f <$> a = .ok b ↔ ∃ v, a = .ok v ∧ f v = b := by
  cases a <;> simp [Functor.map, Except.map]

/-- What every round of a fold keeps holds at its end. -/
theorem foldlM_keeps {α β : Type} {f : β → α → Except Fault β} {I : β → Prop} {items : List α}
    {acc res : β} (hkeep : ∀ acc, ∀ a ∈ items, ∀ acc', I acc → f acc a = .ok acc' → I acc')
    (hacc : I acc) (h : items.foldlM f acc = .ok res) : I res := by
  induction items generalizing acc with
  | nil => exact Except.ok.inj h ▸ hacc
  | cons a rest ih =>
    rw [List.foldlM_cons] at h
    obtain ⟨acc', hstep, hrest⟩ := Fault.bind_eq_ok.mp h
    exact ih (fun acc a ha => hkeep acc a (.tail _ ha)) (hkeep _ _ List.mem_cons_self _ hacc hstep)
      hrest

/-! ## Copies -/

/-- **A copy**: the value itself, or what a document holds of it. -/
def Value.Kept (v v' : Value) : Prop := v' = v ∨ v' = v.storable

theorem Value.Kept.refl (v : Value) : Value.Kept v v := .inl rfl

theorem storableFields_eq_map (fields : Keyed Value) :
    Value.storableFields fields = fields.map fun entry => (entry.1, entry.2.storable) := by
  induction fields with
  | nil => rfl
  | cons entry rest ih => obtain ⟨k, v⟩ := entry; simp [Value.storableFields, ih]

theorem get?_storableFields (fields : Keyed Value) (key : String) :
    Keyed.get? (Value.storableFields fields) key = (fields.get? key).map Value.storable := by
  induction fields with
  | nil => rfl
  | cons entry rest ih =>
    obtain ⟨k, v⟩ := entry
    by_cases h : k = key <;> simp [Value.storableFields, Keyed.get?, h, ih]

theorem storableFields_eq_nil_iff (fields : Keyed Value) :
    Value.storableFields fields = [] ↔ fields = [] := by
  rw [storableFields_eq_map, List.map_eq_nil_iff]

/-! ## Updates -/

theorem RunStatus.ofValue_word (s : RunStatus) : RunStatus.ofValue (.text s.word) = .ok s := by
  cases s <;> rfl

namespace RunRecord

/-- A record is read from a mapping field by field. -/
theorem ofValue_eq_ok {fields : Keyed Value} {r : RunRecord} :
    ofValue (.object fields) = .ok r ↔
      Decode.required fields "run_id" Decode.text = .ok r.runId
        ∧ Decode.option fields "execution_id" Decode.text = .ok r.executionId
        ∧ Decode.required fields "status" RunStatus.ofValue = .ok r.status
        ∧ Decode.option fields "hook_token" Decode.text = .ok r.hookToken
        ∧ Decode.optional fields "result" Value.null Decode.anything = .ok r.result
        ∧ Decode.option fields "error" ErrorInfo.ofValue = .ok r.error
        ∧ Decode.required fields "metadata" Decode.dictionary = .ok r.metadata
        ∧ Decode.required fields "created_at" Decode.stamp = .ok r.createdAt
        ∧ Decode.required fields "updated_at" Decode.stamp = .ok r.updatedAt
        ∧ Decode.option fields "completed_at" Decode.stamp = .ok r.completedAt := by
  simp only [ofValue, Checked.seq_eq_ok, Checked.map_eq_ok]
  constructor
  · rintro ⟨_, _, ⟨_, _, ⟨_, _, ⟨_, _, ⟨_, _, ⟨_, _, ⟨_, _, ⟨_, _, ⟨_, _, ⟨_, h₁, rfl⟩, h₂, rfl⟩, h₃, rfl⟩,
      h₄, rfl⟩, h₅, rfl⟩, h₆, rfl⟩, h₇, rfl⟩, h₈, rfl⟩, h₉, rfl⟩, h₁₀, rfl⟩
    exact ⟨h₁, h₂, h₃, h₄, h₅, h₆, h₇, h₈, h₉, h₁₀⟩
  · rintro ⟨h₁, h₂, h₃, h₄, h₅, h₆, h₇, h₈, h₉, h₁₀⟩
    exact ⟨_, _, ⟨_, _, ⟨_, _, ⟨_, _, ⟨_, _, ⟨_, _, ⟨_, _, ⟨_, _, ⟨_, _, ⟨_, h₁, rfl⟩, h₂, rfl⟩, h₃, rfl⟩,
      h₄, rfl⟩, h₅, rfl⟩, h₆, rfl⟩, h₇, rfl⟩, h₈, rfl⟩, h₉, rfl⟩, h₁₀, rfl⟩

/-- **A copy of a record**, as it is read again: its values went through a document, or did not. -/
structure Copy (r r' : RunRecord) : Prop where
  status : r'.status = r.status
  result : r.result.Kept r'.result
  metadata : r'.metadata = r.metadata ∨ r'.metadata = Value.storableFields r.metadata

/-- What is read of the document of a record. -/
theorem of_decode {r r' : RunRecord} (h : decode (toValue r).storable = .ok r') :
    r'.status = r.status ∧ r'.result = r.result.storable
      ∧ r'.metadata = Value.storableFields r.metadata := by
  have h : ofValue (toValue r).storable = .ok r' := Fault.ofChecked_eq_ok.mp h
  simp only [toValue, Value.storable] at h
  obtain ⟨-, -, hstatus, -, hresult, -, hmetadata, -⟩ := ofValue_eq_ok.mp h
  simp [Decode.required, Decode.FieldName.find?, Decode.FieldName.plain, get?_storableFields,
    Keyed.get?, Checked.under_eq_ok, Value.storable, RunStatus.ofValue_word] at hstatus
  simp [Decode.optional, Decode.FieldName.find?, Decode.FieldName.plain, get?_storableFields,
    Keyed.get?, Checked.under_eq_ok, Decode.anything] at hresult
  simp [Decode.required, Decode.FieldName.find?, Decode.FieldName.plain, get?_storableFields,
    Keyed.get?, Checked.under_eq_ok, Value.storable, Decode.dictionary] at hmetadata
  exact ⟨hstatus.symm, hresult.symm, hmetadata.symm⟩

/-- An update that succeeds. -/
theorem update_eq_ok {existing : Option RunRecord} {id : String} {updates : Keyed Value}
    {now : Stamp} {r : RunRecord} :
    update existing id updates now = .ok r ↔ ∃ metadata error r₀,
      (existing.getD (start id now)).overlays updates = .ok (metadata, error)
        ∧ (existing.getD (start id now)).revise updates metadata error now = .ok r₀
        ∧ ({ r₀ with runId := id } : RunRecord).settle now = r := by
  unfold update
  cases hoverlays : (existing.getD (start id now)).overlays updates with
  | error f => simp [bind, Except.bind, hoverlays]
  | ok overlaid =>
    obtain ⟨metadata, error⟩ := overlaid
    cases hrevise : (existing.getD (start id now)).revise updates metadata error now with
    | bad problems =>
      simp [bind, Except.bind, hoverlays, hrevise, Fault.ofChecked]
    | ok r₀ =>
      simp [bind, Except.bind, hoverlays, hrevise, Fault.ofChecked, pure, Except.pure]

theorem revise_eq_ok {base r : RunRecord} {updates metadata : Keyed Value} {error : Option ErrorInfo}
    {now : Stamp} :
    base.revise updates metadata error now = .ok r ↔ ∃ executionId status hookToken result createdAt
        completedAt,
      Update.field updates "execution_id" base.executionId (fun v => some <$> Decode.text v)
          = .ok executionId
        ∧ Update.field updates "status" base.status RunStatus.ofValue = .ok status
        ∧ base.newToken updates = .ok hookToken
        ∧ Update.field updates "result" base.result Decode.anything = .ok result
        ∧ Update.field updates "created_at" base.createdAt Decode.stamp = .ok createdAt
        ∧ Update.field updates "completed_at" base.completedAt (fun v => some <$> Decode.stamp v)
          = .ok completedAt
        ∧ r = ⟨base.runId, executionId, status, hookToken, result, error, metadata, createdAt, now,
            completedAt⟩ := by
  simp only [revise, Checked.seq_eq_ok, Checked.map_eq_ok]
  constructor
  · rintro ⟨_, _, ⟨_, _, ⟨_, _, ⟨_, _, ⟨_, _, ⟨_, h₁, rfl⟩, h₂, rfl⟩, h₃, rfl⟩, h₄, rfl⟩, h₅, rfl⟩, h₆, rfl⟩
    exact ⟨_, _, _, _, _, _, h₁, h₂, h₃, h₄, h₅, h₆, rfl⟩
  · rintro ⟨_, _, _, _, _, _, h₁, h₂, h₃, h₄, h₅, h₆, rfl⟩
    exact ⟨_, _, ⟨_, _, ⟨_, _, ⟨_, _, ⟨_, _, ⟨_, h₁, rfl⟩, h₂, rfl⟩, h₃, rfl⟩, h₄, rfl⟩, h₅, rfl⟩, h₆, rfl⟩

@[simp] theorem settle_metadata (r : RunRecord) (now : Stamp) :
    (r.settle now).metadata = r.metadata := by
  unfold settle; split <;> rfl

@[simp] theorem settle_runId (r : RunRecord) (now : Stamp) : (r.settle now).runId = r.runId := by
  unfold settle; split <;> rfl

@[simp] theorem settle_status (r : RunRecord) (now : Stamp) :
    (r.settle now).status = r.status := by
  unfold settle; split <;> rfl

@[simp] theorem settle_result (r : RunRecord) (now : Stamp) :
    (r.settle now).result = r.result := by
  unfold settle; split <;> rfl

theorem runId_of_update {existing : Option RunRecord} {id : String} {updates : Keyed Value}
    {now : Stamp} {r : RunRecord} (h : update existing id updates now = .ok r) : r.runId = id := by
  obtain ⟨_, _, _, -, -, rfl⟩ := update_eq_ok.mp h
  simp

/-- The metadata of a record after an update are those that were overlaid. -/
theorem metadata_of_update {existing : Option RunRecord} {id : String} {updates : Keyed Value}
    {now : Stamp} {r : RunRecord} (h : update existing id updates now = .ok r) :
    ∃ error, (existing.getD (start id now)).overlays updates = .ok (r.metadata, error) := by
  obtain ⟨metadata, error, r₀, hoverlays, hrevise, rfl⟩ := update_eq_ok.mp h
  obtain ⟨_, _, _, _, _, _, -, -, -, -, -, -, rfl⟩ := revise_eq_ok.mp hrevise
  exact ⟨error, by simpa using hoverlays⟩

/-- An update leaves an entry of the metadata alone when it lays nothing over it. -/
def SparesEntry (key : String) (updates : Keyed Value) : Prop :=
  ∀ fields, ("metadata", .object fields) ∈ updates → ∀ entry ∈ fields, entry.1 ≠ key

/-- An update leaves the checkpoint alone when the metadata it names do not hold one. -/
def SparesCheckpoint (updates : Keyed Value) : Prop :=
  ∀ v, ("metadata", v) ∈ updates →
    ∃ fields, v = .object fields ∧ ∀ entry ∈ fields, entry.1 ≠ StoredCheckpoint.key

theorem SparesCheckpoint.entry {updates : Keyed Value} (h : SparesCheckpoint updates) :
    SparesEntry StoredCheckpoint.key updates := fun fields hmem => by
  obtain ⟨_, heq, hfields⟩ := h _ hmem
  rwa [Value.object.inj heq]

/-- The update with which a run is announced. -/
def announcedUpdate (plan : Plan) (executionId : Option String) : Keyed Value :=
  [("status", .text "running"), ("execution_id", .ofText? executionId),
   ("metadata", .object [("config_id", .ofText? plan.id)])]

/-- The update of a run that is continued. -/
def continuedUpdate : Keyed Value := [("status", .text "running")]

/-- The update of a run that has failed. -/
def failedUpdate (f : Fault) : Keyed Value :=
  [("status", .text "failed"), ("error", .object [("message", .text f.describe)])]

/-- The update of a run that is completed. -/
def completedUpdate (c : Context) : Keyed Value :=
  [("status", .text "completed"), ("result", c.previous)]

theorem spares_announced (plan : Plan) (executionId : Option String) :
    SparesCheckpoint (announcedUpdate plan executionId) := by
  intro v hv
  obtain rfl : v = .object [("config_id", .ofText? plan.id)] := by simpa [announcedUpdate] using hv
  exact ⟨_, rfl, by simp [StoredCheckpoint.key]⟩

theorem spares_continued : SparesCheckpoint continuedUpdate := fun v hv => by
  simp [continuedUpdate] at hv

theorem spares_failed (f : Fault) : SparesCheckpoint (failedUpdate f) := fun v hv => by
  simp [failedUpdate] at hv

theorem spares_completed (c : Context) : SparesCheckpoint (completedUpdate c) := fun v hv => by
  simp [completedUpdate] at hv

theorem get?_putAll_of_not_mem {entries m : Keyed Value} {key : String}
    (h : ∀ entry ∈ entries, entry.1 ≠ key) :
    (Keyed.putAll m entries).get? key = m.get? key := by
  unfold Keyed.putAll
  induction entries generalizing m with
  | nil => rfl
  | cons entry rest ih =>
    rw [List.foldl_cons, ih fun e he => h e (.tail _ he)]
    exact Keyed.get?_put_of_ne _ _ (h entry List.mem_cons_self).symm

theorem overlay_spared {m m' : Keyed Value} {v : Value} {key : String}
    (hspares : ∀ fields, v = .object fields → ∀ entry ∈ fields, entry.1 ≠ key)
    (h : Update.overlay m v = .ok m') : m'.get? key = m.get? key := by
  unfold Update.overlay at h
  split at h
  · rw [← Except.ok.inj h]
  · cases v with
    | object fields => rw [← Except.ok.inj h, get?_putAll_of_not_mem (hspares fields rfl)]
    | _ => exact absurd h nofun

theorem overlays_spared {base : RunRecord} {updates metadata : Keyed Value} {key : String}
    {error : Option ErrorInfo} (hspares : SparesEntry key updates)
    (h : base.overlays updates = .ok (metadata, error)) :
    metadata.get? key = base.metadata.get? key := by
  unfold overlays at h
  refine foldlM_keeps (I := fun acc : Keyed Value × Option ErrorInfo =>
    acc.1.get? key = base.metadata.get? key) ?_ rfl h
  rintro acc ⟨k, v⟩ hmem acc' hacc hstep
  dsimp only at hstep
  split at hstep
  · next hk =>
    subst hk
    obtain ⟨m, hm, hacc'⟩ := Fault.bind_eq_ok.mp hstep
    rw [← Except.ok.inj hacc']
    exact overlay_spared (fun fields hv => hspares fields (hv ▸ hmem)) hm
  · split at hstep
    · obtain ⟨e, -, hacc'⟩ := Fault.bind_eq_ok.mp hstep
      rw [← Except.ok.inj hacc']
      exact hacc
    · rw [← Except.ok.inj hstep]
      exact hacc

end RunRecord

/-! ## Writes -/

/-- **What a backend holds of a record**: memory the record itself, and every other backend the document of
    a record that can be written down. -/
theorem hold_cases {ρ : Type} [Recorded ρ] {b : Backend} {r : ρ} {held : Held ρ}
    (h : hold b r = .ok held) :
    b = .memory ∧ held = .live r
      ∨ b ≠ .memory ∧ (Recorded.toValue r).unwritable? = none
        ∧ held = .document (Recorded.toValue r).storable := by
  have hdocument (h : Held.document <$> encode r = .ok held) :
      (Recorded.toValue r).unwritable? = none ∧ held = .document (Recorded.toValue r).storable := by
    unfold encode at h
    split at h
    · exact absurd h (by simp [Functor.map, Except.map])
    · next hwritable => exact ⟨hwritable, (Except.ok.inj h).symm⟩
  cases b with
  | memory => exact .inl ⟨rfl, (Except.ok.inj h).symm⟩
  | sqlite => exact .inr ⟨by decide, hdocument h⟩
  | postgres => exact .inr ⟨by decide, hdocument h⟩
  | redis => exact .inr ⟨by decide, hdocument h⟩

/-- A record that is held reads as a copy of it. -/
theorem copy_of_hold {backend : Backend} {r r' : RunRecord} {held : Held RunRecord}
    (hheld : hold backend r = .ok held) (hread : held.read = .ok r') : r.Copy r' := by
  rcases hold_cases hheld with ⟨-, rfl⟩ | ⟨-, -, rfl⟩
  · obtain rfl : r = r' := Except.ok.inj hread
    exact ⟨rfl, .refl _, .inl rfl⟩
  · obtain ⟨hstatus, hresult, hmetadata⟩ := RunRecord.of_decode hread
    exact ⟨hstatus, .inr hresult, .inr hmetadata⟩

/-- A write of a record that succeeds. -/
theorem RunStore.get_of_set {s s' : RunStore} {id : String} {updates : Keyed Value} {now : Stamp}
    {r : RunRecord} (h : s.set id updates now = .ok (r, s')) :
    ∃ existing held, s.get id = .ok existing ∧ RunRecord.update existing id updates now = .ok r
      ∧ hold s.backend r = .ok held ∧ s'.backend = s.backend
      ∧ s'.records = s.records.put id held := by
  unfold RunStore.set at h
  obtain ⟨existing, hexisting, h⟩ := Fault.bind_eq_ok.mp h
  obtain ⟨r', hr, h⟩ := Fault.bind_eq_ok.mp h
  obtain ⟨kept, hkept, h⟩ := Fault.bind_eq_ok.mp h
  simp only [pure, Except.pure, Except.ok.injEq, Prod.mk.injEq] at h
  obtain ⟨rfl, rfl⟩ := h
  unfold RunStore.keep at hkept
  obtain ⟨held, hheld, hkept⟩ := Fault.bind_eq_ok.mp hkept
  have hid := RunRecord.runId_of_update hr
  subst hid
  simp only [pure, Except.pure, Except.ok.injEq] at hkept
  subst hkept
  exact ⟨existing, held, hexisting, hr, hheld, rfl, rfl⟩

theorem Keyed.readHeld_put_self {ρ : Type} [Recorded ρ] (entries : Keyed (Held ρ)) (key : String)
    (held : Held ρ) : (entries.put key held).readHeld key = some <$> held.read := by
  simp [Keyed.readHeld]

theorem Keyed.readHeld_put_of_ne {ρ : Type} [Recorded ρ] (entries : Keyed (Held ρ))
    {key other : String} (held : Held ρ) (h : other ≠ key) :
    (entries.put key held).readHeld other = entries.readHeld other := by
  simp [Keyed.readHeld, Keyed.get?_put_of_ne _ _ h]

namespace World

/-- The record of a run. -/
def recordOf (w : World) (id : String) : Except Fault (Option RunRecord) := w.stores.runs.get id

/-- The data of the checkpoint in the record of a run. -/
def checkpointOf (w : World) (id : String) : Option Value :=
  match w.recordOf id with
  | .ok (some r) => r.metadata.get? StoredCheckpoint.key
  | _ => none

/-- **A write of a run record** fails and changes nothing, or it keeps an updated record. -/
theorem writeRun_cases (w : World) (id : String) (updates : Keyed Value) :
    (w.writeRun id updates).stores.runs = w.stores.runs
      ∨ ∃ existing r held, w.recordOf id = .ok existing
        ∧ RunRecord.update existing id updates w.stamp = .ok r
        ∧ hold w.stores.runs.backend r = .ok held
        ∧ (w.writeRun id updates).stores.runs.backend = w.stores.runs.backend
        ∧ (w.writeRun id updates).stores.runs.records = w.stores.runs.records.put id held := by
  unfold writeRun useStores
  simp only [Stores.perform]
  split
  · simp only [Stores.performOpen, Stores.writing, Stores.setRun]
    by_cases hout : w.stores.outage.hits updates
    · left; simp [record, hout]
    · simp only [record, stamp, hout, Bool.false_eq_true, ↓reduceIte]
      cases hset : w.stores.runs.set id updates (Stamp.ofMicros w.clock) with
      | error f => left; simp [bind, Except.bind]
      | ok res =>
        obtain ⟨r, runs⟩ := res
        obtain ⟨existing, held, hexisting, hr, hheld, hbackend, hrecords⟩ :=
          RunStore.get_of_set hset
        exact .inr ⟨existing, r, held, hexisting, hr, hheld, hbackend, hrecords⟩
  · exact .inl rfl

/-- Other runs are not touched. -/
theorem recordOf_writeRun_of_ne (w : World) {id other : String} (updates : Keyed Value)
    (h : other ≠ id) : (w.writeRun id updates).recordOf other = w.recordOf other := by
  rcases w.writeRun_cases id updates with hruns | ⟨_, _, held, -, -, -, -, hrecords⟩
  · rw [recordOf, hruns, recordOf]
  · rw [recordOf, RunStore.get, hrecords, Keyed.readHeld_put_of_ne _ _ h, recordOf, RunStore.get]

theorem checkpointOf_eq_some {w : World} {id : String} {v : Value} :
    w.checkpointOf id = some v ↔
      ∃ r, w.recordOf id = .ok (some r) ∧ r.metadata.get? StoredCheckpoint.key = some v := by
  unfold checkpointOf
  split
  · next r h => rw [h]; simp
  · next hne =>
    simp only [reduceCtorEq, false_iff, not_exists, not_and]
    exact fun r hr => absurd hr (hne r)

/-- A record that cannot be read any more. -/
def Unreadable (w : World) (id : String) : Prop := ∃ f, w.recordOf id = .error f

/-- **What a write makes of the record** that is read afterwards, exactly. -/
theorem recordOf_writeRun_cases (w : World) (id : String) (updates : Keyed Value) :
    (w.writeRun id updates).recordOf id = w.recordOf id
      ∨ (w.writeRun id updates).Unreadable id
      ∨ ∃ existing r held r', w.recordOf id = .ok existing
        ∧ RunRecord.update existing id updates w.stamp = .ok r
        ∧ hold w.stores.runs.backend r = .ok held
        ∧ held.read = .ok r' ∧ (w.writeRun id updates).recordOf id = .ok (some r') := by
  rcases w.writeRun_cases id updates with hruns | ⟨existing, r, held, hex, hr, hheld, -, hrecords⟩
  · exact .inl (by rw [recordOf, hruns, recordOf])
  · have hread : (w.writeRun id updates).recordOf id = some <$> held.read := by
      rw [recordOf, RunStore.get, hrecords, Keyed.readHeld_put_self]
    cases hheld' : held.read with
    | error f => exact .inr (.inl ⟨f, by rw [hread, hheld']; rfl⟩)
    | ok r' =>
      exact .inr (.inr ⟨existing, r, held, r', hex, hr, hheld, hheld', by rw [hread, hheld']; rfl⟩)

/-- What a write makes of the record, up to copies. -/
theorem recordOf_writeRun (w : World) (id : String) (updates : Keyed Value) :
    (w.writeRun id updates).recordOf id = w.recordOf id
      ∨ (w.writeRun id updates).Unreadable id
      ∨ ∃ existing r r', w.recordOf id = .ok existing
        ∧ RunRecord.update existing id updates w.stamp = .ok r
        ∧ (w.writeRun id updates).recordOf id = .ok (some r') ∧ r.Copy r' := by
  rcases w.recordOf_writeRun_cases id updates with
    hsame | hlost | ⟨existing, r, held, r', hex, hr, hheld, hread, hr'⟩
  · exact .inl hsame
  · exact .inr (.inl hlost)
  · exact .inr (.inr ⟨existing, r, r', hex, hr, hr', copy_of_hold hheld hread⟩)

theorem get?_of_copy {m m' : Keyed Value} (key : String)
    (hm : m' = m ∨ m' = Value.storableFields m) :
    m'.get? key = m.get? key ∨ m'.get? key = (m.get? key).map Value.storable := by
  rcases hm with rfl | rfl
  · exact .inl rfl
  · exact .inr (get?_storableFields ..)

/-- **What becomes of a checkpoint**: its record cannot be read any more; or it stays, perhaps as the
    copy that a document holds; or, when the attempt is saved, it is a copy of the attempt. -/
inductive CheckpointStep (saving : Prop) (w : World) (id : String) (w' : World) : Prop where
  | unreadable (h : w'.Unreadable id)
  | stays (h : w'.checkpointOf id = w.checkpointOf id)
  | copied (h : w'.checkpointOf id = (w.checkpointOf id).map Value.storable)
  | saved {data v : Value} (hsaving : saving) (hdata : w.attempt.checkpoint = .ok data) (hkept : data.Kept v)
      (h : w'.checkpointOf id = some v)

/-- The time does not matter to what becomes of a checkpoint. -/
theorem CheckpointStep.of_clock {saving : Prop} {w w' : World} {id : String} {t : Clock}
    (h : CheckpointStep saving { w with clock := t } id w') (saving' : Prop) (hs : saving → saving') :
    CheckpointStep saving' w id w' := by
  cases h with
  | unreadable h => exact .unreadable h
  | stays h => exact .stays h
  | copied h => exact .copied h
  | saved hsaving hdata hkept h => exact .saved (hs hsaving) hdata hkept h

/-- An update that spares the checkpoint leaves what was there. -/
theorem checkpointStep_writeRun (w : World) (id other : String) {updates : Keyed Value}
    (hspares : RunRecord.SparesCheckpoint updates) :
    CheckpointStep False w other (w.writeRun id updates) := by
  by_cases hid : other = id
  · subst hid
    rcases w.recordOf_writeRun other updates with hsame | hlost | ⟨ex, r, r', hex, hr, hr', hcopy⟩
    · exact .stays (by rw [checkpointOf, hsame, checkpointOf])
    · exact .unreadable hlost
    · obtain ⟨error, hoverlays⟩ := RunRecord.metadata_of_update hr
      have hold : r.metadata.get? StoredCheckpoint.key = w.checkpointOf other := by
        rw [RunRecord.overlays_spared hspares.entry hoverlays, checkpointOf, hex]
        cases ex <;> rfl
      have hnew : (w.writeRun other updates).checkpointOf other
          = r'.metadata.get? StoredCheckpoint.key := by rw [checkpointOf, hr']
      rcases get?_of_copy StoredCheckpoint.key hcopy.metadata with h | h
      · exact .stays (by rw [hnew, h, hold])
      · exact .copied (by rw [hnew, h, hold])
  · exact .stays (by rw [checkpointOf, recordOf_writeRun_of_ne w updates hid, checkpointOf])

theorem overlays_checkpoint {base : RunRecord} {data : Value} {metadata : Keyed Value}
    {error : Option ErrorInfo}
    (h : base.overlays [("metadata", .object [(StoredCheckpoint.key, data)])]
      = .ok (metadata, error)) :
    metadata = base.metadata.put StoredCheckpoint.key data ∧ error = base.error := by
  simp only [RunRecord.overlays, List.foldlM_cons, List.foldlM_nil, Update.overlay, Value.truthy,
    List.isEmpty_cons, Bool.not_false, Bool.not_true, Bool.false_eq_true, ↓reduceIte, pure,
    Except.pure, bind, Except.bind, Keyed.putAll, List.foldl_cons, List.foldl_nil,
    Except.ok.injEq, Prod.mk.injEq] at h
  exact ⟨h.1.symm, h.2.symm⟩

theorem checkpointStep_saveCheckpoint (w : World) (id other : String) :
    CheckpointStep True w other (w.saveCheckpoint id) := by
  unfold saveCheckpoint
  split
  · next data hdata =>
    by_cases hid : other = id
    · subst hid
      rcases w.recordOf_writeRun other _ with hsame | hlost | ⟨ex, r, r', hex, hr, hr', hcopy⟩
      · exact .stays (by rw [checkpointOf, hsame, checkpointOf])
      · exact .unreadable hlost
      · obtain ⟨error, hoverlays⟩ := RunRecord.metadata_of_update hr
        have hold : r.metadata.get? StoredCheckpoint.key = some data := by
          rw [(overlays_checkpoint hoverlays).1, Keyed.get?_put_self]
        rcases get?_of_copy StoredCheckpoint.key hcopy.metadata with h | h
        · exact .saved trivial hdata (.inl rfl) (by rw [checkpointOf, hr']; exact h.trans hold)
        · exact .saved trivial hdata (.inr rfl) (by
            rw [checkpointOf, hr']; exact h.trans (by rw [hold]; rfl))
    · exact .stays (by rw [checkpointOf, recordOf_writeRun_of_ne w _ hid, checkpointOf])
  · exact .stays rfl

/-- A record that cannot be read is not written any more. -/
theorem Unreadable.writeRun {w : World} {other : String} (h : w.Unreadable other) (id : String)
    (updates : Keyed Value) : (w.writeRun id updates).Unreadable other := by
  obtain ⟨f, hf⟩ := h
  by_cases hid : other = id
  · subst hid
    rcases w.writeRun_cases other updates with hruns | ⟨existing, _, _, hex, -⟩
    · exact ⟨f, by rw [recordOf, hruns]; exact hf⟩
    · rw [hf] at hex; exact absurd hex (by simp)
  · exact ⟨f, by rw [recordOf_writeRun_of_ne w updates hid]; exact hf⟩

theorem Unreadable.saveCheckpoint {w : World} {other : String} (h : w.Unreadable other)
    (id : String) : (w.saveCheckpoint id).Unreadable other := by
  unfold World.saveCheckpoint
  split
  · exact h.writeRun ..
  · exact h

end World

/-! ## Operations -/

/-- Calls that write run records. -/
def Call.writesRun : Call → Bool
  | .updateRun _ _ | .saveCheckpoint _ | .store (.setRun _ _) => true
  | _ => false

theorem Call.writesRun_of_isOutside {c : Call} (h : c.isOutside = true) : c.writesRun = false := by
  cases c <;> simp only [Call.isOutside, Bool.false_eq_true] at h <;> rfl

/-- The kinds of records. -/
inductive RecordKind where
  | runs
  | jobs
  | queues

/-- The kind of records that an operation writes. -/
def StoreOp.writes? : StoreOp → Option RecordKind
  | .setRun .. => some .runs
  | .setJob .. | .updateJob .. | .addInternalJob .. => some .jobs
  | .createQueue .. | .appendStep .. | .updateStep .. | .updateQueue .. => some .queues
  | _ => none

namespace Stores

/-- **What an operation leaves of the stores**: all as it was, or other records of the kind that it writes
    and everything else as it was. -/
inductive Touches (s : Stores) (op : StoreOp) : Stores → Prop where
  | nothing : Touches s op s
  | runs (h : op.writes? = some .runs) (runs : RunStore) : Touches s op { s with runs }
  | jobs (h : op.writes? = some .jobs) (jobs : JobStore) : Touches s op { s with jobs }
  | queues (h : op.writes? = some .queues) (queues : QueueStore) : Touches s op { s with queues }

variable {s : Stores} {op : StoreOp} {now : Stamp}

theorem writing_touches {α : Type} {a : Except Fault (α × Stores)} {answer : α → StoreAnswer}
    (h : ∀ v s', a = .ok (v, s') → s.Touches op s') : s.Touches op (s.writing a answer).2 := by
  unfold writing
  split
  · next v s' => exact h v s' rfl
  · exact .nothing

/-- Each operation writes records of one kind at most. -/
theorem perform_touches (s : Stores) (now : Stamp) (op : StoreOp) : s.Touches op (s.perform now op).2 := by
  unfold perform
  split
  · cases op with
    | getRun | runOfExecution | listRuns | getJob | listJobs | getQueue | listQueues => exact .nothing
    | setRun runId updates =>
      refine writing_touches fun r s' h => ?_
      unfold setRun at h
      split at h
      · exact absurd h (by simp)
      · obtain ⟨_, -, h⟩ := Fault.bind_eq_ok.mp h
        cases h
        exact .runs rfl _
    | setJob | updateJob | addInternalJob =>
      refine writing_touches fun _ s' h => ?_
      obtain ⟨_, -, h⟩ := Fault.map_eq_ok.mp h
      cases h
      exact .jobs rfl _
    | appendStep | updateStep =>
      refine writing_touches fun r s' h => ?_
      obtain ⟨_, -, h⟩ := Fault.map_eq_ok.mp h
      cases h
      exact .queues rfl _
    | createQueue =>
      refine writing_touches fun r s' h => ?_
      obtain ⟨_, -, h⟩ := Fault.bind_eq_ok.mp h
      obtain ⟨_, -, h⟩ := Fault.bind_eq_ok.mp h
      cases h
      exact .queues rfl _
    | updateQueue => exact .queues rfl _
  · exact .nothing

namespace Touches

variable {s' : Stores} (h : s.Touches op s')
include h

theorem runs_eq (hop : op.writes? ≠ some .runs) : s'.runs = s.runs := by
  cases h with
  | runs hruns => exact absurd hruns hop
  | nothing | jobs | queues => rfl

theorem jobs_eq (hop : op.writes? ≠ some .jobs) : s'.jobs = s.jobs := by
  cases h with
  | jobs hjobs => exact absurd hjobs hop
  | nothing | runs | queues => rfl

theorem queues_eq (hop : op.writes? ≠ some .queues) : s'.queues = s.queues := by
  cases h with
  | queues hqueues => exact absurd hqueues hop
  | nothing | runs | jobs => rfl

end Touches

/-- Only writes of run records change what is kept of runs. -/
theorem perform_runs (h : (Call.store op).writesRun = false) : (s.perform now op).2.runs = s.runs :=
  (s.perform_touches now op).runs_eq (by cases op <;> simp_all [Call.writesRun, StoreOp.writes?])

end Stores

/-- **The operations that a call carries out**: its own, or a write of a run record. -/
inductive Call.Performs : Call → StoreOp → Prop where
  | store (op : StoreOp) : Performs (.store op) op
  | update (id : String) (updates : Keyed Value) : Performs (.updateRun id updates) (.setRun id updates)
  | save (id : String) (data : Value) :
      Performs (.saveCheckpoint id) (.setRun id [("metadata", .object [(StoredCheckpoint.key, data)])])

theorem Call.Performs.writesRun_eq {c : Call} {op : StoreOp} (h : c.Performs op) :
    (Call.store op).writesRun = c.writesRun := by
  cases h <;> rfl

namespace World

@[simp] theorem record_stores (w : World) (e : Event) : (w.record e).stores = w.stores := rfl

theorem amend_stores (w : World) (path : String) (fields : Keyed Value) :
    (w.amend path fields).2.stores = w.stores := by
  unfold amend
  split <;> rfl

/-- **What a deed makes of the stores**: nothing, or what an operation makes of them that its call carries
    out. -/
theorem Answers.stores_cases {w w' : World} {d : Deed} (h : w.Answers d w') :
    w'.stores = w.stores
      ∨ ∃ op, d.call.Performs op ∧ w'.stores = (w.stores.perform (.ofMicros d.start) op).2 := by
  cases h with
  | outside _ _ _ _ hstores => exact .inl hstores
  | @inside step c answer start w' hc hstart hstep =>
    cases c <;> simp only [Call.isOutside, Bool.true_eq_false] at hc <;>
      simp only [World.step, Progress.now.injEq] at hstep <;> obtain ⟨-, rfl⟩ := hstep
    case store op => exact .inr ⟨op, .store op, rfl⟩
    case updateRun id updates => exact .inr ⟨_, .update id updates, rfl⟩
    case saveCheckpoint id =>
      unfold World.saveCheckpoint
      split
      · next data _ => exact .inr ⟨_, .save id data, rfl⟩
      · exact .inl rfl
    case amend => exact .inl (amend_stores ..)
    all_goals exact .inl rfl

theorem Answers.runs_eq {w w' : World} {d : Deed} (h : w.Answers d w')
    (hcall : d.call.writesRun = false) : w'.stores.runs = w.stores.runs := by
  rcases h.stores_cases with hsame | ⟨op, hop, hstores⟩
  · rw [hsame]
  · rw [hstores]
    exact Stores.perform_runs (hop.writesRun_eq.trans hcall)

theorem Answers.recordOf_eq {w w' : World} {d : Deed} (h : w.Answers d w')
    (hcall : d.call.writesRun = false) (id : String) : w'.recordOf id = w.recordOf id := by
  rw [recordOf, h.runs_eq hcall, recordOf]

theorem Answers.checkpointOf_eq {w w' : World} {d : Deed} (h : w.Answers d w')
    (hcall : d.call.writesRun = false) (id : String) : w'.checkpointOf id = w.checkpointOf id := by
  rw [checkpointOf, h.recordOf_eq hcall, checkpointOf]

theorem Answers.updateRun_eq {w w' : World} {step : Option StepPath} {id : String}
    {updates : Keyed Value} {answer : Unit} {start stop : Clock}
    (h : w.Answers ⟨step, .updateRun id updates, answer, start, stop⟩ w') :
    w' = ({ w with clock := start } : World).writeRun id updates :=
  (Progress.now.inj (h.step_eq rfl).2.2).2.symm

theorem Answers.saveCheckpoint_eq {w w' : World} {step : Option StepPath} {id : String}
    {answer : Unit} {start stop : Clock}
    (h : w.Answers ⟨step, .saveCheckpoint id, answer, start, stop⟩ w') :
    w' = ({ w with clock := start } : World).saveCheckpoint id :=
  (Progress.now.inj (h.step_eq rfl).2.2).2.symm

end World

/-- Calls that touch run records only by saving checkpoints or by updates that spare them. -/
inductive Call.Orderly : Call → Prop where
  | other {c : Call} (h : c.writesRun = false) : Orderly c
  | update (id : String) {updates : Keyed Value} (h : RunRecord.SparesCheckpoint updates) :
      Orderly (.updateRun id updates)
  | save (id : String) : Orderly (.saveCheckpoint id)

namespace World

theorem Answers.checkpointStep {w w' : World} {d : Deed} (h : w.Answers d w')
    (hd : d.call.Orderly) (id : String) :
    CheckpointStep (∃ other, d.call = .saveCheckpoint other) w id w' := by
  obtain ⟨step, call, answer, start, stop⟩ := d
  cases hd with
  | other hc => exact .stays (h.checkpointOf_eq hc id)
  | update other hspares =>
    rw [h.updateRun_eq]
    exact (checkpointStep_writeRun _ other id hspares).of_clock _ False.elim
  | save other =>
    rw [h.saveCheckpoint_eq]
    exact (checkpointStep_saveCheckpoint _ other id).of_clock _ fun _ => ⟨other, rfl⟩

theorem Answers.unreadable {w w' : World} {d : Deed} (h : w.Answers d w') (hd : d.call.Orderly)
    {id : String} (hw : w.Unreadable id) : w'.Unreadable id := by
  obtain ⟨step, call, answer, start, stop⟩ := d
  cases hd with
  | other hc => obtain ⟨f, hf⟩ := hw; exact ⟨f, by rw [h.recordOf_eq hc]; exact hf⟩
  | update other hspares =>
    rw [h.updateRun_eq]
    exact Unreadable.writeRun (w := { w with clock := start }) hw ..
  | save other =>
    rw [h.saveCheckpoint_eq]
    exact Unreadable.saveCheckpoint (w := { w with clock := start }) hw ..

end World

end Runbook
