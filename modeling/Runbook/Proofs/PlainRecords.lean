import Runbook.Proofs.JobHistory

/-!
# `Proofs.PlainRecords` — records of plain data

A record of plain data, with proper stamps, is read from its document as it was; only the end of a queue
that was set from outside is a text before and a stamp afterwards. Updates with plain data leave such
records.

## Contents
- **Fields.** Updates and overlays of plain data.
- **Runs and jobs.** `RunRecord.Plain`, `JobRecord.Plain`, and what their updates leave.
- **Queues.** `QueueRecord.Plain`; `QueueRecord.Twin`, records of one queue that are read again the same.
-/

namespace Runbook

/-! ## Fields -/

namespace Value

theorem allFieldsData_iff {fields : Keyed Value} :
    allFieldsData fields = true ↔ ∀ entry ∈ fields, entry.2.isData = true := by
  induction fields with
  | nil => simp [allFieldsData]
  | cons entry rest ih =>
    obtain ⟨k, v⟩ := entry
    rw [allFieldsData, Bool.and_eq_true, ih, List.forall_mem_cons]

theorem isData_of_get? {fields : Keyed Value} {key : String} {v : Value}
    (h : allFieldsData fields = true) (hv : fields.get? key = some v) : v.isData = true :=
  allFieldsData_iff.mp h _ (Keyed.mem_of_get? hv)

theorem allFieldsData_put {fields : Keyed Value} {key : String} {v : Value}
    (h : allFieldsData fields = true) (hv : v.isData = true) : allFieldsData (fields.put key v) = true := by
  induction fields with
  | nil => rw [Keyed.put, allFieldsData, hv]; rfl
  | cons entry rest ih =>
    obtain ⟨k, old⟩ := entry
    rw [allFieldsData, Bool.and_eq_true] at h
    rw [Keyed.put]
    split
    · rw [allFieldsData, hv, h.2]; rfl
    · rw [allFieldsData, h.1, ih h.2]; rfl

theorem allFieldsData_putAll {m fields : Keyed Value} (h : allFieldsData m = true)
    (hfields : allFieldsData fields = true) : allFieldsData (m.putAll fields) = true := by
  unfold Keyed.putAll
  induction fields generalizing m with
  | nil => exact h
  | cons entry rest ih =>
    rw [allFieldsData, Bool.and_eq_true] at hfields
    exact ih (allFieldsData_put h hfields.1) hfields.2

end Value

theorem Decode.dictionary_eq_ok {v : Value} {fields : Keyed Value} (h : dictionary v = .ok fields) :
    v = .object fields := by
  cases v with
  | object fs => exact congrArg Value.object (Checked.ok.inj h)
  | _ => exact nomatch h

namespace Update

variable {updates m m' : Keyed Value} {v : Value} {key : String}

theorem overlay_isData (hm : Value.allFieldsData m = true) (hv : v.isData = true)
    (h : overlay m v = .ok m') : Value.allFieldsData m' = true := by
  rw [overlay_eq_ok h]
  cases v with
  | object fields => exact Value.allFieldsData_putAll hm hv
  | _ => exact hm

theorem isData_of_newValue? (hupdates : Value.allFieldsData updates = true)
    (h : newValue? updates key = some v) : v.isData = true := by
  unfold newValue? Value.present? at h
  split at h
  · exact absurd h (by simp)
  · exact Value.isData_of_get? hupdates h

theorem field_isData {old a : Value} (hupdates : Value.allFieldsData updates = true)
    (hold : old.isData = true) (h : field updates key old Decode.anything = .ok a) : a.isData = true := by
  unfold field at h
  split at h
  · next v hv =>
    obtain rfl := Checked.ok.inj (Checked.under_eq_ok.mp h)
    exact isData_of_newValue? hupdates hv
  · exact Checked.ok.inj h ▸ hold

/-- A time after an update is the one before, or was read from the update. -/
theorem field_proper {old s : Stamp} (hold : old.Proper)
    (h : field updates key old Decode.stamp = .ok s) : s.Proper := by
  rcases field_cases h with rfl | ⟨v, hv⟩
  · exact hold
  · exact Decode.proper_of_stamp hv

theorem field_proper? {old s : Option Stamp} (hold : ∀ t ∈ old, t.Proper)
    (h : field updates key old (fun v => some <$> Decode.stamp v) = .ok s) : ∀ t ∈ s, t.Proper := by
  rcases field_cases h with rfl | ⟨v, hv⟩
  · exact hold
  · obtain ⟨t, ht, rfl⟩ := Checked.map_eq_ok.mp hv
    rintro _ ⟨⟩
    exact Decode.proper_of_stamp ht

end Update

/-! ## Agreement -/

/-- **Results that agree**: the same fault, or results in a relation. -/
inductive Fault.Agree {α β : Type} (R : α → β → Prop) : Except Fault α → Except Fault β → Prop
  | ok {a : α} {b : β} (h : R a b) : Agree R (.ok a) (.ok b)
  | error (f : Fault) : Agree R (.error f) (.error f)

namespace Fault.Agree

variable {α β γ δ : Type} {R : α → β → Prop} {S : γ → δ → Prop} {x : Except Fault α} {y : Except Fault β}

/-- What is done next agrees when it does so for results in the relation. -/
theorem bind {f : α → Except Fault γ} {g : β → Except Fault δ} (h : Agree R x y)
    (hnext : ∀ a b, R a b → Agree S (f a) (g b)) : Agree S (x >>= f) (y >>= g) := by
  cases h with
  | ok h => exact hnext _ _ h
  | error f => exact .error f

theorem map {f : α → γ} {g : β → δ} (h : Agree R x y) (hnext : ∀ a b, R a b → S (f a) (g b)) :
    Agree S (f <$> x) (g <$> y) := by
  cases h with
  | ok h => exact .ok (hnext _ _ h)
  | error f => exact .error f

/-- A result agrees with itself when it is in the relation. -/
theorem self {R : α → α → Prop} (h : ∀ a, x = .ok a → R a a) : Agree R x x := by
  cases x with
  | ok a => exact .ok (h a rfl)
  | error f => exact .error f

end Fault.Agree

/-! ## Runs and jobs -/

namespace RunRecord

variable {r : RunRecord} {updates : Keyed Value} {id : String} {now : Stamp}

/-- **A run record of plain data.** -/
structure Plain (r : RunRecord) : Prop extends r.Proper where
  result : r.result.isData = true
  metadata : Value.allFieldsData r.metadata = true

theorem Plain.toValue_isData (h : r.Plain) : r.toValue.isData = true := by
  simp [toValue, Value.isData, Value.allFieldsData, ErrorInfo.isData_toValue?, Stamp.isData_toValue?,
    Stamp.toValue, h.result, h.metadata]

theorem overlays_isData {base : RunRecord} {metadata : Keyed Value} {error : Option ErrorInfo}
    (hbase : Value.allFieldsData base.metadata = true) (hupdates : Value.allFieldsData updates = true)
    (h : base.overlays updates = .ok (metadata, error)) : Value.allFieldsData metadata = true := by
  refine foldlM_keeps (I := fun acc : Keyed Value × Option ErrorInfo => Value.allFieldsData acc.1 = true)
    ?_ hbase h
  rintro acc ⟨key, v⟩ hmem acc' hacc hround
  dsimp only at hround
  split at hround
  · obtain ⟨m, hm, hacc'⟩ := Fault.bind_eq_ok.mp hround
    rw [← Except.ok.inj hacc']
    exact Update.overlay_isData hbase (Value.allFieldsData_iff.mp hupdates _ hmem) hm
  · split at hround
    · obtain ⟨e, -, hacc'⟩ := Fault.bind_eq_ok.mp hround
      rwa [← Except.ok.inj hacc']
    · rwa [← Except.ok.inj hround]

theorem Plain.settle (h : r.Plain) (hnow : now.Proper) : (r.settle now).Plain := by
  unfold RunRecord.settle
  split
  · refine { h with completedAt := fun s hs => ?_ }
    dsimp only at hs
    cases hcompleted : r.completedAt with
    | none =>
      rw [hcompleted, Option.none_or] at hs
      exact Option.some.inj hs ▸ hnow
    | some t =>
      rw [hcompleted, Option.some_or] at hs
      exact h.completedAt s (hcompleted.trans hs)
  · exact h

/-- **Updates with plain data** leave run records of plain data. -/
theorem plain_of_update {existing : Option RunRecord} (hbase : ∀ e ∈ existing, e.Plain)
    (hupdates : Value.allFieldsData updates = true) (hnow : now.Proper)
    (h : update existing id updates now = .ok r) : r.Plain := by
  obtain ⟨metadata, error, r₀, hoverlays, hrevise, rfl⟩ := update_eq_ok.mp h
  have hstart : (existing.getD (start id now)).Plain := by
    cases existing with
    | none => exact ⟨⟨hnow, hnow, by simp [start]⟩, rfl, rfl⟩
    | some e => exact hbase e rfl
  obtain ⟨_, _, _, _, _, _, -, -, -, hresult, hcreated, hcompleted, rfl⟩ := revise_eq_ok.mp hrevise
  refine Plain.settle ⟨⟨?_, hnow, ?_⟩, ?_, ?_⟩ hnow
  · exact Update.field_proper hstart.createdAt hcreated
  · exact Update.field_proper? hstart.completedAt hcompleted
  · exact Update.field_isData hupdates hstart.result hresult
  · exact overlays_isData hstart.metadata hupdates hoverlays

end RunRecord

namespace JobRecord

variable {r : JobRecord} {updates : Keyed Value} {id : String} {now : Stamp}

/-- **A job record of plain data.** -/
structure Plain (r : JobRecord) : Prop extends r.Proper where
  input : r.input.isData = true
  output : r.output.isData = true
  metadata : Value.allFieldsData r.metadata = true

theorem Plain.toValue_isData (h : r.Plain) : r.toValue.isData = true := by
  simp [toValue, Value.isData, Value.allFieldsData, ErrorInfo.isData_toValue?, Stamp.isData_toValue?,
    Stamp.toValue, InternalJob.allData_toValue, h.input, h.output, h.metadata]

theorem overlays_isData {base : JobRecord} {o : Overlays}
    (hbase : Value.allFieldsData base.metadata = true) (hupdates : Value.allFieldsData updates = true)
    (h : base.overlays updates = .ok o) : Value.allFieldsData o.metadata = true := by
  rcases metadata_of_overlays h with hsame | ⟨v, hmem, hm⟩
  · rwa [hsame]
  · exact Update.overlay_isData hbase (Value.allFieldsData_iff.mp hupdates _ hmem) hm

/-- **Updates with plain data** leave job records of plain data. -/
theorem plain_of_update {existing : Option JobRecord} (hbase : ∀ e ∈ existing, e.Plain)
    (hupdates : Value.allFieldsData updates = true) (hnow : now.Proper)
    (h : update existing id updates now = .ok r) : r.Plain := by
  have hproper := (proper_of_update (fun e he => (hbase e he).toProper) hnow h).1
  obtain ⟨o, r₀, hoverlays, hrevise, rfl⟩ := update_eq_ok.mp h
  have hstart : (existing.getD (start id now)).Plain := by
    cases existing with
    | none => exact ⟨⟨hnow, hnow, by simp [start]⟩, rfl, rfl, rfl⟩
    | some e => exact hbase e rfl
  have hfields : Value.allFieldsData
      (if (existing.getD (start id now)).isTerminal then [] else updates) = true := by
    split
    · rfl
    · exact hupdates
  obtain ⟨_, _, _, _, _, _, _, -, -, hinput, houtput, -, -, -, rfl⟩ := revise_eq_ok.mp hrevise
  refine ⟨hproper, ?_, ?_, ?_⟩
  · exact (settle_input _ now).symm ▸ Update.field_isData hfields hstart.input hinput
  · exact (settle_output _ now).symm ▸ Update.field_isData hfields hstart.output houtput
  · exact (settle_metadata _ now).symm ▸ overlays_isData hstart.metadata hupdates hoverlays

theorem Plain.addInternal (h : r.Plain) (child : InternalJob) (hnow : now.Proper) :
    (r.addInternal child now).Plain :=
  ⟨⟨h.createdAt, hnow, h.completedAt⟩, h.input, h.output, h.metadata⟩

end JobRecord

/-! ## Queues -/

namespace QueueStepRecord

variable {s s' : QueueStepRecord} {updates : Keyed Value} {now : Stamp}

/-- **A step of plain data.** -/
structure Plain (s : QueueStepRecord) : Prop extends s.Proper where
  input : s.input.isData = true
  output : s.output.isData = true

theorem Plain.toValue_isData (h : s.Plain) : s.toValue.isData = true := by
  simp [toValue, Value.isData, Value.allFieldsData, ErrorInfo.isData_toValue?, Stamp.isData_toValue?,
    h.input, h.output]

theorem plain_queued (workerId workerJobId : String) : (queued workerId workerJobId).Plain :=
  ⟨⟨by simp [queued], by simp [queued]⟩, rfl, rfl⟩

theorem newTime_proper {key : String} {transition time : Option Stamp}
    (htransition : ∀ t ∈ transition, t.Proper) (h : newTime updates key transition = .ok time) :
    ∀ t ∈ time, t.Proper := by
  unfold newTime at h
  split at h
  · split at h
    · obtain ⟨t, ht, rfl⟩ := Checked.map_eq_ok.mp (Checked.under_eq_ok.mp h)
      rintro _ ⟨⟩
      exact Decode.proper_of_stamp ht
    · exact Checked.ok.inj h ▸ htransition
  · exact Checked.ok.inj h ▸ htransition

/-- A time that is set when there was none. -/
theorem proper_or {time : Option Stamp} (h : ∀ t ∈ time, t.Proper) (hnow : now.Proper) (p : Prop)
    [Decidable p] : ∀ t ∈ if p then time.or (some now) else time, t.Proper := by
  split
  · cases time with
    | none => rintro _ ⟨⟩; exact hnow
    | some t => exact h
  · exact h

/-- **What becomes of a step in an update**: worker and job stay, and the other fields are laid over. -/
theorem of_update (h : s.update updates now = .ok s') :
    s'.workerId = s.workerId ∧ s'.workerJobId = s.workerJobId
      ∧ Update.field updates "status" s.status JobStatus.ofValue = .ok s'.status
      ∧ Update.field updates "input" s.input Decode.anything = .ok s'.input
      ∧ Update.field updates "output" s.output Decode.anything = .ok s'.output
      ∧ (s.Proper → now.Proper → s'.Proper) := by
  obtain ⟨error, hs⟩ : ∃ error, s.revise updates error now = .ok s' := by
    unfold update at h
    split at h
    · obtain ⟨error, -, hs⟩ := Fault.bind_eq_ok.mp h
      exact ⟨error, Fault.ofChecked_eq_ok.mp hs⟩
    · exact ⟨s.error, Fault.ofChecked_eq_ok.mp h⟩
  simp only [revise, Checked.seq_eq_ok, Checked.map_eq_ok] at hs
  obtain ⟨_, _, ⟨_, _, ⟨_, _, ⟨_, _, ⟨_, hstatus, rfl⟩, hinput, rfl⟩, houtput, rfl⟩, hstarted, rfl⟩,
    hcompleted, rfl⟩ := hs
  refine ⟨rfl, rfl, hstatus, hinput, houtput, fun hproper hnow => ⟨?_, ?_⟩⟩
  · exact newTime_proper (proper_or hproper.startedAt hnow _) hstarted
  · exact newTime_proper (proper_or hproper.completedAt hnow _) hcompleted

/-- **Updates with plain data** leave steps of plain data. -/
theorem plain_of_update (h : s.Plain) (hupdates : Value.allFieldsData updates = true) (hnow : now.Proper)
    (hs : s.update updates now = .ok s') : s'.Plain := by
  obtain ⟨-, -, -, hinput, houtput, hproper⟩ := of_update hs
  exact ⟨hproper h.toProper hnow, Update.field_isData hupdates h.input hinput,
    Update.field_isData hupdates h.output houtput⟩

end QueueStepRecord

namespace Finish

variable {f : Finish}

theorem dated_proper (h : f.Proper) : f.dated.Proper := by
  obtain ⟨s, hs, hdated, -⟩ := dated_eq h
  rw [hdated]
  exact hs

theorem dated_dated (h : f.Proper) : f.dated.dated = f.dated := by
  obtain ⟨s, -, hdated, -⟩ := dated_eq h
  rw [hdated]
  rfl

theorem toValue_dated (h : f.Proper) : f.dated.toValue = f.toValue := by
  obtain ⟨s, -, hdated, hvalue⟩ := dated_eq h
  rw [hdated, hvalue]
  rfl

/-- A proper time of completion counts as given. -/
theorem given?_eq (h : f.Proper) : given? (some f) = some f := by
  cases f with
  | stamp s => rfl
  | other v =>
    obtain ⟨s, -, rfl⟩ := h
    have hne : s.text ≠ "" := fun hempty => by
      have := Stamp.toList_text s
      rw [hempty] at this
      simp at this
    simp [given?, Stamp.toValue, Value.truthy, hne]

end Finish

namespace QueueRecord

variable {r r' : QueueRecord} {updates : Keyed Value} {now : Stamp}

/-- **A queue record of plain data.** -/
structure Plain (r : QueueRecord) : Prop extends r.Proper where
  stepsPlain : ∀ s ∈ r.steps, s.Plain
  metadata : Value.allFieldsData r.metadata = true

theorem Proper.dated (h : r.Proper) : r.dated.Proper where
  status := h.status
  steps := h.steps
  createdAt := h.createdAt
  updatedAt := h.updatedAt
  completedAt := fun f hf => by
    obtain ⟨g, hg, rfl⟩ := Option.map_eq_some_iff.mp hf
    exact Finish.dated_proper (h.completedAt g hg)

theorem Plain.dated (h : r.Plain) : r.dated.Plain where
  toProper := h.toProper.dated
  stepsPlain := h.stepsPlain
  metadata := h.metadata

theorem Plain.dated_dated (h : r.Plain) : r.dated.dated = r.dated := by
  have hfinish : (r.completedAt.map Finish.dated).map Finish.dated = r.completedAt.map Finish.dated := by
    cases hcompleted : r.completedAt with
    | none => rfl
    | some f => exact congrArg some (Finish.dated_dated (h.completedAt f hcompleted))
  unfold QueueRecord.dated
  rw [hfinish]

theorem Plain.toValue_dated (h : r.Plain) : r.dated.toValue = r.toValue := by
  have hfinish : Finish.toValue? (r.completedAt.map Finish.dated) = Finish.toValue? r.completedAt := by
    cases hcompleted : r.completedAt with
    | none => rfl
    | some f => exact Finish.toValue_dated (h.completedAt f hcompleted)
  unfold toValue QueueRecord.dated
  rw [hfinish]

theorem Plain.toValue_isData (h : r.Plain) : r.toValue.isData = true := by
  have hsteps : Value.allData (r.steps.map QueueStepRecord.toValue) = true := by
    have hall := h.stepsPlain
    generalize r.steps = steps at hall
    induction steps with
    | nil => rfl
    | cons s rest ih =>
      rw [List.map_cons, Value.allData, (hall s List.mem_cons_self).toValue_isData,
        ih fun t ht => hall t (.tail _ ht)]
      rfl
  have hstatus : r.status.toValue.isData = true := by
    cases hs : r.status with
    | other v => exact absurd hs (h.status v)
    | _ => rfl
  have hfinish : (Finish.toValue? r.completedAt).isData = true := by
    cases hcompleted : r.completedAt with
    | none => rfl
    | some f =>
      obtain ⟨s, -, -, hvalue⟩ := Finish.dated_eq (h.completedAt f hcompleted)
      show f.toValue.isData = true
      rw [hvalue]
      rfl
  have hcount : (Value.ofInt? r.totalSteps).isData = true := by cases r.totalSteps <;> rfl
  simp [toValue, Value.isData, Value.allFieldsData, Stamp.toValue, hsteps, hstatus, hfinish, hcount,
    h.metadata]

/-- **Records of one queue** that are read again the same. -/
structure Twin (r r' : QueueRecord) : Prop where
  left : r.Plain
  right : r'.Plain
  same : r'.dated = r.dated

theorem Plain.twin_dated (h : r.Plain) : r.Twin r.dated := ⟨h, h.dated, h.dated_dated⟩

theorem Twin.toValue_eq (h : r.Twin r') : r'.toValue = r.toValue := by
  rw [← h.right.toValue_dated, h.same, h.left.toValue_dated]

/-- Twins differ in how the time of completion is held. -/
theorem Twin.eq_with (h : r.Twin r') : ∃ finish, r' = { r with completedAt := finish }
    ∧ finish.map Finish.dated = r.completedAt.map Finish.dated := by
  obtain ⟨id, queueId, status, steps, total, metadata, created, updated, finish⟩ := r
  obtain ⟨id', queueId', status', steps', total', metadata', created', updated', finish'⟩ := r'
  have hsame := h.same
  simp only [QueueRecord.dated, QueueRecord.mk.injEq] at hsame
  obtain ⟨rfl, rfl, rfl, rfl, rfl, rfl, rfl, rfl, hfinish⟩ := hsame
  exact ⟨finish', rfl, hfinish⟩

/-- Twins that differ in nothing else. -/
theorem Plain.twin (h : r.Plain) {finish : Option Finish} (hproper : ∀ f ∈ finish, f.Proper)
    (hfinish : finish.map Finish.dated = r.completedAt.map Finish.dated) :
    r.Twin { r with completedAt := finish } where
  left := h
  right := ⟨⟨h.status, h.steps, h.createdAt, h.updatedAt, hproper⟩, h.stepsPlain, h.metadata⟩
  same := by
    unfold QueueRecord.dated
    rw [hfinish]

/-! ### Updates -/

/-- **Twins that are changed the same**, but for their times of completion. -/
theorem Twin.revised (h : r.Twin r') {status : QueueStatus} {steps : List QueueStepRecord}
    {metadata : Keyed Value} {updatedAt : Stamp} (hstatus : ∀ v, status ≠ .other v)
    (hsteps : ∀ s ∈ steps, s.Plain) (hmetadata : Value.allFieldsData metadata = true)
    (hupdated : updatedAt.Proper) :
    ({ r with status, steps, metadata, updatedAt } : QueueRecord).Twin
      { r' with status, steps, metadata, updatedAt } := by
  have hplain : ({ r with status, steps, metadata, updatedAt } : QueueRecord).Plain :=
    ⟨⟨hstatus, fun s hs => (hsteps s hs).toProper, h.left.createdAt, hupdated, h.left.completedAt⟩, hsteps,
      hmetadata⟩
  have hright := h.right.completedAt
  obtain ⟨finish, rfl, hfinish⟩ := h.eq_with
  exact hplain.twin hright hfinish

theorem plain_of_create {id queueId workerId workerJobId : String} {metadata totalSteps : Value}
    (hmetadata : metadata.isData = true) (hnow : now.Proper)
    (h : create id queueId workerId workerJobId metadata totalSteps now = .ok r) : r.Plain := by
  have h := Fault.ofChecked_eq_ok.mp h
  simp only [Checked.seq_eq_ok, Checked.map_eq_ok] at h
  obtain ⟨_, fields, ⟨_, -, rfl⟩, hfields, rfl⟩ := h
  have hstep : ∀ s ∈ [QueueStepRecord.queued workerId workerJobId], s.Plain :=
    fun s hs => List.mem_singleton.mp hs ▸ QueueStepRecord.plain_queued ..
  refine ⟨⟨by simp, fun s hs => (hstep s hs).toProper, hnow, hnow, by simp⟩, hstep, ?_⟩
  split at hfields
  · obtain rfl := Decode.dictionary_eq_ok (Checked.under_eq_ok.mp hfields)
    exact hmetadata
  · exact Checked.ok.inj hfields ▸ rfl

theorem Twin.appendStep (h : r.Twin r') (workerId workerJobId : String) (hnow : now.Proper) :
    (r.appendStep workerId workerJobId now).Twin (r'.appendStep workerId workerJobId now) := by
  have hsteps : ∀ s ∈ r.steps ++ [.queued workerId workerJobId], s.Plain := by
    simp only [List.mem_append, List.mem_singleton]
    rintro s (hs | rfl)
    · exact h.left.stepsPlain s hs
    · exact QueueStepRecord.plain_queued ..
  have hchange := h.revised h.left.status hsteps h.left.metadata hnow
  obtain ⟨finish, rfl, -⟩ := h.eq_with
  exact hchange

/-- A queue that ends now keeps the time at which it ended already. -/
theorem Plain.endTime_eq (h : r.Plain) (now : Stamp) :
    r.endTime now = r.completedAt.or (some (.stamp now)) := by
  unfold endTime
  cases hcompleted : r.completedAt with
  | none => rfl
  | some f => rw [Finish.given?_eq (h.completedAt f hcompleted)]

theorem Plain.proper_or (h : r.Plain) (hnow : now.Proper) :
    ∀ f ∈ r.completedAt.or (some (.stamp now)), f.Proper := by
  cases hcompleted : r.completedAt with
  | none => rintro _ ⟨⟩; exact hnow
  | some f => rintro _ ⟨⟩; exact h.completedAt f hcompleted

/-- Twins that end now. -/
theorem Twin.ended (h : r.Twin r') (hnow : now.Proper) {status : QueueStatus}
    (hstatus : ∀ v, status ≠ .other v) :
    ({ r with status, completedAt := r.completedAt.or (some (.stamp now)) } : QueueRecord).Twin
      { r' with status, completedAt := r'.completedAt.or (some (.stamp now)) } := by
  have hleft := h.left
  have hplain : Plain { r with status, completedAt := r.completedAt.or (some (.stamp now)) } :=
    ⟨⟨hstatus, hleft.steps, hleft.createdAt, hleft.updatedAt, hleft.proper_or hnow⟩, hleft.stepsPlain,
      hleft.metadata⟩
  have hright := h.right.proper_or hnow
  obtain ⟨finish, rfl, hfinish⟩ := h.eq_with
  refine hplain.twin hright ?_
  simp only [Option.map_or, hfinish]

theorem Twin.follow (h : r.Twin r') (index : Nat) (status : Option String) (hnow : now.Proper) :
    (r.follow index status now).Twin (r'.follow index status now) := by
  have hcount : r'.lastCount = r.lastCount := by
    obtain ⟨finish, rfl, -⟩ := h.eq_with
    rfl
  unfold QueueRecord.follow
  rw [h.left.endTime_eq, h.right.endTime_eq, hcount]
  split
  · exact h.ended hnow nofun
  · split
    · exact h.ended hnow nofun
    · exact h

theorem Twin.setStep (h : r.Twin r') (position : Nat) {s : QueueStepRecord} (hs : s.Plain)
    (hnow : now.Proper) :
    ({ r with steps := r.steps.set position s, updatedAt := now } : QueueRecord).Twin
      { r' with steps := r.steps.set position s, updatedAt := now } := by
  have hsteps : ∀ t ∈ r.steps.set position s, t.Plain := fun t ht => by
    rcases List.mem_or_eq_of_mem_set ht with ht | rfl
    · exact h.left.stepsPlain t ht
    · exact hs
  have hchange := h.revised h.left.status hsteps h.left.metadata hnow
  obtain ⟨finish, rfl, -⟩ := h.eq_with
  exact hchange

/-- **Updates of a step with plain data** agree on twins. -/
theorem Twin.updateStep (h : r.Twin r') (index : Value) (hupdates : Value.allFieldsData updates = true)
    (hnow : now.Proper) :
    Fault.Agree Twin (r.updateStep index updates now) (r'.updateStep index updates now) := by
  have hposition : r'.position index = r.position index := by
    obtain ⟨finish, rfl, -⟩ := h.eq_with
    rfl
  have hsteps : r'.steps = r.steps := by
    obtain ⟨finish, rfl, -⟩ := h.eq_with
    rfl
  unfold QueueRecord.updateStep
  rw [hposition]
  refine Fault.Agree.bind (R := Eq) (.self fun _ _ => rfl) ?_
  rintro position _ rfl
  dsimp only
  rw [hsteps]
  split
  · exact .ok h
  · next step hstep =>
    have hplain : step.Plain := h.left.stepsPlain step (List.mem_of_getElem? hstep)
    refine Fault.Agree.bind (R := fun s s' => s' = s ∧ s.Plain) ?_ ?_
    · exact .self fun s hs => ⟨rfl, QueueStepRecord.plain_of_update hplain hupdates hnow hs⟩
    · rintro s _ ⟨rfl, hs⟩
      exact .ok ((h.setStep position hs hnow).follow _ _ hnow)

/-- **What can be set of a queue from outside**: a status that queues have, metadata that are a mapping,
    and a time of completion that is a stamp. None of them is checked. -/
structure Settable (status : Value) (updates : Keyed Value) : Prop where
  status : status = .null ∨ ∃ word ∈ QueueStatus.words, status = .text word
  metadata : (updates.get? "metadata").getD .null = .null
    ∨ ∃ fields, (updates.get? "metadata").getD .null = .object fields
  finish : ∀ v, Update.newValue? updates "completed_at" = some v → ∃ s : Stamp, s.Proper ∧ v = s.toValue

theorem Twin.withStatus (h : r.Twin r') (hnow : now.Proper) {status : Value}
    (hstatus : status = .null ∨ ∃ word ∈ QueueStatus.words, status = .text word) :
    (r.withStatus status now).Twin (r'.withStatus status now) := by
  rcases hstatus with rfl | ⟨word, hword, rfl⟩
  · exact h
  · simp only [QueueStatus.words, List.mem_cons, List.not_mem_nil, or_false] at hword
    rcases hword with rfl | rfl | rfl | rfl
    · have hchange : Twin { r with status := .running } _ :=
        h.revised nofun h.left.stepsPlain h.left.metadata h.left.updatedAt
      obtain ⟨finish, rfl, -⟩ := h.eq_with
      exact hchange
    · exact h.ended hnow nofun
    · exact h.ended hnow nofun
    · exact h.ended hnow nofun

theorem Twin.withFinish (h : r.Twin r')
    (hfinish : ∀ v, Update.newValue? updates "completed_at" = some v →
      ∃ s : Stamp, s.Proper ∧ v = s.toValue) :
    (r.withFinish updates).Twin (r'.withFinish updates) := by
  obtain ⟨finish, rfl, -⟩ := h.eq_with
  unfold QueueRecord.withFinish
  split
  · next v hv =>
    have hproper : ∀ f ∈ some (Finish.other v), f.Proper := by
      rintro _ ⟨⟩
      exact hfinish v hv
    have hplain : ({ r with completedAt := some (.other v) } : QueueRecord).Plain :=
      ⟨⟨h.left.status, h.left.steps, h.left.createdAt, h.left.updatedAt, hproper⟩, h.left.stepsPlain,
        h.left.metadata⟩
    exact hplain.twin hproper rfl
  · exact h

theorem override_eq_ok {status : Value} {fields : Keyed Value}
    (h : Update.overlay (r.withStatus status now).metadata ((updates.get? "metadata").getD .null)
      = .ok fields) :
    r.override status updates now
      = (withFinish { r.withStatus status now with metadata := fields, updatedAt := now } updates, none) := by
  unfold QueueRecord.override
  dsimp only
  rw [h]
  unfold QueueRecord.withFinish
  cases Update.newValue? updates "completed_at" <;> rfl

/-- **What is set from outside** agrees on twins. -/
theorem Twin.override (h : r.Twin r') (hnow : now.Proper) {status : Value} (hset : Settable status updates)
    (hupdates : Value.allFieldsData updates = true) : ∃ q q', r.override status updates now = (q, none)
      ∧ r'.override status updates now = (q', none) ∧ q.Twin q' := by
  have hstatus := h.withStatus hnow hset.status
  obtain ⟨fields, hoverlay⟩ : ∃ fields, Update.overlay (r.withStatus status now).metadata
      ((updates.get? "metadata").getD .null) = .ok fields := by
    rcases hset.metadata with hnull | ⟨fields, hobject⟩
    · exact ⟨_, by rw [hnull]; rfl⟩
    · rw [hobject]
      unfold Update.overlay
      split <;> exact ⟨_, rfl⟩
  have hgiven : ((updates.get? "metadata").getD .null).isData = true := by
    cases hv : updates.get? "metadata" with
    | none => rfl
    | some v => exact Value.isData_of_get? hupdates hv
  have hfields := Update.overlay_isData hstatus.left.metadata hgiven hoverlay
  obtain ⟨finish, heq, -⟩ := hstatus.eq_with
  refine ⟨_, _, override_eq_ok hoverlay, override_eq_ok (by rw [heq]; exact hoverlay), ?_⟩
  rw [heq] at hstatus ⊢
  exact (hstatus.revised hstatus.left.status hstatus.left.stepsPlain hfields hnow).withFinish hset.finish

end QueueRecord

end Runbook
