import Runbook.Proofs.RunRecords

/-!
# `Proofs.PlainData` — data that survives being written down

Plain data is the same after it was kept as a document, and a context that holds nothing else is
restored from its snapshot as it was.

## Contents
- **Values.** Plain data can be written down and stays the same.
- **Contexts.** `Context.IsData`, kept by whatever steps do to a context; `restore_toValue`.
- **Parts of records.** Errors, times and child jobs are plain data.
-/

namespace Runbook

/-! ## Values -/

namespace Value

mutual
theorem storable_of_isData : ∀ {v : Value}, v.isData = true → v.storable = v
  | .null, _ | .bool _, _ | .int _, _ | .text _, _ => rfl
  | .real x, h => by
    rw [isData] at h
    rw [storable, if_pos h]
  | .list items, h => by
    rw [isData] at h
    rw [storable, storableItems_of_allData h]
  | .object fields, h => by
    rw [isData] at h
    rw [storable, storableFields_of_allData h]

theorem storableItems_of_allData : ∀ {items : List Value}, allData items = true →
    storableItems items = items
  | [], _ => rfl
  | v :: rest, h => by
    rw [allData, Bool.and_eq_true] at h
    rw [storableItems, storable_of_isData h.1, storableItems_of_allData h.2]

theorem storableFields_of_allData : ∀ {fields : Keyed Value}, allFieldsData fields = true →
    storableFields fields = fields
  | [], _ => rfl
  | (k, v) :: rest, h => by
    rw [allFieldsData, Bool.and_eq_true] at h
    rw [storableFields, storable_of_isData h.1, storableFields_of_allData h.2]
end

mutual
theorem unwritable?_of_isData : ∀ {v : Value}, v.isData = true → v.unwritable? = none
  | .null, _ | .bool _, _ | .int _, _ | .text _, _ | .real _, _ => rfl
  | .list items, h => by
    rw [isData] at h
    rw [unwritable?, unwritableItem?_of_allData h]
  | .object fields, h => by
    rw [isData] at h
    rw [unwritable?, unwritableField?_of_allData h]

theorem unwritableItem?_of_allData : ∀ {items : List Value}, allData items = true →
    unwritableItem? items = none
  | [], _ => rfl
  | v :: rest, h => by
    rw [allData, Bool.and_eq_true] at h
    rw [unwritableItem?, unwritable?_of_isData h.1, unwritableItem?_of_allData h.2]
    rfl

theorem unwritableField?_of_allData : ∀ {fields : Keyed Value}, allFieldsData fields = true →
    unwritableField? fields = none
  | [], _ => rfl
  | (k, v) :: rest, h => by
    rw [allFieldsData, Bool.and_eq_true] at h
    rw [unwritableField?, unwritable?_of_isData h.1, unwritableField?_of_allData h.2]
    rfl
end

theorem unwritableItem?_eq_none {items : List Value} :
    unwritableItem? items = none ↔ ∀ v ∈ items, v.unwritable? = none := by
  induction items with
  | nil => simp [unwritableItem?]
  | cons v rest ih => rw [unwritableItem?, Option.or_eq_none_iff, ih, List.forall_mem_cons]

theorem unwritableField?_eq_none {fields : Keyed Value} :
    unwritableField? fields = none ↔ ∀ entry ∈ fields, entry.2.unwritable? = none := by
  induction fields with
  | nil => simp [unwritableField?]
  | cons entry rest ih =>
    obtain ⟨k, v⟩ := entry
    rw [unwritableField?, Option.or_eq_none_iff, ih, List.forall_mem_cons]

mutual
/-- A document of what can be written down can be written down. -/
theorem unwritable?_storable : ∀ {v : Value}, v.unwritable? = none → v.storable.unwritable? = none
  | .null, _ | .bool _, _ | .int _, _ | .text _, _ => rfl
  | .real x, _ => by
    rw [storable]
    split <;> rfl
  | .list items, h => by
    rw [unwritable?] at h
    rw [storable, unwritable?, unwritableItem?_storable h]
  | .object fields, h => by
    rw [unwritable?] at h
    rw [storable, unwritable?, unwritableField?_storable h]

theorem unwritableItem?_storable : ∀ {items : List Value}, unwritableItem? items = none →
    unwritableItem? (storableItems items) = none
  | [], _ => rfl
  | v :: rest, h => by
    rw [unwritableItem?, Option.or_eq_none_iff] at h
    rw [storableItems, unwritableItem?, unwritable?_storable h.1, unwritableItem?_storable h.2]
    rfl

theorem unwritableField?_storable : ∀ {fields : Keyed Value}, unwritableField? fields = none →
    unwritableField? (storableFields fields) = none
  | [], _ => rfl
  | (k, v) :: rest, h => by
    rw [unwritableField?, Option.or_eq_none_iff] at h
    rw [storableFields, unwritableField?, unwritable?_storable h.1, unwritableField?_storable h.2]
    rfl
end

@[simp] theorem isData_ofText? (s : Option String) : (ofText? s).isData = true := by
  cases s <;> rfl

theorem allData_append (xs ys : List Value) :
    allData (xs ++ ys) = (allData xs && allData ys) := by
  induction xs with
  | nil => rfl
  | cons v rest ih => rw [List.cons_append, allData, ih, allData, Bool.and_assoc]

theorem allFieldsData_append (xs ys : Keyed Value) :
    allFieldsData (xs ++ ys) = (allFieldsData xs && allFieldsData ys) := by
  induction xs with
  | nil => rfl
  | cons entry rest ih =>
    obtain ⟨k, v⟩ := entry
    rw [List.cons_append, allFieldsData, ih, allFieldsData, Bool.and_assoc]

/-- Fields that are put over others can be written down if both can. -/
theorem unwritableField?_put {fields : Keyed Value} {key : String} {v : Value}
    (hfields : unwritableField? fields = none) (hv : v.unwritable? = none) :
    unwritableField? (fields.put key v) = none := by
  induction fields with
  | nil => rw [Keyed.put, unwritableField?, hv]; rfl
  | cons entry rest ih =>
    obtain ⟨k, old⟩ := entry
    rw [unwritableField?, Option.or_eq_none_iff] at hfields
    rw [Keyed.put]
    split
    · rw [unwritableField?, hv, hfields.2]; rfl
    · rw [unwritableField?, hfields.1, ih hfields.2]; rfl

theorem unwritable?_of_get? {fields : Keyed Value} {key : String} {v : Value}
    (h : unwritableField? fields = none) (hv : fields.get? key = some v) : v.unwritable? = none :=
  unwritableField?_eq_none.mp h _ (Keyed.mem_of_get? hv)

end Value

/-! ## Contexts -/

namespace Context

/-- **A context of plain data.** -/
structure IsData (c : Context) : Prop where
  input : c.input.isData = true
  steps : Value.allFieldsData c.steps = true
  previous : c.previous.isData = true
  all : Value.allData c.all = true

theorem isData_start {input : Value} (h : input.isData = true) (runId : Option String)
    (collectErrors : Bool) : (start input runId collectErrors).IsData := ⟨h, rfl, rfl, rfl⟩

namespace IsData

variable {c branch : Context}

theorem recordOutput (h : c.IsData) (id : Option String) {output : Value}
    (ho : output.isData = true) : (c.recordOutput id output).IsData where
  input := h.input
  steps := by
    unfold Context.recordOutput
    cases id with
    | none => exact h.steps
    | some id =>
      dsimp only
      split
      · exact h.steps
      · simp [Value.allFieldsData_append, Value.allFieldsData, h.steps, ho]
  previous := ho
  all := by simp [Context.recordOutput, Value.allData_append, Value.allData, h.all, ho]

theorem recordError (h : c.IsData) (ref : StepRef) (text : String) : (c.recordError ref text).IsData :=
  ⟨h.input, h.steps, h.previous, h.all⟩

theorem recordFault (h : c.IsData) (ref : StepRef) (f : Fault) : (c.recordFault ref f).IsData :=
  h.recordError ref f.describe

theorem fork (h : c.IsData) : c.fork.IsData := ⟨h.input, h.steps, h.previous, rfl⟩

theorem addMissing {steps entries : Keyed Value} (hsteps : Value.allFieldsData steps = true)
    (hentries : Value.allFieldsData entries = true) :
    Value.allFieldsData (Context.addMissing steps entries) = true := by
  unfold Context.addMissing
  induction entries generalizing steps with
  | nil => exact hsteps
  | cons entry rest ih =>
    obtain ⟨k, v⟩ := entry
    rw [Value.allFieldsData, Bool.and_eq_true] at hentries
    refine ih ?_ hentries.2
    dsimp only
    split
    · exact hsteps
    · simp [Value.allFieldsData_append, Value.allFieldsData, hsteps, hentries.1]

theorem merge (h : c.IsData) (hbranch : branch.IsData) : (c.merge branch).IsData where
  input := h.input
  steps := addMissing h.steps hbranch.steps
  previous := h.previous
  all := by simp [Context.merge, Value.allData_append, h.all, hbranch.all]

theorem toValue (h : c.IsData) : c.toValue.isData = true := by
  have herrors (es : List StepError) : Value.allData (es.map StepError.toValue) = true := by
    induction es with
    | nil => rfl
    | cons e rest ih =>
      rw [List.map_cons, Value.allData, ih, Bool.and_true]
      obtain ⟨ref, error⟩ := e
      cases ref <;> rfl
  unfold Context.toValue
  simp only [Value.isData, Value.allFieldsData, h.input, h.steps, h.previous, h.all,
    Value.isData_ofText?, Bool.and_true, Bool.true_and]
  cases c.errors with
  | none => rfl
  | some es => exact herrors es

theorem snapshot (h : c.IsData) : c.snapshot = .ok c.toValue := by
  unfold Context.snapshot
  rw [Value.unwritable?_of_isData h.toValue]

end IsData

theorem readErrors_toValue (es : List StepError) :
    readErrors (.list (es.map StepError.toValue)) = .ok es := by
  have hitems : ∀ (es : List StepError) (i : Nat),
      Checked.items readError i (es.map StepError.toValue) = .ok es := by
    intro es
    induction es with
    | nil => intro i; rfl
    | cons e rest ih =>
      intro i
      rw [List.map_cons, Checked.items, ih]
      obtain ⟨ref, error⟩ := e
      cases ref <;> rfl
  exact hitems es 0

/-- **A snapshot is restored as the context that it was taken of.** -/
theorem restore_toValue (c : Context) : restore c.toValue = .ok c := by
  obtain ⟨input, steps, previous, all, errors, runId⟩ := c
  refine Fault.ofChecked_eq_ok.mpr ?_
  cases errors with
  | none => cases runId <;> rfl
  | some es =>
    have hes := readErrors_toValue es
    cases runId <;>
      simp [toValue, ofValue, ofFields, Decode.optional, Decode.option, Decode.FieldName.find?,
        Decode.FieldName.plain, Keyed.get?, Checked.under, Decode.anything, Decode.dictionary,
        Decode.list, Decode.text, Value.ofText?, hes, Functor.map, Seq.seq, Checked.map,
        Checked.both, Decode.nullable]

end Context

/-! ## Parts of records -/

theorem ErrorInfo.isData_toValue? (e : Option ErrorInfo) : (toValue? e).isData = true := by
  cases e with
  | none => rfl
  | some e => obtain ⟨message, stack⟩ := e; cases stack <;> rfl

theorem Stamp.isData_toValue? (s : Option Stamp) : (toValue? s).isData = true := by
  cases s <;> rfl

theorem InternalJob.allData_toValue (js : List InternalJob) : Value.allData (js.map toValue) = true := by
  induction js with
  | nil => rfl
  | cons j rest ih => rw [List.map_cons, Value.allData, ih]; rfl

end Runbook
