import Runbook.Plan.Transport
import Runbook.Proofs.Documents
import Runbook.Proofs.Readings

/-!
# `Proofs.Spelling` — fields that are left out, and objects that are spelled out

A document that is written of a plan leaves out the fields that have nothing in them, and spells out the objects
that have been read before. Whatever reads it again finds the fields that were written, and defaults for the
others; and what has been spelled out once has nothing left to spell out.

## Contents
- **Fields.** Reading fields of documents that leave some of them out.
- **Values.** `Value.isUnread`, with `spelledOut_of_isUnread` and `isUnread_spelledOut`.
-/

namespace Runbook

/-! ## Fields -/

namespace Transport

@[simp] theorem get?_some? (name : String) (v : Option Value) (key : String) :
    Keyed.get? (some? name v) key = if name = key then v else none := by
  cases v <;> simp [some?, Keyed.get?]

end Transport

namespace Decode

variable {α : Type} {fields : Keyed Value} {f : FieldName} {v : Value} {a : α} {read : Value → Checked α}

theorem required_spelled (hv : fields.get? f.spelling = some v) (ha : read v = .ok a) :
    required fields f read = .ok a := by
  simp [required, FieldName.find?, hv, ha, Checked.under]

theorem required_text {s : String} (hv : fields.get? f.spelling = some (.text s)) :
    required fields f Decode.text = .ok s := required_spelled hv rfl

theorem optional_spelled {default : α} (hv : fields.get? f.spelling = some v) (ha : read v = .ok a) :
    optional fields f default read = .ok a := by
  simp [optional, FieldName.find?, hv, ha, Checked.under]

theorem optional_missing {default : α} (hspelled : fields.get? f.spelling = none)
    (hnamed : fields.get? f.member = none) : optional fields f default read = .ok default := by
  simp [optional, FieldName.find?, hspelled, hnamed]

/-- A field that is left out when there is nothing to write is read as it was. -/
theorem option_some? {write : α → Value} {a : Option α} (hspelled : fields.get? f.spelling = a.map write)
    (hnamed : f.member = f.spelling ∨ fields.get? f.member = none)
    (hread : ∀ x ∈ a, nullable read (write x) = .ok (some x)) : option fields f read = .ok a := by
  cases a with
  | some x => exact optional_spelled hspelled (hread x rfl)
  | none =>
    refine optional_missing hspelled ?_
    rcases hnamed with hsame | hnone
    · exact hsame ▸ hspelled
    · exact hnone

end Decode

/-! ## Values -/

namespace Value

theorem spelledFields_eq_map (nulls : Bool) (fields : Keyed Value) :
    spelledFields nulls fields = fields.map fun entry => (entry.1, entry.2.spelledOut nulls) := by
  induction fields with
  | nil => rfl
  | cons entry rest ih =>
    obtain ⟨k, v⟩ := entry
    rw [spelledFields, ih, List.map_cons]

theorem isNull_spelledOut (nulls : Bool) (v : Value) : (v.spelledOut nulls).isNull = v.isNull := by
  cases v <;> rfl

mutual
/-- Holds no object that has been read before, at any depth; functions may be in it. -/
def isUnread : Value → Bool
  | .list items => allUnread items
  | .object fields => allFieldsUnread fields
  | .parsed _ _ => false
  | .null | .bool _ | .int _ | .real _ | .text _ | .function _ | .schema _ => true

/-- `isUnread` of every item. -/
def allUnread : List Value → Bool
  | [] => true
  | v :: rest => v.isUnread && allUnread rest

/-- `isUnread` of every field. -/
def allFieldsUnread : List (String × Value) → Bool
  | [] => true
  | (_, v) :: rest => v.isUnread && allFieldsUnread rest
end

theorem allFieldsUnread_append {fields fields' : Keyed Value} (h : allFieldsUnread fields = true)
    (h' : allFieldsUnread fields' = true) : allFieldsUnread (fields ++ fields') = true := by
  induction fields with
  | nil => exact h'
  | cons entry rest ih =>
    obtain ⟨k, v⟩ := entry
    rw [allFieldsUnread, Bool.and_eq_true] at h
    rw [List.cons_append, allFieldsUnread, h.1, ih h.2]
    rfl

mutual
/-- **Nothing is spelled out** in a value without objects that have been read. -/
theorem spelledOut_of_isUnread (nulls : Bool) : ∀ {v : Value}, v.isUnread = true → v.spelledOut nulls = v
  | .list items, h => by
    rw [isUnread] at h
    rw [spelledOut, spelledItems_of_allUnread nulls h]
  | .object fields, h => by
    rw [isUnread] at h
    rw [spelledOut, spelledFields_of_allUnread nulls h]
  | .parsed _ _, h => nomatch h
  | .null, _ | .bool _, _ | .int _, _ | .real _, _ | .text _, _ | .function _, _ | .schema _, _ => rfl

theorem spelledItems_of_allUnread (nulls : Bool) : ∀ {items : List Value}, allUnread items = true →
    spelledItems nulls items = items
  | [], _ => rfl
  | v :: rest, h => by
    rw [allUnread, Bool.and_eq_true] at h
    rw [spelledItems, spelledOut_of_isUnread nulls h.1, spelledItems_of_allUnread nulls h.2]

theorem spelledFields_of_allUnread (nulls : Bool) : ∀ {fields : List (String × Value)},
    allFieldsUnread fields = true → spelledFields nulls fields = fields
  | [], _ => rfl
  | (k, v) :: rest, h => by
    rw [allFieldsUnread, Bool.and_eq_true] at h
    rw [spelledFields, spelledOut_of_isUnread nulls h.1, spelledFields_of_allUnread nulls h.2]
end

mutual
/-- **No object that has been read** is left in what is spelled out. -/
theorem isUnread_spelledOut (nulls : Bool) : ∀ v : Value, (v.spelledOut nulls).isUnread = true
  | .list items => by
    rw [spelledOut, isUnread]
    exact allUnread_spelledItems nulls items
  | .object fields => by
    rw [spelledOut, isUnread]
    exact allFieldsUnread_spelledFields nulls fields
  | .parsed shape fields => by
    rw [spelledOut, isUnread]
    refine allFieldsUnread_append (allFieldsUnread_spelledMembers nulls shape fields) ?_
    unfold Shape.unwrittenInput
    split <;> rfl
  | .null | .bool _ | .int _ | .real _ | .text _ | .function _ | .schema _ => rfl

theorem allUnread_spelledItems (nulls : Bool) : ∀ items : List Value,
    allUnread (spelledItems nulls items) = true
  | [] => rfl
  | v :: rest => by
    rw [spelledItems, allUnread, isUnread_spelledOut nulls v, allUnread_spelledItems nulls rest]
    rfl

theorem allFieldsUnread_spelledFields (nulls : Bool) : ∀ fields : List (String × Value),
    allFieldsUnread (spelledFields nulls fields) = true
  | [] => rfl
  | (k, v) :: rest => by
    rw [spelledFields, allFieldsUnread, isUnread_spelledOut nulls v, allFieldsUnread_spelledFields nulls rest]
    rfl

theorem allFieldsUnread_spelledMembers (nulls : Bool) (shape : Shape) : ∀ fields : List (String × Value),
    allFieldsUnread (spelledMembers nulls shape fields) = true
  | [] => rfl
  | (k, v) :: rest => by
    rw [spelledMembers]
    split
    · exact allFieldsUnread_spelledMembers nulls shape rest
    · rw [allFieldsUnread, isUnread_spelledOut nulls v, allFieldsUnread_spelledMembers nulls shape rest]
      rfl
end

end Value

end Runbook
