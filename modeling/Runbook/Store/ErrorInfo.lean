import Runbook.Decode.Scalar
import Runbook.Fault
import Runbook.Value.Truth

/-!
# `Store.ErrorInfo` — errors in records, and updates of records

Records are changed by updates, mappings from field names to new values. What all kinds of records
share about them is collected here: how an error is written down, and how an update lays new values
over old ones.

## Contents
- **Errors.** `ErrorInfo`, its reading, and `ErrorInfo.ofUpdate?`, which accepts any value.
- **Updates.** `newValue?` (a field whose new value is not null), `field` (the field's new value, or
  the old one) and `overlay` (metadata).
-/

namespace Runbook

/-- An error as it is written down in a record. -/
structure ErrorInfo where
  message : String
  stack : Option String
  deriving DecidableEq, Repr

namespace ErrorInfo

/-- An error as a value. -/
def toValue (e : ErrorInfo) : Value :=
  .object [("message", .text e.message), ("stack", .ofText? e.stack)]

/-- An optional error as a value. -/
def toValue? : Option ErrorInfo → Value
  | some e => e.toValue
  | none => .null

/-- Reads an error. -/
def ofValue : Value → Checked ErrorInfo
  | .object fields =>
    ErrorInfo.mk <$> Decode.required fields "message" Decode.text
      <*> Decode.option fields "stack" Decode.text
  | _ => .complain (.modelType "ErrorInfo")

/-- The error that an update asks for: null clears it, a mapping is read, and any other value is
    the message. -/
def ofUpdate? : Value → Except Fault (Option ErrorInfo)
  | .null => .ok none
  | v@(.object _) => some <$> Fault.ofChecked "ErrorInfo" (ofValue v)
  | v => .ok (some ⟨v.display, none⟩)

end ErrorInfo

namespace Update

/-- The new value of a field; null means that the field is not updated. -/
def newValue? (updates : Keyed Value) (key : String) : Option Value :=
  Value.present? (updates.get? key)

/-- A field after an update: its new value when it has one, otherwise what it was. -/
def field {α : Type} (updates : Keyed Value) (key : String) (old : α)
    (read : Value → Checked α) : Checked α :=
  match newValue? updates key with
  | some v => (read v).under (.name key)
  | none => .ok old

/-- Metadata with the entries of a mapping laid over it; what is false changes nothing. -/
def overlay (metadata : Keyed Value) (v : Value) : Except Fault (Keyed Value) :=
  if !v.truthy then .ok metadata
  else
    match v with
    | .object fields => .ok (metadata.putAll fields)
    | v => .error (.typeMismatch (.notAMapping v.typeName))

end Update

end Runbook
