import Runbook.Fault
import Runbook.Decode.Scalar

/-!
# `Payload` — payloads checked against a schema

A payload schema lists fields with types and defaults. A payload that meets it has exactly these
fields; what else was written is left out.

## Contents
- **Reading.** `SchemaField.read`, `Schema.readFields`, `Schema.check`.
- **Checked payloads.** `Schema.accept`, a payload together with its schema, and `Value.plainData`,
  which forgets the schemas in a value.
-/

namespace Runbook

/-- A default as a value. -/
def FieldDefault.toValue : FieldDefault → Value
  | .text s => .text s
  | .whole n => .int n

/-- Reads a value of a type. -/
def FieldKind.read : FieldKind → Value → Checked Value
  | .text, v => .text <$> Decode.text v
  | .whole, v => .int <$> Decode.whole v
  | .flag, v => .bool <$> Decode.flag v

/-- Reads a field of a payload. -/
def SchemaField.read (f : SchemaField) (fields : Keyed Value) : Checked Value :=
  match f.default with
  | some d => Decode.optional fields f.name d.toValue f.kind.read
  | none => Decode.required fields f.name f.kind.read

namespace Schema

/-- Reads the fields of a payload in the order of the schema. -/
def readFields : List SchemaField → Keyed Value → Checked (Keyed Value)
  | [], _ => .ok []
  | f :: rest, fields =>
    (fun v vs => (f.name, v) :: vs) <$> f.read fields <*> readFields rest fields

/-- Reads a payload. -/
def check (s : Schema) : Value → Checked (Keyed Value)
  | .object fields => readFields s.fields fields
  | .parsed shape fields => if shape = .payload s then .ok fields else .complain (.modelType s.name)
  | _ => .complain (.modelType s.name)

/-- A payload that meets a schema, together with the schema. -/
def accept (s : Schema) (v : Value) : Except Fault Value :=
  Value.parsed (.payload s) <$> Fault.ofChecked s.name (s.check v)

end Schema

namespace Value

mutual
/-- A value in which everything already read is a mapping. -/
def plain : Value → Value
  | .list items => .list (plainItems items)
  | .object fields => .object (plainFields fields)
  | .parsed _ fields => .object (plainFields fields)
  | v => v

/-- `plain` of every item. -/
def plainItems : List Value → List Value
  | [] => []
  | v :: rest => v.plain :: plainItems rest

/-- `plain` of every field. -/
def plainFields : List (String × Value) → List (String × Value)
  | [] => []
  | (k, v) :: rest => (k, v.plain) :: plainFields rest
end

/-- A value as plain data; a function has no data. -/
def plainData (v : Value) : Except Fault Value :=
  match v.plain.unwritable? with
  | some typeName => .error (.notStorable typeName)
  | none => .ok v.plain

end Value

/-- Checks a payload against what a hook or worker expects of it: null expects nothing, and only a
    schema can be checked against. -/
def checkPayload (model payload : Value) : Except Fault Value :=
  match model with
  | .null => .ok payload
  | .schema s => do return (← s.accept payload).plain
  | v => .error (.noSuchPart v.typeName "model_validate")

end Runbook
