import Runbook.Store.QueueRecord
import Runbook.Store.RunRecord
import Runbook.Value.Json

/-!
# `Store.Held` — what a store keeps of a record

A store in memory keeps records as they are. Every other store keeps documents: plain data out of
which the record is read again each time it is asked for.

## Contents
- **Backends.** `Backend`.
- **Documents.** `storable`, a value as JSON keeps it; `Recorded`, kinds of records that have a
  document; `encode` and `decode`.
- **Held records.** `Held`, `hold` and `Held.read`.
-/

namespace Runbook

/-- Where records are kept. -/
inductive Backend where
  | memory
  | sqlite
  | postgres
  | redis
  deriving DecidableEq, Repr

mutual
/-- A value as JSON keeps it: numbers that are not finite become null. -/
def Value.storable : Value → Value
  | .real x => if Number.isFinite x then .real x else .null
  | .list items => .list (storableItems items)
  | .object fields => .object (storableFields fields)
  | v => v

/-- `storable` of every item. -/
def Value.storableItems : List Value → List Value
  | [] => []
  | v :: rest => v.storable :: storableItems rest

/-- `storable` of every field. -/
def Value.storableFields : List (String × Value) → List (String × Value)
  | [] => []
  | (k, v) :: rest => (k, v.storable) :: storableFields rest
end

/-- Kinds of records that have a document. -/
class Recorded (ρ : Type) where
  /-- The name of the record in messages. -/
  structureName : String
  toValue : ρ → Value
  ofValue : Value → Checked ρ

instance : Recorded RunRecord := ⟨RunRecord.structureName, RunRecord.toValue, RunRecord.ofValue⟩
instance : Recorded JobRecord := ⟨JobRecord.structureName, JobRecord.toValue, JobRecord.ofValue⟩
instance : Recorded QueueRecord :=
  ⟨QueueRecord.structureName, QueueRecord.toValue, QueueRecord.ofValue⟩

section

variable {ρ : Type} [Recorded ρ]

/-- The document of a record; a record that holds a function has none. -/
def encode (r : ρ) : Except Fault Value :=
  match (Recorded.toValue r).unwritable? with
  | some typeName => .error (.notStorable typeName)
  | none => .ok (Recorded.toValue r).storable

/-- The record that a document holds. -/
def decode (document : Value) : Except Fault ρ :=
  Fault.ofChecked (Recorded.structureName ρ) (Recorded.ofValue document)

end

/-- What is kept of a record. -/
inductive Held (ρ : Type) where
  | live (r : ρ)
  | document (d : Value)

section

variable {ρ : Type} [Recorded ρ]

/-- What a backend keeps of a record. -/
def hold (backend : Backend) (r : ρ) : Except Fault (Held ρ) :=
  match backend with
  | .memory => .ok (.live r)
  | _ => .document <$> encode r

/-- The record that is kept. -/
def Held.read : Held ρ → Except Fault ρ
  | .live r => .ok r
  | .document d => decode d

/-- The record under a key. -/
def Keyed.readHeld (entries : Keyed (Held ρ)) (key : String) : Except Fault (Option ρ) :=
  match entries.get? key with
  | some held => some <$> held.read
  | none => .ok none

/-- The records under some keys, in their order; keys without a record are skipped. -/
def Keyed.readMany (entries : Keyed (Held ρ)) (keys : List String) : Except Fault (List ρ) :=
  (keys.filterMap entries.get?).mapM Held.read

end

end Runbook
