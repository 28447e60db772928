import Runbook.Engine.Attempt

/-!
# `Engine.Stored` — the checkpoint of a run record

A run record keeps the latest checkpoint of its run in its metadata, as data. Anybody can write run
records, so nothing is known of that data until it has been read.

## Contents
- **The type.** `StoredCheckpoint`, with `ofMetadata` and `context?`.
- **Reading.** `cursor`, `journal`, and `toAttempt`, an attempt that goes on from there.
-/

namespace Runbook

/-- The data of a checkpoint. -/
structure StoredCheckpoint where
  fields : Keyed Value

namespace StoredCheckpoint

/-- The key of the checkpoint in the metadata of a run. -/
def key : String := "checkpoint"

/-- The checkpoint in the metadata of a run; one that is false counts as empty. -/
def ofMetadata (metadata : Keyed Value) : Except Fault StoredCheckpoint :=
  let data := (metadata.get? key).getD .null
  if data.truthy then
    match data.fields? with
    | some fields => .ok ⟨fields⟩
    | none => .error (.noSuchPart data.typeName "get")
  else .ok ⟨[]⟩

/-- The snapshot of the context, unless there is none. -/
def context? (c : StoredCheckpoint) : Option Value := (c.fields.get? "context").filter Value.truthy

/-! ## Reading -/

/-- An integer: a number without its fraction, or a text that stands for one. -/
def integerOf (v : Value) : Except Fault Int :=
  match v with
  | .int n => .ok n
  | .bool b => .ok (if b then 1 else 0)
  | .real x =>
    match Number.truncate? x with
    | some n => .ok n
    | none => .error .numberTooLarge
  | .text s =>
    match Text.integerOfText? s with
    | some n => .ok n
    | none => .error (.badNumeral v)
  | v => .error (.typeMismatch (.notAPosition v.typeName))

/-- The position of the step to continue with: the first step when nothing is written. -/
def cursor (c : StoredCheckpoint) : Except Fault Int :=
  match c.fields.get? "cursor" with
  | some v => integerOf v
  | none => .ok 0

/-- Why an element of a list is no pair of a key and a value. -/
def notAPair (index length : Nat) : Fault :=
  .raised .value
    [.text ("dictionary update sequence element #" ++ toString index ++ " has length "
      ++ toString length ++ "; 2 is required")]

/-- The key and the value that an element of a list stands for. -/
def pairOf (index : Nat) : Value → Except Fault (String × Value)
  | .list [k, v] => .ok (k.display, v)
  | .list items => .error (notAPair index items.length)
  | .text s =>
    match s.toList with
    | [k, v] => .ok (String.singleton k, .text (String.singleton v))
    | cs => .error (notAPair index cs.length)
  | .object [(k, _), (l, _)] => .ok (k, .text l)
  | .object fields => .error (notAPair index fields.length)
  | _ =>
    .error (.typeMismatch
      (.other ("cannot convert dictionary update sequence element #" ++ toString index
        ++ " to a sequence")))

/-- The mapping that a list of pairs stands for. -/
def pairsOf : Nat → List Value → Keyed Value → Except Fault (Keyed Value)
  | _, [], acc => .ok acc
  | index, item :: rest, acc => do
    let (k, v) ← pairOf index item
    pairsOf (index + 1) rest (acc.put k v)

/-- The journal; one that is false counts as empty. -/
def journal (c : StoredCheckpoint) : Except Fault (Keyed Value) :=
  let data := (c.fields.get? "journal").getD .null
  if data.truthy then
    match data with
    | .list items => pairsOf 0 items []
    | .text s => pairsOf 0 (s.toList.map fun ch => .text (String.singleton ch)) []
    | v =>
      match v.fields? with
      | some fields => .ok fields
      | none =>
        .error (.typeMismatch (.other ("'" ++ v.typeName ++ "' object is not iterable")))
  else .ok []

/-- The attempt that continues from a checkpoint with a context. -/
def toAttempt (c : StoredCheckpoint) (runId : String) (context : Context) : Except Fault Attempt := do
  return ⟨runId, ← c.cursor, context, ← c.journal⟩

end StoredCheckpoint

end Runbook
