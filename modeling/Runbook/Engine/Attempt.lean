import Runbook.Context
import Runbook.Value.Truth

/-!
# `Engine.Attempt` — what an attempt at a run keeps at hand

An attempt works on one step of the root list at a time. It remembers the context with which that
step began, and in a journal what has become of the leaf steps inside it; both go into the
checkpoints from which a later attempt continues.

## Contents
- **The type.** `Attempt`.
- **Entries.** `JournalEntry.read`, `recorded?` (how a step ended), `noted` (what it left on the way).
- **Changes.** `enter` a step of the root list, `withEntry` and `withNote` for the journal.
- **Checkpoints.** `checkpoint`, the attempt as data.
-/

namespace Runbook

/-- The state of an attempt at a run. -/
structure Attempt where
  runId : String
  /-- The position of the step of the root list that is being carried out. -/
  cursor : Int
  /-- The context with which that step began. -/
  base : Context
  /-- What is known of the leaf steps inside it, under the texts of their paths. -/
  journal : Keyed Value

/-! ## Entries -/

namespace JournalEntry

/-- What is known of a step, given what the journal holds under its path; an entry that is false
    counts as empty. -/
def read (found : Option Value) : Value :=
  let entry := found.getD .null
  if entry.truthy then entry else .object []

/-- What a journal entry holds under a key. An entry that is no object holds nothing, but one that
    contains the key itself cannot be asked for it. -/
def recorded? (found : Option Value) (key : String) : Except Fault (Option Value) :=
  match read found with
  | .text s =>
    if (s.splitOn key).length > 1 then
      .error (.typeMismatch (.other "string indices must be integers, not 'str'"))
    else .ok none
  | .list items =>
    if items.any fun v => v.text? = some key then
      .error (.typeMismatch (.other "list indices must be integers or slices, not str"))
    else .ok none
  | v =>
    match v.fields? with
    | some fields => .ok (fields.get? key)
    | none =>
      .error (.typeMismatch (.other ("argument of type '" ++ v.typeName ++ "' is not iterable")))

/-- What was noted under a key while the step was carried out; null for nothing. -/
def noted (found : Option Value) (key : String) : Except Fault Value :=
  let entry := read found
  match entry.fields? with
  | some fields => .ok ((fields.get? key).getD .null)
  | none => .error (.noSuchPart entry.typeName "get")

end JournalEntry

/-! ## Changes -/

namespace Attempt

/-- The attempt at the beginning of a step of the root list. -/
def enter (a : Attempt) (cursor : Int) (base : Context) (keepJournal : Bool) : Attempt :=
  { a with cursor, base, journal := if keepJournal then a.journal else [] }

/-- The attempt after the entry of a step was replaced. -/
def withEntry (a : Attempt) (path : String) (entry : Value) : Attempt :=
  { a with journal := a.journal.put path entry }

/-- The attempt after fields were added to the entry of a step. -/
def withNote (a : Attempt) (path : String) (fields : Keyed Value) : Except Fault Attempt :=
  match a.journal.get? path with
  | none => .ok (a.withEntry path (.object fields))
  | some (.object entry) => .ok (a.withEntry path (.object (Keyed.putAll entry fields)))
  | some v => .error (.typeMismatch (.notAMapping v.typeName))

/-! ## Checkpoints -/

/-- The attempt as data, unless a part of it cannot be stored. -/
def checkpoint (a : Attempt) : Except Fault Value := do
  let context ← a.base.snapshot
  match (Value.object a.journal).unwritable? with
  | some typeName => .error (.notStorable typeName)
  | none =>
    return .object
      [("cursor", .int a.cursor), ("context", context), ("journal", .object a.journal)]

end Attempt

end Runbook
