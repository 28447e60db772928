import Runbook.Value.Literal
import Runbook.Text.Digit

/-!
# `Value.Path` — reaching into a value

A path is a text of segments separated by dots. A segment names a key of an object or a position of
a list, negative positions counting from the end; numbers answer to the names of their parts.

## Contents
- **Segments.** `segments`, `isPosition` (what is taken for a position), `itemAt` (the item at a
  position).
- **One step.** `child`: the value under a segment, null when there is none. A segment made of digit
  characters that write no number is refused on a list.
- **Whole paths.** `atPath`.
-/

namespace Runbook.Value

/-- A segment that looks like a list position and writes no number. -/
structure BadPosition where
  segment : String
  deriving DecidableEq, Repr

/-- The wording for a segment that writes no number. -/
def BadPosition.message (p : BadPosition) : String :=
  "invalid literal for int() with base 10: " ++ Text.quoted p.segment

/-- The segments of a path. -/
def segments (path : String) : List String := path.splitOn "."

/-- A segment of digit characters, after any number of minus signs, is taken for a position. -/
def isPosition (segment : String) : Bool :=
  let digits := segment.toList.dropWhile (· = '-')
  !digits.isEmpty && digits.all Text.isDigitChar

/-- The item at a position; negative positions count from the end. -/
def itemAt (items : List Value) (position : Int) : Value :=
  let index := if position < 0 then position + items.length else position
  if index < 0 then .null else (items[index.toNat]?).getD .null

/-- The parts of a double that have names. -/
def realPart (x : Float) (segment : String) : Value :=
  if segment = "real" then .real x else if segment = "imag" then .real 0.0 else .null

/-- The parts of an integer that have names. -/
def wholePart (n : Int) (segment : String) : Value :=
  if segment = "real" ∨ segment = "numerator" then .int n
  else if segment = "imag" then .int 0
  else if segment = "denominator" then .int 1
  else .null

/-- The value under one segment, null when there is none. -/
def child (v : Value) (segment : String) : Except BadPosition Value :=
  match v with
  | .object fields => .ok ((Keyed.get? fields segment).getD .null)
  | .list items =>
    if isPosition segment then
      match Text.ofNumeral? segment.toList with
      | some n => .ok (itemAt items n)
      | none => .error ⟨segment⟩
    else .ok .null
  | .bool b => .ok (wholePart (if b then 1 else 0) segment)
  | .int n => .ok (wholePart n segment)
  | .real x => .ok (realPart x segment)
  | .parsed _ fields => .ok ((Keyed.get? fields segment).getD .null)
  | _ => .ok .null

/-- Follows segments one after the other; null stays null. -/
def follow : Value → List String → Except BadPosition Value
  | v, [] => .ok v
  | .null, _ => .ok .null
  | v, segment :: rest => do follow (← v.child segment) rest

/-- The value at a path; the empty path is the value itself. -/
def atPath (v : Value) (path : Option String) : Except BadPosition Value :=
  match path with
  | none => .ok v
  | some "" => .ok v
  | some path => v.follow (segments path)

end Runbook.Value
