import Runbook.Decode.Problem
import Runbook.Value.JsonReader
import Runbook.Text.Blank

/-!
# `Decode.Scalar` — reading single fields

The lenient readings of texts, integers, doubles, booleans, lists and objects, and of named fields
of an object.

## Contents
- **Scalars.** `text`, `whole`, `real`, `flag`, `word` (one of a fixed set), `callable`.
- **Containers.** `list`, `dictionary`, `nullable`.
- **Fields.** `FieldName`, `required`, `optional`.
-/

namespace Runbook.Decode

/-- White space that numerals may stand in. -/
def stripped (s : String) : List Char := Text.trim s.toList

/-- Removes single underscores between digits; absent when an underscore stands elsewhere. -/
def withoutSeparators : List Char → Option (List Char)
  | [] => some []
  | '_' :: _ => none
  | c :: '_' :: d :: rest =>
    if c.isDigit && d.isDigit then (withoutSeparators (d :: rest)).map (c :: ·) else none
  | [_, '_'] => none
  | c :: rest => (withoutSeparators rest).map (c :: ·)

/-- The integer a decimal text stands for: surrounding blanks, a sign, separators and a fraction of
    zeros are allowed. -/
def wholeOfText? (s : String) : Option Int := do
  let cs := stripped s
  let negative := cs.head? = some '-'
  let unsigned := if negative ∨ cs.head? = some '+' then cs.drop 1 else cs
  let digits := unsigned.takeWhile (· ≠ '.')
  let tail := (unsigned.drop digits.length).drop 1
  if digits.isEmpty ∨ !tail.all (· = '0') then none
  else
    let digits ← withoutSeparators digits
    if digits.all Char.isDigit then
      let n : Int := JsonReader.digitsValue digits
      return (if negative then -n else n)
    else none

/-- The double a numeral stands for: surrounding blanks, a sign, a leading or trailing point and the
    words for infinity and NaN are allowed. -/
def realOfText? (s : String) : Option Float := do
  let cs := stripped s
  let negative := cs.head? = some '-'
  let unsigned := if negative ∨ cs.head? = some '+' then cs.drop 1 else cs
  let sign (x : Float) := if negative then -x else x
  let lower := String.ofList (unsigned.map Char.toLower)
  if lower = "inf" ∨ lower = "infinity" then return sign (1.0 / 0.0)
  else if lower = "nan" then return 0.0 / 0.0
  else
    let unsigned ← withoutSeparators unsigned
    let whole := unsigned.takeWhile Char.isDigit
    let rest := unsigned.drop whole.length
    let places :=
      match rest with
      | '.' :: more => more.takeWhile Char.isDigit
      | _ => []
    let rest := if rest.head? = some '.' then rest.drop (places.length + 1) else rest
    if whole.isEmpty && places.isEmpty then none
    else
      let mantissa := JsonReader.digitsValue (whole ++ places)
      let shift : Int := -(places.length : Int)
      match rest with
      | [] => return sign (JsonReader.scientific false mantissa shift)
      | e :: more =>
        if e = 'e' ∨ e = 'E' then
          let below := more.head? = some '-'
          let digits := if below ∨ more.head? = some '+' then more.drop 1 else more
          if digits.isEmpty ∨ !digits.all Char.isDigit then none
          else
            let power : Int := JsonReader.digitsValue digits
            return sign (JsonReader.scientific false mantissa
              (if below then shift - power else shift + power))
        else none

/-- A text. -/
def text : Value → Checked String
  | .text s => .ok s
  | _ => .complain .stringType

/-- An integer: a boolean counts as 0 or 1, a double must be integral and below `2 ^ 63` in size. -/
def whole : Value → Checked Int
  | .int n => .ok n
  | .bool b => .ok (if b then 1 else 0)
  | .real x =>
    if !Number.isFinite x then .complain .finiteNumber
    else
      match Number.toInt? x with
      | some n => if n.natAbs < Nat.pow 2 63 then .ok n else .complain .intParsingSize
      | none => .complain .intFromFloat
  | .text s =>
    match wholeOfText? s with
    | some n => .ok n
    | none => .complain .intParsing
  | _ => .complain .intType

/-- A double. -/
def real : Value → Checked Float
  | .real x => .ok x
  | .int n => .ok (Float.ofInt n)
  | .bool b => .ok (if b then 1.0 else 0.0)
  | .text s =>
    match realOfText? s with
    | some x => .ok x
    | none => .complain .floatParsing
  | _ => .complain .floatType

/-- The words for true. -/
def trueWords : List String := ["1", "true", "t", "yes", "y", "on"]

/-- The words for false. -/
def falseWords : List String := ["0", "false", "f", "no", "n", "off"]

/-- A boolean: 0 and 1 and the usual words count, whatever their case. -/
def flag : Value → Checked Bool
  | .bool b => .ok b
  | .int n => if n = 0 then .ok false else if n = 1 then .ok true else .complain .boolParsing
  | .real x =>
    match Number.toInt? x with
    | some n => if n = 0 then .ok false else if n = 1 then .ok true else .complain .boolParsing
    | none => .complain .boolType
  | .text s =>
    let word := s.toLower
    if trueWords.contains word then .ok true
    else if falseWords.contains word then .ok false
    else .complain .boolParsing
  | _ => .complain .boolType

/-- One of a fixed set of words. -/
def word (allowed : List String) : Value → Checked String
  | .text s => if allowed.contains s then .ok s else .complain (.literalError allowed)
  | _ => .complain (.literalError allowed)

/-- The items of a list. -/
def list : Value → Checked (List Value)
  | .list items => .ok items
  | _ => .complain .listType

/-- The fields of a mapping. -/
def dictionary : Value → Checked (Keyed Value)
  | .object fields => .ok fields
  | _ => .complain .dictType

/-- Any value at all. -/
def anything (v : Value) : Checked Value := .ok v

/-- Null or what is read otherwise. -/
def nullable {α : Type} (read : Value → Checked α) : Value → Checked (Option α)
  | .null => .ok none
  | v => (read v).map some

/-- How a field is spelled in documents, and how its attribute is named. -/
structure FieldName where
  spelling : String
  member : String

/-- A field with one name. -/
def FieldName.plain (s : String) : FieldName := ⟨s, s⟩

instance : Coe String FieldName := ⟨FieldName.plain⟩

/-- The field under its spelling or, failing that, under its attribute name, with the name used. -/
def FieldName.find? (f : FieldName) (fields : Keyed Value) : Option (String × Value) :=
  match fields.get? f.spelling with
  | some v => some (f.spelling, v)
  | none => (fields.get? f.member).map (f.member, ·)

/-- A field that must be present. -/
def required {α : Type} (fields : Keyed Value) (f : FieldName) (read : Value → Checked α) :
    Checked α :=
  match f.find? fields with
  | some (key, v) => (read v).under (.name key)
  | none => (Checked.complain .missing).under (.name f.spelling)

/-- A field with a default. -/
def optional {α : Type} (fields : Keyed Value) (f : FieldName) (default : α)
    (read : Value → Checked α) : Checked α :=
  match f.find? fields with
  | some (key, v) => (read v).under (.name key)
  | none => .ok default

/-- A field that may be missing or null. -/
def option {α : Type} (fields : Keyed Value) (f : FieldName) (read : Value → Checked α) :
    Checked (Option α) :=
  optional fields f none (nullable read)

end Runbook.Decode
