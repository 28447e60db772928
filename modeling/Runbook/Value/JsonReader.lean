import Runbook.Value.Basic

/-!
# `Value.JsonReader` — reading JSON text

A strict reader of JSON text. A number with a fraction or an exponent becomes a double, any other an
integer; of equal keys the last value wins. A text that is not JSON is refused with the first
problem and its position.

## Contents
- **Problems.** `JsonProblem`, `JsonError` and the wording `JsonError.message`.
- **Tokens.** `readString`, `readNumber?` on a `Cursor`.
- **Documents.** `readValue`, whose fuel is the length of the text, and `Value.ofJson`.
-/

namespace Runbook

/-- Why a text is not JSON. -/
inductive JsonProblem where
  | expectedValue
  | expectedName
  | expectedColon
  | expectedComma
  | unterminatedText
  | controlCharacter
  | badEscape
  | badUnitEscape
  | extraData
  | byteOrderMark
  deriving DecidableEq, Repr

/-- The wording of a problem. -/
def JsonProblem.message : JsonProblem → String
  | .expectedValue => "Expecting value"
  | .expectedName => "Expecting property name enclosed in double quotes"
  | .expectedColon => "Expecting ':' delimiter"
  | .expectedComma => "Expecting ',' delimiter"
  | .unterminatedText => "Unterminated string starting at"
  | .controlCharacter => "Invalid control character at"
  | .badEscape => "Invalid \\escape"
  | .badUnitEscape => "Invalid \\uXXXX escape"
  | .extraData => "Extra data"
  | .byteOrderMark => "Unexpected UTF-8 BOM (decode using utf-8-sig)"

/-- A problem and where it was met. -/
structure JsonError where
  problem : JsonProblem
  position : Nat
  deriving DecidableEq, Repr

/-- The problem with its line and column, counted from one. -/
def JsonError.message (e : JsonError) (source : String) : String :=
  let before := source.toList.take e.position
  let line := before.count '\n' + 1
  let column := (before.reverse.takeWhile (· ≠ '\n')).length + 1
  e.problem.message ++ ": line " ++ toString line ++ " column " ++ toString column
    ++ " (char " ++ toString e.position ++ ")"

/-- What is left of a text, and how many characters precede it. -/
structure Cursor where
  rest : List Char
  position : Nat

namespace Cursor

/-- Blanks between tokens. -/
def isSpace (c : Char) : Bool := c = ' ' || c = '\t' || c = '\n' || c = '\r'

/-- The cursor behind `n` characters. -/
def advance (c : Cursor) (n : Nat) : Cursor := ⟨c.rest.drop n, c.position + n⟩

/-- The cursor behind all blanks. -/
def skipSpace (c : Cursor) : Cursor := c.advance (c.rest.takeWhile isSpace).length

/-- A failure at the cursor. -/
def fail {α : Type} (c : Cursor) (problem : JsonProblem) : Except JsonError α :=
  .error ⟨problem, c.position⟩

end Cursor

namespace JsonReader

/-- The value of a hexadecimal digit. -/
def hexDigit? (c : Char) : Option Nat :=
  if '0' ≤ c ∧ c ≤ '9' then some (c.toNat - '0'.toNat)
  else if 'a' ≤ c ∧ c ≤ 'f' then some (c.toNat - 'a'.toNat + 10)
  else if 'A' ≤ c ∧ c ≤ 'F' then some (c.toNat - 'A'.toNat + 10)
  else none

/-- The UTF-16 unit that four hexadecimal digits write. -/
def unit? (cs : List Char) : Option Nat :=
  match cs with
  | [a, b, c, d] => do
    let a ← hexDigit? a
    let b ← hexDigit? b
    let c ← hexDigit? c
    let d ← hexDigit? d
    return ((a * 16 + b) * 16 + c) * 16 + d
  | _ => none

/-- The character that a one-letter escape stands for. -/
def simpleEscape? : Char → Option Char
  | '"' => some '"'
  | '\\' => some '\\'
  | '/' => some '/'
  | 'b' => some '\x08'
  | 'f' => some '\x0c'
  | 'n' => some '\n'
  | 'r' => some '\r'
  | 't' => some '\t'
  | _ => none

/-- The low half of a surrogate pair, when it follows as an escape. -/
def lowHalf? (cs : List Char) : Option Nat :=
  match cs with
  | '\\' :: 'u' :: rest =>
    match unit? (rest.take 4) with
    | some u => if 0xdc00 ≤ u ∧ u < 0xe000 then some u else none
    | none => none
  | _ => none

/-- Reads the rest of a string whose opening quote stood at `start`; the fuel bounds the number of
    characters. Half a surrogate pair becomes the replacement character. -/
def readString (start : Nat) : Nat → Cursor → List Char → Except JsonError (String × Cursor)
  | 0, _, _ => .error ⟨.unterminatedText, start⟩
  | fuel + 1, c, acc =>
    match c.rest with
    | [] => .error ⟨.unterminatedText, start⟩
    | '"' :: _ => .ok (String.ofList acc.reverse, c.advance 1)
    | '\\' :: [] => .error ⟨.unterminatedText, start⟩
    | '\\' :: 'u' :: digits =>
      match unit? (digits.take 4) with
      | some u =>
        if digits.length < 5 then .error ⟨.badUnitEscape, c.position + 1⟩
        else if 0xd800 ≤ u ∧ u < 0xdc00 then
          match lowHalf? (digits.drop 4) with
          | some low =>
            let code := 0x10000 + (u - 0xd800) * 0x400 + (low - 0xdc00)
            readString start fuel (c.advance 12) (Char.ofNat code :: acc)
          | none => readString start fuel (c.advance 6) ('\ufffd' :: acc)
        else if 0xdc00 ≤ u ∧ u < 0xe000 then readString start fuel (c.advance 6) ('\ufffd' :: acc)
        else readString start fuel (c.advance 6) (Char.ofNat u :: acc)
      | none => .error ⟨.badUnitEscape, c.position + 1⟩
    | '\\' :: letter :: _ =>
      match simpleEscape? letter with
      | some character => readString start fuel (c.advance 2) (character :: acc)
      | none => .error ⟨.badEscape, c.position⟩
    | character :: _ =>
      if character.toNat < 0x20 then .error ⟨.controlCharacter, c.position⟩
      else readString start fuel (c.advance 1) (character :: acc)

/-- The number a run of ASCII digits writes. -/
def digitsValue (cs : List Char) : Nat := cs.foldl (fun n c => 10 * n + (c.toNat - '0'.toNat)) 0

/-- The double `± digits · 10 ^ exponent`. -/
def scientific (negative : Bool) (digits : Nat) (exponent : Int) : Float :=
  let magnitude :=
    match exponent with
    | .ofNat e => Float.ofScientific digits false e
    | .negSucc e => Float.ofScientific digits true (e + 1)
  if negative then -magnitude else magnitude

/-- Reads the longest number at the front of a text, with the count of its characters. -/
def readNumber? (cs : List Char) : Option (Value × Nat) :=
  let negative := cs.head? = some '-'
  let body := if negative then cs.drop 1 else cs
  let whole := if body.head? = some '0' then ['0'] else body.takeWhile Char.isDigit
  if whole.isEmpty then none
  else
    let afterWhole := body.drop whole.length
    let places :=
      match afterWhole with
      | '.' :: rest => rest.takeWhile Char.isDigit
      | _ => []
    let pointed := if places.isEmpty then 0 else places.length + 1
    let afterPlaces := afterWhole.drop pointed
    let (sign, exponent) :=
      match afterPlaces with
      | e :: rest =>
        if e = 'e' ∨ e = 'E' then
          match rest with
          | '-' :: digits => (['-'], digits.takeWhile Char.isDigit)
          | '+' :: digits => (['+'], digits.takeWhile Char.isDigit)
          | digits => ([], digits.takeWhile Char.isDigit)
        else ([], [])
      | [] => ([], [])
    let raised := if exponent.isEmpty then 0 else exponent.length + sign.length + 1
    let size := (if negative then 1 else 0) + whole.length + pointed + raised
    if pointed = 0 ∧ raised = 0 then
      let n : Int := digitsValue whole
      some (.int (if negative then -n else n), size)
    else
      let e : Int := digitsValue exponent
      let e := (if sign = ['-'] then -e else e) - places.length
      some (.real (scientific negative (digitsValue (whole ++ places)) e), size)

/-- The words that stand for values. -/
def words : List (String × Value) :=
  [("null", .null), ("true", .bool true), ("false", .bool false), ("NaN", .real (0.0 / 0.0)),
   ("Infinity", .real (1.0 / 0.0)), ("-Infinity", .real (-1.0 / 0.0))]

/-- Reads a word or a number. -/
def readScalar (c : Cursor) : Except JsonError (Value × Cursor) :=
  match words.find? fun (word, _) => word.toList.isPrefixOf c.rest with
  | some (word, v) => .ok (v, c.advance word.length)
  | none =>
    match readNumber? c.rest with
    | some (v, size) => .ok (v, c.advance size)
    | none => c.fail .expectedValue

mutual
/-- Reads one value; the fuel bounds the number of values and separators. -/
def readValue : Nat → Cursor → Except JsonError (Value × Cursor)
  | 0, c => c.fail .expectedValue
  | fuel + 1, c =>
    match c.rest with
    | '"' :: rest => do
      let (s, c) ← readString c.position (rest.length + 1) (c.advance 1) []
      return (.text s, c)
    | '[' :: _ =>
      let c := (c.advance 1).skipSpace
      if c.rest.head? = some ']' then .ok (.list [], c.advance 1)
      else do
        let (items, c) ← readItems fuel c []
        return (.list items, c)
    | '\x7b' :: _ =>
      let c := (c.advance 1).skipSpace
      if c.rest.head? = some '\x7d' then .ok (.object [], c.advance 1)
      else do
        let (fields, c) ← readFields fuel c []
        return (.object (Keyed.ofEntries fields), c)
    | _ => readScalar c

/-- Reads the items of a list up to its closing bracket. -/
def readItems : Nat → Cursor → List Value → Except JsonError (List Value × Cursor)
  | 0, c, _ => c.fail .expectedValue
  | fuel + 1, c, acc => do
    let (v, c) ← readValue fuel c
    let c := c.skipSpace
    match c.rest with
    | ']' :: _ => return ((v :: acc).reverse, c.advance 1)
    | ',' :: _ => readItems fuel (c.advance 1).skipSpace (v :: acc)
    | _ => c.fail .expectedComma

/-- Reads the fields of an object up to its closing brace. -/
def readFields : Nat → Cursor → List (String × Value) →
    Except JsonError (List (String × Value) × Cursor)
  | 0, c, _ => c.fail .expectedName
  | fuel + 1, c, acc =>
    match c.rest with
    | '"' :: rest => do
      let (key, c) ← readString c.position (rest.length + 1) (c.advance 1) []
      let c := c.skipSpace
      if c.rest.head? ≠ some ':' then c.fail .expectedColon
      else
        let (v, c) ← readValue fuel (c.advance 1).skipSpace
        let c := c.skipSpace
        match c.rest with
        | '\x7d' :: _ => return (((key, v) :: acc).reverse, c.advance 1)
        | ',' :: _ => readFields fuel (c.advance 1).skipSpace ((key, v) :: acc)
        | _ => c.fail .expectedComma
    | _ => c.fail .expectedName
end

end JsonReader

/-- Reads a JSON document. -/
def Value.ofJson (source : String) : Except JsonError Value :=
  let start : Cursor := ⟨source.toList, 0⟩
  if start.rest.head? = some '\ufeff' then start.fail .byteOrderMark
  else do
    let (v, c) ← JsonReader.readValue (2 * start.rest.length + 1) start.skipSpace
    let c := c.skipSpace
    if c.rest.isEmpty then return v else c.fail .extraData

/-- Reads a JSON document, absent when the text is not JSON. -/
def Value.ofJson? (source : String) : Option Value := (Value.ofJson source).toOption

end Runbook
