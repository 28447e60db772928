import Runbook.Value.Literal

/-!
# `Value.Json` — values as JSON text

JSON text, in ASCII only (every other character is written as one or two `\u` units) or with all
printable characters left as they are.

## Contents
- **Texts.** `jsonText` and `plainJsonText`, a JSON string in either manner.
- **Compact.** `toJson` and `toPlainJson`, without any blanks.
- **Pretty.** `toPrettyJson`, one entry a line, indented by two blanks a level.
- **What cannot be written.** `unwritable?`, the first part of a value that JSON has no form for.
-/

namespace Runbook.Value

/-- One UTF-16 unit as an escape. -/
def unitEscape (n : Nat) : String := "\\u" ++ Text.hexText 4 n

/-- The escapes that both manners share. -/
def sharedEscape? : Char → Option String
  | '"' => some "\\\""
  | '\\' => some "\\\\"
  | '\n' => some "\\n"
  | '\r' => some "\\r"
  | '\t' => some "\\t"
  | '\x08' => some "\\b"
  | '\x0c' => some "\\f"
  | _ => none

/-- How one character is written in ASCII. -/
def jsonChar (c : Char) : String :=
  match sharedEscape? c with
  | some escape => escape
  | none =>
    let n := c.toNat
    if 0x20 ≤ n ∧ n < 0x7f then c.toString
    else if n < 0x10000 then unitEscape n
    else
      let high := 0xd800 + (n - 0x10000) / 0x400
      let low := 0xdc00 + (n - 0x10000) % 0x400
      unitEscape high ++ unitEscape low

/-- How one character is written when only control characters are escaped. -/
def plainJsonChar (c : Char) : String :=
  match sharedEscape? c with
  | some escape => escape
  | none => if c.toNat < 0x20 then unitEscape c.toNat else c.toString

/-- A JSON string in ASCII. -/
def jsonText (s : String) : String := "\"" ++ String.join (s.toList.map jsonChar) ++ "\""

/-- A JSON string in which only control characters are escaped. -/
def plainJsonText (s : String) : String :=
  "\"" ++ String.join (s.toList.map plainJsonChar) ++ "\""

/-- A double in JSON text. -/
def jsonReal (x : Float) : String :=
  match Number.Parts.ofFloat x with
  | .notANumber => "NaN"
  | .infinite true => "-Infinity"
  | .infinite false => "Infinity"
  | .finite .. => Number.exactText x

/-- The JSON text of what is neither a list nor an object, with texts written by `quote`; what JSON
    has no form for is written as the text of its literal. -/
def scalarWith (quote : String → String) : Value → String
  | .null => "null"
  | .bool true => "true"
  | .bool false => "false"
  | .int n => toString n
  | .real x => jsonReal x
  | .text s => quote s
  | v => quote v.literal

mutual
/-- Compact JSON text, with texts written by `quote`. -/
def compactWith (quote : String → String) : Value → String
  | .list items => "[" ++ String.intercalate "," (itemsWith quote items) ++ "]"
  | .object fields => "\x7b" ++ String.intercalate "," (fieldsWith quote fields) ++ "\x7d"
  | v => scalarWith quote v

/-- Compact JSON text of each item. -/
def itemsWith (quote : String → String) : List Value → List String
  | [] => []
  | v :: rest => v.compactWith quote :: itemsWith quote rest

/-- Compact JSON text of each field. -/
def fieldsWith (quote : String → String) : List (String × Value) → List String
  | [] => []
  | (k, v) :: rest => (quote k ++ ":" ++ v.compactWith quote) :: fieldsWith quote rest
end

/-- Compact JSON text in ASCII. -/
def toJson (v : Value) : String := v.compactWith jsonText

/-- Compact JSON text in which only control characters are escaped. -/
def toPlainJson (v : Value) : String := v.compactWith plainJsonText

/-- A line end and the indentation of a level. -/
def newline (level : Nat) : String := "\n" ++ String.ofList (List.replicate (2 * level) ' ')

/-- Bracketed entries, each on a line of its own. -/
def block (level : Nat) (opening closing : String) (entries : List String) : String :=
  if entries.isEmpty then opening ++ closing
  else
    opening ++ newline (level + 1) ++ String.intercalate ("," ++ newline (level + 1)) entries
      ++ newline level ++ closing

mutual
/-- Pretty JSON text at a level of indentation. -/
def prettyAt : Nat → Value → String
  | level, .list items => block level "[" "]" (prettyItems (level + 1) items)
  | level, .object fields => block level "\x7b" "\x7d" (prettyFields (level + 1) fields)
  | _, v => scalarWith jsonText v

/-- Pretty JSON text of each item. -/
def prettyItems : Nat → List Value → List String
  | _, [] => []
  | level, v :: rest => prettyAt level v :: prettyItems level rest

/-- Pretty JSON text of each field. -/
def prettyFields : Nat → List (String × Value) → List String
  | _, [] => []
  | level, (k, v) :: rest => (jsonText k ++ ": " ++ prettyAt level v) :: prettyFields level rest
end

/-- Pretty JSON text. -/
def toPrettyJson (v : Value) : String := prettyAt 0 v

mutual
/-- The type name of the first part of a value that JSON has no form for. -/
def unwritable? : Value → Option String
  | .list items => unwritableItem? items
  | .object fields => unwritableField? fields
  | v@(.function _) | v@(.schema _) | v@(.parsed _ _) => some v.typeName
  | _ => none

/-- The first unwritable part among the items of a list. -/
def unwritableItem? : List Value → Option String
  | [] => none
  | v :: rest => v.unwritable?.or (unwritableItem? rest)

/-- The first unwritable part among the fields of an object. -/
def unwritableField? : List (String × Value) → Option String
  | [] => none
  | (_, v) :: rest => v.unwritable?.or (unwritableField? rest)
end

end Runbook.Value
