import Runbook.Value.Basic
import Runbook.Number.Layout
import Runbook.Text.Quoted

/-!
# `Value.Literal` — values in messages

How a value is spelled inside a message: `None`, `True`, numbers with their shortest digits, quoted
texts, and lists and objects in brackets with `, ` between the parts.

## Contents
- **Literals.** `literal`, where texts are quoted.
- **Display.** `display`, where a text stands for itself.
-/

namespace Runbook.Value

mutual
/-- The literal of a value. -/
def literal : Value → String
  | .null => "None"
  | .bool true => "True"
  | .bool false => "False"
  | .int n => toString n
  | .real x => Number.exactText x
  | .text s => Text.quoted s
  | .list items => "[" ++ String.intercalate ", " (literals items) ++ "]"
  | .object fields => "\x7b" ++ String.intercalate ", " (fieldLiterals fields) ++ "\x7d"
  | .function _ => "<function>"
  | .schema s => "<class '" ++ s.name ++ "'>"
  | .parsed _ fields => "(" ++ String.intercalate ", " (fieldLiterals fields) ++ ")"

/-- The literals of the items of a list. -/
def literals : List Value → List String
  | [] => []
  | v :: rest => v.literal :: literals rest

/-- Key and literal of each field of an object. -/
def fieldLiterals : List (String × Value) → List String
  | [] => []
  | (k, v) :: rest => (Text.quoted k ++ ": " ++ v.literal) :: fieldLiterals rest
end

/-- A text as it is, everything else as its literal. -/
def display : Value → String
  | .text s => s
  | v => v.literal

end Runbook.Value
