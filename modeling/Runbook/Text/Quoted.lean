import Runbook.Text.Printable

/-!
# `Text.Quoted` — quoted texts in messages

A text in a message stands in single quotes, or in double quotes when it holds a single quote and no
double quote. The quote in use, the backslash and every unprintable character are escaped.

## Contents
- **Escapes.** `hexText`, fixed-width hexadecimal digits, and `escape` for one character.
- **Quoting.** `quoted`.
-/

namespace Runbook.Text

/-- A number in lower-case hexadecimal, filled with zeros to a width. -/
def hexText (width n : Nat) : String :=
  let digits := Nat.toDigits 16 n
  String.ofList (List.replicate (width - digits.length) '0' ++ digits)

/-- How one character is written between quotes. -/
def escape (quote c : Char) : String :=
  if c = quote ∨ c = '\\' then String.ofList ['\\', c]
  else if c = '\n' then "\\n"
  else if c = '\r' then "\\r"
  else if c = '\t' then "\\t"
  else if isPrintable c then c.toString
  else if c.toNat < 0x100 then "\\x" ++ hexText 2 c.toNat
  else if c.toNat < 0x10000 then "\\u" ++ hexText 4 c.toNat
  else "\\U" ++ hexText 8 c.toNat

/-- The quote a text is put in. -/
def quoteFor (s : String) : Char :=
  if s.toList.contains '\'' && !s.toList.contains '"' then '"' else '\''

/-- A text in quotes. -/
def quoted (s : String) : String :=
  let quote := quoteFor s
  quote.toString ++ String.join (s.toList.map (escape quote)) ++ quote.toString

end Runbook.Text
