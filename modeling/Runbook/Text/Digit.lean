import Runbook.Text.Blank

/-!
# `Text.Digit` — decimal digits of every script

A *decimal digit* (general category `Nd`) comes in a run of ten code points whose offset is its
value. A *digit character* is one of those or one of the further characters that carry a digit
value without being written positionally (superscripts, circled digits, …).

## Contents
- **Decimal digits.** `digitValue?` gives the value; `isDecimalDigit` the class.
- **Digit characters.** `isDigitChar`, the larger class.
- **Numerals.** `ofDigits?`, the natural number a run of decimal digits stands for, and
  `ofNumeral?`, the integer a signed numeral stands for; `integerOfText?` also allows blanks around
  it and underscores between its digits.
-/

namespace Runbook.Text

/-- The code point of the zero of each script that has decimal digits. -/
def zeroDigits : List Nat := [
  0x30, 0x660, 0x6f0, 0x7c0, 0x966, 0x9e6, 0xa66, 0xae6, 0xb66, 0xbe6,
  0xc66, 0xce6, 0xd66, 0xde6, 0xe50, 0xed0, 0xf20, 0x1040, 0x1090, 0x17e0,
  0x1810, 0x1946, 0x19d0, 0x1a80, 0x1a90, 0x1b50, 0x1bb0, 0x1c40, 0x1c50, 0xa620,
  0xa8d0, 0xa900, 0xa9d0, 0xa9f0, 0xaa50, 0xabf0, 0xff10, 0x104a0, 0x10d30, 0x11066,
  0x110f0, 0x11136, 0x111d0, 0x112f0, 0x11450, 0x114d0, 0x11650, 0x116c0, 0x11730, 0x118e0,
  0x11950, 0x11c50, 0x11d50, 0x11da0, 0x16a60, 0x16ac0, 0x16b50, 0x1d7ce, 0x1d7d8, 0x1d7e2,
  0x1d7ec, 0x1d7f6, 0x1e140, 0x1e2f0, 0x1e950, 0x1fbf0]

/-- The value of a decimal digit of any script. -/
def digitValue? (c : Char) : Option Nat :=
  (zeroDigits.find? fun start => start ≤ c.toNat && c.toNat < start + 10).map (c.toNat - ·)

/-- Decimal digits of every script. -/
def isDecimalDigit (c : Char) : Bool := (digitValue? c).isSome

/-- The digit characters that are not decimal digits. -/
def otherDigitRanges : List (Nat × Nat) := [
  (0xb2, 0xb3), (0xb9, 0xb9), (0x1369, 0x1371), (0x19da, 0x19da), (0x2070, 0x2070),
  (0x2074, 0x2079), (0x2080, 0x2089), (0x2460, 0x2468), (0x2474, 0x247c), (0x2488, 0x2490),
  (0x24ea, 0x24ea), (0x24f5, 0x24fd), (0x24ff, 0x24ff), (0x2776, 0x277e), (0x2780, 0x2788),
  (0x278a, 0x2792), (0x10a40, 0x10a43), (0x10e60, 0x10e68), (0x11052, 0x1105a), (0x1f100, 0x1f10a)]

/-- Digit characters: decimal digits, superscripts, subscripts, circled digits and their kin. -/
def isDigitChar (c : Char) : Bool :=
  isDecimalDigit c || otherDigitRanges.any fun (low, high) => low ≤ c.toNat && c.toNat ≤ high

/-- The number a run of decimal digits stands for; absent when a character is no decimal digit. -/
def ofDigits? (cs : List Char) : Option Nat :=
  cs.foldlM (fun n c => (digitValue? c).map (10 * n + ·)) 0

/-- The integer written by an optional minus sign and one or more decimal digits. -/
def ofNumeral? : List Char → Option Int
  | [] => none
  | '-' :: [] => none
  | '-' :: digits => (ofDigits? digits).map fun n => -(n : Int)
  | digits => (ofDigits? digits).map Int.ofNat

/-- Removes single underscores that stand between other characters; absent when one stands
    elsewhere. -/
def withoutUnderscores : List Char → Option (List Char)
  | [] => some []
  | '_' :: _ => none
  | c :: '_' :: d :: rest => (withoutUnderscores (d :: rest)).map (c :: ·)
  | [_, '_'] => none
  | c :: rest => (withoutUnderscores rest).map (c :: ·)

/-- The integer a text stands for: blanks around it, a sign, and underscores between its digits are
    allowed. -/
def integerOfText? (s : String) : Option Int :=
  let cs := trim s.toList
  let negative := cs.head? = some '-'
  let digits := if negative ∨ cs.head? = some '+' then cs.drop 1 else cs
  if digits.isEmpty then none
  else
    ((withoutUnderscores digits).bind ofDigits?).map fun n => if negative then -(n : Int) else n

end Runbook.Text
