import Runbook.Number.Shortest

/-!
# `Number.Layout` — how a double is written

A decimal is written positionally or with an exponent; which of the two, and what is kept of the
digits, is fixed by a `Layout`.

## Contents
- **Layouts.** `Layout.exact` keeps every digit that matters and shows that a number is fractional;
  `Layout.general` keeps six significant digits.
- **Writing.** `Layout.write` for a decimal, `exactText`, `generalText` and `wholeText` for a double.
-/

namespace Runbook.Number

/-- How a positive decimal is laid out. -/
structure Layout where
  /-- A number whose decimal point is at or before this place is written with an exponent. -/
  lowest : Int
  /-- A number whose decimal point lies behind this place is written with an exponent. -/
  highest : Int
  /-- Whether an integral positional number ends in `.0`. -/
  marksFraction : Bool

/-- Positional from `0.0001` up to `10 ^ 16`; integral numbers end in `.0`. -/
def Layout.exact : Layout := ⟨-4, 16, true⟩

/-- Positional from `0.0001` up to `10 ^ 6`; integral numbers have no point. -/
def Layout.general : Layout := ⟨-4, 6, false⟩

/-- A text of `n` zeros. -/
def zeros (n : Nat) : String := String.ofList (List.replicate n '0')

/-- An exponent: a sign and at least two digits. -/
def exponentText (e : Int) : String :=
  let digits := toString e.natAbs
  (if e < 0 then "e-" else "e+") ++ (if digits.length < 2 then "0" ++ digits else digits)

/-- Writes a positive decimal without trailing zeros. -/
def Layout.write (layout : Layout) (d : Decimal) : String :=
  let digits := toString d.digits
  let point := d.point
  if point ≤ layout.lowest ∨ layout.highest < point then
    let tail := digits.toList.drop 1
    String.ofList (digits.toList.take 1)
      ++ (if tail.isEmpty then "" else "." ++ String.ofList tail)
      ++ exponentText (point - 1)
  else if point ≤ 0 then "0." ++ zeros (-point).toNat ++ digits
  else if point.toNat < digits.length then
    String.ofList (digits.toList.take point.toNat) ++ "."
      ++ String.ofList (digits.toList.drop point.toNat)
  else
    digits ++ zeros (point.toNat - digits.length) ++ (if layout.marksFraction then ".0" else "")

/-- A minus sign where it is due. -/
def signed (negative : Bool) (text : String) : String := if negative then "-" ++ text else text

/-- The shortest text that reads back, with a fraction or an exponent. -/
def exactText (x : Float) : String :=
  match Parts.ofFloat x with
  | .notANumber => "nan"
  | .infinite negative => signed negative "inf"
  | .finite negative 0 _ => signed negative "0.0"
  | .finite negative m e =>
    match shortest? m e with
    | some d => signed negative (Layout.exact.write d)
    | none => signed negative "0.0"

/-- Six significant digits, trailing zeros dropped. -/
def generalText (x : Float) : String :=
  match Parts.ofFloat x with
  | .notANumber => "nan"
  | .infinite negative => signed negative "inf"
  | .finite negative 0 _ => signed negative "0"
  | .finite negative m e =>
    let (num, den) := fraction m e
    signed negative (Layout.general.write ((significant num den 6).trim 7))

/-- The nearest whole number, ties to even. -/
def wholeText (x : Float) : String :=
  match Parts.ofFloat x with
  | .notANumber => "nan"
  | .infinite negative => signed negative "inf"
  | .finite negative m e =>
    let (num, den) := fraction m e
    signed negative (toString (roundDiv num den))

end Runbook.Number
