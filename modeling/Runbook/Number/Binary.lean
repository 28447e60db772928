/-!
# `Number.Binary` — what a double stands for

A double is taken apart into sign, mantissa and exponent, so that comparisons and roundings can be
made on exact integers instead of on further doubles.

## Contents
- **Taking apart.** `Parts` and `Parts.ofFloat`: `± mantissa · 2 ^ exponent`, an infinity, or no number.
- **Exact comparison.** `compareInt?` orders a double and an integer of any size; `equalsInt` is its
  equality; `isBeyondDoubles`, the integers that exceed every double.
- **Rounding.** `thousandths` of an integer; `roundDiv`, the nearest integer to a quotient with ties
  to the even neighbour, `nearest`, the one that a double holds, and `roundHalfEven` on doubles;
  `truncate?` drops the fraction.
-/

namespace Runbook.Number

/-- A double taken apart. A finite one is `± mantissa · 2 ^ exponent`. -/
inductive Parts where
  | notANumber
  | infinite (negative : Bool)
  | finite (negative : Bool) (mantissa : Nat) (exponent : Int)
  deriving DecidableEq, Repr

/-- Reads sign, exponent and mantissa off the 64 bits. -/
def Parts.ofFloat (x : Float) : Parts :=
  let bits := x.toBits.toNat
  let negative := bits / Nat.pow 2 63 = 1
  let biased : Nat := bits / Nat.pow 2 52 % Nat.pow 2 11
  let fraction : Nat := bits % Nat.pow 2 52
  if biased = 2047 then
    if fraction = 0 then .infinite negative else .notANumber
  else if biased = 0 then .finite negative fraction (-1074)
  else .finite negative (fraction + Nat.pow 2 52) ((biased : Int) - 1075)

/-- A finite double: neither an infinity nor NaN. -/
def isFinite (x : Float) : Bool :=
  match Parts.ofFloat x with
  | .finite .. => true
  | _ => false

/-- `mantissa · 2 ^ exponent` as a fraction. -/
def fraction (mantissa : Nat) (exponent : Int) : Nat × Nat :=
  match exponent with
  | .ofNat e => (mantissa * Nat.pow 2 e, 1)
  | .negSucc e => (mantissa, Nat.pow 2 (e + 1))

/-- Orders a double and an integer exactly; NaN is not ordered. -/
def compareInt? (x : Float) (n : Int) : Option Ordering :=
  match Parts.ofFloat x with
  | .notANumber => none
  | .infinite true => some .lt
  | .infinite false => some .gt
  | .finite negative m e =>
    let (num, den) := fraction m e
    some (compare (if negative then -(num : Int) else num) (n * den))

/-- Exact equality of a double and an integer. -/
def equalsInt (x : Float) (n : Int) : Bool := compareInt? x n == some .eq

/-- Whether a magnitude exceeds every double: the nearest one would be an infinity. -/
def isBeyondDoubles (n : Nat) : Bool := decide (Nat.pow 2 1024 - Nat.pow 2 970 ≤ n)

/-- The nearest double to a number of thousandths. -/
def thousandths (n : Int) : Float :=
  match n with
  | .ofNat n => Float.ofScientific n true 3
  | .negSucc n => -Float.ofScientific (n + 1) true 3

/-- The nearest integer to `num / den`; a tie goes to the even neighbour. -/
def roundDiv (num den : Nat) : Nat :=
  let floor := num / den
  match compare (2 * (num % den)) den with
  | .lt => floor
  | .gt => floor + 1
  | .eq => if floor % 2 = 0 then floor else floor + 1

/-- The whole number nearest to `num / den` among those that a double holds; a tie goes to the even
    neighbour. -/
def nearest (num den : Nat) : Nat :=
  let place := Nat.pow 2 (Nat.log2 (num / (den * Nat.pow 2 52)))
  roundDiv num (den * place) * place

/-- The nearest integer to a double, ties to even; zero for what is not finite. -/
def roundHalfEven (x : Float) : Int :=
  match Parts.ofFloat x with
  | .finite negative m e =>
    let (num, den) := fraction m e
    if negative then -(roundDiv num den : Int) else roundDiv num den
  | _ => 0

/-- The integer a double equals, when it has no fractional part. -/
def toInt? (x : Float) : Option Int :=
  match Parts.ofFloat x with
  | .finite negative m e =>
    let (num, den) := fraction m e
    if num % den = 0 then
      some (if negative then -(num / den : Nat) else (num / den : Nat))
    else none
  | _ => none

/-- The integer next to a double on the side of zero; absent for infinities and NaN. -/
def truncate? (x : Float) : Option Int :=
  match Parts.ofFloat x with
  | .finite negative m e =>
    let (num, den) := fraction m e
    some (if negative then -(num / den : Nat) else (num / den : Nat))
  | _ => none

end Runbook.Number
