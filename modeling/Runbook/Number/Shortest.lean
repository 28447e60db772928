import Runbook.Number.Binary

/-!
# `Number.Shortest` — the fewest digits that read back

Every double is the nearest one to all the reals of an interval around it. The *shortest decimal*
of a positive double is the decimal with the fewest significant digits inside that interval, and of
several such the nearest to the double.

## Contents
- **Decimals.** `Decimal`, `digits · 10 ^ exponent`, and its place in the scale, `Decimal.point`.
- **The interval.** `Interval.around`: the reals that round to a double, ends included for an even
  mantissa.
- **The search.** `shortest?` tries 1, 2, … 17 digits; on each grid only the two neighbours of the
  value need a look.
- **Given precision.** `significant` rounds to a number of significant digits, ties to even.
-/

namespace Runbook.Number

/-- The decimal `digits · 10 ^ exponent`. -/
structure Decimal where
  digits : Nat
  exponent : Int
  deriving DecidableEq, Repr

/-- The number of decimal digits of a number (one for zero). -/
def digitCount (n : Nat) : Nat := (Nat.toDigits 10 n).length

/-- Where the decimal point stands relative to the first digit: `d₁d₂… = 0.d₁d₂… · 10 ^ point`. -/
def Decimal.point (d : Decimal) : Int := d.exponent + digitCount d.digits

/-- Drops up to `fuel` trailing zeros. -/
def Decimal.trim : Nat → Decimal → Decimal
  | 0, d => d
  | fuel + 1, d =>
    if d.digits ≠ 0 ∧ d.digits % 10 = 0 then Decimal.trim fuel ⟨d.digits / 10, d.exponent + 1⟩ else d

/-- `10 ^ k` as a fraction. -/
def powerOfTen : Int → Nat × Nat
  | .ofNat k => (Nat.pow 10 k, 1)
  | .negSucc k => (1, Nat.pow 10 (k + 1))

/-- The largest `k` with `10 ^ k ≤ num / den`, for positive `num` and `den`. -/
def magnitude (num den : Nat) : Int :=
  let guess : Int := (digitCount num : Int) - digitCount den
  let (p, q) := powerOfTen guess
  if p * den ≤ num * q then guess else guess - 1

/-- The reals that round to a double, as fractions `low / unit` and `high / unit`; `value / unit`
    is the double itself. -/
structure Interval where
  low : Nat
  value : Nat
  high : Nat
  unit : Nat
  closed : Bool

/-- The interval around `mantissa · 2 ^ exponent`. Below a power of two the gap is half as wide. -/
def Interval.around (mantissa : Nat) (exponent : Int) : Interval :=
  let (num, den) := fraction 1 (exponent - 2)
  let below := if mantissa = Nat.pow 2 52 ∧ exponent > -1074 then 1 else 2
  { low := (4 * mantissa - below) * num
    value := 4 * mantissa * num
    high := (4 * mantissa + 2) * num
    unit := den
    closed := mantissa % 2 = 0 }

/-- Whether `num / den` rounds to the double of the interval. -/
def Interval.holds (i : Interval) (num den : Nat) : Bool :=
  let n := num * i.unit
  if i.closed then i.low * den ≤ n && n ≤ i.high * den else i.low * den < n && n < i.high * den

/-- The grid point of exponent `k` nearest to the double, among those that round to it. -/
def Interval.onGrid? (i : Interval) (k : Int) : Option Nat :=
  let (p, q) := powerOfTen k
  let scaled := i.value * q
  let step := i.unit * p
  let floor := scaled / step
  let down := floor ≠ 0 && i.holds (floor * p) q
  let up := i.holds ((floor + 1) * p) q
  match down, up with
  | false, false => none
  | true, false => some floor
  | false, true => some (floor + 1)
  | true, true =>
    match compare (2 * (scaled % step)) step with
    | .lt => some floor
    | .gt => some (floor + 1)
    | .eq => some (if floor % 2 = 0 then floor else floor + 1)

/-- The first grid with a hit, counting `count` digits and at most `fuel` more. -/
def Interval.search (i : Interval) (top : Int) : Nat → Nat → Option Decimal
  | 0, _ => none
  | fuel + 1, count =>
    let k := top - (count - 1)
    match i.onGrid? k with
    | some digits => some ⟨digits, k⟩
    | none => i.search top fuel (count + 1)

/-- The shortest decimal that reads back as `mantissa · 2 ^ exponent`. -/
def shortest? (mantissa : Nat) (exponent : Int) : Option Decimal :=
  let i := Interval.around mantissa exponent
  (i.search (magnitude i.value i.unit) 17 1).map (Decimal.trim 17)

/-- `num / den` to `count` significant digits, ties to even. -/
def significant (num den count : Nat) : Decimal :=
  let k := magnitude num den - (count - 1 : Int)
  let (p, q) := powerOfTen k
  ⟨roundDiv (num * q) (den * p), k⟩

end Runbook.Number
