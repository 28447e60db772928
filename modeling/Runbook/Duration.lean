import Runbook.Text.Blank
import Runbook.Text.Digit
import Runbook.Value.Literal
import Runbook.Value.JsonReader

/-!
# `Duration` — lengths of time

A duration is a number of milliseconds, or a text: a number with an optional fraction and an
optional unit, with blanks allowed around and between the two.

## Contents
- **The type.** `Duration` and the reading of a value as one, `Duration.ofValue?`.
- **Units.** `unitMillis?`, the length of a unit.
- **The grammar.** `split?` cuts a text into whole digits, fraction digits and unit.
- **Lengths.** `milliseconds` and `seconds`, with `DurationProblem` for what has no length.
-/

namespace Runbook

/-- A length of time as it is written: a text, or a number of milliseconds. -/
inductive Duration where
  | text (s : String)
  | whole (n : Int)
  | real (x : Float)
  deriving DecidableEq

/-- Why something is not a length of time. -/
inductive DurationProblem where
  | notADuration (v : Value)
  | negative (v : Value)
  | badFormat (s : String)
  | unknownUnit (unit source : String)
  /-- The number of milliseconds exceeds every double. -/
  | tooLarge

/-- The wording of a problem. -/
def DurationProblem.message : DurationProblem → String
  | .notADuration v => "Invalid duration: " ++ v.literal
  | .negative v => "Duration must not be negative: " ++ v.literal
  | .badFormat s => "Invalid duration format: " ++ Text.quoted s
  | .unknownUnit unit source =>
    "Unknown duration unit " ++ Text.quoted unit ++ " in " ++ Text.quoted source
  | .tooLarge => "int too large to convert to float"

namespace Duration

/-- The value a duration is written as. -/
def toValue : Duration → Value
  | .text s => .text s
  | .whole n => .int n
  | .real x => .real x

/-- Reads a text or a number as a duration; a boolean is none. -/
def ofValue? : Value → Option Duration
  | .text s => some (.text s)
  | .int n => some (.whole n)
  | .real x => some (.real x)
  | _ => none

/-- The units and their lengths in milliseconds. -/
def units : List (List String × Nat) :=
  [(["ms", "msec", "millisecond", "milliseconds"], 1),
   (["s", "sec", "secs", "second", "seconds"], 1000),
   (["m", "min", "mins", "minute", "minutes"], 60000),
   (["h", "hr", "hrs", "hour", "hours"], 3600000),
   (["d", "day", "days"], 86400000),
   (["w", "week", "weeks"], 604800000)]

/-- The length of a unit in milliseconds. -/
def unitMillis? (unit : String) : Option Nat :=
  (units.find? fun (names, _) => names.contains unit).map (·.2)

/-- A duration text cut into its parts. -/
structure Parts where
  whole : List Char
  places : List Char
  unit : List Char
  deriving DecidableEq, Repr

/-- The letters of units. -/
def isUnitLetter (c : Char) : Bool := c.isAlpha

/-- Cuts a text into whole digits, fraction digits and unit. A point must be followed by a digit;
    nothing but blanks may stand before, between and behind the parts. -/
def split? (cs : List Char) : Option Parts :=
  let cs := Text.trimLeft cs
  let whole := cs.takeWhile Text.isDecimalDigit
  let rest := cs.dropWhile Text.isDecimalDigit
  let places :=
    match rest with
    | '.' :: more => more.takeWhile Text.isDecimalDigit
    | _ => []
  let rest := if places.isEmpty then rest else rest.drop (places.length + 1)
  let rest := Text.trimLeft rest
  let unit := rest.takeWhile isUnitLetter
  let rest := Text.trimLeft (rest.dropWhile isUnitLetter)
  if whole.isEmpty then none
  else if rest.isEmpty then some ⟨whole, places, unit⟩
  else none

/-- The number that the digits of a duration text write. -/
def Parts.number (p : Parts) : Float :=
  Float.ofScientific ((Text.ofDigits? (p.whole ++ p.places)).getD 0) true p.places.length

/-- The unit in lower case, milliseconds when none is written. -/
def Parts.unitName (p : Parts) : String :=
  if p.unit.isEmpty then "ms" else String.ofList (p.unit.map Char.toLower)

/-- The length of a duration text in milliseconds. -/
def textMillis (s : String) : Except DurationProblem Float :=
  match split? s.toList with
  | none => .error (.badFormat s)
  | some p =>
    match unitMillis? p.unitName with
    | none => .error (.unknownUnit p.unitName s)
    | some factor => .ok (p.number * Float.ofNat factor)

/-- The length of a duration in milliseconds. -/
def milliseconds : Duration → Except DurationProblem Float
  | .text s => textMillis s
  | .whole n =>
    if n < 0 then .error (.negative (.int n))
    else
      let x := Float.ofInt n
      if Number.isFinite x then .ok x else .error .tooLarge
  | .real x => if x < 0.0 then .error (.negative (.real x)) else .ok x

/-- The length of a duration in seconds. -/
def seconds (d : Duration) : Except DurationProblem Float := (· / 1000.0) <$> d.milliseconds

/-- The length in milliseconds that a value stands for. -/
def millisecondsOf (v : Value) : Except DurationProblem Float :=
  match ofValue? v with
  | some d => d.milliseconds
  | none => .error (.notADuration v)

end Duration

end Runbook
