import Runbook.Decode.Scalar

/-!
# `Time.Stamp` — points in time

A stamp is a date and a time of day down to the microsecond, with the offset of its zone from
universal time where one is known. Records carry stamps, and their documents hold the text of them.

## Contents
- **Calendar.** `isLeap`, `monthLength`, `dayNumber` (days since 1970) and its inverse `ofDayNumber`.
- **The type.** `Stamp`, `Stamp.ofMicros` (the stamp of a clock reading), `Stamp.instant` (the order
  of stamps, if they are `comparable`) and `Stamp.score` (the double that stands for it).
- **Writing.** `isoText`, with the offset spelled out, and `text`, with `Z` for universal time.
- **Reading.** `Stamp.ofText`, with `DateProblem` for what cannot be read, and `Decode.stamp`.
-/

namespace Runbook

namespace Calendar

/-- Every fourth year is a leap year, except for centuries that 400 does not divide. -/
def isLeap (year : Nat) : Bool := year % 4 = 0 && (year % 100 ≠ 0 || year % 400 = 0)

/-- The number of days of a month. -/
def monthLength (year month : Nat) : Nat :=
  if month = 2 then (if isLeap year then 29 else 28)
  else if month = 4 ∨ month = 6 ∨ month = 9 ∨ month = 11 then 30
  else 31

/-- The number of days from the first of January 1970 to a date. Years are counted from March, so
    that a leap day ends its year. -/
def dayNumber (year month day : Nat) : Int :=
  let y : Int := if month ≤ 2 then (year : Int) - 1 else year
  let m : Int := if month ≤ 2 then (month : Int) + 9 else (month : Int) - 3
  let era := y / 400
  let yearOfEra := y - era * 400
  let dayOfYear := (153 * m + 2) / 5 + (day : Int) - 1
  let dayOfEra := yearOfEra * 365 + yearOfEra / 4 - yearOfEra / 100 + dayOfYear
  era * 146097 + dayOfEra - 719468

/-- Year, month and day at a number of days since the first of January 1970. -/
def ofDayNumber (days : Nat) : Nat × Nat × Nat :=
  let z := days + 719468
  let era := z / 146097
  let dayOfEra := z % 146097
  let yearOfEra := (dayOfEra - dayOfEra / 1460 + dayOfEra / 36524 - dayOfEra / 146096) / 365
  let dayOfYear := dayOfEra - (365 * yearOfEra + yearOfEra / 4 - yearOfEra / 100)
  let m := (5 * dayOfYear + 2) / 153
  let day := dayOfYear - (153 * m + 2) / 5 + 1
  let month := if m < 10 then m + 3 else m - 9
  let year := yearOfEra + era * 400
  (if month ≤ 2 then year + 1 else year, month, day)

end Calendar

/-- A point in time. -/
structure Stamp where
  year : Nat
  month : Nat
  day : Nat
  hour : Nat
  minute : Nat
  second : Nat
  micro : Nat
  /-- Seconds that the zone is ahead of universal time; absent when the zone is not known. -/
  offset : Option Int
  deriving DecidableEq, Repr

namespace Stamp

/-- Microseconds of a day. -/
def dayMicros : Nat := 86400000000

/-- The stamp in universal time of a number of microseconds since the beginning of 1970. -/
def ofMicros (us : Nat) : Stamp :=
  let (year, month, day) := Calendar.ofDayNumber (us / dayMicros)
  let rest := us % dayMicros
  { year, month, day
    hour := rest / 3600000000
    minute := rest / 60000000 % 60
    second := rest / 1000000 % 60
    micro := rest % 1000000
    offset := some 0 }

/-- Microseconds since the beginning of 1970; an unknown zone counts as universal time. -/
def instant (s : Stamp) : Int :=
  Calendar.dayNumber s.year s.month s.day * dayMicros
    + ((s.hour * 3600 + s.minute * 60 + s.second : Nat) - s.offset.getD 0) * 1000000 + s.micro

/-- Seconds since the beginning of 1970 as a double, in parts of `2 ^ -72`. Where the zone is not
    known, the fraction is rounded before it is added. -/
def score (s : Stamp) : Int :=
  match s.offset with
  | some _ => s.instant.sign * Number.nearest (s.instant.natAbs * Nat.pow 2 72) 1000000
  | none =>
    let sum : Int :=
      (s.instant - s.micro) / 1000000 * Nat.pow 2 72 + Number.nearest (s.micro * Nat.pow 2 72) 1000000
    sum.sign * Number.nearest sum.natAbs 1

/-- Whether stamps can be put in order: the zone of each is known, or of none. -/
def comparable (stamps : List Stamp) : Bool :=
  stamps.all (·.offset.isSome) || stamps.all (·.offset.isNone)

/-! ## Writing -/

/-- The digits of a number, with zeros in front up to a width. -/
def padded (width n : Nat) : String :=
  let digits := toString n
  String.ofList (List.replicate (width - digits.length) '0') ++ digits

/-- Date and time of day; the fraction is written with six digits when it is not zero. -/
def localText (s : Stamp) : String :=
  padded 4 s.year ++ "-" ++ padded 2 s.month ++ "-" ++ padded 2 s.day ++ "T"
    ++ padded 2 s.hour ++ ":" ++ padded 2 s.minute ++ ":" ++ padded 2 s.second
    ++ (if s.micro = 0 then "" else "." ++ padded 6 s.micro)

/-- An offset as sign, hours and minutes. -/
def offsetText (offset : Int) : String :=
  let minutes := offset.natAbs / 60
  (if offset < 0 then "-" else "+") ++ padded 2 (minutes / 60) ++ ":" ++ padded 2 (minutes % 60)

/-- The text with the offset of the zone. -/
def isoText (s : Stamp) : String :=
  s.localText ++
    match s.offset with
    | some offset => offsetText offset
    | none => ""

/-- The text in records: universal time is marked by `Z`. -/
def text (s : Stamp) : String :=
  s.localText ++
    match s.offset with
    | some 0 => "Z"
    | some offset => offsetText offset
    | none => ""

/-! ## Reading -/

/-- Why a text is not a point in time. -/
inductive DateProblem where
  | tooShort
  | badYear
  | badSeparator
  | badMonth
  | badDay
  | monthOutOfRange
  | dayOutOfRange
  | extraCharacters
  deriving DecidableEq, Repr

/-- The wording of a problem. -/
def DateProblem.reason : DateProblem → String
  | .tooShort => "input is too short"
  | .badYear => "invalid character in year"
  | .badSeparator => "invalid date separator, expected `-`"
  | .badMonth => "invalid character in month"
  | .badDay => "invalid character in day"
  | .monthOutOfRange => "month value is outside expected range of 1-12"
  | .dayOutOfRange => "day value is outside expected range"
  | .extraCharacters => "unexpected extra characters at the end of the input"

/-- A run of digits of a fixed width. -/
def digits? (width : Nat) (cs : List Char) : Option (Nat × List Char) :=
  let front := cs.take width
  if front.length = width && front.all Char.isDigit then
    some (JsonReader.digitsValue front, cs.drop width)
  else none

/-- One character that is expected next. -/
def mark? (isMark : Char → Bool) : List Char → Option (List Char)
  | c :: rest => if isMark c then some rest else none
  | [] => none

/-- A part that must be there. -/
def need {α : Type} (p : DateProblem) : Option α → Except DateProblem α
  | some a => .ok a
  | none => .error p

/-- The date at the front of a text. -/
def readDate (cs : List Char) : Except DateProblem ((Nat × Nat × Nat) × List Char) := do
  if cs.length < 10 then .error .tooShort
  let (year, cs) ← need .badYear (digits? 4 cs)
  let cs ← need .badSeparator (mark? (· = '-') cs)
  let (month, cs) ← need .badMonth (digits? 2 cs)
  let cs ← need .badSeparator (mark? (· = '-') cs)
  let (day, cs) ← need .badDay (digits? 2 cs)
  if month < 1 ∨ 12 < month then .error .monthOutOfRange
  if day < 1 ∨ Calendar.monthLength year month < day then .error .dayOutOfRange
  return ((year, month, day), cs)

/-- Seconds after the minute, with up to six digits of a fraction. -/
def readSeconds? (cs : List Char) : Option ((Nat × Nat) × List Char) :=
  match cs with
  | ':' :: rest => do
    let (second, rest) ← digits? 2 rest
    match rest with
    | '.' :: more =>
      let places := more.takeWhile Char.isDigit
      if places.isEmpty then none
      else
        let six := (places ++ List.replicate 6 '0').take 6
        return ((second, JsonReader.digitsValue six), more.drop places.length)
    | rest => return ((second, 0), rest)
  | rest => some ((0, 0), rest)

/-- The offset of the zone at the end of a text. -/
def readOffset? (cs : List Char) : Option (Option Int) :=
  match cs with
  | [] => some none
  | ['Z'] | ['z'] => some (some 0)
  | sign :: rest =>
    if sign = '+' ∨ sign = '-' then do
      let (hours, rest) ← digits? 2 rest
      let rest := (mark? (· = ':') rest).getD rest
      let (minutes, rest) ← digits? 2 rest
      if rest.isEmpty ∧ minutes < 60 ∧ hours < 24 then
        let seconds : Int := (hours * 60 + minutes) * 60
        return some (if sign = '-' then -seconds else seconds)
      else none
    else none

/-- The time of day behind a date, with its zone. -/
def readTime? (date : Nat × Nat × Nat) (cs : List Char) : Option Stamp := do
  let cs ← mark? (fun c => c = 'T' || c = 't' || c = ' ' || c = '_') cs
  let (hour, cs) ← digits? 2 cs
  let cs ← mark? (· = ':') cs
  let (minute, cs) ← digits? 2 cs
  let ((second, micro), cs) ← readSeconds? cs
  let offset ← readOffset? cs
  if hour < 24 ∧ minute < 60 ∧ second < 60 then
    return ⟨date.1, date.2.1, date.2.2, hour, minute, second, micro, offset⟩
  else none

/-- The stamp of a number of seconds since 1970, or of milliseconds when it is large. -/
def ofSeconds? (seconds : Float) : Option Stamp :=
  let seconds := if 20000000000.0 < seconds.abs then seconds / 1000.0 else seconds
  let us := Number.roundHalfEven (seconds * 1000000.0)
  if 0 ≤ us ∧ us < 253402300800000000 then some (ofMicros us.toNat) else none

/-- A number written in a text, as seconds since 1970. -/
def ofNumeral? (cs : List Char) : Option Stamp :=
  let body := if cs.head? = some '-' ∨ cs.head? = some '+' then cs.drop 1 else cs
  if !body.isEmpty && body.all (fun c => c.isDigit || c = '.') then
    (Decode.realOfText? (String.ofList cs)).bind ofSeconds?
  else none

/-- Reads a date with a time of day, a date alone (its midnight in an unknown zone), or a number of
    seconds since 1970. -/
def ofText (s : String) : Except DateProblem Stamp :=
  match ofNumeral? s.toList with
  | some stamp => .ok stamp
  | none =>
    match readDate s.toList with
    | .error p => .error p
    | .ok (date, []) => .ok ⟨date.1, date.2.1, date.2.2, 0, 0, 0, 0, none⟩
    | .ok (date, rest) =>
      match readTime? date rest with
      | some stamp => .ok stamp
      | none => .error .extraCharacters

end Stamp

/-- A point in time: a text, or a number of seconds since 1970. -/
def Decode.stamp : Value → Checked Stamp
  | .text s =>
    match Stamp.ofText s with
    | .ok stamp => .ok stamp
    | .error .tooShort => .complain .datetimeTooShort
    | .error p => .complain (.datetimeInvalid p.reason)
  | .int n =>
    match Stamp.ofSeconds? (Float.ofInt n) with
    | some stamp => .ok stamp
    | none => .complain .datetimeType
  | .real x =>
    match Stamp.ofSeconds? x with
    | some stamp => .ok stamp
    | none => .complain .datetimeType
  | _ => .complain .datetimeType

/-- A stamp as a value. -/
def Stamp.toValue (s : Stamp) : Value := .text s.text

/-- An optional stamp as a value. -/
def Stamp.toValue? : Option Stamp → Value
  | some s => s.toValue
  | none => .null

end Runbook
