import Runbook.Decode.Scalar

/-!
# `Poll.Policy` — bounds of a completion poll

How often a remote status is looked at, for how long, and how many times.

## Contents
- **The type.** `PollPolicy`, each of its bounds may be left open.
- **Combination.** `withBase`, a policy with its open bounds taken from another, and `isBounded`.
- **Documents.** `ofFields`, `toFields` (attribute names) and `toDocument` (document spelling).
-/

namespace Runbook

/-- Interval, time and attempt bounds of a poll. -/
structure PollPolicy where
  intervalMs : Option Int := none
  timeoutMs : Option Int := none
  maxRetries : Option Int := none
  deriving DecidableEq, Repr, Inhabited

namespace PollPolicy

/-- Whether a time or attempt bound is set. -/
def isBounded (p : PollPolicy) : Bool := p.timeoutMs.isSome || p.maxRetries.isSome

/-- A policy whose open bounds are taken from `base`. -/
def withBase (p base : PollPolicy) : PollPolicy :=
  ⟨p.intervalMs.or base.intervalMs, p.timeoutMs.or base.timeoutMs, p.maxRetries.or base.maxRetries⟩

/-- Combines optional policies, each over the one after it; an absent one counts as open. -/
def merge (policies : List (Option PollPolicy)) : PollPolicy :=
  (policies.filterMap id).foldr withBase {}

@[simp] theorem withBase_open (p : PollPolicy) : p.withBase {} = p := by
  cases p; simp [withBase]

@[simp] theorem open_withBase (p : PollPolicy) : PollPolicy.withBase {} p = p := by
  cases p; simp [withBase]

theorem withBase_assoc (p q r : PollPolicy) :
    (p.withBase q).withBase r = p.withBase (q.withBase r) := by
  cases p; cases q; cases r; simp [withBase, Option.or_assoc]

/-- The names of the interval. -/
def intervalName : Decode.FieldName := ⟨"intervalMs", "interval_ms"⟩

/-- The names of the time bound. -/
def timeoutName : Decode.FieldName := ⟨"timeoutMs", "timeout_ms"⟩

/-- The names of the attempt bound. -/
def retriesName : Decode.FieldName := ⟨"maxRetries", "max_retries"⟩

/-- Reads a policy from the fields of a mapping. -/
def ofFields (fields : Keyed Value) : Checked PollPolicy :=
  PollPolicy.mk
    <$> Decode.option fields intervalName Decode.whole
    <*> Decode.option fields timeoutName Decode.whole
    <*> Decode.option fields retriesName Decode.whole

/-- Reads a policy from a mapping or from a policy already read. -/
def ofValue : Value → Checked PollPolicy
  | .object fields => ofFields fields
  | .parsed .pollPolicy fields => ofFields fields
  | _ => .complain (.modelType "PollPolicy")

/-- The fields of a policy under their attribute names. -/
def toFields (p : PollPolicy) : Keyed Value :=
  [("interval_ms", .ofInt? p.intervalMs), ("timeout_ms", .ofInt? p.timeoutMs),
   ("max_retries", .ofInt? p.maxRetries)]

/-- The bounds that are set, in document spelling. -/
def toDocument (p : PollPolicy) : Value :=
  .object
    ((p.intervalMs.map fun n => ("intervalMs", Value.int n)).toList
      ++ (p.timeoutMs.map fun n => ("timeoutMs", Value.int n)).toList
      ++ (p.maxRetries.map fun n => ("maxRetries", Value.int n)).toList)

end PollPolicy

end Runbook
