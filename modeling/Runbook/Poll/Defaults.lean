import Runbook.Poll.Loop
import Runbook.Poll.Policy

/-!
# `Poll.Defaults` — the bounds of a poll when nothing else is said

## Contents
- `PollDefaults`, its reading, and its forms as policy and as bounds.
- `PollPolicy.toBounds`, the bounds of a policy.
-/

namespace Runbook

/-- Bounds of a poll, all of them set. -/
structure PollDefaults where
  intervalMs : Int := 3000
  timeoutMs : Int := 600000
  maxRetries : Int := 200
  deriving DecidableEq, Repr

namespace PollDefaults

/-- The name of the structure in messages. -/
def structureName : String := "WorkerPollDefaults"

/-- Reads the bounds from the fields of a mapping. -/
def ofFields (fields : Keyed Value) : Checked PollDefaults :=
  PollDefaults.mk
    <$> Decode.optional fields "interval_ms" 3000 Decode.whole
    <*> Decode.optional fields "timeout_ms" 600000 Decode.whole
    <*> Decode.optional fields "max_retries" 200 Decode.whole

/-- The bounds as a value. -/
def toValue (d : PollDefaults) : Value :=
  .object
    [("interval_ms", .int d.intervalMs), ("timeout_ms", .int d.timeoutMs),
     ("max_retries", .int d.maxRetries)]

/-- The bounds as a policy. -/
def toPolicy (d : PollDefaults) : PollPolicy :=
  ⟨some d.intervalMs, some d.timeoutMs, some d.maxRetries⟩

/-- The bounds of a poll. -/
def toBounds (d : PollDefaults) : PollBounds := ⟨d.intervalMs, some d.timeoutMs, some d.maxRetries⟩

end PollDefaults

/-- The bounds of a policy; an interval that is left open is zero. -/
def PollPolicy.toBounds (p : PollPolicy) : PollBounds :=
  ⟨p.intervalMs.getD 0, p.timeoutMs, p.maxRetries⟩

end Runbook
