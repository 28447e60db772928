import Runbook.Number.Binary

/-!
# `Time.Clock` — the clock that waiting moves

The clock counts microseconds. Waiting is measured in seconds, a double: a timer is set at the
present time plus the wait, and when it is due the clock has moved to the nearest microsecond.

## Contents
- `Clock.seconds`, the reading as a double; `Clock.alarm`, when a wait that begins now ends.
- `Clock.reach`, the clock when a timer is due; `Clock.wait`, the clock after a wait.
- The clock never goes back: `le_reach`.
-/

namespace Runbook

/-- A reading of the clock, in microseconds. -/
abbrev Clock := Nat

namespace Clock

/-- The reading in seconds. -/
def seconds (us : Clock) : Float := Float.ofNat us / 1000000.0

/-- When a wait that begins now ends, in seconds. -/
def alarm (us : Clock) (wait : Float) : Float := us.seconds + wait

/-- The clock when a timer is due. -/
def reach (us : Clock) (due : Float) : Clock := max us (Number.roundHalfEven (due * 1000000.0)).toNat

/-- The clock after a wait; a wait that is not positive takes no time. -/
def wait (us : Clock) (length : Float) : Clock :=
  if 0.0 < length then us.reach (us.alarm length) else us

theorem le_reach (us : Clock) (due : Float) : us ≤ us.reach due := Nat.le_max_left _ _

theorem le_wait (us : Clock) (length : Float) : us ≤ us.wait length := by
  unfold wait
  split
  · exact le_reach ..
  · exact Nat.le_refl _

end Clock

end Runbook
