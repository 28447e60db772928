import Runbook.Program.Call

/-!
# `Program.Basic` — programs as trees of calls

A program is finished with a value, or makes a call and goes on as its answer says. A fiber is a
program of the engine, which can also run several fibers side by side and go on when all of them
have ended.

## Contents
- **Programs.** `Program` with its monad laws; `Program.call`, a single call; `Action`, programs that
  can fail.
- **Calls by name.** `Action.store`, `Action.getJob`, …
- **Fibers.** `Fiber`, `Fiber.andThen` with its laws, `Program.toFiber`.
-/

namespace Runbook

/-- A program: a value, or a call and what follows each answer. -/
inductive Program (α : Type) where
  | done (a : α)
  | ask (c : Call) (next : c.Answer → Program α)

namespace Program

variable {α β γ : Type}

/-- One program after the other. -/
def bind : Program α → (α → Program β) → Program β
  | .done a, f => f a
  | .ask c next, f => .ask c fun answer => (next answer).bind f

instance : Monad Program where
  pure := .done
  bind := bind

theorem bind_done (p : Program α) : p.bind .done = p := by
  induction p with
  | done a => rfl
  | ask c next ih => simp only [bind]; congr 1; funext answer; exact ih answer

theorem bind_assoc (p : Program α) (f : α → Program β) (g : β → Program γ) :
    (p.bind f).bind g = p.bind fun a => (f a).bind g := by
  induction p with
  | done a => rfl
  | ask c next ih => simp only [bind]; congr 1; funext answer; exact ih answer

/-- A single call. -/
def call (c : Call) : Program c.Answer := .ask c .done

end Program

/-- A program that can fail. -/
abbrev Action := ExceptT Fault Program

namespace Action

/-- A call that cannot fail. -/
def call (c : Call) : Action c.Answer := ExceptT.lift (Program.call c)

/-- An action that ends at once. -/
def ofExcept {α : Type} (r : Except Fault α) : Action α := ExceptT.mk (.done r)

/-- The outcome of an action, which does not fail. -/
def outcome {α : Type} (a : Action α) : Program (Except Fault α) := a.run

/-- The time of the clock as a stamp. -/
def now : Action Stamp := Stamp.ofMicros <$> call .clock

/-- An operation on the stores. -/
def store (op : StoreOp) : Action StoreAnswer := ExceptT.mk (Program.call (.store op))

/-- The record of a job. -/
def getJob (jobId : String) : Action (Option JobRecord) := do
  match ← store (.getJob jobId) with
  | .job r => return r
  | _ => return none

/-- Lays an update over the record of a job, which need not exist. -/
def setJob (jobId : String) (updates : Keyed Value) : Action Unit :=
  discard (store (.setJob jobId updates))

/-- Lays an update over the record of a job that exists. -/
def updateJob (jobId : String) (updates : Keyed Value) : Action Unit :=
  discard (store (.updateJob jobId updates))

/-- The record of a run. -/
def getRun (runId : String) : Action (Option RunRecord) := do
  match ← store (.getRun runId) with
  | .run r => return r
  | _ => return none

/-- A wait that observers see. -/
def observedPause (seconds : Float) : Action Unit := do
  call (.note (.sleep seconds))
  call (.pause seconds)

/-- A wait on the host. -/
def hostSleep (seconds : Float) : Action Unit := ExceptT.mk (Program.call (.hostSleep seconds))

end Action

/-- A fiber with outcomes of one type: an outcome, a call on behalf of a step or of none, or fibers
    side by side and what follows their outcomes. -/
inductive Fiber (ρ : Type) where
  | done (outcome : ρ)
  | ask (c : Call) (next : c.Answer → Fiber ρ) (step : Option StepPath := none)
  | fork (branches : List (Fiber ρ)) (next : List ρ → Fiber ρ)

namespace Fiber

variable {ρ : Type}

/-- Goes on with the outcome of a fiber. -/
def andThen : Fiber ρ → (ρ → Fiber ρ) → Fiber ρ
  | .done outcome, f => f outcome
  | .ask c next step, f => .ask c (fun answer => (next answer).andThen f) step
  | .fork branches next, f => .fork branches fun outcomes => (next outcomes).andThen f

theorem andThen_done (p : Fiber ρ) : p.andThen .done = p := by
  induction p using Fiber.rec (motive_2 := fun _ => True) with
  | done outcome => rfl
  | ask c next step ih => simp only [andThen]; congr 1; funext answer; exact ih answer
  | fork branches next _ ih => simp only [andThen]; congr 1; funext outcomes; exact ih outcomes
  | nil => trivial
  | cons => trivial

theorem andThen_assoc (p : Fiber ρ) (f g : ρ → Fiber ρ) :
    (p.andThen f).andThen g = p.andThen fun outcome => (f outcome).andThen g := by
  induction p using Fiber.rec (motive_2 := fun _ => True) with
  | done outcome => rfl
  | ask c next step ih => simp only [andThen]; congr 1; funext answer; exact ih answer
  | fork branches next _ ih => simp only [andThen]; congr 1; funext outcomes; exact ih outcomes
  | nil => trivial
  | cons => trivial

end Fiber

/-- A program as the beginning of a fiber, its calls made on behalf of a step or of none. -/
def Program.toFiber {α ρ : Type} (step : Option StepPath) : Program α → (α → Fiber ρ) → Fiber ρ
  | .done a, f => f a
  | .ask c next, f => .ask c (fun answer => (next answer).toFiber step f) step

end Runbook
