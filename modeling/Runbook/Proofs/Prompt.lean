import Runbook.Proofs.Runs

/-!
# `Proofs.Prompt` — runs in which nobody is kept waiting

Surroundings say what others answer. When they answer at once, and fibers side by side are carried out
one after the other, a fiber comes to its end: `Fiber.promptly` computes the run. So every fiber has a
run in every world, and what holds of all runs can be seen at work in one.

## Contents
- **Answers.** `Environment` and `World.answer`.
- **Runs.** `Fiber.promptly`, and `runs_promptly`.
- **Worlds on the way.** `World.follow`, the world after some of the deeds of such a run.
-/

namespace Runbook

/-! ## Answers -/

/-- What others answer to a call that is made on behalf of a step. -/
abbrev Environment := Option StepPath → (c : Call) → c.Answer

/-- Surroundings that reply to requests; waits end at once, and no event comes. -/
def Environment.replying (reply : Request → Reply) : Environment
  | _, .request r => reply r
  | _, .clock => (0 : Nat)
  | _, .freshId => (0 : Nat)
  | _, .hostSleep _ => .ok ()
  | _, .awaitEvent _ _ => none
  | _, .sendEvent _ _ => false
  | _, .store _ => .ok .nothing
  | _, .recall _ => none
  | _, .amend _ _ => .ok ()
  | _, .pause _ | _, .updateRun _ _ | _, .beginAttempt _ | _, .enterStep _ _ _ | _, .journal _ _
  | _, .saveCheckpoint _ | _, .report _ | _, .note _ => ()

namespace World

/-- The answer to a call, and the world after it, when others answer at once. -/
def answer (w : World) (env : Environment) (step : Option StepPath) (c : Call) : c.Answer × World :=
  if c.isOutside then (env step c, w)
  else
    match w.step c with
    | .now answer w' => (answer, w')
    | _ => (env step c, w)

/-- Calls that nobody outside answers are answered at once. -/
theorem step_of_not_isOutside (w : World) {c : Call} (hc : c.isOutside = false) :
    ∃ answer w', w.step c = .now answer w' ∧ w'.clock = w.clock := by
  cases c <;> simp only [Call.isOutside, Bool.true_eq_false] at hc <;>
    refine ⟨_, _, rfl, ?_⟩ <;> first | rfl | skip
  · split <;> rfl
  · unfold saveCheckpoint
    split <;> rfl

theorem clock_answer (w : World) (env : Environment) (step : Option StepPath) (c : Call) :
    (w.answer env step c).2.clock = w.clock := by
  unfold answer
  split
  · rfl
  · next hc =>
    obtain ⟨answer, w', hstep, hclock⟩ := w.step_of_not_isOutside (Bool.not_eq_true _ ▸ hc)
    rw [hstep]
    exact hclock

/-- A deed that is answered at once. -/
def promptDeed (w : World) (env : Environment) (step : Option StepPath) (c : Call) : Deed :=
  ⟨step, c, (w.answer env step c).1, w.clock, w.clock⟩

theorem answers_promptDeed (w : World) (env : Environment) (step : Option StepPath) (c : Call) :
    w.Answers (w.promptDeed env step c) (w.answer env step c).2 := by
  unfold promptDeed answer
  split
  · next hc => exact .outside hc (Nat.le_refl _) rfl rfl rfl rfl
  · next hc =>
    have hc : c.isOutside = false := Bool.not_eq_true _ ▸ hc
    obtain ⟨answer, w', hstep, -⟩ := w.step_of_not_isOutside hc
    rw [hstep]
    exact .inside hc (Nat.le_refl _) hstep

end World

/-- An engine with its settings as they come. -/
def plainEngine : Engine :=
  { settings := {}, functions := ⟨fun _ _ => .ok .null, fun _ _ _ => .ok .null⟩ }

/-! ## Runs -/

/-- The world after deeds that are answered at once. -/
def World.follow (env : Environment) (w : World) (ds : List Deed) : World :=
  ds.foldl (fun w d => (w.answer env d.step d.call).2) w

/-- Deeds that are answered at once, one after the other. -/
def World.Prompts (env : Environment) : World → List Deed → Prop
  | _, [] => True
  | w, d :: ds =>
    d = w.promptDeed env d.step d.call ∧ Prompts env (w.answer env d.step d.call).2 ds

/-- What a fiber does, how it ends, and the world after it. -/
structure Prompt (ρ : Type) where
  deeds : List Deed
  outcome : ρ
  world : World

mutual
/-- Carries out a fiber in prompt surroundings. -/
def Fiber.promptly {ρ : Type} (env : Environment) : Fiber ρ → World → Prompt ρ
  | .done o, w => ⟨[], o, w⟩
  | .ask c next step, w =>
    let rest := (next (w.answer env step c).1).promptly env (w.answer env step c).2
    { rest with deeds := w.promptDeed env step c :: rest.deeds }
  | .fork branches next, w =>
    let inner := promptlyAll env branches w
    let rest := (next inner.outcome).promptly env inner.world
    { rest with deeds := inner.deeds ++ rest.deeds }

/-- Carries out fibers one after the other. -/
def Fiber.promptlyAll {ρ : Type} (env : Environment) : List (Fiber ρ) → World → Prompt (List ρ)
  | [], w => ⟨[], [], w⟩
  | p :: ps, w =>
    let first := p.promptly env w
    let others := promptlyAll env ps first.world
    ⟨first.deeds ++ others.deeds, first.outcome :: others.outcome, others.world⟩
end

namespace World.Prompts

variable {env : Environment} {w : World} {ds es : List Deed}

theorem append (h₁ : w.Prompts env ds) (h₂ : (w.follow env ds).Prompts env es) :
    w.Prompts env (ds ++ es) := by
  induction ds generalizing w with
  | nil => exact h₂
  | cons d ds ih => exact ⟨h₁.1, ih h₁.2 h₂⟩

theorem admits (h : w.Prompts env ds) : w.Admits ds (w.follow env ds) := by
  induction ds generalizing w with
  | nil => exact .nil
  | cons d ds ih =>
    refine .cons ?_ (ih h.2)
    have hd := w.answers_promptDeed env d.step d.call
    rwa [← h.1] at hd

/-- The deeds can be cut anywhere. -/
theorem admits_take (h : w.Prompts env ds) (k : Nat) :
    w.Admits (ds.take k) (w.follow env (ds.take k))
      ∧ (w.follow env (ds.take k)).Admits (ds.drop k) (w.follow env ds) := by
  induction ds generalizing w k with
  | nil => rw [List.take_nil, List.drop_nil]; exact ⟨.nil, .nil⟩
  | cons d ds ih =>
    cases k with
    | zero => exact ⟨.nil, h.admits⟩
    | succ k =>
      have hd := w.answers_promptDeed env d.step d.call
      rw [← h.1] at hd
      exact ⟨.cons hd (ih h.2 k).1, (ih h.2 k).2⟩

end World.Prompts

/-- **What `promptly` computes** is a run, and no time passes. -/
structure Prompt.Sound {ρ : Type} (env : Environment) (w : World) (o : Prompt ρ) : Prop where
  prompts : w.Prompts env o.deeds
  world : o.world = w.follow env o.deeds
  clock : o.world.clock = w.clock

theorem World.follow_append (env : Environment) (w : World) (ds es : List Deed) :
    w.follow env (ds ++ es) = (w.follow env ds).follow env es := List.foldl_append ..

theorem Prompt.Sound.append {ρ σ : Type} {env : Environment} {w : World} {first : Prompt σ}
    {second : Prompt ρ} {o : ρ} (h₁ : first.Sound env w) (h₂ : second.Sound env first.world) :
    Prompt.Sound env w ⟨first.deeds ++ second.deeds, o, second.world⟩ where
  prompts := h₁.prompts.append (h₁.world ▸ h₂.prompts)
  world := by rw [World.follow_append, ← h₁.world]; exact h₂.world
  clock := h₂.clock.trans h₁.clock

section

variable {ρ : Type} {pace : Clock → Clock → Prop} (env : Environment)

mutual
/-- **Every fiber has a run in every world.** -/
theorem Fiber.promptly_course (hpace : ∀ t, pace t t) : ∀ (p : Fiber ρ) (w : World),
    Fiber.Course pace w.clock p (p.promptly env w).deeds (some ((p.promptly env w).outcome, w.clock))
      ∧ (p.promptly env w).Sound env w
  | .done o, w => ⟨.done, trivial, rfl, rfl⟩
  | .ask c next step, w => by
    have hclock := w.clock_answer env step c
    obtain ⟨hcourse, hsound⟩ :=
      Fiber.promptly_course hpace (next (w.answer env step c).1) (w.answer env step c).2
    rw [hclock] at hcourse
    exact ⟨.ask (hpace _) (Nat.le_refl _) hcourse, ⟨rfl, hsound.prompts⟩, hsound.world,
      hsound.clock.trans hclock⟩
  | .fork branches next, w => by
    obtain ⟨hinner, hsound⟩ := Fiber.promptlyAll_course hpace branches w
    obtain ⟨hrest, hsound'⟩ := Fiber.promptly_course hpace
      (next (Fiber.promptlyAll env branches w).outcome) (Fiber.promptlyAll env branches w).world
    rw [hsound.clock] at hrest
    exact ⟨.fork hinner hrest, hsound.append hsound'⟩

theorem Fiber.promptlyAll_course (hpace : ∀ t, pace t t) : ∀ (ps : List (Fiber ρ)) (w : World),
    Fiber.Courses pace w.clock ps (Fiber.promptlyAll env ps w).deeds
        (some ((Fiber.promptlyAll env ps w).outcome, w.clock))
      ∧ (Fiber.promptlyAll env ps w).Sound env w
  | [], w => ⟨.nil, trivial, rfl, rfl⟩
  | p :: ps, w => by
    obtain ⟨hfirst, hsound⟩ := Fiber.promptly_course hpace p w
    obtain ⟨hothers, hsound'⟩ := Fiber.promptlyAll_course hpace ps (p.promptly env w).world
    rw [hsound.clock] at hothers
    have h := Fiber.Courses.cons hfirst hothers (Interleaved.append ..)
    simp only [joined, Nat.max_self] at h
    exact ⟨h, hsound.append hsound'⟩
end

end

/-- A prompt run. -/
theorem Fiber.runs_promptly {ρ : Type} {pace : Clock → Clock → Prop} (hpace : ∀ t, pace t t)
    (env : Environment) (p : Fiber ρ) (w : World) :
    w.Runs pace p (p.promptly env w).deeds (some ((p.promptly env w).outcome, w.clock))
      (p.promptly env w).world := by
  obtain ⟨hcourse, hsound⟩ := Fiber.promptly_course env hpace p w
  exact ⟨hcourse, hsound.world ▸ hsound.prompts.admits⟩

/-- A prompt run that is stopped after some deeds. -/
theorem Fiber.runs_promptly_take {ρ : Type} {pace : Clock → Clock → Prop} (hpace : ∀ t, pace t t)
    (env : Environment) (p : Fiber ρ) (w : World) (k : Nat) :
    w.Runs pace p ((p.promptly env w).deeds.take k) none
      (w.follow env ((p.promptly env w).deeds.take k)) := by
  obtain ⟨hcourse, hsound⟩ := Fiber.promptly_course env hpace p w
  exact ⟨hcourse.stop (List.take_append_drop k _).symm, (hsound.prompts.admits_take k).1⟩

end Runbook
