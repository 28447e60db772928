import Runbook.Proofs.Chains

/-!
# `Proofs.Onward` — from one step of the root list to the next

What an attempt has left to do is the root list from its cursor on, and then to say how the run ended.
At each position it first begins: it enters the position and saves. Then it carries out the step that
stands there and goes on to the next position, or fails with the step; and at the end of the list there is
nothing left but to say that the run is completed.

## Contents
- **What is left.** `Execution.onward`.
- **Positions.** `AfterEntry`, what is done at a position once it was entered, and `onward_course`.
- **Attempts.** `carryOutFrom_onward`.
-/

namespace Runbook

variable {pace : Clock → Clock → Prop} {x : Execution} {ds : List Deed} {t : Clock} {m : Nat}
  {keepJournal : Bool} {c : Context} {r : Option (Outcome × Clock)}

/-! ## What is left -/

/-- **What is left to do** from a position of the root list on. -/
def Execution.onward (x : Execution) (m : Nat) (keepJournal : Bool) (c : Context) : Fiber Outcome :=
  (x.walkRoot (numbered m (x.plan.steps.drop m)) keepJournal c).andThen fun o =>
    (x.conclude o).outcome.toFiber none .done

/-! ## Positions -/

/-- **At a position that was entered**: the step there is carried out, and stopped on the way; or it
    fails, and the run with it; or the run goes on to the next position; or the list is at its end. -/
inductive AfterEntry (pace : Clock → Clock → Prop) (x : Execution) (m : Nat) (c : Context) :
    Clock → List Deed → Option (Outcome × Clock) → Prop where
  | inside {s : Step} {t : Clock} {ds : List Deed} (hs : x.plan.steps[m]? = some s)
      (hwalk : Fiber.Course pace t (x.walk s (.root m s.kind) c) ds none) :
      AfterEntry pace x m c t ds none
  | failed {s : Step} {t u : Clock} {ds es : List Deed} {o : Outcome} {f : Fault}
      {r : Option (Outcome × Clock)} (hs : x.plan.steps[m]? = some s)
      (hwalk : Fiber.Course pace t (x.walk s (.root m s.kind) c) ds (some (o, u)))
      (hguarded : x.guarded s m c o = .error f)
      (hes : ∀ d ∈ es, d.step = none ∧ d.call = .updateRun x.runId (RunRecord.failedUpdate f))
      (hr : ∀ res ∈ r, res.1 = .error f) : AfterEntry pace x m c t (ds ++ es) r
  | on {s : Step} {t u : Clock} {ds es : List Deed} {o : Outcome} {fin : Finished}
      {r : Option (Outcome × Clock)} (hs : x.plan.steps[m]? = some s)
      (hwalk : Fiber.Course pace t (x.walk s (.root m s.kind) c) ds (some (o, u)))
      (hguarded : x.guarded s m c o = .ok fin)
      (hrest : Fiber.Course pace u (x.onward (m + 1) false fin.context) es r) :
      AfterEntry pace x m c t (ds ++ es) r
  | last {t : Clock} {ds : List Deed} {r : Option (Outcome × Clock)} (hm : m = x.plan.steps.length)
      (hds : ∀ d ∈ ds, d.step = none ∧ d.call = .updateRun x.runId (RunRecord.completedUpdate c))
      (hr : ∀ res ∈ r, res.1 = .ok ⟨c, c.previous⟩) : AfterEntry pace x m c t ds r

/-- What is done at a position: it is entered, and then the step there is carried out. The journal is kept
    at most where there is a step. -/
inductive OnwardCourse (pace : Clock → Clock → Prop) (x : Execution) (m : Nat) (keepJournal : Bool)
    (c : Context) (t : Clock) : List Deed → Option (Outcome × Clock) → Prop where
  | entering {ds : List Deed} {q : Option (Except Fault Unit × Clock)}
      (henter : Program.Course pace none t (x.enter m keepJournal c).outcome ds q) :
      OnwardCourse pace x m keepJournal c t ds none
  | entered {u : Clock} {ds es : List Deed} {r : Option (Outcome × Clock)}
      (henter : Program.Course pace none t (x.enter m keepJournal c).outcome ds (some (.ok (), u)))
      (hrest : AfterEntry pace x m c u es r) : OnwardCourse pace x m keepJournal c t (ds ++ es) r

theorem Program.andThen_toFiber {α ρ : Type} {step : Option StepPath} (p : Program α)
    (f : α → Fiber ρ) (g : ρ → Fiber ρ) :
    (p.toFiber step f).andThen g = p.toFiber step fun a => (f a).andThen g := by
  induction p with
  | done a => rfl
  | ask c next ih =>
    simp only [toFiber, Fiber.andThen]
    congr 1
    funext answer
    exact ih answer

/-- How a run ends that has failed. -/
theorem conclude_failed_course {f : Fault} {u : Clock} {es : List Deed}
    (h : Fiber.Course pace u ((x.conclude (.error f)).outcome.toFiber none .done) es r) :
    (∀ d ∈ es, d.step = none ∧ d.call = .updateRun x.runId (RunRecord.failedUpdate f))
      ∧ ∀ res ∈ r, res.1 = .error f := by
  cases ConclusionCourse.of_course h.of_toFiber_done with
  | untold => simp
  | failed hr => exact ⟨by simp, fun res hres => by rw [hr res hres]⟩

/-- How a run ends that has come to the end of its list. -/
theorem conclude_completed_course {fin : Finished} (hm : m = x.plan.steps.length)
    (h : Fiber.Course pace t ((x.conclude (.ok fin)).outcome.toFiber none .done) ds r) :
    OnwardCourse pace x m false fin.context t ds r := by
  subst hm
  cases ConclusionCourse.of_course h.of_toFiber_done with
  | entering henter => exact .entering henter
  | completed henter hr => exact .entered henter (.last rfl (by simp) fun res hres => by rw [hr res hres])

/-- At the end of the list there is no step, and no journal is kept. -/
theorem onward_end (hm : m = x.plan.steps.length) :
    x.onward m keepJournal c = (x.conclude (.ok ⟨c, c.previous⟩)).outcome.toFiber none .done := by
  have hdrop : x.plan.steps.drop m = [] := List.drop_eq_nil_of_le (by omega)
  unfold Execution.onward
  rw [hdrop]
  rfl

/-- **What is left to do is done position by position.** -/
theorem onward_course (hm : m ≤ x.plan.steps.length)
    (h : Fiber.Course pace t (x.onward m keepJournal c) ds r) :
    OnwardCourse pace x m (keepJournal && decide (m < x.plan.steps.length)) c t ds r := by
  rcases Nat.lt_or_eq_of_le hm with hlt | rfl
  · rw [decide_eq_true hlt, Bool.and_true]
    obtain ⟨s, hs⟩ : ∃ s, x.plan.steps[m]? = some s := ⟨_, List.getElem?_eq_getElem hlt⟩
    have hdrop : x.plan.steps.drop m = s :: x.plan.steps.drop (m + 1) := by
      rw [List.drop_eq_getElem_cons hlt]
      congr 1
      exact Option.some.inj ((List.getElem?_eq_getElem hlt).symm.trans hs)
    unfold Execution.onward at h
    rw [hdrop, numbered, Execution.walkRoot, Fiber.ofAction, Program.andThen_toFiber] at h
    cases h.of_toFiber with
    | first henter => exact .entering henter
    | @both o u _ _ _ henter hrest =>
      obtain rfl := enter_ended henter
      refine .entered henter ?_
      rw [Fiber.andThen_assoc] at hrest
      cases hrest.of_andThen with
      | first hwalk => exact .inside hs hwalk
      | @both o v _ _ _ hwalk hnext =>
        cases hguarded : x.guarded s m c o with
        | ok fin =>
          rw [hguarded] at hnext
          exact .on hs hwalk hguarded hnext
        | error f =>
          rw [hguarded] at hnext
          obtain ⟨hes, hr⟩ := conclude_failed_course hnext
          exact .failed hs hwalk hguarded hes hr
  · rw [decide_eq_false (Nat.lt_irrefl _), Bool.and_false]
    rw [onward_end rfl] at h
    exact conclude_completed_course rfl h

/-! ## Attempts -/

/-- An attempt that goes on from a position has that much left to do. -/
theorem carryOutFrom_onward {a : Attempt} (hm : a.cursor = m) :
    x.carryOutFrom a keepJournal = .ask (.beginAttempt a) fun _ => x.onward m keepJournal a.base :=
  carryOutFrom_eq hm keepJournal

end Runbook
