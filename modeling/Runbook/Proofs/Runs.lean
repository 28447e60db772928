import Runbook.Proofs.Calls

/-!
# `Proofs.Runs` — courses that a world goes along with

A world answers the calls about the state of the run by that state, as `World.step` says, and without
taking time. Calls that somebody else answers may get any answer, after any time; meanwhile nothing
changes but the clock and what belongs to the outside. A run is a course of a fiber that a world goes
along with. It may have been stopped at any moment.

## Contents
- **Answers.** `World.Answers`, what a world makes of a deed.
- **Runs.** `World.Admits` for deeds in order, with the ways to cut and join them; `World.Runs`.
- **Invariants.** `World.Admits.keeps`: what every deed keeps holds at the end; `World.Along`, what
  holds at every deed of a run.
- **The attempt.** `Attempt.after`, and what deeds do to the attempt and read from it.
-/

namespace Runbook

namespace World

/-! ## Answers -/

/-- **What a world makes of a deed.** -/
inductive Answers (w : World) : Deed → World → Prop where
  | inside {step : Option StepPath} {c : Call} {answer : c.Answer} {start : Clock} {w' : World}
      (hc : c.isOutside = false) (hstart : w.clock ≤ start)
      (hstep : World.step { w with clock := start } c = .now answer w') :
      Answers w ⟨step, c, answer, start, start⟩ w'
  | outside {step : Option StepPath} {c : Call} {answer : c.Answer} {start stop : Clock} {w' : World}
      (hc : c.isOutside = true) (hstart : w.clock ≤ start) (hclock : w'.clock = start)
      (hattempt : w'.attempt = w.attempt) (hstores : w'.stores = w.stores)
      (hids : w'.idsGiven = w.idsGiven) : Answers w ⟨step, c, answer, start, stop⟩ w'

/-- What is not asked of the outside is answered by a step of the world, at once. -/
theorem Answers.step_eq {w w' : World} {step : Option StepPath} {c : Call} {answer : c.Answer}
    {start stop : Clock} (h : w.Answers ⟨step, c, answer, start, stop⟩ w') (hc : c.isOutside = false) :
    w.clock ≤ start ∧ stop = start ∧ World.step { w with clock := start } c = .now answer w' := by
  cases h with
  | inside _ hstart hstep => exact ⟨hstart, rfl, hstep⟩
  | outside hout => rw [hc] at hout; exact absurd hout (by decide)

/-! ## Runs -/

/-- A world goes along with deeds in order. -/
inductive Admits : World → List Deed → World → Prop where
  | nil {w : World} : Admits w [] w
  | cons {w w₁ w' : World} {d : Deed} {ds : List Deed} (first : w.Answers d w₁)
      (rest : Admits w₁ ds w') : Admits w (d :: ds) w'

/-- **A run**: a course of a fiber that a world goes along with. -/
structure Runs {ρ : Type} (pace : Clock → Clock → Prop) (w : World) (p : Fiber ρ) (ds : List Deed)
    (r : Option (ρ × Clock)) (w' : World) : Prop where
  course : Fiber.Course pace w.clock p ds r
  admits : w.Admits ds w'

namespace Admits

variable {w w₁ w' : World} {ds es : List Deed}

theorem append (h₁ : w.Admits ds w₁) (h₂ : w₁.Admits es w') : w.Admits (ds ++ es) w' := by
  induction h₁ with
  | nil => exact h₂
  | cons first _ ih => exact .cons first (ih h₂)

theorem split (h : w.Admits (ds ++ es) w') : ∃ w₁, w.Admits ds w₁ ∧ w₁.Admits es w' := by
  induction ds generalizing w with
  | nil => exact ⟨w, .nil, h⟩
  | cons d ds ih =>
    cases h with
    | cons first rest =>
      obtain ⟨w₁, h₁, h₂⟩ := ih rest
      exact ⟨w₁, .cons first h₁, h₂⟩

theorem of_cons {d : Deed} (h : w.Admits (d :: ds) w') :
    ∃ w₁, w.Answers d w₁ ∧ w₁.Admits ds w' := by
  cases h with
  | cons first rest => exact ⟨_, first, rest⟩

theorem eq_of_nil (h : w.Admits [] w') : w' = w := by
  cases h with
  | nil => rfl

/-! ## Invariants -/

/-- What every deed keeps holds at the end. -/
theorem keeps {I : World → Prop} (h : w.Admits ds w')
    (hkeep : ∀ d ∈ ds, ∀ {u u'}, I u → u.Answers d u' → I u') (hw : I w) : I w' := by
  induction h with
  | nil => exact hw
  | cons first _ ih =>
    exact ih (fun d hd => hkeep d (.tail _ hd)) (hkeep _ List.mem_cons_self hw first)

end Admits

/-- **At every deed** that a world goes along with, wherever in the list it stands, a statement holds
    of the worlds before and after it. -/
def Along (P : World → Deed → World → Prop) (w : World) (ds : List Deed) : Prop :=
  ∀ pre d post u u', ds = pre ++ d :: post → w.Admits pre u → u.Answers d u' → P u d u'

namespace Along

variable {P : World → Deed → World → Prop} {w w' : World} {ds es : List Deed}

theorem nil : Along P w [] := fun _ _ _ _ _ h => by simp at h

/-- What every deed keeps, and what follows from it at every deed. -/
theorem of_keeps {I : World → Prop}
    (hkeep : ∀ d ∈ ds, ∀ {u u'}, I u → u.Answers d u' → I u' ∧ P u d u') (hw : I w) :
    Along P w ds := by
  rintro pre d post u u' rfl hpre hd
  refine (hkeep d (by simp) (hpre.keeps (fun e he u u' hu hu' => ?_) hw) hd).2
  exact (hkeep e (List.mem_append_left _ he) hu hu').1

theorem append (h₁ : Along P w ds) (h₂ : ∀ {w₁}, w.Admits ds w₁ → Along P w₁ es) :
    Along P w (ds ++ es) := by
  intro pre d post u u' h hpre hd
  rcases List.append_eq_append_iff.mp h with ⟨as, rfl, has⟩ | ⟨bs, hbs, hes⟩
  · obtain ⟨w₁, hw₁, hu⟩ := hpre.split
    exact h₂ hw₁ _ _ _ _ _ has hu hd
  · cases bs with
    | nil =>
      simp only [List.append_nil] at hbs
      subst hbs
      have hes' : es = [] ++ d :: post := by simpa using hes.symm
      exact h₂ hpre _ _ _ _ _ hes' .nil hd
    | cons b bs =>
      obtain ⟨rfl, -⟩ := List.cons.inj (hes.trans (List.cons_append ..))
      exact h₁ _ _ _ _ _ hbs hpre hd

theorem left (h : Along P w (ds ++ es)) : Along P w ds := by
  rintro pre d post u u' rfl hpre hd
  exact h pre d (post ++ es) u u' (by simp) hpre hd

theorem right (h : Along P w (ds ++ es)) {w₁ : World} (hds : w.Admits ds w₁) : Along P w₁ es := by
  rintro pre d post u u' rfl hpre hd
  exact h (ds ++ pre) d post u u' (by simp) (hds.append hpre) hd

theorem tail {d : Deed} (h : Along P w (d :: es)) {w₁ : World} (hd : w.Answers d w₁) :
    Along P w₁ es := by
  rintro pre e post u u' rfl hpre he
  exact h (d :: pre) e post u u' rfl (.cons hd hpre) he

theorem cons {d : Deed} (h₁ : ∀ {w₁}, w.Answers d w₁ → P w d w₁)
    (h₂ : ∀ {w₁}, w.Answers d w₁ → Along P w₁ es) : Along P w (d :: es) := by
  intro pre e post u u' hds hpre he
  cases pre with
  | nil =>
    obtain ⟨rfl, -⟩ := List.cons.inj hds
    rw [hpre.eq_of_nil] at he ⊢
    exact h₁ he
  | cons b pre =>
    obtain ⟨rfl, rfl⟩ := List.cons.inj hds
    obtain ⟨w₁, hd, hpre⟩ := hpre.of_cons
    exact h₂ hd pre e post u u' rfl hpre he

theorem weaken {Q : World → Deed → World → Prop} (h : Along P w ds)
    (hPQ : ∀ {u d u'}, u.Answers d u' → P u d u' → Q u d u') : Along Q w ds :=
  fun pre d post u u' hds hpre hd => hPQ hd (h pre d post u u' hds hpre hd)

/-- What holds along deeds that a world goes along with holds of each of them. -/
theorem of_mem {Q : Deed → Prop} (h : Along (fun _ d _ => Q d) w ds) (hadmits : w.Admits ds w')
    {d : Deed} (hd : d ∈ ds) : Q d := by
  obtain ⟨pre, post, rfl⟩ := List.append_of_mem hd
  obtain ⟨u, hpre, hrest⟩ := hadmits.split
  obtain ⟨u', hd, -⟩ := hrest.of_cons
  exact h pre d post u u' rfl hpre hd

/-- What no deed destroys holds at the end if it ever held. -/
theorem lasts {S : World → Prop} (h : Along (fun u _ u' => S u → S u') w ds) {pre post : List Deed}
    {u : World} (hds : ds = pre ++ post) (hpre : w.Admits pre u) (hpost : u.Admits post w')
    (hu : S u) : S w' := by
  induction post generalizing pre u with
  | nil => rw [hpost.eq_of_nil]; exact hu
  | cons d post ih =>
    obtain ⟨u₁, hd, hpost⟩ := hpost.of_cons
    exact ih (by rw [hds, List.append_assoc]; rfl) (hpre.append (.cons hd .nil)) hpost
      (h _ _ _ _ _ hds hpre hd hu)

end Along

/-- **Through deeds**: one statement holds at every deed, and another one at the end. -/
structure Through (P : World → Deed → World → Prop) (w : World) (ds : List Deed)
    (I : World → Prop) : Prop where
  along : Along P w ds
  ends : ∀ {w'}, w.Admits ds w' → I w'

namespace Through

variable {P : World → Deed → World → Prop} {I J : World → Prop} {w : World} {ds es : List Deed}

theorem nil (hw : I w) : Through P w [] I := ⟨.nil, fun h => h.eq_of_nil ▸ hw⟩

theorem of_keeps (hkeep : ∀ d ∈ ds, ∀ {u u'}, I u → u.Answers d u' → I u' ∧ P u d u') (hw : I w) :
    Through P w ds I :=
  ⟨.of_keeps hkeep hw, fun h => h.keeps (fun d hd _ _ hu hu' => (hkeep d hd hu hu').1) hw⟩

/-- The same, where what follows at each deed needs what is known along all of them. -/
theorem of_along {Q : World → Deed → World → Prop} (h : Along Q w ds)
    (hkeep : ∀ d ∈ ds, ∀ {u u'}, I u → u.Answers d u' → Q u d u' → I u' ∧ P u d u') (hw : I w) :
    Through P w ds I := by
  have hbefore {pre post : List Deed} (hds : ds = pre ++ post) {u : World} (hpre : w.Admits pre u) :
      I u := by
    have hkeeps : Along (fun u _ u' => I u → I u') w pre := by
      rintro as d bs v v' rfl has hd hv
      have hsplit : ds = as ++ d :: (bs ++ post) := by rw [hds, List.append_assoc]; rfl
      exact (hkeep d (by simp [hsplit]) hv hd (h _ _ _ _ _ hsplit has hd)).1
    exact hkeeps.lasts (List.nil_append pre).symm .nil hpre hw
  refine ⟨fun pre d post u u' hds hpre hd => ?_, fun h' => hbefore (List.append_nil ds).symm h'⟩
  exact (hkeep d (by simp [hds]) (hbefore hds hpre) hd (h _ _ _ _ _ hds hpre hd)).2

theorem append (h₁ : Through P w ds J) (h₂ : ∀ {w₁}, J w₁ → Through P w₁ es I) :
    Through P w (ds ++ es) I where
  along := h₁.along.append fun h => (h₂ (h₁.ends h)).along
  ends h := by
    obtain ⟨w₁, hw₁, hrest⟩ := h.split
    exact (h₂ (h₁.ends hw₁)).ends hrest

theorem cons {d : Deed} (h₁ : ∀ {w₁}, w.Answers d w₁ → J w₁ ∧ P w d w₁)
    (h₂ : ∀ {w₁}, J w₁ → Through P w₁ es I) : Through P w (d :: es) I := by
  refine ⟨.cons (fun hd => (h₁ hd).2) fun hd => (h₂ (h₁ hd).1).along, fun h => ?_⟩
  obtain ⟨w₁, hd, hrest⟩ := h.of_cons
  exact (h₂ (h₁ hd).1).ends hrest

theorem weaken (h : Through P w ds I) (hIJ : ∀ {w}, I w → J w) : Through P w ds J :=
  ⟨h.along, fun h' => hIJ (h.ends h')⟩

end Through

namespace Answers

variable {w w' : World} {d : Deed}

theorem clock_le (h : w.Answers d w') : w.clock ≤ d.start := by
  cases h <;> assumption

end Answers

end World

/-! ## The attempt -/

/-- The attempt after a call. -/
def Attempt.after (a : Attempt) : Call → Attempt
  | .beginAttempt b => b
  | .enterStep cursor base keepJournal => a.enter cursor base keepJournal
  | .journal path entry => a.withEntry path (.object entry)
  | .amend path fields => (a.withNote path fields).toOption.getD a
  | _ => a

namespace World

@[simp] theorem record_attempt (w : World) (e : Event) : (w.record e).attempt = w.attempt := rfl

@[simp] theorem useStores_attempt (w : World) (op : StoreOp) :
    (w.useStores op).2.attempt = w.attempt := rfl

@[simp] theorem writeRun_attempt (w : World) (id : String) (updates : Keyed Value) :
    (w.writeRun id updates).attempt = w.attempt := rfl

@[simp] theorem saveCheckpoint_attempt (w : World) (id : String) :
    (w.saveCheckpoint id).attempt = w.attempt := by
  unfold saveCheckpoint
  split <;> rfl

theorem amend_attempt (w : World) (path : String) (fields : Keyed Value) :
    (w.amend path fields).2.attempt = (w.attempt.withNote path fields).toOption.getD w.attempt := by
  unfold amend
  split <;> simp_all [Except.toOption]

theorem Answers.attempt_eq {w w' : World} {d : Deed} (h : w.Answers d w') :
    w'.attempt = w.attempt.after d.call := by
  cases h with
  | outside hc _ _ hattempt => rw [hattempt]; cases ‹Call› <;> first | rfl | simp [Call.isOutside] at hc
  | @inside step c answer start w' hc hstart hstep =>
    cases c <;> simp only [Call.isOutside, Bool.true_eq_false] at hc <;>
      simp only [World.step, Progress.now.injEq] at hstep <;> obtain ⟨-, rfl⟩ := hstep <;>
      first | rfl | simp [Attempt.after, amend_attempt]

/-- The journal answers for a path what it holds under its text. -/
theorem Answers.recall_eq {w w' : World} {step : Option StepPath} {path : String}
    {found : Option Value} {start stop : Clock}
    (h : w.Answers ⟨step, .recall path, found, start, stop⟩ w') :
    found = w.attempt.journal.get? path :=
  (Progress.now.inj (h.step_eq rfl).2.2).1.symm

end World

end Runbook
