import Runbook.Proofs.Checkpoints
import Runbook.Proofs.Prompt
import Runbook.Proofs.RunCourse

/-!
# `Proofs.Chains` — one run, attempted again and again

A run is attempted once by `run` and then any number of times by `resume`, each time by a new process
over the same run records; every attempt ends, or is stopped at any moment. Once a checkpoint in the
record says that a leaf has ended, no later attempt does anything for it outside the run:
`finished_leaf_rests`.

The journal at hand belongs to the step at the cursor, and it is emptied only when the cursor passes
that step. So a leaf that has ended stays ended while the attempt goes along the root list.

## Contents
- **Deeds.** `Rests`, what is shown of every deed.
- **The root list.** `AtStep`, `Ready`, and `walkRoot_through`.
- **Attempts.** `run_through` and `resume_through`; and `World.Answers.foundRun_eq`, what an attempt finds of a run.
- **Chains.** `Trial`, `Chain`, and `finished_leaf_rests`.
-/

namespace Runbook

/-! ## Deeds -/

theorem StatusUpdates.sparesCheckpoint {updates : Keyed Value} (h : StatusUpdates updates) :
    RunRecord.SparesCheckpoint updates := by
  obtain ⟨s, -, rfl | ⟨token, rfl⟩⟩ := h <;> intro v hv <;> simp at hv

theorem Execution.TreeCall.orderly {x : Execution} {q : StepPath} {c : Call} (h : TreeCall x q c) :
    c.Orderly := by
  cases h with
  | journal => exact .other rfl
  | report => exact .other rfl
  | serves hserves =>
    cases hserves with
    | outside hc => exact .other (Call.writesRun_of_isOutside hc)
    | save => exact .save _
    | status hupdates => exact .update _ hupdates.sparesCheckpoint
    | _ => exact .other rfl

/-- What is shown of every deed: what is known to have ended stays known, and a leaf that was known to
    have ended from the start is replayed when it asks the journal. -/
def Rests (id : String) (p : StepPath) (known : Prop) (u : World) (d : Deed) (u' : World) : Prop :=
  (u.Settled id p → u'.Settled id p)
    ∧ ∀ found start stop, d = ⟨some p, .recall p.text, found, start, stop⟩ →
        JournalEntry.replay? found = none → ¬ known

/-- The attempt is at a step of the root list. -/
def AtStep (n : Nat) (id : String) (p : StepPath) (known : Prop) (k : Int) (w : World) : Prop :=
  w.Coupled n id p known ∧ w.attempt.cursor = k

section

variable {n : Nat} {id : String} {p : StepPath} {known : Prop} {k : Int} {w w' : World}
variable {pace : Clock → Clock → Prop} {x : Execution} {ds : List Deed} {d : Deed}

/-- A deed that leaves the attempt alone. -/
theorem AtStep.quiet (hw : AtStep n id p known k w) (h : w.Answers d w') (hd : d.call.Orderly)
    (hattempt : w'.attempt = w.attempt) (hstep : d.step = none) :
    AtStep n id p known k w' ∧ Rests id p known w d w' := by
  have hboth := hw.1.step h hd (hattempt ▸ hw.1.sound) fun hf => hattempt ▸ hf
  refine ⟨⟨hboth.1, hattempt ▸ hw.2⟩, hboth.2, fun found start stop hrecall => ?_⟩
  rw [hrecall] at hstep
  exact absurd hstep (by simp)

/-- A deed for a step inside the step of the root list at which the attempt is. -/
theorem AtStep.tree (hw : AtStep n id p known k w) (hk : k < n) (h : w.Answers d w') {kind : String}
    (hd : x.PartOf pace (.root k kind) ds d) :
    AtStep n id p known k w' ∧ Rests id p known w d w' := by
  obtain ⟨q, hq, hproper, hstep, hcall⟩ := hd.treeCall
  have hroot : q.rootIndex? = some k := by
    rw [StepPath.rootIndex?_of_prefix hq (by simp [StepPath.root]), StepPath.rootIndex?_root]
  have hafter := h.attempt_eq
  obtain ⟨-, hcursor, -⟩ := hcall.after_fields w.attempt
  have hsound : Sound n w'.attempt.cursor w'.attempt.journal := by
    rw [hafter, hcursor]
    refine ⟨hw.1.sound.nonneg, hw.1.sound.le, fun q' hq' hhas => ?_, fun _ => hw.2 ▸ hk⟩
    rcases hcall.has_after w.attempt hhas with hold | htext
    · exact hw.1.sound.keys q' hq' hold
    · rw [StepPath.text_injective hq' hproper htext, hroot, hw.2]
  have hforget : FinishedAt p w.attempt.cursor w.attempt.journal →
      FinishedAt p w'.attempt.cursor w'.attempt.journal := by
    rw [hafter, hcursor]
    exact fun hf => hf.imp_right (hcall.ended_after w.attempt)
  have hboth := hw.1.step h hcall.orderly hsound hforget
  refine ⟨⟨hboth.1, by rw [hafter, hcursor, hw.2]⟩, hboth.2, ?_⟩
  rintro found start stop rfl hfound hknown
  obtain rfl : p = q := Option.some.inj hstep
  rcases hw.1.known hknown with ⟨i, hi, hlt⟩ | hended
  · rw [hroot] at hi
    obtain rfl := Option.some.inj hi
    rw [hw.2] at hlt
    omega
  · rw [← h.recall_eq] at hended
    exact hended.replay?_ne_none hfound

/-- The attempt can go on to a step of the root list. -/
def Ready (n : Nat) (id : String) (p : StepPath) (known : Prop) (keepJournal : Bool) (k : Int)
    (w : World) : Prop :=
  w.Coupled n id p known
    ∧ if keepJournal then w.attempt.cursor = k
      else w.attempt.cursor < k ∨ w.attempt.cursor ≤ k ∧ w.attempt.journal = []

theorem AtStep.ready (hw : AtStep n id p known k w) {k' : Int} (hk : k < k') :
    Ready n id p known false k' w := by
  refine ⟨hw.1, ?_⟩
  have := hw.2
  simp only [Bool.false_eq_true, ↓reduceIte]
  omega

/-- Beginning a step of the root list forgets the journal only when the cursor passes its step. -/
theorem Ready.enter {keepJournal : Bool} {c : Context} (hp : p.Proper)
    (hw : Ready n id p known keepJournal k w) (hk : k ≤ n) (h : w.Answers d w')
    (hcall : d.call = .enterStep k c keepJournal) (hstep : d.step = none) :
    AtStep n id p known k w' ∧ Rests id p known w d w' := by
  have hafter : w'.attempt = w.attempt.enter k c keepJournal := by rw [h.attempt_eq, hcall]; rfl
  have hsound := hw.1.sound
  have hboth : Sound n w'.attempt.cursor w'.attempt.journal
      ∧ (FinishedAt p w.attempt.cursor w.attempt.journal →
        FinishedAt p w'.attempt.cursor w'.attempt.journal) := by
    have hready := hw.2
    rw [hafter]
    cases keepJournal with
    | true =>
      simp only [↓reduceIte] at hready
      subst hready
      exact ⟨hsound, fun hf => hf⟩
    | false =>
      simp only [Bool.false_eq_true, ↓reduceIte] at hready
      have hnonneg := hsound.nonneg
      refine ⟨⟨by simp only [Attempt.enter]; omega, hk, fun q _ hhas => ?_, fun hne => ?_⟩, ?_⟩
      · simp [Attempt.enter, Keyed.has, Keyed.get?] at hhas
      · simp [Attempt.enter] at hne
      · rintro (⟨i, hi, hlt⟩ | hended)
        · exact .inl ⟨i, hi, by simp only [Attempt.enter]; omega⟩
        · obtain ⟨fields, hsome, -⟩ := hended
          -- the journal is forgotten only when the cursor passes its step, or when there was none
          rcases hready with hlt | ⟨-, hnil⟩
          · have hhas : w.attempt.journal.has p.text = true := by rw [Keyed.has, hsome]; rfl
            exact .inl ⟨_, hsound.keys p hp hhas, hlt⟩
          · rw [hnil] at hsome
            simp [Keyed.get?] at hsome
  have hkeep := hw.1.step h (hcall ▸ .other rfl) hboth.1 hboth.2
  refine ⟨⟨hkeep.1, by rw [hafter]; rfl⟩, hkeep.2, fun found start stop hrecall => ?_⟩
  rw [hrecall] at hstep
  exact absurd hstep (by simp)

/-! ### The root list -/

/-- The beginning of a step of the root list, with everything it writes. -/
theorem Ready.enter_through {keepJournal : Bool} {c : Context} {t : Clock}
    {r : Option (Except Fault Unit × Clock)} (hp : p.Proper)
    (hw : Ready n id p known keepJournal k w) (hk : k ≤ n)
    (h : Program.Course pace none t (x.enter k keepJournal c).outcome ds r) :
    w.Through (Rests id p known) ds fun w' =>
      w'.WellStored n id ∧ (r ≠ none → AtStep n id p known k w') := by
  rcases enter_course h with ⟨rfl, rfl⟩ | ⟨d, es, rfl, hstep, hcall, hes⟩
  · exact .nil ⟨hw.1.stored, fun h => absurd rfl h⟩
  · refine World.Through.cons (J := AtStep n id p known k) (fun hd => hw.enter hp hk hd hcall hstep)
      fun hw₁ => ?_
    refine (World.Through.of_keeps (fun e he u u' hu hu' => ?_) hw₁).weaken
      fun hw' => ⟨hw'.1.stored, fun _ => hw'⟩
    obtain ⟨hnone, hsave, -⟩ := hes e he
    exact hu.quiet hu' (hsave ▸ .save _) (by rw [hu'.attempt_eq, hsave]; rfl) hnone

/-- Where an attempt stands when the root list has ended: it can go on to the end of the list, unless
    a step has failed. -/
def AtEnd (n : Nat) (id : String) (p : StepPath) (known : Prop) (r : Option (Outcome × Clock))
    (w : World) : Prop :=
  w.WellStored n id ∧ ∀ res ∈ r, match res.1 with
    | .ok _ => Ready n id p known false n w
    | .error _ => ∃ k, AtStep n id p known k w

theorem AtEnd.of_atStep (hw : AtStep n id p known k w) {r : Option (Outcome × Clock)} {f : Fault}
    (hr : ∀ res ∈ r, res.1 = .error f) : AtEnd n id p known r w :=
  ⟨hw.1.stored, fun res hres => by rw [hr res hres]; exact ⟨k, hw⟩⟩

/-- **The run lemma** for the root list. -/
theorem walkRoot_through (hp : p.Proper) {steps : List Step} :
    ∀ {i : Nat} {keepJournal : Bool} {c : Context} {t : Clock} {ds : List Deed}
      {r : Option (Outcome × Clock)} {w : World}, i + steps.length = n →
      Ready n id p known keepJournal i w →
      Fiber.Course pace t (x.walkRoot (numbered i steps) keepJournal c) ds r →
      w.Through (Rests id p known) ds (AtEnd n id p known r) := by
  induction steps with
  | nil =>
    intro i keepJournal c t ds r w hlen hw h
    obtain ⟨rfl, hr⟩ := h.of_done
    refine .nil ⟨hw.1.stored, fun res hres => ?_⟩
    rw [hr res hres]
    refine ⟨hw.1, ?_⟩
    have hk : (i : Int) = n := by simp at hlen; omega
    have hready := hw.2
    cases keepJournal with
    | true =>
      simp only [↓reduceIte] at hready
      refine .inr ⟨by omega, ?_⟩
      -- past the last step there is nothing that an entry could belong to
      by_contra hne
      have := hw.1.sound.inside hne
      omega
    | false => exact hk ▸ hready
  | cons s rest ih =>
    intro i keepJournal c t ds r w hlen hw h
    have hlen' : i + 1 + rest.length = n := by simp at hlen; omega
    have hk : (i : Int) < n := by omega
    cases walkRoot_course h with
    | first henter =>
      exact (hw.enter_through hp (by omega) henter).weaken fun hw' => ⟨hw'.1, by simp⟩
    | both henter hbody =>
      refine (hw.enter_through hp (by omega) henter).append fun {w₁} hw₁ => ?_
      have hat := hw₁.2 (by simp)
      have htree {t ds r w} (hw : AtStep n id p known i w)
          (h : Fiber.Course pace t (x.walk s (.root i s.kind) c) ds r) :
          w.Through (Rests id p known) ds fun w' => AtStep n id p known i w' :=
        .of_keeps (fun d hd u u' hu hu' => hu.tree hk hu'
          (x.walk_parts s (StepPath.proper_root i s) rfl h d hd)) hw
      cases hbody with
      | stopped hwalk => exact (htree hat hwalk).weaken fun hw' => ⟨hw'.1.stored, by simp⟩
      | failed hwalk _ hr =>
        exact (htree hat hwalk).weaken fun hw' => .of_atStep hw' fun res hres => by rw [hr res hres]
      | goesOn hwalk _ hnext =>
        exact (htree hat hwalk).append fun {w₂} hw₂ => ih hlen' (hw₂.ready (by omega)) hnext

/-- A write of the run record that has nothing to do with checkpoints. -/
theorem AtStep.update (hw : AtStep n id p known k w) {other : String} {updates : Keyed Value}
    (hspares : RunRecord.SparesCheckpoint updates) (h : w.Answers d w') (hstep : d.step = none)
    (hcall : d.call = .updateRun other updates) :
    AtStep n id p known k w' ∧ Rests id p known w d w' :=
  hw.quiet h (hcall ▸ .update _ hspares) (by rw [h.attempt_eq, hcall]; rfl) hstep

/-- The end of a run. -/
theorem conclude_through (hp : p.Proper) (hn : x.plan.steps.length = n) {o : Outcome} {t u : Clock}
    {r : Option (Except Fault Finished × Clock)} (hw : AtEnd n id p known (some (o, u)) w)
    (h : Program.Course pace none t (x.conclude o).outcome ds r) :
    w.Through (Rests id p known) ds (World.WellStored n id) := by
  have hend := hw.2 (o, u) rfl
  have htold {k w d} {updates : Keyed Value} (hspares : RunRecord.SparesCheckpoint updates)
      (hstep : d.step = none) (hcall : d.call = .updateRun x.runId updates) (hw : AtStep n id p known k w) :
      w.Through (Rests id p known) [d] (World.WellStored n id) :=
    World.Through.cons (J := World.WellStored n id)
      (fun hd => (hw.update hspares hd hstep hcall).imp_left fun hw' => hw'.1.stored) .nil
  cases ConclusionCourse.of_course h with
  | untold => exact .nil hw.1
  | failed =>
    obtain ⟨k, hat⟩ := hend
    exact htold (RunRecord.spares_failed _) rfl rfl hat
  | entering henter =>
    rw [hn] at henter
    exact (Ready.enter_through hp hend (Int.le_refl _) henter).weaken fun hw' => hw'.1
  | completed henter =>
    rw [hn] at henter
    refine (Ready.enter_through hp hend (Int.le_refl _) henter).append fun hw₁ => ?_
    exact htold (RunRecord.spares_completed _) rfl rfl (hw₁.2 (by simp))

/-! ### Attempts -/

/-- The beginning of an attempt, with what the record says. -/
theorem beginAttempt_ready {a : Attempt} {m : Nat} {keepJournal : Bool} {answer : Unit}
    {start stop : Clock} {w₁ : World} (hm : a.cursor = m) (hkeep : keepJournal = false → a.journal = [])
    (hstored : w.WellStored n id) (hsound : Sound n a.cursor a.journal)
    (hlink : w.StoredFinished id p → FinishedAt p a.cursor a.journal)
    (hknown : known → FinishedAt p a.cursor a.journal)
    (hd : w.Answers ⟨none, .beginAttempt a, answer, start, stop⟩ w₁) :
    Ready n id p known keepJournal m w₁
      ∧ Rests id p known w ⟨none, .beginAttempt a, answer, start, stop⟩ w₁ := by
  have hattempt : w₁.attempt = a := hd.attempt_eq
  have horderly : Call.Orderly (.beginAttempt a) := .other rfl
  have hsaves : ¬ ∃ other, Call.beginAttempt a = .saveCheckpoint other := by simp
  refine ⟨⟨⟨?_, hattempt ▸ hsound, fun hs => ?_, hattempt ▸ hknown⟩, ?_⟩, ?_, ?_⟩
  · exact hd.wellStored horderly hstored fun hsave => absurd hsave hsaves
  · rcases hd.storedFinished horderly hstored hs with hold | ⟨hsave, -⟩
    · exact hattempt ▸ hlink hold
    · exact absurd hsave hsaves
  · rw [hattempt]
    cases keepJournal with
    | true => exact hm
    | false => exact .inr ⟨by omega, hkeep rfl⟩
  · exact fun hs => hd.settled horderly hs fun hsave => absurd hsave hsaves
  · intro _ _ _ hrecall
    simp at hrecall

/-- **An attempt**: it is sound, and knows at least what the record says. -/
theorem carryOutFrom_through (hp : p.Proper) (hn : x.plan.steps.length = n) {a : Attempt}
    {keepJournal : Bool} (hkeep : keepJournal = false → a.journal = []) {t : Clock}
    {r : Option (Outcome × Clock)} (hstored : w.WellStored n id)
    (hsound : Sound n a.cursor a.journal)
    (hlink : w.StoredFinished id p → FinishedAt p a.cursor a.journal)
    (hknown : known → FinishedAt p a.cursor a.journal)
    (h : Fiber.Course pace t (x.carryOutFrom a keepJournal) ds r) :
    w.Through (Rests id p known) ds (World.WellStored n id) := by
  obtain ⟨m, hm⟩ := Int.eq_ofNat_of_zero_le hsound.nonneg
  have hlen : m + (x.plan.steps.drop m).length = n := by
    have := hsound.le
    simp only [List.length_drop]
    omega
  have hbegin {answer start stop w₁} (hd : w.Answers ⟨none, .beginAttempt a, answer, start, stop⟩ w₁) :=
    beginAttempt_ready hm hkeep hstored hsound hlink hknown hd
  cases AttemptCourse.of_course hm h with
  | unbegun => exact .nil hstored
  | walking hwalk =>
    exact .cons hbegin fun hw₁ => (walkRoot_through hp hlen hw₁ hwalk).weaken fun hw' => hw'.1
  | concluding hwalk hend =>
    exact .cons hbegin fun hw₁ => (walkRoot_through hp hlen hw₁ hwalk).append
      fun hw₂ => conclude_through hp hn hw₂ hend

/-- What is done before an attempt begins: nothing for a step, and no checkpoint is saved. -/
structure Preliminary (d : Deed) : Prop where
  step : d.step = none
  orderly : d.call.Orderly
  saves : ¬ ∃ other, d.call = .saveCheckpoint other

theorem preliminary_through (hds : ∀ d ∈ ds, Preliminary d) (hstored : w.WellStored n id) :
    w.Through (Rests id p known) ds fun w' =>
      w'.WellStored n id ∧ (w'.StoredFinished id p → w.StoredFinished id p) := by
  refine .of_keeps (fun d hd u u' hu hu' => ?_) ⟨hstored, fun h => h⟩
  have hpre := hds d hd
  refine ⟨⟨hu'.wellStored hpre.orderly hu.1 fun h => absurd h hpre.saves, fun hs => ?_⟩,
    fun hs => hu'.settled hpre.orderly hs fun h => absurd h hpre.saves, ?_⟩
  · exact (hu'.storedFinished hpre.orderly hu.1 hs).elim hu.2 fun h => absurd h.1 hpre.saves
  · rintro found start stop rfl
    exact absurd hpre.step (by simp)

theorem Preliminary.of_course {α : Type} {p : Program α} {t : Clock} {r : Option (α × Clock)}
    (h : Program.Course pace none t p ds r)
    (hp : p.Makes fun c => c.Orderly ∧ ¬ ∃ other, c = .saveCheckpoint other) :
    ∀ d ∈ ds, Preliminary d := fun d hd =>
  have hd := h.makes hp d hd
  ⟨hd.1, hd.2.1, hd.2.2⟩

theorem Preliminary.of_writeRun {updates : Keyed Value} (hspares : RunRecord.SparesCheckpoint updates)
    {t : Clock} {r : Option (Except Fault Unit × Clock)}
    (h : Program.Course pace none t (x.writeRun updates).outcome ds r) : ∀ d ∈ ds, Preliminary d :=
  .of_course h ⟨⟨.update _ hspares, by simp⟩, fun _ => trivial⟩

/-- **A run from the beginning**, when no checkpoint says that the leaf has ended. -/
theorem run_through (hp : p.Proper) {e : Engine} {source : PlanSource} {plan : Plan}
    {given executionId : Option String} {t : Clock} {r : Option (Outcome × Clock)}
    (haccept : source.accept = .ok plan) (hn : plan.steps.length = n)
    (hstored : w.WellStored n id) (hfresh : ¬ w.StoredFinished id p)
    (h : Fiber.Course pace t (e.run source given executionId) ds r) :
    w.Through (Rests id p False) ds (World.WellStored n id) := by
  have hid {ds r} (h : Program.Course pace none t (Engine.newRunId given).outcome ds r) :
      ∀ d ∈ ds, Preliminary d := .of_course h (newRunId_makes given ⟨.other rfl, by simp⟩)
  have hspares := RunRecord.spares_announced plan executionId
  cases RunCourse.of_course haccept h with
  | naming hfirst => exact (preliminary_through (hid hfirst) hstored).weaken And.left
  | announcing hfirst hwrite =>
    refine (preliminary_through (hid hfirst) hstored).append fun {w₁} hw₁ => ?_
    exact (preliminary_through (.of_writeRun hspares hwrite) hw₁.1).weaken And.left
  | attempting hfirst hwrite hattempt =>
    refine (preliminary_through (hid hfirst) hstored).append fun {w₁} hw₁ => ?_
    refine (preliminary_through (.of_writeRun hspares hwrite) hw₁.1).append fun {w₂} hw₂ => ?_
    refine carryOutFrom_through hp hn (fun _ => rfl) hw₂.1 ?_ (fun hs => ?_) False.elim hattempt
    · exact ⟨Int.le_refl 0, Int.natCast_nonneg n, fun q _ hhas => by simp [Keyed.has, Keyed.get?] at hhas,
        fun hne => absurd rfl hne⟩
    · exact absurd (hw₁.2 (hw₂.2 hs)) hfresh

theorem Stores.perform_getRun (s : Stores) (now : Stamp) (id : String) :
    (s.perform now (.getRun id)).1
      = if s.isOpen then .run <$> s.runs.get id else .error (.store (.closed s.path)) := by
  unfold perform
  split <;> rfl

/-- A store that is open answers with the record that it keeps. -/
theorem World.Answers.foundRun_eq {step : Option StepPath} {answer : Except Fault StoreAnswer}
    {start stop : Clock} (h : w.Answers ⟨step, .store (.getRun id), answer, start, stop⟩ w')
    (hopen : w.stores.isOpen = true) : foundRun answer = w.recordOf id := by
  obtain ⟨-, -, hstep⟩ := h.step_eq rfl
  simp only [World.step, Progress.now.injEq] at hstep
  rw [← hstep.1, World.useStores, Stores.perform_getRun]
  simp only [hopen, ↓reduceIte]
  rw [World.recordOf]
  cases w.stores.runs.get id <;> rfl

/-- A run record is answered as it is kept. -/
theorem World.Answers.recordOf_of_found {step : Option StepPath} {answer : Except Fault StoreAnswer}
    {start stop : Clock} {record : RunRecord}
    (h : w.Answers ⟨step, .store (.getRun id), answer, start, stop⟩ w')
    (hfound : foundRun answer = .ok (some record)) : w.recordOf id = .ok (some record) := by
  by_cases hopen : w.stores.isOpen = true
  · rw [← h.foundRun_eq hopen, hfound]
  · obtain ⟨-, -, hstep⟩ := h.step_eq rfl
    simp only [World.step, Progress.now.injEq] at hstep
    rw [← hstep.1, World.useStores, Stores.perform_getRun, if_neg hopen] at hfound
    exact absurd hfound (by simp [foundRun])

/-- What a well stored record tells an attempt: nothing, or where to go on. -/
theorem World.WellStored.read (hw : w.WellStored n id) {record : RunRecord}
    {checkpoint : StoredCheckpoint} (hrecord : w.recordOf id = .ok (some record))
    (hcheckpoint : StoredCheckpoint.ofMetadata record.metadata = .ok checkpoint) :
    (w.checkpointOf id = none ∧ checkpoint.context? = none)
      ∨ ∃ k j, Sound n k j ∧ checkpoint.cursor = .ok k ∧ checkpoint.journal = .ok j
        ∧ checkpoint.context? ≠ none
        ∧ ∀ p, w.StoredFinished id p → FinishedAt p k j := by
  cases hdata : record.metadata.get? StoredCheckpoint.key with
  | none =>
    refine .inl ⟨by rw [checkpointOf, hrecord]; exact hdata, ?_⟩
    simp only [StoredCheckpoint.ofMetadata, hdata, Option.getD_none, Value.truthy,
      Bool.false_eq_true, ↓reduceIte, Except.ok.injEq] at hcheckpoint
    rw [← hcheckpoint]
    rfl
  | some data =>
    have hat : w.checkpointOf id = some data := checkpointOf_eq_some.mpr ⟨record, hrecord, hdata⟩
    obtain ⟨k, j, hsnapshot, hsound⟩ := hw data hat
    obtain ⟨checkpoint', context, hread, hcontext, hk, hj⟩ := hsnapshot.read hdata
    rw [hread] at hcheckpoint
    obtain rfl := Except.ok.inj hcheckpoint
    refine .inr ⟨k, j, hsound, hk, hj, by simp [hcontext], ?_⟩
    rintro p ⟨data', k', j', hat', hsnapshot', hfinished⟩
    obtain rfl := Option.some.inj (hat.symm.trans hat')
    obtain ⟨rfl, rfl⟩ := hsnapshot.eq hsnapshot'
    exact hfinished

theorem StoredCheckpoint.toAttempt_eq_ok {checkpoint : StoredCheckpoint} {context : Context}
    {a : Attempt} (h : checkpoint.toAttempt id context = .ok a) :
    checkpoint.cursor = .ok a.cursor ∧ checkpoint.journal = .ok a.journal := by
  unfold StoredCheckpoint.toAttempt at h
  obtain ⟨k, hk, h⟩ := Fault.bind_eq_ok.mp h
  obtain ⟨j, hj, h⟩ := Fault.bind_eq_ok.mp h
  rw [← Except.ok.inj h]
  exact ⟨hk, hj⟩

theorem completedBefore_preliminary {plan : Plan} {record : RunRecord}
    {checkpoint : StoredCheckpoint} {t : Clock} {r : Option (Except Fault Finished × Clock)}
    (h : Program.Course pace none t (Engine.completedBefore plan record checkpoint).outcome ds r) :
    ∀ d ∈ ds, Preliminary d := by
  refine .of_course h ?_
  have hlast (context : Context) : Action.Makes
      (fun c => c.Orderly ∧ ¬ ∃ other, c = .saveCheckpoint other)
      (do Action.call (.beginAttempt ⟨record.runId, plan.steps.length, context, []⟩)
          return (⟨context, record.result⟩ : Finished)) :=
    Action.makes_bind (Action.makes_call ⟨.other rfl, by simp⟩) fun _ => Action.makes_pure _
  unfold Engine.completedBefore
  cases checkpoint.context? with
  | some snapshot => exact Action.makes_bind (Action.makes_ofExcept _) hlast
  | none => exact Action.makes_pure_bind (hlast _)

/-- **A run that is continued** with the record that was found of it. -/
theorem resumeRecord_through (hp : p.Proper) {e : Engine} {plan : Plan} {record : RunRecord}
    {t : Clock} {r : Option (Outcome × Clock)} (hn : plan.steps.length = n)
    (hstored : w.WellStored n id) (hrecord : w.recordOf id = .ok (some record))
    (hknown : known → w.StoredFinished id p)
    (h : Fiber.Course pace t (e.resumeRecord plan record id) ds r) :
    w.Through (Rests id p known) ds (World.WellStored n id) := by
  cases RecordCourse.of_course h with
  | unreadable | refused | unrestored => exact .nil hstored
  | completed _ _ hreturns =>
    exact (preliminary_through (completedBefore_preliminary hreturns) hstored).weaken And.left
  | afresh hcheckpoint _ hnone haccept hrun =>
    -- nothing was saved, so nothing is known of the step
    rcases hstored.read hrecord hcheckpoint with ⟨hunsaved, -⟩ | ⟨k, j, -, -, -, hcontext, -⟩
    · have hfresh : ¬ w.StoredFinished id p := fun ⟨_, _, _, hdata, _⟩ => by simp [hunsaved] at hdata
      obtain rfl : known = False := eq_false fun h => hfresh (hknown h)
      exact run_through hp haccept hn hstored hfresh hrun
    · exact absurd hnone hcontext
  | continued hcheckpoint _ hsnapshot ha hcourse =>
    rcases hstored.read hrecord hcheckpoint with ⟨-, hnone⟩ | ⟨k, j, hsound, hk, hj, -, hfinished⟩
    · exact absurd (hsnapshot.symm.trans hnone) (by simp)
    obtain ⟨context, -, ha⟩ := Fault.bind_eq_ok.mp ha
    obtain ⟨hk', hj'⟩ := StoredCheckpoint.toAttempt_eq_ok ha
    obtain rfl := Except.ok.inj (hk.symm.trans hk')
    obtain rfl := Except.ok.inj (hj.symm.trans hj')
    have hspares := RunRecord.spares_continued
    cases writeRun_then hcourse with
    | first hwrite =>
      exact (preliminary_through (.of_writeRun hspares hwrite) hstored).weaken And.left
    | both hwrite hattempt =>
      refine (preliminary_through (.of_writeRun hspares hwrite) hstored).append fun {w₁} hw₁ => ?_
      exact carryOutFrom_through hp hn (fun h => absurd h (by simp)) hw₁.1 hsound
        (fun hs => hfinished p (hw₁.2 hs)) (fun h => hfinished p (hknown h)) hattempt

/-- **A run that is continued.** What the record says at its beginning is known to the attempt. -/
theorem resume_through (hp : p.Proper) {e : Engine} {source : PlanSource} {plan : Plan} {t : Clock}
    {r : Option (Outcome × Clock)} (haccept : source.accept = .ok plan)
    (hn : plan.steps.length = n) (hstored : w.WellStored n id)
    (h : Fiber.Course pace t (e.resume source id) ds r) :
    w.Through (Rests id p (w.Settled id p)) ds (World.WellStored n id) := by
  have hlooks (answer : Except Fault StoreAnswer) (start stop : Clock) :
      w.Through (Rests id p (w.Settled id p)) [⟨none, .store (.getRun id), answer, start, stop⟩]
        fun w' => w'.WellStored n id ∧ (w'.StoredFinished id p → w.StoredFinished id p) :=
    preliminary_through (List.forall_mem_singleton.mpr ⟨rfl, .other rfl, by simp⟩) hstored
  cases ResumeCourse.of_course haccept h with
  | unbegun => exact .nil hstored
  | failed | unknown => exact (hlooks ..).weaken And.left
  | @found answer start stop record _ _ hfound hrest =>
    refine World.Through.cons (J := fun w' => w'.WellStored n id
      ∧ w'.recordOf id = w.recordOf id ∧ w.recordOf id = .ok (some record))
      (fun {w₁} hd => ?_) fun {w₁} hw₁ => ?_
    · refine ⟨⟨((hlooks ..).ends (.cons hd .nil)).1, hd.recordOf_eq rfl id, hd.recordOf_of_found hfound⟩, ?_⟩
      exact (hlooks ..).along [] _ [] _ _ rfl .nil hd
    · obtain ⟨hstored₁, hsame, hrecord⟩ := hw₁
      refine resumeRecord_through hp hn hstored₁ (hsame.trans hrecord) (fun hknown => ?_) hrest
      rcases hknown with ⟨f, hf⟩ | hfinished
      · rw [hrecord] at hf
        exact absurd hf (by simp)
      · rwa [World.StoredFinished, World.checkpointOf, hsame]

/-! ### Whose deeds -/

/-- A deed that is done for no step, or is part of the tree of a step. -/
def Owned (pace : Clock → Clock → Prop) (ds : List Deed) (d : Deed) : Prop :=
  d.step = none ∨ ∃ x path, Execution.PartOf pace x path ds d

theorem Owned.mono {ds es : List Deed} (h : Owned pace ds d) (hds : ds ⊆ es) : Owned pace es d :=
  h.imp_right fun ⟨x, path, hpart⟩ => ⟨x, path, hpart.mono List.prefix_rfl hds⟩

theorem owned_append {es : List Deed} (hds : ∀ d ∈ ds, Owned pace ds d)
    (hes : ∀ d ∈ es, Owned pace es d) : ∀ d ∈ ds ++ es, Owned pace (ds ++ es) d := by
  intro d hd
  rcases List.mem_append.mp hd with hd | hd
  · exact (hds d hd).mono (List.subset_append_left ..)
  · exact (hes d hd).mono (List.subset_append_right ..)

theorem owned_of_done {o : Outcome} {t : Clock} {r : Option (Outcome × Clock)}
    (h : Fiber.Course pace t (.done o) ds r) : ∀ d ∈ ds, Owned pace ds d := by
  rw [h.of_done.1]
  simp

theorem owned_of_ofAction {α : Type} {a : Action α} {next : α → Fiber Outcome} {t : Clock}
    {r : Option (Outcome × Clock)} (h : Fiber.Course pace t (.ofAction a next) ds r)
    (hnext : ∀ {v u es r}, Fiber.Course pace u (next v) es r → ∀ d ∈ es, Owned pace es d) :
    ∀ d ∈ ds, Owned pace ds d := by
  cases h.of_ofAction with
  | ended hfirst => exact fun d hd => .inl (hfirst.step_eq d hd)
  | on hfirst hrest => exact owned_append (fun d hd => .inl (hfirst.step_eq d hd)) (hnext hrest)

theorem walkRoot_owned {steps : List (Int × Step)} :
    ∀ {keepJournal : Bool} {c : Context} {t : Clock} {ds : List Deed} {r : Option (Outcome × Clock)},
      Fiber.Course pace t (x.walkRoot steps keepJournal c) ds r → ∀ d ∈ ds, Owned pace ds d := by
  induction steps with
  | nil => exact owned_of_done
  | cons entry rest ih =>
    obtain ⟨i, s⟩ := entry
    intro keepJournal c t ds r h
    have htree {t ds r} (h : Fiber.Course pace t (x.walk s (.root i s.kind) c) ds r) :
        ∀ d ∈ ds, Owned pace ds d := fun d hd =>
      .inr ⟨x, _, x.walk_parts s (StepPath.proper_root i s) rfl h d hd⟩
    cases walkRoot_course h with
    | first henter => exact fun d hd => .inl (henter.step_eq d hd)
    | both henter hbody =>
      refine owned_append (fun d hd => .inl (henter.step_eq d hd)) ?_
      cases hbody with
      | stopped hwalk | failed hwalk => exact htree hwalk
      | goesOn hwalk _ hnext => exact owned_append (htree hwalk) (ih hnext)

theorem carryOutFrom_owned {a : Attempt} {keepJournal : Bool} {t : Clock}
    {r : Option (Outcome × Clock)} (h : Fiber.Course pace t (x.carryOutFrom a keepJournal) ds r) :
    ∀ d ∈ ds, Owned pace ds d := by
  have hboth {p : Fiber Outcome} {t ds r}
      (hp : ∀ {t ds r}, Fiber.Course pace t p ds r → ∀ d ∈ ds, Owned pace ds d)
      (h : Fiber.Course pace t (p.andThen fun o => .ofAction (x.conclude o) fun r => .done (.ok r)) ds r) :
      ∀ d ∈ ds, Owned pace ds d := by
    cases h.of_andThen with
    | first hwalk => exact hp hwalk
    | both hwalk hend => exact owned_append (hp hwalk) (owned_of_ofAction hend owned_of_done)
  refine owned_of_ofAction h fun hbody => ?_
  split at hbody
  · exact hboth walkRoot_owned hbody
  · exact hboth owned_of_done hbody

theorem run_owned {e : Engine} {source : PlanSource} {given executionId : Option String} {t : Clock}
    {r : Option (Outcome × Clock)} (h : Fiber.Course pace t (e.run source given executionId) ds r) :
    ∀ d ∈ ds, Owned pace ds d := by
  unfold Engine.run at h
  split at h
  · exact owned_of_done h
  · exact owned_of_ofAction h fun h => owned_of_ofAction h carryOutFrom_owned

theorem resume_owned {e : Engine} {source : PlanSource} {t : Clock} {r : Option (Outcome × Clock)}
    (h : Fiber.Course pace t (e.resume source id) ds r) : ∀ d ∈ ds, Owned pace ds d := by
  cases haccept : source.accept with
  | error f =>
    rw [(resume_refused haccept h).1]
    simp
  | ok plan =>
    cases ResumeCourse.of_course haccept h with
    | unbegun => simp
    | failed | unknown => simp [Owned]
    | found _ hrest =>
      refine owned_append (List.forall_mem_singleton.mpr (.inl rfl)) ?_
      cases RecordCourse.of_course hrest with
      | unreadable | refused | unrestored => simp
      | completed _ _ hreturns => exact fun d hd => .inl (hreturns.step_eq d hd)
      | afresh _ _ _ _ hrun => exact run_owned hrun
      | continued _ _ _ _ hcourse => exact owned_of_ofAction hcourse carryOutFrom_owned

end

/-! ## Chains -/

/-- One attempt at a run by a process of its own: what it did, up to its end or up to the moment when
    it was stopped, and the worlds before and after it. -/
structure Trial where
  engine : Engine
  before : World
  deeds : List Deed
  result : Option (Outcome × Clock)
  after : World

/-- **A run that is continued again and again**, each time with the run records that the trial before
    has left. -/
inductive Resumes (pace : Clock → Clock → Prop) (source : PlanSource) (id : String) :
    RunStore → List Trial → Prop where
  | nil {runs : RunStore} : Resumes pace source id runs []
  | cons {runs : RunStore} {a : Trial} {rest : List Trial} (hbefore : a.before.stores.runs = runs)
      (hruns : a.before.Runs pace (a.engine.resume source id) a.deeds a.result a.after)
      (hrest : Resumes pace source id a.after.stores.runs rest) : Resumes pace source id runs (a :: rest)

/-- **A chain of trials**: a run that begins where the record of its id, if there is one, holds no
    checkpoint, and then any number of continuations. -/
inductive Chain (pace : Clock → Clock → Prop) (source : PlanSource) (id : String) :
    List Trial → Prop where
  | begun {a : Trial} {rest : List Trial} {given executionId : Option String}
      (hfresh : a.before.checkpointOf id = none)
      (hruns : a.before.Runs pace (a.engine.run source given executionId) a.deeds a.result a.after)
      (hrest : Resumes pace source id a.after.stores.runs rest) : Chain pace source id (a :: rest)

section

variable {n : Nat} {id : String} {p : StepPath} {pace : Clock → Clock → Prop} {source : PlanSource}

theorem World.recordOf_congr {w w' : World} (h : w'.stores.runs = w.stores.runs) (id : String) :
    w'.recordOf id = w.recordOf id := by
  rw [recordOf, h, recordOf]

theorem World.WellStored.of_runs {w w' : World} (hw : w.WellStored n id)
    (h : w'.stores.runs = w.stores.runs) : w'.WellStored n id := by
  rwa [WellStored, checkpointOf, recordOf_congr h]

theorem World.Settled.of_runs {w w' : World} (hw : w.Settled id p)
    (h : w'.stores.runs = w.stores.runs) : w'.Settled id p := by
  rwa [Settled, Unreadable, StoredFinished, checkpointOf, recordOf_congr h]

/-- What a record says at some moment of a trial is still known at its end. -/
theorem World.Records.lasts {known : Prop} {F : Fiber Outcome} {w u w' : World}
    {pre post : List Deed} {r : Option (Outcome × Clock)}
    (hthrough : ∀ {ds r}, Fiber.Course pace w.clock F ds r →
      w.Through (Rests id p known) ds (World.WellStored n id))
    (hcourse : Fiber.Course pace w.clock F (pre ++ post) r) (hpre : w.Admits pre u)
    (hpost : u.Admits post w') (h : u.Records id p) : w'.Settled id p := by
  have hstored : u.WellStored n id := (hthrough (hcourse.stop rfl)).ends hpre
  refine World.Along.lasts (fun d ds e v v' hds hv hd => ?_) rfl hpre hpost
    (.inr (h.storedFinished hstored))
  exact ((hthrough hcourse).along d ds e v v' hds hv hd).1

/-- In a continuation, nothing is done outside for a leaf that is known to have ended. -/
theorem resume_rests (hp : p.Proper) {plan : Plan} (haccept : source.accept = .ok plan) {a : Trial}
    (hstored : a.before.WellStored plan.steps.length id) (hknown : a.before.Settled id p)
    (hruns : a.before.Runs pace (a.engine.resume source id) a.deeds a.result a.after) :
    ∀ d ∈ a.deeds, d.step = some p → d.call.isOutside = false := by
  intro d hd hstep
  by_contra hout
  rcases resume_owned hruns.course d hd with hnone | ⟨x, path, hpart⟩
  · simp [hnone] at hstep
  · obtain ⟨q, found, start, stop, hq, hfound, hrecall⟩ :=
      hpart.recall_of_outside (by simpa using hout)
    obtain rfl : p = q := Option.some.inj (hstep.symm.trans hq)
    obtain ⟨pre, post, hds⟩ := List.append_of_mem hrecall
    have hadmits := hruns.admits
    rw [hds] at hadmits
    obtain ⟨u, hu, hrest⟩ := hadmits.split
    obtain ⟨u', hu', -⟩ := hrest.of_cons
    have halong := (resume_through hp haccept rfl hstored hruns.course).along
    exact (halong pre _ post u u' hds hu hu').2 found start stop rfl hfound hknown

theorem resume_keeps (hp : p.Proper) {plan : Plan} (haccept : source.accept = .ok plan) {a : Trial}
    (hstored : a.before.WellStored plan.steps.length id)
    (hruns : a.before.Runs pace (a.engine.resume source id) a.deeds a.result a.after) :
    a.after.WellStored plan.steps.length id ∧ (a.before.Settled id p → a.after.Settled id p) := by
  have hthrough := resume_through hp haccept rfl hstored hruns.course
  refine ⟨hthrough.ends hruns.admits, fun hs => ?_⟩
  have hsettled : World.Along (fun u _ u' => u.Settled id p → u'.Settled id p) a.before a.deeds :=
    fun d ds e v v' hds hv hd => (hthrough.along d ds e v v' hds hv hd).1
  have hnil : a.deeds = [] ++ a.deeds := rfl
  exact hsettled.lasts hnil .nil hruns.admits hs

/-- **Later trials.** What is known to have ended before them stays so, and rests. -/
theorem Resumes.rests (hp : p.Proper) {plan : Plan} (haccept : source.accept = .ok plan)
    {runs : RunStore} {trials : List Trial} (h : Resumes pace source id runs trials) :
    ∀ {w : World}, w.stores.runs = runs → w.WellStored plan.steps.length id → w.Settled id p →
      ∀ b ∈ trials, ∀ d ∈ b.deeds, d.step = some p → d.call.isOutside = false := by
  induction h with
  | nil => intro _ _ _ _ b hb; exact absurd hb List.not_mem_nil
  | @cons runs a rest hbefore hruns hrest ih =>
    intro w hw hstored hsettled b hb
    have hsame : a.before.stores.runs = w.stores.runs := hbefore.trans hw.symm
    have hstored := hstored.of_runs hsame
    have hsettled := hsettled.of_runs hsame
    have hkeeps := resume_keeps hp haccept hstored hruns
    rcases List.mem_cons.mp hb with rfl | hb
    · exact resume_rests hp haccept hstored hsettled hruns
    · exact ih rfl hkeeps.1 (hkeeps.2 hsettled) b hb

/-- A trial at some moment of which the record says that the leaf has ended, among later trials. -/
theorem Resumes.rests_after (hp : p.Proper) {plan : Plan} (haccept : source.accept = .ok plan)
    {runs : RunStore} {trials later : List Trial} {a : Trial} {pre post : List Deed} {u : World}
    (h : Resumes pace source id runs trials) (hdeeds : a.deeds = pre ++ post)
    (hpre : a.before.Admits pre u) (hpost : u.Admits post a.after) (hrecords : u.Records id p) :
    ∀ {earlier : List Trial} {w : World}, trials = earlier ++ a :: later → w.stores.runs = runs →
      w.WellStored plan.steps.length id →
      ∀ b ∈ later, ∀ d ∈ b.deeds, d.step = some p → d.call.isOutside = false := by
  induction h with
  | nil => intro earlier w htrials; simp at htrials
  | @cons runs c rest hbefore hruns hrest ih =>
    intro earlier w htrials hw hstored
    have hstored : c.before.WellStored plan.steps.length id :=
      hstored.of_runs (hbefore.trans hw.symm)
    have hafter := (resume_keeps hp haccept hstored hruns).1
    cases earlier with
    | cons _ earlier =>
      obtain ⟨-, htrials⟩ := List.cons.inj htrials
      exact ih htrials rfl hafter
    | nil =>
      obtain ⟨rfl, rfl⟩ := List.cons.inj htrials
      have hcourse := hruns.course
      rw [hdeeds] at hcourse
      exact hrest.rests hp haccept rfl hafter
        (hrecords.lasts (resume_through hp haccept rfl hstored) hcourse hpre hpost)

theorem Resumes.runs_of_mem {runs : RunStore} {trials : List Trial}
    (h : Resumes pace source id runs trials) : ∀ b ∈ trials,
      b.before.Runs pace (b.engine.resume source id) b.deeds b.result b.after := by
  induction h with
  | nil => intro b hb; exact absurd hb List.not_mem_nil
  | cons _ hruns _ ih =>
    intro b hb
    rcases List.mem_cons.mp hb with rfl | hb
    · exact hruns
    · exact ih b hb

/-- **A leaf whose end is on record rests.** Take any chain of trials of one run, each ended or
    stopped at any moment; once the record of the run says at some moment that a leaf has ended, no
    later trial asks anybody outside for anything on behalf of that leaf. -/
theorem finished_leaf_rests {trials earlier later : List Trial} {a : Trial} {pre post : List Deed}
    {w : World} (hchain : Chain pace source id trials) (htrials : trials = earlier ++ a :: later)
    (hdeeds : a.deeds = pre ++ post) (hpre : a.before.Admits pre w) (hpost : w.Admits post a.after)
    (hrecords : w.Records id p) :
    ∀ b ∈ later, ∀ d ∈ b.deeds, d.step = some p → d.call.isOutside = false := by
  obtain ⟨hfresh, hruns, hrest⟩ := hchain
  rename_i first rest given executionId
  have hlater : ∀ b ∈ later, b ∈ rest := by
    intro b hb
    cases earlier with
    | nil => rwa [(List.cons.inj htrials).2]
    | cons _ earlier => rw [(List.cons.inj htrials).2]; simp [hb]
  intro b hb d hd hstep
  have hcourse := (hrest.runs_of_mem b (hlater b hb)).course
  -- a path that no step can have belongs to no deed
  have hp : p.Proper := by
    rcases resume_owned hcourse d hd with hnone | ⟨x, path, hpart⟩
    · simp [hnone] at hstep
    · obtain ⟨q, -, hq, hstep', -⟩ := hpart.treeCall
      rwa [Option.some.inj (hstep.symm.trans hstep')]
  cases haccept : source.accept with
  | error f =>
    rw [(resume_refused haccept hcourse).1] at hd
    exact absurd hd List.not_mem_nil
  | ok plan =>
    have hstored : first.before.WellStored plan.steps.length id := fun data h => by simp [hfresh] at h
    have hthrough {ds r} (h : Fiber.Course pace first.before.clock
        (first.engine.run source given executionId) ds r) :=
      run_through hp haccept rfl hstored (fun ⟨_, _, _, hdata, _⟩ => by simp [hfresh] at hdata) h
    have hafter := (hthrough hruns.course).ends hruns.admits
    cases earlier with
    | nil =>
      obtain ⟨rfl, rfl⟩ := List.cons.inj htrials
      have hcourse := hruns.course
      rw [hdeeds] at hcourse
      exact hrest.rests hp haccept rfl hafter (hrecords.lasts hthrough hcourse hpre hpost) b hb d hd
        hstep
    | cons _ earlier =>
      obtain ⟨-, htrials⟩ := List.cons.inj htrials
      exact hrest.rests_after hp haccept hdeeds hpre hpost hrecords htrials rfl hafter b hb d hd hstep

end

/-! ### An instance -/

/-- Two agents side by side. -/
def twoAgents : PlanSource :=
  .document (.object
    [("steps", .list
      [.object
        [("type", .text "parallel"),
         ("steps", .list
          [.object [("type", .text "agent"), ("agent", .text "first")],
           .object [("type", .text "agent"), ("agent", .text "second")]])]])])

/-- Surroundings in which every agent is done at once. -/
def agentsDone : Environment :=
  .replying fun _ => { response := .ok ⟨200, "", .object [("result", .text "done")]⟩ }

/-- A trial in prompt surroundings. -/
def Trial.prompt (e : Engine) (env : Environment) (w : World) (p : Fiber Outcome) : Trial :=
  ⟨e, w, (p.promptly env w).deeds, some ((p.promptly env w).outcome, w.clock), (p.promptly env w).world⟩

/-- A trial in prompt surroundings that is stopped after some deeds. -/
def Trial.stopped (e : Engine) (env : Environment) (w : World) (p : Fiber Outcome) (k : Nat) :
    Trial :=
  ⟨e, w, (p.promptly env w).deeds.take k, none, w.follow env ((p.promptly env w).deeds.take k)⟩

theorem Trial.prompt_runs (e : Engine) (env : Environment) (w : World) (p : Fiber Outcome) :
    (prompt e env w p).before.Runs (· ≤ ·) p (prompt e env w p).deeds (prompt e env w p).result
      (prompt e env w p).after :=
  Fiber.runs_promptly Nat.le_refl env p w

theorem Trial.stopped_runs (e : Engine) (env : Environment) (w : World) (p : Fiber Outcome)
    (k : Nat) :
    (stopped e env w p k).before.Runs (· ≤ ·) p (stopped e env w p k).deeds
      (stopped e env w p k).result (stopped e env w p k).after :=
  Fiber.runs_promptly_take Nat.le_refl env p w k

/-- The first trial, stopped when the first agent has been saved. -/
def stoppedTrial : Trial :=
  .stopped plainEngine agentsDone {} (plainEngine.run twoAgents (some "run") none) 9

/-- The trial that goes on from there. -/
def continuedTrial : Trial :=
  .prompt plainEngine agentsDone stoppedTrial.after (plainEngine.resume twoAgents "run")

/-- The path of the first agent. -/
def firstAgent : StepPath := (StepPath.root 0 "parallel").child .parallel 0 "agent"

/-- The second trial only reads from the journal how the first agent has ended. -/
theorem first_agent_rests :
    (continuedTrial.deeds.filter fun d => d.step = some firstAgent).length = 1
      ∧ ∀ d ∈ continuedTrial.deeds, d.step = some firstAgent → d.call.isOutside = false := by
  have hruns : stoppedTrial.before.Runs (· ≤ ·) (plainEngine.run twoAgents (some "run") none)
      stoppedTrial.deeds stoppedTrial.result stoppedTrial.after := Trial.stopped_runs ..
  have hchain : Chain (· ≤ ·) twoAgents "run" [stoppedTrial, continuedTrial] :=
    .begun rfl hruns (.cons rfl (Trial.prompt_runs ..) .nil)
  have hrecords : stoppedTrial.after.Records "run" firstAgent :=
    ⟨_, _, _, _, rfl, rfl, rfl, rfl, rfl, .inr ⟨_, rfl, .inl rfl⟩⟩
  have hdeeds : stoppedTrial.deeds = stoppedTrial.deeds ++ [] := (List.append_nil _).symm
  have htrials : [stoppedTrial, continuedTrial] = [] ++ stoppedTrial :: [continuedTrial] := rfl
  refine ⟨by decide +kernel, ?_⟩
  exact finished_leaf_rests hchain htrials hdeeds hruns.admits .nil hrecords
    continuedTrial List.mem_cons_self

end Runbook
