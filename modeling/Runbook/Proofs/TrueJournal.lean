import Runbook.Proofs.Foresight
import Runbook.Proofs.RunCourse

/-!
# `Proofs.TrueJournal` — attempts end as was foreseen

A journal that tells the truth about every step goes on telling it: a leaf writes down the outcome that
it has reported, and the notes of a leaf do not say how it ends. So an attempt that begins with such a
journal is told the truth all along, and it ends as was foreseen; where it begins, and what was carried
out before, makes no difference.

## Contents
- **Honest journals.** `Honest`, and what deeds make of one.
- **Attempts.** `walkRoot_foreseen` and `carryOutFrom_foreseen`.
- **Runs.** `foreseeRun`, `fromStart_foreseen`, and that a run begins with its id, `run_course`.
-/

namespace Runbook

/-! ## Honest journals -/

/-- An entry says the same after something was noted in it. -/
theorem JournalEntry.Agrees.noted {x : Execution} {o : Except Fault Value}
    {entry fields : Keyed Value} (h : Agrees x o (some (.object entry)))
    (hfields : ∀ key ∈ fields.keys, key ∈ noteKeys) :
    Agrees x o (some (.object (Keyed.putAll entry fields))) := by
  have hsame {name : String} (hname : name ∉ noteKeys) :
      (Keyed.putAll entry fields).get? name = entry.get? name :=
    RunRecord.get?_putAll_of_not_mem (Execution.TreeCall.noteKeys_ne hfields hname)
  have houtput := hsame (show "output" ∉ noteKeys by decide)
  have herror := hsame (show "error" ∉ noteKeys by decide)
  cases h with
  | unended h =>
    obtain ⟨_, hentry, hnone, hnone'⟩ := h _ rfl
    obtain rfl := Value.object.inj hentry
    refine .unended fun v hv => ⟨_, (Option.some.inj hv).symm, ?_, ?_⟩
    · rwa [Keyed.has, houtput]
    · rwa [Keyed.has, herror]
  | output ho h => exact .output ho (houtput.trans h)
  | error ho hcontinue hf hnone h =>
    exact .error ho hcontinue hf (houtput.trans hnone) (herror.trans h)

namespace Execution

variable {x : Execution} {σ : Assignment} {pace : Clock → Clock → Prop} {w w' : World}
  {ds : List Deed} {d : Deed}

/-- **A journal that tells the truth** about every step. -/
def Honest (x : Execution) (σ : Assignment) (j : Keyed Value) : Prop :=
  ∀ q : StepPath, q.Proper → JournalEntry.Agrees x (σ q) (j.get? q.text)

theorem honest_nil : x.Honest σ [] := fun _ _ => .unended JournalEntry.open_none

theorem Honest.storable {j : Keyed Value} (h : x.Honest σ j)
    (hσ : ∀ q v, σ q = .ok v → v.isData = true) : x.Honest σ (Value.storableFields j) := by
  intro q hq
  rw [get?_storableFields]
  exact (h q hq).storable (hσ q)

/-- A leaf writes down what it has reported. -/
theorem PartOf.entry_of_journal {path : StepPath} (h : PartOf pace x path ds d)
    (hassigned : Assigned σ ds) {key : String} {entry : Keyed Value}
    (hcall : d.call = .journal key entry) :
    ∃ q : StepPath, d.step = some q ∧ key = q.text ∧ x.entry? (σ q) = some entry := by
  cases h with
  | report _ _ _ _ hd => subst hd; simp at hcall
  | @leaf q s c body ls r hq hproper hkind hbody hcourse hsub hd =>
    have hs : s.isLeaf = true := by cases s <;> simp [handler?] at hbody <;> rfl
    obtain ⟨rfl, o, hreport, hentry⟩ := hcourse.reported_of_journal hbody hd hcall
    obtain ⟨⟨_, _, _, _, _⟩, he, rfl⟩ := mem_reports.mp hreport
    obtain rfl : o = σ q := hassigned.of_mem hs hkind (hsub he)
    exact ⟨q, (hcourse.treeCall hbody d hd).1, rfl, hentry⟩

/-- **The journal stays honest** through whatever is done for a step. -/
theorem PartOf.honest {path : StepPath} (h : PartOf pace x path ds d) (hassigned : Assigned σ ds)
    (hd : w.Answers d w') (hw : x.Honest σ w.attempt.journal) :
    x.Honest σ w'.attempt.journal := by
  obtain ⟨q, -, hproper, hstep, hcall⟩ := h.treeCall
  intro q' hq'
  rw [hd.attempt_eq]
  by_cases hne : q' = q
  · subst hne
    rcases hcall.after_cases w.attempt with hsame | ⟨_, entry, -, hjournal⟩ | ⟨fields, hkeys, hnote⟩
    · rw [hsame]
      exact hw q' hq'
    · obtain ⟨q, hstep', -, hentry⟩ := h.entry_of_journal hassigned hjournal
      obtain rfl := Option.some.inj (hstep'.symm.trans hstep)
      rw [hjournal, show (w.attempt.after (.journal q.text entry)).journal.get? q.text
        = some (.object entry) from Keyed.get?_put_self ..]
      exact .entry hentry
    · rcases Attempt.withNote_get?_self hnote with ⟨hnone, hafter⟩ | ⟨entry, hentry, hafter⟩
      · rw [hafter]
        have hempty : JournalEntry.Agrees x (σ q') (some (.object [])) :=
          .unended fun v hv => ⟨[], (Option.some.inj hv).symm, rfl, rfl⟩
        refine .unended fun v hv => ⟨fields, (Option.some.inj hv).symm, ?_, ?_⟩ <;>
          refine Bool.eq_false_iff.mpr fun hhas => ?_ <;>
          have hmem := hkeys _ ((Keyed.mem_keys_iff ..).mpr hhas) <;>
          exact absurd hmem (by decide)
      · rw [hafter]
        exact (hentry ▸ hw q' hq').noted hkeys
  · rw [hcall.get?_after_of_ne _ fun htext => hne (StepPath.text_injective hq' hproper htext)]
    exact hw q' hq'

/-- **A step is told the truth** by an honest journal. -/
theorem walk_truthful {s : Step} {path : StepPath} {c : Context} {t : Clock}
    {r : Option (Outcome × Clock)} (hproper : path.Proper) (hkind : path.kind? = some s.kind)
    (hassigned : Assigned σ ds) (hadmits : w.Admits ds w') (hw : x.Honest σ w.attempt.journal)
    (h : Fiber.Course pace t (x.walk s path c) ds r) :
    Truthful x σ ds ∧ x.Honest σ w'.attempt.journal := by
  have hparts := x.walk_parts s hproper hkind h
  have hkeep : ∀ d ∈ ds, ∀ {u u' : World}, x.Honest σ u.attempt.journal → u.Answers d u' →
      x.Honest σ u'.attempt.journal := fun d hd _ _ hu hu' => (hparts d hd).honest hassigned hu' hu
  refine ⟨fun d hd q found start stop hrecall => ?_, hadmits.keeps hkeep hw⟩
  obtain ⟨pre, post, rfl⟩ := List.append_of_mem hd
  obtain ⟨u, hpre, hrest⟩ := hadmits.split
  obtain ⟨u', hu', -⟩ := hrest.of_cons
  obtain ⟨q', -, hproper', hstep, -⟩ := (hparts d hd).treeCall
  subst hrecall
  obtain rfl := Option.some.inj hstep
  rw [hu'.recall_eq]
  exact hpre.keeps (fun e he => hkeep e (List.mem_append_left _ he)) hw q hproper'

/-! ## Attempts -/

/-- **The root list ends as was foreseen.** -/
theorem walkRoot_foreseen {steps : List (Int × Step)} :
    ∀ {keepJournal : Bool} {c : Context} {t u : Clock} {ds : List Deed} {o : Outcome}
      {w w' : World}, (keepJournal = true → x.Honest σ w.attempt.journal) → Assigned σ ds →
      w.Admits ds w' → Fiber.Course pace t (x.walkRoot steps keepJournal c) ds (some (o, u)) →
      o = x.foreseeRoot σ steps c := by
  induction steps with
  | nil =>
    intro keepJournal c t u ds o w w' _ _ _ h
    exact (Prod.mk.inj (h.of_done.2 _ rfl)).1
  | cons entry rest ih =>
    obtain ⟨i, s⟩ := entry
    intro keepJournal c t u ds o w w' hw hassigned hadmits h
    cases walkRoot_course h with
    | both henter hbody =>
      obtain ⟨w₁, hw₁, hadmits⟩ := hadmits.split
      have hassigned := hassigned.of_append.2
      -- a journal that was kept is honest by assumption, and one that was not is empty
      have hhonest : x.Honest σ w₁.attempt.journal := by
        rw [attempt_of_enter henter hw₁]
        cases keepJournal with
        | true => exact hw rfl
        | false => exact honest_nil
      have hlike {es o t v w'} (hassigned : Assigned σ es) (hadmits : w₁.Admits es w')
          (hwalk : Fiber.Course pace t (x.walk s (.root i s.kind) c) es (some (o, v))) :
          Like x o (x.foresee σ s (.root i s.kind) c) :=
        x.walk_foreseen s rfl hassigned
          (walk_truthful (StepPath.proper_root i s) rfl hassigned hadmits hhonest hwalk).1 hwalk
      rw [foreseeRoot]
      cases hbody with
      | failed hwalk hguarded hr =>
        rw [(hlike hassigned hadmits hwalk).guarded] at hguarded
        rw [hguarded]
        exact (Prod.mk.inj (hr _ rfl)).1
      | goesOn hwalk hguarded hnext =>
        obtain ⟨w₂, hw₂, hadmits⟩ := hadmits.split
        rw [(hlike hassigned.of_append.1 hw₂ hwalk).guarded] at hguarded
        rw [hguarded]
        exact ih (fun h => absurd h (by simp)) hassigned.of_append.2 hadmits hnext

/-- **An attempt ends as was foreseen**, wherever it begins. -/
theorem carryOutFrom_foreseen {a : Attempt} {m : Nat} (hm : a.cursor = m) {keepJournal : Bool}
    {t u : Clock} {o : Outcome} (hjournal : keepJournal = true → x.Honest σ a.journal)
    (hassigned : Assigned σ ds) (hadmits : w.Admits ds w')
    (h : Fiber.Course pace t (x.carryOutFrom a keepJournal) ds (some (o, u))) :
    o = concludedOutcome (x.foreseeRoot σ (numbered m (x.plan.steps.drop m)) a.base) := by
  cases AttemptCourse.of_course hm h with
  | concluding hwalk hend =>
    obtain ⟨w₁, hbegin, hadmits⟩ := hadmits.of_cons
    have hattempt : w₁.attempt = a := hbegin.attempt_eq
    obtain ⟨w₂, hw₂, -⟩ := hadmits.split
    have ho := walkRoot_foreseen (fun h => hattempt ▸ hjournal h) hassigned.of_cons.of_append.1 hw₂
      hwalk
    rw [← ho]
    exact hend.ends (conclude_ends _) _ rfl

/-! ## Runs -/

/-- How a run of a plan ends. -/
def foreseeRun (x : Execution) (σ : Assignment) : Outcome :=
  concludedOutcome
    (x.foreseeRoot σ (numbered 0 x.plan.steps) (Engine.startContext x.plan x.runId))

/-- A run under its id. -/
def fromStart (x : Execution) (executionId : Option String) : Fiber Outcome :=
  .ofAction (Engine.announce x executionId) fun _ =>
    x.carryOutFrom ⟨x.runId, 0, Engine.startContext x.plan x.runId, []⟩ false

/-- **A run ends as was foreseen.** -/
theorem fromStart_foreseen {executionId : Option String} {t u : Clock} {o : Outcome}
    (hassigned : Assigned σ ds) (hadmits : w.Admits ds w')
    (h : Fiber.Course pace t (x.fromStart executionId) ds (some (o, u))) : o = x.foreseeRun σ := by
  cases writeRun_then h with
  | both hannounce hattempt =>
    obtain ⟨w₁, -, hadmits⟩ := hadmits.split
    exact carryOutFrom_foreseen (m := 0) rfl (fun h => absurd h (by simp)) hassigned.of_append.2
      hadmits hattempt

end Execution

/-- A run has an id, which is not empty, before it does anything else. -/
theorem run_course {e : Engine} {source : PlanSource} {plan : Plan}
    {given executionId : Option String} {pace : Clock → Clock → Prop} {t : Clock} {ds : List Deed}
    {res : Outcome × Clock} (haccept : source.accept = .ok plan)
    (h : Fiber.Course pace t (e.run source given executionId) ds (some res)) :
    ∃ (runId : String) (es fs : List Deed) (u : Clock), runId ≠ ""
      ∧ (∀ id, given = some id → id ≠ "" → runId = id) ∧ ds = es ++ fs
      ∧ (∀ d ∈ es, d.call = .freshId)
      ∧ Fiber.Course pace u (Execution.fromStart ⟨e, plan, runId⟩ executionId) fs (some res) := by
  cases run_then haccept h with
  | @both _ u es fs _ hid hrest =>
    obtain ⟨runId, rfl, hrest⟩ := hrest
    obtain ⟨id, hrunId, hne, hgiven⟩ := hid.ends (newRunId_ends given) _ rfl
    obtain rfl := Except.ok.inj hrunId
    have hdraws : (Engine.newRunId given).outcome.Makes fun c => c = .freshId :=
      newRunId_makes given rfl
    exact ⟨runId, es, fs, u, hne, hgiven, rfl, fun d hd => (hid.makes hdraws d hd).2, hrest⟩

end Runbook
