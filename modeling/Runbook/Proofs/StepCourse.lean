import Runbook.Proofs.Runs
import Runbook.Proofs.StepPath

/-!
# `Proofs.StepCourse` — what steps do

A leaf step first asks the journal how it ended. Only when nothing is known it is carried out; then it
reports its outcome and writes it into the journal. A step that contains steps does nothing itself
but report. So whatever is done for a step of a plan is done in the course of one leaf, or it is a
report: `walk_parts`.

## Contents
- **Replay.** `JournalEntry.replay?`, the outcome that a journal entry stands for, and
  `Report.entry?`, the entry that an outcome leaves.
- **Actions first.** `Fiber.ActionFirst`, the courses of a fiber that begins with an action.
- **Leaves.** `LeafCourse` and `leaf_course`.
- **Trees.** `PartOf`, a deed of a tree.
- **Walks.** The course of a step, one constructor at a time, and `StepThen`, a step and what follows it
  in its list.
- **Parts.** `walk_parts`, by induction on the tree of steps.
-/

namespace Runbook

/-! ## Replay -/

/-- The outcome that a journal entry stands for; none while the step has not ended. -/
def JournalEntry.replay? (found : Option Value) : Option (Except Fault Value) :=
  match recorded? found "output" with
  | .error f => some (.error f)
  | .ok (some output) => some (.ok output)
  | .ok none =>
    match recorded? found "error" with
    | .error f => some (.error f)
    | .ok (some error) => some (.error (.stepFailed error.display .null))
    | .ok none => none

/-- The list that a condition carries out. -/
def takenSteps (b : Bool) (whenTrue : List Step) (whenFalse : Option (List Step)) : List Step :=
  if b then whenTrue else whenFalse.getD []

/-- The name of that list. -/
def takenBranch (b : Bool) : Branch := if b then .whenTrue else .whenFalse

/-- **Induction on the tree of steps**, with a statement about steps and one about lists of steps. -/
theorem Step.treeInduction {P : Step → Prop} {Q : List Step → Prop}
    (leaf : ∀ s : Step, s.isLeaf = true → P s)
    (condition : ∀ id predicate whenTrue whenFalse,
      (∀ b, Q (takenSteps b whenTrue whenFalse)) → P (.condition id predicate whenTrue whenFalse))
    (parallel : ∀ id branches, Q branches → P (.parallel id branches))
    (foreign : ∀ call agent, P (.foreign call agent)) (nil : Q [])
    (cons : ∀ s rest, P s → Q rest → Q (s :: rest)) (s : Step) : P s := by
  induction s using Step.rec (motive_2 := Q) (motive_3 := fun steps => Q (steps.getD [])) with
  | agent => exact leaf _ rfl
  | worker => exact leaf _ rfl
  | workflow => exact leaf _ rfl
  | hook => exact leaf _ rfl
  | sleep => exact leaf _ rfl
  | condition id predicate whenTrue whenFalse htrue hfalse =>
    refine condition id predicate whenTrue whenFalse fun b => ?_
    cases b with
    | true => exact htrue
    | false => exact hfalse
  | parallel id branches h => exact parallel id branches h
  | foreign call agent => exact foreign call agent
  | nil => exact nil
  | cons s rest hs hrest => exact cons s rest hs hrest
  | none => exact nil
  | some steps h => exact h

/-! ## Actions first -/

/-- **An action, and what follows it.** The course ends with the action, which was stopped or has
    failed, or it goes on. -/
inductive Fiber.ActionFirst {α : Type} (pace : Clock → Clock → Prop) (step : Option StepPath)
    (t : Clock) (a : Action α) (next : α → Fiber Outcome) :
    List Deed → Option (Outcome × Clock) → Prop where
  | ended {ds : List Deed} {q : Option (Except Fault α × Clock)} {r : Option (Outcome × Clock)}
      (h : Program.Course pace step t a.outcome ds q)
      (hr : ∀ res ∈ r, ∃ f, q = some (.error f, res.2) ∧ res.1 = .error f) :
      ActionFirst pace step t a next ds r
  | on {v : α} {u : Clock} {ds es : List Deed} {r : Option (Outcome × Clock)}
      (h₁ : Program.Course pace step t a.outcome ds (some (.ok v, u)))
      (h₂ : Fiber.Course pace u (next v) es r) : ActionFirst pace step t a next (ds ++ es) r

theorem Fiber.Course.of_ofAction {α : Type} {pace : Clock → Clock → Prop} {step : Option StepPath}
    {t : Clock} {a : Action α} {next : α → Fiber Outcome} {ds : List Deed}
    {r : Option (Outcome × Clock)} (h : Fiber.Course pace t (.ofAction a next step) ds r) :
    Fiber.ActionFirst pace step t a next ds r := by
  cases h.of_toFiber with
  | first h₁ => exact .ended h₁ (by simp)
  | @both o u _ _ _ h₁ h₂ =>
    cases o with
    | ok v => exact .on h₁ h₂
    | error f =>
      obtain ⟨rfl, hr⟩ := h₂.of_done
      rw [List.append_nil]
      exact .ended h₁ fun res hres => ⟨f, by rw [hr res hres], by rw [hr res hres]⟩

/-- An action that cannot fail, and what follows it. -/
theorem Fiber.Course.of_ofAction_ok {α : Type} {pace : Clock → Clock → Prop} {step : Option StepPath}
    {t : Clock} {a : Action α} {next : α → Fiber Outcome} {ds : List Deed}
    {r : Option (Outcome × Clock)} (hends : a.outcome.Ends fun o => ∃ v, o = .ok v)
    (h : Fiber.Course pace t (.ofAction a next step) ds r) :
    InTurn (Program.Course pace step t a.outcome)
      (fun o u es r => ∃ v, o = .ok v ∧ Fiber.Course pace u (next v) es r) ds r := by
  cases h.of_toFiber with
  | first h₁ => exact .first h₁
  | both h₁ h₂ =>
    obtain ⟨v, rfl⟩ := h₁.ends hends _ rfl
    exact .both h₁ ⟨v, rfl, h₂⟩

/-- A fiber that ends as an action does. -/
theorem Fiber.ofAction_done (a : Action Finished) (step : Option StepPath) :
    Fiber.ofAction a (fun r => .done (.ok r)) step = a.outcome.toFiber step .done := by
  unfold Fiber.ofAction
  congr 1
  funext o
  cases o <;> rfl

namespace Execution

/-- The entry that the outcome of a leaf leaves in the journal. -/
def entry? (x : Execution) : Except Fault Value → Option (Keyed Value)
  | .ok output => some [("output", output)]
  | .error f =>
    if x.plan.continueOnError && !isFatal f then some [("error", .text f.describe)] else none

/-- How a leaf ends, given what became of it. -/
def leafOutcome (id : Option String) (c : Context) (o : Except Fault Value) : Outcome :=
  o.map fun output => ⟨c.recordOutput id output, output⟩

/-! ## Leaves -/

/-- What is done after a leaf has reported: its entry is written and saved. -/
inductive Closing (x : Execution) (path : StepPath) (o : Except Fault Value) : Deed → Prop where
  | journal {entry : Keyed Value} {answer : Unit} {start stop : Clock} (h : x.entry? o = some entry) :
      Closing x path o ⟨some path, .journal path.text entry, answer, start, stop⟩
  | save {answer : Unit} {start stop : Clock} (h : x.engine.checkpoints = true) :
      Closing x path o ⟨some path, .saveCheckpoint x.runId, answer, start, stop⟩

/-- **The course of a leaf.** It is stopped before it begins; or the journal says how it ended; or it
    is carried out, and stopped on the way, or stopped before it reports, or it reports. -/
inductive LeafCourse (pace : Clock → Clock → Prop) (x : Execution) (path : StepPath)
    (id : Option String) (c : Context) (body : Action Value) :
    List Deed → Option (Outcome × Clock) → Prop where
  | unbegun : LeafCourse pace x path id c body [] none
  | replayed {found : Option Value} {start stop : Clock} {o : Except Fault Value}
      {r : Option (Outcome × Clock)} (hfound : JournalEntry.replay? found = some o)
      (hr : ∀ res ∈ r, res.1 = leafOutcome id c o) :
      LeafCourse pace x path id c body [⟨some path, .recall path.text, found, start, stop⟩] r
  | worked {found : Option Value} {start stop t : Clock} {ds : List Deed}
      {r : Option (Except Fault Value × Clock)} (hfound : JournalEntry.replay? found = none)
      (hbody : Program.Course pace (some path) t body.outcome ds r) :
      LeafCourse pace x path id c body
        (⟨some path, .recall path.text, found, start, stop⟩ :: ds) none
  | reported {found : Option Value} {start stop start' stop' t u : Clock} {answer : Unit}
      {ds es : List Deed} {o : Except Fault Value} {r : Option (Outcome × Clock)}
      (hfound : JournalEntry.replay? found = none)
      (hbody : Program.Course pace (some path) t body.outcome ds (some (o, u)))
      (hes : ∀ d ∈ es, Closing x path o d) (hr : ∀ res ∈ r, res.1 = leafOutcome id c o) :
      LeafCourse pace x path id c body
        (⟨some path, .recall path.text, found, start, stop⟩ :: ds
          ++ ⟨some path, .report ⟨path, id, o⟩, answer, start', stop'⟩ :: es) r

/-- How the end of a leaf is written down. -/
def close (x : Execution) (path : StepPath) (o : Except Fault Value) : Program Unit :=
  match x.entry? o with
  | some entry =>
    .ask (.journal path.text entry) fun _ =>
      if x.engine.checkpoints then .ask (.saveCheckpoint x.runId) .done else .done ()
  | none => .done ()

theorem outcome_journal (x : Execution) (path : String) (entry : Keyed Value) :
    (x.journal path entry).outcome = .ask (.journal path entry) fun _ => x.saveCheckpoint.outcome :=
  rfl

theorem outcome_saveCheckpoint (x : Execution) :
    x.saveCheckpoint.outcome
      = if x.engine.checkpoints then .ask (.saveCheckpoint x.runId) fun _ => .done (.ok ())
        else .done (.ok ()) := by
  unfold saveCheckpoint
  split <;> rfl

theorem outcome_journal_bind (x : Execution) (path : StepPath) {o : Except Fault Value}
    {entry : Keyed Value} (h : x.entry? o = some entry) {α : Type} (f : Unit → Action α) :
    (x.journal path.text entry >>= f).outcome = (x.close path o).bind fun _ => (f ()).outcome := by
  rw [Action.outcome_bind, outcome_journal, outcome_saveCheckpoint]
  simp only [close, h, Program.ask_bind]
  congr 1
  funext _
  split <;> rfl

theorem carryOutNew_eq (x : Execution) (path : StepPath) (id : Option String) (c : Context)
    (body : Action Value) :
    (x.carryOutNew path id c body).outcome
      = body.outcome.bind fun o => .ask (.report ⟨path, id, o⟩) fun _ =>
          (x.close path o).bind fun _ => .done (leafOutcome id c o) := by
  unfold carryOutNew
  rw [Action.outcome_lift_bind]
  congr 1
  funext o
  rw [Action.outcome_call_bind]
  congr 1
  funext _
  cases o with
  | ok output => exact x.outcome_journal_bind path rfl _
  | error f =>
    by_cases h : (x.plan.continueOnError && !isFatal f) = true
    · have hentry : x.entry? (.error f) = some [("error", .text f.describe)] := if_pos h
      simp only [journalFault, h, ↓reduceIte]
      exact x.outcome_journal_bind path hentry _
    · have hentry : x.entry? (.error f) = none := if_neg h
      simp only [journalFault, h, close, hentry]
      rfl

theorem carryOut_eq (x : Execution) (path : StepPath) (id : Option String) (c : Context)
    (body : Action Value) :
    (x.carryOut path id c body).outcome
      = .ask (.recall path.text) fun found =>
          match JournalEntry.replay? found with
          | some o => .done (leafOutcome id c o)
          | none => (x.carryOutNew path id c body).outcome := by
  unfold carryOut
  rw [Action.outcome_call_bind]
  congr 1
  funext found
  unfold JournalEntry.replay?
  cases JournalEntry.recorded? found "output" with
  | error f => rfl
  | ok output =>
    cases output with
    | some output => rfl
    | none =>
      rw [Action.outcome_ok_bind]
      cases JournalEntry.recorded? found "error" with
      | error f => rfl
      | ok error => cases error <;> rfl

theorem Closing.of_course {pace : Clock → Clock → Prop} {x : Execution} {path : StepPath}
    {o : Except Fault Value} {t : Clock} {ds : List Deed} {r : Option (Unit × Clock)}
    (h : Program.Course pace (some path) t (x.close path o) ds r) :
    ∀ d ∈ ds, Closing x path o d := by
  unfold close at h
  split at h
  · next entry hentry =>
    cases h with
    | stopped => simp
    | ask _ _ rest =>
      intro d hd
      rcases List.mem_cons.mp hd with rfl | hd
      · exact .journal hentry
      · split at rest
        · next hcheckpoints =>
          cases rest with
          | stopped => exact absurd hd List.not_mem_nil
          | ask _ _ rest =>
            rcases List.mem_cons.mp hd with rfl | hd
            · exact .save hcheckpoints
            · cases rest <;> exact absurd hd List.not_mem_nil
        · cases rest <;> exact absurd hd List.not_mem_nil
  · cases h <;> simp

theorem leaf_course {pace : Clock → Clock → Prop} {x : Execution} {path : StepPath}
    {id : Option String} {c : Context} {body : String → Action Value} {t : Clock} {ds : List Deed}
    {r : Option (Outcome × Clock)} (h : Fiber.Course pace t (x.leaf path id c body) ds r) :
    LeafCourse pace x path id c (body path.text) ds r := by
  unfold leaf at h
  rw [Fiber.ofAction_done, carryOut_eq] at h
  cases h.of_toFiber_done with
  | stopped => exact .unbegun
  | @ask _ start stop _ _ found ds r _ _ rest =>
    cases hfound : JournalEntry.replay? found with
    | some o =>
      simp only [hfound] at rest
      obtain ⟨rfl, hr⟩ := rest.of_done
      exact .replayed hfound fun res hres => by rw [hr res hres]
    | none =>
      simp only [hfound, carryOutNew_eq] at rest
      cases rest.of_bind with
      | first hbody => exact .worked hfound hbody
      | both hbody hend =>
        cases hend with
        | stopped =>
          rw [List.append_nil]
          exact .worked hfound hbody
        | ask _ _ hclose =>
          cases hclose.of_bind with
          | first hclosing => exact .reported hfound hbody (Closing.of_course hclosing) (by simp)
          | both hclosing hdone =>
            obtain ⟨rfl, hr⟩ := hdone.of_done
            rw [List.append_nil]
            refine .reported hfound hbody (Closing.of_course hclosing) fun res hres => ?_
            rw [hr res hres]

/-- **A deed of a tree**: it is done in the course of a leaf at or below a path, all of which is among
    the deeds, or it is the report of a step there that is no leaf. -/
inductive PartOf (pace : Clock → Clock → Prop) (x : Execution) (path : StepPath) (ds : List Deed)
    (d : Deed) : Prop where
  | leaf {q : StepPath} {s : Step} {c : Context} {body : String → Action Value} {ls : List Deed}
      {r : Option (Outcome × Clock)} (hq : path <+: q) (hproper : q.Proper)
      (hkind : q.kind? = some s.kind) (hbody : x.handler? s c = some body)
      (hcourse : LeafCourse pace x q s.id? c (body q.text) ls r) (hsub : ls ⊆ ds) (hd : d ∈ ls) :
      PartOf pace x path ds d
  | report {q : StepPath} {s : Step} {o : Except Fault Value} {answer : Unit} {start stop : Clock}
      (hq : path <+: q) (hproper : q.Proper) (hkind : q.kind? = some s.kind) (hleaf : s.isLeaf = false)
      (hd : d = ⟨some q, .report ⟨q, s.id?, o⟩, answer, start, stop⟩) : PartOf pace x path ds d

variable {pace : Clock → Clock → Prop} {x : Execution}

theorem PartOf.mono {path path' : StepPath} {ds ds' : List Deed} {d : Deed}
    (h : PartOf pace x path ds d) (hpath : path' <+: path) (hds : ds ⊆ ds') :
    PartOf pace x path' ds' d := by
  cases h with
  | leaf hq hproper hkind hbody hcourse hsub hd =>
    exact .leaf (hpath.trans hq) hproper hkind hbody hcourse (fun _ h => hds (hsub h)) hd
  | report hq hproper hkind hleaf hd => exact .report (hpath.trans hq) hproper hkind hleaf hd

/-- The course of a step that only reports how it ended. -/
theorem concluded_course {path : StepPath} {id : Option String} {o : Outcome} {t : Clock}
    {ds : List Deed} {r : Option (Outcome × Clock)}
    (h : Fiber.Course pace t (concluded path id o) ds r) :
    (ds = [] ∧ r = none) ∨ ∃ answer start stop,
      ds = [⟨some path, .report ⟨path, id, o.map Finished.output⟩, answer, start, stop⟩] ∧
        ∀ res ∈ r, res.1 = o := by
  unfold concluded at h
  cases h with
  | stopped => exact .inl ⟨rfl, rfl⟩
  | ask _ _ rest =>
    obtain ⟨rfl, hr⟩ := rest.of_done
    exact .inr ⟨_, _, _, rfl, fun res hres => by rw [hr res hres]⟩

theorem concluded_parts {path : StepPath} {s : Step} {o : Outcome} {t : Clock} {ds : List Deed}
    {r : Option (Outcome × Clock)} (hproper : path.Proper) (hkind : path.kind? = some s.kind)
    (hleaf : s.isLeaf = false) (h : Fiber.Course pace t (concluded path s.id? o) ds r) :
    ∀ d ∈ ds, PartOf pace x path ds d := by
  rcases concluded_course h with ⟨rfl, -⟩ | ⟨answer, start, stop, rfl, -⟩
  · simp
  · intro d hd
    exact .report List.prefix_rfl hproper hkind hleaf (List.mem_singleton.mp hd)

/-- The deeds of two parts in turn are deeds of the whole. -/
theorem inTurn_parts {α β : Type} {first : List Deed → Option (α × Clock) → Prop}
    {second : α → Clock → List Deed → Option (β × Clock) → Prop} {ds : List Deed}
    {r : Option (β × Clock)} {path : StepPath} (h : InTurn first second ds r)
    (h₁ : ∀ {es r}, first es r → ∀ d ∈ es, PartOf pace x path es d)
    (h₂ : ∀ {a u es r}, second a u es r → ∀ d ∈ es, PartOf pace x path es d) :
    ∀ d ∈ ds, PartOf pace x path ds d := by
  cases h with
  | first hf => exact h₁ hf
  | both hf hs =>
    intro d hd
    rcases List.mem_append.mp hd with hd | hd
    · exact (h₁ hf d hd).mono List.prefix_rfl (List.subset_append_left ..)
    · exact (h₂ hs d hd).mono List.prefix_rfl (List.subset_append_right ..)

/-! ## Walks, one constructor at a time -/

theorem walk_condition (id : Option String) (predicate : Predicate) (whenTrue : List Step)
    (whenFalse : Option (List Step)) (path : StepPath) (c : Context) :
    x.walk (.condition id predicate whenTrue whenFalse) path c
      = match predicate.holds x.engine.functions c with
        | .error f => concluded path id (.error f)
        | .ok b =>
          (x.walkList (takenSteps b whenTrue whenFalse) (path, takenBranch b) 0 c).andThen fun o =>
            concluded path id (chosen b o) := by
  rw [walk.eq_def]
  dsimp only
  cases predicate.holds x.engine.functions c with
  | error f => rfl
  | ok b =>
    cases b with
    | true => rfl
    | false =>
      cases whenFalse with
      | some steps => rfl
      | none =>
        simp only [takenSteps, Bool.false_eq_true, ↓reduceIte, Option.getD_none]
        rw [walkList.eq_def]
        rfl

theorem walk_parallel (id : Option String) (branches : List Step) (path : StepPath) (c : Context) :
    x.walk (.parallel id branches) path c
      = .fork (x.walkBranches branches path 0 c.fork) fun os =>
          concluded path id (x.gather id c os) := by
  rw [walk.eq_def]

theorem walk_foreign (call : Capability) (agent : String) (path : StepPath) (c : Context) :
    x.walk (.foreign call agent) path c
      = concluded path call.id (.error (.unknownStepType "agent")) := by
  rw [walk.eq_def]

theorem walkList_nil (parent : StepPath × Branch) (i : Nat) (c : Context) :
    x.walkList [] parent i c = .done (.ok ⟨c, .null⟩) := by
  rw [walkList.eq_def]

theorem walkList_cons (s : Step) (rest : List Step) (path : StepPath) (b : Branch) (i : Nat)
    (c : Context) :
    x.walkList (s :: rest) (path, b) i c
      = (x.walk s (path.child b i s.kind) c).andThen fun o =>
          match x.guarded s i c o with
          | .ok r => x.walkList rest (path, b) (i + 1) r.context
          | .error f => .done (.error f) :=
  (walkList.eq_def ..).trans rfl

theorem walkBranches_nil (path : StepPath) (i : Nat) (c : Context) :
    x.walkBranches [] path i c = [] := by
  rw [walkBranches.eq_def]

theorem walkBranches_cons (s : Step) (rest : List Step) (path : StepPath) (i : Nat) (c : Context) :
    x.walkBranches (s :: rest) path i c
      = x.walk s (path.child .parallel i s.kind) c :: x.walkBranches rest path (i + 1) c := by
  rw [walkBranches.eq_def]

/-- What a leaf does. -/
theorem walk_leaf_course {s : Step} (hs : s.isLeaf = true) {path : StepPath} {c : Context} {t : Clock}
    {ds : List Deed} {r : Option (Outcome × Clock)} (h : Fiber.Course pace t (x.walk s path c) ds r) :
    ∃ body, x.handler? s c = some body ∧ LeafCourse pace x path s.id? c (body path.text) ds r := by
  obtain ⟨body, hbody⟩ := x.handler?_of_isLeaf hs c
  rw [walk_of_handler hbody] at h
  exact ⟨body, hbody, leaf_course h⟩

/-- **What a condition does**: it reports that its predicate has failed, or it carries out the list
    that it has chosen and reports how that has ended. -/
theorem walk_condition_course {id : Option String} {predicate : Predicate} {whenTrue : List Step}
    {whenFalse : Option (List Step)} {path : StepPath} {c : Context} {t : Clock} {ds : List Deed}
    {r : Option (Outcome × Clock)}
    (h : Fiber.Course pace t (x.walk (.condition id predicate whenTrue whenFalse) path c) ds r) :
    (∃ f, predicate.holds x.engine.functions c = .error f
        ∧ Fiber.Course pace t (concluded path id (.error f)) ds r)
      ∨ ∃ b, predicate.holds x.engine.functions c = .ok b
        ∧ InTurn (Fiber.Course pace t
            (x.walkList (takenSteps b whenTrue whenFalse) (path, takenBranch b) 0 c))
          (fun o u => Fiber.Course pace u (concluded path id (chosen b o))) ds r := by
  rw [walk_condition] at h
  cases hholds : predicate.holds x.engine.functions c with
  | error f => rw [hholds] at h; exact .inl ⟨f, rfl, h⟩
  | ok b => rw [hholds] at h; exact .inr ⟨b, rfl, h.of_andThen⟩

/-- **What a parallel step does**: it carries out its branches and reports what they come to. -/
theorem walk_parallel_course {id : Option String} {branches : List Step} {path : StepPath}
    {c : Context} {t : Clock} {ds : List Deed} {r : Option (Outcome × Clock)}
    (h : Fiber.Course pace t (x.walk (.parallel id branches) path c) ds r) :
    InTurn (Fiber.Courses pace t (x.walkBranches branches path 0 c.fork))
      (fun os u => Fiber.Course pace u (concluded path id (x.gather id c os))) ds r := by
  rw [walk_parallel] at h
  exact h.of_fork

/-- **A step and what follows it in its list**: the step is stopped, or its failure ends the list, or
    the list goes on with what the step has left. -/
inductive StepThen (pace : Clock → Clock → Prop) (x : Execution) (s : Step) (path : StepPath) (i : Int)
    (c : Context) (t : Clock) (next : Context → Fiber Outcome) :
    List Deed → Option (Outcome × Clock) → Prop where
  | stopped {ds : List Deed} (hwalk : Fiber.Course pace t (x.walk s path c) ds none) :
      StepThen pace x s path i c t next ds none
  | failed {o : Outcome} {f : Fault} {u : Clock} {ds : List Deed} {r : Option (Outcome × Clock)}
      (hwalk : Fiber.Course pace t (x.walk s path c) ds (some (o, u)))
      (hguarded : x.guarded s i c o = .error f) (hr : ∀ res ∈ r, res = (.error f, u)) :
      StepThen pace x s path i c t next ds r
  | goesOn {o : Outcome} {fin : Finished} {u : Clock} {ds es : List Deed}
      {r : Option (Outcome × Clock)} (hwalk : Fiber.Course pace t (x.walk s path c) ds (some (o, u)))
      (hguarded : x.guarded s i c o = .ok fin) (hnext : Fiber.Course pace u (next fin.context) es r) :
      StepThen pace x s path i c t next (ds ++ es) r

theorem StepThen.of_course {s : Step} {path : StepPath} {i : Int} {c : Context} {t : Clock}
    {next : Context → Fiber Outcome} {ds : List Deed} {r : Option (Outcome × Clock)}
    (h : Fiber.Course pace t ((x.walk s path c).andThen fun o =>
      match x.guarded s i c o with
      | .ok fin => next fin.context
      | .error f => .done (.error f)) ds r) : StepThen pace x s path i c t next ds r := by
  cases h.of_andThen with
  | first hwalk => exact .stopped hwalk
  | @both o _ _ _ _ hwalk hnext =>
    cases hguarded : x.guarded s i c o with
    | ok fin => rw [hguarded] at hnext; exact .goesOn hwalk hguarded hnext
    | error f =>
      rw [hguarded] at hnext
      obtain ⟨rfl, hr⟩ := hnext.of_done
      rw [List.append_nil]
      exact .failed hwalk hguarded hr

/-- What a list inside a step does. -/
theorem walkList_course {s : Step} {rest : List Step} {path : StepPath} {b : Branch} {i : Nat}
    {c : Context} {t : Clock} {ds : List Deed} {r : Option (Outcome × Clock)}
    (h : Fiber.Course pace t (x.walkList (s :: rest) (path, b) i c) ds r) :
    StepThen pace x s (path.child b i s.kind) i c t (x.walkList rest (path, b) (i + 1)) ds r := by
  rw [walkList_cons] at h
  exact .of_course h

/-! ## Parts -/

/-- What is done for a step is part of its tree. -/
def HasParts (pace : Clock → Clock → Prop) (x : Execution) (s : Step) : Prop :=
  ∀ {path : StepPath} {c : Context} {t : Clock} {ds : List Deed} {r : Option (Outcome × Clock)},
    path.Proper → path.kind? = some s.kind → Fiber.Course pace t (x.walk s path c) ds r →
    ∀ d ∈ ds, PartOf pace x path ds d

/-- **Whatever is done for a step is done by a leaf in it, or is a report.** -/
theorem walk_parts (s : Step) : HasParts pace x s := by
  refine Step.treeInduction (P := HasParts pace x)
    (Q := fun steps =>
      (∀ {path : StepPath} {b : Branch} {i : Nat} {c : Context} {t : Clock} {ds : List Deed}
        {r : Option (Outcome × Clock)}, path.Proper →
        Fiber.Course pace t (x.walkList steps (path, b) i c) ds r →
        ∀ d ∈ ds, PartOf pace x path ds d) ∧
      ∀ {path : StepPath} {i : Nat} {c : Context} {t : Clock} {ds : List Deed}
        {r : Option (List Outcome × Clock)}, path.Proper →
        Fiber.Courses pace t (x.walkBranches steps path i c) ds r →
        ∀ d ∈ ds, PartOf pace x path ds d) ?leaf ?condition ?parallel ?foreign ?nil ?cons s
  case leaf =>
    intro s hs path c t ds r hproper hkind h
    obtain ⟨body, hbody, hcourse⟩ := walk_leaf_course hs h
    exact fun d hd => .leaf List.prefix_rfl hproper hkind hbody hcourse (fun _ h => h) hd
  case condition =>
    intro id predicate whenTrue whenFalse ih path c t ds r hproper hkind h
    have hend {o u es q} : Fiber.Course pace u (concluded path id o) es q →
        ∀ d ∈ es, PartOf pace x path es d :=
      concluded_parts (s := .condition id predicate whenTrue whenFalse) hproper hkind rfl
    rcases walk_condition_course h with ⟨f, -, hfailed⟩ | ⟨b, -, hturn⟩
    · exact hend hfailed
    · exact inTurn_parts hturn ((ih b).1 hproper) hend
  case parallel =>
    intro id branches ih path c t ds r hproper hkind h
    have hend {o u es q} : Fiber.Course pace u (concluded path id o) es q →
        ∀ d ∈ es, PartOf pace x path es d :=
      concluded_parts (s := .parallel id branches) hproper hkind rfl
    exact inTurn_parts (walk_parallel_course h) (ih.2 hproper) hend
  case foreign =>
    intro call agent path c t ds r hproper hkind h
    rw [walk_foreign] at h
    exact concluded_parts (s := .foreign call agent) hproper hkind rfl h
  case nil =>
    refine ⟨fun hproper h => ?_, fun hproper h => ?_⟩
    · rw [walkList_nil] at h
      rw [h.of_done.1]
      simp
    · rw [walkBranches_nil] at h
      cases h <;> simp
  case cons =>
    intro s rest hs hrest
    refine ⟨fun {path b i c t ds r} hproper h => ?_, fun {path i c t ds r} hproper h => ?_⟩
    · have hfirst {es q} (hwalk : Fiber.Course pace t (x.walk s (path.child b i s.kind) c) es q) :
          ∀ d ∈ es, PartOf pace x path es d := fun d hd =>
        (hs (hproper.child b i s) (StepPath.kind?_child ..) hwalk d hd).mono
          (StepPath.prefix_child ..) (fun _ h => h)
      cases walkList_course h with
      | stopped hwalk => exact hfirst hwalk
      | failed hwalk => exact hfirst hwalk
      | goesOn hwalk _ hnext =>
        intro d hd
        rcases List.mem_append.mp hd with hd | hd
        · exact (hfirst hwalk d hd).mono List.prefix_rfl (List.subset_append_left ..)
        · exact (hrest.1 hproper hnext d hd).mono List.prefix_rfl (List.subset_append_right ..)
    · rw [walkBranches_cons] at h
      cases h with
      | stopped => simp
      | cons first others hfs =>
        -- in whatever order, each deed is done for one of the branches
        intro d hd
        rcases hfs.mem_iff.mp hd with hd | hd
        · exact (hs (hproper.child .parallel i s) (StepPath.kind?_child ..) first d hd).mono
            (StepPath.prefix_child ..) hfs.sublist_left.subset
        · exact (hrest.2 hproper others d hd).mono List.prefix_rfl hfs.sublist_right.subset

/-! ## Calls of a tree -/

/-- **The calls that are made for a step**: those of a leaf that is being carried out, the entry that
    its outcome leaves, and reports. -/
inductive TreeCall (x : Execution) (q : StepPath) : Call → Prop where
  | serves {c : Call} (h : x.Serves q.text c) : TreeCall x q c
  | journal {o : Except Fault Value} {entry : Keyed Value} (h : x.entry? o = some entry) :
      TreeCall x q (.journal q.text entry)
  | report (id : Option String) (o : Except Fault Value) : TreeCall x q (.report ⟨q, id, o⟩)

theorem Closing.treeCall {path : StepPath} {o : Except Fault Value} {d : Deed}
    (h : Closing x path o d) : d.step = some path ∧ TreeCall x path d.call := by
  cases h with
  | journal h => exact ⟨rfl, .journal h⟩
  | save h => exact ⟨rfl, .serves (.save h)⟩

theorem LeafCourse.treeCall {q : StepPath} {s : Step} {id : Option String} {c c' : Context}
    {body : String → Action Value} {ds : List Deed} {r : Option (Outcome × Clock)}
    (h : LeafCourse pace x q id c (body q.text) ds r) (hbody : x.handler? s c' = some body) :
    ∀ d ∈ ds, d.step = some q ∧ TreeCall x q d.call := by
  have hserves {t ds r} (hc : Program.Course pace (some q) t (body q.text).outcome ds r) :
      ∀ d ∈ ds, d.step = some q ∧ TreeCall x q d.call := fun d hd =>
    (hc.makes (makes_handler hbody) d hd).imp_right .serves
  intro d hd
  cases h with
  | unbegun => exact absurd hd List.not_mem_nil
  | replayed =>
    rw [List.mem_singleton.mp hd]
    exact ⟨rfl, .serves .recall⟩
  | worked _ hcourse =>
    rcases List.mem_cons.mp hd with rfl | hd
    · exact ⟨rfl, .serves .recall⟩
    · exact hserves hcourse d hd
  | reported _ hcourse hes =>
    rcases List.mem_cons.mp hd with rfl | hd
    · exact ⟨rfl, .serves .recall⟩
    · rcases List.mem_append.mp hd with hd | hd
      · exact hserves hcourse d hd
      · rcases List.mem_cons.mp hd with rfl | hd
        · exact ⟨rfl, .report ..⟩
        · exact (hes d hd).treeCall

theorem PartOf.treeCall {path : StepPath} {ds : List Deed} {d : Deed}
    (h : PartOf pace x path ds d) :
    ∃ q : StepPath, path <+: q ∧ q.Proper ∧ d.step = some q ∧ TreeCall x q d.call := by
  cases h with
  | leaf hq hproper _ hbody hcourse _ hd =>
    exact ⟨_, hq, hproper, hcourse.treeCall hbody d hd⟩
  | report hq hproper _ _ hd => subst hd; exact ⟨_, hq, hproper, rfl, .report ..⟩

/-- Whatever a leaf has done by others, it first asked the journal, which did not know how it ended. -/
theorem PartOf.recall_of_outside {path : StepPath} {ds : List Deed} {d : Deed}
    (h : PartOf pace x path ds d) (hd : d.call.isOutside = true) :
    ∃ (q : StepPath) (found : Option Value) (start stop : Clock), d.step = some q ∧ JournalEntry.replay? found = none
      ∧ (⟨some q, .recall q.text, found, start, stop⟩ : Deed) ∈ ds := by
  cases h with
  | report _ _ _ _ hd' => subst hd'; simp [Call.isOutside] at hd
  | leaf _ _ _ hbody hcourse hsub hmem =>
    have hstep := (hcourse.treeCall hbody d hmem).1
    cases hcourse with
    | unbegun => exact absurd hmem List.not_mem_nil
    | replayed => rw [List.mem_singleton.mp hmem] at hd; simp [Call.isOutside] at hd
    | worked hfound => exact ⟨_, _, _, _, hstep, hfound, hsub List.mem_cons_self⟩
    | reported hfound => exact ⟨_, _, _, _, hstep, hfound, hsub (List.mem_append_left _ List.mem_cons_self)⟩

end Execution

end Runbook
