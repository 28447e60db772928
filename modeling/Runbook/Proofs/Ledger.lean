import Runbook.Proofs.Prompt
import Runbook.Proofs.RunCourse

/-!
# `Proofs.Ledger` — nothing is lost, and nothing counts twice

When a plan goes on after errors, the context at the end of a run is an account of its reports: all
outputs and all errors are there, each once, in the order in which the plan is written down, however
the branches took their turns. `run_ledger` says so.

A branch of a parallel step works on a fork, which collects what it adds; a branch that fails is thrown
away with its fork. Nothing is lost with it: a step that contains steps can fail in two ways only. It
fails for good, and then the whole run does; or its own predicate fails, before anything inside it was
carried out.

## Contents
- **Entries.** `Report.output?`, `Report.error?`, what a report contributes.
- **Steps of a plan.** `Step.Has` and `Plan.Has`; `Explains`, a report that suits its step.
- **Accounts.** `Account`, reports in order; `Adds`, what they make of a context.
- **The walk.** `walk_account`.
- **Runs.** `Ledger`, and `run_ledger`.
-/

namespace Runbook

/-! ## Entries -/

namespace Report

/-- The output that a report contributes. A condition has none of its own. -/
def output? (r : Report) : Option Value :=
  if r.path.kind? = some "condition" then none else r.outcome.toOption

/-- How an error names the step of a report: a branch of a parallel step by its index, any other step
    by its id, or by its index and kind if it has none. -/
def ref (r : Report) : StepRef :=
  match r.path.getLast? with
  | some place =>
    if place.branch = some .parallel then .index place.index
    else .name ((nonEmpty? r.id).getD (toString place.index ++ "-" ++ place.kind))
  | none => .name ""

/-- The error that a report contributes. -/
def error? (r : Report) : Option StepError :=
  match r.outcome with
  | .ok _ => none
  | .error f => some ⟨r.ref, f.describe⟩

end Report

/-- The outputs of reports. -/
def outputsOf (L : List Report) : List Value := L.filterMap Report.output?

/-- The errors of reports. -/
def errorsOf (L : List Report) : List StepError := L.filterMap Report.error?

@[simp] theorem outputsOf_append (L M : List Report) :
    outputsOf (L ++ M) = outputsOf L ++ outputsOf M := List.filterMap_append ..

@[simp] theorem errorsOf_append (L M : List Report) :
    errorsOf (L ++ M) = errorsOf L ++ errorsOf M := List.filterMap_append ..

/-! ## Steps of a plan -/

/-- The steps in one of the lists of a step. -/
def Step.listOf : Step → Branch → List Step
  | .condition _ _ whenTrue _, .whenTrue => whenTrue
  | .condition _ _ _ whenFalse, .whenFalse => whenFalse.getD []
  | .parallel _ branches, .parallel => branches
  | _, _ => []

/-- The list that a condition carries out is one of its lists. -/
theorem Step.listOf_takenBranch (id : Option String) (predicate : Predicate) (whenTrue : List Step)
    (whenFalse : Option (List Step)) (b : Bool) :
    (Step.condition id predicate whenTrue whenFalse).listOf (takenBranch b)
      = takenSteps b whenTrue whenFalse := by
  cases b <;> rfl

theorem takenBranch_ne_parallel (b : Bool) : takenBranch b ≠ .parallel := by cases b <;> decide

/-- Where a step stands inside another one. -/
inductive Step.Has : Step → StepPath → Step → Prop where
  | here {s : Step} : Has s [] s
  | inside {s s' s'' : Step} {b : Branch} {i : Nat} {rest : StepPath}
      (hi : (s.listOf b)[i]? = some s') (h : Has s' rest s'') :
      Has s (⟨some b, i, s'.kind⟩ :: rest) s''

/-- Where a step stands in a plan. -/
inductive Plan.Has (p : Plan) : StepPath → Step → Prop where
  | root {s s' : Step} {i : Nat} {rest : StepPath} (hi : p.steps[i]? = some s) (h : s.Has rest s') :
      Has p (⟨none, i, s.kind⟩ :: rest) s'

theorem Step.Has.kinds {s s' : Step} {rest : StepPath} (h : s.Has rest s') :
    ∀ place ∈ rest, place.kind ∈ Step.kinds := by
  induction h with
  | here => simp
  | @inside s s' s'' b i rest hi h ih => exact List.forall_mem_cons.mpr ⟨s'.kind_mem_kinds, ih⟩

theorem Plan.Has.proper {p : Plan} {q : StepPath} {s : Step} (h : p.Has q s) : q.Proper := by
  cases h with
  | @root s₀ _ i rest hi h =>
    exact ⟨by simp, List.forall_mem_cons.mpr ⟨s₀.kind_mem_kinds, h.kinds⟩⟩

/-- **A report that suits its step**: it has the id of the step, and only leaves and predicates
    fail. -/
structure Functions.Explains (fns : Functions) (s : Step) (r : Report) : Prop where
  id : r.id = s.id?
  failure : ∀ f, r.outcome = .error f → s.isLeaf = true
    ∨ ∃ id predicate whenTrue whenFalse c, s = .condition id predicate whenTrue whenFalse
      ∧ predicate.holds fns c = .error f

namespace Execution

variable {x : Execution} {path : StepPath} {parent : Option (StepPath × Branch)} {i : Nat} {s : Step}
  {rest : List Step} {r : Report}

/-- A report of a step at a path, or of one inside it. -/
def OfStep (x : Execution) (path : StepPath) (s : Step) (r : Report) : Prop :=
  ∃ inner s', r.path = path ++ inner ∧ s.Has inner s' ∧ x.engine.functions.Explains s' r

/-- A report of one of the steps of a list, from an index on, or of one inside it. -/
def OfList (x : Execution) (parent : Option (StepPath × Branch)) (i : Nat) (steps : List Step)
    (r : Report) : Prop :=
  ∃ j s, steps[j]? = some s ∧ x.OfStep (.within parent (i + j) s.kind) s r

theorem OfStep.here (h : x.engine.functions.Explains s r) (hpath : r.path = path) :
    x.OfStep path s r := ⟨[], s, by rw [hpath, List.append_nil], .here, h⟩

theorem OfStep.head (h : x.OfStep (.within parent i s.kind) s r) :
    x.OfList parent i (s :: rest) r := ⟨0, s, rfl, h⟩

theorem OfList.tail (h : x.OfList parent (i + 1) rest r) : x.OfList parent i (s :: rest) r := by
  obtain ⟨j, s', hj, h⟩ := h
  refine ⟨j + 1, s', hj, ?_⟩
  rwa [show i + (j + 1) = i + 1 + j by omega]

/-- What is inside a list of a step is inside the step. -/
theorem OfList.ofStep {b : Branch} (h : x.OfList (some (path, b)) 0 (s.listOf b) r) :
    x.OfStep path s r ∧ r.path.Before path := by
  obtain ⟨j, s', hj, inner, s'', hpath, hhas, hexplains⟩ := h
  rw [Nat.zero_add, StepPath.within, StepPath.child, List.append_assoc] at hpath
  refine ⟨⟨_, s'', hpath, .inside hj hhas, hexplains⟩, ?_⟩
  rw [hpath]
  exact StepPath.before_of_inside (List.prefix_append ..) (by simp)

/-- The steps of a list report in the order of the list. -/
theorem OfList.before {r' : Report} (h : x.OfStep (.within parent i s.kind) s r)
    (h' : x.OfList parent (i + 1) rest r') : r.path.Before r'.path := by
  obtain ⟨_, _, hpath, -⟩ := h
  obtain ⟨j, _, -, _, _, hpath', -⟩ := h'
  rw [hpath, hpath']
  cases parent with
  | none =>
    refine @StepPath.before_of_index_lt [] _ _ _ _ (List.prefix_append ..)
      (List.prefix_append ..) ?_
    dsimp only
    omega
  | some parent =>
    refine @StepPath.before_of_index_lt parent.1 _ _ _ _ (List.prefix_append ..)
      (List.prefix_append ..) ?_
    dsimp only
    omega

end Execution

/-! ## Accounts -/

/-- **An account of deeds**: the reports among them, in the order of the plan, with a report of every
    step for which something was done. -/
structure Account (P : Report → Prop) (ds : List Deed) (L : List Report) : Prop where
  perm : L.Perm (reports ds)
  tells : ∀ r ∈ L, P r
  ordered : L.Pairwise fun a b => a.path.Before b.path
  every : ∀ d ∈ ds, ∀ q, d.step = some q → ∃ r ∈ L, r.path = q

namespace Account

variable {P Q : Report → Prop} {ds es : List Deed} {L M : List Report}

theorem weaken (h : Account P ds L) (hPQ : ∀ r, P r → Q r) : Account Q ds L :=
  { h with tells := fun r hr => hPQ r (h.tells r hr) }

theorem nil : Account P [] [] := ⟨.refl _, by simp, .nil, by simp⟩

/-- Where nothing is reported and nothing done for a step. -/
theorem of_silent (h : Silent ds) : Account P ds [] where
  perm := by rw [reports_eq_nil fun d hd => (h d hd).2]
  tells := by simp
  ordered := .nil
  every d hd q hq := by simp [(h d hd).1] at hq

/-- Two accounts in order make one of deeds that are those of both. -/
theorem join {fs : List Deed} (h₁ : Account P ds L) (h₂ : Account P es M)
    (hreports : (reports fs).Perm (reports ds ++ reports es))
    (hfs : ∀ d ∈ fs, d ∈ ds ∨ d ∈ es) (horder : ∀ a ∈ L, ∀ b ∈ M, a.path.Before b.path) :
    Account P fs (L ++ M) where
  perm := (h₁.perm.append h₂.perm).trans hreports.symm
  tells r hr := (List.mem_append.mp hr).elim (h₁.tells r) (h₂.tells r)
  ordered := List.pairwise_append.mpr ⟨h₁.ordered, h₂.ordered, horder⟩
  every d hd q hq := by
    rcases hfs d hd with hd | hd
    · obtain ⟨r, hr, hpath⟩ := h₁.every d hd q hq
      exact ⟨r, List.mem_append_left _ hr, hpath⟩
    · obtain ⟨r, hr, hpath⟩ := h₂.every d hd q hq
      exact ⟨r, List.mem_append_right _ hr, hpath⟩

theorem append (h₁ : Account P ds L) (h₂ : Account P es M)
    (horder : ∀ a ∈ L, ∀ b ∈ M, a.path.Before b.path) : Account P (ds ++ es) (L ++ M) :=
  h₁.join h₂ (by rw [reports_append]) (fun _ => List.mem_append.mp) horder

/-- The account of a single report. -/
theorem single {r : Report} (hP : P r) (hreports : reports ds = [r])
    (hds : ∀ d ∈ ds, d.step = some r.path) : Account P ds [r] where
  perm := hreports ▸ .refl _
  tells := by simpa using hP
  ordered := List.pairwise_singleton ..
  every d hd q hq := ⟨r, List.mem_singleton_self r, Option.some.inj ((hds d hd).symm.trans hq)⟩

end Account

/-- **What reports add to a context.** -/
structure Adds (L : List Report) (c c' : Context) : Prop where
  all : c'.all = c.all ++ outputsOf L
  errors : c'.errors = c.errors.map (· ++ errorsOf L)

theorem Adds.nil (c : Context) : Adds [] c c := ⟨by simp [outputsOf], by simp [errorsOf]⟩

theorem Adds.trans {L M : List Report} {c c' c'' : Context} (h₁ : Adds L c c') (h₂ : Adds M c' c'') :
    Adds (L ++ M) c c'' where
  all := by rw [h₂.all, h₁.all, outputsOf_append, List.append_assoc]
  errors := by
    rw [h₂.errors, h₁.errors, errorsOf_append, Option.map_map]
    congr 1
    funext es
    simp

/-- An output that is recorded is that of a report. -/
theorem Adds.output {r : Report} {output : Value} (c : Context) (hkind : r.path.kind? ≠ some "condition")
    (ho : r.outcome = .ok output) : Adds [r] c (c.recordOutput r.id output) where
  all := by simp [outputsOf, Report.output?, hkind, ho, Context.recordOutput, Except.toOption]
  errors := by simp [errorsOf, Report.error?, ho, Context.recordOutput]

/-- The report of a condition that has not failed contributes nothing. -/
theorem Adds.condition {path : StepPath} {id : Option String} {output : Value} (c : Context)
    (hkind : path.kind? = some "condition") : Adds [⟨path, id, .ok output⟩] c c where
  all := by simp [outputsOf, Report.output?, hkind]
  errors := by
    have hnil : errorsOf [⟨path, id, .ok output⟩] = [] := rfl
    simp [hnil]

/-- A failure that is recorded is that of a report. -/
theorem Adds.fault {r : Report} {f : Fault} {c : Context} (hc : c.errors ≠ none)
    (ho : r.outcome = .error f) : Adds [r] c (c.recordFault r.ref f) where
  all := by
    simp [outputsOf, Report.output?, ho, Context.recordFault, Context.recordError, Except.toOption]
  errors := by
    obtain ⟨es, hes⟩ := Option.ne_none_iff_exists'.mp hc
    simp [errorsOf, Report.error?, ho, Context.recordFault, Context.recordError, hes]

theorem Adds.collects {L : List Report} {c c' : Context} (h : Adds L c c') (hc : c.errors ≠ none) :
    c'.errors ≠ none := by
  rw [h.errors]
  simpa using hc

/-- A fork that is merged brings what its reports have added to it. -/
theorem Adds.merge {L : List Report} {c c' c₀ : Context} (h : Adds L c c') (hall : c.all = [])
    (herrors : c.errors = some []) (hc₀ : c₀.errors ≠ none) : Adds L c₀ (c₀.merge c') where
  all := by simp [Context.merge, h.all, hall]
  errors := by
    obtain ⟨es, hes⟩ := Option.ne_none_iff_exists'.mp hc₀
    have herrors' : c'.errors = some (errorsOf L) := by simp [h.errors, herrors]
    simp only [Context.merge, herrors', hes, Option.map_some, Option.getD_some]
    cases errorsOf L <;> simp

/-- The latest output is the last one. -/
def Context.Latest (c : Context) : Prop := c.previous = c.all.getLast?.getD .null

theorem Context.latest_recordOutput (c : Context) (id : Option String) (output : Value) :
    (c.recordOutput id output).Latest := by
  simp [Latest, recordOutput]

/-! ## The walk -/

namespace Execution

variable {pace : Clock → Clock → Prop} {x : Execution} {path : StepPath}

/-- A failure that ends the run. -/
def Fatal (o : Outcome) : Prop := ∃ f, o = .error f ∧ isFatal f = true

/-- **How a step ends that reports something**: its reports are added to the context, or it has failed
    and its own report is the only one. -/
inductive Closes (path : StepPath) (id : Option String) (L : List Report) (c : Context) :
    Outcome → Prop where
  | ok {r : Finished} (adds : Adds L c r.context) (latest : c.Latest → r.context.Latest) :
      Closes path id L c (.ok r)
  | failed {f : Fault} (hf : isFatal f = false) (hL : L = [⟨path, id, .error f⟩]) :
      Closes path id L c (.error f)

/-- The account of a step that has ended, unless it has failed for good. -/
def HasAccount (pace : Clock → Clock → Prop) (x : Execution) (s : Step) : Prop :=
  ∀ {path : StepPath} {c : Context} {t u : Clock} {ds : List Deed} {o : Outcome},
    path.Proper → path.kind? = some s.kind → c.errors ≠ none → AllOpen ds →
    Fiber.Course pace t (x.walk s path c) ds (some (o, u)) →
    Fatal o ∨ ∃ L, Account (x.OfStep path s) ds L ∧ Closes path s.id? L c o

/-- The account of steps in a row. -/
def HasListAccount (pace : Clock → Clock → Prop) (x : Execution) (steps : List Step) : Prop :=
  ∀ {path : StepPath} {b : Branch} {i : Nat} {c : Context} {t u : Clock} {ds : List Deed}
    {o : Outcome}, path.Proper → b ≠ .parallel → c.errors ≠ none → AllOpen ds →
    Fiber.Course pace t (x.walkList steps (path, b) i c) ds (some (o, u)) →
    Fatal o ∨ ∃ L r, o = .ok r ∧ Account (x.OfList (some (path, b)) i steps) ds L ∧ Adds L c r.context
      ∧ (c.Latest → r.context.Latest)

/-- The account of branches: merging their outcomes adds their reports to any context. -/
def HasBranchAccount (pace : Clock → Clock → Prop) (x : Execution) (steps : List Step) : Prop :=
  ∀ {path : StepPath} {i : Nat} {c : Context} {t u : Clock} {ds : List Deed} {os : List Outcome},
    path.Proper → c.all = [] → c.errors = some [] → AllOpen ds →
    Fiber.Courses pace t (x.walkBranches steps path i c) ds (some (os, u)) →
    (∃ o ∈ os, Fatal o) ∨ (∀ o ∈ os, ¬ Fatal o) ∧
      ∃ L, Account (x.OfList (some (path, .parallel)) i steps) ds L
        ∧ ∀ c₀ results, c₀.errors ≠ none → Adds L c₀ (mergeBranches i os c₀ results).1

theorem kind_of_isLeaf {s : Step} (h : s.isLeaf = true) : s.kind ≠ "condition" := by
  cases s <;> simp [Step.isLeaf] at h <;> simp [Step.kind]

/-- A leaf reports once, and contributes what it reports. -/
theorem leaf_account {s : Step} (hs : s.isLeaf = true) : HasAccount pace x s := by
  intro path c t u ds o hproper hkind hc hopen h
  obtain ⟨body, hbody, hcourse⟩ := walk_leaf_course hs h
  have hsteps : ∀ d ∈ ds, d.step = some path := fun d hd => (hcourse.treeCall hbody d hd).1
  rcases hcourse.reports_cases hbody with ⟨-, hnone⟩ | ⟨o', hreports, hres⟩
  · exact absurd (hnone hopen) (by simp)
  · obtain rfl : o = leafOutcome s.id? c o' := hres (o, u) rfl
    have haccount (hexplains : x.engine.functions.Explains s ⟨path, s.id?, o'⟩) :=
      Account.single (P := x.OfStep path s) (.here hexplains rfl) hreports hsteps
    have hexplains : x.engine.functions.Explains s ⟨path, s.id?, o'⟩ := ⟨rfl, fun _ _ => .inl hs⟩
    cases o' with
    | ok output =>
      refine .inr ⟨_, haccount hexplains, .ok (Adds.output c (r := ⟨path, s.id?, .ok output⟩) ?_ rfl)
        fun _ => Context.latest_recordOutput ..⟩
      simpa [hkind] using kind_of_isLeaf hs
    | error f =>
      by_cases hf : isFatal f = true
      · exact .inl ⟨f, rfl, hf⟩
      · exact .inr ⟨_, haccount hexplains, .failed (by simpa using hf) rfl⟩

theorem ref_child {b : Branch} (hb : b ≠ .parallel) (i : Nat) (s : Step) (o : Except Fault Value) :
    Report.ref ⟨path.child b i s.kind, s.id?, o⟩ = stepRef s i := by
  simp [Report.ref, StepPath.child, hb, stepRef]

theorem ref_branch (i : Nat) (s : Step) (o : Except Fault Value) :
    Report.ref ⟨path.child .parallel i s.kind, s.id?, o⟩ = .index i := by
  simp [Report.ref, StepPath.child]

theorem ref_root (i : Int) (s : Step) (o : Except Fault Value) :
    Report.ref ⟨.root i s.kind, s.id?, o⟩ = stepRef s i := by
  simp [Report.ref, StepPath.root, stepRef]

/-- The end of a step that has done nothing itself but report. -/
theorem concluded_ended {id : Option String} {o o' : Outcome} {t u : Clock} {ds : List Deed}
    (h : Fiber.Course pace t (concluded path id o) ds (some (o', u))) :
    o' = o ∧ reports ds = [⟨path, id, o.map Finished.output⟩] ∧ ∀ d ∈ ds, d.step = some path := by
  rcases concluded_course h with ⟨-, hr⟩ | ⟨answer, start, stop, rfl, hr⟩
  · exact absurd hr (by simp)
  · exact ⟨hr (o', u) rfl, rfl, by simp⟩

/-- The report of a step comes after those of the steps in a list of it. -/
theorem account_concluded {s : Step} {b : Branch} {ds es : List Deed} {L : List Report} {r : Report}
    (h : Account (x.OfList (some (path, b)) 0 (s.listOf b)) ds L) (hr : r.path = path)
    (hexplains : x.engine.functions.Explains s r) (hreports : reports es = [r])
    (hes : ∀ d ∈ es, d.step = some path) : Account (x.OfStep path s) (ds ++ es) (L ++ [r]) := by
  refine (h.weaken fun r hr => hr.ofStep.1).append (.single (.here hexplains hr) hreports ?_) ?_
  · rwa [hr]
  · intro a ha r' hr'
    rw [List.mem_singleton.mp hr', hr]
    exact (h.tells a ha).ofStep.2

theorem condition_account {id : Option String} {predicate : Predicate} {whenTrue : List Step}
    {whenFalse : Option (List Step)}
    (ih : ∀ b, HasListAccount pace x (takenSteps b whenTrue whenFalse)) :
    HasAccount pace x (.condition id predicate whenTrue whenFalse) := by
  intro path c t u ds o hproper hkind hc hopen h
  have hkind : path.kind? = some "condition" := hkind
  rcases walk_condition_course h with ⟨f, hholds, hend⟩ | ⟨b, -, hturn⟩
  · obtain ⟨rfl, hreports, hsteps⟩ := concluded_ended hend
    by_cases hf : isFatal f = true
    · exact .inl ⟨f, rfl, hf⟩
    · refine .inr ⟨_, .single (.here ⟨rfl, fun f' hf' => ?_⟩ rfl) hreports hsteps,
        .failed (by simpa using hf) rfl⟩
      obtain rfl : f = f' := by simpa [Except.map] using hf'
      exact .inr ⟨id, predicate, whenTrue, whenFalse, c, rfl, hholds⟩
  · cases hturn with
    | both hlist hend =>
      obtain ⟨rfl, hreports, hsteps⟩ := concluded_ended hend
      rcases ih b hproper (takenBranch_ne_parallel b) hc hopen.of_append.1 hlist with
        ⟨f, rfl, hf⟩ | ⟨L, r, rfl, haccount, hadds, hlatest⟩
      · exact .inl ⟨f, rfl, hf⟩
      · rw [← Step.listOf_takenBranch id predicate] at haccount
        refine .inr ⟨_, account_concluded haccount rfl ⟨rfl, fun f hf => ?_⟩ hreports hsteps, .ok ?_ hlatest⟩
        · simp [chosen, Except.map] at hf
        · exact hadds.trans (.condition _ hkind)

/-- When no branch has failed for good, a parallel step succeeds. -/
theorem gather_eq_ok {id : Option String} {c : Context} {os : List Outcome}
    (hcontinue : x.plan.continueOnError = true) (hos : ∀ o ∈ os, ¬ Fatal o) :
    ∃ output, x.gather id c os
      = .ok ⟨(mergeBranches 0 os c []).1.recordOutput id output, output⟩ := by
  have hnone : x.gatheredFault? os = none := by
    unfold gatheredFault?
    rw [hcontinue, Option.or_eq_none_iff, List.find?_eq_none]
    refine ⟨fun f hf hfatal => ?_, rfl⟩
    obtain ⟨o, ho, hof⟩ := List.mem_filterMap.mp hf
    cases o with
    | ok r => simp at hof
    | error f' =>
      obtain rfl := Option.some.inj hof
      exact hos _ ho ⟨f', rfl, hfatal⟩
  exact ⟨_, by unfold gather; rw [hnone]⟩

theorem gather_fatal {id : Option String} {c : Context} {os : List Outcome} {o : Outcome}
    (ho : o ∈ os) (hfatal : Fatal o) : Fatal (x.gather id c os) := by
  obtain ⟨f, rfl, hf⟩ := hfatal
  have hmem : f ∈ faultsOf os := List.mem_filterMap.mpr ⟨_, ho, rfl⟩
  obtain ⟨f', hf'⟩ := Option.isSome_iff_exists.mp (List.find?_isSome.mpr ⟨f, hmem, hf⟩)
  refine ⟨f', ?_, List.find?_some hf'⟩
  simp [gather, gatheredFault?, hf']

theorem parallel_account {id : Option String} {branches : List Step}
    (hcontinue : x.plan.continueOnError = true) (ih : HasBranchAccount pace x branches) :
    HasAccount pace x (.parallel id branches) := by
  intro path c t u ds o hproper hkind hc hopen h
  have hkind : path.kind? = some "parallel" := hkind
  have hfork : c.fork.errors = some [] := by
    obtain ⟨es, hes⟩ := Option.ne_none_iff_exists'.mp hc
    simp [Context.fork, hes]
  cases walk_parallel_course h with
  | both inner hend =>
    obtain ⟨rfl, hreports, hsteps⟩ := concluded_ended hend
    rcases ih hproper rfl hfork hopen.of_append.1 inner with
      ⟨o, ho, hfatal⟩ | ⟨hfatal, L, haccount, hmerge⟩
    · exact .inl (gather_fatal ho hfatal)
    · obtain ⟨output, hgather⟩ := @gather_eq_ok x id c _ hcontinue hfatal
      rw [hgather] at hreports ⊢
      refine .inr ⟨_, account_concluded (b := .parallel) haccount rfl ⟨rfl, fun f hf => ?_⟩ hreports
        hsteps, .ok ?_ fun _ => Context.latest_recordOutput ..⟩
      · simp [Except.map] at hf
      · refine (hmerge c [] hc).trans (Adds.output _ ?_ rfl)
        simp [hkind]

/-- A step that ends its list has failed for good. -/
theorem guarded_fatal {s : Step} {i : Int} {c : Context} {o : Outcome} {f : Fault}
    (hcontinue : x.plan.continueOnError = true) (h : x.guarded s i c o = .error f) : isFatal f = true := by
  cases o with
  | ok r => exact absurd h (by simp [guarded])
  | error g =>
    by_cases hg : isFatal g = true
    · obtain rfl : g = f := by simpa [guarded, hg] using h
      exact hg
    · exact absurd h (by simp [guarded, hcontinue, hg])

/-- A step after which its list goes on: it does with what the reports of the step have added. -/
theorem guarded_account {s : Step} {i : Nat} {c : Context} {ds : List Deed} {o : Outcome} {fin : Finished}
    (hcontinue : x.plan.continueOnError = true) (hc : c.errors ≠ none)
    (href : ∀ o, Report.ref ⟨path, s.id?, o⟩ = stepRef s i)
    (h : Fatal o ∨ ∃ L, Account (x.OfStep path s) ds L ∧ Closes path s.id? L c o)
    (hguarded : x.guarded s i c o = .ok fin) :
    ∃ L, Account (x.OfStep path s) ds L ∧ Adds L c fin.context ∧ (c.Latest → fin.context.Latest) := by
  rcases h with ⟨f, rfl, hf⟩ | ⟨L, haccount, hcloses⟩
  · exact absurd hguarded (by simp [guarded, hf])
  · refine ⟨L, haccount, ?_⟩
    cases hcloses with
    | @ok r hadds hlatest =>
      obtain rfl := Except.ok.inj hguarded
      exact ⟨hadds, hlatest⟩
    | @failed f hf hL =>
      subst hL
      have hadds := Adds.fault (r := ⟨path, s.id?, .error f⟩) hc rfl
      rw [href] at hadds
      obtain rfl : ⟨c.recordFault (stepRef s i) f, .null⟩ = fin := by
        simpa [guarded, hcontinue, hf] using hguarded
      exact ⟨hadds, fun h => h⟩

theorem account_cons {parent : Option (StepPath × Branch)} {i : Nat} {s : Step} {rest : List Step}
    {ds es : List Deed} {L M : List Report}
    (h₁ : Account (x.OfStep (.within parent i s.kind) s) ds L)
    (h₂ : Account (x.OfList parent (i + 1) rest) es M) :
    Account (x.OfList parent i (s :: rest)) (ds ++ es) (L ++ M) :=
  (h₁.weaken fun _ => OfStep.head).append (h₂.weaken fun _ => OfList.tail) fun a ha b hb =>
    OfList.before (h₁.tells a ha) (h₂.tells b hb)

theorem listAccount_cons {s : Step} {rest : List Step} (hcontinue : x.plan.continueOnError = true)
    (hs : HasAccount pace x s) (hrest : HasListAccount pace x rest) :
    HasListAccount pace x (s :: rest) := by
  intro path b i c t u ds o hproper hb hc hopen h
  cases walkList_course h with
  | failed _ hguarded hr =>
    exact .inl ⟨_, (Prod.mk.inj (hr _ rfl)).1, guarded_fatal hcontinue hguarded⟩
  | goesOn hwalk hguarded hnext =>
    obtain ⟨hopen₁, hopen₂⟩ := hopen.of_append
    obtain ⟨L, haccount, hadds, hlatest⟩ := guarded_account hcontinue hc (fun o => ref_child hb i s o)
      (hs (hproper.child b i s) (StepPath.kind?_child ..) hc hopen₁ hwalk) hguarded
    rcases hrest hproper hb (hadds.collects hc) hopen₂ hnext with
      hfatal | ⟨M, r', rfl, haccount', hadds', hlatest'⟩
    · exact .inl hfatal
    · exact .inr ⟨L ++ M, r', rfl, account_cons haccount haccount', hadds.trans hadds',
        fun h => hlatest' (hlatest h)⟩

theorem branchAccount_cons {s : Step} {rest : List Step} (hs : HasAccount pace x s)
    (hrest : HasBranchAccount pace x rest) : HasBranchAccount pace x (s :: rest) := by
  intro path i c t u ds os hproper hall herrors hopen h
  have hc : c.errors ≠ none := by simp [herrors]
  rw [walkBranches_cons] at h
  obtain ⟨o, os', t₁, t₂, es, gs, rfl, -, first, others, hfs⟩ := h.of_cons
  obtain ⟨hopen₁, hopen₂⟩ := hopen.of_interleaved hfs
  rcases hs (hproper.child .parallel i s) (StepPath.kind?_child ..) hc hopen₁ first with
    hfatal | ⟨L, haccount, hcloses⟩
  · exact .inl ⟨o, List.mem_cons_self, hfatal⟩
  rcases hrest hproper hall herrors hopen₂ others with
    ⟨o', ho', hfatal⟩ | ⟨hfatal, M, haccount', hmerge⟩
  · exact .inl ⟨o', .tail _ ho', hfatal⟩
  -- reports of different branches are interleaved, and stand beside each other
  have hboth : Account (x.OfList (some (path, .parallel)) i (s :: rest)) ds (L ++ M) := by
    refine (haccount.weaken fun _ h => OfStep.head h).join (haccount'.weaken fun _ => .tail) hfs.reports
      (fun _ => hfs.mem_iff.mp) ?_
    exact fun a ha b hb => OfList.before (haccount.tells a ha) (haccount'.tells b hb)
  cases hcloses with
  | @ok r hadds _ =>
    refine .inr ⟨?_, L ++ M, hboth, fun c₀ results hc₀ => ?_⟩
    · rintro o ho ⟨f, rfl, hf⟩
      exact hfatal _ ((List.mem_cons.mp ho).resolve_left (by simp)) ⟨f, rfl, hf⟩
    · have hfirst := hadds.merge hall herrors hc₀
      rw [mergeBranches]
      exact hfirst.trans (hmerge _ _ (hfirst.collects hc₀))
  | @failed f hf hL =>
    subst hL
    refine .inr ⟨?_, _, hboth, fun c₀ results hc₀ => ?_⟩
    · rintro o ho ⟨f', rfl, hf'⟩
      rcases List.mem_cons.mp ho with heq | ho
      · obtain rfl := Except.error.inj heq
        simp [hf] at hf'
      · exact hfatal _ ho ⟨f', rfl, hf'⟩
    · have hfirst := Adds.fault (r := ⟨path.child .parallel i s.kind, s.id?, .error f⟩) hc₀ rfl
      rw [ref_branch] at hfirst
      rw [mergeBranches]
      exact hfirst.trans (hmerge _ _ (hfirst.collects hc₀))

/-- **What a step adds to the context is what it reports.** -/
theorem walk_account (hcontinue : x.plan.continueOnError = true) (s : Step) : HasAccount pace x s := by
  refine Step.treeInduction (P := HasAccount pace x)
    (Q := fun steps => HasListAccount pace x steps ∧ HasBranchAccount pace x steps)
    (fun s => leaf_account) (fun _ _ _ _ ih => condition_account fun b => (ih b).1)
    (fun _ _ ih => parallel_account hcontinue ih.2) ?foreign ?nil
    (fun _ _ hs hrest => ⟨listAccount_cons hcontinue hs hrest.1, branchAccount_cons hs hrest.2⟩) s
  case foreign =>
    intro call agent path c t u ds o _ _ _ _ h
    rw [walk_foreign] at h
    exact .inl ⟨_, (concluded_ended h).1, rfl⟩
  case nil =>
    refine ⟨fun {path b i c t u ds o} _ _ _ _ h => ?_, fun {path i c t u ds os} _ _ _ _ h => ?_⟩
    · rw [walkList_nil] at h
      obtain ⟨rfl, hres⟩ := h.of_done
      exact .inr ⟨[], _, (Prod.mk.inj (hres _ rfl)).1, .nil, .nil c, fun h => h⟩
    · rw [walkBranches_nil] at h
      cases h
      refine .inr ⟨by simp, [], .nil, fun c₀ _ _ => ?_⟩
      rw [mergeBranches]
      exact .nil c₀

/-! ## Runs -/

/-- **The root list**, when each of its steps begins with an empty journal. -/
theorem walkRoot_account (hcontinue : x.plan.continueOnError = true) {steps : List Step} :
    ∀ {i : Nat} {c : Context} {t u : Clock} {ds : List Deed} {o : Outcome} {w w' : World},
      c.errors ≠ none → w.Admits ds w' →
      Fiber.Course pace t (x.walkRoot (numbered i steps) false c) ds (some (o, u)) →
      Fatal o ∨ ∃ L r, o = .ok r ∧ Account (x.OfList none i steps) ds L ∧ Adds L c r.context
        ∧ (c.Latest → r.context.Latest) := by
  induction steps with
  | nil =>
    intro i c t u ds o w w' _ _ h
    obtain ⟨rfl, hres⟩ := h.of_done
    exact .inr ⟨[], _, (Prod.mk.inj (hres _ rfl)).1, .nil, .nil c, fun h => h⟩
  | cons s rest ih =>
    intro i c t u ds o w w' hc hadmits h
    cases walkRoot_course h with
    | both henter hbody =>
      have hsilent := Silent.of_course henter makes_enter_silent
      obtain ⟨w₁, hw₁, hadmits⟩ := hadmits.split
      have hjournal : w₁.attempt.journal = [] := by rw [attempt_of_enter henter hw₁]; rfl
      cases hbody with
      | failed _ hguarded hr =>
        exact .inl ⟨_, (Prod.mk.inj (hr _ rfl)).1, guarded_fatal hcontinue hguarded⟩
      | goesOn hwalk hguarded hnext =>
        obtain ⟨w₂, hw₂, hadmits⟩ := hadmits.split
        have hproper := StepPath.proper_root i s
        have hopen := allOpen_of_walk hproper rfl hjournal hw₂ hwalk
        obtain ⟨L, haccount, hadds, hlatest⟩ := guarded_account hcontinue hc (fun o => ref_root i s o)
          (walk_account hcontinue s hproper rfl hc hopen hwalk) hguarded
        rcases ih (hadds.collects hc) hadmits hnext with
          hfatal | ⟨M, r', rfl, haccount', hadds', hlatest'⟩
        · exact .inl hfatal
        · refine .inr ⟨L ++ M, r', rfl, ?_, hadds.trans hadds', fun h => hlatest' (hlatest h)⟩
          exact (Account.of_silent hsilent).append (account_cons haccount haccount') (by simp)

end Execution

/-- **The ledger of a run**: all reports in the order of the plan, and the end of the run as their
    account. -/
structure Ledger (e : Engine) (plan : Plan) (ds : List Deed) (r : Finished) (L : List Report) :
    Prop where
  account : Account (fun r => ∃ s, plan.Has r.path s ∧ e.functions.Explains s r) ds L
  all : r.context.all = outputsOf L
  errors : r.context.errors = some (errorsOf L)
  result : r.output = r.context.all.getLast?.getD .null

theorem Account.of_root {x : Execution} {ds : List Deed} {L : List Report}
    (h : Account (x.OfList none 0 x.plan.steps) ds L) :
    Account (fun r => ∃ s, x.plan.Has r.path s ∧ x.engine.functions.Explains s r) ds L := by
  refine h.weaken fun r hr => ?_
  obtain ⟨j, s, hj, inner, s', hpath, hhas, hexplains⟩ := hr
  refine ⟨s', ?_, hexplains⟩
  rw [hpath, Nat.zero_add]
  exact .root hj hhas

/-- The account of an attempt from the beginning. -/
theorem carryOutFrom_ledger {pace : Clock → Clock → Prop} {x : Execution} {runId : String}
    {ds : List Deed} {r : Finished} {t u : Clock} {w w' : World}
    (hcontinue : x.plan.continueOnError = true) (hadmits : w.Admits ds w')
    (h : Fiber.Course pace t
      (x.carryOutFrom ⟨runId, 0, Engine.startContext x.plan runId, []⟩ false) ds (some (.ok r, u))) :
    ∃ L, Ledger x.engine x.plan ds r L := by
  cases AttemptCourse.of_course (m := 0) rfl h with
  | @concluding answer start stop _ o es fs _ hwalk hend =>
    obtain ⟨w₁, -, hadmits⟩ := hadmits.of_cons
    obtain ⟨w₂, hw₂, -⟩ := hadmits.split
    have ho : .ok r = concludedOutcome o := hend.ends (conclude_ends o) _ rfl
    have hstart : (Engine.startContext x.plan runId).errors = some [] := by
      simp [Engine.startContext, Context.start, hcontinue]
    rcases Execution.walkRoot_account hcontinue (by simp [hstart]) hw₂ hwalk with
      ⟨f, rfl, -⟩ | ⟨L, r', rfl, haccount, hadds, hlatest⟩
    · exact absurd ho (by simp [concludedOutcome, Except.map])
    · obtain rfl : r = ⟨r'.context, r'.context.previous⟩ := Except.ok.inj ho
      refine ⟨L, ?_, by simpa [Engine.startContext, Context.start] using hadds.all,
        by rw [hadds.errors, hstart]; simp, hlatest rfl⟩
      have hbegin : Silent [⟨none, .beginAttempt ⟨runId, 0, Engine.startContext x.plan runId, []⟩, answer,
          start, stop⟩] := List.forall_mem_singleton.mpr ⟨rfl, rfl⟩
      have haccount := (Account.of_silent hbegin).append (haccount.of_root.append
        (Account.of_silent (.of_course hend (makes_conclude_silent _))) (by simp)) (by simp)
      simpa using haccount

/-- **Nothing is lost, and nothing counts twice.** A run that goes on after errors and returns has a
    ledger. -/
theorem run_ledger {pace : Clock → Clock → Prop} {e : Engine} {source : PlanSource} {plan : Plan}
    {given executionId : Option String} {ds : List Deed} {r : Finished} {t : Clock} {w w' : World}
    (haccept : source.accept = .ok plan) (hcontinue : plan.continueOnError = true)
    (hruns : w.Runs pace (e.run source given executionId) ds (some (.ok r, t)) w') :
    ∃ L, Ledger e plan ds r L := by
  obtain ⟨hcourse, hadmits⟩ := hruns
  unfold Engine.run at hcourse
  rw [haccept] at hcourse
  cases hcourse.of_ofAction with
  | ended _ hr =>
    obtain ⟨f, -, hf⟩ := hr _ rfl
    exact absurd hf (by simp)
  | @on runId _ ds₁ _ _ hid hrest =>
    cases hrest.of_ofAction with
    | ended _ hr =>
      obtain ⟨f, -, hf⟩ := hr _ rfl
      exact absurd hf (by simp)
    | @on _ _ ds₂ ds₃ _ hannounce hattempt =>
      obtain ⟨w₁, -, hadmits⟩ := hadmits.split
      obtain ⟨w₂, -, hadmits⟩ := hadmits.split
      obtain ⟨L, hledger⟩ := carryOutFrom_ledger (x := ⟨e, plan, runId⟩) hcontinue hadmits hattempt
      have hid : Silent ds₁ := .of_course hid (newRunId_makes given rfl)
      have hannounce : Silent ds₂ := .of_course hannounce ⟨rfl, fun _ => trivial⟩
      refine ⟨L, { hledger with account := ?_ }⟩
      exact (Account.of_silent hid).append ((Account.of_silent hannounce).append hledger.account
        (by simp)) (by simp)

/-! ### An instance -/

/-- An agent that is called with what there is. -/
def plainAgent (name : String) : Step := .agent ⟨none, .absent, none, false⟩ name

/-- Two agents side by side and a third one after them. -/
def threeAgents : Plan :=
  { id := none
    steps := [.parallel none [plainAgent "first", plainAgent "second"], plainAgent "third"]
    input := .null
    messages := []
    continueOnError := true
    hookTimeout := none
    workerPoll := none
    workflowPoll := none }

/-- Surroundings in which the second agent cannot be reached. -/
def secondMissing : Environment :=
  .replying fun r =>
    if r.url = "http://localhost:3000/api/studio/chat/agent/second" then { response := .error "refused" }
    else { response := .ok ⟨200, "", .object [("result", .text "done")]⟩ }

/-- The run of the three agents. -/
def threeAgentsRun : Prompt Outcome :=
  (plainEngine.run (.parsed threeAgents) (some "run") none).promptly secondMissing {}

/-- Three outputs, two of agents and one of the parallel step, and one error. -/
theorem threeAgents_ledger : ∃ r L, threeAgentsRun.outcome = .ok r ∧ r.context.all.length = 3
    ∧ (errorsOf L).length = 1 ∧ Ledger plainEngine threeAgents threeAgentsRun.deeds r L := by
  have hend : threeAgentsRun.outcome.toOption.map (fun r =>
      (r.context.all.length, r.context.errors.map List.length)) = some (3, some 1) := by
    decide +kernel
  have hruns := Fiber.runs_promptly Nat.le_refl secondMissing
    (plainEngine.run (.parsed threeAgents) (some "run") none) {}
  rw [← threeAgentsRun] at hruns
  cases hr : threeAgentsRun.outcome with
  | error f => rw [hr] at hend; simp [Except.toOption] at hend
  | ok r =>
    rw [hr] at hend hruns
    simp only [Except.toOption, Option.map_some, Option.some.injEq, Prod.mk.injEq] at hend
    have haccept : (PlanSource.parsed threeAgents).accept = .ok threeAgents := rfl
    obtain ⟨L, hledger⟩ := run_ledger haccept rfl hruns
    refine ⟨r, L, rfl, hend.1, ?_, hledger⟩
    rw [hledger.errors] at hend
    exact Option.some.inj hend.2

end Runbook
