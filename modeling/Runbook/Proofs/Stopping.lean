import Runbook.Proofs.Failures

/-!
# `Proofs.Stopping` — which failure a run ends with

A plan that fails fast fails with its first failure, and does no more for the steps behind it. The steps of
a plan are carried out in good order: step by step through the tree, the reports say how each step has
ended, and which failure inside it has decided so. In a parallel step all branches come to an end first;
of their failures the one of an unknown step wins, and otherwise that of the first branch.

## Contents
- **The walk.** `InOrder`, with `leaf_inOrder`, `condition_inOrder`, `parallel_inOrder`, and
  `walk_inOrder` for every step.
- **The root list.** `walkRoot_inOrder`, by induction on the list.
- **Runs.** `FirstFailure`, and `Settles`, what is known of the end of a run: `run_settles`.
- **Plans that fail fast.** `run_fails_fast`.
-/

namespace Runbook

/-! ## Places -/

theorem Step.Inside.isPrefix {s s' : Step} {path q : StepPath} (h : s.Inside path q s') : path <+: q := by
  obtain ⟨inner, hq, -⟩ := h
  exact ⟨inner, hq.symm⟩

theorem listSites_place {path q : StepPath} {b : Branch} {i : Nat} {steps : List Step} {s : Step}
    (h : listSites path b i steps q s) :
    ∃ (j : Nat) (kind : String), i ≤ j ∧ path.child b j kind <+: q := by
  obtain ⟨j, s₀, -, h⟩ := h
  exact ⟨i + j, s₀.kind, by omega, h.isPrefix⟩

theorem Clerical.of_course {pace : Clock → Clock → Prop} {t : Clock} {ds : List Deed} {α : Type}
    {p : Program α} {r : Option (α × Clock)} (h : Program.Course pace none t p ds r)
    (hp : p.Makes fun c => c.report? = none ∧ c.isOutside = false) : Clerical ds := h.makes hp

/-! ## The walk -/

namespace Execution

variable {pace : Clock → Clock → Prop} {x : Execution} {path : StepPath} {t : Clock} {ds es : List Deed}

/-- **A step in good order**, whose end is told by its reports. -/
def InOrder (pace : Clock → Clock → Prop) (x : Execution) (s : Step) : Prop :=
  ∀ {path : StepPath} {c : Context} {t : Clock} {ds : List Deed} {r : Option (Outcome × Clock)},
    AllOpen ds → Fiber.Course pace t (x.walk s path c) ds r →
    Orderly x.engine.functions x.plan (s.Inside path) ds ∧
      ∀ o u, r = some (o, u) → Verdict x.plan (reports ds) path o

/-- The same of steps in a row. -/
def ListInOrder (pace : Clock → Clock → Prop) (x : Execution) (steps : List Step) : Prop :=
  ∀ {path : StepPath} {b : Branch} {i : Nat} {c : Context} {t : Clock} {ds : List Deed}
    {r : Option (Outcome × Clock)}, AllOpen ds →
    Fiber.Course pace t (x.walkList steps (path, b) i c) ds r →
    Orderly x.engine.functions x.plan (listSites path b i steps) ds ∧
      ∀ o u, r = some (o, u) → ListVerdict x.plan (reports ds) (some (path, b)) o

/-- The same of steps side by side. -/
def BranchesInOrder (pace : Clock → Clock → Prop) (x : Execution) (steps : List Step) : Prop :=
  ∀ {path : StepPath} {i : Nat} {c : Context} {t : Clock} {ds : List Deed}
    {r : Option (List Outcome × Clock)}, AllOpen ds →
    Fiber.Courses pace t (x.walkBranches steps path i c) ds r →
    Orderly x.engine.functions x.plan (listSites path .parallel i steps) ds ∧
      ∀ os u, r = some (os, u) → BranchVerdict x.plan (reports ds) path i steps os

theorem leaf_inOrder {s : Step} (hs : s.isLeaf = true) : InOrder pace x s := by
  intro path c t ds r hopen h
  obtain ⟨body, hbody, hcourse⟩ := walk_leaf_course hs h
  have hhere : s.Inside path path s := ⟨[], (List.append_nil path).symm, .here⟩
  have hstep {d : Deed} {q : StepPath} (hd : d ∈ ds) (hq : d.step = some q) : q = path :=
    Option.some.inj (hq.symm.trans (hcourse.treeCall hbody d hd).1)
  have hplaced : ∀ d ∈ ds, ∀ q, d.step = some q → ∃ s', s.Inside path q s' :=
    fun d hd q hq => ⟨s, hstep hd hq ▸ hhere⟩
  have howned : ∀ d ∈ ds, d.call.isOutside = true → ∃ q, d.step = some q :=
    fun d hd _ => ⟨path, (hcourse.treeCall hbody d hd).1⟩
  have hsigned : ∀ d ∈ ds, ∀ r, d.call = .report r → d.step = some r.path := by
    intro d hd r hr
    obtain ⟨hpath, hcall⟩ := hcourse.treeCall hbody d hd
    rw [hr] at hcall
    cases hcall with
    | report => exact hpath
    | serves h => cases h with | outside h => simp [Call.isOutside] at h
  -- a leaf reports when its body has ended, and never before
  rcases hcourse.reports_cases hbody with ⟨hreports, hnone⟩ | ⟨o', hreports, hres⟩
  · exact ⟨⟨hplaced, howned, hsigned, by simp [hreports], by simp [hreports]⟩,
      fun o u hr => absurd (hnone hopen) (by simp [hr])⟩
  · refine ⟨⟨hplaced, howned, hsigned, fun r hr => ?_, fun r hr _ d hd q hq hbefore => ?_⟩,
      fun o u hr => ?_⟩
    · rw [hreports, List.mem_singleton] at hr
      subst hr
      exact ⟨s, hhere, .of_isLeaf hs rfl⟩
    · rw [hreports, List.mem_singleton] at hr
      subst hr
      rw [hstep hd hq] at hbefore
      exact absurd hbefore (StepPath.not_before_self _)
    · obtain rfl : o = leafOutcome s.id? c o' := hres (o, u) hr
      have houtput : (leafOutcome s.id? c o').map Finished.output = o' := by cases o' <;> rfl
      have hverdict := @Verdict.single x.plan path s.id? (leafOutcome s.id? c o')
      rwa [houtput, ← hreports] at hverdict

/-- What a step reports as a failure is the failure with which it ends. -/
theorem eq_error_of_map {o : Outcome} {f : Fault} (h : o.map Finished.output = .error f) : o = .error f := by
  cases o with
  | ok r => exact absurd h (by simp [Except.map])
  | error g => simpa [Except.map] using h

/-- The steps in a list of a step, and then its own report. -/
theorem orderly_concluded {s : Step} {b : Branch} {o : Outcome} {r : Option (Outcome × Clock)}
    (h : Orderly x.engine.functions x.plan (listSites path b 0 (s.listOf b)) ds)
    (htells : Tells x.engine.functions (reports ds) s ⟨path, s.id?, o.map Finished.output⟩)
    (hes : Fiber.Course pace t (concluded path s.id? o) es r) :
    Orderly x.engine.functions x.plan (s.Inside path) (ds ++ es) := by
  have hhere : s.Inside path path s := ⟨[], (List.append_nil path).symm, .here⟩
  have h : Orderly x.engine.functions x.plan (s.Inside path) ds := h.weaken fun _ _ => listSites_inside
  rcases concluded_course hes with ⟨rfl, -⟩ | ⟨answer, start, stop, rfl, -⟩
  · rwa [List.append_nil]
  · have hreports {answer : Unit} : reports (ds ++ [⟨some path, .report ⟨path, s.id?, o.map Finished.output⟩,
        answer, start, stop⟩]) = reports ds ++ [⟨path, s.id?, o.map Finished.output⟩] := by
      simp [Call.report?]
    have hsub := List.subset_append_left (reports ds) [⟨path, s.id?, o.map Finished.output⟩]
    refine ⟨fun d hd q hq => ?placed, fun d hd hout => ?owned, fun d hd r hr => ?signed,
      fun r hr => ?tells, fun r hr hhalts d hd q hq hbefore => ?spares⟩
    case owned =>
      rcases List.mem_append.mp hd with hd | hd
      · exact h.owned d hd hout
      · exact ⟨path, by rw [List.mem_singleton.mp hd]⟩
    case signed =>
      rcases List.mem_append.mp hd with hd | hd
      · exact h.signed d hd r hr
      · rw [List.mem_singleton.mp hd] at hr ⊢
        rw [← Call.report.inj hr]
    case placed =>
      rcases List.mem_append.mp hd with hd | hd
      · exact h.placed d hd q hq
      · rw [List.mem_singleton.mp hd] at hq
        exact ⟨s, Option.some.inj hq ▸ hhere⟩
    case tells =>
      rw [hreports] at hr ⊢
      rcases List.mem_append.mp hr with hr | hr
      · obtain ⟨s', hs', htells'⟩ := h.tells r hr
        exact ⟨s', hs', htells'.mono hsub⟩
      · rw [List.mem_singleton.mp hr]
        exact ⟨s, hhere, htells.mono hsub⟩
    case spares =>
      -- the report of the step may follow a failure inside it; nothing follows the report itself
      rw [hreports] at hr
      rcases List.mem_append.mp hr with hr | hr <;> rcases List.mem_append.mp hd with hd | hd
      · exact h.spares r hr hhalts d hd q hq hbefore
      · rw [List.mem_singleton.mp hd] at hq ⊢
        obtain rfl := Option.some.inj hq
        obtain ⟨s', hs', -⟩ := h.tells r hr
        exact .inr ⟨hs'.isPrefix, rfl⟩
      · rw [List.mem_singleton.mp hr] at hbefore
        obtain ⟨s', hs'⟩ := h.placed d hd q hq
        exact absurd hbefore (StepPath.not_before_of_prefix hs'.isPrefix)
      · rw [List.mem_singleton.mp hr] at hbefore
        rw [List.mem_singleton.mp hd] at hq
        obtain rfl := Option.some.inj hq
        exact absurd hbefore (StepPath.not_before_self _)

/-- A step that only reports how it ended. -/
theorem concluded_inOrder {s : Step} {o : Outcome} {r : Option (Outcome × Clock)}
    (htells : Tells x.engine.functions [] s ⟨path, s.id?, o.map Finished.output⟩)
    (h : Fiber.Course pace t (concluded path s.id? o) ds r) :
    Orderly x.engine.functions x.plan (s.Inside path) ds ∧
      ∀ o' u, r = some (o', u) → Verdict x.plan (reports ds) path o' := by
  refine ⟨orderly_concluded (b := .parallel) .nil htells h, fun o' u hr => ?_⟩
  subst hr
  obtain ⟨rfl, hreports, -⟩ := concluded_ended h
  rw [hreports]
  exact .single

/-- What the steps in a list of a step report is strictly inside the step. -/
theorem strictly_inside {b : Branch} {i : Nat} {steps : List Step}
    (h : Orderly x.engine.functions x.plan (listSites path b i steps) ds) :
    ∀ r ∈ reports ds, path <+: r.path ∧ r.path ≠ path := by
  intro r hr
  obtain ⟨s', hs', -⟩ := h.tells r hr
  obtain ⟨j, kind, -, hplace⟩ := listSites_place hs'
  exact ⟨(StepPath.prefix_child ..).trans hplace, listSites_ne hs'⟩

theorem condition_inOrder {id : Option String} {predicate : Predicate} {whenTrue : List Step}
    {whenFalse : Option (List Step)}
    (ih : ∀ b, ListInOrder pace x (takenSteps b whenTrue whenFalse)) :
    InOrder pace x (.condition id predicate whenTrue whenFalse) := by
  intro path c t ds r hopen h
  -- a condition fails with its predicate, or with a step of the list that was taken
  have htells {R : List Report} {o : Outcome} (hfailure : ∀ f, o = .error f →
      predicate.holds x.engine.functions c = .error f
        ∨ ∃ r ∈ R, path <+: r.path ∧ r.path ≠ path ∧ r.outcome = .error f) :
      Tells x.engine.functions R (.condition id predicate whenTrue whenFalse)
        ⟨path, id, o.map Finished.output⟩ := by
    exact ⟨rfl, fun f hf => (hfailure f (eq_error_of_map hf)).imp_left .predicate,
      fun _ _ h => absurd h (by simp), fun _ _ h => absurd h (by simp)⟩
  rcases walk_condition_course h with ⟨f, hholds, hend⟩ | ⟨b, -, hturn⟩
  · refine concluded_inOrder (s := .condition id predicate whenTrue whenFalse) (htells fun g hg => ?_) hend
    exact .inl (Except.error.inj hg ▸ hholds)
  · cases hturn with
    | first hlist =>
      have horderly := (ih b hopen hlist).1
      rw [← Step.listOf_takenBranch id predicate] at horderly
      exact ⟨horderly.weaken fun _ _ => listSites_inside, by simp⟩
    | @both o' _ es fs _ hlist hend =>
      obtain ⟨horderly, hverdict⟩ := ih b hopen.of_append.1 hlist
      have hinside := strictly_inside horderly
      have herror {f : Fault} (hf : chosen b o' = .error f) : o' = .error f := by
        cases o' with
        | ok r => exact absurd hf (by simp [chosen])
        | error g => rw [← hf]; rfl
      rw [← Step.listOf_takenBranch id predicate] at horderly
      refine ⟨orderly_concluded horderly (htells fun f hf => .inr ?_) hend, fun o u hr => ?_⟩
      · obtain ⟨-, j, kind, q, hq⟩ := (hverdict _ _ rfl).decided f (herror hf)
        obtain ⟨r', hr', -, ho⟩ := hq.around _ List.prefix_rfl hq.below
        exact ⟨r', hr', (hinside r' hr').1, (hinside r' hr').2, ho⟩
      subst hr
      obtain ⟨rfl, hreports, -⟩ := concluded_ended hend
      rw [reports_append, hreports]
      have hchosen : x.plan.Halts (chosen b o') ↔ x.plan.Halts o' := by cases o' <;> simp [chosen]
      refine .concluded (b := takenBranch b) hinside
        (fun ho => (hverdict o' _ rfl).quiet (fun h => ho (hchosen.mpr h))) fun f hf _ => ?_
      obtain ⟨-, j, kind, q, hq⟩ := (hverdict _ _ rfl).decided f (herror hf)
      exact ⟨j, kind, q, hq, fun hb => absurd hb (takenBranch_ne_parallel b)⟩

theorem parallel_inOrder {id : Option String} {branches : List Step}
    (ih : BranchesInOrder pace x branches) : InOrder pace x (.parallel id branches) := by
  intro path c t ds r hopen h
  cases walk_parallel_course h with
  | first inner =>
    have horderly := (ih hopen inner).1
    exact ⟨horderly.weaken fun _ _ h =>
      listSites_inside (s := .parallel id branches) (b := .parallel) h, by simp⟩
  | @both os u es fs _ inner hend =>
    obtain ⟨horderly, hverdict⟩ := ih hopen.of_append.1 inner
    have hbranches := hverdict os u rfl
    have hinside := strictly_inside horderly
    -- a failure of the step is that of the branch that outranks all others
    have hdecided {f : Fault} (hf : x.gather id c os = .error f) : ∃ (j : Nat) (kind : String)
        (q : StepPath), os[j]? = some (.error f) ∧ Decides x.plan (reports es) (path.child .parallel j kind) q f
          ∧ ∀ (k : Nat) (g : Fault), os[k]? = some (.error g) → Outranks j f k g := by
      rcases x.gather_cases id c os with ⟨g, hg, hgathered⟩ | ⟨⟨r, hr⟩, -⟩
      · obtain rfl := Except.error.inj (hg.symm.trans hf)
        obtain ⟨hstops, j, hj, houtranks⟩ := gatheredFault?_eq_some hgathered
        obtain ⟨kind, q, hq⟩ := hbranches.decided j g hj hstops
        rw [Nat.zero_add] at hq
        exact ⟨j, kind, q, hj, hq, houtranks⟩
      · exact absurd (hr.symm.trans hf) (by simp)
    have htells : Tells x.engine.functions (reports es) (.parallel id branches)
        ⟨path, id, (x.gather id c os).map Finished.output⟩ := by
      refine ⟨rfl, fun f hf => .inr ?_, fun _ _ h => absurd h (by simp),
        fun id' branches' heq j s' hj => ?_⟩
      · obtain ⟨j, kind, q, -, hq, -⟩ := hdecided (eq_error_of_map hf)
        obtain ⟨r', hr', -, ho⟩ := hq.around _ List.prefix_rfl hq.below
        exact ⟨r', hr', (hinside r' hr').1, (hinside r' hr').2, ho⟩
      · obtain ⟨-, rfl⟩ := Step.parallel.inj heq
        simpa using hbranches.own j s' hj
    refine ⟨orderly_concluded (s := .parallel id branches) (b := .parallel) horderly htells hend,
      fun o u hr => ?_⟩
    subst hr
    obtain ⟨rfl, hreports, -⟩ := concluded_ended hend
    rw [reports_append, hreports]
    refine .concluded (b := .parallel) hinside (fun ho => hbranches.quiet ?_) fun f hf _ => ?_
    · rcases x.gather_cases id c os with ⟨f, hf, hgathered⟩ | ⟨-, hgathered⟩
      · exact absurd (hf ▸ Plan.halts_error.mpr (gatheredFault?_eq_some hgathered).1) ho
      · exact gatheredFault?_eq_none hgathered
    · obtain ⟨j, kind, q, -, hq, houtranks⟩ := hdecided hf
      refine ⟨j, kind, q, hq, fun _ r hr a hpath _ e he => ?_⟩
      obtain ⟨k, o, hk, hko, houtcome⟩ := hbranches.sole r hr a hpath
      rw [Nat.zero_add] at hk
      rw [hk]
      exact houtranks k e (eq_error_of_map (houtcome.symm.trans he) ▸ hko)

/-- A list that goes on after a step of it. -/
theorem goesOn_inOrder (parent : Option (StepPath × Branch)) {i : Nat} {s : Step} {T U : Sites}
    {o : Outcome} {r : Option (Outcome × Clock)}
    (h : Orderly x.engine.functions x.plan (s.Inside (.within parent i s.kind)) ds)
    (hverdict : Verdict x.plan (reports ds) (.within parent i s.kind) o) (hgoes : ¬ x.plan.Halts o)
    (hrest : Orderly x.engine.functions x.plan T es ∧
      ∀ o u, r = some (o, u) → ListVerdict x.plan (reports es) parent o)
    (hplaces : ∀ q s', T q s' → ∃ (j : Nat) (kind : String), i + 1 ≤ j ∧
      StepPath.within parent j kind <+: q)
    (hhead : ∀ q s', s.Inside (.within parent i s.kind) q s' → U q s') (htail : ∀ q s', T q s' → U q s') :
    Orderly x.engine.functions x.plan U (ds ++ es) ∧
      ∀ o u, r = some (o, u) → ListVerdict x.plan (reports (ds ++ es)) parent o := by
  obtain ⟨horderly, hlist⟩ := hrest
  refine ⟨?_, fun o u hres => ?_⟩
  · refine h.inOrder (parent.elim [] Prod.fst) ⟨parent.map Prod.snd, i, s.kind⟩ horderly
      (hverdict.quiet hgoes) (fun q s' hs => ?_) (fun q s' hs => ?_) hhead htail
    · rw [← StepPath.within_eq]
      exact hs.isPrefix
    · obtain ⟨j, kind, hij, hq⟩ := hplaces q s' hs
      rw [StepPath.within_eq] at hq
      exact ⟨_, hq, by dsimp only; omega⟩
  · rw [reports_append]
    refine .cons hverdict hgoes (fun r hr => ?_) (hlist o u hres) fun r hr => ?_
    · obtain ⟨s', hs', -⟩ := h.tells r hr
      exact hs'.isPrefix
    · obtain ⟨s', hs', -⟩ := horderly.tells r hr
      exact hplaces _ s' hs'

theorem list_cons_inOrder {s : Step} {rest : List Step} (hs : InOrder pace x s)
    (hrest : ListInOrder pace x rest) : ListInOrder pace x (s :: rest) := by
  intro path b i c t ds r hopen h
  cases walkList_course h with
  | stopped hwalk => exact ⟨(hs hopen hwalk).1.weaken fun _ _ => listSites_head, by simp⟩
  | failed hwalk hguarded hr =>
    obtain ⟨horderly, hverdict⟩ := hs hopen hwalk
    obtain ⟨rfl, hstops⟩ := guarded_eq_error hguarded
    refine ⟨horderly.weaken fun _ _ => listSites_head, fun o u hres => ?_⟩
    obtain rfl := (Prod.mk.inj (hr _ hres)).1
    exact .head (hverdict _ _ rfl) hstops
  | @goesOn o _ _ _ _ _ hwalk hguarded hnext =>
    obtain ⟨horderly, hverdict⟩ := hs hopen.of_append.1 hwalk
    exact goesOn_inOrder (some (path, b)) horderly (hverdict o _ rfl) (not_halts_of_guarded hguarded)
      (hrest hopen.of_append.2 hnext) (fun _ _ => listSites_place) (fun _ _ => listSites_head)
      (fun _ _ => listSites_tail)

theorem branches_cons_inOrder {s : Step} {rest : List Step} (hs : InOrder pace x s)
    (hrest : BranchesInOrder pace x rest) : BranchesInOrder pace x (s :: rest) := by
  intro path i c t ds r hopen h
  rw [walkBranches_cons] at h
  cases h with
  | stopped => exact ⟨.nil, by simp⟩
  | @cons _ _ _ es fs _ r₁ r₂ first others hfs =>
    obtain ⟨hopen₁, hopen₂⟩ := hopen.of_interleaved hfs
    obtain ⟨horderly, hverdict⟩ := hs hopen₁ first
    obtain ⟨horderly', hverdict'⟩ := hrest hopen₂ others
    have hplace : ∀ q s', s.Inside (path.child .parallel i s.kind) q s' →
        path ++ [⟨some .parallel, i, s.kind⟩] <+: q := fun q s' h => h.isPrefix
    have hplaces : ∀ q s', listSites path .parallel (i + 1) rest q s' →
        ∃ (j : Nat) (kind : String), i < j ∧ path.child .parallel j kind <+: q :=
      fun q s' h => listSites_place h
    refine ⟨horderly.join horderly' (fun _ _ => listSites_head) (fun _ _ => listSites_tail) hfs.reports
      (fun _ => hfs.mem_iff.mp) (fun r hr _ d hd => ?_) (fun r hr _ d hd => ?_), fun os u hres => ?_⟩
    -- what is done in one branch is side by side with a failure in another, and so it is spared
    · obtain ⟨s', hs', -⟩ := horderly.tells r hr
      refine Orderly.spared_of_branches (hplace _ s' hs') rfl fun q hq => ?_
      obtain ⟨s'', hs''⟩ := horderly'.placed d hd q hq
      obtain ⟨j, kind, hij, hq⟩ := hplaces q s'' hs''
      exact ⟨_, hq, by simp only [ne_eq, Int.natCast_inj]; omega, rfl⟩
    · obtain ⟨s', hs', -⟩ := horderly'.tells r hr
      obtain ⟨j, kind, hij, hq⟩ := hplaces _ s' hs'
      refine Orderly.spared_of_branches hq rfl fun q hq => ?_
      obtain ⟨s'', hs''⟩ := horderly.placed d hd q hq
      exact ⟨_, hplace q s'' hs'', by simp only [ne_eq, Int.natCast_inj]; omega, rfl⟩
    · obtain ⟨o, os', t₁, t₂, rfl, rfl, rfl, -⟩ := joined_eq_some hres
      refine .cons (hverdict o t₁ rfl) (fun r hr => ?_) (hverdict' os' t₂ rfl) (fun r hr => ?_)
        hfs.reports
      · obtain ⟨s', hs', -⟩ := horderly.tells r hr
        exact hplace _ s' hs'
      · obtain ⟨s', hs', -⟩ := horderly'.tells r hr
        exact hplaces _ s' hs'

/-- **A failure stops what comes after it, and the reports tell with which one a step ends.** -/
theorem walk_inOrder (s : Step) : InOrder pace x s := by
  refine Step.treeInduction (P := InOrder pace x)
    (Q := fun steps => ListInOrder pace x steps ∧ BranchesInOrder pace x steps)
    (fun s => leaf_inOrder) (fun _ _ _ _ ih => condition_inOrder fun b => (ih b).1)
    (fun _ _ ih => parallel_inOrder ih.2) ?foreign ?nil
    (fun _ _ hs hrest => ⟨list_cons_inOrder hs hrest.1, branches_cons_inOrder hs hrest.2⟩) s
  case foreign =>
    intro call agent path c t ds r _ h
    rw [walk_foreign] at h
    refine concluded_inOrder (s := .foreign call agent) ⟨rfl, fun f hf => ?_, fun _ _ _ => rfl, ?_⟩ h
    · exact .inl (Except.error.inj hf ▸ .unknown)
    · exact fun _ _ h => absurd h (by simp)
  case nil =>
    refine ⟨fun {path b i c t ds r} _ h => ?_, fun {path i c t ds r} _ h => ?_⟩
    · rw [walkList_nil] at h
      obtain ⟨rfl, hr⟩ := h.of_done
      refine ⟨.nil, fun o u hres => ?_⟩
      obtain rfl := (Prod.mk.inj (hr _ hres)).1
      exact ⟨fun _ => by simp [Quiet], by simp⟩
    · rw [walkBranches_nil] at h
      cases h with
      | stopped => exact ⟨.nil, by simp⟩
      | nil =>
        refine ⟨.nil, fun os u hres => ?_⟩
        obtain rfl := (Prod.mk.inj (Option.some.inj hres)).1
        exact .nil

/-! ## The root list -/

/-- What stands in a root list, from an index on. -/
theorem rootSites_place {i : Nat} {steps : List Step} {q : StepPath} {s : Step}
    (h : rootSites (numbered i steps) q s) :
    ∃ (j : Nat) (kind : String), i ≤ j ∧ StepPath.within none j kind <+: q := by
  obtain ⟨k, s₀, hmem, h⟩ := h
  obtain ⟨j, rfl, -⟩ := mem_numbered.mp hmem
  exact ⟨i + j, s₀.kind, by omega, h.isPrefix⟩

/-- The same of the root list, when each of its steps begins with an empty journal. -/
theorem walkRoot_inOrder {steps : List Step} :
    ∀ {i : Nat} {c : Context} {t : Clock} {ds : List Deed} {r : Option (Outcome × Clock)} {w w' : World},
      w.Admits ds w' → Fiber.Course pace t (x.walkRoot (numbered i steps) false c) ds r →
      Orderly x.engine.functions x.plan (rootSites (numbered i steps)) ds ∧
        ∀ o u, r = some (o, u) → ListVerdict x.plan (reports ds) none o := by
  induction steps with
  | nil =>
    intro i c t ds r w w' _ h
    obtain ⟨rfl, hr⟩ := h.of_done
    refine ⟨.nil, fun o u hres => ?_⟩
    obtain rfl := (Prod.mk.inj (hr _ hres)).1
    exact ⟨fun _ => by simp [Quiet], by simp⟩
  | cons s rest ih =>
    intro i c t ds r w w' hadmits h
    have hhead : ∀ q s', s.Inside (.root i s.kind) q s' → rootSites (numbered i (s :: rest)) q s' :=
      fun q s' hs => ⟨i, s, List.mem_cons_self, hs⟩
    have htail : ∀ q s', rootSites (numbered (i + 1) rest) q s' →
        rootSites (numbered i (s :: rest)) q s' :=
      fun q s' hs => hs.imp fun k => .imp fun s₀ => .imp_left (.tail _)
    cases walkRoot_course h with
    | first henter =>
      exact ⟨.of_clerical (.of_course henter (enter_makes ⟨rfl, rfl⟩ ⟨rfl, rfl⟩)), by simp⟩
    | @both _ _ es₀ _ _ henter hbody =>
      have hclerical : Clerical es₀ := .of_course henter (enter_makes ⟨rfl, rfl⟩ ⟨rfl, rfl⟩)
      have hreports₀ : reports es₀ = [] := reports_eq_nil fun d hd => (hclerical d hd).2.1
      obtain ⟨w₁, hw₁, hadmits⟩ := hadmits.split
      have hjournal : w₁.attempt.journal = [] := by rw [attempt_of_enter henter hw₁]; rfl
      -- each step of the root list begins with an empty journal
      have hopen {es : List Deed} {q : Option (Outcome × Clock)} {u : Clock} {w₂ : World}
          (hes : w₁.Admits es w₂) (hwalk : Fiber.Course pace u (x.walk s (.root i s.kind) c) es q) :
          AllOpen es := allOpen_of_walk (StepPath.proper_root i s) rfl hjournal hes hwalk
      rw [reports_append, hreports₀, List.nil_append]
      cases hbody with
      | stopped hwalk =>
        have horderly := (walk_inOrder s (hopen hadmits hwalk) hwalk).1
        exact ⟨.after_clerical hclerical (horderly.weaken hhead), by simp⟩
      | failed hwalk hguarded hr =>
        obtain ⟨horderly, hverdict⟩ := walk_inOrder s (hopen hadmits hwalk) hwalk
        obtain ⟨rfl, hstops⟩ := guarded_eq_error hguarded
        refine ⟨.after_clerical hclerical (horderly.weaken hhead), fun o u hres => ?_⟩
        obtain rfl := (Prod.mk.inj (hr _ hres)).1
        exact .head (hverdict _ _ rfl) hstops
      | @goesOn o _ _ _ _ _ hwalk hguarded hnext =>
        obtain ⟨w₂, hw₂, hadmits⟩ := hadmits.split
        obtain ⟨horderly, hverdict⟩ := walk_inOrder s (hopen hw₂ hwalk) hwalk
        obtain ⟨hall, hlast⟩ := goesOn_inOrder none horderly (hverdict o _ rfl)
          (not_halts_of_guarded hguarded) (ih hadmits hnext) (fun _ _ => rootSites_place) hhead htail
        exact ⟨.after_clerical hclerical hall, hlast⟩

end Execution

/-! ## Runs -/

/-- **The first failure** that keeps a plan from going on. It is a step's own; nothing inside that step has
    failed so; and no step before it has, unless side by side with it. For each parallel step around it, all
    branches have come to an end, and the failure outranks those of the other branches. -/
structure FirstFailure (fns : Functions) (p : Plan) (R : List Report) (q : StepPath) (f : Fault) :
    Prop where
  step : ∃ s, p.Has q s ∧ s.FailsItself fns f
  reported : ∃ r ∈ R, r.path = q ∧ r.outcome = .error f
  inside : ∀ r ∈ R, q <+: r.path → r.path ≠ q → ¬ p.Halts r.outcome
  first : ∀ r ∈ R, p.Halts r.outcome → r.path.Before q → r.path.Beside q
  settled : ∀ (m : StepPath) (id : Option String) (branches : List Step), m <+: q →
    p.Has m (.parallel id branches) → ∀ (j : Nat) (s : Step), branches[j]? = some s →
    ∃ r ∈ R, r.path = m.child .parallel j s.kind
  outranks : ∀ (m : StepPath) (a b : Place), m ++ [a] <+: q → a.branch = some .parallel →
    b.branch = some .parallel → ∀ r ∈ R, r.path = m ++ [b] → ∀ g, r.outcome = .error g →
    Outranks a.index f b.index g

theorem Plan.Has.ne_nil {p : Plan} {q : StepPath} {s : Step} (h : p.Has q s) : q ≠ [] := by
  cases h with
  | root => simp

theorem FirstFailure.of_decides {fns : Functions} {p : Plan} {ds : List Deed} {j : Nat} {kind : String}
    {q : StepPath} {f : Fault} (h : Orderly fns p p.Has ds) (hq : Decides p (reports ds) (.root j kind) q f)
    (hf : p.stopsOn f = true) : FirstFailure fns p (reports ds) q f := by
  obtain ⟨r, hr, rfl, ho⟩ := hq.around q hq.below List.prefix_rfl
  obtain ⟨s, hs, htells⟩ := h.tells r hr
  -- whatever contains the step is the step of the root list or inside it
  have hroot {m : StepPath} (hne : m ≠ []) (hm : m <+: r.path) : StepPath.root j kind <+: m :=
    (StepPath.eq_or_prefix List.nil_prefix hm hq.below).resolve_left hne
  have hitself : s.FailsItself fns f := by
    refine (htells.failure f ho).resolve_right ?_
    rintro ⟨r', hr', hinside, hne, ho'⟩
    exact hq.inside r' hr' hinside hne (by rw [ho']; simpa using hf)
  refine ⟨⟨s, hs, hitself⟩, ⟨r, hr, rfl, ho⟩, hq.inside, fun a ha hhalts hbefore => ?_,
    fun m id branches hm hhas i s' hi => ?_, fun m a b hm hbranch => ?_⟩
  · obtain ⟨d, hd, hcall⟩ := mem_reports.mp hr
    have hstep : d.step = some r.path := h.signed d hd r hcall
    rcases h.spares a ha hhalts d hd _ hstep hbefore with hbeside | ⟨hinside, -⟩
    · exact hbeside
    · by_cases heq : a.path = r.path
      · rw [heq] at hbefore
        exact absurd hbefore (StepPath.not_before_self _)
      · exact absurd hhalts (hq.inside a ha hinside heq)
  · obtain ⟨r', hr', rfl, -⟩ := hq.around m (hroot hhas.ne_nil hm) hm
    obtain ⟨s₀, hs₀, htells⟩ := h.tells r' hr'
    exact htells.branches id branches (hs₀.unique hhas) i s' hi
  · refine hq.outranks m a b (hroot ?_ ((List.prefix_append m [a]).trans hm)) hm hbranch
    rintro rfl
    obtain ⟨_, hm⟩ := hm
    obtain ⟨_, hbelow⟩ := hq.below
    rw [← hbelow] at hm
    simp only [List.nil_append, StepPath.root, List.cons_append, List.cons.injEq] at hm
    rw [hm.1] at hbranch
    exact absurd hbranch (by simp)

/-- **How a run from the beginning goes.** Its deeds are in good order. It fails just when something has kept
    it from going on, and then with the first failure; otherwise the last it does is to write that it is
    completed. -/
structure Settles (pace : Clock → Clock → Prop) (x : Execution) (ds : List Deed)
    (r : Option (Outcome × Clock)) : Prop where
  layout : Layout pace x x.plan.Has (r ≠ none) ds
  orderly : Orderly x.engine.functions x.plan x.plan.Has ds
  fails : ∀ o t, r = some (o, t) → ((∃ f, o = .error f) ↔ ∃ a ∈ reports ds, x.plan.Halts a.outcome)
  first : ∀ f t, r = some (.error f, t) →
    x.plan.stopsOn f = true ∧ ∃ q, FirstFailure x.engine.functions x.plan (reports ds) q f
  completes : ∀ fin t, r = some (.ok fin, t) → ∃ runId pre d, ds = pre ++ [d]
    ∧ d.call = .updateRun runId [("status", .text "completed"), ("result", fin.output)]

theorem Settles.stopped {pace : Clock → Clock → Prop} {x : Execution} {ds : List Deed}
    (hlayout : Layout pace x x.plan.Has False ds)
    (horderly : Orderly x.engine.functions x.plan x.plan.Has ds) : Settles pace x ds none :=
  ⟨hlayout.weaken (fun _ _ h => h) (fun h => absurd rfl h), horderly, by simp, by simp, by simp⟩

theorem Settles.of_clerical {pace : Clock → Clock → Prop} {x : Execution} {ds : List Deed}
    (h : Clerical ds) : Settles pace x ds none :=
  .stopped (.of_none fun d hd => (h d hd).1) (.of_clerical h)

theorem Settles.after_clerical {pace : Clock → Clock → Prop} {x : Execution} {ds es : List Deed}
    {r : Option (Outcome × Clock)} (h : Settles pace x es r) (hds : Clerical ds) :
    Settles pace x (ds ++ es) r := by
  have hreports : reports (ds ++ es) = reports es := by
    rw [reports_append, reports_eq_nil fun d hd => (hds d hd).2.1, List.nil_append]
  refine ⟨h.layout.after_none fun d hd => (hds d hd).1, .after_clerical hds h.orderly,
    by rw [hreports]; exact h.fails, by rw [hreports]; exact h.first, fun fin t hr => ?_⟩
  obtain ⟨runId, pre, d, rfl, hd⟩ := h.completes fin t hr
  exact ⟨runId, ds ++ pre, d, (List.append_assoc ..).symm, hd⟩

/-- A root list that has come to an end, and how the run is concluded. -/
theorem Settles.of_concluded {pace : Clock → Clock → Prop} {x : Execution} {o : Outcome} {u : Clock}
    {ds es : List Deed} {r : Option (Outcome × Clock)} (hlayout : Layout pace x x.plan.Has True ds)
    (horderly : Orderly x.engine.functions x.plan x.plan.Has ds)
    (hverdict : ListVerdict x.plan (reports ds) none o)
    (hend : Program.Course pace none u (x.conclude o).outcome es r) : Settles pace x (ds ++ es) r := by
  have hclerical : Clerical es :=
    .of_course hend (conclude_makes o (fun _ _ => ⟨rfl, rfl⟩) ⟨rfl, rfl⟩ fun _ => ⟨rfl, rfl⟩)
  have hreports : reports (ds ++ es) = reports ds := by
    rw [reports_append, reports_eq_nil fun d hd => (hclerical d hd).2.1, List.append_nil]
  -- the run ends as its root list
  have hconcluded : ∀ res ∈ r, res.1 = concludedOutcome o := hend.ends (conclude_ends o)
  have herror {f : Fault} {v : Clock} (hr : r = some (.error f, v)) : o = .error f := by
    have ho : .error f = concludedOutcome o := hconcluded _ hr
    cases o with
    | ok fin => exact absurd ho (by simp [concludedOutcome, Except.map])
    | error g => simpa [concludedOutcome, Except.map, eq_comm] using ho
  have hok {fin : Finished} {v : Clock} (hr : r = some (.ok fin, v)) : ∃ fin', o = .ok fin' := by
    have ho : .ok fin = concludedOutcome o := hconcluded _ hr
    cases o with
    | ok fin' => exact ⟨fin', rfl⟩
    | error g => exact absurd ho (by simp [concludedOutcome, Except.map])
  refine ⟨?_, horderly.before_clerical hclerical, fun o' v hr => ?_, fun f v hr => ?_,
    fun fin v hr => ?_⟩
  · exact (hlayout.weaken (fun _ _ h => h) fun _ => trivial).before_none fun d hd => (hclerical d hd).1
  · rw [hreports]
    constructor
    · rintro ⟨f, rfl⟩
      obtain ⟨hf, j, kind, q, hq⟩ := hverdict.decided f (herror hr)
      obtain ⟨a, ha, -, ho⟩ := hq.around q hq.below List.prefix_rfl
      exact ⟨a, ha, by rw [ho]; simpa using hf⟩
    · rintro ⟨a, ha, hhalts⟩
      cases o' with
      | error f => exact ⟨f, rfl⟩
      | ok fin =>
        obtain ⟨fin', rfl⟩ := hok hr
        exact absurd hhalts (hverdict.quiet (by simp) a ha)
  · obtain ⟨hf, j, kind, q, hq⟩ := hverdict.decided f (herror hr)
    rw [hreports]
    exact ⟨hf, q, .of_decides horderly hq hf⟩
  · obtain ⟨fin', rfl⟩ := hok hr
    subst hr
    cases ConclusionCourse.of_course hend with
    | completed henter hr =>
      obtain ⟨rfl, -⟩ := by simpa using hr _ rfl
      exact ⟨_, ds ++ _, _, (List.append_assoc ..).symm, rfl⟩

/-- An attempt from the beginning. -/
theorem carryOutFrom_settles {pace : Clock → Clock → Prop} {x : Execution} {c : Context} {runId : String}
    {ds : List Deed} {r : Option (Outcome × Clock)} {t : Clock} {w w' : World} (hadmits : w.Admits ds w')
    (h : Fiber.Course pace t (x.carryOutFrom ⟨runId, 0, c, []⟩ false) ds r) :
    Settles pace x ds r := by
  have hplaces : ∀ q s, rootSites (numbered 0 (x.plan.steps.drop 0)) q s → x.plan.Has q s :=
    fun _ _ => Plan.has_of_rootSites
  have hlayout {es u q}
      (h : Fiber.Course pace u (x.walkRoot (numbered 0 (x.plan.steps.drop 0)) false c) es q) :
      Layout pace x x.plan.Has (q ≠ none) es :=
    (Execution.walkRoot_layout (nodup_numbered 0 _) h).weaken hplaces fun h => h
  have hbegin (answer : Unit) (start stop : Clock) :
      Clerical [⟨none, .beginAttempt ⟨runId, 0, c, []⟩, answer, start, stop⟩] :=
    List.forall_mem_singleton.mpr ⟨rfl, rfl, rfl⟩
  cases AttemptCourse.of_course (m := 0) rfl h with
  | unbegun => exact .stopped .nil .nil
  | walking hwalk =>
    obtain ⟨w₁, -, hadmits⟩ := hadmits.of_cons
    refine Settles.after_clerical (.stopped ?_ ?_) (hbegin _ _ _)
    · exact (hlayout hwalk).weaken (fun _ _ h => h) False.elim
    · exact (Execution.walkRoot_inOrder hadmits hwalk).1.weaken hplaces
  | concluding hwalk hend =>
    obtain ⟨w₁, -, hadmits⟩ := hadmits.of_cons
    obtain ⟨w₂, hw₂, -⟩ := hadmits.split
    obtain ⟨horderly, hverdict⟩ := Execution.walkRoot_inOrder hw₂ hwalk
    refine Settles.after_clerical ?_ (hbegin _ _ _)
    exact .of_concluded ((hlayout hwalk).weaken (fun _ _ h => h) fun _ => by simp)
      (horderly.weaken hplaces) (hverdict _ _ rfl) hend

/-- **A run from the beginning**, whatever its plan makes of failures. -/
theorem run_settles {pace : Clock → Clock → Prop} {e : Engine} {source : PlanSource} {plan : Plan}
    {given executionId : Option String} {ds : List Deed} {r : Option (Outcome × Clock)} {w w' : World}
    (haccept : source.accept = .ok plan) (hruns : w.Runs pace (e.run source given executionId) ds r w') :
    ∃ runId, Settles pace ⟨e, plan, runId⟩ ds r := by
  obtain ⟨hcourse, hadmits⟩ := hruns
  have hid {t : Clock} {es : List Deed} {q : Option (Except Fault String × Clock)}
      (h : Program.Course pace none t (Engine.newRunId given).outcome es q) : Clerical es :=
    .of_course h (newRunId_makes given ⟨rfl, rfl⟩)
  have hannounce {runId : String} {t : Clock} {es : List Deed} {q : Option (Except Fault Unit × Clock)}
      (h : Program.Course pace none t (Engine.announce ⟨e, plan, runId⟩ executionId).outcome es q) :
      Clerical es := .of_course h ⟨⟨rfl, rfl⟩, fun _ => trivial⟩
  cases RunCourse.of_course haccept hcourse with
  | naming h => exact ⟨"", .of_clerical (hid h)⟩
  | announcing h h' => exact ⟨"", .after_clerical (.of_clerical (hannounce h')) (hid h)⟩
  | attempting h h' hattempt =>
    obtain ⟨w₁, -, hadmits⟩ := hadmits.split
    obtain ⟨w₂, -, hadmits⟩ := hadmits.split
    have hsettles := carryOutFrom_settles hadmits hattempt
    exact ⟨_, (hsettles.after_clerical (hannounce h')).after_clerical (hid h)⟩

/-! ## Plans that fail fast -/

/-- A report of a failure. -/
def Report.Failed (r : Report) : Prop := ∃ f, r.outcome = .error f

theorem Plan.halts_iff {p : Plan} (h : p.continueOnError = false) {α : Type} {o : Except Fault α} :
    p.Halts o ↔ ∃ f, o = .error f :=
  ⟨fun ⟨f, ho, _⟩ => ⟨f, ho⟩, fun ⟨f, ho⟩ => ⟨f, ho, stopsOn_of_failFast h f⟩⟩

/-- **Fail-fast stops at the first failure.** A run of a plan that does not go on after errors fails just
    when a step has failed, and then with the first failure. Whatever it has to do with others it does for a
    step of the plan, and never for one that comes after a failure, unless side by side with it. -/
theorem run_fails_fast {pace : Clock → Clock → Prop} {e : Engine} {source : PlanSource} {plan : Plan}
    {given executionId : Option String} {ds : List Deed} {r : Option (Outcome × Clock)} {w w' : World}
    (haccept : source.accept = .ok plan) (hcontinue : plan.continueOnError = false)
    (hruns : w.Runs pace (e.run source given executionId) ds r w') :
    (∀ o t, r = some (o, t) → ((∃ f, o = .error f) ↔ ∃ a ∈ reports ds, a.Failed))
      ∧ (∀ f t, r = some (.error f, t) → ∃ q, FirstFailure e.functions plan (reports ds) q f)
      ∧ ∀ d ∈ ds, d.call.isOutside = true → ∃ q s, d.step = some q ∧ plan.Has q s
        ∧ ∀ a ∈ reports ds, a.Failed → a.path.Before q → a.path.Beside q := by
  obtain ⟨runId, h⟩ := run_settles haccept hruns
  refine ⟨fun o t hr => ?_, fun f t hr => (h.first f t hr).2, fun d hd hout => ?_⟩
  · rw [h.fails o t hr]
    simp only [Plan.halts_iff hcontinue, Report.Failed]
  · obtain ⟨q, hq⟩ := h.orderly.owned d hd hout
    obtain ⟨s, hs⟩ := h.orderly.placed d hd q hq
    refine ⟨q, s, hq, hs, fun a ha hfailed hbefore => ?_⟩
    have hhalts := (Plan.halts_iff hcontinue).mpr hfailed
    rcases h.orderly.spares a ha hhalts d hd q hq hbefore with hbeside | ⟨-, hreport⟩
    · exact hbeside
    · -- a report is not for others to answer
      cases hcall : d.call <;> simp [hcall, Call.isOutside, Call.report?] at hout hreport

/-! ### An instance -/

/-- A condition whose second agent fails, beside an agent that fails, and an agent after both. -/
def failingBranches : Plan :=
  { id := none
    steps :=
      [.parallel none
        [.condition none (.constant true)
          [plainAgent "first", plainAgent "missing", plainAgent "third"] none, plainAgent "lost"],
       plainAgent "last"]
    input := .null
    messages := []
    continueOnError := false
    hookTimeout := none
    workerPoll := none
    workflowPoll := none }

/-- Surroundings in which two agents cannot be reached. -/
def twoUnreachable : Environment :=
  .replying fun r =>
    if r.url = "http://localhost:3000/api/studio/chat/agent/missing" then { response := .error "refused" }
    else if r.url = "http://localhost:3000/api/studio/chat/agent/lost" then { response := .error "lost" }
    else { response := .ok ⟨200, "", .object [("result", .text "done")]⟩ }

/-- The run of that plan. -/
def failingRun : Prompt Outcome :=
  (plainEngine.run (.parsed failingBranches) (some "run") none).promptly twoUnreachable {}

/-- Five steps report, of which four have failed; the agents behind the failures are never called. -/
theorem failingRun_stops :
    ((reports failingRun.deeds).map fun r => (r.path.map Place.index, r.outcome.toOption.isSome))
        = [([0, 0, 0], true), ([0, 0, 1], false), ([0, 0], false), ([0, 1], false), ([0], false)]
      ∧ ∃ f q, failingRun.outcome = .error f
        ∧ FirstFailure plainEngine.functions failingBranches (reports failingRun.deeds) q f := by
  refine ⟨by decide +kernel, ?_⟩
  have hruns := Fiber.runs_promptly Nat.le_refl twoUnreachable
    (plainEngine.run (.parsed failingBranches) (some "run") none) {}
  rw [← failingRun] at hruns
  have haccept : (PlanSource.parsed failingBranches).accept = .ok failingBranches := rfl
  obtain ⟨-, hfirst, -⟩ := run_fails_fast haccept rfl hruns
  have hfails : failingRun.outcome.toOption.isSome = false := by decide +kernel
  cases ho : failingRun.outcome with
  | ok r => rw [ho] at hfails; exact absurd hfails (by simp [Except.toOption])
  | error f =>
    obtain ⟨q, hq⟩ := hfirst f _ (by rw [ho])
    exact ⟨f, q, rfl, hq⟩

end Runbook
