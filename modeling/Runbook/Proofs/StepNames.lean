import Runbook.Proofs.Inspection
import Runbook.Proofs.Lineage
import Runbook.Proofs.Places

/-!
# `Proofs.StepNames` — a path names one step, for everyone

Two walks go through a plan. The check goes through the document, and whatever it complains of it places at the
path of a step; a run goes through the plan that was read of the document, and journals, jobs and runs elsewhere
are named by the paths that it has come along. Neither walk knows of the other. They give the same step the same
path nevertheless, since both come to the steps of the plan in the list `Plan.sites`. No two paths in that list
have the same text, and no text holds a character that the names of jobs and of runs put before it; so these names
tell run and step, whatever the id of the run is.

## Contents
- **Checks of single steps.** `Validation.checkAlone` and `checkEach`; `ComesTo`, a check that comes to steps at
  their places.
- **The walk of the check.** `checkStep_comesTo`, by induction on what is shown, and `check_comesTo_sites`.
- **The walk of a run.** `Attempted.layout`, by induction on the attempts.
- **The text of paths.** `Plan.Has.text_eq`, and `Plan.nodup_texts`.
- **Names.** `Execution.jobName_injective` and `Execution.startName_injective`.
- **The result.** `step_paths_identify`.
-/

namespace Runbook

namespace Validation

/-! ## Checks of single steps -/

/-- The findings about the first list of a condition. -/
def checkThen (v : Value) (path : StepPath) (f : Findings) : Findings :=
  match member v "then" with
  | .list _ => f
  | _ => f.addAt .conditionWithoutThen path

/-- **The check of a step alone**, without the steps inside it. -/
def checkAlone (plan v : Value) (path : StepPath) (f : Findings) : Except Fault Findings :=
  match member v "type" with
  | .text "condition" => .ok (checkThen v path (checkPredicate v path (checkId v path f)))
  | .text "parallel" => .ok (checkBranches v path (checkId v path f))
  | _ => checkNode plan v [] path f

/-- Values are checked one after another, each alone and at its place. -/
def checkEach (plan : Value) (visits : List (StepPath × Value)) (f : Findings) : Except Fault Findings :=
  visits.foldlM (fun f visit => checkAlone plan visit.2 visit.1 f) f

/-- A value at a place shows the step that stands there. -/
def ShowsAt (visit : StepPath × Value) (site : StepPath × Step) : Prop :=
  visit.1 = site.1 ∧ Shows visit.2 site.2

/-- **A check that comes to steps at their places**: whatever the plan and whatever has been found, it checks the
    same values one after another, each alone, and these show the steps at their places. -/
def ComesTo (check : Value → Findings → Except Fault Findings) (sites : List (StepPath × Step)) : Prop :=
  ∃ visits, (∀ plan f, check plan f = checkEach plan visits f) ∧ List.Forall₂ ShowsAt visits sites

section

variable {check check' : Value → Findings → Except Fault Findings} {sites sites' : List (StepPath × Step)}
  {v : Value} {s : Step} {path : StepPath}

theorem ComesTo.nil : ComesTo (fun _ f => .ok f) [] := ⟨[], fun _ _ => rfl, .nil⟩

theorem ComesTo.alone (h : Shows v s) : ComesTo (fun plan f => checkAlone plan v path f) [(path, s)] :=
  ⟨[(path, v)], fun _ _ => (bind_pure _).symm, .cons ⟨rfl, h⟩ .nil⟩

/-- One check after another. -/
theorem ComesTo.append (h : ComesTo check sites) (h' : ComesTo check' sites') :
    ComesTo (fun plan f => check plan f >>= check' plan) (sites ++ sites') := by
  obtain ⟨visits, heq, hshows⟩ := h
  obtain ⟨visits', heq', hshows'⟩ := h'
  refine ⟨visits ++ visits', fun plan f => ?_, List.rel_append hshows hshows'⟩
  show check plan f >>= check' plan = checkEach plan (visits ++ visits') f
  rw [heq, checkEach, checkEach, List.foldlM_append]
  exact bind_congr fun g => heq' plan g

theorem ComesTo.congr (h : ComesTo check sites) (heq : ∀ plan f, check' plan f = check plan f) :
    ComesTo check' sites := by
  obtain ⟨visits, hcheck, hshows⟩ := h
  exact ⟨visits, fun plan f => (heq plan f).trans (hcheck plan f), hshows⟩

end

/-! ## The walk of the check -/

/-- The check of the list that a member may be. -/
def checkList (plan : Value) (m : Option Value) (parent : Option (StepPath × Branch)) (f : Findings) :
    Except Fault Findings :=
  match m.bind (listCheck? plan) with
  | some check => check parent f
  | none => .ok f

section

variable {plan v : Value} {s : Step} {path : StepPath} {f : Findings} {nested : Keyed (Option ListCheck)}
  {parent : Option (StepPath × Branch)} {steps : List Step}

/-- A value with a type is checked as a node at the place of a step of that type. -/
theorem checkStep_within (plan : Value) {kind : String} (hkind : member v "type" = .text kind) :
    ∃ nested, ChecksOf plan v nested
      ∧ ∀ parent i f, checkStep plan v parent i f = checkNode plan v nested (.within parent i kind) f := by
  obtain ⟨nested, hlists, heq⟩ := checkStep_eq plan hkind
  refine ⟨nested, hlists, fun parent i f => ?_⟩
  rw [heq, pathOf, hkind]
  rfl

/-- A step without steps inside is checked alone. -/
theorem checkNode_plain (hkind : member v "type" = .text s.kind) (hs : s.holdsSteps = false) :
    checkNode plan v nested path f = checkAlone plan v path f := by
  unfold checkAlone checkNode
  rw [hkind]
  cases s with
  | condition | parallel => exact absurd hs (by simp [Step.holdsSteps])
  | _ => rfl

theorem checkUnder_then (hlists : ChecksOf plan v nested) :
    checkUnder nested v "then" parent f (f.addAt .conditionWithoutThen path)
      = checkList plan (member? v "then") parent (checkThen v path f) := by
  unfold checkUnder checkList checkThen
  rw [hlists, member]
  cases member? v "then" with
  | none => rfl
  | some u => cases u <;> rfl

/-- What shows steps, or none, is no defect of a condition. -/
theorem checkElse_list (hlists : ChecksOf plan v nested) (hshows : ShowsUnder (member? v "else") steps) :
    checkElse v nested path f = checkList plan (member? v "else") (some (path, .whenFalse)) f := by
  unfold checkElse checkUnder checkList
  rw [hlists, member]
  generalize member? v "else" = m at hshows
  cases hshows <;> rfl

/-- A condition is checked alone, and then its lists are. -/
theorem checkNode_condition (hkind : member v "type" = .text "condition") (hlists : ChecksOf plan v nested)
    (hshows : ShowsUnder (member? v "else") steps) :
    checkNode plan v nested path f
      = checkAlone plan v path f >>= fun f₁ =>
          checkList plan (member? v "then") (some (path, .whenTrue)) f₁ >>=
            checkList plan (member? v "else") (some (path, .whenFalse)) := by
  have halone : checkAlone plan v path f
      = .ok (checkThen v path (checkPredicate v path (checkId v path f))) := by
    rw [checkAlone, hkind]
    rfl
  have hnode : checkNode plan v nested path f = checkCondition v nested path (checkId v path f) := by
    rw [checkNode, hkind]
    rfl
  rw [hnode, halone, checkCondition_eq, checkUnder_then hlists]
  exact bind_congr fun f₂ => checkElse_list hlists hshows

/-- A parallel step is checked alone, and then its list is. -/
theorem checkNode_parallel (hkind : member v "type" = .text "parallel") (hlists : ChecksOf plan v nested) :
    checkNode plan v nested path f
      = checkAlone plan v path f >>= checkList plan (member? v "steps") (some (path, .parallel)) := by
  have halone : checkAlone plan v path f = .ok (checkBranches v path (checkId v path f)) := by
    rw [checkAlone, hkind]
    rfl
  have hnode : checkNode plan v nested path f = checkParallel v nested path (checkId v path f) := by
    rw [checkNode, hkind]
    rfl
  rw [hnode, halone, checkParallel_eq]
  unfold checkUnder
  rw [hlists]
  rfl

end

mutual
/-- **The check of a step comes to the step that its value shows**, and to those inside it. -/
theorem checkStep_comesTo : ∀ {v : Value} {s : Step}, Shows v s →
    ∀ (parent : Option (StepPath × Branch)) (i : Nat),
      ComesTo (fun plan f => checkStep plan v parent i f) (s.sites (.within parent i s.kind))
  | v, s, .plain hid hkind hs, parent, i => by
    rw [Step.sites_of_not_holdsSteps hs]
    refine (ComesTo.alone (.plain hid hkind hs)).congr fun plan f => ?_
    obtain ⟨nested, -, heq⟩ := checkStep_within plan hkind
    rw [heq, checkNode_plain hkind hs]
  | v, .condition id predicate whenTrue whenFalse, .condition hid hkind hthen helse, parent, i => by
    let path := StepPath.within parent i "condition"
    rw [show (Step.condition id predicate whenTrue whenFalse).kind = "condition" from rfl, Step.sites_condition]
    have hself : ComesTo (fun plan f => checkAlone plan v path f)
        [(path, .condition id predicate whenTrue whenFalse)] := .alone (.condition hid hkind hthen helse)
    refine (hself.append ((checkList_comesTo hthen (some (path, .whenTrue))).append
      (checkList_comesTo helse (some (path, .whenFalse))))).congr fun plan f => ?_
    obtain ⟨nested, hlists, heq⟩ := checkStep_within plan hkind
    rw [heq, checkNode_condition hkind hlists helse]
  | v, .parallel id branches, .parallel hid hkind hsteps, parent, i => by
    let path := StepPath.within parent i "parallel"
    rw [show (Step.parallel id branches).kind = "parallel" from rfl, Step.sites]
    have hself : ComesTo (fun plan f => checkAlone plan v path f) [(path, .parallel id branches)] :=
      .alone (.parallel hid hkind hsteps)
    refine (hself.append (checkList_comesTo hsteps (some (path, .parallel)))).congr fun plan f => ?_
    obtain ⟨nested, hlists, heq⟩ := checkStep_within plan hkind
    rw [heq, checkNode_parallel hkind hlists]

/-- The check of a member that shows steps comes to these. -/
theorem checkList_comesTo : ∀ {m : Option Value} {steps : List Step}, ShowsUnder m steps →
    ∀ parent : Option (StepPath × Branch),
      ComesTo (fun plan f => checkList plan m parent f) (sitesIn parent 0 steps)
  | _, _, .missing, _ => by
    rw [sitesIn]
    exact .nil
  | _, _, .null, _ => by
    rw [sitesIn]
    exact .nil
  | _, _, .list h, parent => checkSteps_comesTo h parent 0

/-- The check of values that show steps comes to these. -/
theorem checkSteps_comesTo : ∀ {items : List Value} {steps : List Step}, ShowsAll items steps →
    ∀ (parent : Option (StepPath × Branch)) (i : Nat),
      ComesTo (fun plan f => checkSteps plan items i parent f) (sitesIn parent i steps)
  | _, _, .nil, parent, i => by
    rw [sitesIn]
    exact ComesTo.nil.congr fun plan f => by rw [checkSteps]
  | _, _, .cons first rest, parent, i => by
    rw [sitesIn]
    refine ((checkStep_comesTo first parent i).append (checkSteps_comesTo rest parent (i + 1))).congr
      fun plan f => ?_
    rw [checkSteps]
end

/-- What is checked of a plan is a list of steps, if it is accepted. -/
theorem steps_of_validate {v : Value} {issues : List Issue} (h : validate v = .ok issues)
    (hissues : issues.filter Issue.isError = []) : ∃ items, member v "steps" = .list items := by
  unfold validate at h
  split at h
  · obtain rfl := Except.ok.inj h
    exact absurd hissues (by simp [Issue.isError, Defect.severity])
  · split at h
    · next items hitems => exact ⟨items, hitems⟩
    · obtain rfl := Except.ok.inj h
      exact absurd hissues (by simp [Issue.isError, Defect.severity])

/-- **The check of an accepted plan** comes to the steps of the plan at their places. -/
theorem check_comesTo_sites {source : PlanSource} {plan : Plan} (hgenuine : source.isGenuine = true)
    (haccept : source.accept = .ok plan) :
    ∃ items, member source.toValue "steps" = .list items
      ∧ ComesTo (fun value f => checkSteps value items 0 none f) plan.sites := by
  obtain ⟨issues, hvalidate, hissues, -⟩ := PlanSource.accept_eq_ok.mp haccept
  obtain ⟨items, hitems⟩ := steps_of_validate hvalidate hissues
  exact ⟨items, hitems, checkSteps_comesTo (steps_show_of_accept hgenuine haccept hitems) none 0⟩

end Validation

/-! ## The walk of a run -/

/-- **Every attempt at a run** does whatever it does for the steps of the plan, for each at its place. -/
theorem Attempted.layout {pace : Clock → Clock → Prop} {source : PlanSource} {plan : Plan} {id : String}
    {runs : RunStore} {trials : List Trial} (h : Attempted pace source id runs trials)
    (haccept : source.accept = .ok plan) (hid : id ≠ "") {w : World} (hruns : w.stores.runs = runs)
    (hstored : w.WellStored plan.steps.length id) :
    ∀ a ∈ trials, Layout pace ⟨a.engine, plan, id⟩ plan.Has (a.result ≠ none) a.deeds := by
  induction h generalizing w with
  | nil => exact fun a ha => absurd ha List.not_mem_nil
  | @cons runs a rest hbefore hattempts _ ih =>
    have hstart : a.before.WellStored plan.steps.length id := hstored.of_runs (hbefore.trans hruns.symm)
    obtain ⟨-, hafter, anew, hundertakes⟩ := hattempts.undertakes haccept hid hstart
    exact List.forall_mem_cons.mpr ⟨(hundertakes.layout hstart).1, ih rfl hafter⟩

/-! ## The text of paths -/

section

variable {s t : Step} {rest q : StepPath} {p : Plan}

/-- What is inside a step stands in a list of the step, or in a list of a step inside it. -/
theorem Step.Has.eq_or_under (h : s.Has rest t) :
    rest = [] ∧ s = t ∨ ∃ path u b i, s.Has path u ∧ (u.listOf b)[i]? = some t
      ∧ rest = StepPath.child path b i t.kind := by
  induction h with
  | here => exact .inl ⟨rfl, rfl⟩
  | @inside s s' t b i rest hi h ih =>
    right
    rcases ih with ⟨rfl, rfl⟩ | ⟨path, u, b', j, hu, hj, rfl⟩
    · exact ⟨[], s, b, i, .here, hi, rfl⟩
    · exact ⟨_, u, b', j, .inside hi hu, hj, rfl⟩

/-- **How the path of a step is written**: the index of the step in its list and its kind; before them the path of
    the step in whose list it is, with the word for the list. -/
theorem Plan.Has.text_eq (h : p.Has q s) :
    (∃ i : Nat, p.steps[i]? = some s ∧ q.text = toString i ++ "-" ++ s.kind)
      ∨ ∃ (path : StepPath) (t : Step) (b : Branch) (i : Nat), p.Has path t ∧ (t.listOf b)[i]? = some s
        ∧ q.text = path.text ++ "." ++ b.word ++ "." ++ (toString i ++ "-" ++ s.kind) := by
  cases h with
  | @root s₀ _ i rest hi hinside =>
    rcases hinside.eq_or_under with ⟨rfl, rfl⟩ | ⟨path, u, b, j, hu, hj, rfl⟩
    · exact .inl ⟨i, hi, StepPath.text_root i _⟩
    · have htext := StepPath.text_child (List.cons_ne_nil ⟨none, (i : Int), s₀.kind⟩ path) b j s.kind
      exact .inr ⟨_, u, b, j, .root hi hu, hj, htext⟩

/-- **No two steps of a plan have paths that are written alike.** -/
theorem Plan.nodup_texts (p : Plan) : (p.sites.map fun site => site.1.text).Nodup := by
  have hproper : ∀ q ∈ p.sites.map Prod.fst, q.Proper := by
    intro q hq
    obtain ⟨site, hsite, rfl⟩ := List.mem_map.mp hq
    exact (Plan.mem_sites.mp hsite).proper
  have hnodup := p.nodup_sites.map_on fun q hq q' hq' htext =>
    StepPath.text_injective (hproper q hq) (hproper q' hq') htext
  rwa [List.map_map] at hnodup

end

/-! ## Names -/

namespace Execution

variable {x y : Execution} {path path' : StepPath}

/-- **The name of a step among those of all runs** tells its run and its path. -/
theorem jobName_injective (hp : path.Proper) (hp' : path'.Proper)
    (h : x.jobName path.text = y.jobName path'.text) : x.runId = y.runId ∧ path.text = path'.text := by
  have hslash {q : StepPath} (hq : q.Proper) : '/' ∉ q.text.toList := fun hc =>
    absurd (StepPath.isLetter_of_mem_text hq.kinds hc) (by decide)
  obtain ⟨hrun, hpath⟩ := eq_of_last_separator (c := '/') (hslash hp) (hslash hp') h
  exact ⟨(String.append_right_inj "stepflow:").mp hrun, hpath⟩

/-- **The name under which a step starts a run** tells the run and the path of the step. -/
theorem startName_injective (hp : path.Proper) (hp' : path'.Proper)
    (h : x.startName path.text = y.startName path'.text) : x.runId = y.runId ∧ path.text = path'.text := by
  have hcolon {q : StepPath} (hq : q.Proper) : ':' ∉ q.text.toList := fun hc =>
    absurd (StepPath.isLetter_of_mem_text hq.kinds hc) (by decide)
  exact eq_of_last_separator (c := ':') (hcolon hp) (hcolon hp') h

end Execution

/-! ## The result -/

open Validation in
/-- **Paths identify steps, everywhere.** Take a plan that is accepted, and a run of it that is attempted again and
    again, where nothing is stored of the run in the beginning. The check of the plan comes to its steps, each at
    its place; and whatever any attempt does for a step, it does for the step that stands at that place. Places
    are written as a walk down from the root list tells, and no two of them alike. So there is one name for each
    pair of a run and a step, among all runs and the steps of all plans: both the name of which the id of the job
    is made, and the one under which a run is started elsewhere. -/
theorem step_paths_identify {pace : Clock → Clock → Prop} {source : PlanSource} {plan : Plan} {id : String}
    {trials : List Trial} {w : World} (hgenuine : source.isGenuine = true) (haccept : source.accept = .ok plan)
    (hid : id ≠ "") (hfresh : w.checkpointOf id = none)
    (hattempted : Attempted pace source id w.stores.runs trials) :
    (∃ items, member source.toValue "steps" = .list items
        ∧ ComesTo (fun value f => checkSteps value items 0 none f) plan.sites)
      ∧ (∀ a ∈ trials, Layout pace ⟨a.engine, plan, id⟩ (fun q s => (q, s) ∈ plan.sites) (a.result ≠ none) a.deeds)
      ∧ (∀ q s, (q, s) ∈ plan.sites →
          (∃ i : Nat, plan.steps[i]? = some s ∧ q.text = toString i ++ "-" ++ s.kind)
            ∨ ∃ (path : StepPath) (t : Step) (b : Branch) (i : Nat), (path, t) ∈ plan.sites
              ∧ (t.listOf b)[i]? = some s
              ∧ q.text = path.text ++ "." ++ b.word ++ "." ++ (toString i ++ "-" ++ s.kind))
      ∧ (plan.sites.map fun site => site.1.text).Nodup
      ∧ ∀ (plan' : Plan) (x y : Execution) (q q' : StepPath) (s s' : Step), (q, s) ∈ plan.sites →
          (q', s') ∈ plan'.sites → (x.runId, q.text) ≠ (y.runId, q'.text) →
          x.jobName q.text ≠ y.jobName q'.text ∧ x.startName q.text ≠ y.startName q'.text := by
  refine ⟨check_comesTo_sites hgenuine haccept, ?attempts, ?texts, plan.nodup_texts, ?names⟩
  case attempts =>
    have hstored : w.WellStored plan.steps.length id := fun data hdata =>
      absurd (hfresh.symm.trans hdata) (by simp)
    intro a ha
    exact (hattempted.layout haccept hid rfl hstored a ha).weaken (fun q s => Plan.mem_sites.mpr) fun h => h
  case texts =>
    intro q s hsite
    simp only [Plan.mem_sites] at hsite ⊢
    exact hsite.text_eq
  case names =>
    intro plan' x y q q' s s' hsite hsite' hne
    have hproper : q.Proper := (Plan.mem_sites.mp hsite).proper
    have hproper' : q'.Proper := (Plan.mem_sites.mp hsite').proper
    constructor
    · intro h
      obtain ⟨hrun, hpath⟩ := Execution.jobName_injective hproper hproper' h
      exact hne (by rw [hrun, hpath])
    · intro h
      obtain ⟨hrun, hpath⟩ := Execution.startName_injective hproper hproper' h
      exact hne (by rw [hrun, hpath])

/-- A survey, or else a hook without a token; and then a report. -/
def survey : PlanSource :=
  .document (.object
    [("steps", .list
      [.object
        [("type", .text "parallel"),
         ("steps", .list
          [.object
            [("type", .text "condition"), ("if", .bool true),
             ("then", .list [.object [("type", .text "agent"), ("agent", .text "surveyor")]]),
             ("else", .list [.object [("type", .text "hook")]])]])],
       .object [("type", .text "workflow"), ("workflow", .text "report"), ("await", .bool false)]])])

/-- The plan that is read of it. -/
def surveyPlan : Plan where
  id := none
  steps :=
    [.parallel none
      [.condition none (.constant true) [.agent ⟨none, .absent, none, false⟩ "surveyor"]
        (some [.hook ⟨none, none, none, .null, false⟩])],
     .workflow ⟨none, .absent, some false, false⟩ "report"]
  input := .object []
  messages := []
  continueOnError := false
  hookTimeout := none
  workerPoll := none
  workflowPoll := none

/-- A run of it. -/
def surveyRun : Trial := .prompt plainEngine agentsDone {} (plainEngine.run survey (some "nightly") none)

/-- The check complains of the hook at its place, the run comes to the agent at its place, and a run whose id ends
    like a path starts no run under a name of this one. -/
theorem survey_paths_identify :
    survey.accept = .ok surveyPlan
      ∧ validate survey.toValue = .ok [⟨.hookWithoutToken, some "0-parallel.parallel.0-condition.else.0-hook"⟩]
      ∧ surveyPlan.sites.map (fun site => site.1.text)
        = ["0-parallel", "0-parallel.parallel.0-condition", "0-parallel.parallel.0-condition.then.0-agent",
            "0-parallel.parallel.0-condition.else.0-hook", "1-workflow"]
      ∧ (∃ d ∈ surveyRun.deeds, ∃ q s, d.step = some q ∧ q.text = "0-parallel.parallel.0-condition.then.0-agent"
          ∧ (q, s) ∈ surveyPlan.sites)
      ∧ (⟨plainEngine, surveyPlan, "nightly"⟩ : Execution).startName "1-workflow"
        ≠ (⟨plainEngine, surveyPlan, "nightly:1-workflow"⟩ : Execution).startName "1-workflow" := by
  have haccept : survey.accept = .ok surveyPlan := by rfl
  have hattempted : Attempted (· ≤ ·) survey "nightly" ({} : World).stores.runs [surveyRun] :=
    .cons rfl (.anew (.given rfl) (Trial.prompt_runs ..)) .nil
  obtain ⟨-, hlayout, -, -, hnames⟩ :=
    step_paths_identify (w := {}) rfl haccept (by decide) rfl hattempted
  refine ⟨haccept, rfl, by decide +kernel, ?_, ?_⟩
  · have hfound : (surveyRun.deeds.any fun d =>
        d.step.map StepPath.text = some "0-parallel.parallel.0-condition.then.0-agent") = true := by decide +kernel
    obtain ⟨d, hd, htext⟩ := List.any_eq_true.mp hfound
    obtain ⟨q, hq, htext⟩ := Option.map_eq_some_iff.mp (of_decide_eq_true htext)
    obtain ⟨s, hs⟩ := (hlayout surveyRun List.mem_cons_self).site hd hq
    exact ⟨d, hd, q, s, hq, htext, hs⟩
  · let report : Step := .workflow ⟨none, .absent, some false, false⟩ "report"
    have hreport : surveyPlan.steps[1]? = some report := rfl
    have hsite : (StepPath.root 1 "workflow", report) ∈ surveyPlan.sites :=
      Plan.mem_sites.mpr (.root hreport .here)
    exact (hnames surveyPlan ⟨plainEngine, surveyPlan, "nightly"⟩ ⟨plainEngine, surveyPlan, "nightly:1-workflow"⟩
      _ _ _ _ hsite hsite (by simp)).2

end Runbook
