import Runbook.Proofs.Arrivals
import Runbook.Proofs.Interleaving
import Runbook.Proofs.Places
import Runbook.Proofs.TwoReadings

/-!
# `Proofs.LostPredicates` — the check of a plan and the check of its transport form

Functions do not cross a process boundary. For an input or a token a flag is left behind, with which the check is
content; for a predicate nothing is, and the check asks for one. That is all that the two checks differ in: both
walk through the same tree, in the same order, and find the same issues at the same places, and the second finds
one issue more at each condition that a function decides. `transport_form_issues` says so of every plan.

## Contents
- **Lost predicates.** `Step.isDecidedByFunction` and `lostIn`.
- **Findings side by side.** `Findings.Exceeds` and `Exceeded`.
- **Members.** The fields of what is written, as the check finds them.
- **Steps.** The checks of fields, `checkCondition_exceeded`, `checkParallel_exceeded`, and `stepExceeded`, by
  induction on the tree.
- **Plans.** `transport_form_issues`.
-/

namespace Runbook

/-! ## Lost predicates -/

/-- Whether a step is a condition that a function decides. -/
def Step.isDecidedByFunction : Step → Bool
  | .condition _ (.other u) _ _ => u.isCallable
  | _ => false

/-- The places of the conditions that functions decide. -/
def lostIn (sites : List (StepPath × Step)) : List StepPath :=
  (sites.filter (·.2.isDecidedByFunction)).map Prod.fst

theorem lostIn_append (sites sites' : List (StepPath × Step)) :
    lostIn (sites ++ sites') = lostIn sites ++ lostIn sites' := by
  rw [lostIn, List.filter_append, List.map_append]
  rfl

theorem lostIn_cons (q : StepPath) (s : Step) (sites : List (StepPath × Step)) :
    lostIn ((q, s) :: sites) = (if s.isDecidedByFunction then [q] else []) ++ lostIn sites := by
  unfold lostIn
  rw [List.filter_cons]
  split <;> rfl

/-- **The places of lost predicates** are those of the conditions that functions decide. -/
theorem Plan.mem_lostIn_sites {p : Plan} {q : StepPath} :
    q ∈ lostIn p.sites ↔ ∃ id u whenTrue whenFalse,
      p.Has q (.condition id (.other u) whenTrue whenFalse) ∧ u.isCallable = true := by
  constructor
  · intro hq
    obtain ⟨⟨q', s⟩, hmem, rfl⟩ := List.mem_map.mp hq
    obtain ⟨hsite, hdecided⟩ := List.mem_filter.mp hmem
    cases s with
    | condition id predicate whenTrue whenFalse =>
      cases predicate with
      | other u => exact ⟨id, u, whenTrue, whenFalse, Plan.mem_sites.mp hsite, hdecided⟩
      | constant | stepField => exact absurd hdecided (by simp [Step.isDecidedByFunction])
    | _ => exact absurd hdecided (by simp [Step.isDecidedByFunction])
  · rintro ⟨id, u, whenTrue, whenFalse, hhas, hcallable⟩
    have hsite : (q, .condition id (.other u) whenTrue whenFalse) ∈ p.sites := Plan.mem_sites.mpr hhas
    apply List.mem_map.mpr
    exact ⟨_, List.mem_filter.mpr ⟨hsite, hcallable⟩, rfl⟩

theorem Plan.nodup_lostIn_sites (p : Plan) : (lostIn p.sites).Nodup := by
  have hsublist : (lostIn p.sites).Sublist (p.sites.map Prod.fst) := List.filter_sublist.map Prod.fst
  exact p.nodup_sites.sublist hsublist

/-- The issue of a condition without a predicate. -/
def lostIssue (q : StepPath) : Issue := ⟨.badPredicate, some q.text⟩

namespace Validation

/-! ## Findings side by side -/

/-- **Findings with further issues**: the same ids were met, and between the same issues stand those of lost
    predicates. -/
structure Findings.Exceeds (f f' : Findings) (lost : List StepPath) : Prop where
  seen : f'.seen = f.seen
  issues : Interleaved f.issues (lost.map lostIssue) f'.issues

namespace Findings.Exceeds

variable {f f' : Findings} {lost : List StepPath}

theorem refl (f : Findings) : f.Exceeds f [] := ⟨rfl, .refl_left _⟩

/-- An issue that both checks find. -/
theorem add_both (h : f.Exceeds f' lost) (defect : Defect) (step : Option String) :
    (f.add defect step).Exceeds (f'.add defect step) lost := by
  refine ⟨h.seen, ?_⟩
  have hboth := h.issues.concat (.left .nil : Interleaved [⟨defect, step⟩] [] [⟨defect, step⟩])
  rwa [List.append_nil] at hboth

/-- The issue of a lost predicate, which only the second check finds. -/
theorem add_lost (h : f.Exceeds f' lost) (q : StepPath) :
    f.Exceeds (f'.addAt .badPredicate q) (lost ++ [q]) := by
  refine ⟨h.seen, ?_⟩
  have hsecond := h.issues.concat (.right .nil : Interleaved [] [lostIssue q] [lostIssue q])
  rw [List.append_nil] at hsecond
  rw [List.map_append]
  exact hsecond

end Findings.Exceeds

/-- **Two checks side by side**: both have an answer, the second with the issues of lost predicates, or both
    stop for the same reason. -/
inductive Exceeded (lost : List StepPath) : Except Fault Findings → Except Fault Findings → Prop where
  | ok {f f' : Findings} (h : f.Exceeds f' lost) : Exceeded lost (.ok f) (.ok f')
  | error (e : Fault) : Exceeded lost (.error e) (.error e)

section

variable {lost lost' : List StepPath}

theorem Exceeded.bind {r r' : Except Fault Findings} (h : Exceeded lost r r')
    {next next' : Findings → Except Fault Findings}
    (hnext : ∀ f f', f.Exceeds f' lost → Exceeded lost' (next f) (next' f')) :
    Exceeded lost' (r >>= next) (r' >>= next') := by
  cases h with
  | ok h => exact hnext _ _ h
  | error e => exact .error e

/-! ## Members -/

/-- A field of a document under the name that documents use. -/
theorem member_object {fields : Keyed Value} {name : String} {o : Option Value} (h : Keyed.get? fields name = o)
    (hname : memberName name = name ∨ Keyed.get? fields (memberName name) = none) :
    member (.object fields) name = o.getD .null := by
  unfold member member? fieldOf?
  dsimp only
  rw [h]
  cases o with
  | some v => rfl
  | none =>
    rcases hname with hsame | hnone
    · rw [hsame, h]
      rfl
    · rw [hnone]
      rfl

theorem getD_map_text (o : Option String) : (o.map Value.text).getD .null = .ofText? o := by
  cases o <;> rfl

section

variable {c : Capability} {kind : String} {rest : Keyed Value}

theorem member_document_type : member (Transport.capability c kind rest) "type" = .text kind :=
  member_object Transport.get?_capability_type (.inl rfl)

theorem member_document_id (hrest : Keyed.get? rest "id" = none) :
    member (Transport.capability c kind rest) "id" = .ofText? c.id := by
  rw [← getD_map_text]
  exact member_object (Transport.get?_capability_id hrest) (.inl rfl)

theorem member_document_await (hrest : Keyed.get? rest "await" = none) (hrest' : Keyed.get? rest "await_" = none) :
    member (Transport.capability c kind rest) "await" = .ofBool? c.await := by
  have hunused : Keyed.get? (Transport.capabilityFields c kind rest) "await_" = none :=
    (Transport.get?_capability_own (by decide)).trans hrest'
  rw [Transport.capability_eq, member_object (Transport.get?_capability_await hrest) (.inr hunused)]
  cases c.await <;> rfl

/-- The fields that capability steps do not share. -/
theorem member_document_own {name : String} {v : Value}
    (hname : name ∉ ["id", "await", "inputIsFunction", "type", "input"]) (hv : Keyed.get? rest name = some v) :
    member (Transport.capability c kind rest) name = v := by
  have hfound : Keyed.get? (Transport.capabilityFields c kind rest) name = some v :=
    (Transport.get?_capability_own hname).trans hv
  rw [Transport.capability_eq]
  unfold member member? fieldOf?
  dsimp only
  rw [hfound]
  rfl

end

/-- What a step is written with, and what type it has. -/
theorem member_document (s : Step) :
    member s.toDocument "id" = .ofText? s.id? ∧ member s.toDocument "type" = .text s.kind := by
  cases s with
  | agent call agent => exact ⟨member_document_id rfl, member_document_type⟩
  | foreign call agent => exact ⟨member_document_id rfl, member_document_type⟩
  | workflow call workflow => exact ⟨member_document_id rfl, member_document_type⟩
  | worker call worker poll =>
    exact ⟨member_document_id (Transport.get?_workerFields_other (by decide) (by decide)), member_document_type⟩
  | hook h =>
    refine ⟨?_, member_object (Transport.get?_hookFields_type h) (.inl rfl)⟩
    exact (member_object (Transport.get?_hookFields_id h) (.inl rfl)).trans (getD_map_text _)
  | sleep id d => cases id <;> exact ⟨rfl, rfl⟩
  | condition id predicate whenTrue whenFalse =>
    rw [Transport.condition_eq]
    refine ⟨?_, member_object Transport.get?_conditionFields_type (.inl rfl)⟩
    exact (member_object Transport.get?_conditionFields_id (.inl rfl)).trans (getD_map_text _)
  | parallel id branches =>
    rw [Transport.parallel_eq]
    refine ⟨?_, member_object Transport.get?_parallelFields_type (.inl rfl)⟩
    exact (member_object Transport.get?_parallelFields_id (.inl rfl)).trans (getD_map_text _)

/-! ## Steps -/

/-! ### Fields -/

variable {v v' : Value} {path : StepPath} {f f' : Findings}

theorem checkId_exceeds (hid : member v' "id" = member v "id") (h : f.Exceeds f' lost) :
    (checkId v path f).Exceeds (checkId v' path f') lost := by
  unfold checkId
  rw [hid]
  split
  · exact h
  · rw [h.seen]
    split
    · exact h.add_both _ _
    · split
      · exact h.add_both _ _
      · exact ⟨rfl, h.issues⟩
  · exact h.add_both _ _

theorem checkName_exceeds (kind : CapabilityKind) (hname : member v' kind.word = member v kind.word)
    (h : f.Exceeds f' lost) : (checkName kind v path f).Exceeds (checkName kind v' path f') lost := by
  unfold checkName
  rw [hname]
  split
  · split
    · exact h.add_both _ _
    · exact h
  · exact h.add_both _ _

theorem checkAwait_exceeds {plan plan' : Value} (hawait : member v' "await" = member v "await")
    (hbounded : isBounded plan' v' = isBounded plan v) (h : f.Exceeds f' lost) :
    (checkAwait plan v path f).Exceeds (checkAwait plan' v' path f') lost := by
  unfold isBounded at hbounded
  unfold checkAwait
  rw [hawait, hbounded]
  split
  · split
    · exact h
    · exact h.add_both _ _
  · exact h

theorem checkToken_exceeds (htoken : hasToken v' = hasToken v) (h : f.Exceeds f' lost) :
    (checkToken v path f).Exceeds (checkToken v' path f') lost := by
  unfold checkToken
  rw [htoken]
  split
  · exact h
  · exact h.add_both _ _

theorem checkTimeout_exceeded (timeout : Value) (defect : TimeoutProblem → Defect) (at? : Option String)
    (h : f.Exceeds f' lost) : Exceeded lost (checkTimeout timeout defect at? f) (checkTimeout timeout defect at? f') := by
  unfold checkTimeout
  split
  · exact .ok h
  · cases timeoutProblem? timeout with
    | error e => exact .error e
    | ok problem =>
      cases problem with
      | some p => exact .ok (h.add_both _ at?)
      | none => exact .ok h

theorem checkSleep_exceeded (hduration : member? v' "duration" = member? v "duration") (h : f.Exceeds f' lost) :
    Exceeded lost (checkSleep v path f) (checkSleep v' path f') := by
  unfold checkSleep
  rw [hduration]
  split
  · exact .ok (h.add_both _ _)
  · split
    · exact .ok h
    · exact .error _
    · exact .ok (h.add_both _ _)

/-- A poll that is written has the bounds that it has. -/
theorem isBoundedPoll_document (poll : Option PollPolicy) :
    isBoundedPoll ((poll.map PollPolicy.toDocument).getD .null) = isBoundedPoll (PollPolicy.toValue? poll) := by
  rw [isBoundedPoll_toValue?]
  cases poll with
  | none => rfl
  | some p =>
    obtain ⟨interval, timeout, retries⟩ := p
    cases interval <;> cases timeout <;> cases retries <;> rfl

section

variable {call : Capability} {name : String} {poll : Option PollPolicy}

/-- A worker is awaited, or not, in what is written of it. -/
theorem member_worker_await :
    member (Step.worker call name poll).toDocument "await" = member (Step.worker call name poll).toValue "await" := by
  have hunused {key : String} (hname : key ≠ "worker") (hkey : key ≠ "workerPoll") :
      Keyed.get? (Transport.workerFields name poll) key = none := Transport.get?_workerFields_other hname hkey
  rw [Step.toValue, member_view_await]
  apply member_document_await
  · exact hunused (by decide) (by decide)
  · exact hunused (by decide) (by decide)

/-- The end of its job is looked for as often, as far as the check can see. -/
theorem isBoundedPoll_worker :
    isBoundedPoll (member (Step.worker call name poll).toDocument "workerPoll")
      = isBoundedPoll (member (Step.worker call name poll).toValue "workerPoll") := by
  have hview : member (Step.worker call name poll).toValue "workerPoll" = PollPolicy.toValue? poll := by
    rw [Step.toValue, member_view_own _ _ _ _ (by decide)]
    exact member_of_get? rfl
  have hunused : Keyed.get? (Transport.capabilityFields call "worker" (Transport.workerFields name poll))
      "worker_poll" = none := by
    rw [Transport.get?_capability_own (by decide)]
    exact Transport.get?_workerFields_other (by decide) (by decide)
  have hdocument : member (Step.worker call name poll).toDocument "workerPoll"
      = (poll.map PollPolicy.toDocument).getD .null :=
    member_object (Transport.get?_workerFields_poll name poll) (.inr hunused)
  rw [hview, hdocument, isBoundedPoll_document]

end

/-- A hook is written with its timeout. -/
theorem member_hook_timeout (h : Hook) :
    member (Step.hook h).toDocument "timeout" = member (Step.hook h).toValue "timeout" := by
  have hview : member (Step.hook h).toValue "timeout" = Duration.toValue? h.timeout := member_of_get? rfl
  have hdocument : member (Step.hook h).toDocument "timeout" = (h.timeout.map Duration.toValue).getD .null :=
    member_object (Transport.get?_hookFields_timeout h) (.inl rfl)
  rw [hview, hdocument]
  cases h.timeout <;> rfl

/-- **A hook is written with a token, or with the flag of one**, if it has one. -/
theorem hasToken_document {h : Hook} (hformed : (Step.hook h).Formed) :
    hasToken (Transport.hook h) = hasToken (Step.hook h).toValue := by
  have htoken : member (Transport.hook h) "token"
      = ((HookToken.arrived? h.token).map fun t => HookToken.toValue? (some t)).getD .null :=
    member_object (Transport.get?_hookFields_token h) (.inl rfl)
  have hunused : Keyed.get? (Transport.hookFields h) (memberName "tokenIsFunction") = none := by
    simp [Transport.hookFields, memberName, memberNames, Keyed.get?, Transport.get?_token_other]
  have hflag : member (Transport.hook h) "tokenIsFunction"
      = .bool ((Transport.token h.token).2 || h.tokenIsFunction) :=
    member_object (Transport.get?_hookFields_flag h) (.inr hunused)
  have hviewToken : member (Step.hook h).toValue "token" = HookToken.toValue? h.token := member_of_get? rfl
  have hviewFlag : member (Step.hook h).toValue "tokenIsFunction" = .bool h.tokenIsFunction := member_of_get? rfl
  unfold hasToken
  rw [htoken, hflag, hviewToken, hviewFlag]
  cases hgiven : h.token with
  | none => rfl
  | some token =>
    cases token with
    | text s => rfl
    | computed u =>
      -- what can be called has left its flag
      have hcallable : u.isCallable = true := hformed u hgiven
      cases u with
      | function ref => rfl
      | schema m => rfl
      | _ => exact absurd hcallable (by simp [Value.isCallable])

/-! ### Predicates -/

/-- Of what is neither a constant nor a comparison, only what can be called is a predicate. -/
theorem isPredicate_of_other {u : Value} (h : Predicate.ofValue u = .ok (.other u)) :
    isPredicate u = u.isCallable := by
  have hcompare {fields : Keyed Value} : (StepFieldCondition.ofFields fields).map Predicate.stepField ≠ .ok (.other u) := by
    intro h
    obtain ⟨c, -, hc⟩ := Checked.map_eq_ok.mp h
    exact absurd hc (by simp)
  cases u with
  | bool b => exact absurd (Checked.ok.inj h) (by simp)
  | object fields =>
    have hmarked : isStepField (.object fields) = false := by
      by_contra hmarked
      have hread : Predicate.ofValue (.object fields) = (StepFieldCondition.ofFields fields).map .stepField := by
        show (if isStepField (.object fields) then _ else _) = _
        rw [if_pos (by simpa using hmarked)]
      exact hcompare (hread.symm.trans h)
    have htype : ¬ (Keyed.get? fields "type").bind Value.text? = some "stepField" := of_decide_eq_false hmarked
    simp [isPredicate, htype, Value.isCallable]
  | parsed shape fields =>
    cases shape with
    | stepField => exact absurd h hcompare
    | _ => rfl
  | _ => rfl

/-- A comparison that is written is a predicate. -/
theorem isPredicate_document (c : StepFieldCondition) : isPredicate (Transport.stepField c) = true := by
  obtain ⟨stepId, path, op, value⟩ := c
  cases op <;> rfl

theorem checkPredicate_exceeds {id : Option String} {predicate : Predicate} {whenTrue : List Step}
    {whenFalse : Option (List Step)} (hformed : (Step.condition id predicate whenTrue whenFalse).Formed)
    (hview : member v "if" = predicate.toValue)
    (hdocument : member v' "if" = (Keyed.get? (Transport.predicate predicate) "if").getD .null)
    (h : f.Exceeds f' lost) :
    (checkPredicate v path f).Exceeds (checkPredicate v' path f')
      (lost ++ if (Step.condition id predicate whenTrue whenFalse).isDecidedByFunction then [path] else []) := by
  unfold checkPredicate
  rw [hview, hdocument]
  cases predicate with
  | constant b =>
    rw [show (if (Step.condition id (.constant b) whenTrue whenFalse).isDecidedByFunction then [path] else [])
      = [] from rfl, List.append_nil]
    exact h
  | stepField c =>
    have hboth : isPredicate ((Keyed.get? (Transport.predicate (.stepField c)) "if").getD .null) = true :=
      isPredicate_document c
    rw [show (if (Step.condition id (.stepField c) whenTrue whenFalse).isDecidedByFunction then [path] else [])
      = [] from rfl, List.append_nil, hboth]
    exact h
  | other u =>
    have hfirst : isPredicate (Predicate.other u).toValue = u.isCallable := isPredicate_of_other (hformed u rfl)
    have hlost : (Step.condition id (.other u) whenTrue whenFalse).isDecidedByFunction = u.isCallable := rfl
    have hsecond : isPredicate ((Keyed.get? (Transport.predicate (.other u)) "if").getD .null) = false := rfl
    rw [hfirst, hlost, hsecond]
    by_cases hcallable : u.isCallable = true
    · rw [if_pos hcallable, if_pos hcallable]
      exact h.add_lost path
    · rw [if_neg hcallable, if_neg hcallable, List.append_nil]
      exact h.add_both _ _

/-! ### Lists -/

variable {plan plan' : Value}

/-- **The check of a step that is written goes along with that of the step**, and finds the lost predicates. -/
def StepExceeded (plan plan' : Value) (s : Step) : Prop :=
  ∀ parent i (f f' : Findings) lost, f.Exceeds f' lost →
    Exceeded (lost ++ lostIn (s.sites (.within parent i s.kind))) (checkStep plan s.toValue parent i f)
      (checkStep plan' s.toDocument parent i f')

theorem checkSteps_exceeded {steps : List Step} (hsteps : ∀ s ∈ steps, StepExceeded plan plan' s) (i : Nat)
    (parent : Option (StepPath × Branch)) (h : f.Exceeds f' lost) :
    Exceeded (lost ++ lostIn (sitesIn parent i steps)) (checkSteps plan (stepValues steps) i parent f)
      (checkSteps plan' (stepDocuments steps) i parent f') := by
  induction steps generalizing lost i f f' with
  | nil =>
    rw [stepValues, stepDocuments, checkSteps, checkSteps, sitesIn]
    show Exceeded (lost ++ []) _ _
    rw [List.append_nil]
    exact .ok h
  | cons s rest ih =>
    rw [stepValues, stepDocuments, checkSteps, checkSteps, sitesIn, lostIn_append, ← List.append_assoc]
    have hfirst := hsteps s List.mem_cons_self parent i f f' lost h
    apply hfirst.bind
    intro f₁ f₁' h₁
    apply ih
    · intro s' hs'
      exact hsteps s' (List.mem_cons_of_mem s hs')
    · exact h₁

variable {nested nested' : Keyed (Option ListCheck)}

theorem checkUnder_exceeded (hnested : ChecksOf plan v nested) (hnested' : ChecksOf plan' v' nested') {name : String}
    {steps : List Step} (hview : member v name = .list (stepValues steps))
    (hdocument : member v' name = .list (stepDocuments steps)) (hsteps : ∀ s ∈ steps, StepExceeded plan plan' s)
    (parent : Option (StepPath × Branch)) (g g' : Findings) (h : f.Exceeds f' lost) :
    Exceeded (lost ++ lostIn (sitesIn parent 0 steps)) (checkUnder nested v name parent f g)
      (checkUnder nested' v' name parent f' g') := by
  unfold checkUnder
  rw [hnested.list hview, hnested'.list hdocument]
  exact checkSteps_exceeded hsteps 0 parent h

theorem checkCondition_exceeded {id : Option String} {predicate : Predicate} {whenTrue : List Step}
    {whenFalse : Option (List Step)} (hformed : (Step.condition id predicate whenTrue whenFalse).Formed)
    (hnested : ChecksOf plan (Step.condition id predicate whenTrue whenFalse).toValue nested)
    (hnested' : ChecksOf plan' (Step.condition id predicate whenTrue whenFalse).toDocument nested')
    (hlists : ∀ b, ∀ s ∈ takenSteps b whenTrue whenFalse, StepExceeded plan plan' s) (h : f.Exceeds f' lost) :
    Exceeded (lost ++ lostIn ((Step.condition id predicate whenTrue whenFalse).sites path))
      (checkCondition (Step.condition id predicate whenTrue whenFalse).toValue nested path f)
      (checkCondition (Step.condition id predicate whenTrue whenFalse).toDocument nested' path f') := by
  rw [Transport.condition_eq] at hnested' ⊢
  obtain ⟨hif, helse⟩ : Keyed.get? (Transport.conditionFields id predicate whenTrue whenFalse) "if_" = none
      ∧ Keyed.get? (Transport.conditionFields id predicate whenTrue whenFalse) "else_" = none :=
    Transport.get?_conditionFields_unused
  have hpredicate : member (.object (Transport.conditionFields id predicate whenTrue whenFalse)) "if"
      = (Keyed.get? (Transport.predicate predicate) "if").getD .null :=
    member_object Transport.get?_conditionFields_if (.inr hif)
  have hthen : member (.object (Transport.conditionFields id predicate whenTrue whenFalse)) "then"
      = .list (stepDocuments whenTrue) := member_object Transport.get?_conditionFields_then (.inl rfl)
  have hotherwise : member (.object (Transport.conditionFields id predicate whenTrue whenFalse)) "else"
      = (whenFalse.map fun steps => .list (stepDocuments steps)).getD .null :=
    member_object Transport.get?_conditionFields_else (.inr helse)
  rw [checkCondition_eq, checkCondition_eq, Step.sites_condition, lostIn_cons, lostIn_append, ← List.append_assoc,
    ← List.append_assoc]
  have hviewIf : member (Step.condition id predicate whenTrue whenFalse).toValue "if" = predicate.toValue :=
    member_of_get? rfl
  -- the predicate, the list of `then` and that of `else` in turn, each losing no more than its own
  have hfirst : (checkPredicate (Step.condition id predicate whenTrue whenFalse).toValue path f).Exceeds
      (checkPredicate (.object (Transport.conditionFields id predicate whenTrue whenFalse)) path f') _ :=
    checkPredicate_exceeds hformed hviewIf hpredicate h
  have hviewThen : member (Step.condition id predicate whenTrue whenFalse).toValue "then"
      = .list (stepValues whenTrue) := member_of_get? rfl
  have hwalk := checkUnder_exceeded hnested hnested' hviewThen hthen (hlists true) (some (path, .whenTrue))
    ((checkPredicate (Step.condition id predicate whenTrue whenFalse).toValue path f).addAt .conditionWithoutThen path)
    ((checkPredicate (.object (Transport.conditionFields id predicate whenTrue whenFalse)) path f').addAt
      .conditionWithoutThen path) hfirst
  apply hwalk.bind
  intro g g' hg
  unfold checkElse
  cases whenFalse with
  | none =>
    have hview : member (Step.condition id predicate whenTrue none).toValue "else" = .null := member_of_get? rfl
    rw [hview, hotherwise]
    show Exceeded (_ ++ lostIn (sitesIn _ 0 [])) _ _
    rw [sitesIn, show lostIn [] = [] from rfl, List.append_nil]
    exact .ok hg
  | some steps =>
    have hview : member (Step.condition id predicate whenTrue (some steps)).toValue "else"
        = .list (stepValues steps) := member_of_get? rfl
    rw [hview, hotherwise]
    exact checkUnder_exceeded hnested hnested' hview hotherwise (hlists false) _ _ _ hg

theorem checkParallel_exceeded {id : Option String} {branches : List Step}
    (hnested : ChecksOf plan (Step.parallel id branches).toValue nested)
    (hnested' : ChecksOf plan' (Step.parallel id branches).toDocument nested')
    (hlist : ∀ s ∈ branches, StepExceeded plan plan' s) (h : f.Exceeds f' lost) :
    Exceeded (lost ++ lostIn ((Step.parallel id branches).sites path))
      (checkParallel (Step.parallel id branches).toValue nested path f)
      (checkParallel (Step.parallel id branches).toDocument nested' path f') := by
  have hview : member (Step.parallel id branches).toValue "steps" = .list (stepValues branches) := member_of_get? rfl
  have hdocument : member (Step.parallel id branches).toDocument "steps" = .list (stepDocuments branches) :=
    member_object Transport.get?_parallelFields_steps (.inl rfl)
  have hfirst : (checkBranches (Step.parallel id branches).toValue path f).Exceeds
      (checkBranches (Step.parallel id branches).toDocument path f') lost := by
    unfold checkBranches
    rw [hview, hdocument]
    cases branches with
    | nil => exact h.add_both _ _
    | cons s rest => exact h
  rw [checkParallel_eq, checkParallel_eq, Step.sites, lostIn_cons]
  exact checkUnder_exceeded hnested hnested' hview hdocument hlist _ _ _ hfirst

/-- A step and what is written of it are checked as nodes of the same type. -/
theorem checkNode_exceeded {s : Step} (hformed : s.Formed) (hnested : ChecksOf plan s.toValue nested)
    (hnested' : ChecksOf plan' s.toDocument nested')
    (hpoll : isBoundedPoll (member plan' "workerPoll") = isBoundedPoll (member plan "workerPoll"))
    (hlists : ∀ b, ∀ s' ∈ s.listOf b, StepExceeded plan plan' s') (h : f.Exceeds f' lost) :
    Exceeded (lost ++ lostIn (s.sites path)) (checkNode plan s.toValue nested path f)
      (checkNode plan' s.toDocument nested' path f') := by
  obtain ⟨hid, hkind⟩ := member_view s
  obtain ⟨hid', hkind'⟩ := member_document s
  have hfirst : (checkId s.toValue path f).Exceeds (checkId s.toDocument path f') lost :=
    checkId_exceeds (hid'.trans hid.symm) h
  -- only conditions lose a predicate, so a step without lists adds nothing to what is lost
  have hnone (hs : s.holdsSteps = false) : lost ++ lostIn (s.sites path) = lost := by
    rw [Step.sites_of_not_holdsSteps hs, lostIn_cons]
    cases s with
    | condition | parallel => exact absurd hs (by simp [Step.holdsSteps])
    | _ => exact List.append_nil lost
  unfold checkNode
  rw [hkind, hkind']
  cases s with
  | agent call name | foreign call name =>
    rw [hnone rfl]
    refine .ok (checkName_exceeds .agent ?_ hfirst)
    rw [Step.toValue, Step.toDocument, member_view_own _ _ _ _ (by decide)]
    exact member_document_own (by decide) rfl
  | workflow call name =>
    rw [hnone rfl]
    refine .ok (checkName_exceeds .workflow ?_ hfirst)
    rw [Step.toValue, Step.toDocument, member_view_own _ _ _ _ (by decide)]
    exact member_document_own (by decide) rfl
  | worker call name poll =>
    rw [hnone rfl]
    have hbounded : isBounded plan' (Step.worker call name poll).toDocument
        = isBounded plan (Step.worker call name poll).toValue := by
      rw [isBounded, isBounded, isBoundedPoll_worker, hpoll]
    refine .ok (checkAwait_exceeds member_worker_await hbounded (checkName_exceeds .worker ?_ hfirst))
    rw [Step.toValue, Step.toDocument, member_view_own _ _ _ _ (by decide)]
    exact member_document_own (by decide) rfl
  | hook h =>
    rw [hnone rfl]
    have htoken : (checkToken (Step.hook h).toValue path (checkId (Step.hook h).toValue path f)).Exceeds
        (checkToken (Step.hook h).toDocument path (checkId (Step.hook h).toDocument path f')) lost :=
      checkToken_exceeds (hasToken_document hformed) hfirst
    dsimp only
    rw [checkHook_eq, checkHook_eq, member_hook_timeout]
    exact checkTimeout_exceeded _ _ _ htoken
  | sleep id d =>
    rw [hnone rfl]
    refine checkSleep_exceeded ?_ hfirst
    cases id <;> rfl
  | condition id predicate whenTrue whenFalse =>
    refine checkCondition_exceeded hformed hnested hnested' ?_ hfirst
    intro b
    cases b with
    | true => exact hlists .whenTrue
    | false => exact hlists .whenFalse
  | parallel id branches => exact checkParallel_exceeded hnested hnested' (hlists .parallel) hfirst

/-- The check of a step goes along with that of what is written of it, if the checks of its lists do. -/
theorem stepExceeded_of_lists
    (hpoll : isBoundedPoll (member plan' "workerPoll") = isBoundedPoll (member plan "workerPoll")) {s : Step}
    (hformed : s.All Step.Formed) (hlists : ∀ b, ∀ s' ∈ s.listOf b, s'.All Step.Formed → StepExceeded plan plan' s') :
    StepExceeded plan plan' s := by
  intro parent i f f' lost h
  obtain ⟨-, hkind⟩ := member_view s
  obtain ⟨-, hkind'⟩ := member_document s
  obtain ⟨nested, hnested, heq⟩ := checkStep_node plan (isNode_of_member hkind (by simp))
  obtain ⟨nested', hnested', heq'⟩ := checkStep_node plan' (isNode_of_member hkind' (by simp))
  -- both checks are at the same place
  have hpath : pathOf parent i s.toValue = .within parent i s.kind := by
    rw [pathOf, hkind]
    rfl
  have hpath' : pathOf parent i s.toDocument = .within parent i s.kind := by
    rw [pathOf, hkind']
    rfl
  rw [heq, heq', hpath, hpath']
  refine checkNode_exceeded hformed.own hnested hnested' hpoll ?_ h
  intro b s' hs'
  exact hlists b s' hs' (hformed.inner hs')

/-- **The check of every step goes along with that of what is written of it.** -/
theorem stepExceeded
    (hpoll : isBoundedPoll (member plan' "workerPoll") = isBoundedPoll (member plan "workerPoll")) (s : Step) :
    s.All Step.Formed → StepExceeded plan plan' s := by
  -- a step without lists is checked by itself
  have hnone {s : Step} (hformed : s.All Step.Formed) (hs : s.holdsSteps = false) : StepExceeded plan plan' s := by
    apply stepExceeded_of_lists hpoll hformed
    intro b s' hs'
    rw [Step.listOf_eq_nil hs b] at hs'
    exact absurd hs' List.not_mem_nil
  refine Step.treeInduction (P := fun s => s.All Step.Formed → StepExceeded plan plan' s)
    (Q := fun steps => ∀ s ∈ steps, s.All Step.Formed → StepExceeded plan plan' s)
    ?leaf ?condition ?parallel ?foreign ?nil ?cons s
  case leaf =>
    intro s hleaf hformed
    exact hnone hformed (Step.holdsSteps_of_isLeaf hleaf)
  case condition =>
    intro id predicate whenTrue whenFalse ih hformed
    apply stepExceeded_of_lists hpoll hformed
    intro b
    cases b with
    | whenTrue => exact ih true
    | whenFalse => exact ih false
    | parallel => exact fun s' hs' => absurd hs' List.not_mem_nil
  case parallel =>
    intro id branches ih hformed
    apply stepExceeded_of_lists hpoll hformed
    intro b
    cases b with
    | parallel => exact ih
    | whenTrue | whenFalse => exact fun s' hs' => absurd hs' List.not_mem_nil
  case foreign =>
    intro call agent hformed
    exact hnone hformed rfl
  case nil =>
    intro s hs
    exact absurd hs List.not_mem_nil
  case cons =>
    intro s rest hs hrest
    exact List.forall_mem_cons.mpr ⟨hs, hrest⟩

/-! ## Plans -/

section

variable {p : Plan}

/-- The attribute names of the options are not used. -/
theorem get?_planFields_unused : Keyed.get? (Transport.planFields p) "worker_poll" = none
    ∧ Keyed.get? (Transport.planFields p) "hook_timeout" = none := by
  simp [Transport.planFields, Keyed.get?, Transport.get?_planFields_of_ne]

/-- The end of a job is looked for as often, by default. -/
theorem isBoundedPoll_plan :
    isBoundedPoll (member p.toDocument "workerPoll") = isBoundedPoll (member p.toValue "workerPoll") := by
  have hview : member p.toValue "workerPoll" = PollPolicy.toValue? p.workerPoll := member_of_get? rfl
  have hdocument : member p.toDocument "workerPoll" = (p.workerPoll.map PollPolicy.toDocument).getD .null :=
    member_object (Transport.get?_planFields_workerPoll p) (.inr get?_planFields_unused.1)
  rw [hview, hdocument, isBoundedPoll_document]

/-- The options are checked alike. -/
theorem checkOptions_document :
    checkOptions p.toDocument (stepDocuments p.steps) = checkOptions p.toValue (stepValues p.steps) := by
  have hview : member p.toValue "hookTimeout" = (p.hookTimeout.getD defaultHookTimeout).toValue := member_of_get? rfl
  have hdocument : member p.toDocument "hookTimeout" = (p.hookTimeout.getD defaultHookTimeout).toValue :=
    member_object (Transport.get?_planFields_hookTimeout p) (.inr get?_planFields_unused.2)
  have hempty : (stepDocuments p.steps).isEmpty = (stepValues p.steps).isEmpty := by
    cases p.steps <;> rfl
  rw [checkOptions, checkOptions, hview, hdocument, hempty]

end

/-- **The check of a plan goes along with that of its transport form.** -/
theorem validate_exceeded {p : Plan} (hformed : p.Formed) :
    (∃ e, validate p.toValue = .error e ∧ validate p.toDocument = .error e)
      ∨ ∃ issues issues', validate p.toValue = .ok issues ∧ validate p.toDocument = .ok issues'
          ∧ Interleaved issues ((lostIn p.sites).map lostIssue) issues' := by
  have hview : member p.toValue "steps" = .list (stepValues p.steps) := member_of_get? rfl
  have hdocument : member p.toDocument "steps" = .list (stepDocuments p.steps) :=
    member_object (Transport.get?_planFields_steps p) (.inl rfl)
  rw [validate_eq hview, validate_eq hdocument, checkOptions_document]
  cases checkOptions p.toValue (stepValues p.steps) with
  | error e => exact .inl ⟨e, rfl, rfl⟩
  | ok f =>
    have hsteps : ∀ s ∈ p.steps, StepExceeded p.toValue p.toDocument s := by
      intro s hs
      exact stepExceeded isBoundedPoll_plan s (hformed s hs)
    have hwalk := checkSteps_exceeded hsteps 0 none (.refl f)
    show (∃ e, (_ >>= fun g : Findings => Except.ok g.issues) = _ ∧ (_ >>= fun g : Findings => Except.ok g.issues) = _)
      ∨ ∃ issues issues', (_ >>= fun g : Findings => Except.ok g.issues) = _
        ∧ (_ >>= fun g : Findings => Except.ok g.issues) = _ ∧ _
    generalize checkSteps p.toValue (stepValues p.steps) 0 none f = r at hwalk ⊢
    generalize checkSteps p.toDocument (stepDocuments p.steps) 0 none f = r' at hwalk ⊢
    cases hwalk with
    | error e => exact .inl ⟨e, rfl, rfl⟩
    | ok h => exact .inr ⟨_, _, rfl, rfl, h.issues⟩

end

end Validation

open Validation in
/-- **Transport keeps the issues of a plan, and adds those of lost predicates.** Of every plan that has been read
    and whose check has an answer, the check of the transport form has one, too. It finds the same issues, and
    between them one `INVALID_CONDITION_STEP` at the place of each condition that a function decides, and nothing
    else. -/
theorem transport_form_issues {v : Value} {p : Plan} (hread : Plan.ofValue v = .ok p) :
    ∃ lost : List StepPath, lost.Nodup
      ∧ (∀ q, q ∈ lost ↔ ∃ id u whenTrue whenFalse,
          p.Has q (.condition id (.other u) whenTrue whenFalse) ∧ u.isCallable = true)
      ∧ ∀ issues, validate p.toValue = .ok issues →
          ∃ issues', validate p.toDocument = .ok issues'
            ∧ Interleaved issues (lost.map fun q => ⟨.badPredicate, some q.text⟩) issues' := by
  refine ⟨lostIn p.sites, p.nodup_lostIn_sites, fun q => Plan.mem_lostIn_sites, ?_⟩
  intro issues hissues
  rcases validate_exceeded (Plan.formed_of_read hread) with ⟨e, herror, -⟩ | ⟨found, found', hfound, hfound', h⟩
  · -- the first check has an answer
    exact absurd (hissues.symm.trans herror) (by simp)
  · obtain rfl := Except.ok.inj (hissues.symm.trans hfound)
    exact ⟨found', hfound', h⟩

/-- A review whose input is worked out, an approval whose token is, and a condition that a function decides: the
    check has nothing to say of the plan, and of its transport form only that the predicate is missing. -/
theorem releasePlan_issues :
    Plan.ofValue release = .ok releasePlan ∧ validate releasePlan.toValue = .ok []
      ∧ ∃ lost : List StepPath, StepPath.root 2 "condition" ∈ lost
        ∧ validate releasePlan.toDocument = .ok (lost.map fun q => ⟨.badPredicate, some q.text⟩) := by
  have hnone : validate releasePlan.toValue = .ok [] := by rfl
  obtain ⟨lost, -, hlost, hissues⟩ := transport_form_issues (v := release) (p := releasePlan) rfl
  obtain ⟨issues', hfound, h⟩ := hissues [] hnone
  refine ⟨rfl, hnone, lost, (hlost _).mpr ?_, ?_⟩
  · exact ⟨none, .function 2, _, none, .root (i := 2) (s := releasePlan.steps[2]) rfl .here, rfl⟩
  · rw [hfound, h.symm.eq_of_nil_right]

end Runbook
