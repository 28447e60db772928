import Runbook.Proofs.DistinctIds
import Runbook.Proofs.Readings

/-!
# `Proofs.TwoReadings` — the check of a document and the check of what was read of it

A plan can be checked as a document, and again after it has been read. The second check finds nothing that
the first has not found: where they look at the same field, the reader has kept what matters or made it
harmless. There are two exceptions, both about fields that the check takes for booleans and the reader makes
booleans. A worker whose `await` is the number 1 is not awaited for the first check, and is awaited when it has
been read; a hook that says `"no"` of a removed function has one for the first check and none when it has been
read. `Misread` is what is written in such a step, and as long as there is none, both walks go side by side.

## Contents
- **Findings side by side.** `Issue.mark`, `Findings.Covers` and `Covered`.
- **Fields.** Ids, names, timeouts, poll bounds and predicates, before and after they are read.
- **Steps.** `Misread`, and `stepCovered`, by induction on the document.
- **Plans.** `parsed_issues_found`.
-/

namespace Runbook

/-- **What an issue is known by**: its code, its step and how grave it is. -/
def Issue.mark (i : Issue) : String × Option String × Severity :=
  (i.defect.code, i.step, i.defect.severity)

namespace Validation

/-! ## Findings side by side -/

/-- **Findings that cover others**: the same ids were met, and every issue of the others is there, in the same
    order. -/
structure Findings.Covers (f f' : Findings) : Prop where
  seen : f'.seen = f.seen
  marks : (f'.issues.map Issue.mark).Sublist (f.issues.map Issue.mark)

namespace Findings.Covers

variable {f f' : Findings}

theorem refl (f : Findings) : f.Covers f := ⟨rfl, .refl _⟩

/-- An issue that only the first check finds. -/
theorem add_left (h : f.Covers f') (defect : Defect) (step : Option String) :
    (f.add defect step).Covers f' := by
  refine ⟨h.seen, h.marks.trans ?_⟩
  exact (List.sublist_append_left f.issues _).map Issue.mark

/-- An issue that both checks find, perhaps in other words. -/
theorem add_both (h : f.Covers f') {defect defect' : Defect} (hcode : defect'.code = defect.code)
    (hseverity : defect'.severity = defect.severity) (step : Option String) :
    (f.add defect step).Covers (f'.add defect' step) := by
  refine ⟨h.seen, ?_⟩
  have hmark : Issue.mark ⟨defect', step⟩ = Issue.mark ⟨defect, step⟩ := by
    simp only [Issue.mark, hcode, hseverity]
  simp only [Findings.add, List.map_append, List.map_cons, List.map_nil, hmark]
  exact h.marks.append (.refl _)

end Findings.Covers

/-- **Two checks side by side**: both have an answer, the first covering the second, or both stop for the same
    reason. -/
inductive Covered : Except Fault Findings → Except Fault Findings → Prop where
  | ok {f f' : Findings} (h : f.Covers f') : Covered (.ok f) (.ok f')
  | error (e : Fault) : Covered (.error e) (.error e)

theorem Covered.bind {r r' : Except Fault Findings} (h : Covered r r')
    {next next' : Findings → Except Fault Findings}
    (hnext : ∀ f f', f.Covers f' → Covered (next f) (next' f')) : Covered (r >>= next) (r' >>= next') := by
  cases h with
  | ok h => exact hnext _ _ h
  | error e => exact .error e

/-! ## Fields -/

section

variable {v v' : Value} {path : StepPath} {f f' : Findings}

theorem checkId_covers (hid : member v' "id" = member v "id") (h : f.Covers f') :
    (checkId v path f).Covers (checkId v' path f') := by
  unfold checkId
  rw [hid]
  split
  · exact h
  · rw [h.seen]
    split
    · exact h.add_both rfl rfl _
    · split
      · exact h.add_both rfl rfl _
      · exact ⟨rfl, h.marks⟩
  · exact h.add_both rfl rfl _

theorem checkName_covers (kind : CapabilityKind) (hname : member v' kind.word = member v kind.word)
    (h : f.Covers f') : (checkName kind v path f).Covers (checkName kind v' path f') := by
  unfold checkName
  rw [hname]
  split
  · split
    · exact h.add_both rfl rfl _
    · exact h
  · exact h.add_both rfl rfl _

/-- Whether the poll of a worker has bounds. -/
def isBounded (plan step : Value) : Bool :=
  isBoundedPoll (member step "workerPoll") || isBoundedPoll (member plan "workerPoll")

theorem checkAwait_covers {plan plan' : Value}
    (hawait : member v' "await" = .bool true → isBounded plan v = false → member v "await" = .bool true)
    (hbounded : isBounded plan' v' = isBounded plan v) (h : f.Covers f') :
    (checkAwait plan v path f).Covers (checkAwait plan' v' path f') := by
  by_cases hopen : member v' "await" = .bool true ∧ isBounded plan v = false
  · obtain ⟨hread, hbound⟩ := hopen
    have hraw := hawait hread hbound
    have hbound' : isBounded plan' v' = false := hbounded.trans hbound
    unfold isBounded at hbound hbound'
    unfold checkAwait
    rw [hraw, hread]
    simp only [hbound, hbound', Bool.false_eq_true, if_false]
    exact h.add_both rfl rfl _
  · have hsecond : checkAwait plan' v' path f' = f' := by
      unfold checkAwait
      split
      · next hread =>
        have hbound : isBounded plan' v' = true := by
          rw [hbounded]
          exact Bool.of_not_eq_false fun hbound => hopen ⟨hread, hbound⟩
        exact if_pos hbound
      · rfl
    rw [hsecond]
    unfold checkAwait
    split
    · split
      · exact h
      · exact h.add_left _ _
    · exact h

end

/-! ### Lengths of time -/

theorem isFinite_flag (b : Bool) : Number.isFinite (Float.ofInt (if b then 1 else 0)) = true := by
  cases b <;> decide +kernel

/-- What a boolean is read as has a length. -/
theorem milliseconds_flag (b : Bool) : ∃ ms, (Duration.whole (if b then 1 else 0)).milliseconds = .ok ms := by
  refine ⟨Float.ofInt (if b then 1 else 0), ?_⟩
  unfold Duration.milliseconds
  dsimp only
  rw [if_neg (by cases b <;> simp), if_pos (isFinite_flag b)]

theorem timeoutProblem?_of_length {v : Value} {ms : Float} (h : Duration.millisecondsOf v = .ok ms) :
    timeoutProblem? v = .ok (if ms <= 0.0 then some (.notPositive v) else none) := by
  unfold timeoutProblem?
  rw [h]

/-- The same value is looked at twice. -/
theorem checkTimeout_same (v : Value) (defect : TimeoutProblem → Defect) (at? : Option String) {f f' : Findings}
    (h : f.Covers f') : Covered (checkTimeout v defect at? f) (checkTimeout v defect at? f') := by
  unfold checkTimeout
  split
  · exact .ok h
  · cases timeoutProblem? v with
    | error e => exact .error e
    | ok problem =>
      cases problem with
      | some p => exact .ok (h.add_both rfl rfl at?)
      | none => exact .ok h

theorem checkTimeout_read {v : Value} {d : Duration} (hread : readDuration v = .ok d)
    {defect : TimeoutProblem → Defect} (hcode : ∀ p q, (defect p).code = (defect q).code)
    (hseverity : ∀ p q, (defect p).severity = (defect q).severity) (at? : Option String)
    {f f' : Findings} (h : f.Covers f') :
    Covered (checkTimeout v defect at? f) (checkTimeout d.toValue defect at? f') := by
  rcases readDuration_eq_ok hread with rfl | ⟨b, rfl, rfl⟩
  · exact checkTimeout_same d.toValue defect at? h
  · -- a boolean is a defect that is gone when it has been read
    obtain ⟨ms, hms⟩ := milliseconds_flag b
    have hsecond : timeoutProblem? (.int (if b then 1 else 0)) = _ := timeoutProblem?_of_length hms
    unfold checkTimeout
    rw [Duration.toValue]
    dsimp only
    rw [hsecond]
    split
    · exact .ok (h.add_both (hcode _ _) (hseverity _ _) at?)
    · exact .ok (h.add_left _ at?)

theorem checkSleep_read {v v' : Value} {path : StepPath} {u : Value} {d : Duration}
    (hu : member? v "duration" = some u) (hread : readDuration u = .ok d)
    (hu' : member? v' "duration" = some d.toValue) {f f' : Findings} (h : f.Covers f') :
    Covered (checkSleep v path f) (checkSleep v' path f') := by
  have hd' : (member? v' "duration").bind Duration.ofValue? = some d := by
    rw [hu']
    exact ofValue?_toValue d
  unfold checkSleep
  rw [hd', hu]
  rcases readDuration_eq_ok hread with rfl | ⟨b, rfl, rfl⟩
  · rw [Option.bind_some, ofValue?_toValue]
    dsimp only
    cases d.milliseconds with
    | ok ms => exact .ok h
    | error p =>
      cases p with
      | tooLarge => exact .error _
      | _ => exact .ok (h.add_both rfl rfl _)
  · obtain ⟨ms, hms⟩ := milliseconds_flag b
    dsimp only
    rw [hms]
    exact .ok (h.add_left _ _)

/-! ### Poll bounds -/

theorem isNull_of_whole {v : Value} {n : Option Int} (h : Decode.nullable Decode.whole v = .ok n) :
    v.isNull = n.isNone := by
  rcases nullable_eq_ok h with ⟨rfl, rfl⟩ | ⟨m, hm, rfl⟩
  · rfl
  · cases v with
    | null => exact absurd hm (by simp [Decode.whole, Checked.complain])
    | _ => rfl

theorem isBoundedPoll_of_read {v : Value} (hplain : v.isPlain = true) {poll : Option PollPolicy}
    (h : Decode.nullable PollPolicy.ofValue v = .ok poll) :
    isBoundedPoll v = poll.any PollPolicy.isBounded := by
  rcases nullable_eq_ok h with ⟨rfl, rfl⟩ | ⟨p, hp, rfl⟩
  · rfl
  · cases v with
    | object fields =>
      rw [PollPolicy.ofValue] at hp
      simp only [PollPolicy.ofFields, Checked.seq_eq_ok, Checked.map_eq_ok] at hp
      obtain ⟨_, retries, ⟨_, timeout, ⟨interval, -, rfl⟩, htimeout, rfl⟩, hretries, rfl⟩ := hp
      have htimeout := isNull_of_whole (member_of_option "timeoutMs" htimeout)
      have hretries := isNull_of_whole (member_of_option "maxRetries" hretries)
      rw [isBoundedPoll, htimeout, hretries]
      cases timeout <;> cases retries <;> rfl
    | parsed shape fields => exact absurd hplain (by simp [Value.isPlain])
    | _ => exact absurd hp (by simp [PollPolicy.ofValue, Checked.complain])

theorem isBoundedPoll_toValue? (poll : Option PollPolicy) :
    isBoundedPoll (PollPolicy.toValue? poll) = poll.any PollPolicy.isBounded := by
  cases poll with
  | none => rfl
  | some p =>
    obtain ⟨interval, timeout, retries⟩ := p
    cases timeout <;> cases retries <;> rfl

/-! ### Predicates -/

/-- What counts as a predicate in a document is one when it has been read. -/
theorem isPredicate_of_read {v : Value} (hplain : v.isPlain = true) {predicate : Predicate}
    (hread : Predicate.ofValue v = .ok predicate) (h : isPredicate v = true) :
    isPredicate predicate.toValue = true := by
  rcases predicate_of_isPredicate hplain hread h with ⟨b, rfl⟩ | ⟨c, rfl⟩
  · rfl
  · rfl

theorem checkPredicate_covers {v v' : Value} {path : StepPath} {f f' : Findings}
    (hpredicate : isPredicate (member v "if") = true → isPredicate (member v' "if") = true)
    (h : f.Covers f') : (checkPredicate v path f).Covers (checkPredicate v' path f') := by
  unfold checkPredicate
  by_cases hsecond : isPredicate (member v' "if") = true
  · rw [if_pos hsecond]
    split
    · exact h
    · exact h.add_left _ _
  · rw [if_neg hsecond, if_neg (mt hpredicate hsecond)]
    exact h.add_both rfl rfl _

/-! ## Steps -/

/-- **A step in which a field that should be a boolean is none**, and the check looks at it. -/
inductive Misread (plan step : Value) : Prop where
  /-- Awaited only when it has been read, and not within bounds. -/
  | await (kind : member step "type" = .text "worker")
      (read : Decode.flag (member step "await") = .ok true) (written : member step "await" ≠ .bool true)
      (unbounded : isBounded plan step = false)
  /-- Without a token, and with a removed function only until it has been read. -/
  | token (kind : member step "type" = .text "hook")
      (read : Decode.flag (member step "tokenIsFunction") = .ok false)
      (written : (member step "tokenIsFunction").truthy = true)
      (without : ∀ s, member step "token" = .text s → s = "")

section

variable {plan plan' v : Value} {path : StepPath} {f f' : Findings}

theorem hasToken_of_read (hplain : v.isPlain = true) {hook : Hook} (hread : HookRead v hook)
    (hmisread : ¬ Misread plan v) (hkind : member v "type" = .text "hook") (h : hasToken v = true) :
    hasToken (Step.hook hook).toValue = true := by
  have htoken : member (Step.hook hook).toValue "token" = HookToken.toValue? hook.token := member_of_get? rfl
  have hflag : member (Step.hook hook).toValue "tokenIsFunction" = .bool hook.tokenIsFunction :=
    member_of_get? rfl
  -- unless a token is written, the flag decides
  have hdecided (hwithout : ∀ s, member v "token" = .text s → s = "") (hraw : (member v "tokenIsFunction").truthy = true) :
      hook.tokenIsFunction = true := by
    rcases hread.flag with ⟨hnone, -⟩ | hflagRead
    · rw [member, hnone] at hraw
      exact absurd hraw (by simp [Value.truthy])
    · cases htrue : hook.tokenIsFunction with
      | true => rfl
      | false => exact absurd (.token hkind (htrue ▸ hflagRead) hraw hwithout) hmisread
  unfold hasToken at h ⊢
  rw [htoken, hflag]
  rcases nullable_eq_ok hread.token with ⟨hnull, hnone⟩ | ⟨token, hread, hsome⟩
  · rw [hnone]
    rw [hnull] at h
    exact hdecided (by simp [hnull]) h
  · rw [hsome]
    cases htext : member v "token" with
    | text s =>
      rw [htext] at h hread
      obtain rfl := Checked.ok.inj hread
      simp only [HookToken.toValue?, Bool.or_eq_true, decide_eq_true_eq] at h ⊢
      by_cases hempty : s = ""
      · refine .inr (hdecided (fun t ht => ?_) (h.resolve_left fun hwritten => hwritten hempty))
        exact (Value.text.inj (htext.symm.trans ht)).symm.trans hempty
      · exact .inl hempty
    | function | schema =>
      have hpart := isPlain_member hplain "token"
      rw [htext] at hpart
      exact absurd hpart (by simp [Value.isPlain])
    | _ =>
      rw [htext] at hread
      exact absurd hread (by simp [readToken, Value.isCallable])

theorem checkToken_covers (htoken : hasToken v = true → hasToken v' = true) (h : f.Covers f') :
    (checkToken v path f).Covers (checkToken v' path f') := by
  unfold checkToken
  by_cases hsecond : hasToken v' = true
  · rw [if_pos hsecond]
    split
    · exact h
    · exact h.add_left _ _
  · rw [if_neg hsecond, if_neg (mt htoken hsecond)]
    exact h.add_both rfl rfl _

/-! ### What has been read, seen again -/

theorem ReadAs.id_kind {s : Step} (h : ReadAs v s) :
    member v "id" = .ofText? s.id? ∧ member v "type" = .text s.kind := by
  cases h with
  | agent hkind hcall => exact ⟨hcall.id, hkind⟩
  | worker hkind hcall => exact ⟨hcall.id, hkind⟩
  | workflow hkind hcall => exact ⟨hcall.id, hkind⟩
  | hook hkind hhook => exact ⟨hhook.id, hkind⟩
  | sleep hkind hid => exact ⟨hid, hkind⟩
  | condition hkind hid => exact ⟨hid, hkind⟩
  | parallel hkind hid => exact ⟨hid, hkind⟩

theorem member_view (s : Step) :
    member s.toValue "id" = .ofText? s.id? ∧ member s.toValue "type" = .text s.kind := by
  cases step_shows s with
  | plain hid hkind => exact ⟨hid, hkind⟩
  | condition hid hkind => exact ⟨hid, hkind⟩
  | parallel hid hkind => exact ⟨hid, hkind⟩

theorem member_view_await (shape : Shape) (call : Capability) (kind : String) (more : Keyed Value) :
    member (.parsed shape (call.toFields kind ++ more)) "await" = .ofBool? call.await := by
  obtain ⟨id, input, await, flag⟩ := call
  cases input <;> exact member_of_get? rfl

/-- The fields that capability steps do not share. -/
theorem member_view_own (shape : Shape) (call : Capability) (kind : String) (more : Keyed Value)
    {name : String}
    (hname : memberName name ∉ ["id", "input", "await_", "input_is_function", "type"]) :
    member (.parsed shape (call.toFields kind ++ more)) name = member (.parsed shape more) name := by
  simp only [List.mem_cons, List.not_mem_nil, or_false, not_or] at hname
  obtain ⟨hid, hinput, hawait, hflag, htype⟩ := hname
  obtain ⟨id, input, await, flag⟩ := call
  cases input <;>
    simp [member, member?, fieldOf?, Capability.toFields, StepInput.toFields, Keyed.get?, Ne.symm hid,
      Ne.symm hinput, Ne.symm hawait, Ne.symm hflag, Ne.symm htype]

/-! ### Lists -/

/-- **The check of a step covers that of what is read of it.** -/
def StepCovered (plan plan' v : Value) : Prop :=
  ∀ s, readStep v = .ok s → ∀ parent i f f', f.Covers f' →
    Covered (checkStep plan v parent i f) (checkStep plan' s.toValue parent i f')

theorem checkSteps_covered {items : List Value} (hitems : ∀ item ∈ items, StepCovered plan plan' item)
    {n : Nat} {steps : List Step} (hread : readSteps n items = .ok steps) (i : Nat)
    (parent : Option (StepPath × Branch)) {f f' : Findings} (h : f.Covers f') :
    Covered (checkSteps plan items i parent f) (checkSteps plan' (stepValues steps) i parent f') := by
  induction items generalizing n steps i f f' with
  | nil =>
    rw [readSteps] at hread
    obtain rfl := Checked.ok.inj hread
    rw [stepValues, checkSteps, checkSteps]
    exact .ok h
  | cons v rest ih =>
    obtain ⟨s, others, hs, hothers, rfl⟩ := readSteps_cons_eq_ok.mp hread
    rw [stepValues, checkSteps, checkSteps]
    refine (hitems v List.mem_cons_self s hs parent i f f' h).bind fun f₁ f₁' h₁ => ?_
    exact ih (fun item hitem => hitems item (List.mem_cons_of_mem _ hitem)) hothers (i + 1) h₁

variable {nested nested' : Keyed (Option ListCheck)}

theorem checkUnder_covered (hnested : ChecksOf plan v nested) (hnested' : ChecksOf plan' v' nested')
    {name : String} {items : List Value} {steps : List Step} (hitems : member v name = .list items)
    (hlist : ∀ item ∈ items, StepCovered plan plan' item) (hread : readSteps 0 items = .ok steps)
    (hview : member v' name = .list (stepValues steps)) (parent : Option (StepPath × Branch))
    (g g' : Findings) (h : f.Covers f') :
    Covered (checkUnder nested v name parent f g) (checkUnder nested' v' name parent f' g') := by
  unfold checkUnder
  rw [hnested.list hitems, hnested'.list hview]
  exact checkSteps_covered hlist hread 0 parent h

theorem checkCondition_covered (hnested : ChecksOf plan v nested) (hplain : v.isPlain = true)
    {id : Option String} {predicate : Predicate} {whenTrue : List Step} {whenFalse : Option (List Step)}
    (hnested' : ChecksOf plan' (Step.condition id predicate whenTrue whenFalse).toValue nested')
    (hread : ReadAs v (.condition id predicate whenTrue whenFalse))
    (hlists : ∀ items, Nests v items → ∀ item ∈ items, StepCovered plan plan' item) (h : f.Covers f') :
    Covered (checkCondition v nested path f)
      (checkCondition (Step.condition id predicate whenTrue whenFalse).toValue nested' path f') := by
  cases hread with
  | condition hkind hid hpredicate hthen helse =>
    have hviewIf : member (Step.condition id predicate whenTrue whenFalse).toValue "if"
        = predicate.toValue := member_of_get? rfl
    have hviewThen : member (Step.condition id predicate whenTrue whenFalse).toValue "then"
        = .list (stepValues whenTrue) := member_of_get? rfl
    have hfirst : (checkPredicate v path f).Covers
        (checkPredicate (Step.condition id predicate whenTrue whenFalse).toValue path f') :=
      checkPredicate_covers (fun hraw => by
        rw [hviewIf]
        exact isPredicate_of_read (isPlain_member hplain "if") hpredicate hraw) h
    rw [checkCondition_eq, checkCondition_eq]
    refine Covered.bind ?_ fun g g' hg => ?_
    -- a list that is missing is read as the empty one, in which nothing is found
    · cases hthen with
      | missing hnone =>
        have hno : listUnder? nested v "then" = none := hnested.none (by simp [member, hnone])
        unfold checkUnder
        rw [hno, hnested'.list hviewThen, stepValues]
        dsimp only
        rw [checkSteps]
        exact .ok (hfirst.add_left _ _)
      | list hitems hsteps =>
        exact checkUnder_covered hnested hnested' hitems (hlists _ (.whenTrue hkind hitems)) hsteps hviewThen
          _ _ _ hfirst
    · unfold checkElse
      rcases helse with ⟨hnull, rfl⟩ | ⟨items, steps, hitems, hsteps, rfl⟩
      · have hviewElse : member (Step.condition id predicate whenTrue none).toValue "else" = .null :=
          member_of_get? rfl
        rw [hnull, hviewElse]
        exact .ok hg
      · have hviewElse : member (Step.condition id predicate whenTrue (some steps)).toValue "else"
            = .list (stepValues steps) := member_of_get? rfl
        rw [hitems, hviewElse]
        exact checkUnder_covered hnested hnested' hitems (hlists _ (.whenFalse hkind hitems)) hsteps
          hviewElse _ _ _ hg

theorem checkParallel_covered (hnested : ChecksOf plan v nested) {id : Option String} {branches : List Step}
    (hnested' : ChecksOf plan' (Step.parallel id branches).toValue nested')
    (hread : ReadAs v (.parallel id branches))
    (hlists : ∀ items, Nests v items → ∀ item ∈ items, StepCovered plan plan' item) (h : f.Covers f') :
    Covered (checkParallel v nested path f)
      (checkParallel (Step.parallel id branches).toValue nested' path f') := by
  have hview : member (Step.parallel id branches).toValue "steps" = .list (stepValues branches) :=
    member_of_get? rfl
  rw [checkParallel_eq, checkParallel_eq]
  cases hread with
  | parallel hkind hid hsteps =>
    cases hsteps with
    | missing hnone =>
      have hmember : member v "steps" = .null := by rw [member, hnone]; rfl
      have hno : listUnder? nested v "steps" = none := hnested.none (by simp [hmember])
      unfold checkUnder checkBranches
      rw [hno, hnested'.list hview, hview, hmember, stepValues]
      dsimp only
      rw [checkSteps]
      exact .ok (h.add_both rfl rfl _)
    | list hitems hread =>
      refine checkUnder_covered hnested hnested' hitems (hlists _ (.parallel hkind hitems)) hread hview _ _ _ ?_
      unfold checkBranches
      rw [hitems, hview]
      rename_i items
      cases items with
      | nil =>
        rw [readSteps] at hread
        obtain rfl := Checked.ok.inj hread
        exact h.add_both rfl rfl _
      | cons item rest =>
        obtain ⟨s, others, -, -, rfl⟩ := readSteps_cons_eq_ok.mp hread
        exact h

/-- A worker that is awaited once read was awaited as it was written. -/
theorem awaited_of_read {call : Capability} {name : String} {poll : Option PollPolicy} (hcall : CallRead v call)
    (h : member (Step.worker call name poll).toValue "await" = .bool true) :
    Decode.flag (member v "await") = .ok true := by
  have hview : member (Step.worker call name poll).toValue "await" = .ofBool? call.await := by
    rw [Step.toValue]
    exact member_view_await ..
  rw [hview] at h
  rcases nullable_eq_ok hcall.await with ⟨-, hnone⟩ | ⟨b, hb, hsome⟩
  · rw [hnone] at h
    exact absurd h (by simp [Value.ofBool?])
  · rw [hsome] at h
    exact Value.bool.inj h ▸ hb

/-- The wait for a worker has an end once it is read if it has one as it is written. -/
theorem isBounded_of_read {call : Capability} {name : String} {poll : Option PollPolicy}
    (hplain : v.isPlain = true) (hread : Decode.nullable PollPolicy.ofValue (member v "workerPoll") = .ok poll)
    (hplan : isBoundedPoll (member plan' "workerPoll") = isBoundedPoll (member plan "workerPoll")) :
    isBounded plan' (Step.worker call name poll).toValue = isBounded plan v := by
  have hview : member (Step.worker call name poll).toValue "workerPoll" = PollPolicy.toValue? poll := by
    rw [Step.toValue, member_view_own _ _ _ _ (by decide)]
    exact member_of_get? rfl
  rw [isBounded, isBounded, hplan, hview, isBoundedPoll_toValue?,
    isBoundedPoll_of_read (isPlain_member hplain _) hread]

/-- What has been read and the document are checked as nodes of the same type. -/
theorem checkNode_covered (hnested : ChecksOf plan v nested) (hplain : v.isPlain = true) {s : Step}
    (hnested' : ChecksOf plan' s.toValue nested') (hread : ReadAs v s)
    (hpoll : isBoundedPoll (member plan' "workerPoll") = isBoundedPoll (member plan "workerPoll"))
    (hmisread : ¬ Misread plan v)
    (hlists : ∀ items, Nests v items → ∀ item ∈ items, StepCovered plan plan' item) (h : f.Covers f') :
    Covered (checkNode plan v nested path f) (checkNode plan' s.toValue nested' path f') := by
  obtain ⟨hid, hkind⟩ := hread.id_kind
  obtain ⟨hviewId, hviewKind⟩ := member_view s
  have hfirst : (checkId v path f).Covers (checkId s.toValue path f') :=
    checkId_covers (hviewId.trans hid.symm) h
  unfold checkNode
  rw [hkind, hviewKind]
  cases s with
  | agent call name =>
    cases hread with
    | agent _ _ hname =>
      refine .ok (checkName_covers .agent ?_ hfirst)
      rw [Step.toValue, member_view_own _ _ _ _ (by decide)]
      exact hname.symm
  | workflow call name =>
    cases hread with
    | workflow _ _ hname =>
      refine .ok (checkName_covers .workflow ?_ hfirst)
      rw [Step.toValue, member_view_own _ _ _ _ (by decide)]
      exact hname.symm
  | worker call name poll =>
    cases hread with
    | worker _ hcall hname hpollRead =>
      refine .ok (checkAwait_covers (fun hawait hunbounded => ?_) (isBounded_of_read hplain hpollRead hpoll)
        (checkName_covers .worker ?_ hfirst))
      · -- awaited once read, so written as the boolean
        by_contra hwritten
        exact hmisread (.await hkind (awaited_of_read hcall hawait) hwritten hunbounded)
      · rw [Step.toValue, member_view_own _ _ _ _ (by decide)]
        exact hname.symm
  | hook hook =>
    cases hread with
    | hook _ hhook =>
      have hview : member (Step.hook hook).toValue "timeout" = Duration.toValue? hook.timeout :=
        member_of_get? rfl
      have htoken : (checkToken v path (checkId v path f)).Covers
          (checkToken (Step.hook hook).toValue path (checkId (Step.hook hook).toValue path f')) :=
        checkToken_covers (hasToken_of_read hplain hhook hmisread hkind) hfirst
      dsimp only
      rw [checkHook_eq, checkHook_eq, hview]
      rcases nullable_eq_ok hhook.timeout with ⟨hnull, hnone⟩ | ⟨d, hd, hsome⟩
      · rw [hnull, hnone]
        exact .ok htoken
      · rw [hsome]
        exact checkTimeout_read hd (fun _ _ => rfl) (fun _ _ => rfl) _ htoken
  | sleep id d =>
    cases hread with
    | sleep _ _ hduration =>
      obtain ⟨u, hu, hd⟩ := hduration
      exact checkSleep_read hu hd rfl hfirst
  | condition id predicate whenTrue whenFalse =>
    exact checkCondition_covered hnested hplain hnested' hread hlists hfirst
  | parallel id branches => exact checkParallel_covered hnested hnested' hread hlists hfirst
  | foreign call name => exact absurd hread (by rintro ⟨⟩)

/-- **The check of a document goes side by side with that of what is read of it.** -/
theorem stepCovered
    (hpoll : isBoundedPoll (member plan' "workerPoll") = isBoundedPoll (member plan "workerPoll"))
    (v : Value) (hplain : v.isPlain = true) (hmisread : ∀ inner, Within v inner → ¬ Misread plan inner) :
    StepCovered plan plan' v := by
  -- along the lists of the document
  induction v using nodeInduction with
  | node v ih =>
    intro s hread parent i f f' h
    have hread := readAs_of_readStep hplain hread
    obtain ⟨hid, hkind⟩ := hread.id_kind
    obtain ⟨hviewId, hviewKind⟩ := member_view s
    obtain ⟨nested, hnested, heq⟩ := checkStep_node plan (isNode_of_member hkind (by simp))
    obtain ⟨nested', hnested', heq'⟩ := checkStep_node plan' (isNode_of_member hviewKind (by simp))
    have hpath : pathOf parent i s.toValue = pathOf parent i v := by
      rw [pathOf, pathOf, hkind, hviewKind]
    rw [heq, heq', hpath]
    refine checkNode_covered hnested hplain hnested' hread hpoll (hmisread v (.self v)) ?_ h
    intro items hnests item hitem
    have hunder inner (hinner : Within item inner) : ¬ Misread plan inner :=
      hmisread inner (.under hnests hitem hinner)
    obtain ⟨name, hitems⟩ : ∃ name, member v name = .list items := by
      cases hnests with
      | whenTrue _ hitems => exact ⟨_, hitems⟩
      | whenFalse _ hitems => exact ⟨_, hitems⟩
      | parallel _ hitems => exact ⟨_, hitems⟩
    exact ih name items hitems item hitem (isPlain_item hplain hitems item hitem) hunder

end

/-! ## Plans -/

/-- The timeout that a plan has when none is written is a positive length of time. -/
theorem timeoutProblem?_default : timeoutProblem? defaultHookTimeout.toValue = .ok none := by
  have hpositive : (Duration.textMillis "7d").toOption.any (fun ms => !decide (ms <= 0.0)) = true := by
    decide +kernel
  cases hms : Duration.textMillis "7d" with
  | ok ms =>
    rw [hms] at hpositive
    have hms : Duration.millisecondsOf defaultHookTimeout.toValue = .ok ms := hms
    rw [timeoutProblem?_of_length hms, if_neg (by simpa [Except.toOption] using hpositive)]
  | error p =>
    rw [hms] at hpositive
    exact nomatch hpositive

theorem checkTimeout_default (defect : TimeoutProblem → Defect) (at? : Option String) (f : Findings) :
    checkTimeout defaultHookTimeout.toValue defect at? f = .ok f := by
  have hnone : timeoutProblem? (.text "7d") = .ok none := timeoutProblem?_default
  unfold checkTimeout
  rw [show defaultHookTimeout.toValue = .text "7d" from rfl]
  dsimp only
  rw [hnone]
  rfl

/-- **A document with a step that is misread**, among those that the check comes to. -/
inductive Misreadable (plan : Value) : Prop where
  | step {steps : List Value} {step inner : Value} (list : member plan "steps" = .list steps)
      (mem : step ∈ steps) (within : Within step inner) (misread : Misread plan inner)

section

variable {v : Value} {p : Plan}

theorem checkOptions_covered {items : List Value} (hread : PlanReadAs v p)
    (hsteps : readSteps 0 items = .ok p.steps) :
    Covered (checkOptions v items) (checkOptions p.toValue (stepValues p.steps)) := by
  have hview : member p.toValue "hookTimeout" = (p.hookTimeout.getD defaultHookTimeout).toValue :=
    member_of_get? rfl
  have hempty : (stepValues p.steps).isEmpty = items.isEmpty := by
    cases items with
    | nil =>
      rw [readSteps] at hsteps
      rw [← Checked.ok.inj hsteps]
      rfl
    | cons item rest =>
      obtain ⟨s, others, -, -, heq⟩ := readSteps_cons_eq_ok.mp hsteps
      rw [heq]
      rfl
  unfold checkOptions
  rw [hview, hempty]
  rcases hread.hookTimeout with ⟨hnull, hnone⟩ | ⟨d, hd, hsome⟩
  · rw [hnull, hnone, Option.getD_none, checkTimeout_default]
    exact .ok (.refl _)
  · rw [hsome]
    exact checkTimeout_read hd (fun _ _ => rfl) (fun _ _ => rfl) none (.refl _)

/-- **The check of a document goes side by side with that of the plan** that is read of it. -/
theorem validate_covered (hplain : v.isPlain = true) (hread : Plan.ofValue v = .ok p)
    (hmisread : ¬ Misreadable v) :
    (∃ e, validate v = .error e ∧ validate p.toValue = .error e)
      ∨ ∃ issues issues', validate v = .ok issues ∧ validate p.toValue = .ok issues'
          ∧ (issues'.map Issue.mark).Sublist (issues.map Issue.mark) := by
  have hread := readAs_of_planOfValue hplain hread
  obtain ⟨items, hitems, hsteps⟩ := hread.steps
  have hview : member p.toValue "steps" = .list (stepValues p.steps) := member_of_get? rfl
  have hviewPoll : member p.toValue "workerPoll" = PollPolicy.toValue? p.workerPoll := member_of_get? rfl
  have hpoll : isBoundedPoll (member p.toValue "workerPoll") = isBoundedPoll (member v "workerPoll") := by
    rw [hviewPoll, isBoundedPoll_toValue?, isBoundedPoll_of_read (isPlain_member hplain _) hread.workerPoll]
  have hcovered : ∀ item ∈ items, StepCovered v p.toValue item := fun item hitem =>
    stepCovered hpoll item (isPlain_item hplain hitems item hitem) fun inner hinner hmis =>
      hmisread (.step hitems hitem hinner hmis)
  have hwalk := (checkOptions_covered hread hsteps).bind fun f f' h =>
    checkSteps_covered hcovered hsteps 0 none h
  rw [validate_eq hitems, validate_eq hview, ← bind_assoc, ← bind_assoc]
  generalize (checkOptions v items >>= fun f => checkSteps v items 0 none f) = r at hwalk ⊢
  generalize (checkOptions p.toValue (stepValues p.steps) >>= fun f =>
    checkSteps p.toValue (stepValues p.steps) 0 none f) = r' at hwalk ⊢
  cases hwalk with
  | error e => exact .inl ⟨e, rfl, rfl⟩
  | ok h => exact .inr ⟨_, _, rfl, rfl, h.marks⟩

end

end Validation

open Validation in
/-- **The check of a plan that was read of a document finds nothing that the check of the document has not
    found**: the same code at the same step, as grave; and so a document that is let in is let in again when it
    has been read. No step of the document may be misread. -/
theorem parsed_issues_found {v : Value} {p : Plan} (hplain : v.isPlain = true)
    (hread : Plan.ofValue v = .ok p) (hmisread : ¬ Misreadable v) :
    (∀ issues', validate p.toValue = .ok issues' →
      ∃ issues, validate v = .ok issues
        ∧ ∀ i' ∈ issues', ∃ i ∈ issues,
            i.defect.code = i'.defect.code ∧ i.step = i'.step ∧ i.defect.severity = i'.defect.severity)
      ∧ ((PlanSource.document v).accept = .ok p → (PlanSource.parsed p).accept = .ok p) := by
  have hfound {issues issues' : List Issue}
      (h : (issues'.map Issue.mark).Sublist (issues.map Issue.mark)) :
      ∀ i' ∈ issues', ∃ i ∈ issues,
        i.defect.code = i'.defect.code ∧ i.step = i'.step ∧ i.defect.severity = i'.defect.severity := by
    intro i' hi'
    obtain ⟨i, hi, hmark⟩ := List.mem_map.mp (h.subset (List.mem_map_of_mem hi'))
    simp only [Issue.mark, Prod.mk.injEq] at hmark
    exact ⟨i, hi, hmark⟩
  rcases validate_covered hplain hread hmisread with ⟨e, hraw, hparsed⟩ | ⟨issues, issues', hraw, hparsed, h⟩
  · refine ⟨fun issues' h => absurd (hparsed.symm.trans h) (by simp), fun haccept => ?_⟩
    obtain ⟨issues, hvalidate, -⟩ := PlanSource.accept_eq_ok.mp haccept
    exact absurd (hraw.symm.trans hvalidate) (by simp)
  · constructor
    · intro found hok
      obtain rfl := Except.ok.inj (hparsed.symm.trans hok)
      exact ⟨issues, hraw, hfound h⟩
    · intro haccept
      obtain ⟨_, hvalidate, hclean, -⟩ := PlanSource.accept_eq_ok.mp haccept
      obtain rfl := Except.ok.inj (hraw.symm.trans hvalidate)
      refine PlanSource.accept_eq_ok.mpr ⟨issues', hparsed, List.filter_eq_nil_iff.mpr fun i' hi' herror => ?_, rfl⟩
      -- an error that is found again was an error in the document
      obtain ⟨i, hi, -, -, hseverity⟩ := hfound h i' hi'
      refine List.filter_eq_nil_iff.mp hclean i hi ?_
      rw [Issue.isError, hseverity]
      exact herror

/-- A worker that is awaited, as its document writes it, within bounds. -/
def awaitedResize : Value :=
  .object [("steps", .list [.object [("type", .text "worker"), ("worker", .text "resize"), ("await", .int 1),
    ("workerPoll", .object [("maxRetries", .int 3)])]])]

/-- The same worker, as it is read. -/
def awaitedResizePlan : Plan where
  id := none
  steps := [.worker ⟨none, .absent, some true, false⟩ "resize" (some ⟨none, none, some 3⟩)]
  input := .object []
  messages := []
  continueOnError := false
  hookTimeout := none
  workerPoll := none
  workflowPoll := none

open Validation in
/-- Its `await` is no boolean, but its poll has bounds. -/
theorem awaitedResize_not_misreadable : ¬ Misreadable awaitedResize := by
  rintro ⟨list, mem, within, misread⟩
  obtain rfl := Value.list.inj list
  obtain rfl := List.mem_singleton.mp mem
  cases within with
  | self =>
    cases misread with
    | await kind read written unbounded => exact absurd unbounded (by decide)
    | token kind => exact absurd (Value.text.inj kind) (by decide)
  | under nests =>
    cases nests with
    | whenTrue kind => exact absurd (Value.text.inj kind) (by decide)
    | whenFalse kind => exact absurd (Value.text.inj kind) (by decide)
    | parallel kind => exact absurd (Value.text.inj kind) (by decide)

open Validation in
theorem awaitedResize_issues_found :
    awaitedResize.isPlain = true ∧ Plan.ofValue awaitedResize = .ok awaitedResizePlan
      ∧ ¬ Misreadable awaitedResize
      ∧ (∀ issues', validate awaitedResizePlan.toValue = .ok issues' →
          ∃ issues, validate awaitedResize = .ok issues
            ∧ ∀ i' ∈ issues', ∃ i ∈ issues,
                i.defect.code = i'.defect.code ∧ i.step = i'.step ∧ i.defect.severity = i'.defect.severity)
      ∧ ((PlanSource.document awaitedResize).accept = .ok awaitedResizePlan →
          (PlanSource.parsed awaitedResizePlan).accept = .ok awaitedResizePlan) :=
  ⟨by decide, rfl, awaitedResize_not_misreadable,
    parsed_issues_found (by decide) rfl awaitedResize_not_misreadable⟩

end Runbook
