import Runbook.Proofs.DistinctIds
import Runbook.Proofs.Ledger
import Runbook.Proofs.Lengths
import Runbook.Proofs.Readings

/-!
# `Proofs.Acceptance` — what the check of a document makes sure of

The check looks at a document, and what is carried out is the plan that is read of it. What matters is
therefore what can be said of the steps of that plan, wherever they stand, once the check has found no error:
a hook that names a timeout waits for a positive length of time, a sleep has a length, a condition can be
decided, and no step is of a type that nobody knows. The document comes from outside, so there are no functions
in it, and no number in it is NaN.

## Contents
- **Documents from outside.** `Value.isJson`.
- **Steps that can be carried out.** `Step.Ready`, `Step.AllReady` and `Plan.Ready`.
- **What checks make sure of.** `Findings.Ensures`, and an `_ensures` lemma for each check.
- **The walk.** `checkStep_ensures`, by induction along the lists of a document.
- **Plans.** `ready_of_accept`.
-/

namespace Runbook

/-! ## Documents from outside -/

namespace Value

mutual
/-- Whatever is written as JSON: no function, nothing that has been read, and no number that is none. -/
def isJson : Value → Bool
  | .null | .bool _ | .int _ | .text _ => true
  | .real x => !x.isNaN
  | .list items => allJson items
  | .object fields => allFieldsJson fields
  | .function _ | .schema _ | .parsed _ _ => false

/-- `isJson` of every item. -/
def allJson : List Value → Bool
  | [] => true
  | v :: rest => v.isJson && allJson rest

/-- `isJson` of every field. -/
def allFieldsJson : List (String × Value) → Bool
  | [] => true
  | (_, v) :: rest => v.isJson && allFieldsJson rest
end

mutual
theorem isPlain_of_isJson : ∀ {v : Value}, v.isJson = true → v.isPlain = true
  | .null, _ | .bool _, _ | .int _, _ | .text _, _ | .real _, _ => rfl
  | .list items, h => by
    rw [isJson] at h
    rw [isPlain]
    exact allPlain_of_allJson h
  | .object fields, h => by
    rw [isJson] at h
    rw [isPlain]
    exact allFieldsPlain_of_allFieldsJson h
  | .function _, h | .schema _, h | .parsed _ _, h => absurd h (by simp [isJson])

theorem allPlain_of_allJson : ∀ {items : List Value}, allJson items = true → allPlain items = true
  | [], _ => rfl
  | v :: rest, h => by
    rw [allJson, Bool.and_eq_true] at h
    rw [allPlain, isPlain_of_isJson h.1, allPlain_of_allJson h.2]
    rfl

theorem allFieldsPlain_of_allFieldsJson : ∀ {fields : List (String × Value)}, allFieldsJson fields = true →
    allFieldsPlain fields = true
  | [], _ => rfl
  | (_, v) :: rest, h => by
    rw [allFieldsJson, Bool.and_eq_true] at h
    rw [allFieldsPlain, isPlain_of_isJson h.1, allFieldsPlain_of_allFieldsJson h.2]
    rfl
end

theorem allJson_iff {items : List Value} : allJson items = true ↔ ∀ v ∈ items, v.isJson = true := by
  induction items with
  | nil => simp [allJson]
  | cons v rest ih => rw [allJson, Bool.and_eq_true, ih, List.forall_mem_cons]

theorem allFieldsJson_iff {fields : Keyed Value} :
    allFieldsJson fields = true ↔ ∀ entry ∈ fields, entry.2.isJson = true := by
  induction fields with
  | nil => simp [allFieldsJson]
  | cons entry rest ih =>
    obtain ⟨k, v⟩ := entry
    rw [allFieldsJson, Bool.and_eq_true, ih, List.forall_mem_cons]

end Value

/-! ## Steps that can be carried out -/

/-- **A step that can be carried out as it is written.** Its input and its token are no functions, its
    timeout is a positive length of time, its duration has a length, its predicate can be decided, and its type
    is known. -/
def Step.Ready : Step → Prop
  | .agent call _ | .worker call _ _ | .workflow call _ => ∀ u, call.input = .given u → u.isPlain = true
  | .hook h => (∀ u, h.token ≠ some (.computed u)) ∧ ∀ d, h.timeout = some d → d.IsPositive
  | .sleep _ d => ∃ ms, d.milliseconds = .ok ms
  | .condition _ predicate _ _ => (∃ b, predicate = .constant b) ∨ ∃ c, predicate = .stepField c
  | .parallel _ _ => True
  | .foreign _ _ => False

/-- Every step at or inside a step can be carried out. -/
def Step.AllReady (s : Step) : Prop := ∀ rest s', s.Has rest s' → s'.Ready

/-- **A plan that can be carried out as it is written.** -/
structure Plan.Ready (p : Plan) : Prop where
  hookTimeout : ∀ d, p.hookTimeout = some d → d.IsPositive
  steps : ∀ q s, p.Has q s → s.Ready

theorem Step.AllReady.of_lists {s : Step} (h : s.Ready) (hlists : ∀ b, ∀ s' ∈ s.listOf b, s'.AllReady) :
    s.AllReady := by
  intro rest s' hhas
  cases hhas with
  | here => exact h
  | @inside _ s₁ _ b i rest hi hinside => exact hlists b s₁ (List.mem_of_getElem? hi) rest s' hinside

/-- A step without steps inside. -/
theorem Step.AllReady.of_ready {s : Step} (h : s.Ready) (hnone : ∀ b, s.listOf b = []) : s.AllReady :=
  .of_lists h fun b _ hs => absurd (hnone b ▸ hs) List.not_mem_nil

namespace Validation

theorem isJson_member {v : Value} (h : v.isJson = true) (name : String) : (member v name).isJson = true := by
  cases v with
  | object fields =>
    rw [Value.isJson] at h
    exact member_inherits (P := fun u => u.isJson = true) rfl (Value.allFieldsJson_iff.mp h) name
  | parsed shape fields => exact absurd h (by simp [Value.isJson])
  | _ => rfl

theorem isJson_item {v : Value} (h : v.isJson = true) {name : String} {items : List Value}
    (hitems : member v name = .list items) : ∀ item ∈ items, item.isJson = true := by
  have hlist := isJson_member h name
  rw [hitems, Value.isJson] at hlist
  exact Value.allJson_iff.mp hlist

/-! ## What checks make sure of -/

/-- **What a check makes sure of**, if it has found no error: that there was none before, and something more. -/
structure Findings.Ensures (P : Prop) (f f' : Findings) : Prop where
  of_clean : f'.Clean → f.Clean ∧ P

namespace Findings.Ensures

variable {P Q : Prop} {f f₁ f' : Findings}

theorem refl (h : P) (f : Findings) : Ensures P f f := ⟨fun hclean => ⟨hclean, h⟩⟩

theorem weaken (h : Ensures P f f') (hPQ : P → Q) : Ensures Q f f' :=
  ⟨fun hclean => (h.of_clean hclean).imp_right hPQ⟩

/-- One check after another. -/
theorem trans (h₁ : Ensures P f f₁) (h₂ : Ensures Q f₁ f') : Ensures (P ∧ Q) f f' := by
  refine ⟨fun hclean => ?_⟩
  obtain ⟨hclean₁, hQ⟩ := h₂.of_clean hclean
  obtain ⟨hclean₀, hP⟩ := h₁.of_clean hclean₁
  exact ⟨hclean₀, hP, hQ⟩

/-- What is met adds nothing but issues. -/
theorem of_meets {ids : List String} (h : Findings.Meets ids f f') : Ensures True f f' :=
  ⟨fun hclean => ⟨(h.of_clean hclean).1, trivial⟩⟩

theorem of_error {defect : Defect} {step : Option String} (h : defect.severity = .error) :
    Ensures P f (f.add defect step) := by
  refine ⟨fun hclean => ?_⟩
  have hissue := hclean ⟨defect, step⟩ (List.mem_append_right _ (List.mem_singleton_self _))
  exact absurd hissue (by simp [Issue.isError, h])

end Findings.Ensures

open Findings

section

variable {plan v : Value} {path : StepPath} {f f' : Findings}

theorem checkTimeout_ensures {timeout : Value} {defect : TimeoutProblem → Defect} {at? : Option String}
    (herror : ∀ p, (defect p).severity = .error) (h : checkTimeout timeout defect at? f = .ok f') :
    Ensures (timeout = .null ∨ timeoutProblem? timeout = .ok none) f f' := by
  unfold checkTimeout at h
  split at h
  · obtain rfl := Except.ok.inj h
    exact .refl (.inl rfl) f
  · obtain ⟨problem, hproblem, h⟩ := Fault.bind_eq_ok.mp h
    cases problem with
    | some p =>
      obtain rfl := Except.ok.inj h
      exact .of_error (herror p)
    | none =>
      obtain rfl := Except.ok.inj h
      exact .refl (.inr hproblem) f

theorem checkHook_ensures (h : checkHook v path f = .ok f') :
    Ensures (member v "timeout" = .null ∨ timeoutProblem? (member v "timeout") = .ok none) f f' := by
  rw [checkHook_eq] at h
  have htoken : Ensures True f (checkToken v path f) := by
    unfold checkToken
    split
    · exact .refl trivial f
    · exact .of_meets (.add ..)
  exact (htoken.trans (checkTimeout_ensures (fun _ => rfl) h)).weaken And.right

theorem checkSleep_ensures (h : checkSleep v path f = .ok f') :
    Ensures (∃ d, (member? v "duration").bind Duration.ofValue? = some d ∧ ∃ ms, d.milliseconds = .ok ms)
      f f' := by
  unfold checkSleep at h
  split at h
  · obtain rfl := Except.ok.inj h
    exact .of_error rfl
  · next d hd =>
    split at h
    · next ms hms =>
      obtain rfl := Except.ok.inj h
      exact .refl ⟨d, hd, ms, hms⟩ f
    · exact absurd h (by simp)
    · obtain rfl := Except.ok.inj h
      exact .of_error rfl

theorem checkPredicate_ensures :
    Ensures (isPredicate (member v "if") = true) f (checkPredicate v path f) := by
  unfold checkPredicate
  split
  · next hpredicate => exact .refl hpredicate f
  · exact .of_error rfl

/-! ### Lengths of time that have been read -/

theorem ofValue?_of_read {u : Value} {d d' : Duration} (hread : readDuration u = .ok d)
    (h : Duration.ofValue? u = some d') : d' = d := by
  rcases readDuration_eq_ok hread with rfl | ⟨b, rfl, rfl⟩
  · exact Option.some.inj (h.symm.trans (ofValue?_toValue d))
  · exact absurd h (by simp [Duration.ofValue?])

/-- What counts as a timeout in a document is read as a positive length of time. -/
theorem isPositive_of_read {u : Value} {d : Duration} (hjson : u.isJson = true)
    (hread : readDuration u = .ok d) (h : timeoutProblem? u = .ok none) : d.IsPositive := by
  unfold timeoutProblem? Duration.millisecondsOf at h
  rcases readDuration_eq_ok hread with rfl | ⟨b, rfl, rfl⟩
  · rw [ofValue?_toValue] at h
    dsimp only at h
    split at h
    · next ms hms =>
      split at h
      · exact absurd h (by simp)
      · next hpositive =>
        refine Duration.isPositive_of_not_le_zero ?_ hms hpositive
        cases d with
        | real x =>
          rw [Duration.toValue, Value.isJson] at hjson
          show x.isNaN = false
          simpa using hjson
        | _ => trivial
    · exact absurd h (by simp)
    · exact absurd h (by simp)
  · -- a boolean is no length of time
    exact absurd h (by simp [Duration.ofValue?])

/-! ## The walk -/

/-- **The check of a step makes sure** that whatever is read of it can be carried out. -/
def StepEnsures (plan v : Value) : Prop :=
  ∀ s, readStep v = .ok s → ∀ parent i f f', checkStep plan v parent i f = .ok f' → Ensures s.AllReady f f'

theorem checkSteps_ensures {items : List Value} (hitems : ∀ item ∈ items, StepEnsures plan item) {n : Nat}
    {steps : List Step} (hread : readSteps n items = .ok steps) {i : Nat}
    {parent : Option (StepPath × Branch)} (h : checkSteps plan items i parent f = .ok f') :
    Ensures (∀ s ∈ steps, s.AllReady) f f' := by
  induction items generalizing n steps i f with
  | nil =>
    rw [readSteps] at hread
    obtain rfl := Checked.ok.inj hread
    rw [checkSteps] at h
    obtain rfl := Except.ok.inj h
    exact .refl (by simp) f
  | cons v rest ih =>
    obtain ⟨s, others, hs, hothers, rfl⟩ := readSteps_cons_eq_ok.mp hread
    rw [checkSteps] at h
    obtain ⟨f₁, hfirst, hrest⟩ := Fault.bind_eq_ok.mp h
    have hhead := hitems v List.mem_cons_self s hs parent i f f₁ hfirst
    have htail := ih (fun item hitem => hitems item (List.mem_cons_of_mem _ hitem)) hothers hrest
    exact (hhead.trans htail).weaken List.forall_mem_cons.mpr

variable {nested : Keyed (Option ListCheck)}

/-- The check of the list under a field; without a list there are no steps. -/
theorem checkUnder_ensures (hnested : ChecksOf plan v nested) {name : String} {steps : List Step}
    (hread : ListRead v name steps)
    (hlist : ∀ items, member v name = .list items → ∀ item ∈ items, StepEnsures plan item)
    {parent : Option (StepPath × Branch)} {g : Findings} (hmissing : Ensures True f g)
    (h : checkUnder nested v name parent f g = .ok f') : Ensures (∀ s ∈ steps, s.AllReady) f f' := by
  unfold checkUnder at h
  cases hread with
  | missing hnone =>
    rw [hnested.none (by simp [member, hnone])] at h
    obtain rfl := Except.ok.inj h
    exact hmissing.weaken fun _ => by simp
  | list hitems hread =>
    rw [hnested.list hitems] at h
    exact checkSteps_ensures (hlist _ hitems) hread h

theorem checkCondition_ensures (hnested : ChecksOf plan v nested) (hplain : v.isPlain = true)
    {id : Option String} {predicate : Predicate} {whenTrue : List Step} {whenFalse : Option (List Step)}
    (hread : ReadAs v (.condition id predicate whenTrue whenFalse))
    (hlists : ∀ name items, member v name = .list items → ∀ item ∈ items, StepEnsures plan item)
    (h : checkCondition v nested path f = .ok f') :
    Ensures (Step.condition id predicate whenTrue whenFalse).AllReady f f' := by
  cases hread with
  | condition hkind hid hpredicate hthen helse =>
    rw [checkCondition_eq] at h
    obtain ⟨f₁, hfirst, hsecond⟩ := Fault.bind_eq_ok.mp h
    have hwhenTrue := checkUnder_ensures hnested hthen (hlists "then") (.of_meets (.add ..)) hfirst
    have hwhenFalse : Ensures (∀ s ∈ whenFalse.getD [], s.AllReady) f₁ f' := by
      unfold checkElse at hsecond
      rcases helse with ⟨hnull, rfl⟩ | ⟨items, steps, hitems, hsteps, rfl⟩
      · rw [hnull] at hsecond
        obtain rfl := Except.ok.inj hsecond
        exact .refl (by simp) f₁
      · rw [hitems] at hsecond
        exact checkUnder_ensures hnested (.list hitems hsteps) (hlists "else") (.of_meets (.add ..)) hsecond
    refine ((checkPredicate_ensures.trans hwhenTrue).trans hwhenFalse).weaken ?_
    rintro ⟨⟨hdecided, htrue⟩, hfalse⟩
    refine .of_lists (predicate_of_isPredicate (isPlain_member hplain "if") hpredicate hdecided) fun b => ?_
    cases b with
    | whenTrue => exact htrue
    | whenFalse => exact hfalse
    | parallel => exact fun s' hs' => absurd hs' List.not_mem_nil

theorem checkParallel_ensures (hnested : ChecksOf plan v nested) {id : Option String} {branches : List Step}
    (hread : ReadAs v (.parallel id branches))
    (hlists : ∀ name items, member v name = .list items → ∀ item ∈ items, StepEnsures plan item)
    (h : checkParallel v nested path f = .ok f') : Ensures (Step.parallel id branches).AllReady f f' := by
  cases hread with
  | parallel hkind hid hsteps =>
    rw [checkParallel_eq] at h
    have hcount : Ensures True f (checkBranches v path f) := by
      unfold checkBranches
      split
      · exact .refl trivial f
      · exact .of_meets (.add ..)
    refine (hcount.trans (checkUnder_ensures hnested hsteps (hlists "steps") (.refl trivial _) h)).weaken ?_
    rintro ⟨-, hbranches⟩
    refine .of_lists trivial fun b => ?_
    cases b with
    | parallel => exact hbranches
    | whenTrue | whenFalse => exact fun s' hs' => absurd hs' List.not_mem_nil

/-- What stands in the input of a plain document is no function. -/
theorem CallRead.ready (hplain : v.isPlain = true) {call : Capability} (h : CallRead v call) :
    ∀ u, call.input = .given u → u.isPlain = true :=
  fun u hu => h.input u hu ▸ isPlain_member hplain "input"

theorem HookRead.ready (hjson : v.isJson = true) {hook : Hook} (h : HookRead v hook)
    (htimeout : member v "timeout" = .null ∨ timeoutProblem? (member v "timeout") = .ok none) :
    (Step.hook hook).Ready := by
  refine ⟨fun u hu => ?_, fun d hd => ?_⟩
  · -- a token that has been read of a plain document is a text
    rcases nullable_eq_ok h.token with ⟨-, hnone⟩ | ⟨token, hread, hsome⟩
    · exact absurd (hnone.symm.trans hu) (by simp)
    · obtain rfl := Option.some.inj (hsome.symm.trans hu)
      have hplain := isPlain_member (Value.isPlain_of_isJson hjson) "token"
      generalize member v "token" = u' at hread hplain
      cases u' with
      | text s => exact absurd (Checked.ok.inj hread) (by simp)
      | function | schema | parsed => exact absurd hplain (by simp [Value.isPlain])
      | _ => exact absurd hread (by simp [readToken, Value.isCallable])
  · rcases nullable_eq_ok h.timeout with ⟨-, hnone⟩ | ⟨d', hread, hsome⟩
    · exact absurd (hnone.symm.trans hd) (by simp)
    · obtain rfl := Option.some.inj (hsome.symm.trans hd)
      rcases htimeout with hnull | hproblem
      · rw [hnull] at hread
        exact absurd hread (by simp [readDuration])
      · exact isPositive_of_read (isJson_member hjson "timeout") hread hproblem

/-- **The check of a node**, type by type. -/
theorem checkNode_ensures (hnested : ChecksOf plan v nested) (hjson : v.isJson = true) {s : Step}
    (hread : ReadAs v s)
    (hlists : ∀ name items, member v name = .list items → ∀ item ∈ items, StepEnsures plan item)
    (h : checkNode plan v nested path f = .ok f') : Ensures s.AllReady f f' := by
  have hplain := Value.isPlain_of_isJson hjson
  -- the id is checked first, and makes sure of nothing besides itself
  have hown {id : Option String} (hid : member v "id" = .ofText? id) {f' : Findings}
      (hnext : Ensures s.AllReady (checkId v path f) f') : Ensures s.AllReady f f' :=
    ((Ensures.of_meets (checkId_takes hid).meets).trans hnext).weaken And.right
  unfold checkNode at h
  cases hread with
  | agent hkind hcall =>
    rw [hkind] at h
    obtain rfl := Except.ok.inj h
    refine hown hcall.id ((Ensures.of_meets (checkName_takes _).meets).weaken fun _ => ?_)
    exact .of_ready (hcall.ready hplain) fun b => by cases b <;> rfl
  | worker hkind hcall =>
    rw [hkind] at h
    obtain rfl := Except.ok.inj h
    refine hown hcall.id ((Ensures.of_meets ((checkName_takes _).trans checkAwait_takes).meets).weaken fun _ => ?_)
    exact .of_ready (hcall.ready hplain) fun b => by cases b <;> rfl
  | workflow hkind hcall =>
    rw [hkind] at h
    obtain rfl := Except.ok.inj h
    refine hown hcall.id ((Ensures.of_meets (checkName_takes _).meets).weaken fun _ => ?_)
    exact .of_ready (hcall.ready hplain) fun b => by cases b <;> rfl
  | hook hkind hhook =>
    rw [hkind] at h
    refine hown hhook.id ((checkHook_ensures h).weaken fun htimeout => ?_)
    exact .of_ready (hhook.ready hjson htimeout) fun b => by cases b <;> rfl
  | sleep hkind hid hduration =>
    rw [hkind] at h
    refine hown hid ((checkSleep_ensures h).weaken fun ⟨d', hd', hlength⟩ => ?_)
    obtain ⟨u, hu, hread⟩ := hduration
    rw [hu] at hd'
    obtain rfl := ofValue?_of_read hread hd'
    exact .of_ready hlength fun b => by cases b <;> rfl
  | condition hkind hid hpredicate hthen helse =>
    rw [hkind] at h
    exact hown hid (checkCondition_ensures hnested hplain (.condition hkind hid hpredicate hthen helse) hlists h)
  | parallel hkind hid hsteps =>
    rw [hkind] at h
    exact hown hid (checkParallel_ensures hnested (.parallel hkind hid hsteps) hlists h)

/-- **The check of a step**, along the lists of its document. -/
theorem checkStep_ensures (plan v : Value) (hjson : v.isJson = true) : StepEnsures plan v := by
  induction v using nodeInduction with
  | node v ih =>
    intro s hread parent i f f' h
    have hread := readAs_of_readStep (Value.isPlain_of_isJson hjson) hread
    have hkind : ∃ kind, member v "type" = .text kind := by cases hread <;> exact ⟨_, ‹_›⟩
    obtain ⟨kind, hkind⟩ := hkind
    obtain ⟨nested, hnested, heq⟩ := checkStep_node plan (isNode_of_member hkind (by simp))
    rw [heq] at h
    exact checkNode_ensures hnested hjson hread
      (fun name items hitems item hitem => ih name items hitems item hitem (isJson_item hjson hitems item hitem)) h

end

end Validation

/-! ## Plans -/

open Validation in
/-- **An accepted document is read as a plan that can be carried out as it is written.** -/
theorem ready_of_accept {v : Value} {p : Plan} (hjson : v.isJson = true)
    (haccept : (PlanSource.document v).accept = .ok p) : p.Ready := by
  obtain ⟨issues, hvalidate, hissues, hread⟩ := PlanSource.accept_eq_ok.mp haccept
  rw [PlanSource.toValue] at hvalidate
  have hread := readAs_of_planOfValue (Value.isPlain_of_isJson hjson) (PlanSource.read_document_eq_ok.mp hread)
  obtain ⟨items, hitems, hsteps⟩ := hread.steps
  rw [validate_eq hitems] at hvalidate
  obtain ⟨f₁, hoptions, hvalidate⟩ := Fault.bind_eq_ok.mp hvalidate
  obtain ⟨f₂, hwalk, hvalidate⟩ := Fault.bind_eq_ok.mp hvalidate
  have hclean : f₂.Clean := by
    intro i hi
    rw [← Except.ok.inj hvalidate] at hissues
    simpa using List.filter_eq_nil_iff.mp hissues i hi
  -- first the timeout of the plan is checked, then its steps
  obtain ⟨hclean₁, hall⟩ := (checkSteps_ensures (fun item hitem =>
    checkStep_ensures v item (isJson_item hjson hitems item hitem)) hsteps hwalk).of_clean hclean
  obtain ⟨-, htimeout⟩ := (checkTimeout_ensures (fun _ => rfl) hoptions).of_clean hclean₁
  refine ⟨fun d hd => ?_, fun q s hhas => ?_⟩
  · rcases hread.hookTimeout with ⟨-, hnone⟩ | ⟨d', hreadTimeout, hsome⟩
    · exact absurd (hnone.symm.trans hd) (by simp)
    · obtain rfl := Option.some.inj (hsome.symm.trans hd)
      rcases htimeout with hnull | hproblem
      · rw [hnull] at hreadTimeout
        exact absurd hreadTimeout (by simp [readDuration])
      · exact isPositive_of_read (isJson_member hjson "hookTimeout") hreadTimeout hproblem
  · cases hhas with
    | root hi hinside => exact hall _ (List.mem_of_getElem? hi) _ _ hinside

end Runbook
