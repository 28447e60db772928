import Runbook.Plan.Validation

/-!
# `Proofs.Inspection` — the check of a plan gives an answer

The check looks at documents that nobody has looked at before: any value may stand in any field, at any
depth. It is written as one walk, which goes down into the lists of a condition and of a parallel step and
nowhere else. What it comes to is settled step by step: each check of a single field has an answer whatever
the field holds, with one exception. A number of milliseconds that exceeds every double has no length, and
this is no defect that could be reported; the check stops there. So the check of a plan fails if and only if
such a number stands where a length of time is read.

## Contents
- **The walk.** `Nests` and `Within`, the steps that the walk comes to; `nodeInduction`, induction along it;
  `checkStep_node`, one step of it, and the parts of the checks that look into lists.
- **Answers.** `Answers`, what is known of a check that can only fail for one reason, and its laws.
- **Lengths of time.** `TooLong` and `tooLong_iff`.
- **Single steps.** `OversizedStep`, and an `_answers` lemma for each check that reads a length of time.
- **Plans.** `Oversized`, and `validate_ok_unless_oversized`.
-/

namespace Runbook

namespace Validation

/-! ## The walk -/

/-- **The lists of steps that a step has**, for the check: those of a condition and that of a parallel step. -/
inductive Nests (step : Value) : List Value → Prop where
  | whenTrue {items : List Value} (kind : member step "type" = .text "condition")
      (list : member step "then" = .list items) : Nests step items
  | whenFalse {items : List Value} (kind : member step "type" = .text "condition")
      (list : member step "else" = .list items) : Nests step items
  | parallel {items : List Value} (kind : member step "type" = .text "parallel")
      (list : member step "steps" = .list items) : Nests step items

/-- **A step that the walk comes to** from a step: this one, or one inside it at any depth. -/
inductive Within : Value → Value → Prop where
  | self (step : Value) : Within step step
  | under {step item inner : Value} {items : List Value} (list : Nests step items)
      (mem : item ∈ items) (within : Within item inner) : Within step inner

theorem sizeOf_of_get? {fields : Keyed Value} {key : String} {v : Value}
    (h : Keyed.get? fields key = some v) : sizeOf v < sizeOf fields := by
  have hentry := List.sizeOf_lt_of_mem (Keyed.mem_of_get? h)
  rw [Prod.mk.sizeOf_spec] at hentry
  omega

/-- What stands in a member is smaller than the whole. -/
theorem sizeOf_member {v u : Value} {name : String} (h : member? v name = some u) :
    sizeOf u < sizeOf v := by
  cases v with
  | object fields =>
    rw [Value.object.sizeOf_spec]
    simp only [member?, fieldOf?] at h
    split at h
    · next w found =>
      obtain rfl : w = u := Option.some.inj h
      have := sizeOf_of_get? found
      omega
    · rw [Option.map_map] at h
      obtain ⟨w, found, rfl⟩ := Option.map_eq_some_iff.mp h
      have := sizeOf_of_get? found
      simp only [Function.comp_apply]
      omega
  | parsed shape fields =>
    rw [Value.parsed.sizeOf_spec]
    rw [member?, fieldOf?, Option.map_map] at h
    obtain ⟨w, found, rfl⟩ := Option.map_eq_some_iff.mp h
    have := sizeOf_of_get? found
    simp only [Function.comp_apply]
    omega
  | _ => exact absurd h (by simp [member?, fieldOf?])

theorem member?_of_member {v u : Value} {name : String} (h : member v name = u) (hu : u ≠ .null) :
    member? v name = some u := by
  rw [member] at h
  cases hmember : member? v name with
  | none => exact absurd (by rw [hmember] at h; exact h.symm) hu
  | some w => rw [hmember] at h; exact congrArg some h

/-- **Induction along the lists of a node.** -/
theorem nodeInduction {P : Value → Prop}
    (node : ∀ v, (∀ name items, member v name = .list items → ∀ item ∈ items, P item) → P v)
    (v : Value) : P v := by
  refine node v fun name items hitems item hitem => ?_
  have hsmaller : sizeOf item < sizeOf v := by
    have hlist := sizeOf_member (member?_of_member hitems (by simp))
    have hmem := List.sizeOf_lt_of_mem hitem
    rw [Value.list.sizeOf_spec] at hlist
    omega
  exact nodeInduction node item
termination_by sizeOf v

theorem isNode_of_member {v u : Value} {name : String} (h : member v name = u) (hu : u ≠ .null) :
    isNode v = true := by
  cases v with
  | object fields => rfl
  | parsed shape fields => rfl
  | _ => exact absurd (by rw [← h]; simp [member, member?, fieldOf?]) hu

/-- The findings about a timeout that may be missing. -/
def checkTimeout (timeout : Value) (defect : TimeoutProblem → Defect) (at? : Option String)
    (f : Findings) : Except Fault Findings :=
  match timeout with
  | .null => .ok f
  | timeout => do
    match ← timeoutProblem? timeout with
    | some p => return f.add (defect p) at?
    | none => return f

/-- The findings about the token of a hook. -/
def checkToken (v : Value) (path : StepPath) (f : Findings) : Findings :=
  if hasToken v then f else f.addAt .hookWithoutToken path

theorem checkHook_eq (v : Value) (path : StepPath) (f : Findings) :
    checkHook v path f
      = checkTimeout (member v "timeout") .hookTimeout (some path.text) (checkToken v path f) := by
  unfold checkHook checkTimeout
  generalize member v "timeout" = timeout
  cases timeout <;> rfl

/-- The check of the list under a field of a condition; without a list there are other findings. -/
def checkUnder (nested : Keyed (Option ListCheck)) (v : Value) (name : String)
    (parent : Option (StepPath × Branch)) (f f' : Findings) : Except Fault Findings :=
  match listUnder? nested v name with
  | some check => check parent f
  | none => .ok f'

/-- The findings about the predicate of a condition. -/
def checkPredicate (v : Value) (path : StepPath) (f : Findings) : Findings :=
  if isPredicate (member v "if") then f else f.addAt .badPredicate path

/-- The check of the second list of a condition. -/
def checkElse (v : Value) (nested : Keyed (Option ListCheck)) (path : StepPath) (f : Findings) :
    Except Fault Findings :=
  match member v "else" with
  | .null => .ok f
  | _ => checkUnder nested v "else" (some (path, .whenFalse)) f (f.addAt .badElse path)

/-- A condition is checked in three parts. -/
theorem checkCondition_eq (v : Value) (nested : Keyed (Option ListCheck)) (path : StepPath)
    (f : Findings) :
    checkCondition v nested path f
      = checkUnder nested v "then" (some (path, .whenTrue)) (checkPredicate v path f)
          ((checkPredicate v path f).addAt .conditionWithoutThen path)
        >>= checkElse v nested path := by
  unfold checkCondition checkUnder
  cases listUnder? nested v "then" with
  | none => rfl
  | some check => rfl

/-- The findings about the number of steps in a parallel step. -/
def checkBranches (v : Value) (path : StepPath) (f : Findings) : Findings :=
  match member v "steps" with
  | .list (_ :: _) => f
  | _ => f.addAt .parallelWithoutSteps path

theorem checkParallel_eq (v : Value) (nested : Keyed (Option ListCheck)) (path : StepPath)
    (f : Findings) :
    checkParallel v nested path f
      = checkUnder nested v "steps" (some (path, .parallel)) (checkBranches v path f)
          (checkBranches v path f) := by
  have hbranches :
      (if (match member v "steps" with | .list (_ :: _) => false | _ => true) then
        f.addAt .parallelWithoutSteps path else f) = checkBranches v path f := by
    unfold checkBranches
    split <;> rfl
  unfold checkParallel
  exact congrArg (fun g => checkUnder nested v "steps" (some (path, .parallel)) g g) hbranches

/-- A field is looked up among the checks of the fields. -/
def ChecksOf (plan v : Value) (nested : Keyed (Option ListCheck)) : Prop :=
  ∀ name, listUnder? nested v name = (member? v name).bind (listCheck? plan)

/-- The check of the list under a field. -/
theorem ChecksOf.list {plan v : Value} {nested : Keyed (Option ListCheck)} (h : ChecksOf plan v nested)
    {name : String} {items : List Value} (hitems : member v name = .list items) :
    listUnder? nested v name = some (checkSteps plan items 0) := by
  rw [h name, member?_of_member hitems (by simp)]
  rfl

/-- A field without a list has no check. -/
theorem ChecksOf.none {plan v : Value} {nested : Keyed (Option ListCheck)} (h : ChecksOf plan v nested)
    {name : String} (hitems : ∀ items, member v name ≠ .list items) : listUnder? nested v name = .none := by
  rw [h name]
  cases hmember : member? v name with
  | none => rfl
  | some u =>
    cases u with
    | list items => exact absurd (by rw [member, hmember]; rfl) (hitems items)
    | _ => rfl

/-- Whatever can have fields is checked as a node, with the lists that are its members. -/
theorem checkStep_node (plan : Value) {v : Value} (hnode : isNode v = true) :
    ∃ nested, ChecksOf plan v nested
      ∧ ∀ parent i f, checkStep plan v parent i f = checkNode plan v nested (pathOf parent i v) f := by
  have hlists {v : Value} {fields : Keyed Value}
      (hget : ∀ name key u, fieldOf? v name = some (key, u) → Keyed.get? fields key = some u) :
      ChecksOf plan v (nestedChecks plan fields) := by
    intro name
    rw [listUnder?, member?]
    cases hfield : fieldOf? v name with
    | none => rfl
    | some entry =>
      obtain ⟨key, u⟩ := entry
      simp [get?_nestedChecks, hget name key u hfield]
  cases v with
  | object fields =>
    refine ⟨nestedChecks plan fields, hlists fun name key u h => ?_, fun parent i f => by rw [checkStep]⟩
    simp only [fieldOf?] at h
    split at h
    · next v hv =>
      cases h
      exact hv
    · obtain ⟨v, hv, hentry⟩ := Option.map_eq_some_iff.mp h
      cases hentry
      exact hv
  | parsed shape fields =>
    refine ⟨nestedChecks plan fields, hlists fun name key u h => ?_, fun parent i f => by rw [checkStep]⟩
    obtain ⟨v, hv, hentry⟩ := Option.map_eq_some_iff.mp h
    cases hentry
    exact hv
  | _ => exact absurd hnode (by simp [isNode])

/-! ## Answers -/

/-- **What is known of a check** that has an answer unless something is too large. -/
inductive Answers {α : Type} (tooLarge : Prop) : Except Fault α → Prop where
  | answer (h : ¬ tooLarge) (a : α) : Answers tooLarge (.ok a)
  | failure (h : tooLarge) : Answers tooLarge (.error .numberTooLarge)

section

variable {α β : Type} {P Q : Prop} {r : Except Fault α}

theorem Answers.congr (h : Answers P r) (hPQ : P ↔ Q) : Answers Q r := propext hPQ ▸ h

/-- One check after another. -/
theorem Answers.bind (h : Answers P r) {next : α → Except Fault β} (hnext : ∀ a, Answers Q (next a)) :
    Answers (P ∨ Q) (r >>= next) := by
  cases h with
  | failure h => exact .failure (.inl h)
  | answer h a =>
    show Answers (P ∨ Q) (next a)
    have hanswer := hnext a
    generalize next a = r' at hanswer ⊢
    cases hanswer with
    | failure hQ => exact .failure (.inr hQ)
    | answer hQ b => exact .answer (not_or.mpr ⟨h, hQ⟩) b

/-- A check and then steps that always have an answer. -/
theorem Answers.bind_ok (h : Answers P r) {next : α → Except Fault β} (hnext : ∀ a, ∃ b, next a = .ok b) :
    Answers P (r >>= next) := by
  refine (h.bind (Q := False) fun a => ?_).congr (or_iff_left not_false)
  obtain ⟨b, hb⟩ := hnext a
  rw [hb]
  exact .answer not_false b

end

/-! ## Lengths of time -/

/-- A value whose length of time exceeds every double. -/
def TooLong (v : Value) : Prop := Duration.millisecondsOf v = .error .tooLarge

theorem textMillis_ne_tooLarge (s : String) : Duration.textMillis s ≠ .error .tooLarge := by
  unfold Duration.textMillis
  split
  · simp
  · split <;> simp

/-- **Only integers are too long**, and only those that no double can hold. -/
theorem tooLong_iff {v : Value} :
    TooLong v ↔ ∃ n : Int, v = .int n ∧ 0 ≤ n ∧ Number.isFinite (Float.ofInt n) = false := by
  cases v with
  | int n =>
    simp only [TooLong, Duration.millisecondsOf, Duration.ofValue?, Duration.milliseconds,
      Value.int.injEq, exists_eq_left']
    by_cases hneg : n < 0
    · simp [hneg, Int.not_le.mpr hneg]
    · rw [if_neg hneg]
      cases Number.isFinite (Float.ofInt n) <;> simp [Int.not_lt.mp hneg]
  | text s =>
    simp [TooLong, Duration.millisecondsOf, Duration.ofValue?, Duration.milliseconds,
      textMillis_ne_tooLarge]
  | real x =>
    simp only [TooLong, Duration.millisecondsOf, Duration.ofValue?, Duration.milliseconds]
    by_cases hneg : x < 0.0 <;> simp [hneg]
  | _ => simp [TooLong, Duration.millisecondsOf, Duration.ofValue?]

example : TooLong (.int (10 ^ 400)) := tooLong_iff.mpr ⟨_, rfl, by decide, by decide +kernel⟩

theorem timeoutProblem?_answers (v : Value) : Answers (TooLong v) (timeoutProblem? v) := by
  unfold timeoutProblem?
  split
  · next ms h => exact .answer (by simp [TooLong, h]) _
  · next h => exact .failure h
  · next p hp h => exact .answer (fun hlong => hp (Except.error.inj (h.symm.trans hlong))) _

/-! ## Single steps -/

/-- **A step that waits too long**: a hook with such a timeout, or a sleep with such a duration. -/
inductive OversizedStep (step : Value) : Prop where
  | hook (kind : member step "type" = .text "hook") (long : TooLong (member step "timeout"))
  | sleep (kind : member step "type" = .text "sleep") (long : TooLong (member step "duration"))

section

variable {plan step : Value} {path : StepPath} {f : Findings}

theorem checkTimeout_answers (timeout : Value) (defect : TimeoutProblem → Defect) (at? : Option String)
    (f : Findings) : Answers (TooLong timeout) (checkTimeout timeout defect at? f) := by
  unfold checkTimeout
  split
  · exact .answer (by simp [TooLong, Duration.millisecondsOf, Duration.ofValue?]) f
  · refine (timeoutProblem?_answers _).bind_ok fun problem => ?_
    cases problem with
    | some p => exact ⟨_, rfl⟩
    | none => exact ⟨_, rfl⟩

theorem checkHook_answers : Answers (TooLong (member step "timeout")) (checkHook step path f) := by
  rw [checkHook_eq]
  exact checkTimeout_answers ..

theorem checkSleep_answers : Answers (TooLong (member step "duration")) (checkSleep step path f) := by
  have hlength {d : Duration} (hd : (member? step "duration").bind Duration.ofValue? = some d) :
      Duration.millisecondsOf (member step "duration") = d.milliseconds := by
    obtain ⟨v, hv, hd⟩ := Option.bind_eq_some_iff.mp hd
    rw [member, hv, Option.getD_some, Duration.millisecondsOf, hd]
  unfold checkSleep
  split
  · next hnone =>
    refine .answer ?_ _
    rw [TooLong, member]
    cases hmember : member? step "duration" with
    | none => simp [Duration.millisecondsOf, Duration.ofValue?]
    | some v =>
      rw [hmember] at hnone
      have hnone : Duration.ofValue? v = none := hnone
      simp [Duration.millisecondsOf, hnone]
  · next d hd =>
    rw [TooLong, hlength hd]
    split
    · next h => exact .answer (by simp [h]) _
    · next h => exact .failure h
    · next p hp h => exact .answer (fun hlong => hp (Except.error.inj (h.symm.trans hlong))) _

/-- Whether a step that waits too long stands at a step or inside it. -/
def HoldsOversized (step : Value) : Prop := ∃ inner, Within step inner ∧ OversizedStep inner

/-- Whether a step that waits too long stands in a list. -/
def ListOversized (items : List Value) : Prop := ∃ item ∈ items, HoldsOversized item

theorem holdsOversized_iff :
    HoldsOversized step ↔ OversizedStep step ∨ ∃ items, Nests step items ∧ ListOversized items := by
  constructor
  · rintro ⟨inner, within, long⟩
    cases within with
    | self => exact .inl long
    | under list mem within => exact .inr ⟨_, list, _, mem, inner, within, long⟩
  · rintro (long | ⟨items, list, item, mem, inner, within, long⟩)
    · exact ⟨step, .self step, long⟩
    · exact ⟨inner, .under list mem within, long⟩

theorem checkSteps_answers {items : List Value}
    (hitems : ∀ item ∈ items, ∀ parent i f, Answers (HoldsOversized item) (checkStep plan item parent i f))
    (i : Nat) (parent : Option (StepPath × Branch)) (f : Findings) :
    Answers (ListOversized items) (checkSteps plan items i parent f) := by
  induction items generalizing i f with
  | nil =>
    rw [checkSteps]
    exact .answer (by simp [ListOversized]) f
  | cons item rest ih =>
    rw [checkSteps]
    have hrest f' := ih (fun item hitem => hitems item (List.mem_cons_of_mem _ hitem)) (i + 1) f'
    exact ((hitems item List.mem_cons_self parent i f).bind hrest).congr (by simp [ListOversized])

variable {nested : Keyed (Option ListCheck)}

/-- Whether a step that waits too long stands in the list under a field. -/
def FieldOversized (step : Value) (name : String) : Prop :=
  ∃ items, member step name = .list items ∧ ListOversized items

/-- What is known of the lists under the fields of a node. -/
def ListsAnswer (plan step : Value) : Prop :=
  ∀ name items, member step name = .list items →
    ∀ parent f, Answers (ListOversized items) (checkSteps plan items 0 parent f)

theorem checkUnder_answers (hnested : ChecksOf plan step nested) (hlists : ListsAnswer plan step)
    (name : String) (parent : Option (StepPath × Branch)) (f f' : Findings) :
    Answers (FieldOversized step name) (checkUnder nested step name parent f f') := by
  unfold checkUnder
  by_cases hlist : ∃ items, member step name = .list items
  · obtain ⟨items, hitems⟩ := hlist
    rw [hnested.list hitems]
    refine (hlists name items hitems parent f).congr ?_
    simp [FieldOversized, hitems]
  · rw [hnested.none fun items hitems => hlist ⟨items, hitems⟩]
    exact .answer (fun ⟨items, hitems, _⟩ => hlist ⟨items, hitems⟩) f'

theorem checkCondition_answers (hnested : ChecksOf plan step nested) (hlists : ListsAnswer plan step) :
    Answers (FieldOversized step "then" ∨ FieldOversized step "else")
      (checkCondition step nested path f) := by
  rw [checkCondition_eq]
  refine (checkUnder_answers hnested hlists "then" _ _ _).bind fun f₁ => ?_
  unfold checkElse
  split
  · next hnull => exact .answer (by simp [FieldOversized, hnull]) f₁
  · exact checkUnder_answers hnested hlists "else" _ _ _

theorem checkParallel_answers (hnested : ChecksOf plan step nested) (hlists : ListsAnswer plan step) :
    Answers (FieldOversized step "steps") (checkParallel step nested path f) := by
  rw [checkParallel_eq]
  exact checkUnder_answers hnested hlists "steps" _ _ _

/-- **What can be too long at or inside a step**, by its type. -/
theorem holdsOversized_by_kind {kind : Value} (hkind : member step "type" = kind) :
    HoldsOversized step ↔
      (kind = .text "hook" ∧ TooLong (member step "timeout"))
        ∨ (kind = .text "sleep" ∧ TooLong (member step "duration"))
        ∨ (kind = .text "condition" ∧ (FieldOversized step "then" ∨ FieldOversized step "else"))
        ∨ (kind = .text "parallel" ∧ FieldOversized step "steps") := by
  subst hkind
  rw [holdsOversized_iff]
  constructor
  · rintro ((⟨kind, long⟩ | ⟨kind, long⟩) | ⟨items, ⟨kind, list⟩ | ⟨kind, list⟩ | ⟨kind, list⟩, long⟩)
    · exact .inl ⟨kind, long⟩
    · exact .inr (.inl ⟨kind, long⟩)
    · exact .inr (.inr (.inl ⟨kind, .inl ⟨items, list, long⟩⟩))
    · exact .inr (.inr (.inl ⟨kind, .inr ⟨items, list, long⟩⟩))
    · exact .inr (.inr (.inr ⟨kind, items, list, long⟩))
  · rintro (⟨kind, long⟩ | ⟨kind, long⟩ | ⟨kind, ⟨items, list, long⟩ | ⟨items, list, long⟩⟩
      | ⟨kind, items, list, long⟩)
    · exact .inl (.hook kind long)
    · exact .inl (.sleep kind long)
    · exact .inr ⟨items, .whenTrue kind list, long⟩
    · exact .inr ⟨items, .whenFalse kind list, long⟩
    · exact .inr ⟨items, .parallel kind list, long⟩

theorem checkNode_answers (hnested : ChecksOf plan step nested) (hlists : ListsAnswer plan step) :
    Answers (HoldsOversized step) (checkNode plan step nested path f) := by
  unfold checkNode
  dsimp only
  split
  case h_4 hkind => exact checkHook_answers.congr (by simp [holdsOversized_by_kind hkind])
  case h_5 hkind => exact checkSleep_answers.congr (by simp [holdsOversized_by_kind hkind])
  case h_6 hkind =>
    exact (checkCondition_answers hnested hlists).congr (by simp [holdsOversized_by_kind hkind])
  case h_7 hkind =>
    exact (checkParallel_answers hnested hlists).congr (by simp [holdsOversized_by_kind hkind])
  -- the other types have neither a length of time nor steps inside
  case h_1 hkind | h_2 hkind | h_3 hkind =>
    exact .answer (by simp [holdsOversized_by_kind hkind]) _
  case h_8 hook sleep condition parallel =>
    refine .answer ?_ _
    rw [holdsOversized_by_kind rfl]
    rintro (⟨hkind, -⟩ | ⟨hkind, -⟩ | ⟨hkind, -⟩ | ⟨hkind, -⟩)
    · exact hook hkind
    · exact sleep hkind
    · exact condition hkind
    · exact parallel hkind

end

/-- **The check of a step has an answer** unless a step that waits too long stands in it. -/
theorem checkStep_answers (plan step : Value) (parent : Option (StepPath × Branch)) (i : Nat)
    (f : Findings) : Answers (HoldsOversized step) (checkStep plan step parent i f) := by
  -- along the lists of the step, for all places at which it may stand
  induction step using nodeInduction generalizing parent i f with
  | node step ih =>
    cases hnode : isNode step with
    | true =>
      obtain ⟨nested, hnested, heq⟩ := checkStep_node plan hnode
      rw [heq]
      exact checkNode_answers hnested fun name items hitems parent f =>
        checkSteps_answers (fun item hitem parent i f => ih name items hitems item hitem parent i f) 0
          parent f
    | false =>
      have hmember : ∀ name, member step name = .null := by
        intro name
        cases step <;> simp_all [isNode, member, member?, fieldOf?]
      have hsmall : ¬ HoldsOversized step := by simp [holdsOversized_by_kind (hmember "type")]
      cases step with
      | object fields => exact absurd hnode (by simp [isNode])
      | parsed shape fields => exact absurd hnode (by simp [isNode])
      | _ =>
        rw [checkStep]
        exact .answer hsmall _
        all_goals simp

/-! ## Plans -/

/-- The findings about a plan that are made before the walk through its steps. -/
def checkOptions (plan : Value) (steps : List Value) : Except Fault Findings :=
  checkTimeout (member plan "hookTimeout") .planTimeout none
    (if steps.isEmpty then Findings.empty.add .planEmpty none else .empty)

/-- The check of a plan that has a list of steps. -/
theorem validate_eq {plan : Value} {steps : List Value} (hsteps : member plan "steps" = .list steps) :
    validate plan
      = checkOptions plan steps >>= fun f =>
          checkSteps plan steps 0 none f >>= fun f => .ok f.issues := by
  have hnode := isNode_of_member hsteps (by simp)
  unfold validate
  rw [hnode, hsteps]
  unfold checkOptions checkTimeout
  dsimp only
  rw [if_neg (by simp)]
  generalize member plan "hookTimeout" = timeout
  cases timeout with
  | null => rfl
  | _ =>
    dsimp only
    rw [bind_assoc]
    refine bind_congr fun problem => ?_
    cases problem <;> rfl

/-- **A plan with a length of time that exceeds every double**: its own timeout for hooks, or the timeout of
    a hook or the duration of a sleep that the walk comes to. -/
inductive Oversized (plan : Value) : Prop where
  | plan {steps : List Value} (list : member plan "steps" = .list steps)
      (long : TooLong (member plan "hookTimeout"))
  | step {steps : List Value} {step inner : Value} (list : member plan "steps" = .list steps)
      (mem : step ∈ steps) (within : Within step inner) (long : OversizedStep inner)

theorem oversized_iff {plan : Value} {steps : List Value} (hsteps : member plan "steps" = .list steps) :
    Oversized plan ↔ TooLong (member plan "hookTimeout") ∨ ListOversized steps := by
  constructor
  · rintro (⟨-, long⟩ | ⟨list, mem, within, long⟩)
    · exact .inl long
    · obtain rfl := Value.list.inj (list.symm.trans hsteps)
      exact .inr ⟨_, mem, _, within, long⟩
  · rintro (long | ⟨step, mem, inner, within, long⟩)
    · exact .plan hsteps long
    · exact .step hsteps mem within long

theorem validate_answers (plan : Value) : Answers (Oversized plan) (validate plan) := by
  by_cases hlist : ∃ steps, member plan "steps" = .list steps
  · obtain ⟨steps, hsteps⟩ := hlist
    rw [validate_eq hsteps]
    refine ((checkTimeout_answers ..).bind fun f => ?_).congr (oversized_iff hsteps).symm
    refine (checkSteps_answers (fun item _ => checkStep_answers plan item) 0 none f).bind_ok fun f' => ?_
    exact ⟨f'.issues, rfl⟩
  · have hsmall : ¬ Oversized plan := by
      rintro (⟨list, -⟩ | ⟨list, -⟩) <;> exact hlist ⟨_, list⟩
    unfold validate
    split
    · exact .answer hsmall _
    · split
      · next steps hsteps => exact absurd ⟨steps, hsteps⟩ hlist
      · exact .answer hsmall _

end Validation

end Runbook
