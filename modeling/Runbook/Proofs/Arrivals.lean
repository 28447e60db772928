import Runbook.Proofs.Formed
import Runbook.Proofs.Spelling

/-!
# `Proofs.Arrivals` — what arrives of a plan

The transport form of a plan is read again on the other side. What arrives there is a plan again, and it can be
said outright what it is: functions are gone, and a flag is left for those that were inputs or tokens; a
predicate that is no constant and no comparison is gone; the further fields of a join that are null are gone;
payload models are gone, and the timeout for hooks is written out. `Plan.ofValue_toDocument` says so of every
plan that has been read. Nothing more is lost the second time: a plan that has arrived has the transport form
that it was read of.

## Contents
- **What arrives.** `Step.arrived` and `Plan.arrived`.
- **Places.** `Plan.has_arrived`, every step arrives at its place.
- **Reading.** `readStep_toDocument`, by induction on the tree, and `Plan.ofValue_toDocument`.
- **A fixed point.** `Plan.toDocument_arrived`, and `transport_form_fixed`.
-/

namespace Runbook

/-! ## What arrives -/

/-- Further fields that have been written lose nothing more. -/
theorem Transport.extra_extra (fields : Keyed Value) : extra (extra fields) = extra fields := by
  have hkept : (extra fields).filter (fun entry => !entry.2.isNull) = extra fields := by
    rw [List.filter_eq_self]
    intro entry hentry
    rw [extra, Value.spelledFields_eq_map] at hentry
    obtain ⟨source, hsource, rfl⟩ := List.mem_map.mp hentry
    show (!(source.2.spelledOut false).isNull) = true
    rw [Value.isNull_spelledOut]
    exact (List.mem_filter.mp hsource).2
  show Value.spelledFields false ((extra fields).filter fun entry => !entry.2.isNull) = extra fields
  rw [hkept]
  exact Value.spelledFields_of_allUnread false (Value.allFieldsUnread_spelledFields false _)

/-- The further fields of a join keep their names. -/
theorem Transport.extra_names {fields : Keyed Value} (h : ∀ entry ∈ fields, entry.1 ∉ JoinDescriptor.names) :
    ∀ entry ∈ extra fields, entry.1 ∉ JoinDescriptor.names := by
  intro entry hentry
  rw [extra, Value.spelledFields_eq_map] at hentry
  obtain ⟨source, hsource, rfl⟩ := List.mem_map.mp hentry
  exact h source (List.mem_filter.mp hsource).1

/-- A join, as it arrives: without the further fields that are null. -/
def JoinDescriptor.arrived (d : JoinDescriptor) : JoinDescriptor := { d with extra := Transport.extra d.extra }

/-- An input, as it arrives. A function does not, and null counts as no input; a join without ids of steps
    arrives as a literal. -/
def StepInput.arrived : StepInput → StepInput
  | .absent => .absent
  | .given v => if v.isCallable || v.isNull then .absent else .given v
  | .join d => if d.fromSteps.isEmpty then .given (Transport.join d) else .join d.arrived

/-- What capability steps share, as it arrives: a function leaves a flag. -/
def Capability.arrived (c : Capability) : Capability :=
  { c with input := c.input.arrived, inputIsFunction := (Transport.input c.input).2 || c.inputIsFunction }

/-- A token, as it arrives. -/
def HookToken.arrived? : Option HookToken → Option HookToken
  | some (.text s) => some (.text s)
  | some (.computed _) | none => none

/-- A hook, as it arrives: a function leaves a flag, and whatever payloads are checked against is gone. -/
def Hook.arrived (h : Hook) : Hook :=
  { h with
    token := HookToken.arrived? h.token
    payloadModel := .null
    tokenIsFunction := (Transport.token h.token).2 || h.tokenIsFunction }

/-- A comparison, as it arrives. -/
def StepFieldCondition.arrived (c : StepFieldCondition) : StepFieldCondition :=
  { c with value := c.value.spelledOut true }

/-- A predicate, as it arrives: only constants and comparisons do. -/
def Predicate.arrived : Predicate → Predicate
  | .constant b => .constant b
  | .stepField c => .stepField c.arrived
  | .other _ => .other .null

mutual
/-- **A step, as it arrives.** What no interpreter knows arrives as an agent. -/
def Step.arrived : Step → Step
  | .agent call agent => .agent call.arrived agent
  | .foreign call agent => .agent call.arrived agent
  | .worker call worker poll => .worker call.arrived worker poll
  | .workflow call workflow => .workflow call.arrived workflow
  | .hook h => .hook h.arrived
  | .sleep id duration => .sleep id duration
  | .condition id predicate whenTrue whenFalse =>
    .condition id predicate.arrived (arrivedSteps whenTrue)
      (match whenFalse with
        | some steps => some (arrivedSteps steps)
        | none => none)
  | .parallel id branches => .parallel id (arrivedSteps branches)

/-- Steps, as they arrive. -/
def arrivedSteps : List Step → List Step
  | [] => []
  | s :: rest => s.arrived :: arrivedSteps rest
end

theorem arrivedSteps_eq_map (steps : List Step) : arrivedSteps steps = steps.map Step.arrived := by
  induction steps with
  | nil => rfl
  | cons s rest ih => rw [arrivedSteps, ih, List.map_cons]

theorem Step.arrived_condition (id : Option String) (predicate : Predicate) (whenTrue : List Step)
    (whenFalse : Option (List Step)) : (condition id predicate whenTrue whenFalse).arrived
      = condition id predicate.arrived (arrivedSteps whenTrue) (whenFalse.map arrivedSteps) := by
  cases whenFalse <;> rfl

/-- **A plan, as it arrives.** -/
def Plan.arrived (p : Plan) : Plan :=
  { p with
    steps := arrivedSteps p.steps
    input := if p.input.isCallable then .object [] else p.input
    messages := Value.spelledItems false p.messages
    hookTimeout := some (p.hookTimeout.getD defaultHookTimeout) }

/-! ## Places -/

@[simp] theorem Step.kind_arrived (s : Step) : s.arrived.kind = s.kind := by
  cases s <;> rfl

/-- The lists of a step that arrives are those of the step, as they arrive. -/
theorem Step.listOf_arrived (s : Step) (b : Branch) : s.arrived.listOf b = (s.listOf b).map Step.arrived := by
  cases s with
  | condition id predicate whenTrue whenFalse =>
    rw [arrived_condition]
    cases b with
    | whenTrue => exact arrivedSteps_eq_map whenTrue
    | whenFalse =>
      cases whenFalse with
      | none => rfl
      | some steps => exact arrivedSteps_eq_map steps
    | parallel => rfl
  | parallel id branches =>
    cases b with
    | parallel => exact arrivedSteps_eq_map branches
    | whenTrue | whenFalse => rfl
  | _ => cases b <;> rfl

/-- What stands inside a step stands there when it has arrived. -/
theorem Step.Has.arrived {s s' : Step} {rest : StepPath} (h : s.Has rest s') : s.arrived.Has rest s'.arrived := by
  induction h with
  | here => exact .here
  | @inside s s₁ s₂ b i rest hi h ih =>
    have hfound : (s.arrived.listOf b)[i]? = some s₁.arrived := by
      rw [listOf_arrived, List.getElem?_map, hi]
      rfl
    rw [← s₁.kind_arrived]
    exact .inside hfound ih

/-- Whatever stands inside a step that has arrived has arrived there. -/
theorem Step.Has.of_arrived {s t : Step} {rest : StepPath} (h : s.arrived.Has rest t) :
    ∃ s', s.Has rest s' ∧ t = s'.arrived := by
  generalize hs : s.arrived = u at h
  induction h generalizing s with
  | here => exact ⟨s, .here, hs.symm⟩
  | @inside u u₁ t b i rest hi h ih =>
    subst hs
    rw [listOf_arrived, List.getElem?_map] at hi
    obtain ⟨s₁, hfound, rfl⟩ := Option.map_eq_some_iff.mp hi
    obtain ⟨s', hhas, rfl⟩ := ih rfl
    rw [s₁.kind_arrived]
    exact ⟨s', .inside hfound hhas, rfl⟩

/-- **Every step arrives at its place**, and nothing else does. -/
theorem Plan.has_arrived {p : Plan} {q : StepPath} {t : Step} :
    p.arrived.Has q t ↔ ∃ s, p.Has q s ∧ t = s.arrived := by
  have hsteps (i : Nat) : p.arrived.steps[i]? = p.steps[i]?.map Step.arrived := by
    show (arrivedSteps p.steps)[i]? = _
    rw [arrivedSteps_eq_map, List.getElem?_map]
  constructor
  · intro h
    cases h with
    | @root s₀ _ i rest hi hinside =>
      rw [hsteps] at hi
      obtain ⟨s, hs, rfl⟩ := Option.map_eq_some_iff.mp hi
      obtain ⟨s', hhas, rfl⟩ := hinside.of_arrived
      rw [s.kind_arrived]
      exact ⟨s', .root hs hhas, rfl⟩
  · rintro ⟨s, hhas, rfl⟩
    cases hhas with
    | @root s₀ _ i rest hi hinside =>
      have hfound : p.arrived.steps[i]? = some s₀.arrived := by rw [hsteps, hi]; rfl
      rw [← s₀.kind_arrived]
      exact .root hfound hinside.arrived

/-! ## Reading -/

/-! ### Inputs -/

section

open Decode

/-- The fields of a join that is written. -/
def Transport.joinFields (d : JoinDescriptor) : Keyed Value :=
  [("fromSteps", .list (d.fromSteps.map .text))] ++ some? "path" (d.path.map .text)
    ++ some? "join" (d.join.map .text) ++ extra d.extra

theorem Decode.readTexts_map (ids : List String) : readTexts (.list (ids.map .text)) = .ok ids := by
  have htext : ∀ id ∈ ids, Decode.text (.text id) = .ok id := by
    intro id _
    rfl
  exact Checked.items_map htext 0

variable {d : JoinDescriptor}

theorem JoinDescriptor.ofFields_joinFields (h : ∀ entry ∈ d.extra, entry.1 ∉ names) :
    JoinDescriptor.ofFields (Transport.joinFields d) = .ok d.arrived := by
  have hnames := Transport.extra_names h
  have hextra {name : String} (hname : name ∈ names) : Keyed.get? (Transport.extra d.extra) name = none := by
    apply Keyed.get?_eq_none
    rintro entry hentry rfl
    exact hnames entry hentry hname
  have hpath : Keyed.get? (Transport.joinFields d) "path" = d.path.map .text := by
    simp [Transport.joinFields, Keyed.get?, hextra (by decide : "path" ∈ names)]
  have hjoin : Keyed.get? (Transport.joinFields d) "join" = d.join.map .text := by
    simp [Transport.joinFields, Keyed.get?, hextra (by decide : "join" ∈ names)]
  have hfound : fromStepsName.find? (Transport.joinFields d)
      = some ("fromSteps", .list (d.fromSteps.map .text)) := rfl
  -- of the fields that are written, those of other names are the further ones
  have hrest : (Transport.joinFields d).filter (fun entry => !names.contains entry.1)
      = Transport.extra d.extra := by
    have hothers : (Transport.extra d.extra).filter (fun entry => !names.contains entry.1)
        = Transport.extra d.extra := by
      rw [List.filter_eq_self]
      intro entry hentry
      simpa using hnames entry hentry
    have hown (name : String) (hname : name ∈ names) (text : Option String) :
        (Transport.some? name (text.map .text)).filter (fun entry => !names.contains entry.1) = [] := by
      cases text <;> simp [Transport.some?, hname]
    rw [Transport.joinFields, List.filter_append, List.filter_append, List.filter_append, hothers,
      hown "path" (by decide), hown "join" (by decide)]
    rfl
  unfold JoinDescriptor.ofFields
  rw [required_spelled (f := fromStepsName) rfl (readTexts_map d.fromSteps),
    option_some? hpath (.inl rfl) (fun _ _ => rfl), option_some? hjoin (.inl rfl) (fun _ _ => rfl), hfound]
  exact congrArg (fun extra => Checked.ok (JoinDescriptor.mk d.fromSteps d.path d.join extra)) hrest

/-- A mapping that is no join is an input as it stands. -/
theorem StepInput.ofValue_of_none {fields : Keyed Value} (h : joinFields? (.object fields) = none) :
    StepInput.ofValue (.object fields) = .ok (.given (.object fields)) := by
  simp only [StepInput.ofValue, h]

/-- A mapping that lists ids of steps is a join. -/
theorem StepInput.ofValue_of_some {fields : Keyed Value} (h : joinFields? (.object fields) = some fields) :
    StepInput.ofValue (.object fields) = (JoinDescriptor.ofFields fields).map .join := by
  simp only [StepInput.ofValue, h]

/-- What is written of an input is read as it arrives. -/
theorem StepInput.ofValue_join (h : (StepInput.join d).Formed) :
    StepInput.ofValue (Transport.join d) = .ok (StepInput.join d).arrived := by
  show StepInput.ofValue (.object (Transport.joinFields d)) = .ok (StepInput.join d).arrived
  rw [StepInput.arrived]
  cases hids : d.fromSteps with
  | nil =>
    have hnone : joinFields? (.object (Transport.joinFields d)) = none := by
      simp [joinFields?, Transport.joinFields, Value.fields?, Keyed.get?, hids]
    exact StepInput.ofValue_of_none hnone
  | cons id rest =>
    have hsome : joinFields? (.object (Transport.joinFields d)) = some (Transport.joinFields d) := by
      simp [joinFields?, Transport.joinFields, Value.fields?, Keyed.get?, hids]
    rw [StepInput.ofValue_of_some hsome, JoinDescriptor.ofFields_joinFields h]
    rfl

/-- The field that is written of an input, if any, is read as the input arrives. -/
theorem Transport.read_input {i : StepInput} (h : i.Formed) :
    ((Transport.input i).1 = [] ∧ i.arrived = .absent)
      ∨ ∃ u, (Transport.input i).1 = [("input", u)] ∧ StepInput.ofValue u = .ok i.arrived := by
  cases i with
  | absent => exact .inl ⟨rfl, rfl⟩
  | join d => exact .inr ⟨_, rfl, StepInput.ofValue_join h⟩
  | given v =>
    rw [Transport.input, StepInput.arrived]
    by_cases hcallable : v.isCallable = true
    · -- a function leaves only its flag
      left
      rw [if_pos hcallable, hcallable]
      exact ⟨rfl, rfl⟩
    · rw [if_neg hcallable]
      by_cases hnull : v.isNull = true
      · -- null is left out
        left
        rw [if_pos hnull, hnull, Bool.or_true]
        exact ⟨rfl, rfl⟩
      · right
        rw [if_neg hnull, if_neg (by simp [hcallable, hnull])]
        exact ⟨v, rfl, h⟩

/-! ### Capability steps -/

/-- The fields of a capability step that is written. -/
def Transport.capabilityFields (c : Capability) (kind : String) (rest : Keyed Value) : Keyed Value :=
  some? "id" (c.id.map .text) ++ some? "await" (c.await.map .bool)
    ++ [("inputIsFunction", .bool ((Transport.input c.input).2 || c.inputIsFunction)), ("type", .text kind)]
    ++ rest ++ (Transport.input c.input).1

variable {c : Capability} {kind : String} {rest : Keyed Value}

theorem Transport.capability_eq : capability c kind rest = .object (capabilityFields c kind rest) := rfl

theorem Transport.get?_input (i : StepInput) {key : String} (h : key ≠ "input") :
    Keyed.get? (Transport.input i).1 key = none := by
  cases i with
  | absent => rfl
  | join d => exact if_neg (Ne.symm h)
  | given v =>
    rw [Transport.input]
    split
    · rfl
    · split
      · rfl
      · exact if_neg (Ne.symm h)

/-- The fields that capability steps do not share. -/
theorem Transport.get?_capability_own {name : String}
    (hname : name ∉ ["id", "await", "inputIsFunction", "type", "input"]) :
    Keyed.get? (capabilityFields c kind rest) name = Keyed.get? rest name := by
  simp only [List.mem_cons, List.not_mem_nil, or_false, not_or] at hname
  obtain ⟨hid, hawait, hflag, htype, hinput⟩ := hname
  simp [capabilityFields, get?_input _ hinput, Ne.symm hid, Ne.symm hawait, Ne.symm hflag, Ne.symm htype,
    Keyed.get?]

theorem Transport.get?_capability_type : Keyed.get? (capabilityFields c kind rest) "type" = some (.text kind) := by
  simp [capabilityFields, Keyed.get?]

theorem Transport.get?_capability_id (hrest : Keyed.get? rest "id" = none) :
    Keyed.get? (capabilityFields c kind rest) "id" = c.id.map .text := by
  simp [capabilityFields, get?_input, hrest, Keyed.get?]

theorem Transport.get?_capability_await (hrest : Keyed.get? rest "await" = none) :
    Keyed.get? (capabilityFields c kind rest) "await" = c.await.map .bool := by
  simp [capabilityFields, get?_input, hrest, Keyed.get?]

/-- **What capability steps share** is read as it arrives. -/
theorem Capability.ofFields_document (hc : c.input.Formed)
    (hrest : ∀ name ∈ ["id", "input", "await", "await_"], Keyed.get? rest name = none) :
    Capability.ofFields (Transport.capabilityFields c kind rest) = .ok c.arrived := by
  have hid : Keyed.get? (Transport.capabilityFields c kind rest) "id" = c.id.map .text :=
    Transport.get?_capability_id (hrest _ (by decide))
  have hawait : Keyed.get? (Transport.capabilityFields c kind rest) "await" = c.await.map .bool :=
    Transport.get?_capability_await (hrest _ (by decide))
  have hawait' : Keyed.get? (Transport.capabilityFields c kind rest) "await_" = none := by
    rw [Transport.get?_capability_own (by decide)]
    exact hrest _ (by decide)
  have hwritten : Keyed.get? (Transport.capabilityFields c kind rest) "inputIsFunction"
      = some (.bool ((Transport.input c.input).2 || c.inputIsFunction)) := by
    simp [Transport.capabilityFields, Keyed.get?]
  have hinput : Decode.optional (Transport.capabilityFields c kind rest) "input" StepInput.absent
      StepInput.ofValue = .ok c.input.arrived := by
    have hgiven : Keyed.get? (Transport.capabilityFields c kind rest) "input"
        = Keyed.get? (Transport.input c.input).1 "input" := by
      simp [Transport.capabilityFields, hrest, Keyed.get?]
    rcases Transport.read_input hc with ⟨hnone, habsent⟩ | ⟨u, hu, hread⟩
    · rw [hnone] at hgiven
      rw [habsent]
      exact optional_missing hgiven hgiven
    · rw [hu] at hgiven
      exact optional_spelled hgiven hread
  have hflag : Decode.optional (Transport.capabilityFields c kind rest) inputIsFunctionName false Decode.flag
      = .ok ((Transport.input c.input).2 || c.inputIsFunction) := optional_spelled hwritten rfl
  unfold Capability.ofFields
  rw [option_some? hid (.inl rfl) (fun _ _ => rfl), hinput,
    option_some? hawait (.inr hawait') (fun _ _ => rfl), hflag]
  rfl

/-- A step is read by the type that its document names. -/
theorem stepOfDocument_eq_ok {fields : Keyed Value} {nested : Keyed (Checked (List Step))} {kind : String}
    {shape : Shape} {s : Step} (htype : Keyed.get? fields "type" = some (.text kind))
    (hshape : shapeOfKind? kind = some shape) (h : stepOfFields shape fields nested = .ok s) :
    stepOfDocument fields nested = .ok s := by
  have htag : (Value.text kind).text?.bind shapeOfKind? = some shape := hshape
  unfold stepOfDocument
  rw [htype]
  dsimp only
  rw [htag]
  exact Checked.under_eq_ok.mpr h

/-! ### Single steps -/

theorem readDuration_toValue (d : Duration) : readDuration d.toValue = .ok d := by
  cases d <;> rfl

theorem PollPolicy.ofValue_toDocument (p : PollPolicy) : PollPolicy.ofValue p.toDocument = .ok p := by
  obtain ⟨interval, timeout, retries⟩ := p
  cases interval <;> cases timeout <;> cases retries <;> rfl

theorem PollPolicy.nullable_toDocument (p : PollPolicy) :
    nullable PollPolicy.ofValue p.toDocument = .ok (some p) := by
  show (PollPolicy.ofValue p.toDocument).map some = .ok (some p)
  rw [PollPolicy.ofValue_toDocument]
  rfl

theorem nullable_duration (d : Duration) : nullable readDuration d.toValue = .ok (some d) := by
  cases d <;> rfl

/-- A comparison is read as it arrives. -/
theorem Predicate.ofValue_stepField (c : StepFieldCondition) :
    Predicate.ofValue (Transport.stepField c) = .ok (.stepField c.arrived) := by
  obtain ⟨stepId, path, op, value⟩ := c
  cases path <;> cases op <;> rfl

/-- A capability step is read from its fields. -/
theorem readStep_capability {shape : Shape} {s : Step} (hshape : shapeOfKind? kind = some shape)
    (h : stepOfFields shape (Transport.capabilityFields c kind rest)
      (nestedSteps (Transport.capabilityFields c kind rest)) = .ok s) :
    readStep (Transport.capability c kind rest) = .ok s := by
  rw [Transport.capability_eq, readStep]
  exact stepOfDocument_eq_ok Transport.get?_capability_type hshape h

/-- An agent step is read as it arrives. -/
theorem readStep_agent (hc : c.input.Formed) (agent : String) :
    readStep (Transport.capability c "agent" [("agent", .text agent)]) = .ok (.agent c.arrived agent) := by
  have hshape : shapeOfKind? "agent" = some .agent := rfl
  have hown : ∀ name ∈ ["id", "input", "await", "await_"],
      Keyed.get? [("agent", Value.text agent)] name = none := by
    simp [Keyed.get?]
  have hname : Keyed.get? (Transport.capabilityFields c "agent" [("agent", .text agent)]) "agent"
      = some (.text agent) := Transport.get?_capability_own (by decide)
  apply readStep_capability hshape
  rw [stepOfFields, Capability.ofFields_document hc hown, required_text hname]
  rfl

/-- A workflow step is read as it arrives. -/
theorem readStep_workflow (hc : c.input.Formed) (workflow : String) :
    readStep (Step.workflow c workflow).toDocument = .ok (.workflow c.arrived workflow) := by
  have hshape : shapeOfKind? "workflow" = some .workflow := rfl
  have hown : ∀ name ∈ ["id", "input", "await", "await_"],
      Keyed.get? [("workflow", Value.text workflow)] name = none := by
    simp [Keyed.get?]
  have hname : Keyed.get? (Transport.capabilityFields c "workflow" [("workflow", .text workflow)]) "workflow"
      = some (.text workflow) := Transport.get?_capability_own (by decide)
  show readStep (Transport.capability c "workflow" [("workflow", .text workflow)]) = _
  apply readStep_capability hshape
  rw [stepOfFields, Capability.ofFields_document hc hown, required_text hname]
  rfl

/-- The fields of a worker that other capabilities do not have. -/
def Transport.workerFields (worker : String) (poll : Option PollPolicy) : Keyed Value :=
  [("worker", .text worker)] ++ some? "workerPoll" (poll.map PollPolicy.toDocument)

theorem Transport.get?_workerFields_poll (worker : String) (poll : Option PollPolicy) :
    Keyed.get? (capabilityFields c "worker" (workerFields worker poll)) "workerPoll"
      = poll.map PollPolicy.toDocument := by
  rw [get?_capability_own (by decide)]
  simp [workerFields, Keyed.get?]

theorem Transport.get?_workerFields_other {worker : String} {poll : Option PollPolicy} {name : String}
    (hname : name ≠ "worker") (hpoll : name ≠ "workerPoll") : Keyed.get? (workerFields worker poll) name = none := by
  simp [workerFields, Keyed.get?, hname.symm, hpoll.symm]

/-- The worker of a step, and how the end of its job is looked for. -/
theorem readStep_worker (hc : c.input.Formed) (worker : String) (poll : Option PollPolicy) :
    readStep (Step.worker c worker poll).toDocument = .ok (.worker c.arrived worker poll) := by
  have hshape : shapeOfKind? "worker" = some .worker := rfl
  refine readStep_capability hshape ?_
  show stepOfFields .worker (Transport.capabilityFields c "worker" (Transport.workerFields worker poll))
    (nestedSteps (Transport.capabilityFields c "worker" (Transport.workerFields worker poll))) = _
  have hname : Keyed.get? (Transport.capabilityFields c "worker" (Transport.workerFields worker poll)) "worker"
      = some (.text worker) := Transport.get?_capability_own (by decide)
  have hunnamed : Keyed.get? (Transport.capabilityFields c "worker" (Transport.workerFields worker poll))
      "worker_poll" = none := by
    rw [Transport.get?_capability_own (by decide)]
    exact Transport.get?_workerFields_other (by decide) (by decide)
  have hown : ∀ name ∈ ["id", "input", "await", "await_"],
      Keyed.get? (Transport.workerFields worker poll) name = none := by
    intro name hname
    refine Transport.get?_workerFields_other ?_ ?_ <;> rintro rfl <;> exact absurd hname (by decide)
  rw [stepOfFields, Capability.ofFields_document hc hown, required_text hname,
    option_some? (Transport.get?_workerFields_poll worker poll) (.inr hunnamed)
      (fun p _ => p.nullable_toDocument)]
  rfl

/-- The token that is written, if any, is read as it arrives. -/
theorem Transport.get?_token (token : Option HookToken) :
    Keyed.get? (Transport.token token).1 "token"
      = (HookToken.arrived? token).map fun t => HookToken.toValue? (some t) := by
  cases token with
  | none => rfl
  | some t => cases t <;> rfl

/-- The fields of a hook that is written. -/
def Transport.hookFields (h : Hook) : Keyed Value :=
  some? "id" (h.id.map .text) ++ [("type", .text "hook")] ++ some? "timeout" (h.timeout.map Duration.toValue)
    ++ [("tokenIsFunction", .bool ((Transport.token h.token).2 || h.tokenIsFunction))] ++ (Transport.token h.token).1

theorem Transport.hook_eq (h : Hook) : hook h = .object (hookFields h) := rfl

theorem Transport.get?_token_other (token : Option HookToken) {key : String} (hkey : key ≠ "token") :
    Keyed.get? (Transport.token token).1 key = none := by
  cases token with
  | none => rfl
  | some t =>
    cases t with
    | text s => exact if_neg (Ne.symm hkey)
    | computed u => rfl

/-- A token that has arrived is a text. -/
theorem HookToken.read_arrived (token : Option HookToken) :
    ∀ t ∈ arrived? token, nullable readToken (toValue? (some t)) = .ok (some t) := by
  intro t ht
  cases token with
  | none => exact absurd ht (by simp [arrived?])
  | some written =>
    cases written with
    | text s =>
      obtain rfl := Option.some.inj ht
      rfl
    | computed u => exact absurd ht (by simp [arrived?])

theorem Transport.get?_hookFields_type (h : Hook) : Keyed.get? (hookFields h) "type" = some (.text "hook") := by
  simp [hookFields, Keyed.get?]

theorem Transport.get?_hookFields_id (h : Hook) : Keyed.get? (hookFields h) "id" = h.id.map .text := by
  simp [hookFields, Keyed.get?, get?_token_other]

theorem Transport.get?_hookFields_token (h : Hook) :
    Keyed.get? (hookFields h) "token" = (HookToken.arrived? h.token).map fun t => HookToken.toValue? (some t) := by
  rw [← get?_token]
  simp [hookFields, Keyed.get?]

theorem Transport.get?_hookFields_timeout (h : Hook) :
    Keyed.get? (hookFields h) "timeout" = h.timeout.map Duration.toValue := by
  simp [hookFields, Keyed.get?, get?_token_other]

theorem Transport.get?_hookFields_flag (h : Hook) :
    Keyed.get? (hookFields h) "tokenIsFunction" = some (.bool ((token h.token).2 || h.tokenIsFunction)) := by
  simp [hookFields, Keyed.get?]

theorem Hook.ofFields_document (h : Hook) : Hook.ofFields (Transport.hookFields h) = .ok h.arrived := by
  have hother {key : String} (hkey : key ≠ "token") := Transport.get?_token_other h.token hkey
  have hmodel : Keyed.get? (Transport.hookFields h) "payloadModel" = none
      ∧ Keyed.get? (Transport.hookFields h) "payload_model" = none := by
    simp [Transport.hookFields, Keyed.get?, hother]
  have hflag : Decode.optional (Transport.hookFields h) tokenIsFunctionName false Decode.flag
      = .ok ((Transport.token h.token).2 || h.tokenIsFunction) :=
    optional_spelled (Transport.get?_hookFields_flag h) rfl
  have hduration : ∀ d ∈ h.timeout, nullable readDuration d.toValue = .ok (some d) :=
    fun d _ => nullable_duration d
  unfold Hook.ofFields
  rw [option_some? (Transport.get?_hookFields_id h) (.inl rfl) (fun _ _ => rfl),
    option_some? (Transport.get?_hookFields_token h) (.inl rfl) (HookToken.read_arrived h.token),
    option_some? (Transport.get?_hookFields_timeout h) (.inl rfl) hduration, optional_missing hmodel.1 hmodel.2, hflag]
  rfl

/-- A hook is read as it arrives. -/
theorem readStep_hook (h : Hook) : readStep (Transport.hook h) = .ok (.hook h.arrived) := by
  rw [Transport.hook_eq, readStep]
  refine stepOfDocument_eq_ok (Transport.get?_hookFields_type h) rfl ?_
  rw [stepOfFields, Hook.ofFields_document]
  rfl

/-! ### Conditions and branches -/

/-- The lists of steps under a field that is written are read of it. -/
theorem stepsUnder_spelled {fields : Keyed Value} {f : FieldName} {default steps : List Step} {items : List Value}
    (hfield : Keyed.get? fields f.spelling = some (.list items)) (hread : readSteps 0 items = .ok steps) :
    stepsUnder (nestedSteps fields) f default = .ok steps := by
  unfold stepsUnder
  rw [get?_nestedSteps, hfield]
  exact Checked.under_eq_ok.mpr hread

/-- The fields of a condition step that is written. -/
def Transport.conditionFields (id : Option String) (predicate : Predicate) (whenTrue : List Step)
    (whenFalse : Option (List Step)) : Keyed Value :=
  some? "id" (id.map .text) ++ [("type", .text "condition")] ++ Transport.predicate predicate
    ++ [("then", .list (stepDocuments whenTrue))]
    ++ some? "else" (whenFalse.map fun steps => .list (stepDocuments steps))

theorem Transport.condition_eq (id : Option String) (predicate : Predicate) (whenTrue : List Step)
    (whenFalse : Option (List Step)) : (Step.condition id predicate whenTrue whenFalse).toDocument
      = .object (conditionFields id predicate whenTrue whenFalse) := by
  cases whenFalse <;> rfl

theorem Transport.get?_predicate (predicate : Predicate) {key : String} (h : key ≠ "if") :
    Keyed.get? (Transport.predicate predicate) key = none := by
  cases predicate with
  | constant b => exact if_neg (Ne.symm h)
  | stepField c => exact if_neg (Ne.symm h)
  | other u => rfl

/-- The predicate that is written, if any, is read as it arrives. -/
theorem Predicate.read_arrived {fields : Keyed Value} {predicate : Predicate}
    (hfield : Keyed.get? fields "if" = Keyed.get? (Transport.predicate predicate) "if")
    (hunnamed : Keyed.get? fields "if_" = none) :
    Decode.optional fields ⟨"if", "if_"⟩ (Predicate.other .null) Predicate.ofValue = .ok predicate.arrived := by
  cases predicate with
  | constant b => exact optional_spelled hfield rfl
  | stepField c => exact optional_spelled hfield (ofValue_stepField c)
  | other u => exact optional_missing hfield hunnamed

variable {whenTrue : List Step} {whenFalse : Option (List Step)}

namespace Transport

variable {id : Option String} {predicate : Predicate}

theorem get?_conditionFields_type :
    Keyed.get? (conditionFields id predicate whenTrue whenFalse) "type" = some (.text "condition") := by
  simp [conditionFields, Keyed.get?]

theorem get?_conditionFields_id :
    Keyed.get? (conditionFields id predicate whenTrue whenFalse) "id" = id.map .text := by
  simp [conditionFields, Keyed.get?, get?_predicate]

theorem get?_conditionFields_if :
    Keyed.get? (conditionFields id predicate whenTrue whenFalse) "if"
      = Keyed.get? (Transport.predicate predicate) "if" := by
  simp [conditionFields, Keyed.get?]

theorem get?_conditionFields_then :
    Keyed.get? (conditionFields id predicate whenTrue whenFalse) "then"
      = some (.list (stepDocuments whenTrue)) := by
  simp [conditionFields, Keyed.get?, get?_predicate]

theorem get?_conditionFields_else :
    Keyed.get? (conditionFields id predicate whenTrue whenFalse) "else"
      = whenFalse.map fun steps => .list (stepDocuments steps) := by
  simp [conditionFields, Keyed.get?, get?_predicate]

/-- The attribute names are not used. -/
theorem get?_conditionFields_unused :
    Keyed.get? (conditionFields id predicate whenTrue whenFalse) "if_" = none
      ∧ Keyed.get? (conditionFields id predicate whenTrue whenFalse) "else_" = none := by
  simp [conditionFields, Keyed.get?, get?_predicate]

end Transport

/-- A condition step is read as it arrives, if the steps inside are. -/
theorem readStep_condition (id : Option String) (predicate : Predicate)
    (htrue : readSteps 0 (stepDocuments whenTrue) = .ok (arrivedSteps whenTrue))
    (hfalse : ∀ steps ∈ whenFalse, readSteps 0 (stepDocuments steps) = .ok (arrivedSteps steps)) :
    readStep (Step.condition id predicate whenTrue whenFalse).toDocument
      = .ok (Step.condition id predicate whenTrue whenFalse).arrived := by
  obtain ⟨hif, helse⟩ : Keyed.get? (Transport.conditionFields id predicate whenTrue whenFalse) "if_" = none
      ∧ Keyed.get? (Transport.conditionFields id predicate whenTrue whenFalse) "else_" = none :=
    Transport.get?_conditionFields_unused
  rw [Transport.condition_eq, readStep]
  refine stepOfDocument_eq_ok Transport.get?_conditionFields_type rfl ?_
  rw [stepOfFields, option_some? Transport.get?_conditionFields_id (.inl rfl) (fun _ _ => rfl),
    Predicate.read_arrived Transport.get?_conditionFields_if hif,
    stepsUnder_spelled Transport.get?_conditionFields_then htrue]
  cases whenFalse with
  | none =>
    have hfound : whenFalseName.find? (Transport.conditionFields id predicate whenTrue none) = none := by
      simp [FieldName.find?, whenFalseName, Transport.get?_conditionFields_else, helse]
    rw [hfound]
    rfl
  | some steps =>
    have hfound : whenFalseName.find? (Transport.conditionFields id predicate whenTrue (some steps))
        = some ("else", .list (stepDocuments steps)) := by
      simp [FieldName.find?, whenFalseName, Transport.get?_conditionFields_else]
    have hread : stepsUnder (nestedSteps (Transport.conditionFields id predicate whenTrue (some steps)))
        whenFalseName [] = .ok (arrivedSteps steps) :=
      stepsUnder_spelled Transport.get?_conditionFields_else (hfalse steps rfl)
    rw [hfound]
    dsimp only
    rw [hread]
    rfl

/-- The fields of a parallel step that is written. -/
def Transport.parallelFields (id : Option String) (branches : List Step) : Keyed Value :=
  some? "id" (id.map .text) ++ [("type", .text "parallel"), ("steps", .list (stepDocuments branches))]

namespace Transport

variable {id : Option String} {branches : List Step}

theorem get?_parallelFields_type : Keyed.get? (parallelFields id branches) "type" = some (.text "parallel") := by
  simp [parallelFields, Keyed.get?]

theorem get?_parallelFields_id : Keyed.get? (parallelFields id branches) "id" = id.map .text := by
  simp [parallelFields, Keyed.get?]

theorem get?_parallelFields_steps :
    Keyed.get? (parallelFields id branches) "steps" = some (.list (stepDocuments branches)) := by
  simp [parallelFields, Keyed.get?]

theorem parallel_eq : (Step.parallel id branches).toDocument = .object (parallelFields id branches) := rfl

end Transport

/-- Branches are read as they arrive, if the steps inside are. -/
theorem readStep_parallel (id : Option String) {branches : List Step}
    (h : readSteps 0 (stepDocuments branches) = .ok (arrivedSteps branches)) :
    readStep (Step.parallel id branches).toDocument = .ok (Step.parallel id branches).arrived := by
  rw [Transport.parallel_eq, readStep]
  refine stepOfDocument_eq_ok Transport.get?_parallelFields_type rfl ?_
  rw [stepOfFields, option_some? Transport.get?_parallelFields_id (.inl rfl) (fun _ _ => rfl),
    stepsUnder_spelled Transport.get?_parallelFields_steps h]
  rfl

/-! ### Trees -/

/-- Steps are read as they arrive, if each of them is. -/
theorem readSteps_stepDocuments {steps : List Step} (h : ∀ s ∈ steps, readStep s.toDocument = .ok s.arrived) :
    ∀ n, readSteps n (stepDocuments steps) = .ok (arrivedSteps steps) := by
  induction steps with
  | nil => exact fun n => rfl
  | cons s rest ih =>
    intro n
    rw [stepDocuments, readSteps, h s List.mem_cons_self, ih (fun s' hs' => h s' (List.mem_cons_of_mem s hs'))]
    rfl

/-- **A step is read as it arrives**, and so are the steps inside it. -/
theorem readStep_toDocument (s : Step) : s.All Step.Formed → readStep s.toDocument = .ok s.arrived := by
  refine Step.treeInduction (P := fun s => s.All Step.Formed → readStep s.toDocument = .ok s.arrived)
    (Q := fun steps => ∀ s ∈ steps, s.All Step.Formed → readStep s.toDocument = .ok s.arrived)
    ?leaf ?condition ?parallel ?foreign ?nil ?cons s
  case leaf =>
    intro s hleaf hformed
    cases s with
    | agent call agent => exact readStep_agent hformed.own agent
    | worker call worker poll => exact readStep_worker hformed.own worker poll
    | workflow call workflow => exact readStep_workflow hformed.own workflow
    | hook h => exact readStep_hook h
    | sleep id d => cases id <;> cases d <;> rfl
    | condition | parallel | foreign => exact absurd hleaf (by simp [Step.isLeaf])
  case condition =>
    intro id predicate whenTrue whenFalse ih hformed
    have hlist (b : Bool) : readSteps 0 (stepDocuments (takenSteps b whenTrue whenFalse))
        = .ok (arrivedSteps (takenSteps b whenTrue whenFalse)) := by
      apply readSteps_stepDocuments
      intro s hs
      apply ih b s hs
      cases b with
      | true => exact hformed.inner (b := .whenTrue) hs
      | false => exact hformed.inner (b := .whenFalse) hs
    apply readStep_condition id predicate (hlist true)
    intro steps hsteps
    obtain rfl : whenFalse = some steps := hsteps
    exact hlist false
  case parallel =>
    intro id branches ih hformed
    apply readStep_parallel
    apply readSteps_stepDocuments
    intro s hs
    exact ih s hs (hformed.inner (b := .parallel) hs)
  case foreign =>
    -- what no interpreter knows is written like an agent, and read as one
    intro call agent hformed
    exact readStep_agent hformed.own agent
  case nil =>
    intro s hs
    exact absurd hs List.not_mem_nil
  case cons =>
    intro s rest hs hrest
    exact List.forall_mem_cons.mpr ⟨hs, hrest⟩

/-! ### Plans -/

/-- The fields of a plan that is written. -/
def Transport.planFields (p : Plan) : Keyed Value :=
  some? "id" (p.id.map .text)
    ++ [("messages", .list (Value.spelledItems false p.messages)), ("continueOnError", .bool p.continueOnError),
        ("hookTimeout", (p.hookTimeout.getD defaultHookTimeout).toValue)]
    ++ some? "workerPoll" (p.workerPoll.map PollPolicy.toDocument)
    ++ some? "workflowPoll" (p.workflowPoll.map PollPolicy.toDocument)
    ++ [("steps", .list (stepDocuments p.steps))] ++ (if p.input.isCallable then [] else [("input", p.input)])

theorem Transport.plan_eq (p : Plan) : p.toDocument = .object (planFields p) := rfl

theorem Transport.get?_planFields_input (p : Plan) :
    Keyed.get? (planFields p) "input" = if p.input.isCallable then none else some p.input := by
  cases hcallable : p.input.isCallable <;> simp [planFields, Keyed.get?, hcallable]

/-- A field of a plan other than its input. -/
theorem Transport.get?_planFields_of_ne {p : Plan} {key : String} (h : key ≠ "input") :
    Keyed.get? (if p.input.isCallable then [] else [("input", p.input)]) key = none := by
  split
  · rfl
  · exact if_neg (Ne.symm h)

theorem Transport.get?_planFields_hookTimeout (p : Plan) :
    Keyed.get? (planFields p) "hookTimeout" = some (p.hookTimeout.getD defaultHookTimeout).toValue := by
  simp [planFields, Keyed.get?]

theorem Transport.get?_planFields_workerPoll (p : Plan) :
    Keyed.get? (planFields p) "workerPoll" = p.workerPoll.map PollPolicy.toDocument := by
  simp [planFields, Keyed.get?, get?_planFields_of_ne]

theorem Transport.get?_planFields_steps (p : Plan) :
    Keyed.get? (planFields p) "steps" = some (.list (stepDocuments p.steps)) := by
  simp [planFields, Keyed.get?]

/-- The input that is written, if any, is read as it arrives. -/
theorem Plan.read_input (p : Plan) :
    Decode.optional (Transport.planFields p) "input" (.object []) Decode.anything = .ok p.arrived.input := by
  have hfield := Transport.get?_planFields_input p
  show _ = Checked.ok (if p.input.isCallable then .object [] else p.input)
  by_cases hcallable : p.input.isCallable = true
  · rw [if_pos hcallable] at hfield ⊢
    exact optional_missing hfield hfield
  · rw [if_neg hcallable] at hfield ⊢
    exact optional_spelled hfield rfl

/-- **A plan is read as it arrives.** -/
theorem Plan.ofValue_toDocument {p : Plan} (h : p.Formed) : Plan.ofValue p.toDocument = .ok p.arrived := by
  have hother {key : String} (hkey : key ≠ "input") := Transport.get?_planFields_of_ne (p := p) hkey
  have hid : Keyed.get? (Transport.planFields p) "id" = p.id.map .text := by
    simp [Transport.planFields, Keyed.get?, hother]
  have hlisted : Keyed.get? (Transport.planFields p) "messages"
      = some (.list (Value.spelledItems false p.messages)) := by
    simp [Transport.planFields, Keyed.get?]
  have hwritten : Keyed.get? (Transport.planFields p) "continueOnError" = some (.bool p.continueOnError) := by
    simp [Transport.planFields, Keyed.get?]
  have hworkflow : Keyed.get? (Transport.planFields p) "workflowPoll"
      = p.workflowPoll.map PollPolicy.toDocument := by
    simp [Transport.planFields, Keyed.get?, hother]
  have hunnamed : Keyed.get? (Transport.planFields p) "worker_poll" = none
      ∧ Keyed.get? (Transport.planFields p) "workflow_poll" = none := by
    simp [Transport.planFields, Keyed.get?, hother]
  have hread : stepList (.list (stepDocuments p.steps)) = .ok (arrivedSteps p.steps) := by
    refine readSteps_stepDocuments ?_ 0
    intro s hs
    exact readStep_toDocument s (h s hs)
  have hduration : (readDuration (p.hookTimeout.getD defaultHookTimeout).toValue).map some
      = .ok (some (p.hookTimeout.getD defaultHookTimeout)) := by
    rw [readDuration_toValue]
    rfl
  have htimeout : Decode.optional (Transport.planFields p) hookTimeoutName none
      (fun v => (readDuration v).map some) = .ok (some (p.hookTimeout.getD defaultHookTimeout)) :=
    optional_spelled (Transport.get?_planFields_hookTimeout p) hduration
  have hcontinue : Decode.optional (Transport.planFields p) continueOnErrorName false Decode.flag
      = .ok p.continueOnError := optional_spelled hwritten rfl
  have hmessages : Decode.optional (Transport.planFields p) "messages" [] Decode.list
      = .ok (Value.spelledItems false p.messages) := optional_spelled hlisted rfl
  -- field by field: what was written is read again, and what was left out has its default
  rw [Transport.plan_eq, Plan.ofValue, Plan.ofFields, option_some? hid (.inl rfl) (fun _ _ => rfl),
    required_spelled (Transport.get?_planFields_steps p) hread, read_input, hmessages, hcontinue, htimeout,
    option_some? (Transport.get?_planFields_workerPoll p) (.inr hunnamed.1) (fun poll _ => poll.nullable_toDocument),
    option_some? hworkflow (.inr hunnamed.2) (fun poll _ => poll.nullable_toDocument)]
  rfl

end

/-! ## A fixed point -/

/-- A join that has arrived is written as before. -/
theorem Transport.join_arrived (d : JoinDescriptor) : join d.arrived = join d := by
  rw [join, join, JoinDescriptor.arrived, extra_extra]

/-- An input that has arrived is written as before, and holds no function any more. -/
theorem Transport.input_arrived (i : StepInput) : input i.arrived = ((input i).1, false) := by
  cases i with
  | absent => rfl
  | given v =>
    rw [StepInput.arrived, input]
    by_cases hcallable : v.isCallable = true
    · rw [if_pos hcallable, hcallable]
      rfl
    · by_cases hnull : v.isNull = true
      · rw [if_neg hcallable, if_pos hnull, hnull, Bool.or_true]
        rfl
      · rw [if_neg (by simp [hcallable, hnull]), input, if_neg hcallable, if_neg hnull]
  | join d =>
    rw [StepInput.arrived]
    by_cases hids : d.fromSteps.isEmpty = true
    · rw [if_pos hids]
      rfl
    · rw [if_neg hids, input, join_arrived]
      rfl

/-- A capability step that has arrived is written as before: the flag stands for the function. -/
theorem Transport.capability_arrived (c : Capability) (kind : String) (rest : Keyed Value) :
    capability c.arrived kind rest = capability c kind rest := by
  rw [capability_eq, capability_eq, capabilityFields, capabilityFields, Capability.arrived, input_arrived,
    Bool.false_or]

theorem Transport.token_arrived (t : Option HookToken) : token (HookToken.arrived? t) = ((token t).1, false) := by
  cases t with
  | none => rfl
  | some t => cases t <;> rfl

theorem Transport.hook_arrived (h : Hook) : hook h.arrived = hook h := by
  rw [hook_eq, hook_eq, hookFields, hookFields, Hook.arrived, token_arrived, Bool.false_or]

theorem Transport.predicate_arrived (p : Predicate) : predicate p.arrived = predicate p := by
  cases p with
  | constant b => rfl
  | other u => rfl
  | stepField c =>
    have hvalue : (c.value.spelledOut true).spelledOut true = c.value.spelledOut true :=
      Value.spelledOut_of_isUnread true (Value.isUnread_spelledOut true c.value)
    rw [Predicate.arrived, predicate, predicate, stepField, stepField, StepFieldCondition.arrived, hvalue]

/-- **A step that has arrived is written as before.** -/
theorem Step.toDocument_arrived (s : Step) : s.arrived.toDocument = s.toDocument := by
  refine Step.treeInduction (P := fun s => s.arrived.toDocument = s.toDocument)
    (Q := fun steps => stepDocuments (arrivedSteps steps) = stepDocuments steps)
    ?leaf ?condition ?parallel ?foreign ?nil ?cons s
  case leaf =>
    intro s hleaf
    cases s with
    | agent call agent => exact Transport.capability_arrived call "agent" _
    | worker call worker poll => exact Transport.capability_arrived call "worker" _
    | workflow call workflow => exact Transport.capability_arrived call "workflow" _
    | hook h => exact Transport.hook_arrived h
    | sleep id d => rfl
    | condition | parallel | foreign => exact absurd hleaf (by simp [Step.isLeaf])
  case condition =>
    intro id predicate whenTrue whenFalse ih
    have htrue : stepDocuments (arrivedSteps whenTrue) = stepDocuments whenTrue := ih true
    rw [Step.arrived_condition, Transport.condition_eq, Transport.condition_eq, Transport.conditionFields,
      Transport.conditionFields, Transport.predicate_arrived, htrue]
    -- a missing list stays missing
    cases whenFalse with
    | none => rfl
    | some steps =>
      have hfalse : stepDocuments (arrivedSteps steps) = stepDocuments steps := ih false
      simp only [Option.map_some, hfalse]
  case parallel =>
    intro id branches ih
    rw [Step.arrived, Step.toDocument, Step.toDocument, ih]
  case foreign =>
    intro call agent
    exact Transport.capability_arrived call "agent" _
  case nil => rfl
  case cons =>
    intro s rest hs hrest
    rw [arrivedSteps, stepDocuments, stepDocuments, hs, hrest]

theorem stepDocuments_arrived (steps : List Step) : stepDocuments (arrivedSteps steps) = stepDocuments steps := by
  induction steps with
  | nil => rfl
  | cons s rest ih => rw [arrivedSteps, stepDocuments, stepDocuments, s.toDocument_arrived, ih]

/-- **A plan that has arrived is written as before**, unless its input was a function. -/
theorem Plan.toDocument_arrived {p : Plan} (h : p.input.isCallable = false) :
    p.arrived.toDocument = p.toDocument := by
  have hinput : p.arrived.input = p.input := if_neg (by simp [h])
  have hmessages : Value.spelledItems false p.arrived.messages = Value.spelledItems false p.messages :=
    Value.spelledItems_of_allUnread false (Value.allUnread_spelledItems false p.messages)
  have hsteps : stepDocuments p.arrived.steps = stepDocuments p.steps := stepDocuments_arrived p.steps
  rw [Transport.plan_eq, Transport.plan_eq, Transport.planFields, Transport.planFields, hinput, hmessages, hsteps]
  rfl

/-- **The transport form is a fixed point** of reading and writing: of every plan whose input is no function, it
    can be read, and what is read of it has the same transport form. -/
theorem transport_form_fixed {v : Value} {p : Plan} (hread : Plan.ofValue v = .ok p)
    (hinput : p.input.isCallable = false) :
    ∃ q, Plan.ofValue p.toDocument = .ok q ∧ q.toDocument = p.toDocument :=
  ⟨p.arrived, Plan.ofValue_toDocument (Plan.formed_of_read hread), Plan.toDocument_arrived hinput⟩

/-- A review whose input is worked out, an approval that is checked against a schema and whose token is worked
    out, and a condition that is. -/
def release : Value :=
  .object [("steps", .list [
    .object [("type", .text "agent"), ("agent", .text "review"), ("input", .function 0)],
    .object [("type", .text "hook"), ("token", .function 1), ("payloadModel", .schema ⟨"Approval", []⟩)],
    .object [("type", .text "condition"), ("if", .function 2),
      ("then", .list [.object [("type", .text "agent"), ("agent", .text "publish"),
        ("input", .object [("fromSteps", .list [.text "step-1"]), ("note", .null)])]])]])]

/-- The same plan, as it is read. -/
def releasePlan : Plan where
  id := none
  steps := [.agent ⟨none, .given (.function 0), none, false⟩ "review",
    .hook ⟨none, some (.computed (.function 1)), none, .schema ⟨"Approval", []⟩, false⟩,
    .condition none (.other (.function 2))
      [.agent ⟨none, .join ⟨["step-1"], none, none, [("note", .null)]⟩, none, false⟩ "publish"] none]
  input := .object []
  messages := []
  continueOnError := false
  hookTimeout := none
  workerPoll := none
  workflowPoll := none

theorem release_form_fixed :
    Plan.ofValue release = .ok releasePlan ∧ releasePlan.input.isCallable = false
      ∧ ∃ q, Plan.ofValue releasePlan.toDocument = .ok q ∧ q.toDocument = releasePlan.toDocument :=
  ⟨rfl, rfl, transport_form_fixed (v := release) rfl rfl⟩

end Runbook
