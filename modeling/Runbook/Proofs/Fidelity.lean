import Runbook.Plan.Resolution
import Runbook.Proofs.Arrivals

/-!
# `Proofs.Fidelity` — plans without functions arrive as they were

A plan without functions can cross a process boundary and does there what it would have done here: every step
stands at its place, with its id, its name and its options, a capability is called with the same input, a hook
waits for the same event for as long, and a condition holds when it held. Two things are lost all the same. The
further fields of a join that are null do not arrive, and a join that lists no steps arrives as a literal. An
object that was read before and stands among messages, in the further fields of a join or in a comparison
arrives as a mapping. `StepInput.Lossless` and `Predicate.Lossless` say where nothing of the kind stands.

## Contents
- **Plans without functions.** `Step.Portable` and `Plan.Portable`.
- **Losses.** `StepInput.Lossless`, `Predicate.Lossless`.
- **What is the same.** `Step.ArrivesAs`, by the kinds of steps, and `Plan.ArrivesAs`.
- **The result.** `transport_form_read_back`.
-/

namespace Runbook

/-! ## Plans without functions -/

/-- A step without functions of its own, whose predicate can cross a process boundary. -/
def Step.Portable : Step → Prop
  | .agent call _ | .worker call _ _ | .workflow call _ | .foreign call _ =>
    ∀ u, call.input = .given u → u.isCallable = false
  | .hook h => (∀ u, h.token ≠ some (.computed u)) ∧ h.payloadModel = .null
  | .condition _ predicate _ _ => ∀ u, predicate ≠ .other u
  | .sleep _ _ | .parallel _ _ => True

/-- **A plan without functions**, payload models and predicates that cannot cross a process boundary. -/
structure Plan.Portable (p : Plan) : Prop where
  input : p.input.isCallable = false
  steps : ∀ q s, p.Has q s → s.Portable

/-! ## Losses -/

/-- Of a join nothing is lost if it lists a step, and its further fields are neither null nor hold objects that
    were read before. -/
def StepInput.Lossless : StepInput → Prop
  | .absent | .given _ => True
  | .join d => d.fromSteps ≠ [] ∧ ∀ entry ∈ d.extra, entry.2.isNull = false ∧ entry.2.isUnread = true

/-- Of a comparison nothing is lost if it is not with an object that was read before. -/
def Predicate.Lossless : Predicate → Prop
  | .stepField c => c.value.isUnread = true
  | .constant _ | .other _ => True

theorem Value.allFieldsUnread_of_forall {fields : Keyed Value} (h : ∀ entry ∈ fields, entry.2.isUnread = true) :
    allFieldsUnread fields = true := by
  induction fields with
  | nil => rfl
  | cons entry rest ih =>
    obtain ⟨k, v⟩ := entry
    rw [allFieldsUnread, h _ List.mem_cons_self, ih fun e he => h e (List.mem_cons_of_mem _ he)]
    rfl

theorem Transport.extra_of_lossless {fields : Keyed Value}
    (h : ∀ entry ∈ fields, entry.2.isNull = false ∧ entry.2.isUnread = true) : extra fields = fields := by
  have hkept : fields.filter (fun entry => !entry.2.isNull) = fields := by
    rw [List.filter_eq_self]
    intro entry hentry
    show (!entry.2.isNull) = true
    rw [(h entry hentry).1]
    rfl
  show Value.spelledFields false (fields.filter fun entry => !entry.2.isNull) = fields
  rw [hkept]
  exact Value.spelledFields_of_allUnread false (Value.allFieldsUnread_of_forall fun entry hentry => (h entry hentry).2)

/-- A join of which nothing is lost arrives as it is. -/
theorem StepInput.arrived_join {d : JoinDescriptor} (h : (StepInput.join d).Lossless) :
    (StepInput.join d).arrived = .join d := by
  obtain ⟨hids, hextra⟩ := h
  have hsame : d.arrived = d := by
    rw [JoinDescriptor.arrived, Transport.extra_of_lossless hextra]
  rw [arrived, if_neg (by simpa using hids), hsame]

/-- A comparison of which nothing is lost arrives as it is. -/
theorem Predicate.arrived_of_lossless {p : Predicate} (h : p.Lossless) (hknown : ∀ u, p ≠ .other u) :
    p.arrived = p := by
  cases p with
  | constant b => rfl
  | stepField c => rw [arrived, StepFieldCondition.arrived, Value.spelledOut_of_isUnread true h]
  | other u => exact absurd rfl (hknown u)

/-! ## What is the same -/

/-- What capability steps share, as another plan has it: it comes to the same input, if nothing of that is
    lost. -/
structure Capability.ArrivesAs (c c' : Capability) : Prop where
  id : c'.id = c.id
  await : c'.await = c.await
  inputIsFunction : c'.inputIsFunction = c.inputIsFunction
  input : c.input.Lossless → ∀ fns ctx, c'.resolveInput fns ctx = c.resolveInput fns ctx

/-- A hook, as another plan has it: it waits for the same event, by the same timeout. -/
structure Hook.ArrivesAs (h h' : Hook) : Prop where
  id : h'.id = h.id
  timeout : h'.timeout = h.timeout
  payloadModel : h'.payloadModel = h.payloadModel
  tokenIsFunction : h'.tokenIsFunction = h.tokenIsFunction
  token : ∀ fns ctx, h'.resolveToken fns ctx = h.resolveToken fns ctx

/-- **A step, as another plan has it.** The lists of steps inside are told apart by their places. -/
inductive Step.ArrivesAs : Step → Step → Prop where
  | agent {call call' : Capability} {agent : String} (h : call.ArrivesAs call') :
      ArrivesAs (.agent call agent) (.agent call' agent)
  /-- What no interpreter knows is an agent after it has been read again. -/
  | foreign {call call' : Capability} {agent : String} (h : call.ArrivesAs call') :
      ArrivesAs (.foreign call agent) (.agent call' agent)
  | worker {call call' : Capability} {worker : String} {poll : Option PollPolicy} (h : call.ArrivesAs call') :
      ArrivesAs (.worker call worker poll) (.worker call' worker poll)
  | workflow {call call' : Capability} {workflow : String} (h : call.ArrivesAs call') :
      ArrivesAs (.workflow call workflow) (.workflow call' workflow)
  | hook {hook hook' : Hook} (h : hook.ArrivesAs hook') : ArrivesAs (.hook hook) (.hook hook')
  | sleep {id : Option String} {d : Duration} : ArrivesAs (.sleep id d) (.sleep id d)
  | condition {id : Option String} {predicate predicate' : Predicate} {whenTrue whenTrue' : List Step}
      {whenFalse whenFalse' : Option (List Step)}
      (holds : predicate.Lossless → ∀ fns ctx, predicate'.holds fns ctx = predicate.holds fns ctx)
      (otherwise : whenFalse'.isSome = whenFalse.isSome) :
      ArrivesAs (.condition id predicate whenTrue whenFalse) (.condition id predicate' whenTrue' whenFalse')
  | parallel {id : Option String} {branches branches' : List Step} :
      ArrivesAs (.parallel id branches) (.parallel id branches')

/-- **A plan, as it is read on the other side**: the same options, and the same steps at the same places. -/
structure Plan.ArrivesAs (p q : Plan) : Prop where
  id : q.id = p.id
  input : q.input = p.input
  messages : Value.allUnread p.messages = true → q.messages = p.messages
  continueOnError : q.continueOnError = p.continueOnError
  hookTimeout : q.hookTimeout.getD defaultHookTimeout = p.hookTimeout.getD defaultHookTimeout
  workerPoll : q.workerPoll = p.workerPoll
  workflowPoll : q.workflowPoll = p.workflowPoll
  step : ∀ path s, p.Has path s → ∃ t, q.Has path t ∧ s.ArrivesAs t
  noOther : ∀ path t, q.Has path t → ∃ s, p.Has path s ∧ s.ArrivesAs t

/-! ## Steps -/

variable {c : Capability}

/-- **The input of a capability** comes to the same, whatever the context. -/
theorem Capability.resolveInput_arrived (hfree : ∀ u, c.input = .given u → u.isCallable = false)
    (hlossless : c.input.Lossless) (fns : Functions) (ctx : Context) :
    c.arrived.resolveInput fns ctx = c.resolveInput fns ctx := by
  obtain ⟨id, input, await, inputIsFunction⟩ := c
  cases input with
  | absent => rfl
  | join d =>
    -- nothing of the join is lost, so it is gathered from the same steps
    have hsame : (StepInput.join d).arrived = .join d := StepInput.arrived_join hlossless
    unfold resolveInput arrived hasInput
    rw [hsame]
  | given u =>
    have hcallable : u.isCallable = false := hfree u rfl
    by_cases hnull : u.isNull = true
    · -- null is left out, and counts as no input on both sides
      have habsent : (StepInput.given u).arrived = .absent := by
        rw [StepInput.arrived, hnull, Bool.or_true]
        rfl
      unfold resolveInput arrived hasInput
      rw [habsent]
      simp only [hnull, Bool.not_true, Bool.not_false, if_true]
    · have hsame : (StepInput.given u).arrived = .given u := by
        rw [StepInput.arrived, if_neg (by simp [hcallable, hnull])]
      unfold resolveInput arrived hasInput
      rw [hsame]

theorem Capability.arrivesAs_arrived (hfree : ∀ u, c.input = .given u → u.isCallable = false) :
    c.ArrivesAs c.arrived := by
  have hkept : (Transport.input c.input).2 = false := by
    cases hinput : c.input with
    | absent => rfl
    | join d => rfl
    | given u =>
      have hcallable : u.isCallable = false := hfree u hinput
      rw [Transport.input, if_neg (by simp [hcallable])]
      split <;> rfl
  refine ⟨rfl, rfl, ?_, resolveInput_arrived hfree⟩
  show ((Transport.input c.input).2 || c.inputIsFunction) = c.inputIsFunction
  rw [hkept, Bool.false_or]

theorem Hook.arrivesAs_arrived {h : Hook} (hfree : ∀ u, h.token ≠ some (.computed u))
    (hmodel : h.payloadModel = .null) : h.ArrivesAs h.arrived := by
  obtain ⟨id, token, timeout, payloadModel, tokenIsFunction⟩ := h
  cases token with
  | none => exact ⟨rfl, rfl, hmodel.symm, rfl, fun _ _ => rfl⟩
  | some written =>
    cases written with
    | text s => exact ⟨rfl, rfl, hmodel.symm, rfl, fun _ _ => rfl⟩
    | computed u => exact absurd rfl (hfree u)

/-- **A step without functions** does on the other side what it would have done here. -/
theorem Step.arrivesAs_arrived {s : Step} (h : s.Portable) : s.ArrivesAs s.arrived := by
  cases s with
  | agent call agent => exact .agent (Capability.arrivesAs_arrived h)
  | foreign call agent => exact .foreign (Capability.arrivesAs_arrived h)
  | worker call worker poll => exact .worker (Capability.arrivesAs_arrived h)
  | workflow call workflow => exact .workflow (Capability.arrivesAs_arrived h)
  | hook hook => exact .hook (Hook.arrivesAs_arrived h.1 h.2)
  | sleep id d => exact .sleep
  | condition id predicate whenTrue whenFalse =>
    rw [arrived_condition]
    refine .condition (fun hlossless fns ctx => ?_) (by cases whenFalse <;> rfl)
    rw [Predicate.arrived_of_lossless hlossless h]
  | parallel id branches => exact .parallel

/-! ## The result -/

/-- **A plan without functions is read back as it was.** Its transport form can be read, and what is read of it has
    the same id, input and options, and the same steps at the same places, and no others. Every capability step
    there comes to the same input in every context, unless something of its join is lost; every hook waits for
    the same event by the same timeout, and every condition holds when it held. -/
theorem transport_form_read_back {v : Value} {p : Plan} (hread : Plan.ofValue v = .ok p) (hportable : p.Portable) :
    ∃ q, Plan.ofValue p.toDocument = .ok q ∧ p.ArrivesAs q := by
  refine ⟨p.arrived, Plan.ofValue_toDocument (Plan.formed_of_read hread), ?_⟩
  refine ⟨rfl, ?_, ?_, rfl, rfl, rfl, rfl, ?_, ?_⟩
  · exact if_neg (by simp [hportable.input])
  · exact fun hunread => Value.spelledItems_of_allUnread false hunread
  · intro path s hhas
    exact ⟨s.arrived, Plan.has_arrived.mpr ⟨s, hhas, rfl⟩, Step.arrivesAs_arrived (hportable.steps path s hhas)⟩
  · intro path t hhas
    obtain ⟨s, hs, rfl⟩ := Plan.has_arrived.mp hhas
    exact ⟨s, hs, Step.arrivesAs_arrived (hportable.steps path s hs)⟩

/-- A draft, a review of it if there is one, and an approval. -/
def draftDocument : Value :=
  .object [("id", .text "publish"), ("steps", .list [
    .object [("type", .text "agent"), ("agent", .text "draft"), ("id", .text "draft"), ("input", .null)],
    .object [("type", .text "condition"),
      ("if", .object [("type", .text "stepField"), ("stepId", .text "draft"), ("op", .text "exists")]),
      ("then", .list [.object [("type", .text "agent"), ("agent", .text "review"),
        ("input", .object [("fromSteps", .list [.text "draft"]), ("tone", .text "kind")])]])],
    .object [("type", .text "hook"), ("token", .text "approval")]])]

/-- The plan that is read of it. -/
def draftPlan : Plan where
  id := some "publish"
  steps := [.agent ⟨some "draft", .given .null, none, false⟩ "draft",
    .condition none (.stepField ⟨"draft", none, .present, .null⟩)
      [.agent ⟨none, .join ⟨["draft"], none, none, [("tone", .text "kind")]⟩, none, false⟩ "review"] none,
    .hook ⟨none, some (.text "approval"), none, .null, false⟩]
  input := .object []
  messages := []
  continueOnError := false
  hookTimeout := none
  workerPoll := none
  workflowPoll := none

theorem draftPlan_portable : draftPlan.Portable := by
  refine ⟨rfl, fun q s hhas => hhas.of_all (P := Step.Portable) ?_⟩
  simp only [draftPlan, List.forall_mem_cons, List.not_mem_nil, false_imp_iff, implies_true, and_true]
  refine ⟨.of_leaf ?_ rfl, .of_lists (fun u hu => absurd hu (by simp)) ?_, .of_leaf ?_ rfl⟩
  · intro u hu
    obtain rfl := StepInput.given.inj hu
    rfl
  · intro b s hs
    cases b with
    | whenTrue =>
      obtain rfl := List.mem_singleton.mp hs
      exact .of_leaf (fun u hu => absurd hu (by simp)) rfl
    | whenFalse | parallel => exact absurd hs List.not_mem_nil
  · exact ⟨fun u hu => absurd hu (by simp), rfl⟩

theorem draft_read_back :
    Plan.ofValue draftDocument = .ok draftPlan ∧ draftPlan.Portable
      ∧ ∃ q, Plan.ofValue draftPlan.toDocument = .ok q ∧ draftPlan.ArrivesAs q :=
  ⟨rfl, draftPlan_portable, transport_form_read_back (v := draftDocument) rfl draftPlan_portable⟩

end Runbook
