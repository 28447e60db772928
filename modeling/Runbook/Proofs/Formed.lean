import Runbook.Proofs.DistinctIds
import Runbook.Proofs.Ledger
import Runbook.Proofs.Readings

/-!
# `Proofs.Formed` — the form of what has been read

Not every tree of steps can be read of a value. A mapping that lists ids of steps is read as a join and never
as a literal input; the further fields of a join do not go by the names that joins have anyway; a token that is
no text can be called; and a predicate is a constant or a comparison whenever it could be one. These facts hold
of every step that has been read, wherever it stands and whatever it was read of: a document, objects that were
read before, functions, or a mixture of them.

## Contents
- **Forms.** `StepInput.Formed`, `Step.Formed`, and `Step.All`, of all steps in a step.
- **Parts.** Inputs, joins, tokens and predicates that have been read.
- **Steps.** `allFormed_of_readStep`, by induction on the value.
- **Plans.** `Plan.formed_of_read`.
-/

namespace Runbook

/-! ## Forms -/

/-- The names of the fields that every join has. -/
def JoinDescriptor.names : List String := ["fromSteps", "path", "join"]

/-- **The form of an input**: a value that is read as it stands, or a join with further fields of other names. -/
def StepInput.Formed : StepInput → Prop
  | .absent => True
  | .given v => StepInput.ofValue v = .ok (.given v)
  | .join d => ∀ entry ∈ d.extra, entry.1 ∉ JoinDescriptor.names

/-- **The form of a step**, as far as its own fields go. -/
def Step.Formed : Step → Prop
  | .agent call _ | .worker call _ _ | .workflow call _ | .foreign call _ => call.input.Formed
  | .hook h => ∀ u, h.token = some (.computed u) → u.isCallable = true
  | .condition _ predicate _ _ => ∀ u, predicate = .other u → Predicate.ofValue u = .ok (.other u)
  | .sleep _ _ | .parallel _ _ => True

/-- What holds of a step and of every step inside it. -/
def Step.All (P : Step → Prop) (s : Step) : Prop := ∀ rest s', s.Has rest s' → P s'

section

variable {P : Step → Prop} {s s' : Step}

theorem Step.All.of_lists (h : P s) (hlists : ∀ b, ∀ s' ∈ s.listOf b, s'.All P) : s.All P := by
  intro rest t hhas
  cases hhas with
  | here => exact h
  | @inside _ s₁ _ b i rest hi hinside => exact hlists b s₁ (List.mem_of_getElem? hi) rest t hinside

/-- A step without steps inside has no lists to look into. -/
theorem Step.listOf_eq_nil (hs : s.holdsSteps = false) (b : Branch) : s.listOf b = [] := by
  cases s with
  | condition | parallel => exact absurd hs (by simp [holdsSteps])
  | _ => cases b <;> rfl

theorem Step.All.of_leaf (h : P s) (hs : s.holdsSteps = false) : s.All P :=
  .of_lists h fun b _ hmem => absurd (Step.listOf_eq_nil hs b ▸ hmem) List.not_mem_nil

theorem Step.All.own (h : s.All P) : P s := h [] s .here

/-- What holds of all in a step holds of all in the steps of its lists. -/
theorem Step.All.inner (h : s.All P) {b : Branch} (hs : s' ∈ s.listOf b) : s'.All P := by
  obtain ⟨i, hi⟩ := List.getElem?_of_mem hs
  intro rest t hhas
  exact h _ t (.inside hi hhas)

/-- What holds of all in the steps of a plan holds wherever a step stands in it. -/
theorem Plan.Has.of_all {p : Plan} {q : StepPath} (h : ∀ s ∈ p.steps, s.All P) (hhas : p.Has q s) : P s := by
  cases hhas with
  | root hi hinside => exact h _ (List.mem_of_getElem? hi) _ _ hinside

end

/-! ## Parts -/

/-- No further field of a join has a name that joins know. -/
theorem JoinDescriptor.formed_of_ofFields {fields : Keyed Value} {d : JoinDescriptor}
    (h : JoinDescriptor.ofFields fields = .ok d) : ∀ entry ∈ d.extra, entry.1 ∉ names := by
  simp only [JoinDescriptor.ofFields, Checked.seq_eq_ok, Checked.map_eq_ok] at h
  obtain ⟨_, join, ⟨_, path, ⟨ids, hids, rfl⟩, -, rfl⟩, -, rfl⟩ := h
  intro entry hentry hname
  obtain ⟨hmem, hother⟩ := List.mem_filter.mp hentry
  simp only [names, List.mem_cons, List.not_mem_nil, or_false] at hname
  rcases hname with hname | hname | hname
  · -- the ids are looked for under this name first, so it is not among the others
    have hhas : (Keyed.get? fields "fromSteps").isSome = true := by
      have hkey : "fromSteps" ∈ Keyed.keys fields := hname ▸ List.mem_map_of_mem hmem
      exact (Keyed.mem_keys_iff fields "fromSteps").mp hkey
    obtain ⟨u, hu⟩ := Option.isSome_iff_exists.mp hhas
    have hfound : fromStepsName.find? fields = some ("fromSteps", u) := by
      simp [Decode.FieldName.find?, fromStepsName, hu]
    simp [hfound, hname] at hother
  · simp [hname] at hother
  · simp [hname] at hother

theorem StepInput.formed_of_ofValue {v : Value} {input : StepInput} (h : StepInput.ofValue v = .ok input) :
    input.Formed := by
  have hjoin {fields : Keyed Value} (h : (JoinDescriptor.ofFields fields).map StepInput.join = .ok input) :
      input.Formed := by
    obtain ⟨d, hd, rfl⟩ := Checked.map_eq_ok.mp h
    exact JoinDescriptor.formed_of_ofFields hd
  cases input with
  | absent => trivial
  | given u =>
    obtain rfl := Validation.eq_of_input_given h
    exact h
  | join d =>
    unfold StepInput.ofValue at h
    split at h
    · exact hjoin h
    · split at h
      · exact hjoin h
      · exact absurd (Checked.ok.inj h) (by simp)

/-- A predicate that is neither a constant nor a comparison is read as it stands. -/
theorem Predicate.eq_of_other {v u : Value} (h : Predicate.ofValue v = .ok (.other u)) : v = u := by
  have hcompare {fields : Keyed Value} :
      (StepFieldCondition.ofFields fields).map Predicate.stepField ≠ .ok (.other u) := by
    intro h
    obtain ⟨c, -, hc⟩ := Checked.map_eq_ok.mp h
    exact absurd hc (by simp)
  unfold Predicate.ofValue at h
  split at h
  · exact absurd (Checked.ok.inj h) (by simp)
  · exact absurd h hcompare
  · split at h
    · split at h
      · exact absurd h hcompare
      · exact Predicate.other.inj (Checked.ok.inj h)
    · exact Predicate.other.inj (Checked.ok.inj h)

theorem HookToken.callable_of_read {v u : Value} (h : readToken v = .ok (.computed u)) :
    u.isCallable = true := by
  unfold readToken at h
  split at h
  · exact absurd (Checked.ok.inj h) (by simp)
  · split at h
    · next hcallable =>
      obtain rfl := HookToken.computed.inj (Checked.ok.inj h)
      exact hcallable
    · exact absurd h (by simp)

/-! ## Steps -/

section

variable {fields : Keyed Value}

/-- A default, or something that has been read. -/
theorem Decode.optional_cases {α : Type} {f : FieldName} {default a : α} {read : Value → Checked α}
    (h : Decode.optional fields f default read = .ok a) : a = default ∨ ∃ u, read u = .ok a := by
  unfold Decode.optional at h
  split at h
  · exact .inr ⟨_, Checked.under_eq_ok.mp h⟩
  · exact .inl (Checked.ok.inj h).symm

theorem Capability.formed_of_ofFields {call : Capability} (h : Capability.ofFields fields = .ok call) :
    call.input.Formed := by
  simp only [Capability.ofFields, Checked.seq_eq_ok, Checked.map_eq_ok] at h
  obtain ⟨_, _, ⟨_, _, ⟨_, input, ⟨_, -, rfl⟩, hinput, rfl⟩, -, rfl⟩, -, rfl⟩ := h
  rcases Decode.optional_cases hinput with rfl | ⟨u, hu⟩
  · trivial
  · exact StepInput.formed_of_ofValue hu

theorem Hook.formed_of_ofFields {hook : Hook} (h : Hook.ofFields fields = .ok hook) :
    (Step.hook hook).Formed := by
  simp only [Hook.ofFields, Checked.seq_eq_ok, Checked.map_eq_ok] at h
  obtain ⟨_, _, ⟨_, _, ⟨_, _, ⟨_, token, ⟨_, -, rfl⟩, htoken, rfl⟩, -, rfl⟩, -, rfl⟩, -, rfl⟩ := h
  intro u hu
  obtain rfl : token = some (.computed u) := hu
  rcases Decode.optional_cases htoken with habsent | ⟨v, hv⟩
  · exact absurd habsent (by simp)
  · rcases Validation.nullable_eq_ok hv with ⟨-, habsent⟩ | ⟨t, ht, hsome⟩
    · exact absurd habsent (by simp)
    · obtain rfl := Option.some.inj hsome
      exact HookToken.callable_of_read ht

/-- What is known of the lists of steps under fields: all steps that are read of them are formed. -/
def ListsFormed (fields : Keyed Value) : Prop :=
  ∀ key steps, Keyed.get? (nestedSteps fields) key = some (.ok steps) → ∀ s ∈ steps, s.All Step.Formed

theorem ListsFormed.under (h : ListsFormed fields) {f : Decode.FieldName} {steps : List Step}
    (hsteps : stepsUnder (nestedSteps fields) f [] = .ok steps) : ∀ s ∈ steps, s.All Step.Formed := by
  unfold stepsUnder at hsteps
  split at hsteps
  · next read hread => exact h _ steps (hread.trans (congrArg some (Checked.under_eq_ok.mp hsteps)))
  · split at hsteps
    · next read hread => exact h _ steps (hread.trans (congrArg some (Checked.under_eq_ok.mp hsteps)))
    · obtain rfl := Checked.ok.inj hsteps
      simp

/-- **A step that is read from fields is formed**, if the steps under them are. -/
theorem allFormed_of_stepOfFields (hlists : ListsFormed fields) {shape : Shape} {s : Step}
    (h : stepOfFields shape fields (nestedSteps fields) = .ok s) : s.All Step.Formed := by
  cases shape with
  | agent | foreign | workflow =>
    simp only [stepOfFields, Checked.seq_eq_ok, Checked.map_eq_ok] at h
    obtain ⟨_, _, ⟨call, hcall, rfl⟩, -, rfl⟩ := h
    exact .of_leaf (Capability.formed_of_ofFields hcall) rfl
  | worker =>
    simp only [stepOfFields, Checked.seq_eq_ok, Checked.map_eq_ok] at h
    obtain ⟨_, _, ⟨_, _, ⟨call, hcall, rfl⟩, -, rfl⟩, -, rfl⟩ := h
    exact .of_leaf (Capability.formed_of_ofFields hcall) rfl
  | hook =>
    simp only [stepOfFields, Checked.map_eq_ok] at h
    obtain ⟨hook, hhook, rfl⟩ := h
    exact .of_leaf (Hook.formed_of_ofFields hhook) rfl
  | sleep =>
    simp only [stepOfFields, Checked.seq_eq_ok, Checked.map_eq_ok] at h
    obtain ⟨_, _, ⟨_, -, rfl⟩, -, rfl⟩ := h
    exact .of_leaf trivial rfl
  | condition =>
    simp only [stepOfFields, Checked.seq_eq_ok, Checked.map_eq_ok] at h
    obtain ⟨_, whenFalse, ⟨_, whenTrue, ⟨_, predicate, ⟨_, -, rfl⟩, hpredicate, rfl⟩, hthen, rfl⟩, helse,
      rfl⟩ := h
    refine .of_lists ?_ fun b => ?_
    · -- a predicate of no known kind keeps the value that it was read from
      intro u hu
      obtain rfl : predicate = .other u := hu
      rcases Decode.optional_cases hpredicate with hnull | ⟨v, hv⟩
      · obtain rfl := Predicate.other.inj hnull
        rfl
      · obtain rfl := Predicate.eq_of_other hv
        exact hv
    · cases b with
      | whenTrue => exact hlists.under hthen
      | whenFalse =>
        -- no list, null, or a list that was read
        show ∀ s' ∈ whenFalse.getD [], s'.All Step.Formed
        split at helse
        · obtain rfl := Checked.ok.inj helse
          simp
        · obtain rfl := Checked.ok.inj helse
          simp
        · obtain ⟨steps, hsteps, rfl⟩ := Checked.map_eq_ok.mp helse
          exact hlists.under hsteps
      | parallel => exact fun s' hs' => absurd hs' List.not_mem_nil
  | parallel =>
    simp only [stepOfFields, Checked.seq_eq_ok, Checked.map_eq_ok] at h
    obtain ⟨_, branches, ⟨_, -, rfl⟩, hsteps, rfl⟩ := h
    refine .of_lists trivial fun b => ?_
    cases b with
    | parallel => exact hlists.under hsteps
    | whenTrue | whenFalse => exact fun s' hs' => absurd hs' List.not_mem_nil
  | plan | stepField | pollPolicy | join | payload =>
    exact absurd h (by simp [stepOfFields, Checked.complain])

end

mutual
/-- **Every step that has been read is formed**, and all steps inside it. -/
theorem allFormed_of_readStep : ∀ {v : Value} {s : Step}, readStep v = .ok s → s.All Step.Formed
  | .object fields, s, h => by
    rw [readStep, stepOfDocument] at h
    split at h
    · exact absurd h (by simp [Checked.complain])
    · split at h
      · exact allFormed_of_stepOfFields (listsFormed fields) (Checked.under_eq_ok.mp h)
      · exact absurd h (by simp [Checked.complain])
  | .parsed shape fields, s, h => by
    rw [readStep] at h
    exact allFormed_of_stepOfFields (listsFormed fields) h
  | .null, _, h | .bool _, _, h | .int _, _, h | .real _, _, h | .text _, _, h | .list _, _, h
  | .function _, _, h | .schema _, _, h => by simp [readStep, Checked.complain] at h

/-- The steps that have been read of a list. -/
theorem allFormed_of_readSteps : ∀ {items : List Value} {n : Nat} {steps : List Step},
    readSteps n items = .ok steps → ∀ s ∈ steps, s.All Step.Formed
  | [], n, steps, h => by
    rw [readSteps] at h
    obtain rfl := Checked.ok.inj h
    simp
  | v :: rest, n, steps, h => by
    obtain ⟨s, others, hs, hothers, rfl⟩ := Validation.readSteps_cons_eq_ok.mp h
    exact List.forall_mem_cons.mpr ⟨allFormed_of_readStep hs, allFormed_of_readSteps hothers⟩

/-- The steps that have been read of the lists under fields. -/
theorem listsFormed : ∀ fields : List (String × Value), ListsFormed fields
  | [], key, steps, h => by simp [nestedSteps, Keyed.get?] at h
  | (k, .list items) :: rest, key, steps, h => by
    rw [nestedSteps, Keyed.get?] at h
    split at h
    · exact allFormed_of_readSteps (Option.some.inj h)
    · exact listsFormed rest key steps h
  | (k, .null) :: rest, key, steps, h | (k, .bool _) :: rest, key, steps, h
  | (k, .int _) :: rest, key, steps, h | (k, .real _) :: rest, key, steps, h
  | (k, .text _) :: rest, key, steps, h | (k, .object _) :: rest, key, steps, h
  | (k, .function _) :: rest, key, steps, h | (k, .schema _) :: rest, key, steps, h
  | (k, .parsed _ _) :: rest, key, steps, h => by
    simp only [nestedSteps, Keyed.get?] at h
    split at h
    · exact absurd (Option.some.inj h) (by simp [Checked.complain])
    · exact listsFormed rest key steps h
end

/-! ## Plans -/

/-- **A plan whose steps are formed.** -/
def Plan.Formed (p : Plan) : Prop := ∀ s ∈ p.steps, s.All Step.Formed

theorem Plan.formed_of_ofFields {fields : Keyed Value} {p : Plan} (h : Plan.ofFields fields = .ok p) :
    p.Formed := by
  simp only [Plan.ofFields, Checked.seq_eq_ok, Checked.map_eq_ok] at h
  obtain ⟨_, _, ⟨_, _, ⟨_, _, ⟨_, _, ⟨_, _, ⟨_, _, ⟨_, steps, ⟨_, -, rfl⟩, hsteps, rfl⟩, -, rfl⟩, -, rfl⟩, -,
    rfl⟩, -, rfl⟩, -, rfl⟩, -, rfl⟩ := h
  unfold Decode.required at hsteps
  split at hsteps
  · next key u hfound =>
    have hread := Checked.under_eq_ok.mp hsteps
    cases u with
    | list items => exact allFormed_of_readSteps hread
    | _ => exact absurd hread (by simp [stepList, Checked.complain])
  · exact absurd hsteps (by simp [Checked.complain, Checked.under])

/-- **Whatever a plan was read of**, its steps are formed. -/
theorem Plan.formed_of_read {v : Value} {p : Plan} (h : Plan.ofValue v = .ok p) : p.Formed := by
  unfold Plan.ofValue at h
  split at h
  · exact formed_of_ofFields h
  · exact formed_of_ofFields h
  · exact absurd h (by simp [Checked.complain])

end Runbook
