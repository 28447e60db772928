import Runbook.Plan.View
import Runbook.Proofs.Inspection
import Runbook.Proofs.RunRecords

/-!
# `Proofs.Readings` — what is read of a document

The check of a plan looks at the members of a document, and the reader of a plan at its fields. They go by
the same names, so what has been read can be said in terms of members alone: one lemma for each way in which
a reader asks for a field, and from these, type by type, everything that the check could look at in a step
that has been read.

## Contents
- **Plain documents.** `isPlain_member` and its siblings: no object in them has been read before.
- **Fields.** `member_of_option`, `member_of_optional` and `member_of_required`; lengths of time and predicates.
- **Lists.** `ListRead`, the steps that are read under a field.
- **Steps.** `CallRead`, `HookRead`, `ReadAs` with `readAs_of_readStep`.
- **Plans.** `PlanReadAs` with `readAs_of_planOfValue`.
-/

namespace Runbook

namespace Value

/-! ## Plain documents -/

theorem allPlain_iff {items : List Value} : allPlain items = true ↔ ∀ v ∈ items, v.isPlain = true := by
  induction items with
  | nil => simp [allPlain]
  | cons v rest ih => rw [allPlain, Bool.and_eq_true, ih, List.forall_mem_cons]

theorem allFieldsPlain_iff {fields : Keyed Value} :
    allFieldsPlain fields = true ↔ ∀ entry ∈ fields, entry.2.isPlain = true := by
  induction fields with
  | nil => simp [allFieldsPlain]
  | cons entry rest ih =>
    obtain ⟨k, v⟩ := entry
    rw [allFieldsPlain, Bool.and_eq_true, ih, List.forall_mem_cons]

end Value

namespace Validation

open Decode

/-- The members of a mapping are its fields, under either name. -/
theorem member?_object (fields : Keyed Value) (name : String) :
    member? (.object fields) name
      = (FieldName.find? ⟨name, memberName name⟩ fields).map Prod.snd := by
  cases hget : Keyed.get? fields name <;> simp [member?, fieldOf?, FieldName.find?, hget]

/-- What holds of null and of every field of a mapping holds of its members. -/
theorem member_inherits {P : Value → Prop} {fields : Keyed Value} (hnull : P .null)
    (hfields : ∀ entry ∈ fields, P entry.2) (name : String) : P (member (.object fields) name) := by
  rw [member, member?_object, FieldName.find?]
  dsimp only
  cases hspelled : Keyed.get? fields name with
  | some u => exact hfields _ (Keyed.mem_of_get? hspelled)
  | none =>
    cases hnamed : Keyed.get? fields (memberName name) with
    | some u => exact hfields _ (Keyed.mem_of_get? hnamed)
    | none => exact hnull

theorem isPlain_member {v : Value} (h : v.isPlain = true) (name : String) :
    (member v name).isPlain = true := by
  cases v with
  | object fields =>
    rw [Value.isPlain] at h
    exact member_inherits (P := fun u => u.isPlain = true) rfl (Value.allFieldsPlain_iff.mp h) name
  | parsed shape fields => exact absurd h (by simp [Value.isPlain])
  | _ => rfl

/-- The items of a list in a plain document. -/
theorem isPlain_item {v : Value} (h : v.isPlain = true) {name : String} {items : List Value}
    (hitems : member v name = .list items) : ∀ item ∈ items, item.isPlain = true := by
  have hlist := isPlain_member h name
  rw [hitems, Value.isPlain] at hlist
  exact Value.allPlain_iff.mp hlist

/-! ## Fields -/

section

variable {α : Type} {fields : Keyed Value} (name : String) {read : Value → Checked α}

theorem member_of_required {a : α}
    (h : required fields ⟨name, memberName name⟩ read = .ok a) :
    ∃ u, member? (.object fields) name = some u ∧ read u = .ok a := by
  rw [member?_object]
  unfold required at h
  cases hfound : FieldName.find? ⟨name, memberName name⟩ fields with
  | none => rw [hfound] at h; exact absurd h (by simp [Checked.complain, Checked.under])
  | some entry =>
    rw [hfound] at h
    exact ⟨entry.2, rfl, Checked.under_eq_ok.mp h⟩

theorem member_of_optional {a default : α}
    (h : Decode.optional fields ⟨name, memberName name⟩ default read = .ok a) :
    (member? (.object fields) name = none ∧ a = default)
      ∨ ∃ u, member? (.object fields) name = some u ∧ read u = .ok a := by
  rw [member?_object]
  unfold Decode.optional at h
  cases hfound : FieldName.find? ⟨name, memberName name⟩ fields with
  | none => rw [hfound] at h; exact .inl ⟨rfl, (Checked.ok.inj h).symm⟩
  | some entry =>
    rw [hfound] at h
    exact .inr ⟨entry.2, rfl, Checked.under_eq_ok.mp h⟩

/-- Null and nothing are read alike where nothing is needed. -/
theorem member_of_option {a : Option α}
    (h : option fields ⟨name, memberName name⟩ read = .ok a) :
    nullable read (member (.object fields) name) = .ok a := by
  rw [member]
  rcases member_of_optional name h with ⟨hnone, rfl⟩ | ⟨u, hu, hread⟩
  · rw [hnone]
    rfl
  · rw [hu]
    exact hread

theorem nullable_eq_ok {v : Value} {a : Option α} (h : nullable read v = .ok a) :
    (v = .null ∧ a = none) ∨ ∃ b, read v = .ok b ∧ a = some b := by
  have hmap (h : (read v).map some = .ok a) : ∃ b, read v = .ok b ∧ a = some b := by
    obtain ⟨b, hb, rfl⟩ := Checked.map_eq_ok.mp h
    exact ⟨b, hb, rfl⟩
  cases v with
  | null => exact .inl ⟨rfl, (Checked.ok.inj h).symm⟩
  | _ => exact .inr (hmap h)

theorem eq_text_of_read {v : Value} {s : String} (h : Decode.text v = .ok s) : v = .text s := by
  cases v with
  | text t => exact congrArg Value.text (Checked.ok.inj h)
  | _ => exact absurd h (by simp [Decode.text, Checked.complain])

theorem member_of_id {id : Option String} (h : option fields "id" Decode.text = .ok id) :
    member (.object fields) "id" = .ofText? id := by
  rcases nullable_eq_ok (member_of_option "id" h) with ⟨hnull, rfl⟩ | ⟨s, hs, rfl⟩
  · exact hnull
  · exact eq_text_of_read hs

theorem member_of_text {s : String} (h : required fields ⟨name, memberName name⟩ Decode.text = .ok s) :
    member (.object fields) name = .text s := by
  obtain ⟨u, hu, hread⟩ := member_of_required name h
  rw [member, hu]
  exact eq_text_of_read hread

/-! ### Lengths of time and predicates -/

/-- A duration is read as it stands, except that a boolean becomes a number. -/
theorem readDuration_eq_ok {v : Value} {d : Duration} (h : readDuration v = .ok d) :
    v = d.toValue ∨ ∃ b : Bool, v = .bool b ∧ d = .whole (if b then 1 else 0) := by
  cases v with
  | text s => exact .inl (by rw [← Checked.ok.inj h]; rfl)
  | int n => exact .inl (by rw [← Checked.ok.inj h]; rfl)
  | real x => exact .inl (by rw [← Checked.ok.inj h]; rfl)
  | bool b => exact .inr ⟨b, rfl, (Checked.ok.inj h).symm⟩
  | _ => exact absurd h (by simp [readDuration])

theorem ofValue?_toValue (d : Duration) : Duration.ofValue? d.toValue = some d := by
  cases d <;> rfl

/-- **What counts as a predicate** in a plain document is read as a constant or as a comparison. -/
theorem predicate_of_isPredicate {v : Value} (hplain : v.isPlain = true) {predicate : Predicate}
    (hread : Predicate.ofValue v = .ok predicate) (h : isPredicate v = true) :
    (∃ b, predicate = .constant b) ∨ ∃ c, predicate = .stepField c := by
  cases v with
  | bool b => exact .inl ⟨b, (Checked.ok.inj hread).symm⟩
  | object fields =>
    simp only [isPredicate, Bool.and_eq_true, decide_eq_true_eq] at h
    have hmarked : isStepField (.object fields) = true := decide_eq_true h.1.1
    simp only [Predicate.ofValue, Value.fields?, hmarked, if_true] at hread
    obtain ⟨c, -, rfl⟩ := Checked.map_eq_ok.mp hread
    exact .inr ⟨c, rfl⟩
  | function | schema | parsed => exact absurd hplain (by simp [Value.isPlain])
  | _ => exact absurd h (by simp [isPredicate])

/-! ## Lists -/

/-- **The steps that are read under a field**: those of a list, or none where the field is missing. -/
inductive ListRead (v : Value) (name : String) : List Step → Prop where
  | missing (h : member? v name = none) : ListRead v name []
  | list {items : List Value} {steps : List Step} (h : member v name = .list items)
      (read : readSteps 0 items = .ok steps) : ListRead v name steps

theorem listRead_of_stepList {u : Value} {steps : List Step} (hu : member? (.object fields) name = some u)
    (h : stepList u = .ok steps) : ListRead (.object fields) name steps := by
  cases u with
  | list items => exact .list (by rw [member, hu]; rfl) h
  | _ => exact absurd h (by simp [stepList, Checked.complain])

theorem listRead_of_stepsUnder {steps : List Step}
    (h : stepsUnder (nestedSteps fields) ⟨name, memberName name⟩ [] = .ok steps) :
    ListRead (.object fields) name steps := by
  have hmember := member?_object fields name
  unfold stepsUnder at h
  rw [FieldName.find?] at hmember
  rw [get?_nestedSteps, get?_nestedSteps] at h
  dsimp only at h hmember
  cases hspelled : Keyed.get? fields name with
  | some u =>
    rw [hspelled] at h hmember
    exact listRead_of_stepList name hmember (Checked.under_eq_ok.mp h)
  | none =>
    rw [hspelled] at h hmember
    cases hnamed : Keyed.get? fields (memberName name) with
    | some u =>
      rw [hnamed] at h hmember
      exact listRead_of_stepList name hmember (Checked.under_eq_ok.mp h)
    | none =>
      rw [hnamed] at h hmember
      obtain rfl := Checked.ok.inj h
      exact .missing hmember

end

/-! ## Steps -/

/-- What capability steps share. -/
structure CallRead (v : Value) (call : Capability) : Prop where
  id : member v "id" = .ofText? call.id
  input : ∀ u, call.input = .given u → member v "input" = u
  await : nullable Decode.flag (member v "await") = .ok call.await

/-- A hook. -/
structure HookRead (v : Value) (h : Hook) : Prop where
  id : member v "id" = .ofText? h.id
  token : nullable readToken (member v "token") = .ok h.token
  timeout : nullable readDuration (member v "timeout") = .ok h.timeout
  flag : (member? v "tokenIsFunction" = none ∧ h.tokenIsFunction = false)
    ∨ Decode.flag (member v "tokenIsFunction") = .ok h.tokenIsFunction

/-- **A step that has been read, in terms of members**: whatever the check can look at. -/
inductive ReadAs (v : Value) : Step → Prop where
  | agent {call : Capability} {name : String} (hkind : member v "type" = .text "agent")
      (hcall : CallRead v call) (hname : member v "agent" = .text name) : ReadAs v (.agent call name)
  | worker {call : Capability} {name : String} {poll : Option PollPolicy}
      (hkind : member v "type" = .text "worker") (hcall : CallRead v call)
      (hname : member v "worker" = .text name)
      (hpoll : nullable PollPolicy.ofValue (member v "workerPoll") = .ok poll) :
      ReadAs v (.worker call name poll)
  | workflow {call : Capability} {name : String} (hkind : member v "type" = .text "workflow")
      (hcall : CallRead v call) (hname : member v "workflow" = .text name) : ReadAs v (.workflow call name)
  | hook {h : Hook} (hkind : member v "type" = .text "hook") (hhook : HookRead v h) : ReadAs v (.hook h)
  | sleep {id : Option String} {d : Duration} (hkind : member v "type" = .text "sleep")
      (hid : member v "id" = .ofText? id)
      (hduration : ∃ u, member? v "duration" = some u ∧ readDuration u = .ok d) : ReadAs v (.sleep id d)
  | condition {id : Option String} {predicate : Predicate} {whenTrue : List Step}
      {whenFalse : Option (List Step)} (hkind : member v "type" = .text "condition")
      (hid : member v "id" = .ofText? id) (hpredicate : Predicate.ofValue (member v "if") = .ok predicate)
      (hthen : ListRead v "then" whenTrue)
      (helse : (member v "else" = .null ∧ whenFalse = none)
        ∨ ∃ items steps, member v "else" = .list items ∧ readSteps 0 items = .ok steps
          ∧ whenFalse = some steps) :
      ReadAs v (.condition id predicate whenTrue whenFalse)
  | parallel {id : Option String} {branches : List Step} (hkind : member v "type" = .text "parallel")
      (hid : member v "id" = .ofText? id) (hsteps : ListRead v "steps" branches) :
      ReadAs v (.parallel id branches)

section

variable {fields : Keyed Value}

/-- An input that is no join is read as it stands. -/
theorem eq_of_input_given {v u : Value} (h : StepInput.ofValue v = .ok (.given u)) : v = u := by
  have hjoin {fields : Keyed Value} :
      (JoinDescriptor.ofFields fields).map StepInput.join ≠ .ok (.given u) := by
    intro h
    obtain ⟨d, -, hd⟩ := Checked.map_eq_ok.mp h
    exact absurd hd (by simp)
  unfold StepInput.ofValue at h
  split at h
  · exact absurd h hjoin
  · split at h
    · exact absurd h hjoin
    · exact StepInput.given.inj (Checked.ok.inj h)

theorem callRead_of_ofFields {call : Capability} (h : Capability.ofFields fields = .ok call) :
    CallRead (.object fields) call := by
  simp only [Capability.ofFields, Checked.seq_eq_ok, Checked.map_eq_ok] at h
  obtain ⟨_, _, ⟨_, await, ⟨_, input, ⟨id, hid, rfl⟩, hinput, rfl⟩, hawait, rfl⟩, -, rfl⟩ := h
  refine ⟨member_of_id hid, fun u hgiven => ?_, member_of_option "await" hawait⟩
  obtain rfl : input = .given u := hgiven
  rcases member_of_optional "input" hinput with ⟨-, habsent⟩ | ⟨w, hw, hread⟩
  · exact absurd habsent (by simp)
  · rw [member, hw]
    exact eq_of_input_given hread

theorem hookRead_of_ofFields {hook : Hook} (h : Hook.ofFields fields = .ok hook) :
    HookRead (.object fields) hook := by
  simp only [Hook.ofFields, Checked.seq_eq_ok, Checked.map_eq_ok] at h
  obtain ⟨_, flag, ⟨_, _, ⟨_, timeout, ⟨_, token, ⟨id, hid, rfl⟩, htoken, rfl⟩, htimeout, rfl⟩, -, rfl⟩,
    hflag, rfl⟩ := h
  refine ⟨member_of_id hid, member_of_option "token" htoken,
    member_of_option "timeout" htimeout, ?_⟩
  rcases member_of_optional "tokenIsFunction" hflag with ⟨hnone, rfl⟩ | ⟨u, hu, hread⟩
  · exact .inl ⟨hnone, rfl⟩
  · refine .inr ?_
    rw [member, hu]
    exact hread

theorem predicate_of_optional {predicate : Predicate}
    (h : Decode.optional fields ⟨"if", "if_"⟩ (Predicate.other .null) Predicate.ofValue = .ok predicate) :
    Predicate.ofValue (member (.object fields) "if") = .ok predicate := by
  rw [member]
  rcases member_of_optional "if" h with ⟨hnone, rfl⟩ | ⟨u, hu, hread⟩
  · rw [hnone]
    rfl
  · rw [hu]
    exact hread

theorem elseRead {whenFalse : Option (List Step)}
    (h : (match whenFalseName.find? fields with
      | some (_, .null) | none => Checked.ok none
      | some _ => (stepsUnder (nestedSteps fields) whenFalseName []).map some) = .ok whenFalse) :
    (member (.object fields) "else" = .null ∧ whenFalse = none)
      ∨ ∃ items steps, member (.object fields) "else" = .list items ∧ readSteps 0 items = .ok steps
        ∧ whenFalse = some steps := by
  have hmember : member? (.object fields) "else" = (whenFalseName.find? fields).map Prod.snd :=
    member?_object fields "else"
  split at h
  · next key hnull =>
    rw [hnull] at hmember
    exact .inl ⟨by rw [member, hmember]; rfl, (Checked.ok.inj h).symm⟩
  · next hnone =>
    rw [hnone] at hmember
    exact .inl ⟨by rw [member, hmember]; rfl, (Checked.ok.inj h).symm⟩
  · next entry hnull hfound =>
    obtain ⟨steps, hsteps, rfl⟩ := Checked.map_eq_ok.mp h
    rw [hfound] at hmember
    cases listRead_of_stepsUnder "else" hsteps with
    | missing hnone => exact absurd (hmember.symm.trans hnone) (by simp)
    | list hlist hread => exact .inr ⟨_, steps, hlist, hread, rfl⟩

theorem readAs_of_stepOfFields {kind : String} {shape : Shape} {s : Step}
    (hkind : member (.object fields) "type" = .text kind) (hshape : shapeOfKind? kind = some shape)
    (h : stepOfFields shape fields (nestedSteps fields) = .ok s) : ReadAs (.object fields) s := by
  unfold shapeOfKind? at hshape
  split at hshape <;> cases hshape
  · simp only [stepOfFields, Checked.seq_eq_ok, Checked.map_eq_ok] at h
    obtain ⟨_, name, ⟨call, hcall, rfl⟩, hname, rfl⟩ := h
    exact .agent hkind (callRead_of_ofFields hcall) (member_of_text _ hname)
  · simp only [stepOfFields, Checked.seq_eq_ok, Checked.map_eq_ok] at h
    obtain ⟨_, poll, ⟨_, name, ⟨call, hcall, rfl⟩, hname, rfl⟩, hpoll, rfl⟩ := h
    exact .worker hkind (callRead_of_ofFields hcall) (member_of_text _ hname)
      (member_of_option "workerPoll" hpoll)
  · simp only [stepOfFields, Checked.seq_eq_ok, Checked.map_eq_ok] at h
    obtain ⟨_, name, ⟨call, hcall, rfl⟩, hname, rfl⟩ := h
    exact .workflow hkind (callRead_of_ofFields hcall) (member_of_text _ hname)
  · simp only [stepOfFields, Checked.map_eq_ok] at h
    obtain ⟨hook, hhook, rfl⟩ := h
    exact .hook hkind (hookRead_of_ofFields hhook)
  · simp only [stepOfFields, Checked.seq_eq_ok, Checked.map_eq_ok] at h
    obtain ⟨_, d, ⟨id, hid, rfl⟩, hd, rfl⟩ := h
    exact .sleep hkind (member_of_id hid) (member_of_required "duration" hd)
  · simp only [stepOfFields, Checked.seq_eq_ok, Checked.map_eq_ok] at h
    obtain ⟨_, whenFalse, ⟨_, whenTrue, ⟨_, predicate, ⟨id, hid, rfl⟩, hpredicate, rfl⟩, hthen, rfl⟩, helse,
      rfl⟩ := h
    exact .condition hkind (member_of_id hid) (predicate_of_optional hpredicate)
      (listRead_of_stepsUnder "then" hthen) (elseRead helse)
  · simp only [stepOfFields, Checked.seq_eq_ok, Checked.map_eq_ok] at h
    obtain ⟨_, branches, ⟨id, hid, rfl⟩, hsteps, rfl⟩ := h
    exact .parallel hkind (member_of_id hid) (listRead_of_stepsUnder "steps" hsteps)

end

/-- **Whatever is read of a plain document** is read of its members. -/
theorem readAs_of_readStep {v : Value} {s : Step} (hplain : v.isPlain = true) (h : readStep v = .ok s) :
    ReadAs v s := by
  cases v with
  | object fields =>
    rw [readStep, stepOfDocument] at h
    split at h
    · exact absurd h (by simp [Checked.complain])
    · next tag htag =>
      split at h
      · next shape hshape =>
        obtain ⟨kind, hkind, hshape⟩ := Option.bind_eq_some_iff.mp hshape
        cases tag with
        | text word =>
          obtain rfl := Option.some.inj hkind
          have htype : member (.object fields) "type" = .text word := by
            simp [member, member?, fieldOf?, htag]
          exact readAs_of_stepOfFields htype hshape (Checked.under_eq_ok.mp h)
        | _ => exact absurd hkind (by simp [Value.text?])
      · exact absurd h (by simp [Checked.complain])
  | parsed shape fields => exact absurd hplain (by simp [Value.isPlain])
  | _ => exact absurd h (by simp [readStep, Checked.complain])

theorem readSteps_cons_eq_ok {n : Nat} {v : Value} {rest : List Value} {steps : List Step} :
    readSteps n (v :: rest) = .ok steps ↔
      ∃ s others, readStep v = .ok s ∧ readSteps (n + 1) rest = .ok others ∧ steps = s :: others := by
  rw [readSteps]
  simp only [Checked.seq_eq_ok, Checked.map_eq_ok, Checked.under_eq_ok]
  constructor
  · rintro ⟨_, others, ⟨s, hs, rfl⟩, hothers, rfl⟩
    exact ⟨s, others, hs, hothers, rfl⟩
  · rintro ⟨s, others, hs, hothers, rfl⟩
    exact ⟨_, others, ⟨s, hs, rfl⟩, hothers, rfl⟩

/-! ## Plans -/

/-- **A plan that has been read, in terms of members**: whatever the check can look at. -/
structure PlanReadAs (v : Value) (p : Plan) : Prop where
  steps : ∃ items, member v "steps" = .list items ∧ readSteps 0 items = .ok p.steps
  hookTimeout : (member v "hookTimeout" = .null ∧ p.hookTimeout = none)
    ∨ ∃ d, readDuration (member v "hookTimeout") = .ok d ∧ p.hookTimeout = some d
  workerPoll : nullable PollPolicy.ofValue (member v "workerPoll") = .ok p.workerPoll

theorem readAs_of_planOfValue {v : Value} {p : Plan} (hplain : v.isPlain = true)
    (h : Plan.ofValue v = .ok p) : PlanReadAs v p := by
  cases v with
  | object fields =>
    rw [Plan.ofValue] at h
    simp only [Plan.ofFields, Checked.seq_eq_ok, Checked.map_eq_ok] at h
    obtain ⟨_, _, ⟨_, workerPoll, ⟨_, hookTimeout, ⟨_, _, ⟨_, _, ⟨_, _, ⟨_, steps, ⟨_, -, rfl⟩, hsteps, rfl⟩,
      -, rfl⟩, -, rfl⟩, -, rfl⟩, htimeout, rfl⟩, hpoll, rfl⟩, -, rfl⟩ := h
    refine ⟨?_, ?_, member_of_option "workerPoll" hpoll⟩
    · obtain ⟨u, hu, hread⟩ := member_of_required "steps" hsteps
      cases u with
      | list items => exact ⟨items, by rw [member, hu]; rfl, hread⟩
      | _ => exact absurd hread (by simp [stepList, Checked.complain])
    · rw [member]
      rcases member_of_optional "hookTimeout" htimeout with ⟨hnone, rfl⟩ | ⟨u, hu, hread⟩
      · exact .inl ⟨by rw [hnone]; rfl, rfl⟩
      · obtain ⟨d, hd, rfl⟩ := Checked.map_eq_ok.mp hread
        exact .inr ⟨d, by rw [hu]; exact hd, rfl⟩
  | parsed shape fields => exact absurd hplain (by simp [Value.isPlain])
  | _ => exact absurd h (by simp [Plan.ofValue, Checked.complain])

end Validation

end Runbook
