import Runbook.Proofs.Inspection
import Runbook.Proofs.RunCourse

/-!
# `Proofs.DistinctIds` — the steps of an accepted plan have different ids

The check of a plan walks through its document, and collects the ids that it meets; an id that it has met
before is a defect. What is carried out afterwards is the plan that was read of the document. So the ids of
its steps are pairwise distinct only if the walk has come to every step that was read. It has: a relation
between a value and the step that it shows holds of whatever is read and of what has been read before, and
what a value shows is what the check meets.

## Contents
- **Ids.** `Step.ids` and `Plan.ids`, all ids in a tree.
- **Objects that have been read.** `Shape.fits`, and `Value.isGenuine`.
- **Values of steps.** `Validation.Shows`, with `step_shows` for a step that was read before and
  `readStep_shows` for one that is read of a genuine value.
- **The check.** `Findings.Takes`, what a check can do with ids, and `checkStep_takes`, by induction on what is
  shown; `Findings.Meets`, what it has met if it has found no error.
- **Plans.** `steps_show_of_accept` and `nodup_ids_of_accept`.
-/

namespace Runbook

/-! ## Ids -/

mutual
/-- The ids in a step: those of the steps inside it, and then its own. -/
def Step.ids : Step → List String
  | .condition id _ whenTrue whenFalse =>
    stepIds whenTrue
      ++ (match whenFalse with
        | some steps => stepIds steps
        | none => [])
      ++ id.toList
  | .parallel id branches => stepIds branches ++ id.toList
  | .agent call _ => call.id.toList
  | .worker call _ _ => call.id.toList
  | .workflow call _ => call.id.toList
  | .hook h => h.id.toList
  | .sleep id _ => id.toList
  | .foreign call _ => call.id.toList

/-- The ids in steps. -/
def stepIds : List Step → List String
  | [] => []
  | s :: rest => s.ids ++ stepIds rest
end

/-- The ids in a plan. -/
def Plan.ids (p : Plan) : List String := stepIds p.steps

@[simp] theorem stepIds_nil : stepIds [] = [] := by rw [stepIds]

@[simp] theorem stepIds_cons (s : Step) (rest : List Step) :
    stepIds (s :: rest) = s.ids ++ stepIds rest := by rw [stepIds]

theorem Step.ids_condition (id : Option String) (predicate : Predicate) (whenTrue : List Step)
    (whenFalse : Option (List Step)) :
    (Step.condition id predicate whenTrue whenFalse).ids
      = stepIds whenTrue ++ stepIds (whenFalse.getD []) ++ id.toList := by
  cases whenFalse <;> simp [Step.ids]

theorem Step.ids_parallel (id : Option String) (branches : List Step) :
    (Step.parallel id branches).ids = stepIds branches ++ id.toList := by rw [Step.ids]

/-- Whether steps can stand inside a step. -/
def Step.holdsSteps : Step → Bool
  | .condition .. | .parallel .. => true
  | _ => false

/-- A step without steps inside has no id but its own. -/
theorem Step.ids_of_not_holdsSteps {s : Step} (h : s.holdsSteps = false) : s.ids = s.id?.toList := by
  cases s with
  | condition => exact absurd h (by simp [holdsSteps])
  | parallel => exact absurd h (by simp [holdsSteps])
  | _ => rw [Step.ids]; rfl

/-- The ids in the list that a condition takes are among its ids. -/
theorem stepIds_takenSteps_sublist (b : Bool) {id : Option String} {predicate : Predicate}
    {whenTrue : List Step} {whenFalse : Option (List Step)} :
    (stepIds (takenSteps b whenTrue whenFalse)).Sublist
      (Step.condition id predicate whenTrue whenFalse).ids := by
  rw [Step.ids_condition]
  refine .trans ?_ (List.sublist_append_left _ _)
  cases b
  · exact List.sublist_append_right _ _
  · exact List.sublist_append_left _ _

/-! ## Objects that have been read -/

/-- The type of the steps of a shape. -/
def Shape.stepKind? : Shape → Option String
  | .agent | .foreign => some "agent"
  | .worker => some "worker"
  | .workflow => some "workflow"
  | .hook => some "hook"
  | .sleep => some "sleep"
  | .condition => some "condition"
  | .parallel => some "parallel"
  | .plan | .stepField | .pollPolicy | .join | .payload _ => none

/-- Whether fields can be those of an object of a shape: the fields of a step are found under their
    attribute names alone, and among them is its type. -/
def Shape.fits (shape : Shape) (fields : Keyed Value) : Bool :=
  match shape.stepKind? with
  | some kind =>
    (Keyed.get? fields "type").bind Value.text? = some kind && !Keyed.has fields "else"
  | none => true

namespace Value

mutual
/-- **A value whose objects are what they seem to be**: every object in it that has already been read has
    fields that fit its shape. There are no others; only the type of values does not say so. -/
def isGenuine : Value → Bool
  | .list items => allGenuine items
  | .object fields => allFieldsGenuine fields
  | .parsed shape fields => shape.fits fields && allFieldsGenuine fields
  | .null | .bool _ | .int _ | .real _ | .text _ | .function _ | .schema _ => true

/-- `isGenuine` of every item. -/
def allGenuine : List Value → Bool
  | [] => true
  | v :: rest => v.isGenuine && allGenuine rest

/-- `isGenuine` of every field. -/
def allFieldsGenuine : List (String × Value) → Bool
  | [] => true
  | (_, v) :: rest => v.isGenuine && allFieldsGenuine rest
end

end Value

/-- A plan that is handed in as a genuine document, or as a plan that has been read. -/
def PlanSource.isGenuine : PlanSource → Bool
  | .document v => v.isGenuine
  | .parsed _ => true

namespace Validation

/-! ## Values of steps -/

mutual
/-- **A value that shows a step**: its members are the id of the step, its type, and values that show the
    steps inside. -/
inductive Shows : Value → Step → Prop where
  | plain {v : Value} {s : Step} (hid : member v "id" = .ofText? s.id?)
      (hkind : member v "type" = .text s.kind) (hs : s.holdsSteps = false) : Shows v s
  | condition {v : Value} {id : Option String} {predicate : Predicate} {whenTrue : List Step}
      {whenFalse : Option (List Step)} (hid : member v "id" = .ofText? id)
      (hkind : member v "type" = .text "condition") (hthen : ShowsUnder (member? v "then") whenTrue)
      (helse : ShowsUnder (member? v "else") (whenFalse.getD [])) :
      Shows v (.condition id predicate whenTrue whenFalse)
  | parallel {v : Value} {id : Option String} {branches : List Step}
      (hid : member v "id" = .ofText? id) (hkind : member v "type" = .text "parallel")
      (hsteps : ShowsUnder (member? v "steps") branches) : Shows v (.parallel id branches)

/-- A member that shows steps; it may be missing where there are none. -/
inductive ShowsUnder : Option Value → List Step → Prop where
  | missing : ShowsUnder none []
  | null : ShowsUnder (some .null) []
  | list {items : List Value} {steps : List Step} (h : ShowsAll items steps) :
      ShowsUnder (some (.list items)) steps

/-- Values that show steps, one by one. -/
inductive ShowsAll : List Value → List Step → Prop where
  | nil : ShowsAll [] []
  | cons {v : Value} {s : Step} {items : List Value} {steps : List Step} (first : Shows v s)
      (rest : ShowsAll items steps) : ShowsAll (v :: items) (s :: steps)
end

theorem member_of_get? {shape : Shape} {fields : Keyed Value} {name : String} {v : Value}
    (h : Keyed.get? fields (memberName name) = some v) : member (.parsed shape fields) name = v := by
  simp [member, member?, fieldOf?, h]

/-- The fields that capability steps share, among others. -/
theorem member_capability (shape : Shape) (call : Capability) (kind : String) (more : Keyed Value) :
    member (.parsed shape (call.toFields kind ++ more)) "id" = .ofText? call.id
      ∧ member (.parsed shape (call.toFields kind ++ more)) "type" = .text kind := by
  refine ⟨member_of_get? rfl, member_of_get? ?_⟩
  obtain ⟨id, input, await, flag⟩ := call
  cases input <;> rfl

/-- **A step seen as a value shows itself.** -/
theorem step_shows (s : Step) : Shows s.toValue s := by
  refine Step.treeInduction (P := fun s => Shows s.toValue s)
    (Q := fun steps => ShowsAll (stepValues steps) steps)
    ?leaf ?condition ?parallel ?foreign ?nil ?cons s
  case leaf =>
    intro s hs
    cases s with
    | agent call agent =>
      obtain ⟨hid, hkind⟩ := member_capability .agent call "agent" [("agent", .text agent)]
      exact .plain hid hkind rfl
    | worker call worker poll =>
      obtain ⟨hid, hkind⟩ := member_capability .worker call "worker"
        [("worker", .text worker), ("worker_poll", PollPolicy.toValue? poll)]
      exact .plain hid hkind rfl
    | workflow call workflow =>
      obtain ⟨hid, hkind⟩ := member_capability .workflow call "workflow" [("workflow", .text workflow)]
      exact .plain hid hkind rfl
    | hook h => exact .plain (member_of_get? rfl) (member_of_get? rfl) rfl
    | sleep id duration => exact .plain (member_of_get? rfl) (member_of_get? rfl) rfl
    | condition => exact absurd hs (by simp [Step.isLeaf])
    | parallel => exact absurd hs (by simp [Step.isLeaf])
    | foreign => exact absurd hs (by simp [Step.isLeaf])
  case condition =>
    intro id predicate whenTrue whenFalse ih
    refine .condition (member_of_get? rfl) (member_of_get? rfl) (.list (ih true)) ?_
    cases whenFalse with
    | none => exact .null
    | some steps => exact .list (ih false)
  case parallel =>
    intro id branches ih
    exact .parallel (member_of_get? rfl) (member_of_get? rfl) (.list ih)
  case foreign =>
    intro call agent
    obtain ⟨hid, hkind⟩ := member_capability .foreign call "agent" [("agent", .text agent)]
    exact .plain hid hkind rfl
  case nil => exact .nil
  case cons =>
    intro s rest hs hrest
    exact .cons hs hrest

theorem steps_show : ∀ steps : List Step, ShowsAll (stepValues steps) steps
  | [] => .nil
  | s :: rest => .cons (step_shows s) (steps_show rest)

/-! ### Reading -/

/-- **The fields of a value**, under the names that readers and checks look for. -/
inductive FieldsOf : Value → Keyed Value → Prop where
  | object (fields : Keyed Value) : FieldsOf (.object fields) fields
  | parsed (shape : Shape) {fields : Keyed Value} (h : Keyed.get? fields "else" = none) :
      FieldsOf (.parsed shape fields) fields

section

variable {v : Value} {fields : Keyed Value} {name : String} {steps : List Step}

/-- Checks find what readers find. -/
theorem FieldsOf.member?_eq (h : FieldsOf v fields) (hname : memberName name = name ∨ name = "else") :
    member? v name = (Decode.FieldName.find? ⟨name, memberName name⟩ fields).map Prod.snd := by
  cases h with
  | object =>
    cases hget : Keyed.get? fields name <;> simp [member?, fieldOf?, Decode.FieldName.find?, hget]
  | parsed shape helse =>
    simp only [member?, fieldOf?, Decode.FieldName.find?]
    rcases hname with hname | rfl
    · rw [hname]
      cases Keyed.get? fields name <;> rfl
    · rw [helse]

/-- An id that is read is the member that is checked. -/
theorem FieldsOf.member_id (h : FieldsOf v fields) {id : Option String}
    (hid : Decode.option fields "id" Decode.text = .ok id) : member v "id" = .ofText? id := by
  have hfind : member? v "id" = ((Decode.FieldName.plain "id").find? fields).map Prod.snd :=
    h.member?_eq (.inl rfl)
  rw [member, hfind]
  unfold Decode.option Decode.optional at hid
  cases hfound : (Decode.FieldName.plain "id").find? fields with
  | none =>
    rw [hfound] at hid
    rw [← Checked.ok.inj hid]
    rfl
  | some entry =>
    obtain ⟨key, u⟩ := entry
    rw [hfound] at hid
    have hread := Checked.under_eq_ok.mp hid
    cases u with
    | null => rw [← Checked.ok.inj hread]; rfl
    | text s => rw [← Checked.ok.inj hread]; rfl
    | _ => exact absurd hread (by simp [Decode.nullable, Decode.text, Checked.complain, Checked.map])

/-- What is known of the lists under the fields of a node: those that are read show what is read of
    them. -/
def ListsShow (fields : Keyed Value) : Prop :=
  ∀ key items, Keyed.get? fields key = some (.list items) →
    ∀ steps, readSteps 0 items = .ok steps → ShowsAll items steps

/-- Steps that are read under a field are shown by the member that is checked. -/
theorem FieldsOf.showsUnder (h : FieldsOf v fields) (hlists : ListsShow fields)
    (hname : memberName name = name ∨ name = "else")
    (hsteps : stepsUnder (nestedSteps fields) ⟨name, memberName name⟩ [] = .ok steps) :
    ShowsUnder (member? v name) steps := by
  have hlist {key : String} {u : Value} (hu : Keyed.get? fields key = some u)
      (hread : stepList u = .ok steps) : ShowsUnder (some u) steps := by
    cases u with
    | list items => exact .list (hlists key items hu steps hread)
    | _ => exact absurd hread (by simp [stepList, Checked.complain])
  rw [h.member?_eq hname, Decode.FieldName.find?]
  unfold stepsUnder at hsteps
  rw [get?_nestedSteps, get?_nestedSteps] at hsteps
  dsimp only at hsteps ⊢
  cases hspelled : Keyed.get? fields name with
  | some u =>
    rw [hspelled] at hsteps
    exact hlist hspelled (Checked.under_eq_ok.mp hsteps)
  | none =>
    rw [hspelled] at hsteps
    cases hmember : Keyed.get? fields (memberName name) with
    | some u =>
      rw [hmember] at hsteps
      exact hlist hmember (Checked.under_eq_ok.mp hsteps)
    | none =>
      rw [hmember] at hsteps
      obtain rfl := Checked.ok.inj hsteps
      exact .missing

/-- The steps that are taken when a condition does not hold, as they are read. -/
theorem FieldsOf.showsElse (h : FieldsOf v fields) (hlists : ListsShow fields)
    {whenFalse : Option (List Step)}
    (hread : (match whenFalseName.find? fields with
      | some (_, .null) | none => Checked.ok none
      | some _ => (stepsUnder (nestedSteps fields) whenFalseName []).map some) = .ok whenFalse) :
    ShowsUnder (member? v "else") (whenFalse.getD []) := by
  have hfind : member? v "else" = (whenFalseName.find? fields).map Prod.snd :=
    h.member?_eq (.inr rfl)
  split at hread
  · next key hnull =>
    obtain rfl := Checked.ok.inj hread
    rw [hfind, hnull]
    exact .null
  · next hnone =>
    obtain rfl := Checked.ok.inj hread
    rw [hfind, hnone]
    exact .missing
  · obtain ⟨steps, hsteps, rfl⟩ := Checked.map_eq_ok.mp hread
    exact h.showsUnder hlists (.inr rfl) hsteps

/-- **A step that is read from fields** is shown by the value that has them. -/
theorem stepOfFields_shows (h : FieldsOf v fields) (hlists : ListsShow fields) {shape : Shape}
    {kind : String} {s : Step} (hshape : shape.stepKind? = some kind) (hkind : member v "type" = .text kind)
    (hread : stepOfFields shape fields (nestedSteps fields) = .ok s) : Shows v s := by
  have hcapability {call : Capability} (hcall : Capability.ofFields fields = .ok call) :
      member v "id" = .ofText? call.id := by
    simp only [Capability.ofFields, Checked.seq_eq_ok, Checked.map_eq_ok] at hcall
    obtain ⟨_, _, ⟨_, _, ⟨_, _, ⟨id, hid, rfl⟩, -, rfl⟩, -, rfl⟩, -, rfl⟩ := hcall
    exact h.member_id hid
  cases shape with
  | agent | foreign | workflow =>
    simp only [stepOfFields, Checked.seq_eq_ok, Checked.map_eq_ok] at hread
    obtain ⟨_, _, ⟨call, hcall, rfl⟩, -, rfl⟩ := hread
    obtain rfl := Option.some.inj hshape
    exact .plain (hcapability hcall) hkind rfl
  | worker =>
    simp only [stepOfFields, Checked.seq_eq_ok, Checked.map_eq_ok] at hread
    obtain ⟨_, _, ⟨_, _, ⟨call, hcall, rfl⟩, -, rfl⟩, -, rfl⟩ := hread
    obtain rfl := Option.some.inj hshape
    exact .plain (hcapability hcall) hkind rfl
  | hook =>
    simp only [stepOfFields, Checked.map_eq_ok] at hread
    obtain ⟨hook, hhook, rfl⟩ := hread
    simp only [Hook.ofFields, Checked.seq_eq_ok, Checked.map_eq_ok] at hhook
    obtain ⟨_, _, ⟨_, _, ⟨_, _, ⟨_, _, ⟨id, hid, rfl⟩, -, rfl⟩, -, rfl⟩, -, rfl⟩, -, rfl⟩ := hhook
    obtain rfl := Option.some.inj hshape
    exact .plain (h.member_id hid) hkind rfl
  | sleep =>
    simp only [stepOfFields, Checked.seq_eq_ok, Checked.map_eq_ok] at hread
    obtain ⟨_, _, ⟨id, hid, rfl⟩, -, rfl⟩ := hread
    obtain rfl := Option.some.inj hshape
    exact .plain (h.member_id hid) hkind rfl
  -- only conditions and parallel steps hold lists, which have been shown already
  | condition =>
    simp only [stepOfFields, Checked.seq_eq_ok, Checked.map_eq_ok] at hread
    obtain ⟨_, whenFalse, ⟨_, whenTrue, ⟨_, _, ⟨id, hid, rfl⟩, -, rfl⟩, hthen, rfl⟩, helse, rfl⟩ := hread
    obtain rfl := Option.some.inj hshape
    exact .condition (h.member_id hid) hkind (h.showsUnder hlists (.inl rfl) hthen)
      (h.showsElse hlists helse)
  | parallel =>
    simp only [stepOfFields, Checked.seq_eq_ok, Checked.map_eq_ok] at hread
    obtain ⟨_, branches, ⟨id, hid, rfl⟩, hsteps, rfl⟩ := hread
    obtain rfl := Option.some.inj hshape
    exact .parallel (h.member_id hid) hkind (h.showsUnder hlists (.inl rfl) hsteps)
  | plan | stepField | pollPolicy | join | payload => exact absurd hshape (by simp [Shape.stepKind?])

/-- Whatever names a type names the shape that it stands for. -/
theorem stepKind?_of_shapeOfKind? {kind : String} {shape : Shape}
    (h : shapeOfKind? kind = some shape) : shape.stepKind? = some kind := by
  unfold shapeOfKind? at h
  split at h <;> cases h
  all_goals rfl

/-- A step that is read from a mapping. -/
theorem stepOfDocument_shows (hlists : ListsShow fields) {s : Step}
    (hread : stepOfDocument fields (nestedSteps fields) = .ok s) : Shows (.object fields) s := by
  unfold stepOfDocument at hread
  split at hread
  · exact absurd hread (by simp [Checked.complain])
  · next tag htag =>
    split at hread
    · next shape hshape =>
      obtain ⟨kind, hkind, hshape⟩ := Option.bind_eq_some_iff.mp hshape
      have htype : member (.object fields) "type" = .text kind := by
        cases tag with
        | text word =>
          obtain rfl := Option.some.inj hkind
          simp [member, member?, fieldOf?, htag]
        | _ => exact absurd hkind (by simp [Value.text?])
      exact stepOfFields_shows (.object fields) hlists (stepKind?_of_shapeOfKind? hshape) htype
        (Checked.under_eq_ok.mp hread)
    · exact absurd hread (by simp [Checked.complain])

/-- A step that is read from an object that has been read before. -/
theorem stepOfFields_shows_parsed (hlists : ListsShow fields) {shape : Shape} {s : Step}
    (hfits : shape.fits fields = true)
    (hread : stepOfFields shape fields (nestedSteps fields) = .ok s) :
    Shows (.parsed shape fields) s := by
  cases hshape : shape.stepKind? with
  | none =>
    cases shape with
    | plan | stepField | pollPolicy | join | payload =>
      exact absurd hread (by simp [stepOfFields, Checked.complain])
    | _ => exact absurd hshape (by simp [Shape.stepKind?])
  | some kind =>
    rw [Shape.fits, hshape] at hfits
    simp only [Bool.and_eq_true, decide_eq_true_eq, Bool.not_eq_true'] at hfits
    obtain ⟨htype, helse⟩ := hfits
    obtain ⟨u, hu, hkind⟩ := Option.bind_eq_some_iff.mp htype
    have hmember : member (.parsed shape fields) "type" = .text kind := by
      cases u with
      | text word =>
        obtain rfl := Option.some.inj hkind
        exact member_of_get? hu
      | _ => exact absurd hkind (by simp [Value.text?])
    have helse : Keyed.get? fields "else" = none := by simpa [Keyed.has] using helse
    exact stepOfFields_shows (.parsed shape helse) hlists hshape hmember hread

end

mutual
/-- **What is read of a genuine value is what the value shows.** -/
theorem readStep_shows : ∀ {v : Value} {s : Step}, v.isGenuine = true → readStep v = .ok s → Shows v s
  | .object fields, s, hgenuine, hread => by
    rw [Value.isGenuine] at hgenuine
    rw [readStep] at hread
    exact stepOfDocument_shows (listsShow hgenuine) hread
  | .parsed shape fields, s, hgenuine, hread => by
    rw [Value.isGenuine, Bool.and_eq_true] at hgenuine
    rw [readStep] at hread
    exact stepOfFields_shows_parsed (listsShow hgenuine.2) hgenuine.1 hread
  | .null, _, _, hread | .bool _, _, _, hread | .int _, _, _, hread | .real _, _, _, hread
  | .text _, _, _, hread | .list _, _, _, hread | .function _, _, _, hread
  | .schema _, _, _, hread => by simp [readStep, Checked.complain] at hread

/-- What is read of genuine values. -/
theorem readSteps_shows : ∀ {items : List Value} {n : Nat} {steps : List Step},
    Value.allGenuine items = true → readSteps n items = .ok steps → ShowsAll items steps
  | [], n, steps, _, hread => by
    rw [readSteps] at hread
    obtain rfl := Checked.ok.inj hread
    exact .nil
  | v :: rest, n, steps, hgenuine, hread => by
    rw [Value.allGenuine, Bool.and_eq_true] at hgenuine
    simp only [readSteps, Checked.seq_eq_ok, Checked.map_eq_ok, Checked.under_eq_ok] at hread
    obtain ⟨_, others, ⟨s, hs, rfl⟩, hothers, rfl⟩ := hread
    exact .cons (readStep_shows hgenuine.1 hs) (readSteps_shows hgenuine.2 hothers)

/-- What is read of the lists under genuine fields. -/
theorem listsShow : ∀ {fields : List (String × Value)}, Value.allFieldsGenuine fields = true →
    ListsShow fields
  | [], _, key, items, h, _, _ => by simp [Keyed.get?] at h
  | (k, v) :: rest, hgenuine, key, items, h, steps, hread => by
    rw [Value.allFieldsGenuine, Bool.and_eq_true] at hgenuine
    rw [Keyed.get?] at h
    split at h
    · cases v with
      | list own =>
        obtain rfl := Value.list.inj (Option.some.inj h)
        rw [Value.isGenuine] at hgenuine
        exact readSteps_shows hgenuine.1 hread
      | _ => exact absurd (Option.some.inj h) (by simp)
    · exact listsShow hgenuine.2 key items h steps hread
end

/-! ## The check -/

/-- Findings without an error. -/
def Findings.Clean (f : Findings) : Prop := ∀ i ∈ f.issues, i.isError = false

/-- **What a check has met**, if it has found no error: some ids, none of which had been met before. -/
structure Findings.Meets (ids : List String) (f f' : Findings) : Prop where
  of_clean : f'.Clean → f.Clean ∧ f'.seen.Perm (f.seen ++ ids) ∧ (f.seen.Nodup → f'.seen.Nodup)

namespace Findings.Meets

variable {f f₁ f' : Findings} {ids ids' : List String}

theorem refl (f : Findings) : Meets [] f f :=
  ⟨fun h => ⟨h, by rw [List.append_nil], fun hnodup => hnodup⟩⟩

theorem trans (h₁ : Meets ids f f₁) (h₂ : Meets ids' f₁ f') : Meets (ids ++ ids') f f' := by
  refine ⟨fun hclean => ?_⟩
  obtain ⟨hclean₁, hseen₁, hnodup₁⟩ := h₂.of_clean hclean
  obtain ⟨hclean₀, hseen₀, hnodup₀⟩ := h₁.of_clean hclean₁
  refine ⟨hclean₀, hseen₁.trans ?_, fun h => hnodup₁ (hnodup₀ h)⟩
  rw [← List.append_assoc]
  exact hseen₀.append_right ids'

theorem perm (h : Meets ids f f') (hids : ids.Perm ids') : Meets ids' f f' := by
  refine ⟨fun hclean => ?_⟩
  obtain ⟨hclean₀, hseen, hnodup⟩ := h.of_clean hclean
  exact ⟨hclean₀, hseen.trans (hids.append_left f.seen), hnodup⟩

/-- A further issue. -/
theorem add (f : Findings) (defect : Defect) (step : Option String) : Meets [] f (f.add defect step) := by
  refine ⟨fun hclean => ?_⟩
  refine ⟨fun i hi => hclean i (List.mem_append_left _ hi), ?_, fun h => h⟩
  rw [List.append_nil]
  exact .refl _

/-- Where an error was found. -/
theorem of_error {defect : Defect} {step : Option String} (h : defect.severity = .error) :
    Meets ids f (f.add defect step) := by
  refine ⟨fun hclean => ?_⟩
  have hissue := hclean ⟨defect, step⟩ (List.mem_append_right _ (List.mem_singleton_self _))
  exact absurd hissue (by simp [Issue.isError, h])

end Findings.Meets

/-- **What a check does with the ids that it comes to**: a new one is noted, one that has been met before or that is
    empty gives an issue, and whatever else is found has nothing to do with ids. -/
inductive Findings.Takes : List String → Findings → Findings → Prop where
  | nothing (f : Findings) : Takes [] f f
  | issue (f : Findings) {defect : Defect} (step : Option String) (h : ∀ id, defect ≠ .duplicateId id) :
      Takes [] f (f.add defect step)
  | blank (f : Findings) (step : Option String) : Takes [""] f (f.add .badId step)
  | repeated (f : Findings) {id : String} (hid : id ≠ "") (h : id ∈ f.seen) :
      Takes [id] f (f.add (.duplicateId id) (some id))
  | fresh (f : Findings) {id : String} (hid : id ≠ "") (h : id ∉ f.seen) :
      Takes [id] f { f with seen := f.seen ++ [id] }
  | trans {f f₁ f' : Findings} {ids ids' : List String} :
      Takes ids f f₁ → Takes ids' f₁ f' → Takes (ids ++ ids') f f'
  | perm {f f' : Findings} {ids ids' : List String} : Takes ids f f' → ids.Perm ids' → Takes ids' f f'

theorem nodup_append_new {seen : List String} {id : String} (hnew : id ∉ seen) (h : seen.Nodup) :
    (seen ++ [id]).Nodup := by
  refine List.nodup_append.mpr ⟨h, by simp, ?_⟩
  intro a ha b hb
  rw [List.mem_singleton.mp hb]
  rintro rfl
  exact hnew ha

/-- Without an error, every id that was come to was new. -/
theorem Findings.Takes.meets {ids : List String} {f f' : Findings} (h : Takes ids f f') : Meets ids f f' := by
  induction h with
  | nothing f => exact .refl f
  | issue f step h => exact .add ..
  | blank f step => exact .of_error rfl
  | repeated f hid h => exact .of_error rfl
  | fresh f hid h => exact ⟨fun hclean => ⟨hclean, .refl _, nodup_append_new h⟩⟩
  | trans _ _ ih₁ ih₂ => exact ih₁.trans ih₂
  | perm _ hids ih => exact ih.perm hids

section

open Findings

variable {plan step : Value} {path : StepPath} {f f' : Findings}

/-- The check of an id takes it, and nothing else. -/
theorem checkId_takes {id : Option String} (hid : member step "id" = .ofText? id) :
    Takes id.toList f (checkId step path f) := by
  unfold checkId
  rw [hid]
  cases id with
  | none => exact .nothing f
  | some id =>
    dsimp only [Value.ofText?, Option.toList_some]
    split
    · next hempty =>
      subst hempty
      exact .blank ..
    · next hid =>
      split
      · next hseen => exact .repeated f hid (List.contains_iff_mem.mp hseen)
      · next hnew => exact .fresh f hid fun hmem => hnew (List.contains_iff_mem.mpr hmem)

theorem checkName_takes (kind : CapabilityKind) : Takes [] f (checkName kind step path f) := by
  unfold checkName
  split
  · split
    · exact .issue f _ (by simp)
    · exact .nothing f
  · exact .issue f _ (by simp)

theorem checkAwait_takes : Takes [] f (checkAwait plan step path f) := by
  unfold checkAwait
  split
  · split
    · exact .nothing f
    · exact .issue f _ (by simp)
  · exact .nothing f

theorem checkTimeout_takes {timeout : Value} {defect : TimeoutProblem → Defect} {at? : Option String}
    (hdefect : ∀ p id, defect p ≠ .duplicateId id) (h : checkTimeout timeout defect at? f = .ok f') :
    Takes [] f f' := by
  unfold checkTimeout at h
  split at h
  · obtain rfl := Except.ok.inj h
    exact .nothing f
  · obtain ⟨problem, -, h⟩ := Fault.bind_eq_ok.mp h
    cases problem with
    | none =>
      obtain rfl := Except.ok.inj h
      exact .nothing f
    | some p =>
      obtain rfl := Except.ok.inj h
      exact .issue f at? (hdefect p)

theorem checkHook_takes (h : checkHook step path f = .ok f') : Takes [] f f' := by
  rw [checkHook_eq] at h
  have htoken : Takes [] f (checkToken step path f) := by
    unfold checkToken
    split
    · exact .nothing f
    · exact .issue f _ (by simp)
  exact htoken.trans (checkTimeout_takes (by simp) h)

theorem checkSleep_takes (h : checkSleep step path f = .ok f') : Takes [] f f' := by
  unfold checkSleep at h
  split at h
  · obtain rfl := Except.ok.inj h
    exact .issue f _ (by simp)
  · split at h
    · obtain rfl := Except.ok.inj h
      exact .nothing f
    · exact absurd h (by simp)
    · obtain rfl := Except.ok.inj h
      exact .issue f _ (by simp)

/-- **The check of a member that shows steps** takes their ids, if there is one. -/
def TakesUnder (plan : Value) (m : Option Value) (steps : List Step) : Prop :=
  (m.bind (listCheck? plan) = none ∧ steps = [])
    ∨ ∃ check, m.bind (listCheck? plan) = some check
      ∧ ∀ {parent f f'}, check parent f = .ok f' → Takes (stepIds steps) f f'

variable {nested : Keyed (Option ListCheck)}

/-- The part of the check of a condition that concerns its second list. -/
theorem checkElse_takes {whenFalse : List Step}
    (hlists : ∀ name, listUnder? nested step name = (member? step name).bind (listCheck? plan))
    (helse : TakesUnder plan (member? step "else") whenFalse)
    (h : (match member step "else" with
      | .null => pure f
      | _ =>
        match listUnder? nested step "else" with
        | some check => check (some (path, .whenFalse)) f
        | none => pure (f.addAt .badElse path)) = Except.ok f') :
    Takes (stepIds whenFalse) f f' := by
  rw [hlists] at h
  rcases helse with ⟨hnone, rfl⟩ | ⟨check, hcheck, htakes⟩
  · rw [hnone] at h
    split at h
    · obtain rfl := Except.ok.inj h
      exact .nothing f
    · obtain rfl := Except.ok.inj h
      exact .issue f _ (by simp)
  · rw [hcheck] at h
    split at h
    · next hnull =>
      -- null is no list
      cases hmember : member? step "else" with
      | none => exact absurd hcheck (by simp [hmember])
      | some v =>
        rw [member, hmember] at hnull
        obtain rfl : v = .null := hnull
        exact absurd hcheck (by simp [hmember, listCheck?])
    · exact htakes h

theorem checkCondition_takes {whenTrue whenFalse : List Step}
    (hlists : ∀ name, listUnder? nested step name = (member? step name).bind (listCheck? plan))
    (hthen : TakesUnder plan (member? step "then") whenTrue)
    (helse : TakesUnder plan (member? step "else") whenFalse)
    (h : checkCondition step nested path f = .ok f') :
    Takes (stepIds whenTrue ++ stepIds whenFalse) f f' := by
  unfold checkCondition at h
  have hpredicate : Takes [] f
      (if isPredicate (member step "if") then f else f.addAt .badPredicate path) := by
    split
    · exact .nothing f
    · exact .issue f _ (by simp)
  generalize (if isPredicate (member step "if") then f else f.addAt .badPredicate path) = f₁
    at h hpredicate
  dsimp only at h
  rw [hlists "then"] at h
  refine hpredicate.trans ?_
  rcases hthen with ⟨hnone, rfl⟩ | ⟨check, hcheck, htakes⟩
  · rw [hnone] at h
    exact (Takes.issue f₁ _ (by simp)).trans (checkElse_takes hlists helse h)
  · rw [hcheck] at h
    obtain ⟨f₂, hfirst, h⟩ := Fault.bind_eq_ok.mp h
    exact (htakes hfirst).trans (checkElse_takes hlists helse h)

theorem checkParallel_takes {branches : List Step}
    (hlists : ∀ name, listUnder? nested step name = (member? step name).bind (listCheck? plan))
    (hsteps : TakesUnder plan (member? step "steps") branches)
    (h : checkParallel step nested path f = .ok f') : Takes (stepIds branches) f f' := by
  unfold checkParallel at h
  dsimp only at h
  have hfirst (empty : Bool) :
      Takes [] f (if empty then f.addAt .parallelWithoutSteps path else f) := by
    cases empty
    · exact .nothing f
    · exact .issue f _ (by simp)
  rw [hlists] at h
  rcases hsteps with ⟨hnone, rfl⟩ | ⟨check, hcheck, htakes⟩
  · rw [hnone] at h
    obtain rfl := Except.ok.inj h
    exact hfirst _
  · rw [hcheck] at h
    exact (hfirst _).trans (htakes h)

/-- The check of a step without steps inside. -/
theorem checkNode_takes_plain {s : Step} (hid : member step "id" = .ofText? s.id?)
    (hkind : member step "type" = .text s.kind) (hs : s.holdsSteps = false)
    (h : checkNode plan step nested path f = .ok f') : Takes s.ids f f' := by
  have hown : Takes s.id?.toList f (checkId step path f) := checkId_takes hid
  rw [Step.ids_of_not_holdsSteps hs, ← List.append_nil s.id?.toList]
  refine hown.trans ?_
  unfold checkNode at h
  rw [hkind] at h
  cases s with
  | condition | parallel => exact absurd hs (by simp [Step.holdsSteps])
  | agent | workflow | foreign =>
    obtain rfl := Except.ok.inj h
    exact checkName_takes _
  | worker =>
    obtain rfl := Except.ok.inj h
    exact (checkName_takes _).trans checkAwait_takes
  | hook => exact checkHook_takes h
  | sleep => exact checkSleep_takes h

/-- A value with a type is checked as a node, with the lists that are its members. -/
theorem checkStep_eq (plan : Value) {v : Value} {kind : String} (hkind : member v "type" = .text kind) :
    ∃ nested, (∀ name, listUnder? nested v name = (member? v name).bind (listCheck? plan))
      ∧ ∀ parent i f, checkStep plan v parent i f = checkNode plan v nested (pathOf parent i v) f :=
  checkStep_node plan (isNode_of_member hkind (by simp))

mutual
/-- **What the check of a step takes**: the ids of the step that its value shows. -/
theorem checkStep_takes : ∀ {v : Value} {s : Step}, Shows v s →
    ∀ {parent : Option (StepPath × Branch)} {i : Nat} {f f' : Findings},
      checkStep plan v parent i f = .ok f' → Takes s.ids f f'
  | _, _, .plain hid hkind hs, _, _, _, _, h => by
    obtain ⟨nested, -, heq⟩ := checkStep_eq plan hkind
    rw [heq] at h
    exact checkNode_takes_plain hid hkind hs h
  | _, _, .condition hid hkind hthen helse, _, _, _, _, h => by
    obtain ⟨nested, hlists, heq⟩ := checkStep_eq plan hkind
    rw [heq, checkNode, hkind] at h
    rw [Step.ids_condition]
    exact ((checkId_takes hid).trans
      (checkCondition_takes hlists (takesUnder hthen) (takesUnder helse) h)).perm List.perm_append_comm
  | _, _, .parallel hid hkind hsteps, _, _, _, _, h => by
    obtain ⟨nested, hlists, heq⟩ := checkStep_eq plan hkind
    rw [heq, checkNode, hkind] at h
    rw [Step.ids_parallel]
    exact ((checkId_takes hid).trans (checkParallel_takes hlists (takesUnder hsteps) h)).perm
      List.perm_append_comm

theorem takesUnder : ∀ {m : Option Value} {steps : List Step}, ShowsUnder m steps →
    TakesUnder plan m steps
  | _, _, .missing => .inl ⟨rfl, rfl⟩
  | _, _, .null => .inl ⟨rfl, rfl⟩
  | _, _, .list h => .inr ⟨_, rfl, fun hcheck => checkSteps_takes h hcheck⟩

/-- What the check of a list of steps takes. -/
theorem checkSteps_takes : ∀ {items : List Value} {steps : List Step}, ShowsAll items steps →
    ∀ {i : Nat} {parent : Option (StepPath × Branch)} {f f' : Findings},
      checkSteps plan items i parent f = .ok f' → Takes (stepIds steps) f f'
  | _, _, .nil, _, _, f, _, h => by
    rw [checkSteps] at h
    obtain rfl := Except.ok.inj h
    exact .nothing f
  | _, _, .cons first rest, _, _, _, _, h => by
    rw [checkSteps] at h
    obtain ⟨f₁, hfirst, hrest⟩ := Fault.bind_eq_ok.mp h
    rw [stepIds_cons]
    exact (checkStep_takes first hfirst).trans (checkSteps_takes rest hrest)
end

end

end Validation

/-! ## Plans -/

open Validation in
/-- **What the check of a plan takes**: the ids of the steps that its list shows. -/
theorem validate_takes {v : Value} {items : List Value} {steps : List Step} {issues : List Issue}
    (hitems : member v "steps" = .list items) (hshows : ShowsAll items steps) (h : validate v = .ok issues) :
    ∃ f, Findings.Takes (stepIds steps) .empty f ∧ f.issues = issues := by
  rw [validate_eq hitems] at h
  obtain ⟨f₁, hoptions, h⟩ := Fault.bind_eq_ok.mp h
  obtain ⟨f₂, hwalk, h⟩ := Fault.bind_eq_ok.mp h
  have hempty : Findings.Takes [] .empty
      (if items.isEmpty then Findings.empty.add .planEmpty none else .empty) := by
    split
    · exact .issue _ none (by simp)
    · exact .nothing _
  have hbefore := hempty.trans (checkTimeout_takes (by simp) hoptions)
  exact ⟨f₂, hbefore.trans (checkSteps_takes hshows hwalk), Except.ok.inj h⟩

open Validation in
/-- A plan whose steps are shown by a value in which no error is found. -/
theorem nodup_ids_of_validate {v : Value} {p : Plan} {issues : List Issue}
    (hshows : ∀ items, member v "steps" = .list items → ShowsAll items p.steps)
    (h : validate v = .ok issues) (hissues : issues.filter Issue.isError = []) : p.ids.Nodup := by
  by_cases hlist : ∃ items, member v "steps" = .list items
  · obtain ⟨items, hitems⟩ := hlist
    obtain ⟨f, htakes, rfl⟩ := validate_takes hitems (hshows items hitems) h
    have hclean : f.Clean := fun i hi => by simpa using List.filter_eq_nil_iff.mp hissues i hi
    obtain ⟨-, hseen, hnodup⟩ := htakes.meets.of_clean hclean
    exact hseen.nodup_iff.mp (hnodup List.nodup_nil)
  · -- whatever has no list of steps is reported
    unfold validate at h
    split at h
    · obtain rfl := Except.ok.inj h
      exact absurd hissues (by simp [Issue.isError, Defect.severity])
    split at h
    · next items hitems => exact absurd ⟨items, hitems⟩ hlist
    · obtain rfl := Except.ok.inj h
      exact absurd hissues (by simp [Issue.isError, Defect.severity])

open Validation in
/-- The steps of a plan that is read are shown by the list that is checked. -/
theorem planSteps_show {v : Value} {p : Plan} {items : List Value} (hgenuine : v.isGenuine = true)
    (hread : Plan.ofValue v = .ok p) (hitems : member v "steps" = .list items) :
    ShowsAll items p.steps := by
  have hsteps {fields : Keyed Value} (hfields : Value.allFieldsGenuine fields = true)
      (hplan : Plan.ofFields fields = .ok p) (hget : Keyed.get? fields "steps" = some (.list items)) :
      ShowsAll items p.steps := by
    simp only [Plan.ofFields, Checked.seq_eq_ok, Checked.map_eq_ok] at hplan
    obtain ⟨_, _, ⟨_, _, ⟨_, _, ⟨_, _, ⟨_, _, ⟨_, _, ⟨_, steps, ⟨_, -, rfl⟩, hsteps, rfl⟩, -, rfl⟩,
      -, rfl⟩, -, rfl⟩, -, rfl⟩, -, rfl⟩, -, rfl⟩ := hplan
    have hread : readSteps 0 items = .ok steps := by
      simpa [Decode.required, Decode.FieldName.find?, Decode.FieldName.plain, hget,
        Checked.under_eq_ok, stepList] using hsteps
    exact listsShow hfields "steps" items hget steps hread
  have hname : memberName "steps" = "steps" := rfl
  cases v with
  | object fields =>
    rw [Value.isGenuine] at hgenuine
    refine hsteps hgenuine hread ?_
    cases hget : Keyed.get? fields "steps" with
    | none => exact absurd hitems (by simp [member, member?, fieldOf?, hname, hget])
    | some u => simpa [member, member?, fieldOf?, hget] using hitems
  | parsed shape fields =>
    rw [Value.isGenuine, Bool.and_eq_true] at hgenuine
    cases shape with
    | plan =>
      refine hsteps hgenuine.2 hread ?_
      cases hget : Keyed.get? fields "steps" with
      | none => exact absurd hitems (by simp [member, member?, fieldOf?, hname, hget])
      | some u => simpa [member, member?, fieldOf?, hname, hget] using hitems
    | _ => exact absurd hread (by simp [Plan.ofValue, Checked.complain])
  | _ => exact absurd hread (by simp [Plan.ofValue, Checked.complain])

open Validation in
/-- **The steps of an accepted plan** are shown by the list that is checked. -/
theorem steps_show_of_accept {source : PlanSource} {p : Plan} {items : List Value}
    (hgenuine : source.isGenuine = true) (haccept : source.accept = .ok p)
    (hitems : member source.toValue "steps" = .list items) : ShowsAll items p.steps := by
  obtain ⟨-, -, -, hread⟩ := PlanSource.accept_eq_ok.mp haccept
  cases source with
  | parsed p' =>
    obtain rfl := Except.ok.inj hread
    have hsteps : member p'.toValue "steps" = .list (stepValues p'.steps) := member_of_get? rfl
    obtain rfl := Value.list.inj (hsteps.symm.trans hitems)
    exact steps_show p'.steps
  | document v => exact planSteps_show hgenuine (PlanSource.read_document_eq_ok.mp hread) hitems

/-- **The ids of an accepted plan are pairwise distinct.** -/
theorem nodup_ids_of_accept {source : PlanSource} {p : Plan} (hgenuine : source.isGenuine = true)
    (haccept : source.accept = .ok p) : p.ids.Nodup := by
  obtain ⟨issues, hvalidate, hissues, -⟩ := PlanSource.accept_eq_ok.mp haccept
  exact nodup_ids_of_validate (fun _ hitems => steps_show_of_accept hgenuine haccept hitems) hvalidate hissues

end Runbook
