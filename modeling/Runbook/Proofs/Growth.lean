import Runbook.Proofs.Keeping
import Runbook.Proofs.Layout
import Runbook.Proofs.Onward

/-!
# `Proofs.Growth` — what steps make of a context

A step that succeeds records its output in the context, and a step that fails its error; branches work
on forks, which are merged in the end. Whatever these operations keep is kept by every step:
`walk_keepsContext`. In particular a context only ever grows, `Context.Extends`, so what could not be
written down before a step cannot be written down after it.

## Contents
- **Rules.** `ContextRule`, statements about contexts that steps keep, given what holds of outputs.
- **Trees.** `LeavesYield`, and `walk_keepsContext`, by induction on the tree of steps.
- **Growth.** `Context.Extends`, and `Context.Latest` again.
- **Writing down.** `Context.Writable`, and `Context.Extends.writable`.
-/

namespace Runbook

/-! ## Rules -/

/-- What holds of all outputs: those of conditions and parallel steps follow from those inside. -/
structure OutputRule (Good : Value → Prop) : Prop where
  null : Good .null
  condition : ∀ b, Good (.object [("condition", .bool b)])
  results : ∀ outputs : List Value, (∀ v ∈ outputs, Good v) →
    Good (.object [("results", .list outputs)])

/-- **A statement about contexts that steps keep**, with the statement about the forks that branches work
    on. -/
structure ContextRule (Good : Value → Prop) (I J : Context → Prop) : Prop where
  output : ∀ {c : Context} (id : Option String) {v : Value}, I c → Good v → I (c.recordOutput id v)
  fault : ∀ {c : Context} (ref : StepRef) (f : Fault), I c → I (c.recordFault ref f)
  fork : ∀ {c : Context}, I c → J c.fork
  gathered : ∀ {c : Context} {os : List Outcome} (id : Option String) {v : Value}, I c →
    (∀ r, .ok r ∈ os → J r.context) → Good v →
    I ((Execution.mergeBranches 0 os c []).1.recordOutput id v)

/-! ## Trees -/

section

variable {pace : Clock → Clock → Prop} {x : Execution} {Good : Value → Prop} {I J : Context → Prop}
  {D ds : List Deed}

/-- The leaves among deeds that have come to their ends with an output have a good one. -/
def LeavesYield (pace : Clock → Clock → Prop) (x : Execution) (Good : Value → Prop)
    (D : List Deed) : Prop :=
  ∀ {s : Step} {q : StepPath} {c : Context} {t u : Clock} {ds : List Deed} {fin : Finished},
    s.isLeaf = true → Fiber.Course pace t (x.walk s q c) ds (some (.ok fin, u)) → ds ⊆ D →
    Good fin.output

theorem LeavesYield.trivial : LeavesYield pace x (fun _ => True) D := fun _ _ _ => True.intro

/-- A leaf that succeeds records its output. -/
theorem leaf_finished {s : Step} {q : StepPath} {c : Context} {t u : Clock} {fin : Finished}
    (hs : s.isLeaf = true) (h : Fiber.Course pace t (x.walk s q c) ds (some (.ok fin, u))) :
    fin.context = c.recordOutput s.id? fin.output := by
  obtain ⟨body, hbody, hcourse⟩ := Execution.walk_leaf_course hs h
  have hoc {o : Except Fault Value} (ho : Except.ok fin = Execution.leafOutcome s.id? c o) :
      fin.context = c.recordOutput s.id? fin.output := by
    cases o with
    | error f => exact absurd ho (by simp [Execution.leafOutcome, Except.map])
    | ok output => rw [Except.ok.inj ho]
  generalize hr : some (Except.ok fin, u) = r at hcourse
  cases hcourse with
  | unbegun => exact absurd hr (by simp)
  | worked => exact absurd hr (by simp)
  | replayed _ hres => exact hoc (hres _ hr.symm)
  | reported _ _ _ hres => exact hoc (hres _ hr.symm)

/-- What a step keeps of contexts, whatever the statement is. -/
def KeepsContext (pace : Clock → Clock → Prop) (x : Execution) (Good : Value → Prop)
    (J : Context → Prop) (D : List Deed) (s : Step) : Prop :=
  ∀ {I : Context → Prop} {path : StepPath} {c : Context} {t u : Clock} {ds : List Deed}
    {fin : Finished}, ContextRule Good I J → ds ⊆ D → I c →
    Fiber.Course pace t (x.walk s path c) ds (some (.ok fin, u)) → I fin.context ∧ Good fin.output

/-- The outcome of a step in a list. -/
theorem guarded_keepsContext {s : Step} {i : Int} {c : Context} {o : Outcome} {fin : Finished}
    (hgood : OutputRule Good) (hrule : ContextRule Good I J) (hc : I c)
    (ho : ∀ r, o = .ok r → I r.context ∧ Good r.output) (h : x.guarded s i c o = .ok fin) :
    I fin.context ∧ Good fin.output := by
  cases o with
  | ok r => exact ho fin h
  | error f =>
    by_cases hgo : (x.plan.continueOnError && !Execution.isFatal f) = true
    · have h : Except.ok _ = Except.ok fin := (if_pos hgo).symm.trans h
      rw [← Except.ok.inj h]
      exact ⟨hrule.fault _ f hc, hgood.null⟩
    · have h : Except.error f = Except.ok fin := (if_neg hgo).symm.trans h
      exact absurd h (by simp)

/-- The outputs that branches leave. -/
theorem mem_mergeBranches {os : List Outcome} {v : Value} (hgood : OutputRule Good)
    (hos : ∀ r, .ok r ∈ os → Good r.output) : ∀ {i : Nat} {c : Context} {results : List Value},
    (∀ v ∈ results, Good v) → v ∈ (Execution.mergeBranches i os c results).2 → Good v := by
  induction os with
  | nil => exact fun hresults hv => hresults v hv
  | cons o rest ih =>
    intro i c results hresults hv
    have hrest : ∀ r, .ok r ∈ rest → Good r.output := fun r hr => hos r (.tail _ hr)
    cases o with
    | ok r =>
      refine ih hrest (fun v hv => ?_) hv
      rcases List.mem_append.mp hv with hv | hv
      · exact hresults v hv
      · exact List.mem_singleton.mp hv ▸ hos r List.mem_cons_self
    | error f =>
      refine ih hrest (fun v hv => ?_) hv
      rcases List.mem_append.mp hv with hv | hv
      · exact hresults v hv
      · exact List.mem_singleton.mp hv ▸ hgood.null

theorem gather_keepsContext {id : Option String} {c : Context} {os : List Outcome} {fin : Finished}
    (hgood : OutputRule Good) (hrule : ContextRule Good I J) (hc : I c)
    (hos : ∀ r, .ok r ∈ os → J r.context ∧ Good r.output) (h : x.gather id c os = .ok fin) :
    I fin.context ∧ Good fin.output := by
  have hresults : Good (.object [("results", .list (Execution.mergeBranches 0 os c []).2)]) :=
    hgood.results _ fun v hv => mem_mergeBranches hgood (fun r hr => (hos r hr).2) (by simp) hv
  unfold Execution.gather at h
  split at h
  · exact absurd h (by simp)
  · rw [← Except.ok.inj h]
    exact ⟨hrule.gathered id hc (fun r hr => (hos r hr).1) hresults, hresults⟩

/-- **What recording and merging keep, every step keeps.** -/
theorem walk_keepsContext (hgood : OutputRule Good) (hJ : ContextRule Good J J)
    (hleaves : LeavesYield pace x Good D) (s : Step) : KeepsContext pace x Good J D s := by
  refine Step.treeInduction (P := KeepsContext pace x Good J D)
    (Q := fun steps =>
      (∀ {I : Context → Prop} {path : StepPath} {b : Branch} {i : Nat} {c : Context} {t u : Clock}
        {ds : List Deed} {fin : Finished}, ContextRule Good I J → ds ⊆ D → I c →
        Fiber.Course pace t (x.walkList steps (path, b) i c) ds (some (.ok fin, u)) →
        I fin.context ∧ Good fin.output) ∧
      ∀ {path : StepPath} {i : Nat} {c : Context} {t u : Clock} {ds : List Deed} {os : List Outcome},
        ds ⊆ D → J c → Fiber.Courses pace t (x.walkBranches steps path i c) ds (some (os, u)) →
        ∀ r, .ok r ∈ os → J r.context ∧ Good r.output)
    ?leaf ?condition ?parallel ?foreign ?nil ?cons s
  -- a list keeps what holds of its context; branches work on copies, which have `J`
  case leaf =>
    intro s hs I path c t u ds fin hrule hds hc h
    have houtput := hleaves hs h hds
    rw [leaf_finished hs h]
    exact ⟨hrule.output _ hc houtput, houtput⟩
  case condition =>
    intro id predicate whenTrue whenFalse ih I path c t u ds fin hrule hds hc h
    rcases Execution.walk_condition_course h with ⟨f, -, hend⟩ | ⟨b, -, hturn⟩
    · exact absurd (Execution.concluded_ended hend).1 (by simp)
    · cases hturn with
      | @both o _ es fs _ hlist hend =>
        have ho := (Execution.concluded_ended hend).1
        cases o with
        | error f => exact absurd ho (by simp [Execution.chosen])
        | ok r =>
          rw [Except.ok.inj ho]
          have hes : es ⊆ D := fun d hd => hds (List.mem_append_left _ hd)
          exact ⟨((ih b).1 hrule hes hc hlist).1, hgood.condition b⟩
  case parallel =>
    intro id branches ih I path c t u ds fin hrule hds hc h
    cases Execution.walk_parallel_course h with
    | @both os _ es fs _ inner hend =>
      have ho := (Execution.concluded_ended hend).1
      have hes : es ⊆ D := fun d hd => hds (List.mem_append_left _ hd)
      exact gather_keepsContext hgood hrule hc (ih.2 hes (hrule.fork hc) inner) ho.symm
  case foreign =>
    intro call agent I path c t u ds fin _ _ _ h
    rw [Execution.walk_foreign] at h
    exact absurd (Execution.concluded_ended h).1 (by simp)
  case nil =>
    refine ⟨fun {I path b i c t u ds fin} _ _ hc h => ?_, fun {path i c t u ds os} _ _ h => ?_⟩
    · rw [Execution.walkList_nil] at h
      have ho := (Prod.mk.inj (h.of_done.2 _ rfl)).1
      rw [Except.ok.inj ho]
      exact ⟨hc, hgood.null⟩
    · rw [Execution.walkBranches_nil] at h
      cases h
      simp
  case cons =>
    intro s rest hs hrest
    refine ⟨fun {I path b i c t u ds fin} hrule hds hc h => ?_,
      fun {path i c t u ds os} hds hc h => ?_⟩
    · cases Execution.walkList_course h with
      | failed _ _ hr => exact absurd (Prod.mk.inj (hr _ rfl)).1 (by simp)
      | @goesOn _ _ _ es fs _ hwalk hguarded hnext =>
        have hes : es ⊆ D := fun d hd => hds (List.mem_append_left _ hd)
        have hfs : fs ⊆ D := fun d hd => hds (List.mem_append_right _ hd)
        refine hrest.1 hrule hfs (guarded_keepsContext hgood hrule hc ?_ hguarded).1 hnext
        rintro r' rfl
        exact hs hrule hes hc hwalk
    · rw [Execution.walkBranches_cons] at h
      obtain ⟨o, os', t₁, t₂, es, fs, rfl, -, first, others, hmix⟩ := h.of_cons
      have hes : es ⊆ D := fun d hd => hds (hmix.sublist_left.subset hd)
      have hfs : fs ⊆ D := fun d hd => hds (hmix.sublist_right.subset hd)
      intro r' hr'
      rcases List.mem_cons.mp hr' with rfl | hr'
      · exact hs hJ hes hc first
      · exact hrest.2 hfs hc others r' hr'

end

/-! ## Growth -/

namespace Context

/-- **A context that has grown** out of another one. -/
structure Extends (c c' : Context) : Prop where
  input : c'.input = c.input
  steps : c.steps <+: c'.steps
  all : c.all <+: c'.all

theorem Extends.refl (c : Context) : Extends c c := ⟨rfl, List.prefix_rfl, List.prefix_rfl⟩

theorem Extends.trans {c c' c'' : Context} (h₁ : Extends c c') (h₂ : Extends c' c'') :
    Extends c c'' :=
  ⟨h₂.input.trans h₁.input, h₁.steps.trans h₂.steps, h₁.all.trans h₂.all⟩

theorem prefix_addMissing (steps entries : Keyed Value) : steps <+: addMissing steps entries := by
  unfold addMissing
  induction entries generalizing steps with
  | nil => exact List.prefix_rfl
  | cons entry rest ih =>
    refine List.IsPrefix.trans ?_ (ih _)
    dsimp only
    split
    · exact List.prefix_rfl
    · exact List.prefix_append ..

theorem extends_recordOutput (c : Context) (id : Option String) (v : Value) :
    Extends c (c.recordOutput id v) := by
  refine ⟨rfl, ?_, List.prefix_append ..⟩
  unfold recordOutput
  cases id with
  | none => exact List.prefix_rfl
  | some id =>
    dsimp only
    split
    · exact List.prefix_rfl
    · exact List.prefix_append ..

theorem extends_merge (c branch : Context) : Extends c (c.merge branch) :=
  ⟨rfl, prefix_addMissing .., List.prefix_append ..⟩

theorem extends_mergeBranches {os : List Outcome} : ∀ {i : Nat} {c : Context} {results : List Value},
    Extends c (Execution.mergeBranches i os c results).1 := by
  induction os with
  | nil => exact .refl _
  | cons o rest ih =>
    intro i c results
    cases o with
    | ok r => exact (extends_merge c r.context).trans ih
    | error f =>
      have hfault : Extends c (c.recordFault (.index i) f) := ⟨rfl, List.prefix_rfl, List.prefix_rfl⟩
      exact hfault.trans ih

/-- Contexts only grow, and know their latest output. -/
theorem extendsRule (c₀ : Context) :
    ContextRule (fun _ => True) (fun c => Extends c₀ c ∧ c.Latest) fun _ => True where
  output _ _ h _ := ⟨h.1.trans (extends_recordOutput ..), latest_recordOutput ..⟩
  fault _ _ h := ⟨⟨h.1.input, h.1.steps, h.1.all⟩, h.2⟩
  fork _ := trivial
  gathered _ _ h _ _ :=
    ⟨(h.1.trans extends_mergeBranches).trans (extends_recordOutput ..), latest_recordOutput ..⟩

end Context

/-- **What a step leaves has grown out of what it found.** -/
theorem Execution.walk_extends {pace : Clock → Clock → Prop} {x : Execution} {s : Step}
    {path : StepPath} {i : Int} {c : Context} {t u : Clock} {ds : List Deed} {o : Outcome}
    {fin : Finished} (hc : c.Latest)
    (h : Fiber.Course pace t (x.walk s path c) ds (some (o, u)))
    (hguarded : x.guarded s i c o = .ok fin) : c.Extends fin.context ∧ fin.context.Latest := by
  have hgood : OutputRule fun _ => True := ⟨trivial, fun _ => trivial, fun _ _ => trivial⟩
  have htrivial : ContextRule (fun _ => True) (fun _ => True) fun _ => True :=
    ⟨fun _ _ _ _ => trivial, fun _ _ _ => trivial, fun _ => trivial, fun _ _ _ _ _ => trivial⟩
  refine (guarded_keepsContext hgood (Context.extendsRule c) ⟨.refl c, hc⟩ ?_ hguarded).1
  rintro r rfl
  exact walk_keepsContext hgood htrivial LeavesYield.trivial s (Context.extendsRule c)
    (List.Subset.refl ds) ⟨.refl c, hc⟩ h

/-! ## Writing down -/

namespace Context

/-- **A context that can be written down.** -/
structure Writable (c : Context) : Prop where
  input : c.input.unwritable? = none
  steps : Value.unwritableField? c.steps = none
  previous : c.previous.unwritable? = none
  all : Value.unwritableItem? c.all = none

theorem writable_iff {c : Context} : c.toValue.unwritable? = none ↔ c.Writable := by
  have htext (s : Option String) : (Value.ofText? s).unwritable? = none := by cases s <;> rfl
  have herrors (es : List StepError) : Value.unwritableItem? (es.map StepError.toValue) = none := by
    refine Value.unwritableItem?_eq_none.mpr (List.forall_mem_map.mpr fun e _ => ?_)
    obtain ⟨ref, error⟩ := e
    cases ref <;> rfl
  have hiff : c.toValue.unwritable? = none ↔ c.input.unwritable? = none
      ∧ Value.unwritableField? c.steps = none ∧ c.previous.unwritable? = none
      ∧ Value.unwritableItem? c.all = none := by
    obtain ⟨input, steps, previous, all, errors, runId⟩ := c
    cases errors with
    | none =>
      simp only [toValue, Value.unwritable?, Value.unwritableField?, htext, Option.or_eq_none_iff,
        and_true]
    | some es =>
      simp only [toValue, Value.unwritable?, Value.unwritableField?, htext, herrors,
        Option.or_eq_none_iff, and_true]
  rw [hiff]
  exact ⟨fun h => ⟨h.1, h.2.1, h.2.2.1, h.2.2.2⟩, fun h => ⟨h.input, h.steps, h.previous, h.all⟩⟩

theorem unwritableField?_append (xs ys : Keyed Value) :
    Value.unwritableField? (xs ++ ys) = none
      ↔ Value.unwritableField? xs = none ∧ Value.unwritableField? ys = none := by
  induction xs with
  | nil => simp [Value.unwritableField?]
  | cons entry rest ih =>
    obtain ⟨k, v⟩ := entry
    simp only [List.cons_append, Value.unwritableField?, Option.or_eq_none_iff, ih, and_assoc]

theorem unwritableItem?_append (xs ys : List Value) :
    Value.unwritableItem? (xs ++ ys) = none
      ↔ Value.unwritableItem? xs = none ∧ Value.unwritableItem? ys = none := by
  simp only [Value.unwritableItem?_eq_none, List.forall_mem_append]

/-- **What cannot be written down cannot be written down later**: nothing that a context holds is ever
    lost. -/
theorem Extends.writable {c c' : Context} (h : Extends c c') (hlatest : c.Latest)
    (hwritable : c'.Writable) : c.Writable := by
  obtain ⟨steps, hsteps⟩ := h.steps
  obtain ⟨all, hall⟩ := h.all
  have hitems : Value.unwritableItem? c.all = none :=
    ((unwritableItem?_append ..).mp (hall ▸ hwritable.all)).1
  refine ⟨h.input ▸ hwritable.input, ((unwritableField?_append ..).mp (hsteps ▸ hwritable.steps)).1,
    ?_, hitems⟩
  rw [hlatest]
  cases hlast : c.all.getLast? with
  | none => rfl
  | some v =>
    obtain ⟨init, hinit⟩ := List.getLast?_eq_some_iff.mp hlast
    rw [hinit] at hitems
    have := ((unwritableItem?_append ..).mp hitems).2
    simpa [Value.unwritableItem?] using this

theorem latest_keepsContext {c : Context} (h : c.Latest) (b : Backend) :
    (b.keepsContext c).Latest := by
  unfold Latest at h ⊢
  simp only [Backend.keepsContext, List.getLast?_map, h]
  cases c.all.getLast? <;> simp

end Context

end Runbook
