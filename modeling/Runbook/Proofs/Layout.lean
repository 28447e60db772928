import Runbook.Proofs.Ledger

/-!
# `Proofs.Layout` — who does what

Deeds of many steps stand in one list when branches take their turns. Picked out by step they fall
apart again: what is done for a leaf is one course of that leaf, cut short or to its end, and what is
done for a step that contains steps is at most one report. Two steps never get into each other's way.

## Contents
- **Places.** `Step.Inside`, `listSites`, `rootSites`: where steps stand.
- **Deeds of a step.** `deedsFor`, and that picking goes along with interleaving.
- **Layouts.** `DoneAt` and `Layout`, joined by `Layout.join`.
- **Trees.** `walk_layout`, by induction on the tree of steps.
- **The root list.** `walkRoot_layout`.
-/

namespace Runbook

/-! ## Places -/

/-- Which step stands at which place. -/
abbrev Sites := StepPath → Step → Prop

/-- A step at a path, and the steps inside it. -/
def Step.Inside (s : Step) (path : StepPath) : Sites :=
  fun q s' => ∃ inner, q = path ++ inner ∧ s.Has inner s'

/-- The steps in a list of a step, from an index on. -/
def listSites (path : StepPath) (b : Branch) (i : Nat) (steps : List Step) : Sites :=
  fun q s' => ∃ (j : Nat) (s : Step), steps[j]? = some s ∧ s.Inside (path.child b (i + j) s.kind) q s'

/-- The steps of a root list. -/
def rootSites (steps : List (Int × Step)) : Sites :=
  fun q s' => ∃ (k : Int) (s : Step), (k, s) ∈ steps ∧ s.Inside (.root k s.kind) q s'

/-- At most one step stands at a place inside another one. -/
theorem Step.Has.unique {s s₁ s₂ : Step} {path : StepPath} (h₁ : s.Has path s₁)
    (h₂ : s.Has path s₂) : s₁ = s₂ := by
  induction h₁ with
  | here => cases h₂; rfl
  | @inside s s' s₁ b i rest hi h ih =>
    generalize hpath : (⟨some b, (i : Int), s'.kind⟩ :: rest : StepPath) = path at h₂
    cases h₂ with
    | here => exact absurd hpath (by simp)
    | @inside s s'' s₂ b' i' rest' hi' h' =>
      simp only [List.cons.injEq, Place.mk.injEq, Option.some.injEq, Int.natCast_inj] at hpath
      obtain ⟨⟨rfl, rfl, -⟩, rfl⟩ := hpath
      obtain rfl := Option.some.inj (hi.symm.trans hi')
      exact ih h'

/-- At most one step stands at a place of a plan. -/
theorem Plan.Has.unique {p : Plan} {q : StepPath} {s s' : Step} (h : p.Has q s) (h' : p.Has q s') :
    s = s' := by
  cases h with
  | @root s₀ _ i rest hi hs =>
    generalize hq : (⟨none, (i : Int), s₀.kind⟩ :: rest : StepPath) = q at h'
    cases h' with
    | @root s₁ _ i' rest' hi' hs' =>
      simp only [List.cons.injEq, Place.mk.injEq, Int.natCast_inj, true_and] at hq
      obtain ⟨⟨rfl, -⟩, rfl⟩ := hq
      obtain rfl := Option.some.inj (hi.symm.trans hi')
      exact hs.unique hs'

/-- The steps in a list of a step are inside the step. -/
theorem listSites_inside {s s' : Step} {path q : StepPath} {b : Branch}
    (h : listSites path b 0 (s.listOf b) q s') : s.Inside path q s' := by
  obtain ⟨j, s₀, hj, inner, hq, hhas⟩ := h
  rw [Nat.zero_add] at hq
  exact ⟨_, by rw [hq, StepPath.child, List.append_assoc]; rfl, .inside hj hhas⟩

/-- A list of a step does not contain the step. -/
theorem listSites_ne {path q : StepPath} {b : Branch} {i : Nat} {steps : List Step} {s : Step}
    (h : listSites path b i steps q s) : q ≠ path := by
  obtain ⟨j, s₀, -, inner, hq, -⟩ := h
  rintro rfl
  have := congrArg List.length hq
  simp [StepPath.child] at this

theorem listSites_head {path q : StepPath} {b : Branch} {i : Nat} {s s' : Step} {rest : List Step}
    (h : s.Inside (path.child b i s.kind) q s') : listSites path b i (s :: rest) q s' :=
  ⟨0, s, rfl, h⟩

theorem listSites_tail {path q : StepPath} {b : Branch} {i : Nat} {s s' : Step} {rest : List Step}
    (h : listSites path b (i + 1) rest q s') : listSites path b i (s :: rest) q s' := by
  obtain ⟨j, s₀, hj, h⟩ := h
  refine ⟨j + 1, s₀, hj, ?_⟩
  rwa [show i + (j + 1) = i + 1 + j by omega]

/-- Different places of a list have no step in common. -/
theorem listSites_disjoint {path q : StepPath} {b : Branch} {i : Nat} {s s₁ s₂ : Step}
    {rest : List Step} (h₁ : s.Inside (path.child b i s.kind) q s₁)
    (h₂ : listSites path b (i + 1) rest q s₂) : False := by
  obtain ⟨inner, hq, -⟩ := h₁
  obtain ⟨j, s₀, -, inner', hq', -⟩ := h₂
  have hp : path ++ [⟨some b, i, s.kind⟩] <+: q := ⟨inner, hq.symm⟩
  have hp' : path ++ [⟨some b, (i + 1 + j : Nat), s₀.kind⟩] <+: q := ⟨inner', hq'.symm⟩
  exact StepPath.ne_of_index_ne hp hp' (by simp only [ne_eq, Int.natCast_inj]; omega) rfl

/-! ## Deeds of a step -/

/-- The deeds that are done for a step. -/
def deedsFor (q : StepPath) (ds : List Deed) : List Deed := ds.filter fun d => d.step = some q

section

variable {q : StepPath} {d : Deed} {ds es fs : List Deed}

@[simp] theorem mem_deedsFor : d ∈ deedsFor q ds ↔ d ∈ ds ∧ d.step = some q := by simp [deedsFor]

@[simp] theorem deedsFor_nil : deedsFor q [] = [] := rfl

@[simp] theorem deedsFor_append : deedsFor q (ds ++ es) = deedsFor q ds ++ deedsFor q es :=
  List.filter_append ..

theorem deedsFor_cons_of_eq (h : d.step = some q) : deedsFor q (d :: ds) = d :: deedsFor q ds := by
  simp [deedsFor, h]

theorem deedsFor_cons_of_ne (h : d.step ≠ some q) : deedsFor q (d :: ds) = deedsFor q ds := by
  simp [deedsFor, h]

theorem deedsFor_eq_nil (h : ∀ d ∈ ds, d.step ≠ some q) : deedsFor q ds = [] := by
  simpa [deedsFor] using h

/-- Among what is done for no step, nothing is done for a certain one. -/
theorem deedsFor_of_none (h : ∀ d ∈ ds, d.step = none) (q : StepPath) : deedsFor q ds = [] :=
  deedsFor_eq_nil fun d hd => by rw [h d hd]; simp

theorem deedsFor_after_none (hds : ∀ d ∈ ds, d.step = none) (es : List Deed) (q : StepPath) :
    deedsFor q (ds ++ es) = deedsFor q es := by
  rw [deedsFor_append, deedsFor_of_none hds, List.nil_append]

theorem deedsFor_before_none (ds : List Deed) (hes : ∀ d ∈ es, d.step = none) (q : StepPath) :
    deedsFor q (ds ++ es) = deedsFor q ds := by
  rw [deedsFor_append, deedsFor_of_none hes, List.append_nil]

theorem deedsFor_eq_self (h : ∀ d ∈ ds, d.step = some q) : deedsFor q ds = ds := by
  simpa [deedsFor] using h

end

/-! ## Layouts -/

/-- **What is done for one step**, given where the steps stand: nothing; or, if it is a leaf, a course of
    that leaf, which has come to its end if all has; or else its report. -/
inductive DoneAt (pace : Clock → Clock → Prop) (x : Execution) (S : Sites) (ended : Prop)
    (q : StepPath) : List Deed → Prop where
  | nothing : DoneAt pace x S ended q []
  | leaf {s : Step} {c : Context} {t : Clock} {ds : List Deed} {r : Option (Outcome × Clock)}
      (hs : S q s) (hleaf : s.isLeaf = true) (hcourse : Fiber.Course pace t (x.walk s q c) ds r)
      (hended : ended → r ≠ none) : DoneAt pace x S ended q ds
  | report {s : Step} {o : Except Fault Value} {answer : Unit} {start stop : Clock} (hs : S q s)
      (hleaf : s.isLeaf = false) :
      DoneAt pace x S ended q [⟨some q, .report ⟨q, s.id?, o⟩, answer, start, stop⟩]

/-- **A layout**: what is done for each step is done for it alone. -/
def Layout (pace : Clock → Clock → Prop) (x : Execution) (S : Sites) (ended : Prop)
    (ds : List Deed) : Prop :=
  ∀ q, DoneAt pace x S ended q (deedsFor q ds)

section

variable {pace : Clock → Clock → Prop} {x : Execution} {S T U : Sites} {e e₁ e₂ : Prop}
  {q path : StepPath} {ds es fs : List Deed}

theorem DoneAt.weaken (h : DoneAt pace x S e₁ q ds) (hST : ∀ s, S q s → T q s) (he : e → e₁) :
    DoneAt pace x T e q ds := by
  cases h with
  | nothing => exact .nothing
  | leaf hs hleaf hcourse hended => exact .leaf (hST _ hs) hleaf hcourse fun h => hended (he h)
  | report hs hleaf => exact .report (hST _ hs) hleaf

/-- Where something is done, a step stands. -/
theorem DoneAt.site (h : DoneAt pace x S e q ds) (hds : ds ≠ []) : ∃ s, S q s := by
  cases h with
  | nothing => exact absurd rfl hds
  | leaf hs => exact ⟨_, hs⟩
  | report hs => exact ⟨_, hs⟩

/-- The calls that are made for a step are its own. -/
theorem DoneAt.treeCall (h : DoneAt pace x S e q ds) : ∀ d ∈ ds, Execution.TreeCall x q d.call := by
  intro d hd
  cases h with
  | nothing => exact absurd hd List.not_mem_nil
  | @leaf s c _ _ _ _ hleaf hcourse =>
    obtain ⟨body, hbody, hcourse⟩ := Execution.walk_leaf_course hleaf hcourse
    exact (hcourse.treeCall hbody d hd).2
  | report =>
    rw [List.mem_singleton.mp hd]
    exact .report ..

theorem Layout.weaken (h : Layout pace x S e₁ ds) (hST : ∀ q s, S q s → T q s) (he : e → e₁) :
    Layout pace x T e ds := fun q => (h q).weaken (hST q) he

theorem Layout.site (h : Layout pace x S e ds) {d : Deed} (hd : d ∈ ds) (hq : d.step = some q) :
    ∃ s, S q s :=
  (h q).site (List.ne_nil_of_mem (mem_deedsFor.mpr ⟨hd, hq⟩))

theorem Layout.treeCall (h : Layout pace x S e ds) {d : Deed} (hd : d ∈ ds) (hq : d.step = some q) :
    Execution.TreeCall x q d.call := (h q).treeCall d (mem_deedsFor.mpr ⟨hd, hq⟩)

/-- Something is done for a leaf, or it is a report. -/
theorem Layout.leaf_or_report (h : Layout pace x S e ds) {d : Deed} (hd : d ∈ ds)
    (hq : d.step = some q) : (∃ s, S q s ∧ s.isLeaf = true) ∨ ∃ r, d.call = .report r := by
  have hmem : d ∈ deedsFor q ds := mem_deedsFor.mpr ⟨hd, hq⟩
  have hown := h q
  generalize deedsFor q ds = es at hown hmem
  cases hown with
  | nothing => exact absurd hmem List.not_mem_nil
  | leaf hs hleaf => exact .inl ⟨_, hs, hleaf⟩
  | report =>
    rw [List.mem_singleton.mp hmem]
    exact .inr ⟨_, rfl⟩

/-- Where nothing is done for a step. -/
theorem Layout.of_none (h : ∀ d ∈ ds, d.step = none) : Layout pace x S e ds := fun q => by
  rw [deedsFor_of_none h]
  exact .nothing

theorem Layout.nil : Layout pace x S e [] := .of_none (by simp)

/-- **Layouts side by side** make one, if their places are different. -/
theorem Layout.join (h₁ : Layout pace x S e₁ ds) (h₂ : Layout pace x T e₂ es)
    (hfs : Interleaved ds es fs) (hST : ∀ q s s', S q s → T q s' → False)
    (hS : ∀ q s, S q s → U q s) (hT : ∀ q s, T q s → U q s) (he : e → e₁ ∧ e₂) :
    Layout pace x U e fs := by
  intro q
  have hq : Interleaved (deedsFor q ds) (deedsFor q es) (deedsFor q fs) := hfs.filter _
  by_cases hes : deedsFor q es = []
  · rw [hes] at hq
    rw [hq.eq_of_nil_right]
    exact (h₁ q).weaken (hS q) fun h => (he h).1
  · obtain ⟨s', hs'⟩ := (h₂ q).site hes
    have hds : deedsFor q ds = [] := by
      by_contra hds
      obtain ⟨s, hs⟩ := (h₁ q).site hds
      exact hST q s s' hs hs'
    rw [hds] at hq
    rw [hq.symm.eq_of_nil_right]
    exact (h₂ q).weaken (hT q) fun h => (he h).2

/-- Layouts in turn. -/
theorem Layout.append (h₁ : Layout pace x S e₁ ds) (h₂ : Layout pace x T e₂ es)
    (hST : ∀ q s s', S q s → T q s' → False) (hS : ∀ q s, S q s → U q s)
    (hT : ∀ q s, T q s → U q s) (he : e → e₁ ∧ e₂) : Layout pace x U e (ds ++ es) :=
  h₁.join h₂ (.append ds es) hST hS hT he

/-- What is done for no step does not matter. -/
theorem Layout.after_none (h : Layout pace x S e es) (hds : ∀ d ∈ ds, d.step = none) :
    Layout pace x S e (ds ++ es) := fun q => by
  rw [deedsFor_after_none hds]
  exact h q

theorem Layout.before_none (h : Layout pace x S e ds) (hes : ∀ d ∈ es, d.step = none) :
    Layout pace x S e (ds ++ es) := fun q => by
  rw [deedsFor_before_none ds hes]
  exact h q

/-! ## Trees -/

namespace Execution

/-- The report of a step that contains steps. -/
theorem concluded_layout {s : Step} (hleaf : s.isLeaf = false) {o : Outcome} {t : Clock}
    {r : Option (Outcome × Clock)} (h : Fiber.Course pace t (concluded path s.id? o) ds r) :
    Layout pace x (fun q s' => q = path ∧ s' = s) e ds := by
  rcases concluded_course h with ⟨rfl, -⟩ | ⟨answer, start, stop, rfl, -⟩
  · exact .nil
  · intro q
    by_cases hq : q = path
    · subst hq
      rw [deedsFor_eq_self (by simp)]
      exact .report ⟨rfl, rfl⟩ hleaf
    · rw [deedsFor_eq_nil (by simpa using fun h => hq h.symm)]
      exact .nothing

/-- What is done for a step has a layout. -/
def HasLayout (pace : Clock → Clock → Prop) (x : Execution) (s : Step) : Prop :=
  ∀ {path : StepPath} {c : Context} {t : Clock} {ds : List Deed} {r : Option (Outcome × Clock)},
    Fiber.Course pace t (x.walk s path c) ds r → Layout pace x (s.Inside path) (r ≠ none) ds

/-- A list of a step, and then its report. -/
theorem layout_concluded {α : Type} {first : List Deed → Option (α × Clock) → Prop} {s : Step}
    {b : Branch} {f : α → Outcome} {r : Option (Outcome × Clock)} (hleaf : s.isLeaf = false)
    (h : InTurn first (fun a u => Fiber.Course pace u (concluded path s.id? (f a))) ds r)
    (h₁ : ∀ {es r}, first es r → Layout pace x (listSites path b 0 (s.listOf b)) (r ≠ none) es) :
    Layout pace x (s.Inside path) (r ≠ none) ds := by
  cases h with
  | first hf => exact (h₁ hf).weaken (fun _ _ => listSites_inside) (fun h => absurd rfl h)
  | both hf hend =>
    refine (h₁ hf).append (concluded_layout (e := True) hleaf hend) ?_ (fun _ _ => listSites_inside) ?_
      (fun _ => ⟨by simp, trivial⟩)
    · rintro q s₁ s₂ hs₁ ⟨hq, -⟩
      exact listSites_ne hs₁ hq
    · rintro q s' ⟨rfl, rfl⟩
      exact ⟨[], (List.append_nil q).symm, .here⟩

/-- What is done for steps in a row, or side by side, has a layout. -/
def HaveLayout (pace : Clock → Clock → Prop) (x : Execution) (steps : List Step) : Prop :=
  (∀ {path : StepPath} {b : Branch} {i : Nat} {c : Context} {t : Clock} {ds : List Deed}
    {r : Option (Outcome × Clock)}, Fiber.Course pace t (x.walkList steps (path, b) i c) ds r →
    Layout pace x (listSites path b i steps) (r ≠ none) ds) ∧
  ∀ {path : StepPath} {i : Nat} {c : Context} {t : Clock} {ds : List Deed}
    {r : Option (List Outcome × Clock)},
    Fiber.Courses pace t (x.walkBranches steps path i c) ds r →
    Layout pace x (listSites path .parallel i steps) (r ≠ none) ds

theorem haveLayout_nil : HaveLayout pace x [] := by
  refine ⟨fun h => ?_, fun h => ?_⟩
  · rw [walkList_nil] at h
    rw [h.of_done.1]
    exact .nil
  · rw [walkBranches_nil] at h
    cases h <;> exact .nil

theorem haveLayout_cons {s : Step} {rest : List Step} (hs : HasLayout pace x s)
    (hrest : HaveLayout pace x rest) : HaveLayout pace x (s :: rest) := by
  refine ⟨fun {path b i c t ds r} h => ?_, fun {path i c t ds r} h => ?_⟩
  · cases walkList_course h with
    | stopped hwalk => exact (hs hwalk).weaken (fun _ _ => listSites_head) (fun h => h)
    | failed hwalk => exact (hs hwalk).weaken (fun _ _ => listSites_head) (by simp)
    | goesOn hwalk _ hnext =>
      exact (hs hwalk).append (hrest.1 hnext) (fun _ _ _ => listSites_disjoint)
        (fun _ _ => listSites_head) (fun _ _ => listSites_tail) fun h => ⟨by simp, h⟩
  · rw [walkBranches_cons] at h
    cases h with
    | stopped => exact .nil
    | cons first others hfs =>
      refine (hs first).join (hrest.2 others) hfs (fun _ _ _ => listSites_disjoint)
        (fun _ _ => listSites_head) (fun _ _ => listSites_tail) fun h => ?_
      obtain ⟨⟨os, u⟩, hres⟩ := Option.ne_none_iff_exists'.mp h
      obtain ⟨o, os', t₁, t₂, rfl, rfl, -⟩ := joined_eq_some hres
      exact ⟨by simp, by simp⟩

/-- **Whatever is done for a step has a layout.** -/
theorem walk_layout (s : Step) : HasLayout pace x s := by
  refine Step.treeInduction (P := HasLayout pace x) (Q := HaveLayout pace x)
    ?leaf ?condition ?parallel ?foreign haveLayout_nil (fun _ _ => haveLayout_cons) s
  case leaf =>
    intro s hs path c t ds r h q
    obtain ⟨body, hbody, hcourse⟩ := walk_leaf_course hs h
    have hsteps : ∀ d ∈ ds, d.step = some path := fun d hd => (hcourse.treeCall hbody d hd).1
    -- a leaf does everything at its own place
    by_cases hq : q = path
    · subst hq
      rw [deedsFor_eq_self hsteps]
      exact .leaf ⟨[], (List.append_nil q).symm, .here⟩ hs h (fun h => h)
    · rw [deedsFor_eq_nil fun d hd => by rw [hsteps d hd]; simpa using fun h => hq h.symm]
      exact .nothing
  case condition =>
    intro id predicate whenTrue whenFalse ih path c t ds r h
    have hleaf : (Step.condition id predicate whenTrue whenFalse).isLeaf = false := rfl
    rcases walk_condition_course h with ⟨f, -, hend⟩ | ⟨b, -, hturn⟩
    · refine (concluded_layout (e := r ≠ none) hleaf hend).weaken ?_ (fun h => h)
      rintro q s' ⟨rfl, rfl⟩
      exact ⟨[], (List.append_nil q).symm, .here⟩
    · refine layout_concluded (b := takenBranch b) hleaf hturn fun h => ?_
      rw [Step.listOf_takenBranch]
      exact (ih b).1 h
  case parallel =>
    intro id branches ih path c t ds r h
    have hleaf : (Step.parallel id branches).isLeaf = false := rfl
    exact layout_concluded (b := .parallel) hleaf (walk_parallel_course h) ih.2
  case foreign =>
    intro call agent path c t ds r h
    rw [walk_foreign] at h
    have hleaf : (Step.foreign call agent).isLeaf = false := rfl
    refine (concluded_layout (e := r ≠ none) hleaf h).weaken ?_ (fun h => h)
    rintro q s' ⟨rfl, rfl⟩
    exact ⟨[], (List.append_nil q).symm, .here⟩

/-- Whatever is done for steps has a layout. -/
theorem steps_layout (steps : List Step) : HaveLayout pace x steps := by
  induction steps with
  | nil => exact haveLayout_nil
  | cons s rest ih => exact haveLayout_cons (walk_layout s) ih

/-! ## The root list -/

theorem walkRoot_layout {steps : List (Int × Step)} :
    ∀ {keepJournal : Bool} {c : Context} {t : Clock} {ds : List Deed} {r : Option (Outcome × Clock)},
      (steps.map Prod.fst).Nodup → Fiber.Course pace t (x.walkRoot steps keepJournal c) ds r →
      Layout pace x (rootSites steps) (r ≠ none) ds := by
  induction steps with
  | nil =>
    intro keepJournal c t ds r _ h
    rw [h.of_done.1]
    exact .nil
  | cons entry rest ih =>
    obtain ⟨k, s⟩ := entry
    intro keepJournal c t ds r hnodup h
    rw [List.map_cons, List.nodup_cons] at hnodup
    have hhead : ∀ q s', s.Inside (.root k s.kind) q s' → rootSites ((k, s) :: rest) q s' :=
      fun q s' hs => ⟨k, s, List.mem_cons_self, hs⟩
    have htail : ∀ q s', rootSites rest q s' → rootSites ((k, s) :: rest) q s' :=
      fun q s' ⟨k', s₀, hmem, hs⟩ => ⟨k', s₀, .tail _ hmem, hs⟩
    -- the places of different steps of the list differ in the position
    have hdisjoint : ∀ q s₁ s₂, s.Inside (.root k s.kind) q s₁ → rootSites rest q s₂ → False := by
      rintro q s₁ s₂ ⟨inner, hq, -⟩ ⟨k', s₀, hmem, inner', hq', -⟩
      have hkk : k = k' := by
        rw [hq] at hq'
        simp only [StepPath.root, List.cons_append, List.cons.injEq, Place.mk.injEq] at hq'
        exact hq'.1.2.1
      exact hnodup.1 (List.mem_map.mpr ⟨(k', s₀), hmem, hkk.symm⟩)
    cases walkRoot_course h with
    | first henter => exact .of_none henter.step_eq
    | both henter hbody =>
      refine Layout.after_none ?_ henter.step_eq
      cases hbody with
      | stopped hwalk => exact (walk_layout s hwalk).weaken hhead (fun h => h)
      | failed hwalk => exact (walk_layout s hwalk).weaken hhead (by simp)
      | goesOn hwalk _ hnext =>
        exact (walk_layout s hwalk).append (ih hnodup.2 hnext) hdisjoint hhead htail
          fun h => ⟨by simp, h⟩

end Execution

theorem mem_numbered {i : Nat} {steps : List Step} {k : Int} {s : Step} :
    (k, s) ∈ numbered i steps ↔ ∃ j : Nat, k = ((i + j : Nat) : Int) ∧ steps[j]? = some s := by
  induction steps generalizing i with
  | nil => simp [numbered]
  | cons s₀ rest ih =>
    rw [numbered, List.mem_cons, Prod.mk.injEq, ih]
    constructor
    · rintro (⟨rfl, rfl⟩ | ⟨j, rfl, hj⟩)
      · exact ⟨0, rfl, rfl⟩
      · exact ⟨j + 1, by omega, hj⟩
    · rintro ⟨j, rfl, hj⟩
      cases j with
      | zero => exact .inl ⟨rfl, (Option.some.inj hj).symm⟩
      | succ j => exact .inr ⟨j, by omega, hj⟩

theorem nodup_numbered (i : Nat) (steps : List Step) : ((numbered i steps).map Prod.fst).Nodup := by
  induction steps generalizing i with
  | nil => exact .nil
  | cons s rest ih =>
    rw [numbered, List.map_cons, List.nodup_cons]
    refine ⟨fun hmem => ?_, ih (i + 1)⟩
    obtain ⟨⟨k, s'⟩, hk, hki⟩ := List.mem_map.mp hmem
    obtain ⟨j, rfl, -⟩ := mem_numbered.mp hk
    dsimp only at hki
    omega

/-- What stands in the root list from a position on stands in the plan. -/
theorem Plan.has_of_rootSites {p : Plan} {m : Nat} {q : StepPath} {s : Step}
    (h : rootSites (numbered m (p.steps.drop m)) q s) : p.Has q s := by
  obtain ⟨k, s₀, hmem, inner, rfl, hhas⟩ := h
  obtain ⟨j, rfl, hj⟩ := mem_numbered.mp hmem
  rw [List.getElem?_drop] at hj
  exact .root hj hhas

end

end Runbook
