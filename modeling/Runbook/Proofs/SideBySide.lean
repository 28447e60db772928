import Mathlib.Data.List.Forall2
import Runbook.Proofs.Company

/-!
# `Proofs.SideBySide` — a parallel step is its branches, each alone

Nobody can tell from a branch that there are others. The runs of a parallel step are what comes of
runs of its branches, each alone in the same world and from the same moment, when their deeds are done
in the order of time and their outcomes are merged in the order of the branches
(`parallel_as_alone`).

## Contents
- **Branches alone.** `Solo`, and the courses of fibers side by side, `courses_iff_solos`.
- **Outcomes.** `Joins`, what becomes of the outcomes of branches.
- **Separation.** `KeepApart`, and that branches have nothing in common but what they wait for.
- **Runs.** `Alone`, `Together`, and `parallel_as_alone`.
-/

namespace Runbook

/-! ## Branches alone -/

/-- What is done by a branch that is alone, how it ends, and when. -/
structure Solo where
  deeds : List Deed
  outcome : Outcome
  stop : Clock

/-- The latest of some times, but no earlier than the first. -/
def latest (t : Clock) (stops : List Clock) : Clock := stops.foldr max t

/-- The course of a fiber alone. -/
def Solo.Follows (pace : Clock → Clock → Prop) (t : Clock) (p : Fiber Outcome) (a : Solo) : Prop :=
  Fiber.Course pace t p a.deeds (some (a.outcome, a.stop))

/-- **The courses of fibers side by side** are the shuffles of their courses. -/
theorem courses_iff_solos {pace : Clock → Clock → Prop} {t u : Clock} {ps : List (Fiber Outcome)}
    {fs : List Deed} {os : List Outcome} :
    Fiber.Courses pace t ps fs (some (os, u))
      ↔ ∃ alone : List Solo, List.Forall₂ (Solo.Follows pace t) ps alone
          ∧ Shuffled (alone.map Solo.deeds) fs ∧ os = alone.map Solo.outcome
          ∧ u = latest t (alone.map Solo.stop) := by
  constructor
  · intro h
    induction ps generalizing fs os u with
    | nil => cases h with | nil => exact ⟨[], .nil, .nil, rfl, rfl⟩
    | cons p ps ih =>
      obtain ⟨o, os', t₁, t₂, es, gs, rfl, rfl, first, others, hfs⟩ := h.of_cons
      obtain ⟨alone, hfollows, hes, rfl, rfl⟩ := ih others
      exact ⟨⟨es, o, t₁⟩ :: alone, .cons first hfollows, .cons hes hfs, rfl, rfl⟩
  · rintro ⟨alone, hfollows, hfs, rfl, rfl⟩
    induction hfollows generalizing fs with
    | nil => cases hfs; exact .nil
    | cons first _ ih =>
      cases hfs with
      | cons hes hfs => exact .cons first (ih hes) hfs

/-- The branches of a parallel step as fibers. -/
theorem Execution.walkBranches_eq_map (x : Execution) (steps : List Step) (path : StepPath) (i : Nat)
    (c : Context) :
    x.walkBranches steps path i c
      = (steps.zipIdx i).map fun b => x.walk b.1 (path.child .parallel b.2 b.1.kind) c := by
  induction steps generalizing i with
  | nil => rw [walkBranches_nil]; rfl
  | cons s rest ih => rw [walkBranches_cons, ih]; rfl

theorem le_latest (t : Clock) (stops : List Clock) :
    t ≤ latest t stops ∧ ∀ u ∈ stops, u ≤ latest t stops := by
  induction stops with
  | nil => exact ⟨Nat.le_refl t, by simp⟩
  | cons u stops ih =>
    refine ⟨Nat.le_trans ih.1 (Nat.le_max_right ..), fun v hv => ?_⟩
    rcases List.mem_cons.mp hv with rfl | hv
    · exact Nat.le_max_left ..
    · exact Nat.le_trans (ih.2 v hv) (Nat.le_max_right ..)

section

variable {ρ : Type} {pace : Clock → Clock → Prop}

mutual
/-- Nothing is begun after the end. -/
theorem Fiber.Course.begun_by_end (hpace : ∀ t u, pace t u → t ≤ u) {t : Clock} {p : Fiber ρ}
    {ds : List Deed} {r : Option (ρ × Clock)} :
    Fiber.Course pace t p ds r → ∀ res ∈ r, t ≤ res.2 ∧ ∀ d ∈ ds, d.start ≤ res.2
  | .stopped => by simp
  | .done => by simp
  | .ask hstart hstop rest => fun res hres => by
    obtain ⟨hu, hds⟩ := rest.begun_by_end hpace res hres
    have hbegun := Nat.le_trans hstop hu
    refine ⟨Nat.le_trans (hpace _ _ hstart) hbegun, fun d hd => ?_⟩
    rcases List.mem_cons.mp hd with rfl | hd
    · exact hbegun
    · exact hds d hd
  | .fork inner rest => fun res hres => by
    obtain ⟨ht, hds⟩ := inner.begun_by_end hpace _ rfl
    obtain ⟨hu, hes⟩ := rest.begun_by_end hpace res hres
    refine ⟨Nat.le_trans ht hu, fun d hd => ?_⟩
    rcases List.mem_append.mp hd with hd | hd
    · exact Nat.le_trans (hds d hd) hu
    · exact hes d hd
  | .cut _ => by simp

theorem Fiber.Courses.begun_by_end (hpace : ∀ t u, pace t u → t ≤ u) {t : Clock}
    {ps : List (Fiber ρ)} {ds : List Deed} {r : Option (List ρ × Clock)} :
    Fiber.Courses pace t ps ds r → ∀ res ∈ r, t ≤ res.2 ∧ ∀ d ∈ ds, d.start ≤ res.2
  | .stopped => by simp
  | .nil => by simp
  | .cons first others hfs => fun res hres => by
    obtain ⟨o, os, t₁, t₂, rfl, rfl, -, hres⟩ := joined_eq_some hres
    obtain ⟨ht, hds⟩ := first.begun_by_end hpace _ rfl
    obtain ⟨-, hes⟩ := others.begun_by_end hpace _ rfl
    rw [hres]
    refine ⟨Nat.le_trans ht (Nat.le_max_left ..), fun d hd => ?_⟩
    rcases hfs.mem_iff.mp hd with hd | hd
    · exact Nat.le_trans (hds d hd) (Nat.le_max_left ..)
    · exact Nat.le_trans (hes d hd) (Nat.le_max_right ..)
end

end

/-! ## Outcomes -/

/-- What the outcome of a branch, given with its index, adds to the context of its parallel step. -/
def Context.joinBranch (c : Context) (b : Outcome × Nat) : Context :=
  match b.1 with
  | .ok r => c.merge r.context
  | .error f => c.recordFault (.index b.2) f

namespace Execution

/-- What the output of a parallel step says of a branch. -/
def branchOutput : Outcome → Value
  | .ok r => r.output
  | .error _ => .null

/-- The output of a parallel step. -/
def joinedOutput (os : List Outcome) : Value := .object [("results", .list (os.map branchOutput))]

/-- **What becomes of the outcomes of branches.** If there is a fatal error among them, or any error
    and the plan ends with it, then the first such error, and nothing comes of the context. Otherwise
    the branches are merged one by one, in their order. -/
inductive Joins (x : Execution) (id : Option String) (c : Context) (os : List Outcome) :
    Outcome → Prop where
  | fatal {f : Fault} (h : (faultsOf os).find? isFatal = some f) : Joins x id c os (.error f)
  | ended {f : Fault} (hfatal : ∀ f ∈ faultsOf os, isFatal f = false)
      (hends : x.plan.continueOnError = false) (h : (faultsOf os).head? = some f) :
      Joins x id c os (.error f)
  | merged (h : ∀ f ∈ faultsOf os, isFatal f = false ∧ x.plan.continueOnError = true) :
      Joins x id c os
        (.ok ⟨(os.zipIdx.foldl Context.joinBranch c).recordOutput id (joinedOutput os),
          joinedOutput os⟩)

theorem mergeBranches_eq (os : List Outcome) : ∀ (i : Nat) (c : Context) (results : List Value),
    mergeBranches i os c results
      = ((os.zipIdx i).foldl Context.joinBranch c, results ++ os.map branchOutput) := by
  induction os with
  | nil => intro i c results; simp [mergeBranches]
  | cons o rest ih =>
    intro i c results
    cases o with
    | ok r => simp [mergeBranches, ih, Context.joinBranch, branchOutput]
    | error f => simp [mergeBranches, ih, Context.joinBranch, branchOutput]

variable {x : Execution} {id : Option String} {c : Context} {os : List Outcome} {o : Outcome}

theorem gather_of_some {f : Fault} (h : x.gatheredFault? os = some f) :
    x.gather id c os = .error f := by
  unfold gather
  rw [h]

theorem gather_of_none (h : x.gatheredFault? os = none) :
    x.gather id c os
      = .ok ⟨(os.zipIdx.foldl Context.joinBranch c).recordOutput id (joinedOutput os),
          joinedOutput os⟩ := by
  unfold gather
  rw [h]
  simp only [mergeBranches_eq, List.nil_append, joinedOutput]

theorem Joins.eq_gather (h : x.Joins id c os o) : o = x.gather id c os := by
  cases h with
  | fatal h => rw [gather_of_some]; simp [gatheredFault?, h]
  | ended hfatal hends h =>
    have hnone : (faultsOf os).find? isFatal = none :=
      List.find?_eq_none.mpr fun f hf => by simp [hfatal f hf]
    rw [gather_of_some]
    simp [gatheredFault?, hnone, hends, h]
  | merged h =>
    have hnone : (faultsOf os).find? isFatal = none :=
      List.find?_eq_none.mpr fun f hf => by simp [(h f hf).1]
    rw [gather_of_none]
    unfold gatheredFault?
    cases hfaults : faultsOf os with
    | nil => simp
    | cons f rest =>
      rw [hfaults] at hnone h
      simp [hnone, (h f List.mem_cons_self).2]

theorem joins_gather : x.Joins id c os (x.gather id c os) := by
  cases hfatal : (faultsOf os).find? isFatal with
  | some f =>
    rw [gather_of_some (f := f) (by simp [gatheredFault?, hfatal])]
    exact .fatal hfatal
  | none =>
    have hnone (f) (hf : f ∈ faultsOf os) : isFatal f = false := by
      simpa using List.find?_eq_none.mp hfatal f hf
    cases hcontinue : x.plan.continueOnError with
    | true =>
      rw [gather_of_none (by simp [gatheredFault?, hfatal, hcontinue])]
      exact .merged fun f hf => ⟨hnone f hf, hcontinue⟩
    | false =>
      cases hfaults : (faultsOf os).head? with
      | some f =>
        rw [gather_of_some (f := f) (by simp [gatheredFault?, hfatal, hcontinue, hfaults])]
        exact .ended hnone hcontinue hfaults
      | none =>
        rw [gather_of_none (by simp [gatheredFault?, hfatal, hcontinue, hfaults])]
        refine .merged fun f hf => ?_
        rw [List.head?_eq_none_iff.mp hfaults] at hf
        exact absurd hf List.not_mem_nil

/-! ## Separation -/

/-- A deed of a branch, given with its index. -/
def OfBranch (x : Execution) (path : StepPath) (b : Step × Nat) (d : Deed) : Prop :=
  ∃ q : StepPath, path.child .parallel b.2 b.1.kind <+: q ∧ q.Proper ∧ d.step = some q
    ∧ TreeCall x q d.call

variable {path : StepPath} {b b' : Step × Nat} {d e : Deed} {pace : Clock → Clock → Prop}

theorem ofBranch_of_course (hpath : path.Proper) {t : Clock} {ds : List Deed}
    {r : Option (Outcome × Clock)}
    (h : Fiber.Course pace t (x.walk b.1 (path.child .parallel b.2 b.1.kind) c) ds r) :
    ∀ d ∈ ds, x.OfBranch path b d :=
  fun d hd => (x.walk_parts b.1 (hpath.child .parallel b.2 b.1) (StepPath.kind?_child ..) h d hd).treeCall

theorem OfBranch.place (h : x.OfBranch path b d) :
    d.place path = some ⟨some .parallel, b.2, b.1.kind⟩ := by
  obtain ⟨q, ⟨rest, rfl⟩, -, hstep, -⟩ := h
  simp [Deed.place, hstep, StepPath.child]

/-- The deeds of two branches have nothing in common if the branches keep apart. -/
theorem OfBranch.apart {ds : List Deed} (hkeep : KeepApart path ds) (hd : d ∈ ds) (he : e ∈ ds)
    (h : x.OfBranch path b d) (h' : x.OfBranch path b' e) (hne : b.2 ≠ b'.2) : d.Apart path e := by
  have hindex : (b.2 : Int) ≠ b'.2 := fun heq => hne (Int.ofNat.inj heq)
  have hplace : d.place path ≠ e.place path := by
    rw [h.place, h'.place]
    simp [hindex]
  obtain ⟨htoken, hjob⟩ := hkeep d hd e he hplace
  refine ⟨hplace, htoken, fun p hp hp' => ?_⟩
  obtain ⟨q, hq, hproper, -, hcall⟩ := h
  obtain ⟨q', hq', hproper', -, hcall'⟩ := h'
  rcases hcall.isLocal.2 p hp with rfl | rfl
  · rcases hcall'.isLocal.2 _ hp' with htext | hother
    · exact StepPath.ne_of_index_ne hq hq' hindex
        (StepPath.text_injective hproper hproper' (Part.entry.inj htext))
    · exact absurd hother (by simp)
  · exact hjob _ hp hp'

/-- The course of a branch, given with its index, alone. -/
def BranchFollows (x : Execution) (pace : Clock → Clock → Prop) (t : Clock) (path : StepPath)
    (c : Context) (b : Step × Nat) (a : Solo) : Prop :=
  a.Follows pace t (x.walk b.1 (path.child .parallel b.2 b.1.kind) c)

variable {t : Clock} {branches : List Step} {alone : List Solo}

theorem ofBranch_of_follows (hpath : path.Proper) {i : Nat}
    (h : List.Forall₂ (x.BranchFollows pace t path c) (branches.zipIdx i) alone) :
    ∀ a ∈ alone, ∃ b : Step × Nat, i ≤ b.2 ∧ ∀ d ∈ a.deeds, x.OfBranch path b d := by
  induction branches generalizing i alone with
  | nil => cases h; simp
  | cons s rest ih =>
    cases h with
    | cons first others =>
      intro a ha
      rcases List.mem_cons.mp ha with rfl | ha
      · exact ⟨(s, i), Nat.le_refl i, ofBranch_of_course hpath first⟩
      · obtain ⟨b, hb, hds⟩ := ih others a ha
        exact ⟨b, Nat.le_of_succ_le hb, hds⟩

/-- The calls of branches touch nothing but parts of what is shared. -/
theorem isLocal_of_follows (hpath : path.Proper) {i : Nat}
    (h : List.Forall₂ (x.BranchFollows pace t path c) (branches.zipIdx i) alone) :
    ∀ ds ∈ alone.map Solo.deeds, ∀ d ∈ ds, d.call.IsLocal := by
  intro ds hds d hd
  obtain ⟨a, ha, rfl⟩ := List.mem_map.mp hds
  obtain ⟨b, -, hbranch⟩ := ofBranch_of_follows hpath h a ha
  obtain ⟨q, -, -, -, hcall⟩ := hbranch d hd
  exact hcall.isLocal.1

/-- **Branches have nothing in common** if they keep apart. -/
theorem apart_of_follows (hpath : path.Proper) {ds : List Deed} (hkeep : KeepApart path ds) {i : Nat}
    (h : List.Forall₂ (x.BranchFollows pace t path c) (branches.zipIdx i) alone)
    (hds : ∀ a ∈ alone, a.deeds ⊆ ds) : (alone.map Solo.deeds).Pairwise (Apart path) := by
  induction branches generalizing i alone with
  | nil => cases h; exact .nil
  | cons s rest ih =>
    cases h with
    | cons first others =>
      obtain ⟨hfirst, hothers⟩ := List.forall_mem_cons.mp hds
      refine List.pairwise_cons.mpr ⟨fun es hes d hd e he => ?_, ih others hothers⟩
      obtain ⟨a, ha, rfl⟩ := List.mem_map.mp hes
      obtain ⟨b, hb, hbranch⟩ := ofBranch_of_follows hpath others a ha
      exact (ofBranch_of_course (b := (s, i)) hpath first d hd).apart hkeep (hfirst hd)
        (hothers a ha he) (hbranch e he) (Nat.ne_of_lt hb)

/-! ## Runs -/

/-- The report of a parallel step, and nothing else, is done after its branches. -/
theorem parallel_course {ds : List Deed} {u : Clock} :
    Fiber.Course pace t (x.walk (.parallel id branches) path c) ds (some (o, u))
      ↔ ∃ alone es start, List.Forall₂ (x.BranchFollows pace t path c.fork) branches.zipIdx alone
          ∧ Shuffled (alone.map Solo.deeds) es ∧ o = x.gather id c (alone.map Solo.outcome)
          ∧ pace (latest t (alone.map Solo.stop)) start ∧ start ≤ u
          ∧ ds = es ++ [⟨some path, .report ⟨path, id, o.map Finished.output⟩, (), start, u⟩] := by
  rw [walk_parallel]
  constructor
  · intro h
    cases h with
    | fork inner rest =>
      obtain ⟨alone, hfollows, hes, rfl, rfl⟩ := courses_iff_solos.mp inner
      rw [walkBranches_eq_map, List.forall₂_map_left_iff] at hfollows
      cases rest with
      | ask hstart hstop rest =>
        cases rest
        exact ⟨alone, _, _, hfollows, hes, rfl, hstart, hstop, rfl⟩
  · rintro ⟨alone, es, start, hfollows, hes, rfl, hstart, hstop, rfl⟩
    have hfollows : List.Forall₂ (Solo.Follows pace t) (x.walkBranches branches path 0 c.fork) alone := by
      rw [walkBranches_eq_map, List.forall₂_map_left_iff]
      exact hfollows
    exact .fork (courses_iff_solos.mpr ⟨alone, hfollows, hes, rfl, rfl⟩) (.ask hstart hstop .done)

/-- **A branch alone**: it runs in a world from a context, and others answer it as they do. -/
structure Alone (x : Execution) (pace : Clock → Clock → Prop) (k : Company) (w : World)
    (path : StepPath) (c : Context) (b : Step × Nat) (a : Solo) : Prop where
  runs : ∃ w', w.Runs pace (x.walk b.1 (path.child .parallel b.2 b.1.kind) c) a.deeds
    (some (a.outcome, a.stop)) w'
  surrounds : k.Surrounds path [] a.deeds

/-- **What branches come to together**: their deeds are done in the order of time, and when the last of
    them has ended it is reported what becomes of their outcomes. -/
structure Together (x : Execution) (pace : Clock → Clock → Prop) (t : Clock) (path : StepPath)
    (id : Option String) (c : Context) (alone : List Solo) (ds : List Deed) (o : Outcome)
    (u : Clock) : Prop where
  joins : x.Joins id c (alone.map Solo.outcome) o
  stop : pace (latest t (alone.map Solo.stop)) u
  deeds : ∃ es, Shuffled (alone.map Solo.deeds) es ∧ InOrder es
    ∧ ds = es ++ [⟨some path, .report ⟨path, id, o.map Finished.output⟩, (), u, u⟩]

variable {k : Company} {w : World}

theorem forall₂_alone_iff {bs : List (Step × Nat)} :
    List.Forall₂ (x.Alone pace k w path c) bs alone
      ↔ List.Forall₂ (x.BranchFollows pace w.clock path c) bs alone
          ∧ (∀ ds ∈ alone.map Solo.deeds, ∃ w', w.Admits ds w')
          ∧ ∀ ds ∈ alone.map Solo.deeds, k.Surrounds path [] ds := by
  constructor
  · intro h
    induction h with
    | nil => exact ⟨.nil, by simp, by simp⟩
    | cons first _ ih =>
      obtain ⟨⟨w', hruns⟩, hsurrounds⟩ := first
      rw [List.map_cons, List.forall_mem_cons, List.forall_mem_cons]
      exact ⟨.cons hruns.course ih.1, ⟨⟨w', hruns.admits⟩, ih.2.1⟩, hsurrounds, ih.2.2⟩
  · rintro ⟨hfollows, hadmits, hsurrounds⟩
    induction hfollows with
    | nil => exact .nil
    | cons first _ ih =>
      rw [List.map_cons, List.forall_mem_cons] at hadmits hsurrounds
      obtain ⟨⟨w', hw'⟩, hadmits⟩ := hadmits
      exact .cons ⟨⟨w', first, hw'⟩, hsurrounds.1⟩ (ih hadmits hsurrounds.2)

/-- Branches begin nothing after their ends. -/
theorem begun_of_follows (hpace : ∀ t u, pace t u → t ≤ u) {bs : List (Step × Nat)}
    (h : List.Forall₂ (x.BranchFollows pace t path c) bs alone) :
    ∀ a ∈ alone, ∀ d ∈ a.deeds, d.start ≤ a.stop := by
  induction h with
  | nil => simp
  | cons first _ ih =>
    exact List.forall_mem_cons.mpr ⟨(Fiber.Course.begun_by_end hpace first _ rfl).2, ih⟩

/-- Branches that keep apart are carried out together. -/
theorem Together.runs (hpath : path.Proper) (hpace : ∀ t u, pace t u → t ≤ u) {ds : List Deed}
    {u : Clock} (hkeep : KeepApart path (alone.flatMap Solo.deeds))
    (halone : List.Forall₂ (x.Alone pace k w path c.fork) branches.zipIdx alone)
    (h : x.Together pace w.clock path id c alone ds o u) :
    (∃ w', w.Runs pace (x.walk (.parallel id branches) path c) ds (some (o, u)) w')
      ∧ k.Surrounds path [] ds := by
  obtain ⟨es, hes, horder, rfl⟩ := h.deeds
  obtain ⟨hfollows, hadmits, hsurrounds⟩ := forall₂_alone_iff.mp halone
  have hapart := apart_of_follows hpath hkeep hfollows fun a ha d hd =>
    List.mem_flatMap.mpr ⟨a, ha, hd⟩
  have hcourse := parallel_course.mpr ⟨alone, es, u, hfollows, hes, h.joins.eq_gather, h.stop,
    Nat.le_refl u, rfl⟩
  have hshuffled := Company.surrounds_shuffled (k := k) hes hapart
  obtain ⟨w₁, hw₁⟩ := (World.admits_shuffled hes hapart (isLocal_of_follows hpath hfollows)).mpr
    ⟨horder, hadmits⟩
  have hend {v : Clock} (hv : v ≤ latest w.clock (alone.map Solo.stop)) : v ≤ u :=
    Nat.le_trans hv (hpace _ _ h.stop)
  have hclock : w₁.clock ≤ u := by
    refine hw₁.clock_le (hend (le_latest ..).1) fun d hd => ?_
    obtain ⟨ds, hds, hd⟩ := hes.mem_iff.mp hd
    obtain ⟨a, ha, rfl⟩ := List.mem_map.mp hds
    exact Nat.le_trans (begun_of_follows hpace hfollows a ha d hd)
      (hend ((le_latest ..).2 _ (List.mem_map_of_mem ha)))
  refine ⟨⟨_, hcourse, hw₁.append (.cons (.inside rfl hclock rfl) .nil)⟩, ?_⟩
  exact Company.surrounds_append.mpr ⟨hshuffled.mpr hsurrounds, by simp [Call.isOutside], trivial⟩

/-- **A parallel step is its branches, each alone.** Take others who answer a branch by what that branch
    has done before. Its runs among them are what runs of its branches come to together, each alone
    from the same moment, in the same world and with a fork of the context. And branches that keep
    apart can always be carried out together. -/
theorem parallel_as_alone (hpath : path.Proper) (hpace : ∀ t u, pace t u → t ≤ u)
    (hprompt : ∀ t, pace t t) :
    (∀ {ds : List Deed} {t : Clock}, KeepApart path ds →
      (((∃ w', w.Runs pace (x.walk (.parallel id branches) path c) ds (some (o, t)) w')
          ∧ k.Surrounds path [] ds)
        ↔ ∃ alone, List.Forall₂ (x.Alone pace k w path c.fork) branches.zipIdx alone
            ∧ x.Together pace w.clock path id c alone ds o t))
      ∧ ∀ {alone : List Solo}, List.Forall₂ (x.Alone pace k w path c.fork) branches.zipIdx alone →
          KeepApart path (alone.flatMap Solo.deeds) →
          ∃ ds o t w', x.Together pace w.clock path id c alone ds o t
            ∧ w.Runs pace (x.walk (.parallel id branches) path c) ds (some (o, t)) w'
            ∧ k.Surrounds path [] ds := by
  refine ⟨fun {ds t} hkeep => ⟨?_, ?_⟩, fun {alone} halone hkeep => ?_⟩
  · rintro ⟨⟨w', hcourse, hadmits⟩, hsurrounds⟩
    obtain ⟨alone, es, start, hfollows, hes, rfl, hstart, hstop, rfl⟩ := parallel_course.mp hcourse
    obtain ⟨w₁, hw₁, hreport⟩ := hadmits.split
    obtain rfl : t = start := by
      obtain ⟨_, hreport, -⟩ := hreport.of_cons
      cases hreport with
      | inside => rfl
      | outside hc => simp [Call.isOutside] at hc
    have hapart := apart_of_follows hpath hkeep hfollows fun a ha d hd =>
      List.mem_append_left _ (hes.mem_iff.mpr ⟨_, List.mem_map_of_mem ha, hd⟩)
    obtain ⟨horder, hadmits⟩ := (World.admits_shuffled hes hapart
      (isLocal_of_follows hpath hfollows)).mp ⟨w₁, hw₁⟩
    have hsurrounds := (Company.surrounds_shuffled hes hapart).mp
      (Company.surrounds_append.mp hsurrounds).1
    exact ⟨alone, forall₂_alone_iff.mpr ⟨hfollows, hadmits, hsurrounds⟩, joins_gather, hstart, es, hes,
      horder, rfl⟩
  · rintro ⟨alone, halone, htogether⟩
    obtain ⟨es, hes, -, rfl⟩ := htogether.deeds
    refine htogether.runs hpath hpace (hkeep.mono fun d hd => ?_) halone
    obtain ⟨a, ha, hd⟩ := List.mem_flatMap.mp hd
    exact List.mem_append_left _ (hes.mem_iff.mpr ⟨_, List.mem_map_of_mem ha, hd⟩)
  -- the deeds of the branches are put together in the order of their moments
  · have horder (ds) (hds : ds ∈ alone.map Solo.deeds) : InOrder ds := by
      obtain ⟨w', hw'⟩ := (forall₂_alone_iff.mp halone).2.1 ds hds
      exact hw'.inOrder.1
    obtain ⟨es, hes, horder⟩ := Shuffled.exists_inOrder Deed.start horder
    have htogether : x.Together pace w.clock path id c alone _ _ _ :=
      ⟨joins_gather, hprompt _, es, hes, horder, rfl⟩
    obtain ⟨⟨w', hruns⟩, hsurrounds⟩ := htogether.runs hpath hpace hkeep halone
    exact ⟨_, _, _, w', htogether, hruns, hsurrounds⟩

end Execution

/-! ### An instance -/

/-- Two agents side by side. -/
def agentPair : List Step :=
  [.agent ⟨none, .absent, none, false⟩ "first", .agent ⟨none, .absent, none, false⟩ "second"]

/-- The run of a plan of which they are the only step. -/
def pairExecution : Execution where
  engine := plainEngine
  plan :=
    { id := none
      steps := [.parallel none agentPair]
      input := .null
      messages := []
      continueOnError := true
      hookTimeout := none
      workerPoll := none
      workflowPoll := none }
  runId := "run"

/-- Surroundings in which the second agent cannot be reached. -/
def secondAway : Environment :=
  .replying fun r =>
    if r.url = "http://localhost:3000/api/studio/chat/agent/second" then { response := .error "refused" }
    else { response := .ok ⟨200, "", .object [("result", .text "done")]⟩ }

/-- The context in which the two agents are called. -/
def pairContext : Context := .start .null (some "run") true

/-- What the two agents do together. -/
def pairRun : Prompt Outcome :=
  (pairExecution.walk (.parallel none agentPair) (.root 0 "parallel") pairContext).promptly secondAway {}

/-- What they do together is what each of them does alone, and one error comes of it. -/
theorem agent_pair_alone :
    (∃ alone, List.Forall₂ (pairExecution.Alone (· = ·) (.prompt secondAway) {} (.root 0 "parallel")
          pairContext.fork) agentPair.zipIdx alone
        ∧ pairExecution.Together (· = ·) 0 (.root 0 "parallel") none pairContext alone pairRun.deeds
            pairRun.outcome 0)
      ∧ (pairRun.outcome.toOption.bind fun r => r.context.errors.map List.length) = some 1 := by
  have hpath : (StepPath.root 0 "parallel").Proper := StepPath.proper_root 0 (.parallel none agentPair)
  have hkeep : KeepApart (.root 0 "parallel") pairRun.deeds := by
    have hnone : (pairRun.deeds.all fun d => d.call.token?.isNone
        && (d.call.part?.bind Part.job?).isNone) = true := by
      decide +kernel
    intro d hd e _ _
    have hd := List.all_eq_true.mp hnone d hd
    simp only [Bool.and_eq_true, Option.isNone_iff_eq_none] at hd
    refine ⟨by simp [hd.1], fun id hid => ?_⟩
    rw [Option.mem_def.mp hid] at hd
    exact absurd hd.2 (by simp [Part.job?])
  have hruns := Fiber.runs_promptly (fun _ => rfl) secondAway
    (pairExecution.walk (.parallel none agentPair) (.root 0 "parallel") pairContext) {}
  have hsurrounds : (Company.prompt secondAway).Surrounds (.root 0 "parallel") [] pairRun.deeds :=
    Company.surrounds_prompt (fun _ c => by cases c <;> rfl)
      (@Fiber.promptly_course _ (· = ·) secondAway (fun _ => rfl) _ _).2.prompts
  refine ⟨((Execution.parallel_as_alone hpath (fun _ _ h => Nat.le_of_eq h) fun _ => rfl).1 hkeep).mp
    ⟨⟨_, hruns⟩, hsurrounds⟩, by decide +kernel⟩

end Runbook
