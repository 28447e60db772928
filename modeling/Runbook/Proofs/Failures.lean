import Runbook.Proofs.Layout

/-!
# `Proofs.Failures` — what a failure stops

A failure that its plan does not go on after is the end of the list it occurs in, and of the list that
contains that one, up to the root list. The branches of a parallel step are the exception: they are all
carried out to their ends, and then one of their failures is that of the step.

So after such a failure nothing is done for steps that come later, unless they stand in another branch
of a parallel step around it (`Spared`), and the failure with which a list ends can be told from the
reports (`Decides`).

## Contents
- **Paths.** `StepPath.Beside`, side by side in a parallel step.
- **Failures.** `Plan.stopsOn` and `Plan.Halts`; `Outranks`, which of two branches gives the failure.
- **Reports.** `Tells`, what a report says of its step; `Orderly`, what is done in spite of failures.
- **Ends.** `Decides`, the failure that a step ends with; `Verdict`, `ListVerdict` and `BranchVerdict`,
  how a step, a list and branches end, and how they are put together.
-/

namespace Runbook

/-! ## Paths -/

namespace StepPath

/-- **Side by side.** Where two paths part, they go to branches of one parallel step. -/
def Beside : StepPath → StepPath → Prop
  | a :: p, b :: q =>
    if a = b then Beside p q else a.branch = some .parallel ∧ b.branch = some .parallel
  | _, _ => False

theorem beside_append (base p q : StepPath) : (base ++ p).Beside (base ++ q) ↔ p.Beside q := by
  induction base with
  | nil => rfl
  | cons a base ih => simpa [Beside] using ih

/-- What is inside two branches of a parallel step is side by side. -/
theorem beside_of_branches {base p q : StepPath} {a b : Place} (hp : base ++ [a] <+: p)
    (hq : base ++ [b] <+: q) (hab : a ≠ b) (ha : a.branch = some .parallel)
    (hb : b.branch = some .parallel) : p.Beside q := by
  obtain ⟨p', rfl⟩ := hp
  obtain ⟨q', rfl⟩ := hq
  rw [List.append_assoc, List.append_assoc, beside_append]
  simp [Beside, hab, ha, hb]

/-- A step does not come before what is inside it. -/
theorem not_before_of_prefix {p q : StepPath} (h : p <+: q) : ¬ p.Before q := by
  obtain ⟨rest, rfl⟩ := h
  have := before_append p [] rest
  rw [List.append_nil] at this
  simp [this, Before]

/-- What is inside a step of a list does not come before what is inside an earlier one. -/
theorem not_before_of_index_lt {base p q : StepPath} {a b : Place} (hp : base ++ [a] <+: p)
    (hq : base ++ [b] <+: q) (h : b.index < a.index) : ¬ p.Before q := by
  obtain ⟨p', rfl⟩ := hp
  obtain ⟨q', rfl⟩ := hq
  have hab : a ≠ b := fun e => absurd h (by rw [e]; omega)
  rw [List.append_assoc, List.append_assoc, before_append]
  simp only [List.cons_append, List.nil_append, Before, hab, ↓reduceIte]
  omega

/-- Between a step and what is inside a step of one of its lists. -/
theorem eq_or_prefix {base p q : StepPath} {a : Place} (hbase : base <+: p) (hpq : p <+: q)
    (ha : base ++ [a] <+: q) : p = base ∨ base ++ [a] <+: p := by
  obtain ⟨inner, rfl⟩ := hbase
  cases inner with
  | nil => exact .inl (List.append_nil base)
  | cons c inner =>
    obtain ⟨p', rfl⟩ := hpq
    obtain ⟨q', hq⟩ := ha
    simp only [List.append_assoc, List.append_cancel_left_eq, List.cons_append,
      List.nil_append, List.cons.injEq] at hq
    exact .inr ⟨inner, by rw [hq.1]; simp⟩

end StepPath

/-! ## Failures -/

/-- Whether a failure keeps a plan from going on. -/
def Plan.stopsOn (p : Plan) (f : Fault) : Bool := !(p.continueOnError && !Execution.isFatal f)

/-- An end that keeps a plan from going on. -/
def Plan.Halts (p : Plan) {α : Type} (o : Except Fault α) : Prop :=
  ∃ f, o = .error f ∧ p.stopsOn f = true

namespace Plan

variable {p : Plan} {α β : Type}

@[simp] theorem halts_error {f : Fault} : p.Halts (.error f : Except Fault α) ↔ p.stopsOn f = true :=
  ⟨fun ⟨_, h, hf⟩ => Except.error.inj h ▸ hf, fun h => ⟨f, rfl, h⟩⟩

@[simp] theorem not_halts_ok {a : α} : ¬ p.Halts (.ok a : Except Fault α) :=
  fun ⟨_, h, _⟩ => absurd h (by simp)

@[simp] theorem halts_map {o : Except Fault α} (g : α → β) : p.Halts (o.map g) ↔ p.Halts o := by
  cases o with
  | ok a => simp [Except.map]
  | error f => simp [Except.map]

theorem stopsOn_of_isFatal {f : Fault} (h : Execution.isFatal f = true) : p.stopsOn f = true := by
  simp [stopsOn, h]

theorem stopsOn_of_failFast (h : p.continueOnError = false) (f : Fault) : p.stopsOn f = true := by
  simp [stopsOn, h]

end Plan

/-- **Which failure wins.** Of the failures of two branches, the one of an unknown step goes before any
    other, and among equals the one of the branch with the smaller index. -/
structure Outranks (i : Int) (f : Fault) (j : Int) (g : Fault) : Prop where
  fatal : Execution.isFatal g = true → Execution.isFatal f = true
  first : Execution.isFatal f = Execution.isFatal g → i ≤ j

namespace Execution

variable {x : Execution}

theorem guarded_error (s : Step) (i : Int) (c : Context) (f : Fault) :
    x.guarded s i c (.error f)
      = if x.plan.stopsOn f then .error f else .ok ⟨c.recordFault (stepRef s i) f, .null⟩ := by
  unfold Plan.stopsOn
  cases h : x.plan.continueOnError && !isFatal f <;> simp [guarded, h]

/-- A step of a list that ends the list. -/
theorem guarded_eq_error {s : Step} {i : Int} {c : Context} {o : Outcome} {f : Fault}
    (h : x.guarded s i c o = .error f) : o = .error f ∧ x.plan.stopsOn f = true := by
  cases o with
  | ok r => exact absurd h (by simp [guarded])
  | error g =>
    rw [guarded_error] at h
    split at h
    · next hg => exact Except.error.inj h ▸ ⟨rfl, hg⟩
    · exact absurd h (by simp)

/-- A step of a list after which the list goes on. -/
theorem not_halts_of_guarded {s : Step} {i : Int} {c : Context} {o : Outcome} {r : Finished}
    (h : x.guarded s i c o = .ok r) : ¬ x.plan.Halts o := by
  rintro ⟨f, rfl, hf⟩
  rw [guarded_error, if_pos hf] at h
  exact absurd h (by simp)

theorem mem_faultsOf {os : List Outcome} {f : Fault} : f ∈ faultsOf os ↔ .error f ∈ os := by
  unfold faultsOf
  rw [List.mem_filterMap]
  constructor
  · rintro ⟨o, ho, hof⟩
    cases o with
    | ok r => simp at hof
    | error g => exact Option.some.inj hof ▸ ho
  · exact fun h => ⟨_, h, rfl⟩

/-- Each failure among outcomes that one finds first has an index before which there is no other such. -/
theorem find?_faultsOf {P : Fault → Bool} {f : Fault} : ∀ {os : List Outcome},
    (faultsOf os).find? P = some f → ∃ j : Nat, os[j]? = some (.error f)
      ∧ ∀ (k : Nat) (g : Fault), os[k]? = some (.error g) → P g = true → j ≤ k
  | [], h => by simp [faultsOf] at h
  | .ok r :: os, h => by
    have hos : (faultsOf os).find? P = some f := h
    obtain ⟨j, hj, hfirst⟩ := find?_faultsOf hos
    refine ⟨j + 1, hj, fun k g hk hg => ?_⟩
    cases k with
    | zero => simp at hk
    | succ k => exact Nat.succ_le_succ (hfirst k g hk hg)
  | .error e :: os, h => by
    have hcons : faultsOf (.error e :: os) = e :: faultsOf os := rfl
    rw [hcons, List.find?_cons] at h
    cases he : P e with
    | true =>
      simp only [he, Option.some.injEq] at h
      subst h
      exact ⟨0, rfl, fun k g _ _ => Nat.zero_le k⟩
    | false =>
      simp only [he] at h
      obtain ⟨j, hj, hfirst⟩ := find?_faultsOf h
      refine ⟨j + 1, hj, fun k g hk hg => ?_⟩
      cases k with
      | zero =>
        simp only [List.getElem?_cons_zero, Option.some.injEq, Except.error.injEq] at hk
        rw [hk, hg] at he
        exact absurd he (by simp)
      | succ k => exact Nat.succ_le_succ (hfirst k g hk hg)

/-- **The failure of a parallel step** is one of a branch and outranks those of all others. -/
theorem gatheredFault?_eq_some {os : List Outcome} {f : Fault} (h : x.gatheredFault? os = some f) :
    x.plan.stopsOn f = true ∧ ∃ j : Nat, os[j]? = some (.error f)
      ∧ ∀ (k : Nat) (g : Fault), os[k]? = some (.error g) → Outranks j f k g := by
  unfold gatheredFault? at h
  dsimp only at h
  cases hfatal : (faultsOf os).find? isFatal with
  | some g =>
    rw [hfatal, Option.some_or, Option.some.injEq] at h
    subst h
    have hg : isFatal g = true := List.find?_some hfatal
    obtain ⟨j, hj, hfirst⟩ := find?_faultsOf hfatal
    refine ⟨Plan.stopsOn_of_isFatal hg, j, hj, fun k g' hk => ⟨fun _ => hg, fun heq => ?_⟩⟩
    exact Int.ofNat_le.mpr (hfirst k g' hk (heq ▸ hg))
  | none =>
    rw [hfatal, Option.none_or] at h
    have hnone : ∀ (k : Nat) (g : Fault), os[k]? = some (.error g) → isFatal g = false := by
      intro k g hk
      have := List.find?_eq_none.mp hfatal g (mem_faultsOf.mpr (List.mem_of_getElem? hk))
      simpa using this
    split at h
    · exact absurd h (by simp)
    · next hcontinue =>
      have hhead : (faultsOf os).find? (fun _ => true) = some f := by
        cases hos : faultsOf os with
        | nil => rw [hos] at h; exact absurd h (by simp)
        | cons g gs => rw [hos] at h; simpa using h
      obtain ⟨j, hj, hfirst⟩ := find?_faultsOf hhead
      refine ⟨Plan.stopsOn_of_failFast (by simpa using hcontinue) f, j, hj, fun k g hk => ⟨fun hg => ?_, fun _ => ?_⟩⟩
      · rw [hnone k g hk] at hg
        exact absurd hg (by simp)
      · exact Int.ofNat_le.mpr (hfirst k g hk rfl)

/-- A parallel step succeeds when no branch has a failure that keeps the plan from going on. -/
theorem gatheredFault?_eq_none {os : List Outcome} (h : x.gatheredFault? os = none) :
    ∀ o ∈ os, ¬ x.plan.Halts o := by
  rintro o ho ⟨f, rfl, hf⟩
  have hmem : f ∈ faultsOf os := mem_faultsOf.mpr ho
  unfold gatheredFault? at h
  rw [Option.or_eq_none_iff, List.find?_eq_none] at h
  have hnot : isFatal f = false := by simpa using h.1 f hmem
  cases hcontinue : x.plan.continueOnError with
  | true => simp [Plan.stopsOn, hcontinue, hnot] at hf
  | false =>
    have hnil : faultsOf os = [] := by simpa [hcontinue] using h.2
    rw [hnil] at hmem
    exact absurd hmem List.not_mem_nil

/-- How a parallel step ends. -/
theorem gather_cases (id : Option String) (c : Context) (os : List Outcome) :
    (∃ f, x.gather id c os = .error f ∧ x.gatheredFault? os = some f)
      ∨ (∃ r, x.gather id c os = .ok r) ∧ x.gatheredFault? os = none := by
  unfold gather
  cases hf : x.gatheredFault? os with
  | some f => exact .inl ⟨f, rfl, rfl⟩
  | none => exact .inr ⟨⟨_, rfl⟩, rfl⟩

end Execution

/-! ## Reports -/

/-- No report is one of a failure that keeps the plan from going on. -/
def Quiet (p : Plan) (R : List Report) : Prop := ∀ r ∈ R, ¬ p.Halts r.outcome

theorem Quiet.append {p : Plan} {R R' : List Report} (h : Quiet p R) (h' : Quiet p R') :
    Quiet p (R ++ R') := fun r hr => (List.mem_append.mp hr).elim (h r) (h' r)

/-- **A failure of a step's own**: of a leaf, of a step that is not known, or of the predicate of a
    condition. -/
inductive Step.FailsItself (fns : Functions) : Step → Fault → Prop where
  | leaf {s : Step} {f : Fault} (h : s.isLeaf = true) : FailsItself fns s f
  | unknown {call : Capability} {agent : String} :
      FailsItself fns (.foreign call agent) (.unknownStepType "agent")
  | predicate {id : Option String} {predicate : Predicate} {whenTrue : List Step}
      {whenFalse : Option (List Step)} {c : Context} {f : Fault} (h : predicate.holds fns c = .error f) :
      FailsItself fns (.condition id predicate whenTrue whenFalse) f

/-- **What a report tells.** It is that of a step. If the step has failed, the failure is its own or that of a
    step inside it; a step that is not known always fails; and a parallel step reports when all its branches
    have. -/
structure Tells (fns : Functions) (R : List Report) (s : Step) (r : Report) : Prop where
  id : r.id = s.id?
  failure : ∀ f, r.outcome = .error f → s.FailsItself fns f
    ∨ ∃ r' ∈ R, r.path <+: r'.path ∧ r'.path ≠ r.path ∧ r'.outcome = .error f
  unknown : ∀ call agent, s = .foreign call agent → r.outcome = .error (.unknownStepType "agent")
  branches : ∀ id branches, s = .parallel id branches → ∀ (j : Nat) (s' : Step),
    branches[j]? = some s' → ∃ r' ∈ R, r'.path = r.path.child .parallel j s'.kind

theorem Tells.mono {fns : Functions} {R R' : List Report} {s : Step} {r : Report} (h : Tells fns R s r)
    (hR : R ⊆ R') : Tells fns R' s r :=
  { h with
    failure := fun f hf => (h.failure f hf).imp_right fun ⟨r', hr', hinside⟩ => ⟨r', hR hr', hinside⟩
    branches := fun id branches hs j s' hj =>
      (h.branches id branches hs j s' hj).imp fun _ h => ⟨hR h.1, h.2⟩ }

theorem Tells.of_isLeaf {fns : Functions} {R : List Report} {s : Step} {r : Report}
    (hs : s.isLeaf = true) (hid : r.id = s.id?) : Tells fns R s r where
  id := hid
  failure f _ := .inl (.leaf hs)
  unknown call agent h := by rw [h] at hs; exact absurd hs (by simp [Step.isLeaf])
  branches id branches h := by rw [h] at hs; exact absurd hs (by simp [Step.isLeaf])

/-- **What is done in spite of a failure.** On behalf of steps that come after the one that failed,
    there is only what is done side by side with it, and the reports of the steps around it. -/
def Spared (p : StepPath) (d : Deed) : Prop :=
  ∀ q, d.step = some q → p.Before q → p.Beside q ∨ q <+: p ∧ d.call.report?.isSome = true

/-- What is done for no step, tells of none, and asks nothing of others. -/
def Clerical (ds : List Deed) : Prop :=
  ∀ d ∈ ds, d.step = none ∧ d.call.report? = none ∧ d.call.isOutside = false

/-- **Deeds in good order**: whatever others have to do with is done for a step at one of the places,
    every report tells of one of these steps, and no failure that keeps the plan from going on is followed
    by anything but what is spared. -/
structure Orderly (fns : Functions) (p : Plan) (S : Sites) (ds : List Deed) : Prop where
  placed : ∀ d ∈ ds, ∀ q, d.step = some q → ∃ s, S q s
  owned : ∀ d ∈ ds, d.call.isOutside = true → ∃ q, d.step = some q
  signed : ∀ d ∈ ds, ∀ r, d.call = .report r → d.step = some r.path
  tells : ∀ r ∈ reports ds, ∃ s, S r.path s ∧ Tells fns (reports ds) s r
  spares : ∀ r ∈ reports ds, p.Halts r.outcome → ∀ d ∈ ds, Spared r.path d

namespace Orderly

variable {fns : Functions} {p : Plan} {S T U : Sites} {ds es fs : List Deed}

theorem nil : Orderly fns p S [] := ⟨by simp, by simp, by simp, by simp, by simp⟩

theorem weaken (h : Orderly fns p S ds) (hST : ∀ q s, S q s → T q s) : Orderly fns p T ds :=
  { h with
    placed := fun d hd q hq => (h.placed d hd q hq).imp fun s hs => hST q s hs
    tells := fun r hr => (h.tells r hr).imp fun s hs => ⟨hST _ s hs.1, hs.2⟩ }

theorem join (h₁ : Orderly fns p S ds) (h₂ : Orderly fns p T es) (hS : ∀ q s, S q s → U q s)
    (hT : ∀ q s, T q s → U q s) (hreports : (reports fs).Perm (reports ds ++ reports es))
    (hfs : ∀ d ∈ fs, d ∈ ds ∨ d ∈ es)
    (hright : ∀ r ∈ reports ds, p.Halts r.outcome → ∀ d ∈ es, Spared r.path d)
    (hleft : ∀ r ∈ reports es, p.Halts r.outcome → ∀ d ∈ ds, Spared r.path d) :
    Orderly fns p U fs where
  placed d hd q hq := by
    rcases hfs d hd with hd | hd
    · exact (h₁.placed d hd q hq).imp (hS q)
    · exact (h₂.placed d hd q hq).imp (hT q)
  owned d hd := (hfs d hd).elim (h₁.owned d) (h₂.owned d)
  signed d hd := (hfs d hd).elim (h₁.signed d) (h₂.signed d)
  tells r hr := by
    have hsub₁ : reports ds ⊆ reports fs := fun a ha =>
      hreports.mem_iff.mpr (List.mem_append_left _ ha)
    have hsub₂ : reports es ⊆ reports fs := fun a ha =>
      hreports.mem_iff.mpr (List.mem_append_right _ ha)
    rcases List.mem_append.mp (hreports.mem_iff.mp hr) with hr | hr
    · obtain ⟨s, hs, htells⟩ := h₁.tells r hr
      exact ⟨s, hS _ s hs, htells.mono hsub₁⟩
    · obtain ⟨s, hs, htells⟩ := h₂.tells r hr
      exact ⟨s, hT _ s hs, htells.mono hsub₂⟩
  spares r hr hhalts d hd := by
    rcases List.mem_append.mp (hreports.mem_iff.mp hr) with hr | hr <;> rcases hfs d hd with hd | hd
    · exact h₁.spares r hr hhalts d hd
    · exact hright r hr hhalts d hd
    · exact hleft r hr hhalts d hd
    · exact h₂.spares r hr hhalts d hd

/-- Where nothing is done for a step, nothing reported, and nothing asked of others. -/
theorem of_clerical (h : Clerical ds) : Orderly fns p S ds := by
  have hreports : reports ds = [] := reports_eq_nil fun d hd => (h d hd).2.1
  refine ⟨fun d hd q hq => ?_, fun d hd hout => ?_, fun d hd r hr => ?_, by simp [hreports],
    by simp [hreports]⟩
  · simp [(h d hd).1] at hq
  · simp [(h d hd).2.2] at hout
  · have := (h d hd).2.1
    simp [hr, Call.report?] at this

/-- What is clerical does not matter. -/
theorem after_clerical (hds : Clerical ds) (h : Orderly fns p S es) : Orderly fns p S (ds ++ es) := by
  have hreports : reports ds = [] := reports_eq_nil fun d hd => (hds d hd).2.1
  refine (of_clerical hds).join h (fun _ _ h => h) (fun _ _ h => h) (by rw [reports_append])
    (fun _ => List.mem_append.mp) (by simp [hreports]) fun r _ _ d hd q hq => ?_
  simp [(hds d hd).1] at hq

theorem before_clerical (h : Orderly fns p S ds) (hes : Clerical es) : Orderly fns p S (ds ++ es) := by
  have hreports : reports es = [] := reports_eq_nil fun d hd => (hes d hd).2.1
  refine h.join (of_clerical hes) (fun _ _ h => h) (fun _ _ h => h) (by rw [reports_append])
    (fun _ => List.mem_append.mp) (fun r _ _ d hd q hq => ?_) (by simp [hreports])
  simp [(hes d hd).1] at hq

/-- **Steps in a row.** A list goes on only when nothing has kept it from doing so. -/
theorem inOrder (base : StepPath) (a : Place) (h₁ : Orderly fns p S ds) (h₂ : Orderly fns p T es)
    (hquiet : Quiet p (reports ds)) (hds : ∀ q s, S q s → base ++ [a] <+: q)
    (hes : ∀ q s, T q s → ∃ b : Place, base ++ [b] <+: q ∧ a.index < b.index)
    (hS : ∀ q s, S q s → U q s) (hT : ∀ q s, T q s → U q s) : Orderly fns p U (ds ++ es) := by
  refine h₁.join h₂ hS hT (by rw [reports_append]) (fun d => List.mem_append.mp)
    (fun r hr hhalts => absurd hhalts (hquiet r hr)) ?_
  intro r hr _ d hd q hq hbefore
  obtain ⟨s, hs, -⟩ := h₂.tells r hr
  obtain ⟨s', hs'⟩ := h₁.placed d hd q hq
  obtain ⟨b, hb, hab⟩ := hes _ s hs
  exact absurd hbefore (StepPath.not_before_of_index_lt hb (hds q s' hs') hab)

/-- A branch does not keep another one from going on. -/
theorem spared_of_branches {base q : StepPath} {a : Place} {d : Deed} (hq : base ++ [a] <+: q)
    (ha : a.branch = some .parallel) (hd : ∀ q', d.step = some q' → ∃ b : Place,
      base ++ [b] <+: q' ∧ a.index ≠ b.index ∧ b.branch = some .parallel) : Spared q d := by
  intro q' hq' _
  obtain ⟨b, hb, hab, hbranch⟩ := hd q' hq'
  exact .inl (StepPath.beside_of_branches hq hb (fun h => hab (by rw [h])) ha hbranch)

end Orderly

/-! ## Ends -/

/-- **The failure that a step ends with.** Below the step at `base`, it is that of the step at `q`, and
    the steps around that one have failed with it. Nothing inside `q` has failed so as to keep the plan
    from going on; and wherever `q` is in a branch of a parallel step, the failure outranks those of the
    other branches. -/
structure Decides (p : Plan) (R : List Report) (base q : StepPath) (f : Fault) : Prop where
  below : base <+: q
  around : ∀ m, base <+: m → m <+: q → ∃ r ∈ R, r.path = m ∧ r.outcome = .error f
  inside : ∀ r ∈ R, q <+: r.path → r.path ≠ q → ¬ p.Halts r.outcome
  outranks : ∀ (m : StepPath) (a b : Place), base <+: m → m ++ [a] <+: q →
    a.branch = some .parallel → b.branch = some .parallel → ∀ r ∈ R, r.path = m ++ [b] →
    ∀ g, r.outcome = .error g → Outranks a.index f b.index g

namespace Decides

variable {p : Plan} {R R' : List Report} {base q : StepPath} {f : Fault}

/-- What happens elsewhere does not matter. -/
theorem mono (h : Decides p R base q f) (hR : R ⊆ R') (hbelow : ∀ r ∈ R', base <+: r.path → r ∈ R) :
    Decides p R' base q f where
  below := h.below
  around m hm hq := (h.around m hm hq).imp fun _ hr => ⟨hR hr.1, hr.2⟩
  inside r hr hq := h.inside r (hbelow r hr (h.below.trans hq)) hq
  outranks m a b hm hq ha hb r hr hpath :=
    h.outranks m a b hm hq ha hb r (hbelow r hr (hpath ▸ hm.trans (List.prefix_append m [b]))) hpath

/-- A step whose own failure it is. -/
theorem self {r : Report} (hr : r ∈ R) (hpath : r.path = base) (ho : r.outcome = .error f)
    (hR : ∀ r' ∈ R, r'.path = base) : Decides p R base base f where
  below := List.prefix_rfl
  around m hm hq := ⟨r, hr, hpath.trans (hm.eq_of_length_le hq.length_le), ho⟩
  inside r' hr' _ hne := absurd (hR r' hr') hne
  outranks m a b hm hq := by
    have h₁ := hm.length_le
    have h₂ := hq.length_le
    rw [List.length_append, List.length_singleton] at h₂
    omega

/-- The failure of a step in a list of the step at `base`, which fails with it. -/
theorem up {b : Branch} {i : Nat} {kind : String} {r : Report}
    (h : Decides p R (base.child b i kind) q f) (hown : r ∈ R) (hbase : r.path = base)
    (ho : r.outcome = .error f)
    (hbranches : b = .parallel → ∀ r ∈ R, ∀ c : Place, r.path = base ++ [c] →
      c.branch = some .parallel → ∀ g, r.outcome = .error g → Outranks i f c.index g) :
    Decides p R base q f where
  below := (StepPath.prefix_child ..).trans h.below
  around m hm hq := by
    rcases StepPath.eq_or_prefix hm hq h.below with rfl | hm
    · exact ⟨r, hown, hbase, ho⟩
    · exact h.around m hm hq
  inside := h.inside
  outranks m a c hm hq ha hc r hr hpath g hg := by
    rcases StepPath.eq_or_prefix hm ((List.prefix_append m [a]).trans hq) h.below with rfl | hm
    · obtain rfl : a = ⟨some b, i, kind⟩ := by
        obtain ⟨p', hp'⟩ := hq
        obtain ⟨q', hq'⟩ := h.below
        rw [← hq', StepPath.child] at hp'
        simp only [List.append_assoc, List.append_cancel_left_eq, List.cons_append,
          List.nil_append, List.cons.injEq] at hp'
        exact hp'.1
      exact hbranches (Option.some.inj ha) r hr c hpath hc g hg
    · exact h.outranks m a c hm hq ha hc r hr hpath g hg

end Decides

/-- **How a step has ended, told from the reports**: it reports its end and nothing else; if it goes
    well, nothing inside has kept the plan from going on; and if not, one failure decides. -/
structure Verdict (p : Plan) (R : List Report) (path : StepPath) (o : Outcome) : Prop where
  own : ∃ r ∈ R, r.path = path ∧ r.outcome = o.map Finished.output
  sole : ∀ r ∈ R, r.path = path → r.outcome = o.map Finished.output
  quiet : ¬ p.Halts o → Quiet p R
  decided : ∀ f, o = .error f → p.stopsOn f = true → ∃ q, Decides p R path q f

/-- How a list has ended: only failures that keep the plan from going on are failures of a list. -/
structure ListVerdict (p : Plan) (R : List Report) (parent : Option (StepPath × Branch))
    (o : Outcome) : Prop where
  quiet : ¬ p.Halts o → Quiet p R
  decided : ∀ f, o = .error f → p.stopsOn f = true
    ∧ ∃ (j : Nat) (kind : String) (q : StepPath), Decides p R (.within parent j kind) q f

/-- How branches have ended, from an index on. -/
structure BranchVerdict (p : Plan) (R : List Report) (path : StepPath) (i : Nat)
    (branches : List Step) (os : List Outcome) : Prop where
  own : ∀ (j : Nat) (s : Step), branches[j]? = some s →
    ∃ r ∈ R, r.path = path.child .parallel (i + j) s.kind
  sole : ∀ r ∈ R, ∀ a : Place, r.path = path ++ [a] → ∃ (j : Nat) (o : Outcome),
    a.index = (i + j : Nat) ∧ os[j]? = some o ∧ r.outcome = o.map Finished.output
  quiet : (∀ o ∈ os, ¬ p.Halts o) → Quiet p R
  decided : ∀ (j : Nat) (f : Fault), os[j]? = some (.error f) → p.stopsOn f = true →
    ∃ kind q, Decides p R (path.child .parallel (i + j) kind) q f

theorem StepPath.within_eq (parent : Option (StepPath × Branch)) (i : Nat) (kind : String) :
    StepPath.within parent i kind
      = (parent.elim [] Prod.fst) ++ [⟨parent.map Prod.snd, i, kind⟩] := by
  cases parent with
  | none => rfl
  | some parent => rfl

/-- Different places of a list have nothing in common. -/
theorem StepPath.within_index_eq (parent : Option (StepPath × Branch)) {i j : Nat}
    {kind kind' : String} {q : StepPath} (hi : within parent i kind <+: q)
    (hj : within parent j kind' <+: q) : i = j := by
  rw [within_eq] at hi hj
  by_contra hij
  exact ne_of_index_ne hi hj (by simpa [Int.natCast_inj] using hij) rfl

namespace Verdict

variable {p : Plan} {R R' : List Report} {path : StepPath} {id : Option String} {o : Outcome}

/-- A step that does nothing that is reported but end. -/
theorem single : Verdict p [⟨path, id, o.map Finished.output⟩] path o where
  own := ⟨_, List.mem_singleton_self _, rfl, rfl⟩
  sole r hr _ := by rw [List.mem_singleton.mp hr]
  quiet ho r hr := by rw [List.mem_singleton.mp hr]; simpa using ho
  decided f hf _ :=
    ⟨path, .self (List.mem_singleton_self _) rfl (by rw [hf]; rfl) fun r hr => by
      rw [List.mem_singleton.mp hr]⟩

/-- A step that ends as the steps in one of its lists have made it end. -/
theorem concluded {b : Branch} (hR : ∀ r ∈ R, path <+: r.path ∧ r.path ≠ path)
    (hquiet : ¬ p.Halts o → Quiet p R)
    (hdecided : ∀ f, o = .error f → p.stopsOn f = true → ∃ (j : Nat) (kind : String) (q : StepPath),
      Decides p R (path.child b j kind) q f ∧ (b = .parallel → ∀ r ∈ R, ∀ c : Place,
        r.path = path ++ [c] → c.branch = some .parallel → ∀ g, r.outcome = .error g →
        Outranks j f c.index g)) :
    Verdict p (R ++ [⟨path, id, o.map Finished.output⟩]) path o where
  own := ⟨_, List.mem_append_right _ (List.mem_singleton_self _), rfl, rfl⟩
  sole r hr hpath := by
    rcases List.mem_append.mp hr with hr | hr
    · exact absurd hpath (hR r hr).2
    · rw [List.mem_singleton.mp hr]
  quiet ho := (hquiet ho).append fun r hr => by rw [List.mem_singleton.mp hr]; simpa using ho
  decided f hf hstops := by
    obtain ⟨j, kind, q, hq, hbranches⟩ := hdecided f hf hstops
    have hq' : Decides p (R ++ [⟨path, id, o.map Finished.output⟩]) (path.child b j kind) q f := by
      refine hq.mono (List.subset_append_left ..) fun r hr hchild => ?_
      rcases List.mem_append.mp hr with hr | hr
      · exact hr
      · rw [List.mem_singleton.mp hr] at hchild
        have hlength := hchild.length_le
        simp only [StepPath.child, List.length_append, List.length_singleton] at hlength
        omega
    refine ⟨q, hq'.up (List.mem_append_right _ (List.mem_singleton_self _)) rfl (by rw [hf]; rfl) ?_⟩
    intro hb r hr c hpath hc g hg
    rcases List.mem_append.mp hr with hr | hr
    · exact hbranches hb r hr c hpath hc g hg
    · rw [List.mem_singleton.mp hr] at hpath
      exact absurd (congrArg List.length hpath) (by simp)

end Verdict

namespace ListVerdict

variable {p : Plan} {R R' : List Report} {parent : Option (StepPath × Branch)} {i : Nat} {s : Step}
  {o o' : Outcome}

/-- The list ends with its first step. -/
theorem head {f : Fault} (h : Verdict p R (.within parent i s.kind) (.error f))
    (hf : p.stopsOn f = true) : ListVerdict p R parent (.error f) where
  quiet := h.quiet
  decided g hg := by
    obtain rfl := Except.error.inj hg
    exact ⟨hf, i, s.kind, h.decided f rfl hf⟩

/-- The list goes on after its first step. -/
theorem cons (h : Verdict p R (.within parent i s.kind) o') (ho' : ¬ p.Halts o')
    (hR : ∀ r ∈ R, StepPath.within parent i s.kind <+: r.path) (hrest : ListVerdict p R' parent o)
    (hR' : ∀ r ∈ R', ∃ j kind, i < j ∧ StepPath.within parent j kind <+: r.path) :
    ListVerdict p (R ++ R') parent o where
  quiet ho := (h.quiet ho').append (hrest.quiet ho)
  decided f hf := by
    obtain ⟨hstops, j, kind, q, hq⟩ := hrest.decided f hf
    refine ⟨hstops, j, kind, q, hq.mono (List.subset_append_right ..) fun r hr hj => ?_⟩
    refine (List.mem_append.mp hr).resolve_left fun hr => ?_
    obtain ⟨r', hr', hpath, -⟩ := hq.around _ List.prefix_rfl hq.below
    obtain ⟨k, kind', hik, hk⟩ := hR' r' hr'
    have hij := StepPath.within_index_eq parent (hR r hr) hj
    rw [hpath] at hk
    have hjk := StepPath.within_index_eq parent hk List.prefix_rfl
    omega

end ListVerdict

namespace BranchVerdict

variable {p : Plan} {R R' R'' : List Report} {path : StepPath} {i : Nat} {s : Step} {rest : List Step}
  {o : Outcome} {os : List Outcome}

theorem nil : BranchVerdict p [] path i [] [] := ⟨by simp, by simp, fun _ => by simp [Quiet], by simp⟩

theorem cons (h : Verdict p R (path.child .parallel i s.kind) o)
    (hR : ∀ r ∈ R, path.child .parallel i s.kind <+: r.path)
    (hrest : BranchVerdict p R' path (i + 1) rest os)
    (hR' : ∀ r ∈ R', ∃ (j : Nat) (kind : String), i < j ∧ path.child .parallel j kind <+: r.path)
    (hperm : R''.Perm (R ++ R')) : BranchVerdict p R'' path i (s :: rest) (o :: os) := by
  have hleft : R ⊆ R'' := fun r hr => hperm.mem_iff.mpr (List.mem_append_left _ hr)
  have hright : R' ⊆ R'' := fun r hr => hperm.mem_iff.mpr (List.mem_append_right _ hr)
  have hcases {r : Report} (hr : r ∈ R'') : r ∈ R ∨ r ∈ R' := List.mem_append.mp (hperm.mem_iff.mp hr)
  refine ⟨?own, ?sole, ?quiet, ?decided⟩
  case own =>
    intro j s' hj
    cases j with
    | zero =>
      obtain rfl := Option.some.inj hj
      exact h.own.imp fun r hr => ⟨hleft hr.1, hr.2.1⟩
    | succ j =>
      obtain ⟨r, hr, hpath⟩ := hrest.own j s' hj
      exact ⟨r, hright hr, by rw [hpath, show i + 1 + j = i + (j + 1) by omega]⟩
  case sole =>
    intro r hr a hpath
    rcases hcases hr with hr | hr
    · -- a report of the first branch at this depth is its own
      have hchild := hR r hr
      have hsame : path.child .parallel i s.kind = r.path :=
        hchild.eq_of_length (by simp [hpath, StepPath.child])
      have ha : a = ⟨some .parallel, i, s.kind⟩ := by simpa [StepPath.child, hpath] using hsame.symm
      exact ⟨0, o, by simp [ha], rfl, h.sole r hr hsame.symm⟩
    · obtain ⟨j, o', hj, ho', houtcome⟩ := hrest.sole r hr a hpath
      exact ⟨j + 1, o', by rw [hj, show i + 1 + j = i + (j + 1) by omega], ho', houtcome⟩
  case quiet =>
    intro hos r hr
    rcases hcases hr with hr | hr
    · exact h.quiet (hos o List.mem_cons_self) r hr
    · exact hrest.quiet (fun o' ho' => hos o' (.tail _ ho')) r hr
  case decided =>
    intro j f hj hstops
    cases j with
    | zero =>
      obtain rfl := Option.some.inj hj
      obtain ⟨q, hq⟩ := h.decided f rfl hstops
      -- the other branches have other indices, so none of their reports is inside this one
      refine ⟨s.kind, q, hq.mono hleft fun r hr hchild => ?_⟩
      refine (hcases hr).resolve_right fun hr => ?_
      obtain ⟨k, kind, hk, hpath⟩ := hR' r hr
      have := StepPath.within_index_eq (some (path, .parallel)) hchild hpath
      omega
    | succ j =>
      obtain ⟨kind, q, hq⟩ := hrest.decided j f hj hstops
      rw [show i + 1 + j = i + (j + 1) by omega] at hq
      refine ⟨kind, q, hq.mono hright fun r hr hchild => ?_⟩
      refine (hcases hr).resolve_left fun hr => ?_
      have := StepPath.within_index_eq (some (path, .parallel)) (hR r hr) hchild
      omega

end BranchVerdict

end Runbook
