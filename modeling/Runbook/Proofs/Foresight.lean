import Runbook.Proofs.PlainData
import Runbook.Proofs.Reports

/-!
# `Proofs.Foresight` — how steps end when their leaves end as they must

When it is settled beforehand how each leaf step ends, nothing else about a step is open: not the order
in which branches take their turns, and not which of the leaves were carried out before. A step ends
as `foresee` computes from the context alone, be its leaves carried out or taken from a journal that
tells the truth (`walk_foreseen`).

The journal keeps of an error its text only. So a leaf that is replayed may fail with another error than
it did before, but the two read alike, and they do so only where the plan goes on after errors; there
the text is all that is left of an error in the end.

## Contents
- **Assignments.** `Assignment`, and deeds that suit one, `Assigned`.
- **Alike.** `Like`, outcomes that nobody tells apart, and that nothing comes of the difference.
- **True journals.** `JournalEntry.Agrees`, and `Truthful` deeds.
- **Foresight.** `foresee`, `walk_foreseen`, and that plain data stays plain data.
-/

namespace Runbook

/-! ## Assignments -/

/-- How each leaf step ends whenever it is carried out. -/
abbrev Assignment := StepPath → Except Fault Value

/-- **Deeds that suit an assignment**: whatever contains no steps ended as the assignment says. -/
def Assigned (σ : Assignment) (ds : List Deed) : Prop :=
  ∀ r ∈ reports ds, r.path.kind? ≠ some "condition" → r.path.kind? ≠ some "parallel" →
    r.outcome = σ r.path

theorem Assigned.of_append {σ : Assignment} {ds es : List Deed} (h : Assigned σ (ds ++ es)) :
    Assigned σ ds ∧ Assigned σ es := by
  unfold Assigned at h
  rw [reports_append] at h
  exact ⟨fun r hr => h r (List.mem_append_left _ hr), fun r hr => h r (List.mem_append_right _ hr)⟩

theorem Assigned.of_cons {σ : Assignment} {d : Deed} {ds : List Deed} (h : Assigned σ (d :: ds)) :
    Assigned σ ds := (@Assigned.of_append σ [d] ds h).2

theorem Assigned.of_interleaved {σ : Assignment} {ds es fs : List Deed} (h : Assigned σ fs)
    (hfs : Interleaved ds es fs) : Assigned σ ds ∧ Assigned σ es :=
  ⟨fun r hr => h r (hfs.reports.mem_iff.mpr (List.mem_append_left _ hr)),
    fun r hr => h r (hfs.reports.mem_iff.mpr (List.mem_append_right _ hr))⟩

/-- A leaf that has reported. -/
theorem Assigned.of_mem {σ : Assignment} {ds : List Deed} (h : Assigned σ ds) {path : StepPath}
    {s : Step} (hs : s.isLeaf = true) (hkind : path.kind? = some s.kind) {step : Option StepPath}
    {id : Option String} {o : Except Fault Value} {answer : Unit} {start stop : Clock}
    (hd : (⟨step, .report ⟨path, id, o⟩, answer, start, stop⟩ : Deed) ∈ ds) : o = σ path := by
  refine h ⟨path, id, o⟩ (List.mem_filterMap.mpr ⟨_, hd, rfl⟩) ?_ ?_ <;>
    rw [hkind] <;> cases s <;> simp [Step.isLeaf] at hs <;> simp [Step.kind]

/-! ## Alike -/

theorem Fault.name_ne_empty (f : Fault) : f.name ≠ "" := by
  cases f <;> simp only [Fault.name] <;> first | decide | skip
  rename_i kind args
  cases kind <;> decide

theorem Fault.describe_ne_empty (f : Fault) : f.describe ≠ "" := by
  unfold describe
  split
  · exact f.name_ne_empty
  · assumption

/-- An error that is made of the text of another one reads like it. -/
theorem Fault.describe_stepFailed (f : Fault) (details : Value) :
    (Fault.stepFailed f.describe details).describe = f.describe := if_neg f.describe_ne_empty

namespace Execution

/-- **Outcomes that nobody tells apart**: they are the same, or errors that read alike where the plan
    goes on after errors. -/
inductive Like (x : Execution) {α : Type} : Except Fault α → Except Fault α → Prop where
  | same {o : Except Fault α} : Like x o o
  | fault {f f' : Fault} (hcontinue : x.plan.continueOnError = true) (hf : isFatal f = false)
      (hf' : isFatal f' = false) (h : f.describe = f'.describe) : Like x (.error f) (.error f')

variable {x : Execution}

theorem Like.leafOutcome {o o' : Except Fault Value} (h : Like x o o') (id : Option String)
    (c : Context) : Like x (leafOutcome id c o) (leafOutcome id c o') := by
  cases h with
  | same => exact .same
  | fault hcontinue hf hf' h => exact .fault hcontinue hf hf' h

/-- In a list of steps, nothing comes of the difference. -/
theorem Like.guarded {o o' : Outcome} (h : Like x o o') (s : Step) (i : Int) (c : Context) :
    x.guarded s i c o = x.guarded s i c o' := by
  cases h with
  | same => rfl
  | fault hcontinue hf hf' h =>
    simp [Execution.guarded, hcontinue, hf, hf', Context.recordFault, h]

theorem mergeBranches_like {os os' : List Outcome} (h : List.Forall₂ (Like x) os os') :
    ∀ (i : Nat) (c : Context) (results : List Value),
      mergeBranches i os c results = mergeBranches i os' c results := by
  induction h with
  | nil => intro i c results; rfl
  | @cons o _ _ _ h _ ih =>
    intro i c results
    cases h with
    | same =>
      cases o with
      | ok r => exact ih ..
      | error f => exact ih ..
    | fault _ _ _ h =>
      rw [mergeBranches, mergeBranches, Context.recordFault, Context.recordFault, h]
      exact ih ..

theorem find?_isFatal_like {os os' : List Outcome} (h : List.Forall₂ (Like x) os os') :
    (faultsOf os).find? isFatal = (faultsOf os').find? isFatal := by
  induction h with
  | nil => rfl
  | @cons o o' rest rest' h _ ih =>
    cases h with
    | same =>
      cases o with
      | ok r => exact ih
      | error f =>
        have hcons (os : List Outcome) : faultsOf (.error f :: os) = f :: faultsOf os := rfl
        rw [hcons, hcons, List.find?_cons, List.find?_cons, ih]
    | @fault f f' _ hf hf' =>
      have hcons (f : Fault) (os : List Outcome) : faultsOf (.error f :: os) = f :: faultsOf os := rfl
      rw [hcons, hcons, List.find?_cons, List.find?_cons, hf, hf']
      exact ih

/-- Where the plan ends with errors, nobody tells apart what is the same. -/
theorem eq_of_like {os os' : List Outcome} (h : List.Forall₂ (Like x) os os')
    (hends : x.plan.continueOnError = false) : os = os' := by
  induction h with
  | nil => rfl
  | cons h _ ih =>
    rw [ih]
    cases h with
    | same => rfl
    | fault hcontinue => rw [hends] at hcontinue; exact absurd hcontinue (by simp)

/-- Among the branches of a parallel step, nothing comes of the difference. -/
theorem gather_like {os os' : List Outcome} (h : List.Forall₂ (Like x) os os') (id : Option String)
    (c : Context) : x.gather id c os = x.gather id c os' := by
  cases hcontinue : x.plan.continueOnError with
  | false => rw [eq_of_like h hcontinue]
  | true => simp only [gather, gatheredFault?, find?_isFatal_like h, mergeBranches_like h, hcontinue,
      ↓reduceIte]

end Execution

/-! ## True journals -/

/-- **An entry that tells the truth** about a step with an outcome: it leaves open how the step has
    ended, or says so. -/
inductive JournalEntry.Agrees (x : Execution) (o : Except Fault Value) : Option Value → Prop where
  | unended {found : Option Value} (h : Open found) : Agrees x o found
  | output {fields : Keyed Value} {v : Value} (ho : o = .ok v) (h : fields.get? "output" = some v) :
      Agrees x o (some (.object fields))
  | error {fields : Keyed Value} {f : Fault} (ho : o = .error f)
      (hcontinue : x.plan.continueOnError = true) (hf : Execution.isFatal f = false)
      (hnone : fields.get? "output" = none) (h : fields.get? "error" = some (.text f.describe)) :
      Agrees x o (some (.object fields))

namespace JournalEntry.Agrees

variable {x : Execution} {o o' : Except Fault Value} {found : Option Value}

/-- What is replayed is like what has happened. -/
theorem like (h : Agrees x o found) (hreplay : replay? found = some o') : x.Like o' o := by
  cases h with
  | unended h => rw [h.replay?_eq_none] at hreplay; exact absurd hreplay (by simp)
  | output ho h =>
    simp only [replay?, recorded?_object, h, Option.some.injEq] at hreplay
    rw [← hreplay, ho]
    exact .same
  | error ho hcontinue hf hnone h =>
    simp only [replay?, recorded?_object, hnone, h, Option.some.injEq, Value.display] at hreplay
    rw [← hreplay, ho]
    exact .fault hcontinue rfl hf (Fault.describe_stepFailed ..)

/-- A document of an entry tells the same. -/
theorem storable (h : Agrees x o found) (ho : ∀ v, o = .ok v → v.isData = true) :
    Agrees x o (found.map Value.storable) := by
  cases h with
  | unended h =>
    refine .unended fun v hv => ?_
    obtain ⟨v', hfound, rfl⟩ := Option.map_eq_some_iff.mp hv
    obtain ⟨fields, rfl, houtput, herror⟩ := h v' hfound
    refine ⟨Value.storableFields fields, by rw [Value.storable], ?_, ?_⟩
    · simpa [Keyed.has, get?_storableFields] using houtput
    · simpa [Keyed.has, get?_storableFields] using herror
  | @output fields v hv h =>
    rw [Option.map_some, Value.storable]
    refine .output hv ?_
    rw [get?_storableFields, h, Option.map_some, Value.storable_of_isData (ho v hv)]
  | error hf hcontinue hfatal hnone h =>
    rw [Option.map_some, Value.storable]
    refine .error hf hcontinue hfatal ?_ ?_
    · rw [get?_storableFields, hnone, Option.map_none]
    · rw [get?_storableFields, h]
      rfl

/-- The entry that an outcome leaves. -/
theorem entry {entry : Keyed Value} (h : x.entry? o = some entry) :
    Agrees x o (some (.object entry)) := by
  cases o with
  | ok output => rw [← Option.some.inj h]; exact .output rfl (by simp [Keyed.get?])
  | error f =>
    simp only [Execution.entry?, Bool.and_eq_true, Bool.not_eq_eq_eq_not, Bool.not_true,
      Option.ite_none_right_eq_some, Option.some.injEq] at h
    obtain ⟨⟨hcontinue, hf⟩, rfl⟩ := h
    exact .error rfl hcontinue hf (by simp [Keyed.get?]) (by simp [Keyed.get?])

end JournalEntry.Agrees

namespace Execution

variable {x : Execution} {σ : Assignment}

/-- **Deeds that were told the truth**: whatever the journal was asked for agreed with the
    assignment. -/
def Truthful (x : Execution) (σ : Assignment) (ds : List Deed) : Prop :=
  ∀ d ∈ ds, ∀ (q : StepPath) found start stop, d = ⟨some q, .recall q.text, found, start, stop⟩ →
    JournalEntry.Agrees x (σ q) found

theorem Truthful.of_append {ds es : List Deed} (h : Truthful x σ (ds ++ es)) :
    Truthful x σ ds ∧ Truthful x σ es :=
  ⟨fun d hd => h d (List.mem_append_left _ hd), fun d hd => h d (List.mem_append_right _ hd)⟩

theorem Truthful.of_interleaved {ds es fs : List Deed} (h : Truthful x σ fs)
    (hfs : Interleaved ds es fs) : Truthful x σ ds ∧ Truthful x σ es :=
  ⟨fun d hd => h d (hfs.mem_iff.mpr (.inl hd)), fun d hd => h d (hfs.mem_iff.mpr (.inr hd))⟩

/-! ## Foresight -/

mutual
/-- **How a step ends** in a context when its leaves end as an assignment says. -/
def foresee (x : Execution) (σ : Assignment) : Step → StepPath → Context → Outcome
  | .condition _ predicate whenTrue whenFalse, path, c =>
    match predicate.holds x.engine.functions c with
    | .error f => .error f
    | .ok true => chosen true (foreseeList x σ whenTrue (path, .whenTrue) 0 c)
    | .ok false =>
      match whenFalse with
      | some steps => chosen false (foreseeList x σ steps (path, .whenFalse) 0 c)
      | none => chosen false (.ok ⟨c, .null⟩)
  | .parallel id branches, path, c => x.gather id c (foreseeBranches x σ branches path 0 c.fork)
  | .foreign _ _, _, _ => .error (.unknownStepType "agent")
  | s, path, c => leafOutcome s.id? c (σ path)

/-- How a list of steps ends that belongs to a step. -/
def foreseeList (x : Execution) (σ : Assignment) :
    List Step → StepPath × Branch → Nat → Context → Outcome
  | [], _, _, c => .ok ⟨c, .null⟩
  | s :: rest, parent, index, c =>
    match x.guarded s index c (foresee x σ s (parent.1.child parent.2 index s.kind) c) with
    | .ok r => foreseeList x σ rest parent (index + 1) r.context
    | .error f => .error f

/-- How the branches of a parallel step end. -/
def foreseeBranches (x : Execution) (σ : Assignment) :
    List Step → StepPath → Nat → Context → List Outcome
  | [], _, _, _ => []
  | s :: rest, path, index, c =>
    foresee x σ s (path.child .parallel index s.kind) c
      :: foreseeBranches x σ rest path (index + 1) c
end

/-- How steps of the root list end. -/
def foreseeRoot (x : Execution) (σ : Assignment) : List (Int × Step) → Context → Outcome
  | [], c => .ok ⟨c, c.previous⟩
  | (index, s) :: rest, c =>
    match x.guarded s index c (foresee x σ s (.root index s.kind) c) with
    | .ok r => foreseeRoot x σ rest r.context
    | .error f => .error f

theorem foresee_of_isLeaf {s : Step} (h : s.isLeaf = true) (path : StepPath) (c : Context) :
    x.foresee σ s path c = leafOutcome s.id? c (σ path) := by
  cases s <;> simp [Step.isLeaf] at h <;> rw [foresee.eq_def]

theorem foresee_condition (id : Option String) (predicate : Predicate) (whenTrue : List Step)
    (whenFalse : Option (List Step)) (path : StepPath) (c : Context) :
    x.foresee σ (.condition id predicate whenTrue whenFalse) path c
      = match predicate.holds x.engine.functions c with
        | .error f => .error f
        | .ok b =>
          chosen b (x.foreseeList σ (takenSteps b whenTrue whenFalse) (path, takenBranch b) 0 c) := by
  rw [foresee.eq_def]
  dsimp only
  cases predicate.holds x.engine.functions c with
  | error f => rfl
  | ok b =>
    cases b with
    | true => rfl
    | false =>
      cases whenFalse with
      | some steps => rfl
      | none =>
        simp only [takenSteps, Bool.false_eq_true, ↓reduceIte, Option.getD_none]
        rw [foreseeList.eq_def]

theorem foresee_parallel (id : Option String) (branches : List Step) (path : StepPath) (c : Context) :
    x.foresee σ (.parallel id branches) path c
      = x.gather id c (x.foreseeBranches σ branches path 0 c.fork) := by
  rw [foresee.eq_def]

theorem foresee_foreign (call : Capability) (agent : String) (path : StepPath) (c : Context) :
    x.foresee σ (.foreign call agent) path c = .error (.unknownStepType "agent") := by
  rw [foresee.eq_def]

theorem foreseeList_nil (parent : StepPath × Branch) (i : Nat) (c : Context) :
    x.foreseeList σ [] parent i c = .ok ⟨c, .null⟩ := by
  rw [foreseeList.eq_def]

theorem foreseeList_cons (s : Step) (rest : List Step) (path : StepPath) (b : Branch) (i : Nat)
    (c : Context) :
    x.foreseeList σ (s :: rest) (path, b) i c
      = match x.guarded s i c (x.foresee σ s (path.child b i s.kind) c) with
        | .ok r => x.foreseeList σ rest (path, b) (i + 1) r.context
        | .error f => .error f := by
  rw [foreseeList.eq_def]

theorem foreseeBranches_nil (path : StepPath) (i : Nat) (c : Context) :
    x.foreseeBranches σ [] path i c = [] := by
  rw [foreseeBranches.eq_def]

theorem foreseeBranches_cons (s : Step) (rest : List Step) (path : StepPath) (i : Nat) (c : Context) :
    x.foreseeBranches σ (s :: rest) path i c
      = x.foresee σ s (path.child .parallel i s.kind) c
        :: x.foreseeBranches σ rest path (i + 1) c := by
  rw [foreseeBranches.eq_def]

variable {pace : Clock → Clock → Prop}

/-- A step ends as was foreseen. -/
def HasForesight (pace : Clock → Clock → Prop) (x : Execution) (σ : Assignment) (s : Step) : Prop :=
  ∀ {path : StepPath} {c : Context} {t u : Clock} {ds : List Deed} {o : Outcome},
    path.kind? = some s.kind → Assigned σ ds → Truthful x σ ds →
    Fiber.Course pace t (x.walk s path c) ds (some (o, u)) → Like x o (x.foresee σ s path c)

/-- The end of a step that contains steps. -/
theorem concluded_outcome {path : StepPath} {id : Option String} {o o' : Outcome} {t u : Clock}
    {ds : List Deed} (h : Fiber.Course pace t (concluded path id o) ds (some (o', u))) : o' = o := by
  rcases concluded_course h with ⟨-, hr⟩ | ⟨_, _, _, -, hr⟩
  · exact absurd hr (by simp)
  · exact hr (o', u) rfl

theorem leaf_foreseen {s : Step} (hs : s.isLeaf = true) : HasForesight pace x σ s := by
  intro path c t u ds o hkind hassigned htruthful h
  obtain ⟨body, hbody, hcourse⟩ := walk_leaf_course hs h
  rw [foresee_of_isLeaf hs]
  generalize hr : some (o, u) = r at hcourse
  cases hcourse with
  | unbegun => exact absurd hr (by simp)
  | worked => exact absurd hr (by simp)
  | replayed hfound hres =>
    rw [show o = leafOutcome s.id? c _ from hres (o, u) hr.symm]
    exact ((htruthful _ List.mem_cons_self path _ _ _ rfl).like hfound).leafOutcome ..
  | @reported _ _ _ start' stop' _ _ answer es fs o' _ _ _ _ hres =>
    rw [show o = leafOutcome s.id? c o' from hres (o, u) hr.symm,
      hassigned.of_mem hs hkind (List.mem_append_right _ List.mem_cons_self)]
    exact .same

/-- **Every step ends as was foreseen**, whatever order its branches take and whatever is replayed. -/
theorem walk_foreseen (s : Step) : HasForesight pace x σ s := by
  refine Step.treeInduction (P := HasForesight pace x σ)
    (Q := fun steps =>
      (∀ {path : StepPath} {b : Branch} {i : Nat} {c : Context} {t u : Clock} {ds : List Deed}
        {o : Outcome}, Assigned σ ds → Truthful x σ ds →
        Fiber.Course pace t (x.walkList steps (path, b) i c) ds (some (o, u)) →
        o = x.foreseeList σ steps (path, b) i c) ∧
      ∀ {path : StepPath} {i : Nat} {c : Context} {t u : Clock} {ds : List Deed} {os : List Outcome},
        Assigned σ ds → Truthful x σ ds →
        Fiber.Courses pace t (x.walkBranches steps path i c) ds (some (os, u)) →
        List.Forall₂ (Like x) os (x.foreseeBranches σ steps path i c))
    (fun s => leaf_foreseen) ?condition ?parallel ?foreign ?nil ?cons s
  case condition =>
    intro id predicate whenTrue whenFalse ih path c t u ds o _ hassigned htruthful h
    rw [foresee_condition]
    rcases walk_condition_course h with ⟨f, hholds, hend⟩ | ⟨b, hholds, hturn⟩
    · rw [concluded_outcome hend, hholds]
      exact .same
    · cases hturn with
      | both hlist hend =>
        rw [concluded_outcome hend, hholds,
          (ih b).1 hassigned.of_append.1 htruthful.of_append.1 hlist]
        exact .same
  case parallel =>
    intro id branches ih path c t u ds o _ hassigned htruthful h
    rw [foresee_parallel]
    cases walk_parallel_course h with
    | both inner rest =>
      rw [concluded_outcome rest,
        gather_like (ih.2 hassigned.of_append.1 htruthful.of_append.1 inner)]
      exact .same
  case foreign =>
    intro call agent path c t u ds o _ _ _ h
    rw [walk_foreign] at h
    rw [concluded_outcome h, foresee_foreign]
    exact .same
  case nil =>
    refine ⟨fun {path b i c t u ds o} _ _ h => ?_, fun {path i c t u ds os} _ _ h => ?_⟩
    · rw [walkList_nil] at h
      rw [foreseeList_nil]
      exact (Prod.mk.inj (h.of_done.2 _ rfl)).1
    · rw [walkBranches_nil] at h
      rw [foreseeBranches_nil]
      cases h
      exact .nil
  case cons =>
    intro s rest hs hrest
    refine ⟨fun {path b i c t u ds o} hassigned htruthful h => ?_,
      fun {path i c t u ds os} hassigned htruthful h => ?_⟩
    · rw [foreseeList_cons]
      cases walkList_course h with
      | failed hwalk hguarded hr =>
        rw [(hs (StepPath.kind?_child ..) hassigned htruthful hwalk).guarded] at hguarded
        rw [hguarded]
        exact (Prod.mk.inj (hr _ rfl)).1
      | goesOn hwalk hguarded hnext =>
        rw [(hs (StepPath.kind?_child ..) hassigned.of_append.1 htruthful.of_append.1
          hwalk).guarded] at hguarded
        rw [hguarded]
        exact hrest.1 hassigned.of_append.2 htruthful.of_append.2 hnext
    · rw [walkBranches_cons] at h
      rw [foreseeBranches_cons]
      -- branches are interleaved, but what is assigned to places does not depend on the order
      obtain ⟨o, os', t₁, t₂, es, gs, rfl, -, first, others, hfs⟩ := h.of_cons
      have hassigned := hassigned.of_interleaved hfs
      have htruthful := htruthful.of_interleaved hfs
      exact .cons (hs (StepPath.kind?_child ..) hassigned.1 htruthful.1 first)
        (hrest.2 hassigned.2 htruthful.2 others)

/-! ### Plain data -/

/-- An outcome of plain data, unless it is an error. -/
def Plain (o : Outcome) : Prop :=
  ∀ r, o = .ok r → r.context.IsData ∧ r.output.isData = true

theorem Plain.ok {c : Context} {output : Value} (hc : c.IsData) (ho : output.isData = true) :
    Plain (.ok ⟨c, output⟩) := by
  intro r hr
  rw [← Except.ok.inj hr]
  exact ⟨hc, ho⟩

theorem Plain.error (f : Fault) : Plain (.error f) := fun _ hr => absurd hr (by simp)

theorem Plain.guarded {o : Outcome} (h : Plain o) {c : Context} (hc : c.IsData) (s : Step) (i : Int) :
    Plain (x.guarded s i c o) := by
  cases o with
  | ok r => exact h
  | error f =>
    simp only [Execution.guarded]
    split
    · exact .ok (hc.recordFault ..) rfl
    · exact .error f

theorem Plain.chosen {o : Outcome} (h : Plain o) (b : Bool) : Plain (chosen b o) := by
  cases o with
  | ok r => exact .ok (h r rfl).1 rfl
  | error f => exact .error f

theorem mergeBranches_isData {os : List Outcome} (hos : ∀ o ∈ os, Plain o) :
    ∀ {i : Nat} {c : Context} {results : List Value}, c.IsData → Value.allData results = true →
      (mergeBranches i os c results).1.IsData
        ∧ Value.allData (mergeBranches i os c results).2 = true := by
  induction os with
  | nil => exact fun hc hresults => ⟨hc, hresults⟩
  | cons o rest ih =>
    intro i c results hc hresults
    have hrest := fun o ho => hos o (.tail _ ho)
    cases o with
    | ok r =>
      obtain ⟨hcontext, houtput⟩ := hos _ List.mem_cons_self r rfl
      exact ih hrest (hc.merge hcontext)
        (by simp [Value.allData_append, Value.allData, hresults, houtput])
    | error f =>
      exact ih hrest (hc.recordFault ..)
        (by simp [Value.allData_append, Value.allData, Value.isData, hresults])

theorem Plain.gather {os : List Outcome} (hos : ∀ o ∈ os, Plain o) {c : Context} (hc : c.IsData)
    (id : Option String) : Plain (x.gather id c os) := by
  unfold Execution.gather
  split
  · exact .error _
  · obtain ⟨hcontext, hresults⟩ := @mergeBranches_isData os hos 0 c [] hc rfl
    have houtput : (Value.object [("results", .list (mergeBranches 0 os c []).2)]).isData = true := by
      simp [Value.isData, Value.allFieldsData, hresults]
    exact .ok (hcontext.recordOutput id houtput) houtput

/-- **Plain data stays plain data.** -/
theorem foresee_plain (hσ : ∀ q v, σ q = .ok v → v.isData = true) (s : Step) :
    ∀ {path : StepPath} {c : Context}, c.IsData → Plain (x.foresee σ s path c) := by
  refine Step.treeInduction
    (P := fun s => ∀ {path : StepPath} {c : Context}, c.IsData → Plain (x.foresee σ s path c))
    (Q := fun steps =>
      (∀ {path : StepPath} {b : Branch} {i : Nat} {c : Context}, c.IsData →
        Plain (x.foreseeList σ steps (path, b) i c)) ∧
      ∀ {path : StepPath} {i : Nat} {c : Context}, c.IsData →
        ∀ o ∈ x.foreseeBranches σ steps path i c, Plain o)
    ?leaf ?condition ?parallel ?foreign ?nil ?cons s
  case leaf =>
    intro s hs path c hc
    rw [foresee_of_isLeaf hs]
    cases ho : σ path with
    | ok v => exact .ok (hc.recordOutput _ (hσ path v ho)) (hσ path v ho)
    | error f => exact .error f
  case condition =>
    intro id predicate whenTrue whenFalse ih path c hc
    rw [foresee_condition]
    split
    · exact .error _
    · exact ((ih _).1 hc).chosen _
  -- branches start from a copy of the context, and what they record is gathered
  case parallel =>
    intro id branches ih path c hc
    rw [foresee_parallel]
    exact .gather (ih.2 hc.fork) hc id
  case foreign =>
    intro call agent path c _
    rw [foresee_foreign]
    exact .error _
  case nil =>
    refine ⟨fun {path b i c} hc => ?_, fun {path i c} _ => ?_⟩
    · rw [foreseeList_nil]
      exact .ok hc rfl
    · rw [foreseeBranches_nil]
      simp
  case cons =>
    intro s rest hs hrest
    refine ⟨fun {path b i c} hc => ?_, fun {path i c} hc => ?_⟩
    · rw [foreseeList_cons]
      split
      · next r hr => exact hrest.1 ((hs hc).guarded hc s i r hr).1
      · exact .error _
    · rw [foreseeBranches_cons]
      intro o ho
      rcases List.mem_cons.mp ho with rfl | ho
      · exact hs hc
      · exact hrest.2 hc o ho

end Execution

end Runbook
