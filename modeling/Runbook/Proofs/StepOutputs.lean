import Runbook.Proofs.DistinctIds
import Runbook.Proofs.Failures
import Runbook.Proofs.Growth

/-!
# `Proofs.StepOutputs` — outputs under the ids of their steps

A context keeps outputs under the ids of the steps that gave them. A leaf and a parallel step record their
outputs themselves; a condition records none. The first output under an id stays, a branch works on a fork
that has all outputs so far, and a merge takes over what the fork has in addition. Where the ids of the
steps are pairwise distinct none of this ever has to choose: a step adds one entry for each leaf and each
parallel step inside it that has succeeded, and nothing else.

## Contents
- **Ends.** `endOf`, how a step has ended as far as deeds tell.
- **Entries.** `Step.records`, and `Step.entries`, the outputs of the steps inside a step under their ids.
- **Contexts.** `Context.Lacks`, and what recording and merging make of outputs under new ids.
- **The walk.** `Execution.AddsEntries`, what a step adds to the outputs, and `walk_entries`, by induction on
  the tree of steps.
- **Recording.** `Execution.Records`, where an output is recorded, and `walk_findsFree`: there is none under
  its id, in whatever is done for a step.
-/

namespace Runbook

/-! ## Ends -/

/-- How the journal says that a step has ended, when it is asked. -/
def Deed.replayed? : Deed → Option (Except Fault Value)
  | ⟨_, .recall _, found, _, _⟩ => JournalEntry.replay? found
  | _ => none

/-- **How a step has ended**, as far as deeds tell: as it has reported, or, if it has reported nothing, as the
    journal has said when it was asked first. -/
def endOf (q : StepPath) (ds : List Deed) : Option (Except Fault Value) :=
  ((reports (deedsFor q ds)).head?.map Report.outcome).or ((deedsFor q ds).head?.bind Deed.replayed?)

theorem endOf_congr {q : StepPath} {ds es : List Deed} (h : deedsFor q ds = deedsFor q es) :
    endOf q ds = endOf q es := by rw [endOf, endOf, h]

theorem endOf_eq_none {q : StepPath} {ds : List Deed} (h : deedsFor q ds = []) : endOf q ds = none := by
  rw [endOf, h]
  rfl

/-- A step that has reported. -/
theorem endOf_of_reports {q : StepPath} {ds : List Deed} {r : Report}
    (h : reports (deedsFor q ds) = [r]) : endOf q ds = some r.outcome := by
  rw [endOf, h]
  rfl

/-! ## Entries -/

/-- Whether the output of a step is recorded under its id. -/
def Step.records : Step → Bool
  | .parallel .. => true
  | s => s.isLeaf

/-- The entry of a step itself. -/
def ownEntry (ds : List Deed) (id : Option String) (path : StepPath) : Keyed Value :=
  match id, endOf path ds with
  | some id, some (.ok output) => [(id, output)]
  | _, _ => []

mutual
/-- **The entries of a step**: the outputs with which the steps inside it have ended, under their ids. -/
def Step.entries (ds : List Deed) : Step → StepPath → Keyed Value
  | .condition _ _ whenTrue whenFalse, path =>
    entriesIn ds path .whenTrue 0 whenTrue
      ++ (match whenFalse with
        | some steps => entriesIn ds path .whenFalse 0 steps
        | none => [])
  | .parallel id branches, path => entriesIn ds path .parallel 0 branches ++ ownEntry ds id path
  | .agent call _, path => ownEntry ds call.id path
  | .worker call _ _, path => ownEntry ds call.id path
  | .workflow call _, path => ownEntry ds call.id path
  | .hook h, path => ownEntry ds h.id path
  | .sleep id _, path => ownEntry ds id path
  | .foreign _ _, _ => []

/-- The entries of the steps in a list of a step, from an index on. -/
def entriesIn (ds : List Deed) (path : StepPath) (b : Branch) : Nat → List Step → Keyed Value
  | _, [] => []
  | i, s :: rest => s.entries ds (path.child b i s.kind) ++ entriesIn ds path b (i + 1) rest
end

section

variable {ds es : List Deed} {path q : StepPath} {b : Branch} {i : Nat} {s : Step} {rest steps : List Step}

@[simp] theorem entriesIn_nil : entriesIn ds path b i [] = [] := by rw [entriesIn]

@[simp] theorem entriesIn_cons :
    entriesIn ds path b i (s :: rest)
      = s.entries ds (path.child b i s.kind) ++ entriesIn ds path b (i + 1) rest := by rw [entriesIn]

theorem Step.entries_condition {id : Option String} {predicate : Predicate} {whenTrue : List Step}
    {whenFalse : Option (List Step)} :
    (Step.condition id predicate whenTrue whenFalse).entries ds path
      = entriesIn ds path .whenTrue 0 whenTrue ++ entriesIn ds path .whenFalse 0 (whenFalse.getD []) := by
  cases whenFalse <;> simp [Step.entries]

theorem Step.entries_parallel {id : Option String} {branches : List Step} :
    (Step.parallel id branches).entries ds path
      = entriesIn ds path .parallel 0 branches ++ ownEntry ds id path := by rw [Step.entries]

/-- A leaf has no entry but its own. -/
theorem Step.entries_of_isLeaf (hs : s.isLeaf = true) : s.entries ds path = ownEntry ds s.id? path := by
  cases s with
  | condition | parallel | foreign => exact absurd hs (by simp [isLeaf])
  | _ => rw [Step.entries]; rfl

theorem mem_ownEntry {id : Option String} {entry : String × Value} :
    entry ∈ ownEntry ds id path ↔ id = some entry.1 ∧ endOf path ds = some (.ok entry.2) := by
  obtain ⟨k, v⟩ := entry
  unfold ownEntry
  split
  · next id' output hend =>
    rw [List.mem_singleton, hend, Prod.mk.injEq]
    simp only [Option.some.injEq, Except.ok.injEq]
    exact ⟨fun ⟨h₁, h₂⟩ => ⟨h₁.symm, h₂.symm⟩, fun ⟨h₁, h₂⟩ => ⟨h₁.symm, h₂.symm⟩⟩
  · next hnone =>
    refine ⟨fun h => absurd h List.not_mem_nil, fun ⟨hid, hend⟩ => ?_⟩
    exact absurd hend (hnone k v hid)

theorem ownEntry_of_ok {id : Option String} {output : Value} (h : endOf path ds = some (.ok output)) :
    ownEntry ds id path = id.toList.map fun id => (id, output) := by
  unfold ownEntry
  rw [h]
  cases id <;> rfl

theorem ownEntry_of_error {id : Option String} {f : Fault} (h : endOf path ds = some (.error f)) :
    ownEntry ds id path = [] := by
  unfold ownEntry
  rw [h]
  cases id <;> rfl

theorem keys_ownEntry (id : Option String) : (ownEntry ds id path).keys.Sublist id.toList := by
  unfold ownEntry
  split
  · exact .refl _
  · exact List.nil_sublist _

theorem listSites_cons {s' : Step} :
    listSites path b i (s :: rest) q s'
      ↔ s.Inside (path.child b i s.kind) q s' ∨ listSites path b (i + 1) rest q s' := by
  refine ⟨fun ⟨j, s₀, hj, hinside⟩ => ?_, fun h => h.elim listSites_head listSites_tail⟩
  cases j with
  | zero =>
    obtain rfl := Option.some.inj hj
    exact .inl hinside
  | succ j => exact .inr ⟨j, s₀, hj, by rwa [show i + 1 + j = i + (j + 1) by omega]⟩

/-- What is inside a step is the step itself, or inside one of its lists. -/
theorem Step.inside_iff {s' : Step} :
    s.Inside path q s' ↔ (q = path ∧ s' = s) ∨ ∃ b, listSites path b 0 (s.listOf b) q s' := by
  constructor
  · rintro ⟨inner, rfl, hhas⟩
    cases hhas with
    | here => exact .inl ⟨List.append_nil path, rfl⟩
    | @inside _ s₀ _ b j inner hj hhas =>
      refine .inr ⟨b, j, s₀, hj, inner, ?_, hhas⟩
      rw [Nat.zero_add, StepPath.child, List.append_assoc]
      rfl
  · rintro (⟨rfl, rfl⟩ | ⟨b, h⟩)
    · exact ⟨[], (List.append_nil q).symm, .here⟩
    · exact listSites_inside h

/-- Nothing is inside a leaf but the leaf. -/
theorem Step.inside_of_isLeaf (hs : s.isLeaf = true) {s' : Step} :
    s.Inside path q s' ↔ q = path ∧ s' = s := by
  rw [inside_iff]
  refine ⟨fun h => h.resolve_right ?_, .inl⟩
  rintro ⟨b, j, s₀, hj, -⟩
  cases s with
  | condition | parallel | foreign => exact absurd hs (by simp [isLeaf])
  | _ => simp [listOf] at hj

/-- **An entry of a step** that stands at one of some places, records its output, and has succeeded. -/
def IsEntry (ds : List Deed) (S : Sites) (entry : String × Value) : Prop :=
  ∃ q s, S q s ∧ s.records = true ∧ s.id? = some entry.1 ∧ endOf q ds = some (.ok entry.2)

theorem IsEntry.mono {S T : Sites} {entry : String × Value} (h : IsEntry ds S entry)
    (hST : ∀ q s, S q s → T q s) : IsEntry ds T entry := by
  obtain ⟨q, s, hs, hentry⟩ := h
  exact ⟨q, s, hST q s hs, hentry⟩

/-- What a step records itself. -/
theorem mem_ownEntry_iff {entry : String × Value} (hs : s.records = true) :
    entry ∈ ownEntry ds s.id? path ↔ IsEntry ds (fun q s' => q = path ∧ s' = s) entry := by
  rw [mem_ownEntry]
  constructor
  · rintro ⟨hid, hend⟩
    exact ⟨path, s, ⟨rfl, rfl⟩, hs, hid, hend⟩
  · rintro ⟨q, s', ⟨rfl, rfl⟩, -, hid, hend⟩
    exact ⟨hid, hend⟩

theorem Step.holdsSteps_of_isLeaf (hs : s.isLeaf = true) : s.holdsSteps = false := by
  cases s with
  | condition | parallel => exact absurd hs (by simp [isLeaf])
  | _ => rfl

theorem Step.records_of_isLeaf (hs : s.isLeaf = true) : s.records = true := by
  cases s with
  | parallel => rfl
  | _ => exact hs

/-- **Which entries a step has**: one for each step inside it that records its output and has succeeded. -/
theorem mem_entries (s : Step) : ∀ {path : StepPath} {entry : String × Value},
    entry ∈ s.entries ds path ↔ IsEntry ds (s.Inside path) entry := by
  refine Step.treeInduction
    (P := fun s => ∀ {path : StepPath} {entry : String × Value},
      entry ∈ s.entries ds path ↔ IsEntry ds (s.Inside path) entry)
    (Q := fun steps => ∀ {path : StepPath} {b : Branch} {i : Nat} {entry : String × Value},
      entry ∈ entriesIn ds path b i steps ↔ IsEntry ds (listSites path b i steps) entry)
    ?leaf ?condition ?parallel ?foreign ?nil ?cons s
  case leaf =>
    intro s hs path entry
    rw [Step.entries_of_isLeaf hs, mem_ownEntry_iff (Step.records_of_isLeaf hs)]
    exact ⟨fun h => h.mono fun q s' => (Step.inside_of_isLeaf hs).mpr,
      fun h => h.mono fun q s' => (Step.inside_of_isLeaf hs).mp⟩
  case condition =>
    intro id predicate whenTrue whenFalse ih path entry
    have htrue : entry ∈ entriesIn ds path .whenTrue 0 whenTrue
        ↔ IsEntry ds (listSites path .whenTrue 0 whenTrue) entry := ih true
    have hfalse : entry ∈ entriesIn ds path .whenFalse 0 (whenFalse.getD [])
        ↔ IsEntry ds (listSites path .whenFalse 0 (whenFalse.getD [])) entry := ih false
    rw [Step.entries_condition, List.mem_append, htrue, hfalse]
    constructor
    · rintro (h | h)
      · exact h.mono fun q s' hs' => Step.inside_iff.mpr (.inr ⟨.whenTrue, hs'⟩)
      · exact h.mono fun q s' hs' => Step.inside_iff.mpr (.inr ⟨.whenFalse, hs'⟩)
    · rintro ⟨q, s', hinside, hrecords, hmore⟩
      rcases Step.inside_iff.mp hinside with ⟨-, rfl⟩ | ⟨b, hlist⟩
      · exact absurd hrecords (by simp [Step.records, Step.isLeaf])
      · cases b with
        | whenTrue => exact .inl ⟨q, s', hlist, hrecords, hmore⟩
        | whenFalse => exact .inr ⟨q, s', hlist, hrecords, hmore⟩
        | parallel =>
          obtain ⟨j, s₀, hj, -⟩ := hlist
          simp [Step.listOf] at hj
  case parallel =>
    -- besides the entries of its branches there is its own
    intro id branches ih path entry
    have hown : entry ∈ ownEntry ds id path
        ↔ IsEntry ds (fun q s' => q = path ∧ s' = .parallel id branches) entry :=
      mem_ownEntry_iff (s := .parallel id branches) rfl
    rw [Step.entries_parallel, List.mem_append, ih, hown]
    constructor
    · rintro (h | h)
      · exact h.mono fun q s' hs' => Step.inside_iff.mpr (.inr ⟨.parallel, hs'⟩)
      · exact h.mono fun q s' hs' => Step.inside_iff.mpr (.inl hs')
    · rintro ⟨q, s', hinside, hmore⟩
      rcases Step.inside_iff.mp hinside with hs' | ⟨b, hlist⟩
      · exact .inr ⟨q, s', hs', hmore⟩
      · cases b with
        | parallel => exact .inl ⟨q, s', hlist, hmore⟩
        | whenTrue | whenFalse =>
          obtain ⟨j, s₀, hj, -⟩ := hlist
          simp [Step.listOf] at hj
  case foreign =>
    intro call agent path entry
    rw [Step.entries]
    refine ⟨fun h => absurd h List.not_mem_nil, ?_⟩
    rintro ⟨q, s', hinside, hrecords, -⟩
    rcases Step.inside_iff.mp hinside with ⟨-, rfl⟩ | ⟨b, j, s₀, hj, -⟩
    · exact absurd hrecords (by simp [Step.records, Step.isLeaf])
    · simp [Step.listOf] at hj
  case nil =>
    intro path b i entry
    rw [entriesIn_nil]
    refine ⟨fun h => absurd h List.not_mem_nil, ?_⟩
    rintro ⟨q, s', ⟨j, s₀, hj, -⟩, -⟩
    simp at hj
  case cons =>
    intro s rest hs hrest path b i entry
    rw [entriesIn_cons, List.mem_append, hs, hrest]
    constructor
    · rintro (h | h)
      · exact h.mono fun _ _ => listSites_head
      · exact h.mono fun _ _ => listSites_tail
    · rintro ⟨q, s', hlist, hmore⟩
      exact (listSites_cons.mp hlist).imp (fun h => ⟨q, s', h, hmore⟩) fun h => ⟨q, s', h, hmore⟩

/-- Where no step inside has ended there are no entries. -/
theorem entries_eq_nil (h : ∀ q s', s.Inside path q s' → endOf q ds = none) :
    s.entries ds path = [] := by
  refine List.eq_nil_iff_forall_not_mem.mpr fun entry hentry => ?_
  obtain ⟨q, s', hinside, -, -, hend⟩ := (mem_entries s).mp hentry
  exact absurd (hend.symm.trans (h q s' hinside)) (by simp)

theorem entriesIn_eq_nil (h : ∀ q s', listSites path b i steps q s' → endOf q ds = none) :
    entriesIn ds path b i steps = [] := by
  induction steps generalizing i with
  | nil => exact entriesIn_nil
  | cons s rest ih =>
    rw [entriesIn_cons, entries_eq_nil fun q s' hs => h q s' (listSites_head hs),
      ih fun q s' hs => h q s' (listSites_tail hs)]
    rfl

/-- Entries depend only on how the steps inside have ended. -/
theorem entries_congr (s : Step) : ∀ path : StepPath,
    (∀ q s', s.Inside path q s' → endOf q ds = endOf q es) → s.entries ds path = s.entries es path := by
  have hown {id : Option String} {path : StepPath} (h : endOf path ds = endOf path es) :
      ownEntry ds id path = ownEntry es id path := by
    unfold ownEntry
    rw [h]
  have hhere {s : Step} {path : StepPath}
      (h : ∀ q s', s.Inside path q s' → endOf q ds = endOf q es) : endOf path ds = endOf path es :=
    h path s (Step.inside_iff.mpr (.inl ⟨rfl, rfl⟩))
  -- each list is asked only about the steps that it holds
  refine Step.treeInduction
    (P := fun s => ∀ path : StepPath, (∀ q s', s.Inside path q s' → endOf q ds = endOf q es) →
      s.entries ds path = s.entries es path)
    (Q := fun steps => ∀ (path : StepPath) (b : Branch) (i : Nat),
      (∀ q s', listSites path b i steps q s' → endOf q ds = endOf q es) →
      entriesIn ds path b i steps = entriesIn es path b i steps)
    ?leaf ?condition ?parallel ?foreign ?nil ?cons s
  case leaf =>
    intro s hs path h
    rw [Step.entries_of_isLeaf hs, Step.entries_of_isLeaf hs, hown (hhere h)]
  case condition =>
    intro id predicate whenTrue whenFalse ih path h
    have htrue : entriesIn ds path .whenTrue 0 whenTrue = entriesIn es path .whenTrue 0 whenTrue :=
      ih true _ _ _ fun q s' hs => h q s' (Step.inside_iff.mpr (.inr ⟨.whenTrue, hs⟩))
    have hfalse : entriesIn ds path .whenFalse 0 (whenFalse.getD [])
        = entriesIn es path .whenFalse 0 (whenFalse.getD []) :=
      ih false _ _ _ fun q s' hs => h q s' (Step.inside_iff.mpr (.inr ⟨.whenFalse, hs⟩))
    rw [Step.entries_condition, Step.entries_condition, htrue, hfalse]
  case parallel =>
    intro id branches ih path h
    have hbranches : entriesIn ds path .parallel 0 branches = entriesIn es path .parallel 0 branches :=
      ih _ _ _ fun q s' hs => h q s' (Step.inside_iff.mpr (.inr ⟨.parallel, hs⟩))
    rw [Step.entries_parallel, Step.entries_parallel, hbranches, hown (hhere h)]
  case foreign =>
    intro call agent path _
    rw [Step.entries, Step.entries]
  case nil =>
    intro path b i _
    rw [entriesIn_nil, entriesIn_nil]
  case cons =>
    intro s rest hs hrest path b i h
    rw [entriesIn_cons, entriesIn_cons, hs _ fun q s' hs => h q s' (listSites_head hs),
      hrest _ _ _ fun q s' hs => h q s' (listSites_tail hs)]

theorem entriesIn_congr (h : ∀ q s', listSites path b i steps q s' → endOf q ds = endOf q es) :
    entriesIn ds path b i steps = entriesIn es path b i steps := by
  induction steps generalizing i with
  | nil => rw [entriesIn_nil, entriesIn_nil]
  | cons s rest ih =>
    rw [entriesIn_cons, entriesIn_cons, entries_congr s _ fun q s' hs => h q s' (listSites_head hs),
      ih fun q s' hs => h q s' (listSites_tail hs)]

theorem Keyed.keys_append {α : Type} (m m' : Keyed α) : (m ++ m').keys = m.keys ++ m'.keys :=
  List.map_append ..

/-- The keys of the entries are ids of the steps, each once at most. -/
theorem keys_entries (s : Step) : ∀ {path : StepPath}, (s.entries ds path).keys.Sublist s.ids := by
  refine Step.treeInduction
    (P := fun s => ∀ {path : StepPath}, (s.entries ds path).keys.Sublist s.ids)
    (Q := fun steps => ∀ {path : StepPath} {b : Branch} {i : Nat},
      (entriesIn ds path b i steps).keys.Sublist (stepIds steps))
    ?leaf ?condition ?parallel ?foreign ?nil ?cons s
  case leaf =>
    intro s hs path
    rw [Step.entries_of_isLeaf hs, Step.ids_of_not_holdsSteps (Step.holdsSteps_of_isLeaf hs)]
    exact keys_ownEntry s.id?
  case condition =>
    intro id predicate whenTrue whenFalse ih path
    rw [Step.entries_condition, Keyed.keys_append, Step.ids_condition]
    exact ((ih true).append (ih false)).trans (List.sublist_append_left _ _)
  case parallel =>
    intro id branches ih path
    rw [Step.entries_parallel, Keyed.keys_append, Step.ids_parallel]
    exact ih.append (keys_ownEntry id)
  case foreign =>
    intro call agent path
    rw [Step.entries]
    exact List.nil_sublist _
  case nil =>
    intro path b i
    rw [entriesIn_nil]
    exact List.nil_sublist _
  case cons =>
    intro s rest hs hrest path b i
    rw [entriesIn_cons, Keyed.keys_append, stepIds_cons]
    exact hs.append hrest

theorem keys_entriesIn : (entriesIn ds path b i steps).keys.Sublist (stepIds steps) := by
  induction steps generalizing i with
  | nil =>
    rw [entriesIn_nil]
    exact List.nil_sublist _
  | cons s rest ih =>
    rw [entriesIn_cons, Keyed.keys_append, stepIds_cons]
    exact (keys_entries s).append ih

end

/-! ## Contexts -/

namespace Context

variable {c c₀ branch : Context} {ids ids' : List String}

/-- **A context without outputs** under some ids. -/
def Lacks (c : Context) (ids : List String) : Prop := ∀ id ∈ ids, id ∉ c.steps.keys

theorem Lacks.mono (h : c.Lacks ids) (hids : ids' ⊆ ids) : c.Lacks ids' := fun id hid =>
  h id (hids hid)

/-- A fork has no outputs of its own. -/
theorem Lacks.fork (h : c.Lacks ids) : c.fork.Lacks ids := h

/-- What is added under other ids does not matter. -/
theorem Lacks.of_steps_append {L : Keyed Value} (h : c.Lacks ids) (hc₀ : c₀.steps = c.steps ++ L)
    (hL : ∀ id ∈ ids, id ∉ L.keys) : c₀.Lacks ids := by
  intro id hid hmem
  rw [hc₀, Keyed.keys_append, List.mem_append] at hmem
  exact hmem.elim (h id hid) (hL id hid)

/-- Recording an output under a new id. -/
theorem steps_recordOutput {id : Option String} (output : Value) (h : c.Lacks id.toList) :
    (c.recordOutput id output).steps = c.steps ++ id.toList.map fun id => (id, output) := by
  cases id with
  | none => simp [recordOutput]
  | some id =>
    have hnew : c.steps.has id = false :=
      Bool.eq_false_iff.mpr fun hhas => h id (by simp) ((Keyed.mem_keys_iff ..).mpr hhas)
    simp [recordOutput, hnew]

/-- Outputs that are there already are not taken over. -/
theorem addMissing_of_subset {steps entries : Keyed Value} (h : entries.keys ⊆ steps.keys) :
    addMissing steps entries = steps := by
  unfold addMissing
  induction entries with
  | nil => rfl
  | cons entry rest ih =>
    obtain ⟨id, output⟩ := entry
    have hhas : steps.has id = true := (Keyed.mem_keys_iff ..).mp (h List.mem_cons_self)
    rw [List.foldl_cons]
    dsimp only
    rw [if_pos hhas]
    exact ih fun key hkey => h (.tail _ hkey)

/-- Outputs under new ids are taken over in order. -/
theorem addMissing_of_new {steps entries : Keyed Value} (h : ∀ key ∈ entries.keys, key ∉ steps.keys)
    (hnodup : entries.keys.Nodup) : addMissing steps entries = steps ++ entries := by
  unfold addMissing
  induction entries generalizing steps with
  | nil => rw [List.foldl_nil, List.append_nil]
  | cons entry rest ih =>
    obtain ⟨id, output⟩ := entry
    obtain ⟨hentry, hrest⟩ := List.nodup_cons.mp hnodup
    have hnew : ¬ steps.has id = true := fun hhas =>
      h id List.mem_cons_self ((Keyed.mem_keys_iff ..).mpr hhas)
    rw [List.foldl_cons]
    dsimp only
    rw [if_neg hnew, ih (fun key hkey hmem => ?_) hrest, List.append_assoc]
    · rfl
    · rw [Keyed.keys_append, List.mem_append] at hmem
      rcases hmem with hmem | hmem
      · exact h key (.tail _ hkey) hmem
      · obtain rfl := List.mem_singleton.mp hmem
        exact hentry hkey

/-- **A fork that is merged** brings what it has in addition, if that stands under new ids. -/
theorem steps_merge {L : Keyed Value} (hbranch : branch.steps = c.steps ++ L)
    (hold : c.steps.keys ⊆ c₀.steps.keys) (hnew : c₀.Lacks L.keys) (hnodup : L.keys.Nodup) :
    (c₀.merge branch).steps = c₀.steps ++ L := by
  have hfold : addMissing c₀.steps (c.steps ++ L) = addMissing (addMissing c₀.steps c.steps) L :=
    List.foldl_append ..
  rw [merge, hbranch, hfold, addMissing_of_subset hold, addMissing_of_new hnew hnodup]

end Context

/-! ## The walk -/

section

variable {pace : Clock → Clock → Prop} {x : Execution} {S : Sites} {e : Prop} {q path : StepPath}
  {b b' : Branch} {i i' : Nat} {s s₁ s₂ : Step} {rest steps steps' : List Step} {ds es fs : List Deed}

/-- Where no step stands nothing is done. -/
theorem Layout.deedsFor_eq_nil (h : Layout pace x S e ds) (hq : ∀ s, ¬ S q s) : deedsFor q ds = [] :=
  Runbook.deedsFor_eq_nil fun d hd hstep => by
    obtain ⟨s, hs⟩ := h.site hd hstep
    exact hq s hs

theorem endOf_append_left (h : deedsFor q es = []) : endOf q (ds ++ es) = endOf q ds :=
  endOf_congr (by rw [deedsFor_append, h, List.append_nil])

theorem endOf_append_right (h : deedsFor q ds = []) : endOf q (ds ++ es) = endOf q es :=
  endOf_congr (by rw [deedsFor_append, h, List.nil_append])

theorem endOf_interleaved_left (hfs : Interleaved ds es fs) (h : deedsFor q es = []) :
    endOf q fs = endOf q ds := by
  have hq : Interleaved (deedsFor q ds) (deedsFor q es) (deedsFor q fs) := hfs.filter _
  rw [h] at hq
  exact endOf_congr hq.eq_of_nil_right

/-- Different lists of a step have no step in common. -/
theorem listSites_branch (h : listSites path b i steps q s₁) (h' : listSites path b' i' steps' q s₂) :
    b = b' := by
  obtain ⟨j, s, -, inner, hq, -⟩ := h
  obtain ⟨j', s', -, inner', hq', -⟩ := h'
  rw [hq, StepPath.child, StepPath.child, List.append_assoc, List.append_assoc] at hq'
  have hplace := List.append_cancel_left hq'
  simp only [List.cons_append, List.nil_append, List.cons.injEq, Place.mk.injEq,
    Option.some.injEq] at hplace
  exact hplace.1.1

end

namespace Execution

variable {pace : Clock → Clock → Prop} {x : Execution} {path : StepPath} {c : Context}
  {ds : List Deed} {t u : Clock} {o : Outcome} {L : Keyed Value} {s : Step}

/-- **What a step adds to the outputs**: its entries, if it succeeds; and if it fails, and the plan goes on
    after it, it has none. -/
structure AddsEntries (x : Execution) (L : Keyed Value) (c : Context) (o : Outcome) : Prop where
  ok : ∀ fin, o = .ok fin → fin.context.steps = c.steps ++ L
  failed : ∀ f, o = .error f → x.plan.stopsOn f = false → L = []

/-- A step of a list, after which the list goes on. -/
theorem AddsEntries.guarded {i : Int} {r : Finished} (h : x.AddsEntries L c o)
    (hguarded : x.guarded s i c o = .ok r) : r.context.steps = c.steps ++ L := by
  cases o with
  | ok fin =>
    obtain rfl : fin = r := Except.ok.inj hguarded
    exact h.ok fin rfl
  | error f =>
    rw [guarded_error] at hguarded
    split at hguarded
    · exact absurd hguarded (by simp)
    · next hf =>
      rw [← Except.ok.inj hguarded, h.failed f rfl (by simpa using hf), List.append_nil]
      rfl

/-- The ids of the steps that come after a step of a list stay new. -/
theorem AddsEntries.lacks_later {i : Int} {r : Finished} {rest : List Step}
    (h : x.AddsEntries (s.entries ds path) c o) (hguarded : x.guarded s i c o = .ok r)
    (hnodup : (s.ids ++ stepIds rest).Nodup) (hlacks : c.Lacks (s.ids ++ stepIds rest)) :
    r.context.Lacks (stepIds rest) := by
  obtain ⟨-, -, hdisjoint⟩ := List.nodup_append.mp hnodup
  refine (hlacks.mono (List.subset_append_right _ _)).of_steps_append (h.guarded hguarded) ?_
  exact fun id hid hkey => hdisjoint id ((keys_entries s).subset hkey) id hid rfl

/-- A step that has failed so that the plan does not go on. -/
theorem AddsEntries.of_stopsOn {f : Fault} (hf : x.plan.stopsOn f = true) :
    x.AddsEntries L c (.error f) :=
  ⟨fun _ h => absurd h (by simp), fun g h hg => absurd (hf.symm.trans (Except.error.inj h ▸ hg)) (by simp)⟩

/-- A leaf ends as its deeds tell. -/
theorem endOf_leaf (hs : s.isLeaf = true)
    (h : Fiber.Course pace t (x.walk s path c) ds (some (o, u))) :
    endOf path ds = some (o.map Finished.output) := by
  obtain ⟨body, hbody, hcourse⟩ := walk_leaf_course hs h
  have hall : deedsFor path ds = ds := deedsFor_eq_self fun d hd => (hcourse.treeCall hbody d hd).1
  have houtput (o' : Except Fault Value) : (leafOutcome s.id? c o').map Finished.output = o' := by
    cases o' <;> rfl
  rcases hcourse.reports_cases hbody with ⟨hnone, -⟩ | ⟨o', hreports, hres⟩
  · -- a leaf that has not reported is replayed
    cases hcourse with
    | @replayed _ _ _ o' _ hfound hr =>
      obtain rfl : o = leafOutcome s.id? c o' := hr (o, u) rfl
      rw [houtput, endOf, hall, hnone]
      exact hfound
    | reported => simp [Call.report?] at hnone
  · obtain rfl : o = leafOutcome s.id? c o' := hres (o, u) rfl
    rw [houtput]
    exact endOf_of_reports (hall.symm ▸ hreports)

/-- A step that has reported, after what is done inside it. -/
theorem endOf_concluded {id : Option String} {o' : Outcome} {es : List Deed}
    (hds : deedsFor path ds = [])
    (h : Fiber.Course pace t (concluded path id o) es (some (o', u))) :
    endOf path (ds ++ es) = some (o.map Finished.output) := by
  obtain ⟨-, hreports, hsteps⟩ := concluded_ended h
  rw [endOf_append_right hds]
  exact endOf_of_reports (r := ⟨path, id, o.map Finished.output⟩) (by rwa [deedsFor_eq_self hsteps])

/-- What a step adds to the outputs, where its ids are new. -/
def HasEntries (pace : Clock → Clock → Prop) (x : Execution) (s : Step) : Prop :=
  ∀ {path : StepPath} {c : Context} {t u : Clock} {ds : List Deed} {o : Outcome},
    s.ids.Nodup → c.Lacks s.ids → Fiber.Course pace t (x.walk s path c) ds (some (o, u)) →
    x.AddsEntries (s.entries ds path) c o

/-- What steps in a row add to the outputs, and what branches do that are merged into any context with the
    outputs with which they began. -/
def HaveEntries (pace : Clock → Clock → Prop) (x : Execution) (steps : List Step) : Prop :=
  (∀ {path : StepPath} {b : Branch} {i : Nat} {c : Context} {t u : Clock} {ds : List Deed} {o : Outcome},
    (stepIds steps).Nodup → c.Lacks (stepIds steps) →
    Fiber.Course pace t (x.walkList steps (path, b) i c) ds (some (o, u)) →
    x.AddsEntries (entriesIn ds path b i steps) c o) ∧
  ∀ {path : StepPath} {i : Nat} {c : Context} {t u : Clock} {ds : List Deed} {os : List Outcome},
    (stepIds steps).Nodup → c.Lacks (stepIds steps) →
    Fiber.Courses pace t (x.walkBranches steps path i c) ds (some (os, u)) →
    (∀ o ∈ os, ¬ x.plan.Halts o) → ∀ {c₀ : Context} {results : List Value},
      c.steps.keys ⊆ c₀.steps.keys → c₀.Lacks (stepIds steps) →
      (mergeBranches i os c₀ results).1.steps = c₀.steps ++ entriesIn ds path .parallel i steps

/-- A leaf has the entry that it records. -/
theorem leaf_entries (hs : s.isLeaf = true) : HasEntries pace x s := by
  intro path c t u ds o _ hlacks h
  rw [Step.ids_of_not_holdsSteps (Step.holdsSteps_of_isLeaf hs)] at hlacks
  rw [Step.entries_of_isLeaf hs]
  have hend := endOf_leaf hs h
  refine ⟨fun fin ho => ?_, fun f ho _ => ?_⟩
  · subst ho
    rw [leaf_finished hs h, Context.steps_recordOutput _ hlacks, ownEntry_of_ok hend]
  · subst ho
    exact ownEntry_of_error hend

/-- What a step does for itself does not matter to the entries of the steps in its lists. -/
theorem entriesIn_of_own {b : Branch} {steps : List Step} {es : List Deed}
    (hes : ∀ d ∈ es, d.step = some path) :
    entriesIn (ds ++ es) path b 0 steps = entriesIn ds path b 0 steps :=
  entriesIn_congr fun _ _ hs => endOf_append_left <| deedsFor_eq_nil fun d hd hq =>
    listSites_ne hs (Option.some.inj (hq.symm.trans (hes d hd)))

/-- A list of which nothing is done has no entries. -/
theorem entriesIn_of_other {b b' : Branch} {steps steps' : List Step} {ended : Prop}
    (hlayout : Layout pace x (listSites path b 0 steps) ended ds) (hb : b ≠ b') :
    entriesIn ds path b' 0 steps' = [] :=
  entriesIn_eq_nil fun _ _ hs => endOf_eq_none <|
    hlayout.deedsFor_eq_nil fun _ hs' => hb (listSites_branch hs' hs)

theorem condition_entries {id : Option String} {predicate : Predicate} {whenTrue : List Step}
    {whenFalse : Option (List Step)} (ih : ∀ b, HaveEntries pace x (takenSteps b whenTrue whenFalse)) :
    HasEntries pace x (.condition id predicate whenTrue whenFalse) := by
  intro path c t u ds o hnodup hlacks h
  rcases walk_condition_course h with ⟨f, -, hend⟩ | ⟨b, -, hturn⟩
  · obtain ⟨rfl, -, hsteps⟩ := concluded_ended hend
    refine ⟨fun _ h => absurd h (by simp), fun _ _ _ => ?_⟩
    -- nothing has been done inside
    have hnone (b : Branch) (steps : List Step) : entriesIn ([] ++ ds) path b 0 steps = [] := by
      rw [entriesIn_of_own hsteps]
      exact entriesIn_eq_nil fun _ _ _ => rfl
    rw [Step.entries_condition]
    exact List.append_eq_nil_iff.mpr ⟨hnone .whenTrue whenTrue, hnone .whenFalse (whenFalse.getD [])⟩
  · cases hturn with
    | @both o₁ u₁ ds₁ ds₂ _ hlist hend =>
      obtain ⟨rfl, -, hsteps⟩ := concluded_ended hend
      have hids : (stepIds (takenSteps b whenTrue whenFalse)).Sublist
          (Step.condition id predicate whenTrue whenFalse).ids := stepIds_takenSteps_sublist b
      have htaken := (ih b).1 (hnodup.sublist hids) (hlacks.mono hids.subset) hlist
      -- the list that was not chosen has no entries, so the others are those of the condition
      have hentries : (Step.condition id predicate whenTrue whenFalse).entries (ds₁ ++ ds₂) path
          = entriesIn ds₁ path (takenBranch b) 0 (takenSteps b whenTrue whenFalse) := by
        have hother (b' : Branch) (steps : List Step) (hb : takenBranch b ≠ b') :
            entriesIn ds₁ path b' 0 steps = [] :=
          entriesIn_of_other ((steps_layout _).1 hlist) hb
        rw [Step.entries_condition, entriesIn_of_own hsteps, entriesIn_of_own hsteps]
        cases b
        · rw [hother .whenTrue whenTrue (by simp [takenBranch]), List.nil_append]
          rfl
        · rw [hother .whenFalse (whenFalse.getD []) (by simp [takenBranch]), List.append_nil]
          rfl
      rw [hentries]
      refine ⟨fun fin ho => ?_, fun f ho hf => ?_⟩
      · cases o₁ with
        | error f => exact absurd ho (by simp [chosen])
        | ok r =>
          rw [← Except.ok.inj ho]
          exact htaken.ok r rfl
      · cases o₁ with
        | error f' => exact htaken.failed f' rfl (Except.error.inj ho ▸ hf)
        | ok r => exact absurd ho (by simp [chosen])

/-- **Where the branches of a parallel step are merged**, their entries are there, and the id of the step is
    still new. -/
theorem gathered_entries {id : Option String} {branches : List Step} {os : List Outcome}
    (ih : HaveEntries pace x branches) (hnodup : (stepIds branches ++ id.toList).Nodup)
    (hlacks : c.Lacks (stepIds branches ++ id.toList))
    (inner : Fiber.Courses pace t (x.walkBranches branches path 0 c.fork) ds (some (os, u)))
    (hgathered : x.gatheredFault? os = none) :
    (mergeBranches 0 os c []).1.steps = c.steps ++ entriesIn ds path .parallel 0 branches
      ∧ (mergeBranches 0 os c []).1.Lacks id.toList := by
  obtain ⟨hbranches, -, hdisjoint⟩ := List.nodup_append.mp hnodup
  have hnew : c.Lacks (stepIds branches) := hlacks.mono (List.subset_append_left _ _)
  have hmerged : (mergeBranches 0 os c []).1.steps
      = c.steps ++ entriesIn ds path .parallel 0 branches :=
    ih.2 hbranches hnew.fork inner (gatheredFault?_eq_none hgathered) (fun _ h => h) hnew
  refine ⟨hmerged, (hlacks.mono (List.subset_append_right _ _)).of_steps_append hmerged ?_⟩
  exact fun own hid hkey => hdisjoint own (keys_entriesIn.subset hkey) own hid rfl

/-- A parallel step has the entries of its branches, and then its own. -/
theorem parallel_entries {id : Option String} {branches : List Step} (ih : HaveEntries pace x branches) :
    HasEntries pace x (.parallel id branches) := by
  intro path c t u ds o hnodup hlacks h
  rw [Step.ids_parallel] at hnodup hlacks
  cases walk_parallel_course h with
  | @both os _ ds₁ ds₂ _ inner hend =>
    have hown := endOf_concluded
      (((steps_layout branches).2 inner).deedsFor_eq_nil fun s hs => listSites_ne hs rfl) hend
    obtain ⟨rfl, -, hsteps⟩ := concluded_ended hend
    rw [Step.entries_parallel, entriesIn_of_own hsteps]
    rcases x.gather_cases id c os with ⟨f, hf, hgathered⟩ | ⟨-, hgathered⟩
    · rw [hf]
      exact .of_stopsOn (gatheredFault?_eq_some hgathered).1
    · obtain ⟨hmerged, hlast⟩ := gathered_entries ih hnodup hlacks inner hgathered
      have hgather : x.gather id c os = .ok
          ⟨(mergeBranches 0 os c []).1.recordOutput id
            (.object [("results", .list (mergeBranches 0 os c []).2)]),
           .object [("results", .list (mergeBranches 0 os c []).2)]⟩ := by
        unfold gather
        rw [hgathered]
      rw [hgather] at hown ⊢
      refine ⟨fun fin ho => ?_, fun f ho _ => absurd ho (by simp)⟩
      rw [← Except.ok.inj ho, ownEntry_of_ok hown, Context.steps_recordOutput _ hlast, hmerged,
        List.append_assoc]

/-- A list fails only with a failure that keeps its plan from going on. -/
theorem walkList_stops {steps : List Step} {parent : StepPath × Branch} {i : Nat} {f : Fault}
    (h : Fiber.Course pace t (x.walkList steps parent i c) ds (some (.error f, u))) :
    x.plan.stopsOn f = true := by
  induction steps generalizing i c t ds with
  | nil =>
    rw [walkList_nil] at h
    exact absurd (h.of_done.2 _ rfl) (by simp)
  | cons s rest ih =>
    cases walkList_course h with
    | failed _ hguarded hr =>
      obtain rfl := Except.error.inj (Prod.mk.inj (hr _ rfl)).1
      exact (guarded_eq_error hguarded).2
    | goesOn _ _ hnext => exact ih hnext

theorem haveEntries_nil : HaveEntries pace x [] := by
  refine ⟨fun {path b i c t u ds o} _ _ h => ?_, fun {path i c t u ds os} _ _ h _ c₀ results _ _ => ?_⟩
  · rw [walkList_nil] at h
    obtain ⟨rfl, -⟩ := Prod.mk.inj (h.of_done.2 _ rfl)
    refine ⟨fun fin ho => ?_, fun f ho _ => absurd ho (by simp)⟩
    rw [← Except.ok.inj ho, entriesIn_nil, List.append_nil]
  · rw [walkBranches_nil] at h
    cases h
    rw [entriesIn_nil, List.append_nil]
    rfl

/-- Which deeds a list and its first step take part in. -/
theorem entries_interleaved {b : Branch} {i : Nat} {rest : List Step} {es fs : List Deed} {e e' : Prop}
    (h₁ : Layout pace x (s.Inside (path.child b i s.kind)) e ds)
    (h₂ : Layout pace x (listSites path b (i + 1) rest) e' es) (hfs : Interleaved ds es fs) :
    entriesIn fs path b i (s :: rest)
      = s.entries ds (path.child b i s.kind) ++ entriesIn es path b (i + 1) rest := by
  rw [entriesIn_cons]
  congr 1
  · exact entries_congr s _ fun q s' hs => endOf_interleaved_left hfs <|
      h₂.deedsFor_eq_nil fun _ hs' => listSites_disjoint hs hs'
  · exact entriesIn_congr fun q s' hs' => endOf_interleaved_left hfs.symm <|
      h₁.deedsFor_eq_nil fun _ hs => listSites_disjoint hs hs'

theorem haveEntries_cons {rest : List Step} (hs : HasEntries pace x s) (hrest : HaveEntries pace x rest) :
    HaveEntries pace x (s :: rest) := by
  constructor
  · intro path b i c t u ds o hnodup hlacks h
    rw [stepIds_cons] at hnodup hlacks
    obtain ⟨hhead, htail, -⟩ := List.nodup_append.mp hnodup
    have hnew : c.Lacks s.ids := hlacks.mono (List.subset_append_left _ _)
    cases walkList_course h with
    | failed _ hguarded hr =>
      obtain ⟨rfl, -⟩ := Prod.mk.inj (hr _ rfl)
      exact .of_stopsOn (guarded_eq_error hguarded).2
    | @goesOn _ _ _ ds₁ ds₂ _ hwalk hguarded hnext =>
      have hadds := hs hhead hnew hwalk
      have hmore := hrest.1 htail (hadds.lacks_later hguarded hnodup hlacks) hnext
      rw [entries_interleaved (walk_layout s hwalk) ((steps_layout rest).1 hnext) (.append ds₁ ds₂)]
      refine ⟨fun fin ho => ?_, fun f ho hf => ?_⟩
      · rw [hmore.ok fin ho, hadds.guarded hguarded, List.append_assoc]
      · exact absurd (hf.symm.trans (walkList_stops (ho ▸ hnext))) (by simp)
  · intro path i c t u ds os hnodup hlacks h hos c₀ results hold hnew
    rw [stepIds_cons] at hnodup hlacks hnew
    obtain ⟨hhead, htail, hdisjoint⟩ := List.nodup_append.mp hnodup
    rw [walkBranches_cons] at h
    obtain ⟨o, os', t₁, t₂, ds₁, ds₂, rfl, -, first, others, hfs⟩ := h.of_cons
    have hadds := hs hhead (hlacks.mono (List.subset_append_left _ _)) first
    rw [entries_interleaved (walk_layout s first) ((steps_layout rest).2 others) hfs]
    have hkeys {id : String} (hid : id ∈ stepIds rest) :
        id ∉ (s.entries ds₁ (path.child .parallel i s.kind)).keys := fun hkey =>
      hdisjoint id ((keys_entries s).subset hkey) id hid rfl
    have hmore : ∀ {c' : Context} {results : List Value}, c.steps.keys ⊆ c'.steps.keys →
        c'.Lacks (stepIds rest) → (mergeBranches (i + 1) os' c' results).1.steps
          = c'.steps ++ entriesIn ds₂ path .parallel (i + 1) rest :=
      hrest.2 htail (hlacks.mono (List.subset_append_right _ _)) others fun o ho => hos o (.tail _ ho)
    have hlater := hnew.mono (List.subset_append_right _ _)
    cases o with
    | ok r =>
      have hmerged : (c₀.merge r.context).steps
          = c₀.steps ++ s.entries ds₁ (path.child .parallel i s.kind) :=
        Context.steps_merge (hadds.ok r rfl) hold
          ((hnew.mono (List.subset_append_left _ _)).mono (keys_entries s).subset)
          (hhead.sublist (keys_entries s))
      have hold' : c.steps.keys ⊆ (c₀.merge r.context).steps.keys := by
        rw [hmerged, Keyed.keys_append]
        exact fun key hkey => List.mem_append_left _ (hold hkey)
      refine (hmore hold' (hlater.of_steps_append hmerged fun id hid => hkeys hid)).trans ?_
      rw [hmerged, List.append_assoc]
    | error f =>
      have hnone := hadds.failed f rfl (by simpa using hos _ List.mem_cons_self)
      rw [hnone, List.nil_append]
      -- what is recorded of a failure is no output
      have hold' : c.steps.keys ⊆ (c₀.recordFault (.index i) f).steps.keys := hold
      exact hmore hold' hlater

/-- **What a step makes of the outputs**, if its ids are distinct and new. -/
theorem walk_entries (s : Step) : HasEntries pace x s := by
  refine Step.treeInduction (P := HasEntries pace x) (Q := HaveEntries pace x)
    (fun _ => leaf_entries) (fun _ _ _ _ => condition_entries) (fun _ _ => parallel_entries) ?foreign
    haveEntries_nil (fun _ _ => haveEntries_cons) s
  intro call agent path c t u ds o _ _ h
  rw [walk_foreign] at h
  obtain ⟨rfl, -⟩ := concluded_ended h
  exact .of_stopsOn (Plan.stopsOn_of_isFatal rfl)

/-- What steps in a row or side by side make of the outputs. -/
theorem steps_entries (steps : List Step) : HaveEntries pace x steps := by
  induction steps with
  | nil => exact haveEntries_nil
  | cons s rest ih => exact haveEntries_cons (walk_entries s) ih

/-! ## Recording -/

/-- **Where a step records its output**, and under which id: a leaf in the context that it is carried out
    with, and a parallel step where its branches have been merged. -/
inductive Records (pace : Clock → Clock → Prop) (x : Execution) :
    Step → StepPath → Context → String → Context → Prop where
  | leaf {s : Step} {path : StepPath} {c : Context} {id : String} (hs : s.isLeaf = true)
      (hid : s.id? = some id) : Records pace x s path c id c
  | gathered {id : String} {branches : List Step} {path : StepPath} {c : Context} {t u : Clock}
      {ds : List Deed} {os : List Outcome}
      (inner : Fiber.Courses pace t (x.walkBranches branches path 0 c.fork) ds (some (os, u)))
      (hgathered : x.gatheredFault? os = none) :
      Records pace x (.parallel (some id) branches) path c id (mergeBranches 0 os c []).1

/-- A step that succeeds has recorded its output there. -/
theorem records_of_ok {id : String} {fin : Finished} (hs : s.records = true) (hid : s.id? = some id)
    (h : Fiber.Course pace t (x.walk s path c) ds (some (.ok fin, u))) :
    ∃ c', Records pace x s path c id c' ∧ fin.context = c'.recordOutput (some id) fin.output := by
  by_cases hleaf : s.isLeaf = true
  · exact ⟨c, .leaf hleaf hid, by rw [leaf_finished hleaf h, hid]⟩
  · cases s with
    | parallel id' branches =>
      obtain rfl : id' = some id := hid
      cases walk_parallel_course h with
      | @both os _ _ _ _ inner hend =>
        obtain ⟨ho, -⟩ := concluded_ended hend
        unfold gather at ho
        split at ho
        · exact absurd ho (by simp)
        · next hgathered => exact ⟨_, .gathered inner hgathered, by rw [Except.ok.inj ho]⟩
    | _ => exact absurd hs hleaf

/-- **No output is recorded under an id that is taken.** -/
theorem Records.has_eq_false {c' : Context} {id : String} (h : Records pace x s path c id c')
    (hnodup : s.ids.Nodup) (hlacks : c.Lacks s.ids) : c'.steps.has id = false := by
  have hnew {c' : Context} (h : c'.Lacks (some id).toList) : c'.steps.has id = false :=
    Bool.eq_false_iff.mpr fun hhas => h id (by simp) ((Keyed.mem_keys_iff ..).mpr hhas)
  cases h with
  | leaf hs hid =>
    rw [Step.ids_of_not_holdsSteps (Step.holdsSteps_of_isLeaf hs), hid] at hlacks
    exact hnew hlacks
  | gathered inner hgathered =>
    rw [Step.ids_parallel] at hnodup hlacks
    exact hnew (gathered_entries (steps_entries _) hnodup hlacks inner hgathered).2

/-- A step concludes for itself. -/
theorem concluded_own {id : Option String} {r : Option (Outcome × Clock)}
    (h : Fiber.Course pace t (concluded path id o) ds r) : ∀ d ∈ ds, d.step = some path := by
  rcases concluded_course h with ⟨rfl, -⟩ | ⟨_, _, _, rfl, -⟩ <;> simp

/-- **Steps that find their ids free.** Whatever is done for a step that stands at one of some places is done
    in carrying it out with a certain context; and where it records its output then, there is none under
    its id. -/
def FindsFree (pace : Clock → Clock → Prop) (x : Execution) (S : Sites) (ds : List Deed) : Prop :=
  ∀ q, deedsFor q ds ≠ [] → ∃ s c t es r, S q s ∧ Fiber.Course pace t (x.walk s q c) es r
    ∧ deedsFor q ds = deedsFor q es ∧ ∀ id c', Records pace x s q c id c' → c'.steps.has id = false

namespace FindsFree

variable {S T U : Sites} {es fs : List Deed}

theorem of_none (h : ∀ d ∈ ds, d.step = none) : FindsFree pace x S ds := fun q hq =>
  absurd (deedsFor_of_none h q) hq

theorem mono (h : FindsFree pace x S ds) (hST : ∀ q s, S q s → T q s) : FindsFree pace x T ds := by
  intro q hq
  obtain ⟨s, c, t, es, r, hs, hmore⟩ := h q hq
  exact ⟨s, c, t, es, r, hST q s hs, hmore⟩

/-- What is done for no step does not matter. -/
theorem after_none (h : FindsFree pace x S es) (hds : ∀ d ∈ ds, d.step = none) :
    FindsFree pace x S (ds ++ es) := fun q => by
  rw [deedsFor_after_none hds]
  exact h q

theorem before_none (h : FindsFree pace x S ds) (hes : ∀ d ∈ es, d.step = none) :
    FindsFree pace x S (ds ++ es) := fun q => by
  rw [deedsFor_before_none ds hes]
  exact h q

/-- What is done at different places, in any order. -/
theorem join (h₁ : FindsFree pace x S ds) (h₂ : FindsFree pace x T es) (hfs : Interleaved ds es fs)
    (hST : ∀ q s₁ s₂, S q s₁ → T q s₂ → False) (hS : ∀ q s, S q s → U q s)
    (hT : ∀ q s, T q s → U q s) : FindsFree pace x U fs := by
  intro q hq
  have hdeeds : Interleaved (deedsFor q ds) (deedsFor q es) (deedsFor q fs) := hfs.filter _
  by_cases hds : deedsFor q ds = []
  · rw [hds] at hdeeds
    rw [hdeeds.symm.eq_of_nil_right] at hq ⊢
    exact h₂.mono hT q hq
  · obtain ⟨s₁, _, _, _, _, hs₁, -⟩ := h₁ q hds
    have hes : deedsFor q es = [] := by
      by_contra hes
      obtain ⟨s₂, _, _, _, _, hs₂, -⟩ := h₂ q hes
      exact hST q s₁ s₂ hs₁ hs₂
    rw [hes] at hdeeds
    rw [hdeeds.eq_of_nil_right] at hq ⊢
    exact h₁.mono hS q hq

/-- A step that is carried out with a context in which its ids are new, where the steps in its lists find
    theirs free. -/
theorem of_inside {r : Option (Outcome × Clock)} {b : Branch} (hnodup : s.ids.Nodup)
    (hlacks : c.Lacks s.ids) (h : Fiber.Course pace t (x.walk s path c) ds r)
    (hinside : FindsFree pace x (listSites path b 0 (s.listOf b)) es)
    (hdeeds : ∀ q, q ≠ path → deedsFor q ds = deedsFor q es) : FindsFree pace x (s.Inside path) ds := by
  intro q hq
  by_cases hpath : q = path
  · subst hpath
    exact ⟨s, c, t, ds, r, Step.inside_iff.mpr (.inl ⟨rfl, rfl⟩), h, rfl,
      fun id c' hrecords => hrecords.has_eq_false hnodup hlacks⟩
  · rw [hdeeds q hpath] at hq ⊢
    exact hinside.mono (fun _ _ => listSites_inside) q hq

/-- A step for which nothing is done but what it does itself. -/
theorem of_own {r : Option (Outcome × Clock)} (hnodup : s.ids.Nodup) (hlacks : c.Lacks s.ids)
    (h : Fiber.Course pace t (x.walk s path c) ds r) (hds : ∀ d ∈ ds, d.step = some path) :
    FindsFree pace x (s.Inside path) ds := by
  have hnothing : FindsFree pace x (listSites path .parallel 0 (s.listOf .parallel)) [] :=
    .of_none (by simp)
  refine .of_inside hnodup hlacks h hnothing fun q hq => ?_
  exact deedsFor_eq_nil fun d hd hstep => hq (Option.some.inj (hstep.symm.trans (hds d hd)))

/-- A list of a step, and then its report. -/
theorem of_list {α : Type} {first : List Deed → Option (α × Clock) → Prop} {b : Branch} {id : Option String}
    {f : α → Outcome} {r : Option (Outcome × Clock)} (hnodup : s.ids.Nodup) (hlacks : c.Lacks s.ids)
    (h : Fiber.Course pace t (x.walk s path c) ds r)
    (hturn : InTurn first (fun a u => Fiber.Course pace u (concluded path id (f a))) ds r)
    (h₁ : ∀ {es r}, first es r → FindsFree pace x (listSites path b 0 (s.listOf b)) es) :
    FindsFree pace x (s.Inside path) ds := by
  cases hturn with
  | first hf => exact of_inside hnodup hlacks h (h₁ hf) fun _ _ => rfl
  | @both _ _ ds₁ ds₂ _ hf hend =>
    refine of_inside hnodup hlacks h (h₁ hf) fun q hq => ?_
    have hnone : deedsFor q ds₂ = [] := deedsFor_eq_nil fun d hd hstep =>
      hq (Option.some.inj (hstep.symm.trans (concluded_own hend d hd)))
    rw [deedsFor_append, hnone, List.append_nil]

end FindsFree

/-- The steps inside a step find their ids free, where these are distinct and new. -/
def HasFree (pace : Clock → Clock → Prop) (x : Execution) (s : Step) : Prop :=
  ∀ {path : StepPath} {c : Context} {t : Clock} {ds : List Deed} {r : Option (Outcome × Clock)},
    s.ids.Nodup → c.Lacks s.ids → Fiber.Course pace t (x.walk s path c) ds r →
    FindsFree pace x (s.Inside path) ds

/-- The same of steps in a row, and of branches. -/
def HaveFree (pace : Clock → Clock → Prop) (x : Execution) (steps : List Step) : Prop :=
  (∀ {path : StepPath} {b : Branch} {i : Nat} {c : Context} {t : Clock} {ds : List Deed}
    {r : Option (Outcome × Clock)}, (stepIds steps).Nodup → c.Lacks (stepIds steps) →
    Fiber.Course pace t (x.walkList steps (path, b) i c) ds r →
    FindsFree pace x (listSites path b i steps) ds) ∧
  ∀ {path : StepPath} {i : Nat} {c : Context} {t : Clock} {ds : List Deed}
    {r : Option (List Outcome × Clock)}, (stepIds steps).Nodup → c.Lacks (stepIds steps) →
    Fiber.Courses pace t (x.walkBranches steps path i c) ds r →
    FindsFree pace x (listSites path .parallel i steps) ds

theorem haveFree_nil : HaveFree pace x [] := by
  refine ⟨fun _ _ h => ?_, fun _ _ h => ?_⟩
  · rw [walkList_nil] at h
    rw [h.of_done.1]
    exact .of_none (by simp)
  · rw [walkBranches_nil] at h
    cases h <;> exact .of_none (by simp)

theorem haveFree_cons {rest : List Step} (hs : HasFree pace x s) (hrest : HaveFree pace x rest) :
    HaveFree pace x (s :: rest) := by
  constructor
  · intro path b i c t ds r hnodup hlacks h
    rw [stepIds_cons] at hnodup hlacks
    obtain ⟨hhead, htail, -⟩ := List.nodup_append.mp hnodup
    have hnew : c.Lacks s.ids := hlacks.mono (List.subset_append_left _ _)
    cases walkList_course h with
    | stopped hwalk | failed hwalk => exact (hs hhead hnew hwalk).mono fun _ _ => listSites_head
    | @goesOn _ _ _ ds₁ ds₂ _ hwalk hguarded hnext =>
      have hlater := (walk_entries s hhead hnew hwalk).lacks_later hguarded hnodup hlacks
      exact (hs hhead hnew hwalk).join (hrest.1 htail hlater hnext) (.append ds₁ ds₂)
        (fun _ _ _ => listSites_disjoint) (fun _ _ => listSites_head) (fun _ _ => listSites_tail)
  · intro path i c t ds r hnodup hlacks h
    rw [stepIds_cons] at hnodup hlacks
    obtain ⟨hhead, htail, -⟩ := List.nodup_append.mp hnodup
    rw [walkBranches_cons] at h
    cases h with
    | stopped => exact .of_none (by simp)
    | cons first others hfs =>
      exact (hs hhead (hlacks.mono (List.subset_append_left _ _)) first).join
        (hrest.2 htail (hlacks.mono (List.subset_append_right _ _)) others) hfs
        (fun _ _ _ => listSites_disjoint) (fun _ _ => listSites_head) (fun _ _ => listSites_tail)

/-- **Every step finds its id free**, if the ids are distinct and new. -/
theorem walk_findsFree (s : Step) : HasFree pace x s := by
  refine Step.treeInduction (P := HasFree pace x) (Q := HaveFree pace x)
    ?leaf ?condition ?parallel ?foreign haveFree_nil (fun _ _ => haveFree_cons) s
  case leaf =>
    intro s hs path c t ds r hnodup hlacks h
    obtain ⟨body, hbody, hcourse⟩ := walk_leaf_course hs h
    exact .of_own hnodup hlacks h fun d hd => (hcourse.treeCall hbody d hd).1
  case condition =>
    intro id predicate whenTrue whenFalse ih path c t ds r hnodup hlacks h
    rcases walk_condition_course h with ⟨f, -, hend⟩ | ⟨b, -, hturn⟩
    · exact .of_own hnodup hlacks h (concluded_own hend)
    · have hids : (stepIds (takenSteps b whenTrue whenFalse)).Sublist
          (Step.condition id predicate whenTrue whenFalse).ids := stepIds_takenSteps_sublist b
      refine .of_list (b := takenBranch b) hnodup hlacks h hturn fun hwalk => ?_
      rw [Step.listOf_takenBranch]
      exact (ih b).1 (hnodup.sublist hids) (hlacks.mono hids.subset) hwalk
  case parallel =>
    intro id branches ih path c t ds r hnodup hlacks h
    refine .of_list (b := .parallel) hnodup hlacks h (walk_parallel_course h) fun inner => ?_
    rw [Step.ids_parallel] at hnodup hlacks
    exact ih.2 (List.nodup_append.mp hnodup).1 (hlacks.fork.mono (List.subset_append_left _ _)) inner
  case foreign =>
    intro call agent path c t ds r hnodup hlacks h
    have hend := h
    rw [walk_foreign] at hend
    exact .of_own hnodup hlacks h (concluded_own hend)

end Execution

end Runbook
