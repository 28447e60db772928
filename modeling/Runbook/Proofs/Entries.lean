import Runbook.Proofs.Conduct
import Runbook.Proofs.Journal

/-!
# `Proofs.Entries` — the journal entry of a step while it is carried out

A leaf asks the journal first and goes on only if its entry leaves open how it ended. What it notes on
the way adds to the entry; how it ends replaces it. So an entry only ever goes on: one that says how
the step ended stays as it is, and one that names a run started elsewhere names it until the step has
ended.

## Contents
- **Going on.** `JournalEntry.GoesOn`, a preorder on entries.
- **The view.** `JournalEntry.after` and `EntryStep`, what a call makes of an entry and reads from it.
- **Leaves.** `carryOut_goesOn`: each call of a leaf lets its entry go on.
- **Trees.** `Layout.goesOn`: so does each deed of a step that is carried out, for all entries.
-/

namespace Runbook

namespace JournalEntry

/-! ## Going on -/

/-- An entry names a run that the step has started elsewhere. -/
def Names (entry : Option Value) (runId : String) : Prop := noted entry "runId" = .ok (.text runId)

/-- **An entry goes on**: it stays as it is once it says how the step ended, and until then it keeps the
    name of the run that the step waits for. -/
structure GoesOn (entry entry' : Option Value) : Prop where
  ended : Ended entry → entry' = entry
  names : ∀ runId, Names entry runId → Ended entry' ∨ Names entry' runId

namespace GoesOn

variable {e e' e'' : Option Value}

theorem refl (e : Option Value) : GoesOn e e := ⟨fun _ => rfl, fun _ h => .inr h⟩

theorem trans (h₁ : GoesOn e e') (h₂ : GoesOn e' e'') : GoesOn e e'' where
  ended hended := by
    have hsame := h₁.ended hended
    rw [h₂.ended (hsame ▸ hended), hsame]
  names runId hnames := by
    rcases h₁.names runId hnames with hended | hnames
    · exact .inl (h₂.ended hended ▸ hended)
    · exact h₂.names runId hnames

end GoesOn

theorem noted_object (fields : Keyed Value) (key : String) :
    noted (some (.object fields)) key = .ok ((fields.get? key).getD .null) := by
  simp [noted, read_object, Value.fields?]

theorem noted_none (key : String) : noted none key = .ok .null := by
  simp [noted, read, Value.truthy, Value.fields?, Keyed.get?]

theorem not_names_none (runId : String) : ¬ Names none runId := by
  simp [Names, noted_none]

/-- **An entry that is a mapping**, if there is one. -/
def Mapping (entry : Option Value) : Prop := ∀ v, entry = some v → ∃ fields, v = .object fields

theorem mapping_none : Mapping none := fun _ h => by simp at h

theorem mapping_object (fields : Keyed Value) : Mapping (some (.object fields)) := fun _ h =>
  ⟨fields, (Option.some.inj h).symm⟩

/-! ## The view -/

/-- What a call makes of the entry under a path. -/
def after (path : String) (entry : Option Value) : Call → Option Value
  | .journal p fields => if p = path then some (.object fields) else entry
  | .amend p fields =>
    if p = path then
      match entry with
      | none => some (.object fields)
      | some (.object old) => some (.object (Keyed.putAll old fields))
      | some other => some other
    else entry
  | _ => entry

/-- A mapping stays one. -/
theorem Mapping.after {entry : Option Value} (h : Mapping entry) (path : String) (c : Call) :
    Mapping (JournalEntry.after path entry c) := by
  cases c with
  | journal p fields =>
    simp only [JournalEntry.after]
    split
    · exact mapping_object fields
    · exact h
  | amend p fields =>
    simp only [JournalEntry.after]
    split
    · split
      · exact mapping_object fields
      · exact mapping_object _
      · next v hv => exact h
    · exact h
  | _ => exact h

/-- A note under other keys keeps the name of a run. -/
theorem goesOn_amend {path : String} {entry : Option Value} {fields : Keyed Value}
    (hopen : ¬ Ended entry) (hfields : ∀ runId, Names entry runId → "runId" ∉ fields.keys) :
    GoesOn entry (after path entry (.amend path fields)) := by
  refine ⟨fun h => absurd h hopen, fun runId hnames => .inr ?_⟩
  have hspares := hfields runId hnames
  have hne : ∀ field ∈ fields, field.1 ≠ "runId" := fun field hfield heq =>
    hspares (heq ▸ List.mem_map_of_mem hfield)
  cases entry with
  | none => exact absurd hnames (not_names_none runId)
  | some v =>
    cases v <;> simp only [after, ↓reduceIte] <;> try exact hnames
    rw [Names, noted_object] at hnames ⊢
    rwa [RunRecord.get?_putAll_of_not_mem hne]

/-- A note leaves open how the step ends. -/
theorem not_ended_amend {path : String} {entry : Option Value} {fields : Keyed Value}
    (hopen : ¬ Ended entry) (hfields : ∀ key ∈ fields.keys, key ∈ noteKeys) :
    ¬ Ended (after path entry (.amend path fields)) := by
  have hne {key : String} (hkey : key ∉ noteKeys) : ∀ field ∈ fields, field.1 ≠ key :=
    Execution.TreeCall.noteKeys_ne hfields hkey
  have houtput : "output" ∉ noteKeys := by decide
  have herror : "error" ∉ noteKeys := by decide
  have hnil {key : String} (hkey : key ∉ noteKeys) : Keyed.has fields key = false :=
    Bool.eq_false_iff.mpr fun hhas => hkey (hfields key ((Keyed.mem_keys_iff ..).mpr hhas))
  rintro ⟨fields', hsome, hends⟩
  cases entry with
  | none =>
    simp only [after, ↓reduceIte, Option.some.injEq, Value.object.injEq] at hsome
    subst hsome
    rw [hnil houtput, hnil herror] at hends
    simp at hends
  | some v =>
    cases v <;> simp only [after, ↓reduceIte, Option.some.injEq, Value.object.injEq,
      reduceCtorEq] at hsome
    subst hsome
    refine hopen ⟨_, rfl, ?_⟩
    simpa only [Keyed.has, RunRecord.get?_putAll_of_not_mem (hne houtput),
      RunRecord.get?_putAll_of_not_mem (hne herror)] using hends

/-- Calls that write no entries. -/
def Spared (c : Call) : Prop :=
  (∀ path fields, c ≠ .journal path fields) ∧ ∀ path fields, c ≠ .amend path fields

theorem Spared.after_eq {c : Call} (h : Spared c) (path : String) (entry : Option Value) :
    after path entry c = entry := by
  cases c <;> first | rfl | exact absurd rfl (h.1 _ _) | exact absurd rfl (h.2 _ _)

theorem spared_of_isOutside {c : Call} (h : c.isOutside = true) : Spared c := by
  constructor <;> rintro path fields rfl <;> exact absurd h (by simp [Call.isOutside])

end JournalEntry

open JournalEntry

/-- **What a call makes of the entry under a path, and reads from it.** -/
structure EntryStep (path : String) (entry : Option Value) (c : Call) (answer : c.Answer)
    (entry' : Option Value) : Prop where
  after : entry' = JournalEntry.after path entry c
  told : ∀ found : Option Value,
    (⟨c, answer⟩ : (c : Call) × c.Answer) = ⟨.recall path, found⟩ → found = entry
  amended : ∀ (fields : Keyed Value) (done : Except Fault Unit),
    (⟨c, answer⟩ : (c : Call) × c.Answer) = ⟨.amend path fields, done⟩ → Mapping entry → done = .ok ()

/-- Calls that go on with an entry. -/
def Continues (path : String) (entry : Option Value) (c : Call) : Prop :=
  GoesOn entry (JournalEntry.after path entry c)

theorem Continues.of_spared {path : String} {entry : Option Value} {c : Call} (h : Spared c) :
    Continues path entry c := by
  unfold Continues
  rw [h.after_eq]
  exact .refl entry

theorem Attempt.get?_withEntry (a : Attempt) (p path : String) (entry : Value) :
    (a.withEntry p entry).journal.get? path = if p = path then some entry else a.journal.get? path := by
  split
  · next h => subst h; exact Keyed.get?_put_self ..
  · next h => exact Keyed.get?_put_of_ne _ _ fun heq => h heq.symm

theorem Attempt.get?_after_amend (a : Attempt) (p path : String) (fields : Keyed Value) :
    (a.after (.amend p fields)).journal.get? path
      = JournalEntry.after path (a.journal.get? path) (.amend p fields) := by
  have hafter : a.after (.amend p fields) = (a.withNote p fields).toOption.getD a := rfl
  rw [hafter]
  unfold Attempt.withNote
  by_cases hpath : p = path
  · subst hpath
    cases hentry : a.journal.get? p with
    | none => simp [Except.toOption, get?_withEntry, JournalEntry.after]
    | some v => cases v <;> simp [Except.toOption, get?_withEntry, JournalEntry.after, hentry]
  · have hsame : JournalEntry.after path (a.journal.get? path) (.amend p fields)
        = a.journal.get? path := if_neg hpath
    rw [hsame]
    split <;> simp [Except.toOption, get?_withEntry, hpath]

/-- The entry under a path after a call of a step. -/
theorem Attempt.get?_after {x : Execution} {q : StepPath} {c : Call} (h : x.TreeCall q c)
    (a : Attempt) (path : String) :
    (a.after c).journal.get? path = JournalEntry.after path (a.journal.get? path) c := by
  cases h with
  | journal => exact a.get?_withEntry ..
  | report => rfl
  | serves hserves =>
    cases hserves with
    | outside hc => rw [Attempt.after_of_isOutside hc, (spared_of_isOutside hc).after_eq]
    | amend => exact a.get?_after_amend ..
    | _ => rfl

/-! ## Leaves -/

section

variable {x : Execution} {path : String}

/-- Calls that name no run in an entry. -/
def SparesName (c : Call) : Prop := ∀ p fields, c = .amend p fields → "runId" ∉ fields.keys

theorem sparesName_of_ne {c : Call} (h : ∀ p fields, c ≠ .amend p fields) : SparesName c :=
  fun p fields heq => absurd heq (h p fields)

theorem sparesName_of_isOutside {c : Call} (h : c.isOutside = true) : SparesName c := by
  rintro p fields rfl
  exact absurd h (by simp [Call.isOutside])

open Runbook.Action

theorem saveCheckpoint_sparesName : Makes SparesName x.saveCheckpoint := by
  unfold Execution.saveCheckpoint
  split
  · exact makes_call nofun
  · exact makes_pure _

theorem writeRun_sparesName (updates : Keyed Value) : Makes SparesName (x.writeRun updates) :=
  makes_call nofun

theorem runAgent_sparesName (call : Capability) (agent : String) (c : Context) :
    Makes SparesName (x.runAgent call agent c path) := by
  unfold Execution.runAgent
  refine makes_bind (makes_ofExcept _) fun input => ?_
  split
  · exact Dispatch.makes_callAgent (fun _ => sparesName_of_isOutside rfl) ..
  · exact makes_map _ (Dispatch.makes_startWorkflow (fun _ => sparesName_of_isOutside rfl) ..)

theorem runWorker_sparesName (call : Capability) (worker : String) (poll : Option PollPolicy)
    (c : Context) : Makes SparesName (x.runWorker call worker poll c path) := by
  unfold Execution.runWorker
  refine makes_bind (makes_ofExcept _) fun input => ?_
  refine makes_bind (Dispatch.makes_triggerWorker (fun _ => sparesName_of_isOutside rfl)
    (x.jobId_ne_empty path) nofun nofun nofun) fun triggered => ?_
  split
  · refine makes_bind (makes_pollUntilDone ?_
      (fun _ => makes_hostSleep (sparesName_of_isOutside rfl)) nofun _) fun r => ?_
    · exact Dispatch.makes_lookAtJob (fun _ => sparesName_of_isOutside rfl) _ _ _ nofun
    · exact makes_bind (Execution.makes_requireCompletion ..) fun _ => makes_pure _
  · exact makes_pure _

theorem runHook_sparesName (h : Hook) (c : Context) : Makes SparesName (x.runHook h c) := by
  unfold Execution.runHook
  refine makes_bind (makes_ofExcept _) fun token => ?_
  refine makes_bind (makes_ofExcept _) fun seconds => ?_
  refine makes_bind (writeRun_sparesName _) fun _ => ?_
  refine makes_bind ?_ fun event => ?_
  · exact makes_bind (makes_call nofun) fun _ => makes_call nofun
  · refine makes_bind (writeRun_sparesName _) fun _ => ?_
    split
    · exact makes_throw _
    · exact makes_bind (makes_ofExcept _) fun _ => makes_pure _

theorem runSleep_sparesName (d : Duration) : Makes SparesName (x.runSleep d path) := by
  have hnote (v : Value) : SparesName (.amend path [("wakeAt", v)]) := by
    rintro p fields h
    obtain ⟨-, rfl⟩ := Call.amend.inj h
    simp [Keyed.keys]
  have hwake : Makes SparesName (x.wakeTime d path) := by
    unfold Execution.wakeTime
    refine makes_bind (makes_bind (makes_call (sparesName_of_ne (by simp))) fun _ => makes_ofExcept _) fun found => ?_
    split
    · refine makes_bind (makes_call (sparesName_of_ne (by simp))) fun now => ?_
      refine makes_bind (makes_ofExcept _) fun seconds => ?_
      refine makes_bind ?_ fun _ => makes_pure _
      exact makes_bind (makes_call (hnote _)) fun _ =>
        makes_bind (makes_ofExcept _) fun _ => saveCheckpoint_sparesName
    all_goals first | exact makes_pure _ | exact makes_throw _
  unfold Execution.runSleep
  refine makes_bind hwake fun wakeAt => ?_
  refine makes_bind (makes_call (sparesName_of_ne (by simp))) fun now => ?_
  refine makes_bind (writeRun_sparesName _) fun _ => ?_
  refine makes_bind (makes_hostSleep (sparesName_of_isOutside rfl)) fun _ => ?_
  exact makes_bind (writeRun_sparesName _) fun _ => makes_pure _

/-- Calls of a step that only note leave its entry open. -/
theorem not_ended_after {entry : Option Value} {c : Call} (h : x.Serves path c)
    (hopen : ¬ Ended entry) : ¬ Ended (JournalEntry.after path entry c) := by
  cases h with
  | outside hc => rwa [(spared_of_isOutside hc).after_eq]
  | amend hfields => exact not_ended_amend hopen hfields
  | _ => exact hopen

/-- While a step is carried out that names no run, its entry stays open and goes on. -/
theorem heeds_of_sparesName {body : Action Value} {entry : Option Value}
    (hserves : Makes (x.Serves path) body) (hspares : Makes SparesName body)
    (hopen : ¬ Ended entry) :
    body.Heeds (EntryStep path) (Continues path) (fun _ entry' => ¬ Ended entry') entry := by
  refine Action.heeds_of_makes (hserves.and hspares) ?_ ?_ hopen
  · rintro entry c ⟨hc, hname⟩ hopen
    cases hc with
    | outside hc => exact .of_spared (spared_of_isOutside hc)
    | amend => exact goesOn_amend hopen fun _ _ => hname _ _ rfl
    | _ => exact .refl entry
  · rintro entry c answer entry' ⟨hc, -⟩ hopen hstep
    rw [hstep.after]
    exact not_ended_after hc hopen

/-- Programs that write no entries. -/
theorem heeds_of_spared {α : Type} {a : Action α} {entry : Option Value} (h : Makes Spared a) :
    a.Heeds (EntryStep path) (Continues path) (fun _ entry' => entry' = entry) entry := by
  refine Action.heeds_of_makes (I := fun entry' => entry' = entry) h ?_ ?_ rfl
  · exact fun _ _ hc _ => .of_spared hc
  · rintro entry' c answer entry'' hc rfl hstep
    rw [hstep.after, hc.after_eq]

theorem saveCheckpoint_spared : Makes Spared x.saveCheckpoint := by
  unfold Execution.saveCheckpoint
  split
  · exact makes_call ⟨nofun, nofun⟩
  · exact makes_pure _

/-- What was noted is read from the entry. -/
theorem heeds_noted {key : String} {entry : Option Value} :
    (Execution.noted path key).Heeds (EntryStep path) (Continues path)
      (fun o entry' => entry' = entry ∧ o = noted entry key) entry := by
  refine ⟨.refl entry, fun found entry' hstep => ?_⟩
  rw [hstep.told _ rfl]
  exact ⟨hstep.after, rfl⟩

/-- The run that a workflow step waits for is named once. -/
theorem nestedRun_heeds {workflow : String} {input : Value} {entry : Option Value}
    (hopen : ¬ Ended entry) :
    (x.nestedRun workflow input path).Heeds (EntryStep path) (Continues path)
      (fun _ entry' => ¬ Ended entry') entry := by
  unfold Execution.nestedRun
  refine Action.heeds_bind heeds_noted ?_ fun e entry' h => h.1 ▸ hopen
  rintro found entry' ⟨rfl, hfound⟩
  split
  · refine Action.heeds_bind (heeds_of_spared (Dispatch.makes_startWorkflow
      (fun _ => spared_of_isOutside rfl) ..)) ?_ fun e entry'' h => h ▸ hopen
    rintro r entry'' rfl
    -- nothing is named yet, so the name of the new run takes the place of none
    have hunnamed (runId : String) : ¬ Names entry'' runId := fun h => by
      rw [Names, ← hfound] at h
      simp at h
    have hamend : ¬ Ended (JournalEntry.after path entry''
        (.amend path [("runId", Value.ofText? r.id)])) :=
      not_ended_amend hopen (by simp [Keyed.keys, noteKeys])
    refine Action.heeds_bind (Q := fun _ entry' => ¬ Ended entry') ?_
      (fun _ _ h => h) fun _ _ h => h
    unfold Execution.note
    refine ⟨goesOn_amend hopen fun runId h => absurd h (hunnamed runId), fun o entry' hstep => ?_⟩
    rw [hstep.after]
    cases o with
    | error f => exact hamend
    | ok _ =>
      exact Action.heeds_weaken (heeds_of_spared saveCheckpoint_spared)
        fun _ entry'' h => h ▸ hamend
  · exact hopen

theorem runWorkflow_heeds {call : Capability} {workflow : String} {c : Context}
    {entry : Option Value} (hopen : ¬ Ended entry) :
    (x.runWorkflow call workflow c path).Heeds (EntryStep path) (Continues path)
      (fun _ entry' => ¬ Ended entry') entry := by
  have hclock : Spared .clock := ⟨nofun, nofun⟩
  unfold Execution.runWorkflow
  refine Action.heeds_bind (Q := fun _ entry' => entry' = entry) ?_ ?_ fun _ _ h => h ▸ hopen
  · exact heeds_of_spared (makes_ofExcept _)
  rintro input entry' rfl
  split
  · refine Action.heeds_bind (nestedRun_heeds hopen) (fun runId entry'' hopen => ?_) fun _ _ h => h
    refine Action.heeds_weaken (heeds_of_spared ?_) fun _ entry' h => h ▸ hopen
    refine makes_bind (makes_pollUntilDone ?_
      (fun _ => makes_hostSleep (spared_of_isOutside rfl)) hclock _) fun r => ?_
    · exact Dispatch.makes_lookAtRun (fun _ => spared_of_isOutside rfl) ..
    · exact makes_bind (Execution.makes_requireCompletion ..) fun _ => makes_pure _
  · refine Action.heeds_weaken (heeds_of_spared (makes_map _ ?_)) fun _ entry'' h => h ▸ hopen
    exact Dispatch.makes_startWorkflow (fun _ => spared_of_isOutside rfl) ..

/-- **While a leaf is carried out**, its entry stays open and goes on. -/
theorem handler_heeds {s : Step} {c : Context} {body : String → Action Value}
    {entry : Option Value} (hbody : x.handler? s c = some body) (hopen : ¬ Ended entry) :
    (body path).Heeds (EntryStep path) (Continues path) (fun _ entry' => ¬ Ended entry') entry := by
  have hserves : Makes (x.Serves path) (body path) := Execution.makes_handler hbody
  cases s <;> simp only [Execution.handler?, Option.some.injEq, reduceCtorEq] at hbody <;>
    subst hbody
  case agent => exact heeds_of_sparesName hserves (runAgent_sparesName ..) hopen
  case worker => exact heeds_of_sparesName hserves (runWorker_sparesName ..) hopen
  case workflow => exact runWorkflow_heeds hopen
  case hook => exact heeds_of_sparesName hserves (runHook_sparesName ..) hopen
  case sleep => exact heeds_of_sparesName hserves (runSleep_sparesName ..) hopen

/-- What is written when a step has ended. -/
theorem close_heeds {q : StepPath} {o : Except Fault Value} {entry : Option Value}
    (hopen : ¬ Ended entry) :
    (x.close q o).Heeds (EntryStep q.text) (Continues q.text) (fun _ _ => True) entry := by
  unfold Execution.close
  cases hentry : x.entry? o with
  | none => trivial
  | some fields =>
    refine ⟨⟨fun h => absurd h hopen, fun _ _ => .inl ?_⟩, fun _ entry' _ => ?_⟩
    · rw [JournalEntry.after, if_pos rfl]
      exact ended_entry hentry
    · split
      · exact ⟨.refl entry', fun _ _ _ => trivial⟩
      · trivial

/-- **Each call of a leaf lets its entry go on.** -/
theorem carryOut_goesOn {s : Step} {c c' : Context} {body : String → Action Value} {q : StepPath}
    {id : Option String} (hbody : x.handler? s c = some body) (entry : Option Value) :
    (x.carryOut q id c' (body q.text)).outcome.Heeds (EntryStep q.text) (Continues q.text)
      (fun _ _ => True) entry := by
  rw [Execution.carryOut_eq]
  refine ⟨.refl entry, fun found entry' hstep => ?_⟩
  obtain rfl : found = entry := hstep.told found rfl
  obtain rfl : entry' = found := hstep.after
  dsimp only
  cases hreplay : replay? entry' with
  | some o => trivial
  | none =>
    have hopen : ¬ Ended entry' := fun h => h.replay?_ne_none hreplay
    dsimp only
    rw [Execution.carryOutNew_eq]
    refine Program.heeds_bind (handler_heeds hbody hopen) fun o entry' hopen => ?_
    refine ⟨.refl entry', fun _ entry'' hstep => ?_⟩
    rw [hstep.after]
    exact Program.heeds_bind (close_heeds hopen) fun _ _ _ => trivial

end

/-! ## Trees -/

section

variable {x : Execution} {pace : Clock → Clock → Prop}

/-- The course of a leaf is one of its program. -/
theorem Execution.program_of_leaf {s : Step} {q : StepPath} {c : Context} {t : Clock}
    {ds : List Deed} {r : Option (Outcome × Clock)} (hleaf : s.isLeaf = true)
    (h : Fiber.Course pace t (x.walk s q c) ds r) :
    ∃ body, x.handler? s c = some body
      ∧ Program.Course pace (some q) t (x.carryOut q s.id? c (body q.text)).outcome ds r := by
  obtain ⟨body, hbody⟩ := x.handler?_of_isLeaf hleaf c
  rw [Execution.walk_of_handler hbody, Execution.leaf, Fiber.ofAction_done] at h
  exact ⟨body, hbody, h.of_toFiber_done⟩

/-- Deeds of steps, each with a call of its own. -/
def OfSteps (x : Execution) (ds : List Deed) : Prop :=
  ∀ d ∈ ds, ∃ q : StepPath, q.Proper ∧ d.step = some q ∧ x.TreeCall q d.call

/-- A note is taken where there is a mapping, or nothing. -/
theorem World.Answers.amend_eq {w w' : World} {step : Option StepPath} {path : String}
    {fields : Keyed Value} {done : Except Fault Unit} {start stop : Clock}
    (h : w.Answers ⟨step, .amend path fields, done, start, stop⟩ w')
    (hmapping : Mapping (w.attempt.journal.get? path)) : done = .ok () := by
  obtain ⟨-, -, hstep⟩ := h.step_eq rfl
  simp only [World.step, Progress.now.injEq] at hstep
  rw [← hstep.1, World.amend]
  dsimp only
  unfold Attempt.withNote
  cases hentry : w.attempt.journal.get? path with
  | none => rfl
  | some v =>
    obtain ⟨old, rfl⟩ := hmapping v hentry
    rfl

/-- The entry of a step along its deeds: others have their own entries. -/
theorem OfSteps.follows_entry {ds : List Deed} (h : OfSteps x ds) {w w' : World} {q : StepPath}
    (hq : q.Proper) (hadmits : w.Admits ds w') :
    Follows (EntryStep q.text) (w.attempt.journal.get? q.text) (deedsFor q ds)
      (w'.attempt.journal.get? q.text) := by
  refine World.Admits.follows (fun w => w.attempt.journal.get? q.text) hadmits ?_ ?_
  · intro d hd hne u u' hu
    obtain ⟨p, hp, hstep, hcall⟩ := h d hd
    have hpq : q.text ≠ p.text := fun heq =>
      hne (by rw [hstep, StepPath.text_injective hq hp heq])
    rw [hu.attempt_eq]
    exact hcall.get?_after_of_ne _ hpq
  · intro d hd hstep u u' hu
    obtain ⟨p, -, hp, hcall⟩ := h d hd
    obtain rfl : q = p := Option.some.inj (hstep.symm.trans hp)
    refine ⟨?_, ?_, ?_⟩
    · rw [hu.attempt_eq]
      exact Attempt.get?_after hcall _ _
    · obtain ⟨step, call, answer, start, stop⟩ := d
      rintro found heq
      obtain ⟨rfl, heq⟩ := Sigma.mk.inj heq
      obtain rfl := eq_of_heq heq
      exact hu.recall_eq
    · obtain ⟨step, call, answer, start, stop⟩ := d
      rintro fields done heq hmapping
      obtain ⟨rfl, heq⟩ := Sigma.mk.inj heq
      obtain rfl := eq_of_heq heq
      exact hu.amend_eq hmapping

/-- **Each deed of a step that is carried out lets all entries go on.** -/
theorem Layout.goesOn {S : Sites} {e : Prop} {ds : List Deed} {w : World}
    (h : Layout pace x S e ds) (hsteps : OfSteps x ds) :
    w.Along (fun u _ u' => ∀ key, GoesOn (u.attempt.journal.get? key) (u'.attempt.journal.get? key))
      ds := by
  rintro pre d post u u' rfl hpre hd key
  obtain ⟨q, hq, hstep, hcall⟩ := hsteps d (by simp)
  rw [hd.attempt_eq]
  by_cases hkey : key = q.text
  · subst hkey
    rw [Attempt.get?_after hcall]
    have hsplit : deedsFor q (pre ++ d :: post) = deedsFor q pre ++ d :: deedsFor q post := by
      rw [deedsFor_append, deedsFor_cons_of_eq hstep]
    have hown := h q
    generalize hds : deedsFor q (pre ++ d :: post) = ds at hown
    rw [hsplit] at hds
    cases hown with
    | nothing => simp at hds
    | report =>
      have hmem : d ∈ deedsFor q pre ++ d :: deedsFor q post := by simp
      rw [hds] at hmem
      rw [List.mem_singleton.mp hmem]
      exact .refl _
    | leaf _ hleaf hcourse =>
      obtain ⟨body, hbody, hprogram⟩ := Execution.program_of_leaf hleaf hcourse
      rw [← hds] at hprogram
      have hentry := OfSteps.follows_entry (fun d hd => hsteps d (List.mem_append_left _ hd)) hq hpre
      exact hprogram.heeds_at (carryOut_goesOn hbody _) hentry
  · rw [hcall.get?_after_of_ne _ hkey]
    exact .refl _

end

end Runbook
