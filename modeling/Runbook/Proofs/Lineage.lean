import Runbook.Proofs.Recollections
import Runbook.Proofs.RootOutputs
import Runbook.Proofs.SingleTrigger

/-!
# `Proofs.Lineage` — what one attempt hands on to the next

A run is attempted again and again over one store of run records, by `run` or by `resume`. An attempt leaves
its outputs and its journal to later ones in the checkpoint of the record, as the backend keeps them; so what
an attempt begins with has come from one that has carried the steps before to their ends, and what it is
told by the journal has been reported in one of them.

## Contents
- **Journals.** `HandedOn`, a journal with outputs that were told, and what calls make of one.
- **Records.** `World.HandsOn` and `Attempt.GoesOn`, what holds of the record of a run and of an attempt at
  it; their step lemmas, and the run lemma `attempt_handsOn`.
- **Trials.** `Undertakes.inherits`, with what a trial begins and what it leaves, and `Undertakes.findsFree`.
- **Chains.** `Attempted`, `Handed` and `Told`; `Trial.Inherits`, and `Attempted.inherits`, by induction on
  the trials.
-/

namespace Runbook

/-! ## Journals -/

/-- An output is replayed of entries that hold one, and of nothing else. -/
theorem JournalEntry.replay?_eq_ok_iff {found : Option Value} {v : Value} :
    replay? found = some (.ok v) ↔ ∃ fields, found = some (.object fields) ∧ Keyed.get? fields "output" = some v := by
  have hrecorded : replay? found = some (.ok v) ↔ recorded? found "output" = .ok (some v) := by
    unfold replay?
    cases recorded? found "output" with
    | error f => simp
    | ok output =>
      cases output with
      | some output => simp
      | none =>
        cases recorded? found "error" with
        | error f => simp
        | ok error => cases error <;> simp
  rw [hrecorded]
  constructor
  · intro h
    -- what counts as no entry is read as an empty one, which holds no output
    have hread : ∃ fields, read found = .object fields ∧ Keyed.get? fields "output" = some v := by
      unfold recorded? at h
      cases hread : read found with
      | object fields =>
        rw [hread] at h
        exact ⟨fields, rfl, Except.ok.inj h⟩
      | text | list =>
        rw [hread] at h
        dsimp only at h
        split at h <;> simp at h
      | _ =>
        rw [hread] at h
        simp [Value.fields?] at h
    obtain ⟨fields, hread, hv⟩ := hread
    refine ⟨fields, ?_, hv⟩
    unfold read at hread
    dsimp only at hread
    split at hread
    · cases found with
      | none => exact absurd hread (by simp)
      | some entry => exact congrArg some hread
    · obtain rfl := Value.object.inj hread
      simp [Keyed.get?] at hv
  · rintro ⟨fields, rfl, hv⟩
    rw [recorded?_object, hv]

theorem JournalEntry.replay?_object {fields : Keyed Value} {v : Value} :
    replay? (some (.object fields)) = some (.ok v) ↔ Keyed.get? fields "output" = some v := by
  simp [replay?_eq_ok_iff]

/-- An output in what a backend keeps of an entry is what it keeps of an output. -/
theorem JournalEntry.replay?_keeps {b : Backend} {found : Option Value} {v : Value}
    (h : replay? (found.map b.keeps) = some (.ok v)) :
    ∃ v₀, replay? found = some (.ok v₀) ∧ v = b.keeps v₀ := by
  obtain ⟨fields, hfound, hv⟩ := replay?_eq_ok_iff.mp h
  obtain ⟨entry, rfl, hentry⟩ := Option.map_eq_some_iff.mp hfound
  have hobject : ∃ fields₀, entry = .object fields₀ := by
    unfold Backend.keeps at hentry
    split at hentry
    · exact ⟨fields, hentry⟩
    · cases entry <;> simp only [Value.storable, reduceCtorEq] at hentry
      case real => split at hentry <;> simp at hentry
      case object fields₀ => exact ⟨fields₀, rfl⟩
  obtain ⟨fields₀, rfl⟩ := hobject
  rw [Backend.keeps_object] at hentry
  obtain rfl := Value.object.inj hentry
  rw [Backend.get?_keepsFields] at hv
  obtain ⟨v₀, hv₀, rfl⟩ := Option.map_eq_some_iff.mp hv
  exact ⟨v₀, replay?_eq_ok_iff.mpr ⟨fields₀, rfl, hv₀⟩, rfl⟩

/-- **A journal that was handed on**: every output in it was told under its key. -/
def HandedOn (told : String → Value → Prop) (j : Keyed Value) : Prop :=
  ∀ key v, JournalEntry.replay? (j.get? key) = some (.ok v) → told key v

namespace HandedOn

variable {told told' : String → Value → Prop} {b : Backend} {j : Keyed Value} {a : Attempt}
  {x : Execution} {q : StepPath} {c : Call}

theorem nil : HandedOn told [] := fun key v h => by
  simp [JournalEntry.replay?, Keyed.get?] at h

theorem mono (h : HandedOn told j) (htold : ∀ key v, told key v → told' key v) : HandedOn told' j :=
  fun key v hv => htold key v (h key v hv)

theorem keepsFields (h : HandedOn told j) (htold : ∀ key v, told key v → told key (b.keeps v)) :
    HandedOn told (b.keepsFields j) := by
  intro key v hv
  rw [Backend.get?_keepsFields] at hv
  obtain ⟨v₀, hfound, rfl⟩ := JournalEntry.replay?_keeps hv
  exact htold key v₀ (h key v₀ hfound)

/-- What is done for a step adds no output but the one that is written down. -/
theorem after_treeCall (h : HandedOn told a.journal) (hc : x.TreeCall q c)
    (htold : ∀ key entry v, c = .journal key entry → Keyed.get? entry "output" = some v → told key v) :
    HandedOn told (a.after c).journal := by
  intro key v hv
  by_cases hne : key = q.text
  · subst hne
    rcases hc.after_cases a with hsame | ⟨o, entry, -, rfl⟩ | ⟨fields, hfields, hnote⟩
    · exact h _ v (hsame ▸ hv)
    · have hput : (a.after (.journal q.text entry)).journal.get? q.text = some (.object entry) :=
        Keyed.get?_put_self ..
      rw [hput] at hv
      exact htold _ entry v rfl (JournalEntry.replay?_object.mp hv)
    · have hnotes : "output" ∉ noteKeys := by decide
      rcases Attempt.withNote_get?_self hnote with ⟨-, hafter⟩ | ⟨entry, hentry, hafter⟩
      · -- there is no output among notes
        rw [hafter] at hv
        have hhas : Keyed.has fields "output" = true := by
          rw [Keyed.has, JournalEntry.replay?_object.mp hv]
          rfl
        exact absurd (hfields _ ((Keyed.mem_keys_iff ..).mpr hhas)) hnotes
      · rw [hafter, JournalEntry.replay?_object, RunRecord.get?_putAll_of_not_mem
          (Execution.TreeCall.noteKeys_ne hfields hnotes), ← JournalEntry.replay?_object, ← hentry] at hv
        exact h _ v hv
  · rw [hc.get?_after_of_ne a hne] at hv
    exact h key v hv

end HandedOn

/-! ## Records -/

/-- **A record that hands on** what was saved: its checkpoint is kept by the backend, it has outputs that
    stand at its cursor, and its journal was handed on. -/
structure World.HandsOn (b : Backend) (saved : Nat → Keyed Value → Prop) (told : String → Value → Prop)
    (id : String) (w : World) : Prop where
  backend : w.backend = b
  stored : ∀ data, w.checkpointOf id = some data → ∃ (k : Nat) (c : Context) (j : Keyed Value),
    data = checkpointData k c.toValue j ∧ b.keeps data = data ∧ saved k c.steps ∧ HandedOn told j

/-- **An attempt that goes on** with outputs that stand at its cursor, and a journal that was handed on. -/
structure Attempt.GoesOn (here : Nat → Keyed Value → Prop) (told : String → Value → Prop) (a : Attempt) :
    Prop where
  place : ∃ k : Nat, a.cursor = k ∧ here k a.base.steps
  journal : HandedOn told a.journal

section

variable {b : Backend} {saved saved' here : Nat → Keyed Value → Prop} {told told' : String → Value → Prop}
  {id : String} {w w' : World} {d : Deed} {ds : List Deed} {a : Attempt} {x : Execution}

/-- It recollects outputs that were saved, and a journal that was handed on. -/
theorem World.handsOn_iff : w.HandsOn b saved told id
    ↔ w.Recollects b (fun k c j => saved k c.steps ∧ HandedOn told j) id :=
  ⟨fun h => ⟨h.backend, h.stored⟩, fun h => ⟨h.backend, h.stored⟩⟩

theorem World.HandsOn.of_runs (hw : w.HandsOn b saved told id) (h : w'.stores.runs = w.stores.runs) :
    w'.HandsOn b saved told id := World.handsOn_iff.mpr ((World.handsOn_iff.mp hw).of_runs h)

theorem World.HandsOn.mono (hw : w.HandsOn b saved told id)
    (hsaved : ∀ k outputs, saved k outputs → saved' k outputs)
    (htold : ∀ key v, told key v → told' key v) : w.HandsOn b saved' told' id :=
  World.handsOn_iff.mpr ((World.handsOn_iff.mp hw).mono fun k _ _ h => ⟨hsaved k _ h.1, h.2.mono htold⟩)

/-- **The step lemma for records.** -/
theorem World.HandsOn.answers (hw : w.HandsOn b saved told id) (h : w.Answers d w') (hd : d.call.Orderly)
    (hsaved : ∀ k outputs, here k outputs → saved k (b.keepsFields outputs))
    (htold : ∀ key v, told key v → told key (b.keeps v))
    (hsaves : ∀ other, d.call = .saveCheckpoint other → other = id ∧ w.attempt.GoesOn here told) :
    w'.HandsOn b saved told id := by
  refine World.handsOn_iff.mpr ((World.handsOn_iff.mp hw).answers h hd fun other hcall => ?_)
  obtain ⟨rfl, ⟨k, hcursor, hhere⟩, hjournal⟩ := hsaves other hcall
  exact ⟨rfl, k, hcursor, hsaved k _ hhere, hjournal.keepsFields htold⟩

/-- **The step lemma for attempts.** -/
theorem Attempt.GoesOn.after {c : Call} (ha : a.GoesOn here told)
    (hc : (∃ q : StepPath, x.TreeCall q c) ∨ x.Between c)
    (henters : ∀ k c₀ keepJournal, c = .enterStep k c₀ keepJournal → ∃ i : Nat, k = i ∧ here i c₀.steps)
    (htold : ∀ key entry v, c = .journal key entry → Keyed.get? entry "output" = some v → told key v) :
    (a.after c).GoesOn here told := by
  have hplace : a.StandsAt fun k c => here k c.steps := ha.place
  refine ⟨hplace.after hc henters, ?_⟩
  rcases hc with ⟨q, hc⟩ | hc
  · exact ha.journal.after_treeCall hc htold
  · cases hc with
    | enters k c₀ keepJournal =>
      have hjournal : (a.after (.enterStep k c₀ keepJournal)).journal
          = if keepJournal then a.journal else [] := rfl
      rw [hjournal]
      split
      · exact ha.journal
      · exact .nil
    | saves => exact ha.journal
    | updates => exact ha.journal

/-- What is remembered of a step was told under its key. -/
def Deed.Reminds (told : String → Value → Prop) (d : Deed) : Prop :=
  ∀ step path found start stop, d = ⟨step, .recall path, found, start, stop⟩ →
    ∀ v, JournalEntry.replay? found = some (.ok v) → told path v

/-- **The run lemma** for an attempt that has begun: it hands on what it has been handed, and every output
    that it is reminded of was told. -/
theorem attempt_handsOn (hw : w.HandsOn b saved told x.runId) (ha : w.attempt.GoesOn here told)
    (hds : x.OfAttempt ds) (hsaved : ∀ k outputs, here k outputs → saved k (b.keepsFields outputs))
    (hkeeps : ∀ key v, told key v → told key (b.keeps v))
    (henters : ∀ k c, Enters ds k c → ∃ i : Nat, k = i ∧ here i c.steps)
    (htold : ∀ d ∈ ds, ∀ key entry v, d.call = .journal key entry →
      Keyed.get? entry "output" = some v → told key v) :
    w.Through (fun _ d _ => d.Reminds told) ds fun w' => w'.HandsOn b saved told x.runId := by
  refine World.Through.weaken (I := fun w' => w'.HandsOn b saved told x.runId ∧ w'.attempt.GoesOn here told)
    (.of_keeps (fun d hd {u u'} hu hd' => ?_) ⟨hw, ha⟩) fun h => h.1
  have hcall : (∃ q : StepPath, x.TreeCall q d.call) ∨ x.Between d.call :=
    (hds d hd).imp (fun ⟨q, _, h⟩ => ⟨q, h⟩) fun h => h.2
  have horderly : d.call.Orderly := hcall.elim (fun ⟨_, h⟩ => h.orderly) fun h => h.orderly
  refine ⟨⟨hu.1.answers hd' horderly hsaved hkeeps fun other hother => ⟨?_, hu.2⟩, ?_⟩, ?_⟩
  · rcases hcall with ⟨q, hcall⟩ | hcall
    · exact Call.saveCheckpoint.inj (hother.symm.trans (hcall.save_own hother))
    · rw [hother] at hcall
      cases hcall
      rfl
  · rw [hd'.attempt_eq]
    refine hu.2.after hcall (fun k c keepJournal hk => henters k c ⟨d, hd, keepJournal, hk⟩) (htold d hd)
  · rintro step path found start stop rfl v hv
    rw [hd'.recall_eq] at hv
    exact hu.2.journal path v hv

/-- **What a continuation finds** in a record that hands on: no checkpoint, and then no context; or one, and
    in it the attempt that was saved. -/
theorem World.HandsOn.found (hw : w.HandsOn b saved told id) {record : RunRecord}
    {checkpoint : StoredCheckpoint} (hrecord : w.recordOf id = .ok (some record))
    (hcheckpoint : StoredCheckpoint.ofMetadata record.metadata = .ok checkpoint) :
    (w.checkpointOf id = none ∧ checkpoint.context? = none)
      ∨ ∃ (k : Nat) (c : Context) (j : Keyed Value),
        w.checkpointOf id = some (checkpointData k c.toValue j) ∧ saved k c.steps ∧ HandedOn told j
        ∧ checkpoint.context? = some c.toValue
        ∧ (Context.restore c.toValue).bind (checkpoint.toAttempt id) = .ok ⟨id, k, c, j⟩ := by
  refine ((World.handsOn_iff.mp hw).found hrecord hcheckpoint).imp_right ?_
  rintro ⟨k, c, j, hdata, ⟨hsaved, hj⟩, hfound⟩
  exact ⟨k, c, j, hdata, hsaved, hj, hfound⟩

/-- **A run that was completed before**, and the cursor of the checkpoint in its record; that is the first
    position if it holds none. -/
structure World.CompletedAt (w : World) (id : String) (k : Nat) : Prop where
  completed : ∃ record, w.recordOf id = .ok (some record) ∧ record.status = .completed
  cursor : w.checkpointOf id = none ∧ k = 0 ∨ ∃ v j, w.checkpointOf id = some (checkpointData k v j)

end

/-! ## Trials -/

section

variable {pace : Clock → Clock → Prop} {x : Execution} {w w' : World} {anew : Prop} {ds es : List Deed}
  {r : Option (Outcome × Clock)} {b : Backend} {saved saved' : Nat → Keyed Value → Prop}
  {told told' : String → Value → Prop} {id : String} {a : Attempt} {keepJournal : Bool} {m : Nat} {t : Clock}

/-- The attempt with which a trial begins goes on with what was saved. -/
theorem Execution.BeginsWith.inherits (h : x.BeginsWith w anew a keepJournal)
    (hw : w.HandsOn b saved told x.runId) (hfresh : saved 0 []) : a.GoesOn saved told := by
  rcases h.recollects (World.handsOn_iff.mp hw) with rfl | ⟨k, c, j, rfl, hsaved, hj⟩
  · exact ⟨⟨0, rfl, hfresh⟩, .nil⟩
  · exact ⟨⟨k, rfl, hsaved⟩, hj⟩

/-- A run that was completed before has the outputs that were saved. -/
theorem StoredCheckpoint.Restores.inherits {record : RunRecord} {checkpoint : StoredCheckpoint} {c : Context}
    (h : checkpoint.Restores x.plan x.runId c) (hw : w.HandsOn b saved told x.runId)
    (hrecord : w.recordOf x.runId = .ok (some record)) (hstatus : record.status = .completed)
    (hcheckpoint : StoredCheckpoint.ofMetadata record.metadata = .ok checkpoint) (hfresh : saved 0 []) :
    ∃ k, w.CompletedAt x.runId k ∧ saved k c.steps := by
  have hcompleted : ∃ record, w.recordOf x.runId = .ok (some record) ∧ record.status = .completed :=
    ⟨record, hrecord, hstatus⟩
  rcases hw.found hrecord hcheckpoint with ⟨hnone, hno⟩ | ⟨k, c', j, hdata, hsaved, -, hcontext, -⟩
  · cases h with
    | stored hsnapshot => exact absurd (hsnapshot.symm.trans hno) (by simp)
    | none => exact ⟨0, ⟨hcompleted, .inl ⟨hnone, rfl⟩⟩, hfresh⟩
  · cases h with
    | stored hsnapshot hc =>
      obtain rfl := Option.some.inj (hsnapshot.symm.trans hcontext)
      obtain rfl := Except.ok.inj (hc.symm.trans (Context.restore_toValue c'))
      exact ⟨k, ⟨hcompleted, .inr ⟨_, j, hdata⟩⟩, hsaved⟩
    | none hno => exact absurd (hno.symm.trans hcontext) (by simp)

/-- What is done for no step does not matter to the outputs. -/
theorem CarriedOn.after_none {p : Plan} {k : Nat} {outputs outputs' : Keyed Value}
    (h : CarriedOn p es m outputs k outputs') (hds : ∀ d ∈ ds, d.step = none) :
    CarriedOn p (ds ++ es) m outputs k outputs' where
  le := h.le
  bound := h.bound
  entered i hmi hik := (h.entered i hmi hik).imp fun c hc => enters_append.mpr (.inr hc)
  steps := by
    rw [h.steps]
    refine congrArg (outputs ++ ·) (Plan.entriesFrom_congr fun i _ q _ => ?_)
    exact (deedsFor_after_none hds es q).symm

/-- What is written down of a step was told. -/
theorem Layout.told_of_journal {S : Sites} {ended : Prop} (h : Layout pace x S ended ds)
    (hS : ∀ q s, S q s → q.Proper)
    (hreports : ∀ r ∈ reports ds, r.path.Proper → ∀ v, r.outcome = .ok v → told r.path.text v)
    {d : Deed} (hd : d ∈ ds) {q : StepPath} (hstep : d.step = some q) {key : String} {entry : Keyed Value}
    {v : Value} (hcall : d.call = .journal key entry) (hv : Keyed.get? entry "output" = some v) :
    told key v := by
  have hmem : d ∈ deedsFor q ds := mem_deedsFor.mpr ⟨hd, hstep⟩
  obtain ⟨s, hs⟩ := h.site hd hstep
  have hown := h q
  have hsub : ∀ e ∈ deedsFor q ds, e ∈ ds := fun e he => (mem_deedsFor.mp he).1
  generalize deedsFor q ds = ls at hown hmem hsub
  cases hown with
  | nothing => exact absurd hmem List.not_mem_nil
  | report =>
    rw [List.mem_singleton.mp hmem] at hcall
    exact absurd hcall (by simp)
  | @leaf _ c _ _ _ _ hleaf hcourse =>
    obtain ⟨body, hbody, hcourse⟩ := Execution.walk_leaf_course hleaf hcourse
    obtain ⟨rfl, o, hreport, hentry⟩ := hcourse.reported_of_journal hbody hmem hcall
    obtain ⟨e, he, hereport⟩ := mem_reports.mp hreport
    have ho : o = .ok v := by
      cases o with
      | ok output =>
        obtain rfl : [("output", output)] = entry := Option.some.inj hentry
        exact congrArg _ (Option.some.inj hv)
      | error f =>
        simp only [Execution.entry?, Option.ite_none_right_eq_some, Option.some.injEq] at hentry
        rw [← hentry.2] at hv
        exact absurd hv (by simp [Keyed.get?])
    exact hreports _ (mem_reports.mpr ⟨e, hsub e he, hereport⟩) (hS q s hs) v ho

/-- Deeds that leave the record and the journal alone. -/
theorem handsOn_of_quiet (hw : w.HandsOn b saved told id) (hkeeps : ∀ key v, told key v → told key (b.keeps v))
    (hds : ∀ d ∈ ds, d.call.Quiet ∧ ∀ path, d.call ≠ .recall path) :
    w.Through (fun _ d _ => d.Reminds told) ds (World.HandsOn b saved told id) := by
  refine .of_keeps (fun d hd {u u'} hu hd' => ?_) hw
  obtain ⟨⟨horderly, hquiet⟩, hrecall⟩ := hds d hd
  have hnone : ∀ k outputs, (fun _ _ => False : Nat → Keyed Value → Prop) k outputs →
      saved k (b.keepsFields outputs) := fun _ _ => False.elim
  refine ⟨hu.answers hd' horderly hnone hkeeps fun other hother => absurd hother (hquiet other), ?_⟩
  rintro step path found start stop rfl
  exact absurd rfl (hrecall path)

theorem Preparing.quiet {runId : String} (hds : Preparing runId ds) :
    (∀ d ∈ ds, d.call.Quiet ∧ ∀ path, d.call ≠ .recall path) ∧ ∀ k c, ¬ Enters ds k c := by
  have hcalls : ∀ d ∈ ds, (∀ path, d.call ≠ .recall path)
      ∧ ∀ k c keepJournal, d.call ≠ .enterStep k c keepJournal := by
    intro d hd
    obtain ⟨-, hcall⟩ := hds d hd
    generalize d.call = call at hcall
    cases hcall <;> simp
  exact ⟨fun d hd => ⟨(hds d hd).2.quiet, (hcalls d hd).1⟩,
    fun k c => not_enters fun d hd => (hcalls d hd).2⟩

/-- **The run lemma** for what is left of the root list: it hands on the outputs with which it begins, and those
    that it carries on from there. -/
theorem onward_handsOn {c : Context} (hle : m ≤ x.plan.steps.length)
    (h : Fiber.Course pace t (x.onward m keepJournal c) ds r) (hnodup : x.plan.ids.Nodup)
    (hfree : LeavesFree x.plan m c.steps) (hw : w.HandsOn b saved told x.runId)
    (hattempt : w.attempt.GoesOn (fun k outputs => k = m ∧ outputs = c.steps) told)
    (hhere : saved m (b.keepsFields c.steps))
    (hsaved : ∀ k outputs, CarriedOn x.plan ds m c.steps k outputs → saved k (b.keepsFields outputs))
    (hkeeps : ∀ key v, told key v → told key (b.keeps v))
    (htold : ∀ d ∈ ds, ∀ q : StepPath, d.step = some q → ∀ key entry v, d.call = .journal key entry →
      Keyed.get? entry "output" = some v → told key v) :
    w.Through (fun _ d _ => d.Reminds told) ds fun w' => w'.HandsOn b saved told x.runId := by
  have hcalls := onward_ofAttempt hle h
  obtain ⟨k, hcursor, hplace⟩ := hattempt.place
  have hgoesOn : w.attempt.GoesOn (fun k outputs => (k = m ∧ outputs = c.steps)
      ∨ CarriedOn x.plan ds m c.steps k outputs) told := ⟨⟨k, hcursor, .inl hplace⟩, hattempt.journal⟩
  refine attempt_handsOn hw hgoesOn hcalls ?_ hkeeps (fun k c' hk => ?_) ?_
  · rintro k outputs (⟨rfl, rfl⟩ | hcarried)
    · exact hhere
    · exact hsaved k outputs hcarried
  · obtain ⟨i, rfl, hcarried⟩ := (onward_carriedOn hnodup hle hfree h).1 k c' hk
    exact ⟨i, rfl, .inr hcarried⟩
  · intro d hd key entry v hcall hv
    rcases hcalls d hd with ⟨q, hstep, -⟩ | ⟨-, hbetween⟩
    · exact htold d hd q hstep key entry v hcall hv
    · -- the journal is written for steps only
      rw [hcall] at hbetween
      cases hbetween

/-- **What a trial does with what it inherits.** It goes on with outputs that were saved, and carries them on
    along the root list; it is reminded only of what was told; and it hands everything on. -/
theorem Execution.Undertakes.inherits (h : x.Undertakes pace w anew ds r)
    (hwell : w.WellStored x.plan.steps.length x.runId) (hw : w.HandsOn b saved told x.runId)
    (hnodup : x.plan.ids.Nodup) (hfresh : saved 0 [])
    (hfree : ∀ k outputs, saved k outputs → LeavesFree x.plan k outputs)
    (hmono : ∀ k outputs, saved k outputs → saved' k outputs ∧ b.keepsFields outputs = outputs)
    (hsaved : ∀ m outputs k outputs', saved m outputs → CarriedOn x.plan ds m outputs k outputs' →
      saved' k (b.keepsFields outputs'))
    (htold : ∀ key v, told key v → told' key v) (hkeeps : ∀ key v, told' key v → told' key (b.keeps v))
    (hreports : ∀ r ∈ reports ds, r.path.Proper → ∀ v, r.outcome = .ok v → told' r.path.text v) :
    w.Through (fun _ d _ => d.Reminds told') ds (World.HandsOn b saved' told' x.runId)
      ∧ ∃ m outputs, saved m outputs
        ∧ (∀ k c, Enters ds k c → ∃ i : Nat, k = i ∧ CarriedOn x.plan ds m outputs i c.steps)
        ∧ ∀ fin v, r = some (.ok fin, v) →
            CarriedOn x.plan ds m outputs x.plan.steps.length fin.context.steps
              ∨ (∀ k c, ¬ Enters ds k c) ∧ ∃ k, w.CompletedAt x.runId k ∧ saved k fin.context.steps := by
  have hlayout := (h.layout hwell).1
  have hw' : w.HandsOn b saved' told' x.runId := hw.mono (fun k o ho => (hmono k o ho).1) htold
  cases h with
  | prepared hds hr =>
    obtain ⟨hquiet, hnone⟩ := hds.quiet
    refine ⟨handsOn_of_quiet hw' hkeeps hquiet, 0, [], hfresh, fun k c hk => absurd hk (hnone k c), ?_⟩
    rintro fin v rfl
    obtain ⟨-, f, hf⟩ := hr _ rfl
    exact absurd hf (by simp)
  | @restored record checkpoint c pre es _ _ hrecord hstatus hcheckpoint hc hds hes hr =>
    obtain ⟨hquiet, hnone⟩ := hds.quiet
    have hnone' : ∀ k c', ¬ Enters (pre ++ es) k c' := by
      intro k c' hk
      rcases enters_append.mp hk with hk | ⟨d, hd, keepJournal, hcall⟩
      · exact hnone k c' hk
      · exact absurd (hcall.symm.trans (hes d hd).2) (by simp)
    refine ⟨handsOn_of_quiet hw' hkeeps fun d hd => ?_, 0, [], hfresh,
      fun k c' hk => absurd hk (hnone' k c'), fun fin v hres => ?_⟩
    · rcases List.mem_append.mp hd with hd | hd
      · exact hquiet d hd
      · rw [(hes d hd).2]
        exact ⟨Call.quiet_beginAttempt _, by simp⟩
    · obtain rfl := Except.ok.inj (hr _ hres)
      exact .inr ⟨hnone', hc.inherits hw hrecord hstatus hcheckpoint hfresh⟩
  | @attempted a keepJournal pre es t _ hds hbegins hcourse =>
    obtain ⟨hquiet, hnone⟩ := hds.quiet
    obtain ⟨⟨m, hm, hplace⟩, hjournal⟩ := hbegins.inherits hw hfresh
    obtain ⟨m', hm', hle⟩ := hbegins.cursor hwell
    obtain rfl : m = m' := Int.natCast_inj.mp (hm.symm.trans hm')
    rw [carryOutFrom_onward hm] at hcourse
    cases hcourse with
    | stopped =>
      refine ⟨?_, 0, [], hfresh, fun k c hk => ?_, by simp⟩
      · rw [List.append_nil]
        exact handsOn_of_quiet hw' hkeeps hquiet
      · rw [List.append_nil] at hk
        exact absurd hk (hnone k c)
    | @ask _ start stop _ _ _ answer fs _ _ _ rest =>
      have hbegin : (⟨none, .beginAttempt a, answer, start, stop⟩ : Deed).call.Quiet :=
        Call.quiet_beginAttempt a
      -- before the root list is begun nothing is done for a step
      have hall {k : Nat} {outputs : Keyed Value} (h : CarriedOn x.plan fs m a.base.steps k outputs) :
          CarriedOn x.plan (pre ++ ⟨none, .beginAttempt a, answer, start, stop⟩ :: fs) m a.base.steps k
            outputs := by
        rw [List.append_cons]
        refine h.after_none fun d hd => ?_
        rcases List.mem_append.mp hd with hd | hd
        · exact (hds d hd).1
        · rw [List.mem_singleton.mp hd]
      obtain ⟨hentered, hlast⟩ := onward_carriedOn hnodup hle (hfree m _ hplace) rest
      refine ⟨(handsOn_of_quiet hw' hkeeps hquiet).append fun {w₁} hw₁ => ?_, m, _, hplace,
        fun k c hk => ?_, fun fin v hres => .inl (hall (hlast fin v hres))⟩
      · refine World.Through.cons (J := fun w₂ => w₂.HandsOn b saved' told' x.runId ∧ w₂.attempt = a)
          (fun {w₂} hbegun => ?_) fun {w₂} hw₂ => ?_
        · have hthrough : w₁.Through (fun _ d _ => d.Reminds told')
              [⟨none, .beginAttempt a, answer, start, stop⟩] (World.HandsOn b saved' told' x.runId) :=
            handsOn_of_quiet hw₁ hkeeps (List.forall_mem_singleton.mpr ⟨hbegin, by simp⟩)
          refine ⟨⟨hthrough.ends (.cons hbegun .nil), hbegun.attempt_eq⟩, ?_⟩
          exact hthrough.along [] _ [] _ _ rfl .nil hbegun
        · obtain ⟨hplace', hkept⟩ := hmono m _ hplace
          have hgoes : w₂.attempt.GoesOn (fun k outputs => k = m ∧ outputs = a.base.steps) told' := by
            rw [hw₂.2]
            exact ⟨⟨m, hm, rfl, rfl⟩, hjournal.mono htold⟩
          refine onward_handsOn hle rest hnodup (hfree m _ hplace) hw₂.1 hgoes (by rwa [hkept])
            (fun k o hcarried => hsaved m _ k o hplace (hall hcarried)) hkeeps fun d hd q hstep key entry v => ?_
          exact hlayout.told_of_journal (fun q s hs => hs.proper) hreports (by simp [hd]) hstep
      · have hk : Enters fs k c := by
          rw [List.append_cons, enters_append, enters_append] at hk
          rcases hk with (hk | ⟨d, hd, keepJournal, hcall⟩) | hk
          · exact absurd hk (hnone k c)
          · rw [List.mem_singleton.mp hd] at hcall
            exact absurd hcall (by simp)
          · exact hk
        obtain ⟨i, rfl, hcarried⟩ := hentered k c hk
        exact ⟨i, rfl, hall hcarried⟩

/-- **In a trial every step finds its id free.** -/
theorem Execution.Undertakes.findsFree (h : x.Undertakes pace w anew ds r)
    (hwell : w.WellStored x.plan.steps.length x.runId) (hw : w.HandsOn b saved told x.runId)
    (hnodup : x.plan.ids.Nodup) (hfresh : saved 0 [])
    (hfree : ∀ k outputs, saved k outputs → LeavesFree x.plan k outputs) :
    x.FindsFree pace x.plan.Has ds := by
  cases h with
  | prepared hds hr => exact .of_none fun d hd => (hds d hd).1
  | @restored record checkpoint c pre es _ _ hrecord hstatus hcheckpoint hc hds hes hr =>
    refine .after_none (.of_none fun d hd => (hes d hd).1) fun d hd => (hds d hd).1
  | @attempted a keepJournal pre es t _ hds hbegins hcourse =>
    obtain ⟨⟨m, hm, hplace⟩, -⟩ := hbegins.inherits hw hfresh
    obtain ⟨m', hm', hle⟩ := hbegins.cursor hwell
    obtain rfl : m = m' := Int.natCast_inj.mp (hm.symm.trans hm')
    rw [carryOutFrom_onward hm] at hcourse
    refine .after_none ?_ fun d hd => (hds d hd).1
    cases hcourse with
    | stopped => exact .of_none (by simp)
    | @ask _ start stop _ _ _ answer fs _ _ _ rest =>
      have hsteps := (onward_findsFree hnodup hle (hfree m _ hplace) rest).mono fun _ _ h => h.1
      rw [← List.singleton_append]
      exact hsteps.after_none (by simp)

end

/-! ## Chains -/

/-- **One run, attempted again and again** over one store of run records, by `run` or by `resume`. Each attempt
    ends, or is stopped at any moment. -/
inductive Attempted (pace : Clock → Clock → Prop) (source : PlanSource) (id : String) :
    RunStore → List Trial → Prop where
  | nil {runs : RunStore} : Attempted pace source id runs []
  | cons {runs : RunStore} {a : Trial} {rest : List Trial} (hbefore : a.before.stores.runs = runs)
      (hattempts : a.Attempts pace source id)
      (hrest : Attempted pace source id a.after.stores.runs rest) :
      Attempted pace source id runs (a :: rest)

/-- **Outputs that are handed on**, and the position of the root list at which they stand: there are none in the
    beginning; and an attempt that has begun with such outputs hands on, as the backend keeps them, the ones
    to which it has carried them. -/
inductive Handed (p : Plan) (b : Backend) : List Trial → Nat → Keyed Value → Prop where
  | fresh {trials : List Trial} : Handed p b trials 0 []
  | saved {earlier later : List Trial} {a : Trial} {m k : Nat} {outputs outputs' : Keyed Value}
      (h : Handed p b earlier m outputs) (hcarried : CarriedOn p a.deeds m outputs k outputs') :
      Handed p b (earlier ++ a :: later) k (b.keepsFields outputs')

/-- **An output that was told** in some trials: a step has reported it, and it is that output or what the
    backend keeps of it. -/
def Told (b : Backend) (trials : List Trial) (key : String) (v : Value) : Prop :=
  ∃ a ∈ trials, ∃ r ∈ reports a.deeds, r.path.Proper ∧ r.path.text = key
    ∧ ∃ v₀, r.outcome = .ok v₀ ∧ (v = v₀ ∨ v = b.keeps v₀)

section

variable {p : Plan} {b : Backend} {trials more : List Trial} {k : Nat} {outputs : Keyed Value} {key : String}
  {v : Value}

theorem Handed.append (h : Handed p b trials k outputs) (more : List Trial) :
    Handed p b (trials ++ more) k outputs := by
  cases h with
  | fresh => exact .fresh
  | saved h hcarried =>
    rw [List.append_assoc, List.cons_append]
    exact .saved h hcarried

theorem Handed.keepsFields_eq (h : Handed p b trials k outputs) : b.keepsFields outputs = outputs := by
  cases h with
  | fresh => exact b.keepsFields_nil
  | saved => exact b.keepsFields_keepsFields _

theorem Handed.leavesFree (hnodup : p.ids.Nodup) (h : Handed p b trials k outputs) :
    LeavesFree p k outputs := by
  induction h with
  | fresh => exact .nil
  | saved _ hcarried ih => exact (hcarried.leavesFree hnodup ih).keepsFields b

theorem Told.append (h : Told b trials key v) (more : List Trial) : Told b (trials ++ more) key v := by
  obtain ⟨a, ha, hmore⟩ := h
  exact ⟨a, List.mem_append_left _ ha, hmore⟩

theorem Told.keeps (h : Told b trials key v) : Told b trials key (b.keeps v) := by
  obtain ⟨a, ha, r, hr, hproper, htext, v₀, ho, hv⟩ := h
  refine ⟨a, ha, r, hr, hproper, htext, v₀, ho, .inr ?_⟩
  rcases hv with rfl | rfl
  · rfl
  · exact b.keeps_keeps v₀

end

/-- **A trial and what it has of earlier ones.** -/
structure Trial.Inherits (pace : Clock → Clock → Prop) (plan : Plan) (id : String) (b : Backend)
    (earlier : List Trial) (a : Trial) : Prop where
  backend : a.before.backend = b
  layout : Layout pace ⟨a.engine, plan, id⟩ plan.Has (a.result ≠ none) a.deeds
  findsFree : Execution.FindsFree pace ⟨a.engine, plan, id⟩ plan.Has a.deeds
  reminded : ∀ d ∈ a.deeds, d.Reminds (Told b (earlier ++ [a]))
  outputs : ∃ m outputs, Handed plan b earlier m outputs
    ∧ (∀ k c, Enters a.deeds k c → ∃ i : Nat, k = i ∧ CarriedOn plan a.deeds m outputs i c.steps)
    ∧ ∀ fin v, a.result = some (.ok fin, v) →
        CarriedOn plan a.deeds m outputs plan.steps.length fin.context.steps
          ∨ (∀ k c, ¬ Enters a.deeds k c)
            ∧ ∃ k, a.before.CompletedAt id k ∧ Handed plan b earlier k fin.context.steps

section

variable {pace : Clock → Clock → Prop} {source : PlanSource} {plan : Plan} {id : String} {b : Backend}
  {a : Trial} {earlier later trials : List Trial} {runs : RunStore}

/-- An attempt at a run whose record hands on what earlier ones have saved. -/
theorem Trial.Attempts.inherits (h : a.Attempts pace source id) (haccept : source.accept = .ok plan)
    (hid : id ≠ "") (hnodup : plan.ids.Nodup) (hwell : a.before.WellStored plan.steps.length id)
    (hw : a.before.HandsOn b (Handed plan b earlier) (Told b earlier) id) :
    a.Inherits pace plan id b earlier
      ∧ a.after.HandsOn b (Handed plan b (earlier ++ [a])) (Told b (earlier ++ [a])) id
      ∧ a.after.WellStored plan.steps.length id := by
  obtain ⟨hadmits, hwell', anew, hundertakes⟩ := h.undertakes haccept hid hwell
  have hmono : ∀ k outputs, Handed plan b earlier k outputs →
      Handed plan b (earlier ++ [a]) k outputs ∧ b.keepsFields outputs = outputs :=
    fun k outputs h => ⟨h.append [a], h.keepsFields_eq⟩
  have htold : ∀ key v, Told b earlier key v → Told b (earlier ++ [a]) key v :=
    fun key v h => h.append [a]
  obtain ⟨hthrough, houtputs⟩ := hundertakes.inherits hwell hw hnodup .fresh
    (fun k outputs h => h.leavesFree hnodup) hmono
    (fun m outputs k outputs' h hcarried => .saved h hcarried) htold (fun key v h => h.keeps)
    fun r hr hproper v ho => ⟨a, by simp, r, hr, hproper, rfl, v, ho, .inl rfl⟩
  have hfree := hundertakes.findsFree hwell hw hnodup .fresh fun k outputs h => h.leavesFree hnodup
  exact ⟨⟨hw.backend, (hundertakes.layout hwell).1, hfree, fun d hd => hthrough.along.of_mem hadmits hd,
    houtputs⟩, hthrough.ends hadmits, hwell'⟩

/-- **Every attempt has what it has of earlier ones.** -/
theorem Attempted.inherits (h : Attempted pace source id runs trials) (haccept : source.accept = .ok plan)
    (hid : id ≠ "") (hnodup : plan.ids.Nodup) : ∀ {before : List Trial} {w : World}, w.stores.runs = runs →
      w.WellStored plan.steps.length id → w.HandsOn b (Handed plan b before) (Told b before) id →
      ∀ {earlier : List Trial}, trials = earlier ++ a :: later →
        a.Inherits pace plan id b (before ++ earlier) := by
  induction h with
  | nil => intro before w _ _ _ earlier htrials; simp at htrials
  | @cons runs c rest hbefore hattempts hrest ih =>
    intro before w hruns hwell hw earlier htrials
    have hsame : c.before.stores.runs = w.stores.runs := hbefore.trans hruns.symm
    obtain ⟨hinherits, hafter, hwell'⟩ :=
      hattempts.inherits haccept hid hnodup (hwell.of_runs hsame) (hw.of_runs hsame)
    cases earlier with
    | nil =>
      obtain ⟨rfl, -⟩ := List.cons.inj htrials
      rwa [List.append_nil]
    | cons c' earlier =>
      obtain ⟨rfl, hlater⟩ := List.cons.inj htrials
      have hnext := ih rfl hwell' hafter hlater
      rwa [List.append_assoc] at hnext

end

end Runbook
