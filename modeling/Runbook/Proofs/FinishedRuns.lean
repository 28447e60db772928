import Runbook.Proofs.Bareness
import Runbook.Proofs.RecordedEnds
import Runbook.Proofs.SingleStart

/-!
# `Proofs.FinishedRuns` — a finished run is resumed without doing anything

The last save of a run that returns is made at the end of the root list, with the context that it returns; and a
run that is recorded as completed has been saved. So whoever resumes such a run is handed what the backend keeps
of that context, and the result in the record; and nothing happens in the world but that an attempt has begun.

All of this rests on saves that come to be: checkpoints are kept, the store works, and everything that comes in
is JSON.

## Contents
- **Records.** `World.Restorable`; `World.Secured`, what deeds leave of it.
- **The root list.** `enter_saved`; `afterEntry_finished`, by induction on what is left of the list.
- **Trials.** `Trial.Recorded.secures`, and `Attempted.secured` for chains.
- **Resumes.** `World.carryOut_resume`, one more resume; `World.resumeAll`, any number of them, and
  `finished_run_rests`.
-/

namespace Runbook

open RunRecord

/-! ## Records -/

/-- Contexts are the same when they are written down the same. -/
theorem Context.toValue_inj {c c' : Context} (h : c.toValue = c'.toValue) : c = c' := by
  have hrestored := Context.restore_toValue c
  rw [h, Context.restore_toValue c'] at hrestored
  exact (Except.ok.inj hrestored).symm

/-- A context of plain data is kept as it is. -/
theorem Backend.keepsContext_of_isData (b : Backend) {c : Context} (h : c.IsData) : b.keepsContext c = c :=
  Context.toValue_inj ((b.toValue_keepsContext c).trans (b.keeps_of_isData h.toValue))

theorem Backend.keepsContext_memory (c : Context) : Backend.memory.keepsContext c = c :=
  Context.toValue_inj (Backend.toValue_keepsContext .memory c)

section

variable {b : Backend} {id : String} {w w' u : World} {d : Deed} {ds : List Deed}

/-- In a store that works, a checkpoint is never lost. -/
theorem World.Working.checkpoint_stays (hw : w.Working id) (h : w.Answers d w') (hd : d.call.Informs id)
    (htime : d.Timely w.backend) (hsaved : w.checkpointOf id ≠ none) : w'.checkpointOf id ≠ none := by
  cases h.checkpointStep hd.orderly id with
  | unreadable hlost =>
    obtain ⟨existing, hexisting, -⟩ := (hw.answers h hd htime).1.record
    obtain ⟨f, hf⟩ := hlost
    exact absurd (hexisting.symm.trans hf) (by simp)
  | stays hsame => rwa [hsame]
  | copied hcopy =>
    rw [hcopy]
    simpa using hsaved
  | saved _ _ _ hnew =>
    rw [hnew]
    simp

/-- **A run that can be restored** if it is completed: then its record holds a checkpoint. -/
def World.Restorable (id : String) (w : World) : Prop :=
  (w.standing id).status = .completed → w.checkpointOf id ≠ none

/-- **A record that is secured**: in a store that works, its checkpoint is tidy, and it has one if the run is
    completed. -/
structure World.Secured (b : Backend) (id : String) (w : World) : Prop where
  working : w.Working id
  backend : w.backend = b
  tidy : w.TidyStored id
  restorable : w.Restorable id

/-- Calls that do not say that a run is completed. -/
def Call.Unfinishing (id : String) (c : Call) : Prop := toldStatus? (c.told id) ≠ some .completed

theorem Call.Unfinishing.of_writesRun {c : Call} (h : c.writesRun = false) : c.Unfinishing id := by
  rw [Unfinishing, Call.told_of_writesRun h]
  simp [toldStatus?, Keyed.get?, RunStatus.ofValue, Value.text?, Checked.complain]

theorem Call.Midway.unfinishing {c : Call} (h : c.Midway id) : c.Unfinishing id := fun hcompleted => by
  rcases h.toldStatus?_eq _ hcompleted with h | h <;> exact absurd h (by simp)

/-- What is done before an attempt does not complete the run. -/
theorem Call.Prepares.unfinishing {c : Call} (h : c.Prepares id) : c.Unfinishing id := by
  cases h with
  | freshId => exact .of_writesRun rfl
  | look => exact .of_writesRun rfl
  | @update updates hcalm =>
    intro hcompleted
    rw [Call.told_updateRun, toldStatus?] at hcompleted
    split at hcompleted
    · next s hs =>
      obtain rfl := Option.some.inj hcompleted
      have hword := RunStatus.eq_of_ofValue hs
      cases hfound : updates.get? "status" with
      | none =>
        rw [hfound] at hword
        exact absurd hword (by simp)
      | some v =>
        rw [hfound] at hword
        exact hcalm.status (hfound.trans (congrArg some hword))
    · exact absurd hcompleted (by simp)

/-- **The step lemma.** A record stays secured if only tidy attempts are saved, and the run is not completed
    without a checkpoint. -/
theorem World.Secured.answers (hw : w.Secured b id) (h : w.Answers d w') (hd : d.call.Informs id)
    (htime : d.Timely b) (htidy : (∃ other, d.call = .saveCheckpoint other) → w.attempt.Tidy)
    (hsaved : w.checkpointOf id = none → d.call.Unfinishing id) : w'.Secured b id where
  working := (hw.working.answers h hd (hw.backend ▸ htime)).1
  backend := (h.backend_eq hd.orderly).trans hw.backend
  tidy := hw.tidy.answers h hd.orderly htidy
  restorable := by
    intro hcompleted
    have htime : d.Timely w.backend := hw.backend ▸ htime
    refine hw.working.checkpoint_stays h hd htime fun hnone => ?_
    have hunfinishing := hsaved hnone
    refine hw.restorable ?_ hnone
    rcases (hw.working.answers h hd htime).2 with hsaid | ⟨hsame, -⟩
    · rw [hsaid] at hcompleted
      have hcompleted : (toldStatus? (d.call.told id)).getD (w.standing id).status = .completed := hcompleted
      cases htold : toldStatus? (d.call.told id) with
      | none => rwa [htold] at hcompleted
      | some s =>
        rw [htold] at hcompleted
        exact absurd (htold.trans (congrArg some hcompleted)) hunfinishing
    · rwa [← hsame]

/-- **The run lemma.** -/
theorem World.Secured.admits (hw : w.Secured b id) (hadmits : w.Admits ds w')
    (hds : ∀ d ∈ ds, d.call.Informs id) (htime : ∀ d ∈ ds, d.Timely b)
    (htidy : w.Along (fun u d _ => (∃ other, d.call = .saveCheckpoint other) → u.attempt.Tidy) ds)
    (hsaved : w.checkpointOf id = none → ∀ d ∈ ds, d.call.Unfinishing id) : w'.Secured b id := by
  induction hadmits with
  | nil => exact hw
  | @cons w w₁ w' d ds first rest ih =>
    have hd := hds d List.mem_cons_self
    have hfirst := hw.answers first hd (htime d List.mem_cons_self)
      (htidy [] d ds w w₁ rfl .nil first) fun hnone => hsaved hnone d List.mem_cons_self
    refine ih hfirst (fun e he => hds e (.tail _ he)) (fun e he => htime e (.tail _ he)) (htidy.tail first)
      fun hnone e he => hsaved ?_ e (.tail _ he)
    by_contra hsome
    exact hw.working.checkpoint_stays first hd (hw.backend ▸ htime d List.mem_cons_self) hsome hnone

/-- Quiet deeds that do not complete the run leave its record secured. -/
theorem World.Secured.quiet (hw : w.Secured b id) (hadmits : w.Admits ds w')
    (hds : ∀ d ∈ ds, d.call.Informs id) (htime : ∀ d ∈ ds, d.Timely b)
    (hquiet : ∀ d ∈ ds, d.call.Quiet ∧ d.call.Unfinishing id) : w'.Secured b id := by
  refine hw.admits hadmits hds htime ?_ fun _ d hd => (hquiet d hd).2
  rintro pre d post u u' rfl - - ⟨other, hsave⟩
  exact absurd hsave ((hquiet d (by simp)).1.2 other)

end

/-! ## The root list -/

section

variable {pace : Clock → Clock → Prop} {x : Execution} {m : Nat} {c : Context} {keepJournal : Bool}
  {w w' : World} {ds : List Deed} {t : Clock} {r : Option (Outcome × Clock)} {a : Attempt} {anew : Prop}

/-- **A save in a store that works**: when a position of the root list was entered, the attempt at it is in the
    record. -/
theorem enter_saved {res : Except Fault Unit × Clock}
    (h : Program.Course pace none t (x.enter m keepJournal c).outcome ds (some res)) (hadmits : w.Admits ds w')
    (hw : w.Working x.runId) (htime : ∀ d ∈ ds, d.Timely w.backend)
    (htidy : (w.attempt.enter m c keepJournal).Tidy) (hc : c.Writable) (hon : x.engine.checkpoints = true) :
    w'.checkpointOf x.runId = some
      (w.backend.keeps (checkpointData m c.toValue (w.attempt.enter m c keepJournal).journal)) := by
  have houtcome : (x.enter m keepJournal c).outcome
      = .ask (.enterStep m c keepJournal) fun _ => x.saveCheckpoint.outcome := rfl
  rw [houtcome] at h
  cases h with
  | ask _ _ rest =>
    rw [Execution.outcome_saveCheckpoint, if_pos hon] at rest
    cases rest with
    | @ask _ start _ _ _ _ _ _ _ _ rest =>
      obtain ⟨w₁, hd, hadmits⟩ := hadmits.of_cons
      obtain ⟨w₂, hsave, hadmits⟩ := hadmits.of_cons
      rw [rest.of_done.1] at hadmits
      obtain rfl := hadmits.eq_of_nil
      -- the attempt that is saved is the one at the position that was entered
      have hattempt : w₁.attempt = w.attempt.enter m c keepJournal := hd.attempt_eq
      have hbackend : w₁.backend = w.backend := hd.backend_eq (.other rfl)
      have hworking := (hw.answers hd (.other rfl) (htime _ List.mem_cons_self)).1
      have hat : ({ w₁ with clock := start } : World).Working x.runId :=
        ⟨hworking.isOpen, hworking.outage, hworking.record⟩
      rw [hsave.saveCheckpoint_eq, ← hattempt, ← hbackend]
      exact (hat.save (hbackend ▸ htime _ (.tail _ List.mem_cons_self))).2.2 _
        ((hattempt ▸ htidy).checkpoint (by rw [hattempt]; rfl) (by rw [hattempt]; rfl) hc)

/-- A checkpoint that was kept stays as it is until the next save. -/
theorem World.Working.checkpoint_kept {id : String} {data : Value} (hw : w.Working id) (hadmits : w.Admits ds w')
    (hinforms : ∀ d ∈ ds, d.call.Informs id) (htime : ∀ d ∈ ds, d.Timely w.backend)
    (hsaves : ∀ d ∈ ds, ∀ other, d.call ≠ .saveCheckpoint other) (hdata : w.checkpointOf id = some data)
    (hkept : w.backend.keeps data = data) : w'.checkpointOf id = some data := by
  refine (hadmits.keeps (I := fun u => u.Working id ∧ u.backend = w.backend ∧ u.checkpointOf id = some data)
    (fun d hd {u u'} hu hu' => ?_) ⟨hw, rfl, hdata⟩).2.2
  obtain ⟨hworking, hbackend, hstored⟩ := hu
  have hd' := hinforms d hd
  have hworking' := (hworking.answers hu' hd' (hbackend ▸ htime d hd)).1
  refine ⟨hworking', (hu'.backend_eq hd'.orderly).trans hbackend, ?_⟩
  obtain ⟨existing, hexisting, -⟩ := hworking'.record
  refine ((hu'.checkpointOf_same hd'.orderly (hsaves d hd) fun data' hdata' => ?_).resolve_left ?_).trans hstored
  · obtain rfl := Option.some.inj (hdata'.symm.trans hstored)
    rw [hbackend, hkept]
  · rintro ⟨f, hf⟩
    exact absurd (hexisting.symm.trans hf) (by simp)

/-- **A deed as it should be**: it informs the record, at a time that the backend can hold, and is told only what
    can be written down. -/
structure Deed.Faithful (b : Backend) (id : String) (d : Deed) : Prop where
  informs : d.call.Informs id
  timely : d.Timely b
  plain : d.call.Plain d.answer

/-- **What is left of the root list**, when the step at its head was entered: if it ends well, the record holds
    the context at its end. -/
theorem afterEntry_finished {fin : Finished} {v : Clock} (h : AfterEntry pace x m c t ds r)
    (hr : r = some (.ok fin, v)) (hm : m ≤ x.plan.steps.length) (hadmits : w.Admits ds w')
    (hw : w.Working x.runId) (hds : ∀ d ∈ ds, d.Faithful w.backend x.runId) (hc : c.Writable)
    (hon : x.engine.checkpoints = true)
    (hsaved : m = x.plan.steps.length →
      w.checkpointOf x.runId = some (w.backend.keeps (checkpointData m c.toValue []))) :
    fin.context.Writable ∧ w'.checkpointOf x.runId
      = some (w.backend.keeps (checkpointData x.plan.steps.length fin.context.toValue [])) := by
  -- by induction on the number of steps that are left
  obtain ⟨k, hk⟩ : ∃ k, m + k = x.plan.steps.length := ⟨_, Nat.add_sub_cancel' hm⟩
  induction k using Nat.strongRecOn generalizing m c w ds t r with | _ k ih =>
  cases h with
  | inside => exact absurd hr (by simp)
  | failed _ _ _ _ herror => exact absurd (herror _ hr) (by simp)
  | last hend hlast hok =>
    obtain rfl : fin = ⟨c, c.previous⟩ := Except.ok.inj (hok _ hr)
    refine ⟨hc, hend ▸ hw.checkpoint_kept hadmits (fun d hd => (hds d hd).informs) (fun d hd => (hds d hd).timely)
      (fun d hd other => ?_) (hsaved hend) (Backend.keeps_keeps ..)⟩
    rw [(hlast d hd).2]
    simp
  | @on s₀ _ _ ws es _ fin₀ _ hs hwalk hguarded hnext =>
    have hlt : m < x.plan.steps.length := (List.getElem?_eq_some_iff.mp hs).1
    obtain ⟨w₁, hw₁, hadmits⟩ := hadmits.split
    have hws : ∀ d ∈ ws, d.Faithful w.backend x.runId := fun d hd => hds d (List.mem_append_left _ hd)
    have hes : ∀ d ∈ es, d.Faithful w.backend x.runId := fun d hd => hds d (List.mem_append_right _ hd)
    have hc₁ := Execution.walk_writable (fun d hd => (hws d hd).plain) hc hwalk hguarded
    obtain ⟨hworking₁, hbackend₁, -⟩ := hw.admits hw₁ (fun d hd => (hws d hd).informs) fun d hd => (hws d hd).timely
    rw [← hbackend₁] at hes ⊢
    cases onward_course hlt hnext with
    | entering => exact absurd hr (by simp)
    | @entered _ es fs _ henter hrest =>
      rw [Bool.false_and] at henter
      obtain ⟨w₂, hw₂, hadmits⟩ := hadmits.split
      -- the journal is empty at every position but the first
      have hentered := enter_saved henter hw₂ hworking₁ (fun d hd => (hes d (List.mem_append_left _ hd)).timely)
        (Attempt.tidy_of_nil rfl) hc₁ hon
      obtain ⟨hworking₂, hbackend₂, -⟩ := hworking₁.admits hw₂
        (fun d hd => (hes d (List.mem_append_left _ hd)).informs)
        fun d hd => (hes d (List.mem_append_left _ hd)).timely
      have hfs : ∀ d ∈ fs, d.Faithful w₁.backend x.runId := fun d hd => hes d (List.mem_append_right _ hd)
      rw [← hbackend₂] at hfs hentered ⊢
      exact ih (k - 1) (by omega) hrest hr hlt hadmits hworking₂ hfs hc₁ (fun _ => hentered) (by omega)

/-- **What is left of the root list** leaves the record secured; and if it ends well, the record holds the
    context at its end. -/
theorem onward_secured {b : Backend} (hm : m ≤ x.plan.steps.length)
    (h : Fiber.Course pace t (x.onward m keepJournal c) ds r) (hadmits : w.Admits ds w')
    (hw : w.Secured b x.runId) (hinforms : ∀ d ∈ ds, d.call.Informs x.runId) (htime : ∀ d ∈ ds, d.Timely b)
    (houtside : ∀ d ∈ ds, d.call.isOutside = true → d.call.Plain d.answer) (htidy : w.attempt.Tidy)
    (hc : c.Writable) (hon : x.engine.checkpoints = true) :
    w'.Secured b x.runId ∧ ∀ fin v, r = some (.ok fin, v) → fin.context.Writable
      ∧ w'.checkpointOf x.runId
        = some (b.keeps (checkpointData x.plan.steps.length fin.context.toValue [])) := by
  -- all answers are plain, and the attempt is tidy all the time
  have hcalls := onward_ofAttempt hm h
  have hlayout := onward_layout h
  have hplain := (hlayout.tidy hcalls houtside htidy (List.append_nil ds).symm hadmits).2
  have halong : w.Along (fun u d _ => (∃ other, d.call = .saveCheckpoint other) → u.attempt.Tidy) ds :=
    fun pre d post u u' hds hpre _ _ => (hlayout.tidy hcalls houtside htidy hds hpre).1
  cases onward_course hm h with
  | entering henter =>
    exact ⟨hw.admits hadmits hinforms htime halong fun _ d hd => (enter_midway henter d hd).unfinishing,
      fun fin v hr => absurd hr (by simp)⟩
  | @entered _ es fs _ henter hrest =>
    obtain ⟨w₁, hw₁, hadmits⟩ := hadmits.split
    have hes {d : Deed} (hd : d ∈ es) : d ∈ es ++ fs := List.mem_append_left _ hd
    have hfs {d : Deed} (hd : d ∈ fs) : d ∈ es ++ fs := List.mem_append_right _ hd
    have hsecured := hw.admits hw₁ (fun d hd => hinforms d (hes hd)) (fun d hd => htime d (hes hd)) halong.left
      fun _ d hd => (enter_midway henter d hd).unfinishing
    have hsaved := enter_saved henter hw₁ hw.working (fun d hd => hw.backend ▸ htime d (hes hd))
      ((Execution.Between.enters (x := x) m c _).tidy htidy) hc hon
    rw [hw.backend] at hsaved
    refine ⟨hsecured.admits hadmits (fun d hd => hinforms d (hfs hd)) (fun d hd => htime d (hfs hd))
      (halong.right hw₁) fun hnone => absurd (hsaved.symm.trans hnone) (by simp), fun fin v hr => ?_⟩
    have hfaithful : ∀ d ∈ fs, d.Faithful w₁.backend x.runId := fun d hd =>
      ⟨hinforms d (hfs hd), hsecured.backend ▸ htime d (hfs hd), hplain d (hfs hd)⟩
    have hfinished := afterEntry_finished hrest hr hm hadmits hsecured.working hfaithful hc hon
    rw [hsecured.backend] at hfinished
    refine hfinished fun hend => ?_
    -- at the end of the list no journal is kept
    rw [decide_eq_false (by omega), Bool.and_false] at hsaved
    exact hsaved

/-- The same of an attempt that begins at a position of the root list. -/
theorem carryOutFrom_secured {b : Backend} (hcursor : a.cursor = m) (hm : m ≤ x.plan.steps.length)
    (h : Fiber.Course pace t (x.carryOutFrom a keepJournal) ds r) (hadmits : w.Admits ds w')
    (hw : w.Secured b x.runId) (hinforms : ∀ d ∈ ds, d.call.Informs x.runId) (htime : ∀ d ∈ ds, d.Timely b)
    (houtside : ∀ d ∈ ds, d.call.isOutside = true → d.call.Plain d.answer) (htidy : a.Tidy)
    (hbase : a.base.Writable) (hon : x.engine.checkpoints = true) :
    w'.Secured b x.runId ∧ ∀ fin v, r = some (.ok fin, v) → fin.context.Writable
      ∧ w'.checkpointOf x.runId
        = some (b.keeps (checkpointData x.plan.steps.length fin.context.toValue [])) := by
  rw [carryOutFrom_onward hcursor] at h
  cases h with
  | stopped =>
    obtain rfl := hadmits.eq_of_nil
    exact ⟨hw, fun fin v hr => absurd hr (by simp)⟩
  | ask _ _ rest =>
    obtain ⟨w₁, hbegin, hadmits⟩ := hadmits.of_cons
    have hattempt : w₁.attempt = a := hbegin.attempt_eq
    have hbegun := hw.answers hbegin (hinforms _ List.mem_cons_self) (htime _ List.mem_cons_self)
      (fun hsave => absurd hsave (by simp)) fun _ => .of_writesRun rfl
    exact onward_secured hm rest hadmits hbegun (fun d hd => hinforms d (.tail _ hd))
      (fun d hd => htime d (.tail _ hd)) (fun d hd => houtside d (.tail _ hd)) (hattempt ▸ htidy) hbase hon

/-! ## Trials -/

/-- **The attempt that a trial begins** is at a position of the root list, and can be saved. -/
theorem Execution.BeginsWith.ready (h : x.BeginsWith w anew a keepJournal)
    (hstored : w.WellStored x.plan.steps.length x.runId) (hlegible : w.Legible x.runId)
    (htidy : w.TidyStored x.runId) (hinput : x.plan.input.unwritable? = none) :
    (∃ m : Nat, a.cursor = m ∧ m ≤ x.plan.steps.length) ∧ a.Tidy ∧ a.base.Writable := by
  refine ⟨h.cursor hstored, ?_⟩
  cases h with
  | afresh => exact ⟨Attempt.tidy_of_nil rfl, startContext_writable hinput _⟩
  | again _ hfound hsnapshot ha =>
    obtain ⟨record, hrecord, -, hcheckpoint⟩ := hfound
    obtain ⟨checkpoint', hcheckpoint', hread⟩ := hlegible.found hrecord
    obtain rfl := Except.ok.inj (hcheckpoint.symm.trans hcheckpoint')
    rcases hread with ⟨hnone, -⟩ | ⟨a', hdata, hcontext, hbind⟩
    · exact absurd (hsnapshot.symm.trans hnone) (by simp)
    · obtain rfl := Option.some.inj (hsnapshot.symm.trans hcontext)
      obtain rfl := Except.ok.inj (ha.symm.trans hbind)
      obtain ⟨hjournal, hbase⟩ := (htidy _ hdata).attempt
      exact ⟨⟨hjournal.writable, hjournal.mapping⟩, hbase⟩

/-- Attempts that are written down the same have the same context. -/
theorem Attempt.base_eq_of_written {a a' : Attempt} (h : a.written = a'.written) : a.base = a'.base := by
  simp only [Attempt.written, Value.object.injEq, List.cons.injEq, Prod.mk.injEq, true_and, and_true] at h
  exact Context.toValue_inj h.2.1

/-- A store that works keeps the checkpoint of the record as it is. -/
theorem World.Working.keeps_checkpoint {id : String} {data : Value} (hw : w.Working id)
    (hdata : w.checkpointOf id = some data) : w.backend.keeps data = data := by
  obtain ⟨record, hrecord, hfound⟩ := World.checkpointOf_eq_some.mp hdata
  obtain ⟨existing, hexisting, hkept⟩ := hw.record
  obtain rfl : some record = existing := Except.ok.inj (hrecord.symm.trans hexisting)
  have hmetadata : w.backend.keepsFields record.metadata = record.metadata :=
    congrArg RunRecord.metadata (hkept record rfl).2
  have hsame := Backend.get?_keepsFields w.backend record.metadata StoredCheckpoint.key
  rw [hmetadata, hfound] at hsame
  exact (Option.some.inj hsame).symm

/-- **A record that holds a context**, in its checkpoint. -/
def World.Holds (id : String) (c : Context) (w : World) : Prop :=
  ∃ a : Attempt, w.checkpointOf id = some a.written ∧ a.base = c

theorem World.Holds.of_data {b : Backend} {id : String} {k : Nat}
    (h : w.checkpointOf id = some (b.keeps (checkpointData k c.toValue []))) : w.Holds id (b.keepsContext c) := by
  refine ⟨⟨id, k, b.keepsContext c, []⟩, ?_, rfl⟩
  rw [h, Backend.keeps_checkpointData, Backend.keepsFields_nil, ← Backend.toValue_keepsContext]
  rfl

/-- **A run that is found completed** is restored from what its record holds, and the backend keeps that as it
    is. -/
theorem World.Secured.found {b : Backend} {id : String} {plan : Plan} {record : RunRecord}
    {checkpoint : StoredCheckpoint} (hw : w.Secured b id) (hlegible : w.Legible id)
    (hrecord : w.recordOf id = .ok (some record)) (hstatus : record.status = .completed)
    (hcheckpoint : StoredCheckpoint.ofMetadata record.metadata = .ok checkpoint)
    (hc : checkpoint.Restores plan id c) : c.Writable ∧ b.keepsContext c = c ∧ w.Holds id c := by
  obtain ⟨checkpoint', hcheckpoint', hread⟩ := hlegible.found hrecord
  obtain rfl := Except.ok.inj (hcheckpoint.symm.trans hcheckpoint')
  rcases hread with ⟨-, hnone⟩ | ⟨a, hdata, hcontext, -⟩
  · refine absurd hnone (hw.restorable ?_)
    rw [World.standing_of_record hrecord]
    exact hstatus
  · obtain rfl : a.base = c := by
      cases hc with
      | none hnone => exact absurd (hcontext.symm.trans hnone) (by simp)
      | stored hsnapshot hrestore =>
        obtain rfl := Option.some.inj (hsnapshot.symm.trans hcontext)
        exact Except.ok.inj ((Context.restore_toValue _).symm.trans hrestore)
    have hkept := hw.working.keeps_checkpoint hdata
    rw [hw.backend, Backend.keeps_written] at hkept
    exact ⟨(hw.tidy _ hdata).attempt.2, Attempt.base_eq_of_written hkept, a, hdata, rfl⟩

end

/-- **A faithful trial**: it keeps checkpoints, in a store that works, and is told only what can be written
    down. -/
structure Trial.Faithful (a : Trial) : Prop extends a.Served where
  checkpoints : a.engine.checkpoints = true
  plain : ∀ d ∈ a.deeds, d.call.isOutside = true → d.call.Plain d.answer

section

variable {pace : Clock → Clock → Prop} {source : PlanSource} {plan : Plan} {id : String} {a : Trial}
  {trials earlier later : List Trial} {runs : RunStore} {b : Backend} {w : World}

/-- **The step lemma for trials.** A trial leaves the record secured; and if it returns, the record holds the
    context that it returns. -/
theorem Trial.Recorded.secures (h : a.Recorded pace plan id) (hattempts : a.Attempts pace source id)
    (haccept : source.accept = .ok plan) (hid : id ≠ "") (hinput : plan.input.unwritable? = none)
    (hfaithful : a.Faithful) (hsecured : a.before.Secured b id)
    (hstored : a.before.WellStored plan.steps.length id) :
    a.after.Secured b id ∧ a.after.WellStored plan.steps.length id
      ∧ ∀ fin t, a.result = some (.ok fin, t) →
        fin.context.Writable ∧ a.after.Holds id (b.keepsContext fin.context) := by
  obtain ⟨-, hstored', anew, hundertakes⟩ := hattempts.undertakes haccept hid hstored
  have hinforms := h.informs
  have htime : ∀ d ∈ a.deeds, d.Timely b := hsecured.backend ▸ hfaithful.timely
  have hadmits := h.admits
  have hplain := hfaithful.plain
  suffices hdone : a.after.Secured b id ∧ ∀ fin t, a.result = some (.ok fin, t) →
      fin.context.Writable ∧ a.after.Holds id (b.keepsContext fin.context) from ⟨hdone.1, hstored', hdone.2⟩
  generalize a.deeds = ds at *
  generalize hr : a.result = r at *
  have hpreparing {ds : List Deed} (hds : Preparing id ds) : ∀ d ∈ ds, d.call.Quiet ∧ d.call.Unfinishing id :=
    fun d hd => ⟨(hds d hd).2.quiet, (hds d hd).2.unfinishing⟩
  cases hundertakes with
  | prepared hds hfailed =>
    refine ⟨hsecured.quiet hadmits hinforms htime (hpreparing hds), fun fin t hres => ?_⟩
    obtain ⟨-, f, hf⟩ := hfailed _ hres
    exact absurd hf (by simp)
  | @restored record checkpoint c ds es _ hanew hrecord hstatus hcheckpoint hc hds hes hok =>
    have hquiet : ∀ d ∈ ds ++ es, d.call.Quiet ∧ d.call.Unfinishing id := fun d hd => by
      rcases List.mem_append.mp hd with hd | hd
      · exact hpreparing hds d hd
      · rw [(hes d hd).2]
        exact ⟨Call.quiet_beginAttempt _, .of_writesRun rfl⟩
    refine ⟨hsecured.quiet hadmits hinforms htime hquiet, fun fin t hres => ?_⟩
    -- the run was completed before, and the checkpoint that it was restored from is still there
    obtain rfl : fin = ⟨c, record.result⟩ := Except.ok.inj (hok _ hres)
    obtain ⟨hwritable, hkept, a', hdata, hbase⟩ := hsecured.found h.legible hrecord hstatus hcheckpoint hc
    refine ⟨hwritable, a', ?_, hbase.trans hkept.symm⟩
    exact hsecured.working.checkpoint_kept hadmits hinforms (fun d hd => hsecured.backend ▸ htime d hd)
      (fun d hd => (hquiet d hd).1.2) hdata (hsecured.working.keeps_checkpoint hdata)
  | @attempted a' keepJournal ds es _ _ hds hbegins hcourse =>
    obtain ⟨⟨m, hm, hle⟩, htidy, hbase⟩ := hbegins.ready hstored h.legible hsecured.tidy hinput
    have hmem {d : Deed} (hd : d ∈ es) : d ∈ ds ++ es := List.mem_append_right _ hd
    obtain ⟨w₁, hw₁, hadmits⟩ := hadmits.split
    have hsecured₁ := hsecured.quiet hw₁ (fun d hd => hinforms d (List.mem_append_left _ hd))
      (fun d hd => htime d (List.mem_append_left _ hd)) (hpreparing hds)
    obtain ⟨hafter, hfinished⟩ := carryOutFrom_secured hm hle hcourse hadmits hsecured₁
      (fun d hd => hinforms d (hmem hd)) (fun d hd => htime d (hmem hd)) (fun d hd => hplain d (hmem hd)) htidy hbase
      hfaithful.checkpoints
    exact ⟨hafter, fun fin t hres => ⟨(hfinished fin t hres).1, .of_data (hfinished fin t hres).2⟩⟩

/-- **The run lemma for chains.** Every trial finds the record secured. -/
theorem Attempted.secured (h : Attempted pace source id runs trials) (haccept : source.accept = .ok plan)
    (hid : id ≠ "") (hinput : plan.input.unwritable? = none) (hrecorded : ∀ a ∈ trials, a.Recorded pace plan id)
    (hfaithful : ∀ a ∈ trials, a.Faithful) (htrials : trials = earlier ++ a :: later) :
    ∀ {w : World}, w.stores.runs = runs → w.backend = b → w.TidyStored id → w.Restorable id →
      w.WellStored plan.steps.length id →
      a.before.Secured b id ∧ a.before.WellStored plan.steps.length id ∧ a.Attempts pace source id := by
  induction h generalizing earlier with
  | nil => exact absurd htrials (by simp)
  | @cons runs first rest hbefore hattempts hrest ih =>
    intro w hw hbackend htidy hrestorable hstored
    have hsame : first.before.stores.runs = w.stores.runs := hbefore.trans hw.symm
    have hfirst := hrecorded first List.mem_cons_self
    have hsecured : first.before.Secured b id :=
      { working := hfirst.working
        backend := by rw [World.backend, hsame]; exact hbackend
        tidy := htidy.of_runs hsame
        restorable := by
          rwa [World.Restorable, World.standing_congr (World.recordOf_congr hsame id), World.checkpointOf,
            World.recordOf_congr hsame] }
    have hstored := hstored.of_runs hsame
    cases earlier with
    | nil =>
      obtain ⟨rfl, -⟩ := List.cons.inj htrials
      exact ⟨hsecured, hstored, hattempts⟩
    | cons first' earlier =>
      obtain ⟨rfl, htail⟩ := List.cons.inj htrials
      obtain ⟨hafter, hstored', -⟩ := hfirst.secures hattempts haccept hid hinput
        (hfaithful first List.mem_cons_self) hsecured hstored
      exact ih (fun c hc => hrecorded c (.tail _ hc)) (fun c hc => hfaithful c (.tail _ hc)) htail rfl hafter.backend
        hafter.tidy hafter.restorable hstored'

end

/-! ## Resumes -/

section

variable {id : String} {w : World} {c : Context} {record : RunRecord} {source : PlanSource} {plan : Plan}

namespace Scheduler

theorem spawnAll_world (signals : List Signal) (s : Scheduler Outcome) :
    (s.spawnAll signals).world = s.world := by
  induction signals generalizing s with
  | nil => rfl
  | cons g rest ih => exact ih _

/-- Whoever has ended takes no more turns. -/
theorem finish_of_outcome {ρ : Type} {s : Scheduler ρ} (h : s.outcome.isSome = true) (turns : Nat) :
    finish turns s = s := by
  cases turns with
  | zero => rfl
  | succ turns => rw [finish, if_pos h]

end Scheduler

/-- What is read of the record of a run that is completed. -/
theorem World.Legible.restores (hlegible : w.Legible id) (hrecord : w.recordOf id = .ok (some record))
    (hholds : w.Holds id c) :
    ∃ checkpoint, StoredCheckpoint.ofMetadata record.metadata = .ok checkpoint
      ∧ checkpoint.context? = some c.toValue := by
  obtain ⟨checkpoint, hread, hfound⟩ := hlegible.found hrecord
  obtain ⟨a, hdata, rfl⟩ := hholds
  rcases hfound with ⟨-, hnone⟩ | ⟨a', hdata', hcontext, -⟩
  · exact absurd (hnone.symm.trans hdata) (by simp)
  · rw [Attempt.base_eq_of_written (Option.some.inj (hdata.symm.trans hdata'))]
    exact ⟨checkpoint, hread, hcontext⟩

/-- A store that is open answers with the record that it keeps, and nothing changes. -/
theorem World.useStores_getRun (w : World) (id : String) (hopen : w.stores.isOpen = true) :
    foundRun (w.useStores (.getRun id)).1 = w.recordOf id ∧ (w.useStores (.getRun id)).2 = w := by
  have hperform : w.stores.perform w.stamp (.getRun id) = (.run <$> w.stores.runs.get id, w.stores) :=
    if_pos hopen
  rw [World.useStores, hperform, World.recordOf]
  cases w.stores.runs.get id <;> exact ⟨rfl, rfl⟩

/-- A run that was completed before begins an attempt, and ends. -/
theorem proceed_resumeRecord (hstatus : record.status = .completed) {checkpoint : StoredCheckpoint}
    (hread : StoredCheckpoint.ofMetadata record.metadata = .ok checkpoint)
    (hcontext : checkpoint.context? = some c.toValue) (e : Engine) (s : Scheduler Outcome) :
    Scheduler.proceed .main (e.resumeRecord plan record id) s
      = { s with
          world := { s.world with attempt := ⟨id, plan.steps.length, c, []⟩ }
          outcome := some (.ok ⟨c, record.result⟩) } := by
  have hcompleted : (Engine.completedBefore plan { record with runId := id } checkpoint).outcome
      = .ask (.beginAttempt ⟨id, plan.steps.length, c, []⟩) fun _ => .done (.ok ⟨c, record.result⟩) := by
    rw [Engine.completedBefore, hcontext]
    dsimp only
    rw [Context.restore_toValue]
    rfl
  rw [Engine.resumeRecord, hread]
  dsimp only
  rw [if_pos hstatus, Fiber.ofAction, hcompleted]
  rfl

/-- **One more resume** of a run that is completed: nothing happens in the world but that an attempt begins. -/
theorem World.carryOut_resume (haccept : source.accept = .ok plan) (hopen : w.stores.isOpen = true)
    (hrecord : w.recordOf id = .ok (some record)) (hstatus : record.status = .completed)
    (hlegible : w.Legible id) (hholds : w.Holds id c) (e : Engine) (signals : List Signal) :
    w.carryOut signals (e.resume source id)
      = (some (.ok ⟨c, record.result, id⟩), { w with attempt := ⟨id, plan.steps.length, c, []⟩ }) := by
  obtain ⟨checkpoint, hread, hcontext⟩ := hlegible.restores hrecord hholds
  obtain ⟨hfound, hsame⟩ := w.useStores_getRun id hopen
  have hproceed (s : Scheduler Outcome) (hs : s.world = w) :
      Scheduler.proceed .main (e.resume source id) s = { s with
        world := { w with attempt := ⟨id, plan.steps.length, c, []⟩ }
        outcome := some (.ok ⟨c, record.result⟩) } := by
    obtain rfl := hs
    rw [Engine.resume, haccept]
    dsimp only
    rw [Fiber.ofAction, outcome_getRun, Program.toFiber, Scheduler.proceed_ask (by simp)]
    dsimp only [World.step, Program.toFiber]
    rw [hfound, hrecord, hsame]
    exact proceed_resumeRecord hstatus hread hcontext e s
  rw [World.carryOut_eq]
  dsimp only
  rw [Scheduler.runMain, hproceed _ (Scheduler.spawnAll_world ..), Scheduler.finish_of_outcome rfl]
  rfl

/-- Resumes a run again and again, with signals that may arrive; what is returned each time, and the world in the
    end. -/
def World.resumeAll (source : PlanSource) (id : String) :
    List (Engine × List Signal) → World → List (Option (Except Fault RunResult)) × World
  | [], w => ([], w)
  | (e, signals) :: rest, w =>
    let first := w.carryOut signals (e.resume source id)
    let later := resumeAll source id rest first.2
    (first.1 :: later.1, later.2)

/-- **A run that rests** in a store of run records: whoever resumes it there, however often, is returned the same
    each time; and nothing happens in the world but that attempts have begun. -/
def RunStore.Rests (runs : RunStore) (source : PlanSource) (id : String) (res : RunResult) : Prop :=
  ∀ (w : World) (resumes : List (Engine × List Signal)), w.stores.runs = runs → w.stores.isOpen = true →
    (w.resumeAll source id resumes).1 = resumes.map (fun _ => some (.ok res))
      ∧ ∃ attempt, (w.resumeAll source id resumes).2 = { w with attempt }

/-- **A run that is completed rests**, if its record holds a context; by induction on the resumes. -/
theorem RunStore.Rests.of_completed (haccept : source.accept = .ok plan)
    (hrecord : w.recordOf id = .ok (some record)) (hstatus : record.status = .completed)
    (hlegible : w.Legible id) (hholds : w.Holds id c) :
    w.stores.runs.Rests source id ⟨c, record.result, id⟩ := by
  intro w' resumes
  induction resumes generalizing w' with
  | nil => exact fun _ _ => ⟨rfl, w'.attempt, rfl⟩
  | cons first rest ih =>
    intro hruns hopen
    have hsame := World.recordOf_congr hruns id
    have hholds' : w'.Holds id c := by
      rwa [World.Holds, World.checkpointOf, hsame]
    have hfirst := w'.carryOut_resume haccept hopen (hsame.trans hrecord) hstatus (hlegible.of_runs hruns) hholds'
      first.1 first.2
    obtain ⟨hresults, attempt, hworld⟩ := ih { w' with attempt := ⟨id, plan.steps.length, c, []⟩ } hruns hopen
    rw [World.resumeAll, hfirst]
    exact ⟨congrArg (_ :: ·) hresults, attempt, hworld⟩

end

section

variable {pace : Clock → Clock → Prop} {source : PlanSource} {plan : Plan} {id : String} {a : Trial}
  {trials earlier later : List Trial} {fin : Finished} {t : Clock} {w : World}

/-- A trial that returns what can be written down tells nothing else. -/
theorem Trial.Recorded.holdable (h : a.Recorded pace plan id) (hres : a.result = some (.ok fin, t))
    (hwritable : fin.context.Writable) (b : Backend) : ∀ d ∈ a.deeds, d.Holdable b id := by
  obtain ⟨anew, htells⟩ := h.tells
  rw [hres] at htells
  intro d hd _ v hv
  rcases htells.ended with ⟨hds, -⟩ | hlived
  · rw [(Call.Hushed.of_inner (hds d hd)).told] at hv
    exact absurd hv (by simp [toldResult?, Update.newValue?, Keyed.get?, Value.present?])
  · have hmem : v ∈ toldResults id a.deeds := List.mem_filterMap.mpr ⟨_, List.mem_map_of_mem hd, hv⟩
    rw [hlived.told.2.1, Outcome.results, Option.mem_toList] at hmem
    have hv : v = fin.output := by
      unfold Value.present? at hmem
      split at hmem
      · exact absurd hmem (by simp)
      · simpa using hmem.symm
    rw [hv, hlived.output_eq]
    exact hwritable.previous

/-- **A finished run rests.** Take any plan that is accepted, and a run of it that is attempted again and again over
    one store that works, by `run` or by `resume`; attempts may be stopped at any moment. Checkpoints are kept, and
    whatever comes in is JSON. When an attempt returns, the run rests: whoever resumes it then, however often, is
    returned what the backend keeps of the context; and the result as the backend keeps it, unless it is null and
    another one was told before. -/
theorem finished_run_rests (h : Attempted pace source id w.stores.runs trials) (haccept : source.accept = .ok plan)
    (hid : id ≠ "") (hfresh : w.recordOf id = .ok none) (hinput : plan.input.unwritable? = none)
    (hfaithful : ∀ b ∈ trials, b.Faithful) (htrials : trials = earlier ++ a :: later)
    (hres : a.result = some (.ok fin, t)) :
    ∃ result, a.after.stores.runs.Rests source id ⟨w.backend.keepsContext fin.context, result, id⟩
      ∧ (fin.output ≠ .null ∨ (∀ b ∈ earlier, toldResults id b.deeds = []) →
        result = w.backend.keeps fin.output)
      ∧ (w.backend = .memory ∨ fin.context.IsData ∧ fin.output.isData = true →
        w.backend.keepsContext fin.context = fin.context ∧ w.backend.keeps fin.output = fin.output) := by
  have hserved : ∀ b ∈ trials, b.Served := fun b hb => (hfaithful b hb).toServed
  have hrecorded : ∀ b ∈ trials, b.Recorded pace plan id := fun b hb => by
    obtain ⟨first, second, hsplit⟩ := List.append_of_mem hb
    exact (h.found haccept hid hfresh hserved hsplit).1
  -- nothing is known of the run to begin with, so there is nothing that is untidy or cannot be restored
  have hunsaved : w.checkpointOf id = none := by rw [World.checkpointOf, hfresh]
  obtain ⟨hsecured, hstored, hattempts⟩ := h.secured haccept hid hinput hrecorded hfaithful htrials rfl rfl
    (fun data hdata => absurd (hunsaved.symm.trans hdata) (by simp))
    (fun hcompleted => absurd hcompleted (by simp [World.standing, hfresh]))
    (fun data hdata => absurd (hunsaved.symm.trans hdata) (by simp))
  have hamem : a ∈ trials := htrials ▸ List.mem_append_right _ List.mem_cons_self
  obtain ⟨ha, hbackend, -⟩ := h.found haccept hid hfresh hserved htrials
  obtain ⟨-, -, hreturned⟩ := ha.secures hattempts haccept hid hinput (hfaithful a hamem) hsecured hstored
  -- what the attempt leaves is the record of a completed run that holds the context
  obtain ⟨hwritable, hholds⟩ := hreturned fin t hres
  obtain ⟨hstatus, hresult, hstale, -⟩ := ha.standing_returned (hserved a hamem) (ha.holdable hres hwritable _) hres
  obtain ⟨record, hrecord, hstanding⟩ := World.record_of_standing a.after id (by rw [hstatus]; simp)
  rw [← hstanding] at hstatus hresult hstale
  refine ⟨record.result, .of_completed haccept hrecord hstatus (ha.leaves (hserved a hamem)).2.1 hholds,
    fun hkept => ?_, fun hplain => ?_⟩
  · by_cases hnull : fin.output = .null
    · -- nothing but null was ever told
      have hnone := hkept.resolve_left (absurd hnull)
      rw [hnull, Backend.keeps_null]
      exact (hstale hnull).trans (h.resultless haccept hid hfresh hserved htrials hnone)
    · exact hbackend ▸ hresult hnull
  · rcases hplain with hmemory | ⟨hcontext, houtput⟩
    · rw [hmemory]
      exact ⟨Backend.keepsContext_memory _, rfl⟩
    · exact ⟨w.backend.keepsContext_of_isData hcontext, w.backend.keeps_of_isData houtput⟩

end

/-! ### An instance -/

/-- The report that was signed off in the second attempt rests: its result is returned whenever it is resumed. -/
theorem signedReport_rests : ∃ fin t, signedRun.result = some (.ok fin, t) ∧ fin.output.truthy = true
    ∧ signedRun.after.stores.runs.Rests signedReport "run" ⟨fin.context, fin.output, "run"⟩ := by
  obtain ⟨plan, haccept, hinput⟩ : ∃ plan, signedReport.accept = .ok plan ∧ plan.input.unwritable? = none :=
    ⟨_, rfl, rfl⟩
  obtain ⟨fin, t, hres, htruthy⟩ : ∃ fin t, signedRun.result = some (.ok fin, t) ∧ fin.output.truthy = true :=
    ⟨_, _, rfl, by decide +kernel⟩
  have hfaithful : ∀ b ∈ [unsignedRun, signedRun], b.Faithful := fun b hb =>
    { toServed := signedReport_served b hb
      checkpoints := by revert b; decide +kernel
      plain := by revert b; decide +kernel }
  obtain ⟨result, hrests, hresult, hsame⟩ := finished_run_rests (w := {}) signedReport_attempted haccept (by decide)
    rfl hinput hfaithful (show _ = [unsignedRun] ++ signedRun :: [] from rfl) hres
  obtain ⟨hcontext, houtput⟩ := hsame (.inl rfl)
  obtain rfl := (hresult (.inr (List.forall_mem_singleton.mpr (List.isEmpty_iff.mp (by decide +kernel))))).trans houtput
  rw [hcontext] at hrests
  exact ⟨fin, t, hres, htruthy, hrests⟩

end Runbook
