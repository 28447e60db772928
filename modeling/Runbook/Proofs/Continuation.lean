import Runbook.Proofs.Chains
import Runbook.Proofs.Endings
import Runbook.Proofs.RunUpdates
import Runbook.Proofs.TrueJournal

/-!
# `Proofs.Continuation` — a run that was interrupted ends as if it had not been

A run writes checkpoints as it goes along. Whenever it is stopped, the checkpoint that it leaves behind
leads to the end to which the run itself was on the way: the context with which the step at the cursor
began, and a journal that tells the truth about the leaves inside it. An attempt that goes on from there
ends as was foreseen of the run.

Two things lie outside of this. Where no checkpoint was left, a continuation hands its plan in once more,
and a plan that was accepted as a document need not be accepted as what was read of it. And a run that
keeps no checkpoints is remembered by its result alone once it is completed.

## Contents
- **Checkpoints.** `Attempt.written`, and `Leads`, an attempt on the way to the end of the run.
- **Invariants.** `World.Consistent`, `World.Underway` and `World.Left`, what holds of the record of a
  run while it is carried out and wherever it is stopped.
- **Runs.** `fromStart_left`.
- **Continuations.** `resumedOutcome`, and `resume_as_uninterrupted`.
-/

namespace Runbook

/-! ## Checkpoints -/

/-- An attempt as its checkpoint holds it. -/
def Attempt.written (a : Attempt) : Value :=
  .object
    [("cursor", .int a.cursor), ("context", a.base.toValue), ("journal", .object a.journal)]

theorem Attempt.eq_written {a : Attempt} {data : Value} (h : a.checkpoint = .ok data) :
    data = a.written := by
  unfold checkpoint at h
  obtain ⟨context, hcontext, h⟩ := Fault.bind_eq_ok.mp h
  unfold Context.snapshot at hcontext
  split at hcontext
  · exact absurd hcontext (by simp)
  · obtain rfl := Except.ok.inj hcontext
    split at h
    · exact absurd h (by simp)
    · exact (Except.ok.inj h).symm

theorem Attempt.writable_of_checkpoint {a : Attempt} {data : Value} (h : a.checkpoint = .ok data) :
    data.unwritable? = none := by
  have hdata := eq_written h
  unfold checkpoint at h
  obtain ⟨context, hcontext, h⟩ := Fault.bind_eq_ok.mp h
  unfold Context.snapshot at hcontext
  split at hcontext
  · exact absurd hcontext (by simp)
  · next hbase =>
    split at h
    · exact absurd h (by simp)
    · next hjournal =>
      rw [hdata]
      rw [Value.unwritable?] at hjournal
      simp [written, Value.unwritable?, Value.unwritableField?, hbase, hjournal]

/-- An attempt of plain data and an empty journal can be written down. -/
theorem Attempt.checkpoint_of_isData {a : Attempt} (hbase : a.base.IsData) (hjournal : a.journal = []) :
    a.checkpoint = .ok a.written ∧ a.written.isData = true := by
  refine ⟨?_, ?_⟩
  · unfold checkpoint
    rw [hbase.snapshot, hjournal]
    simp [written, hjournal, bind, Except.bind, Value.unwritable?, Value.unwritableField?]
    rfl
  · simp [written, hjournal, Value.isData, Value.allFieldsData, hbase.toValue]

namespace Execution

variable {x : Execution} {σ : Assignment}

/-- **An attempt on the way to the end of the run.** -/
structure Leads (x : Execution) (σ : Assignment) (a : Attempt) : Prop where
  place : ∃ m : Nat, a.cursor = m ∧
    concludedOutcome (x.foreseeRoot σ (numbered m (x.plan.steps.drop m)) a.base) = x.foreseeRun σ
  data : a.base.IsData
  honest : x.Honest σ a.journal

/-- Data that is the checkpoint of an attempt on the way to the end of the run. -/
def Saved (x : Execution) (σ : Assignment) (data : Value) : Prop :=
  ∃ a, x.Leads σ a ∧ data = a.written

theorem Saved.kept {data v : Value} (hσ : ∀ q v, σ q = .ok v → v.isData = true)
    (h : x.Saved σ data) (hkept : data.Kept v) : x.Saved σ v := by
  obtain ⟨a, ha, rfl⟩ := h
  rcases hkept with rfl | rfl
  · exact ⟨a, ha, rfl⟩
  · refine ⟨{ a with journal := Value.storableFields a.journal },
      ⟨ha.place, ha.data, ha.honest.storable hσ⟩, ?_⟩
    simp [Attempt.written, Value.storable, Value.storableFields,
      Value.storable_of_isData ha.data.toValue]

end Execution

/-! ## Invariants -/

/-- Calls of a run that leave its record as that of a run that goes on. -/
inductive Call.Steady (x : Execution) : Call → Prop where
  | other {c : Call} (h : c.writesRun = false) : Steady x c
  | update {updates : Keyed Value} (hcalm : RunRecord.Calm updates)
      (hspares : RunRecord.SparesCheckpoint updates) : Steady x (.updateRun x.runId updates)
  | save (h : x.engine.checkpoints = true) : Steady x (.saveCheckpoint x.runId)

theorem StatusUpdates.calm {updates : Keyed Value} (h : StatusUpdates updates) :
    RunRecord.Calm updates := by
  obtain ⟨s, hs, h⟩ := h
  have hne : s.word ≠ "completed" := by rcases hs with rfl | rfl <;> decide
  rcases h with rfl | ⟨token, rfl⟩ <;> refine ⟨rfl, ?_, fun v hv => by simp at hv⟩ <;>
    simpa [Keyed.get?] using hne

theorem Execution.TreeCall.steady {x : Execution} {q : StepPath} {c : Call} (h : TreeCall x q c) :
    c.Steady x := by
  cases h with
  | journal => exact .other rfl
  | report => exact .other rfl
  | serves hserves =>
    cases hserves with
    | outside hc => exact .other (Call.writesRun_of_isOutside hc)
    | save h => exact .save h
    | status hupdates => exact .update hupdates.calm hupdates.sparesCheckpoint
    | _ => exact .other rfl

namespace World

variable {x : Execution} {σ : Assignment} {id : String} {w w' : World} {d : Deed}

/-- **A record that is about this run**: there is none under another id, nor in a store that is closed,
    and its checkpoint, if it has one, leads to the end of the run. -/
structure Consistent (x : Execution) (σ : Assignment) (id : String) (w : World) : Prop where
  absent : id ≠ x.runId ∨ w.stores.isOpen = false → w.recordOf id = .ok none
  saved : ∀ data, w.checkpointOf id = some data → x.Saved σ data
  unsaved : x.engine.checkpoints = false → w.checkpointOf id = none

theorem Consistent.of_recordOf_eq (hw : w.Consistent x σ id)
    (h : w'.recordOf id = w.recordOf id) (hfixed : Stores.Fixed w.stores w'.stores) :
    w'.Consistent x σ id where
  absent hid := by rw [h]; exact hw.absent (by rwa [hfixed.isOpen] at hid)
  saved := by rw [checkpointOf, h]; exact hw.saved
  unsaved := by rw [checkpointOf, h]; exact hw.unsaved

/-- A write of the record of this run. -/
theorem Consistent.write {saving : Prop} {updates : Keyed Value}
    (hσ : ∀ q v, σ q = .ok v → v.isData = true) (hw : w.Consistent x σ id)
    (hstep : CheckpointStep saving w id (w.writeRun x.runId updates))
    (hsaving : saving → x.Leads σ w.attempt ∧ x.engine.checkpoints = true) :
    (w.writeRun x.runId updates).Consistent x σ id where
  absent hid := by
    rcases hid with hid | hclosed
    · rw [recordOf_writeRun_of_ne w updates hid]
      exact hw.absent (.inl hid)
    · rw [(w.writeRun_fixed ..).isOpen] at hclosed
      rw [recordOf, (Mute.writeRun (.inl hclosed) ..), ← recordOf]
      exact hw.absent (.inr hclosed)
  saved data hdata := by
    cases hstep with
    | unreadable h =>
      obtain ⟨f, hf⟩ := h
      simp [checkpointOf, hf] at hdata
    | stays h => exact hw.saved data (h ▸ hdata)
    | copied h =>
      rw [h] at hdata
      obtain ⟨v, hv, rfl⟩ := Option.map_eq_some_iff.mp hdata
      exact (hw.saved v hv).kept hσ (.inr rfl)
    | saved hs hattempt hkept h =>
      obtain rfl := Option.some.inj (h.symm.trans hdata)
      exact Execution.Saved.kept hσ ⟨_, (hsaving hs).1, Attempt.eq_written hattempt⟩ hkept
  unsaved hoff := by
    have hnone := hw.unsaved hoff
    cases hstep with
    | unreadable h =>
      obtain ⟨f, hf⟩ := h
      simp [checkpointOf, hf]
    | stays h => rw [h, hnone]
    | copied h => rw [h, hnone]; rfl
    | saved hs => rw [(hsaving hs).2] at hoff; exact absurd hoff (by simp)

/-- **A run that goes on**: its record is consistent, and has no result. -/
structure Underway (x : Execution) (σ : Assignment) (id : String) (w : World) : Prop where
  consistent : w.Consistent x σ id
  record : ∀ r, w.recordOf id = .ok (some r) → r.Unfinished

/-- The time does not matter. -/
theorem Underway.at (hw : w.Underway x σ id) (t : Clock) :
    ({ w with clock := t } : World).Underway x σ id :=
  ⟨⟨hw.consistent.absent, hw.consistent.saved, hw.consistent.unsaved⟩, hw.record⟩

theorem Underway.base (hw : w.Underway x σ id) {existing : Option RunRecord} {now : Stamp}
    (h : w.recordOf id = .ok existing) : (existing.getD (.start id now)).Unfinished := by
  cases existing with
  | none => exact RunRecord.unfinished_start ..
  | some r => exact hw.record r h

theorem Underway.write {saving : Prop} {updates : Keyed Value}
    (hσ : ∀ q v, σ q = .ok v → v.isData = true) (hw : w.Underway x σ id)
    (hcalm : RunRecord.Calm updates)
    (hstep : CheckpointStep saving w id (w.writeRun x.runId updates))
    (hsaving : saving → x.Leads σ w.attempt ∧ x.engine.checkpoints = true) :
    (w.writeRun x.runId updates).Underway x σ id := by
  refine ⟨hw.consistent.write hσ hstep hsaving, fun r hr => ?_⟩
  by_cases hid : id = x.runId
  · subst hid
    rcases w.recordOf_writeRun x.runId updates with
      hsame | ⟨f, hf⟩ | ⟨existing, r₀, r', hexisting, hr₀, hr', hcopy⟩
    · exact hw.record r (hsame ▸ hr)
    · rw [hr] at hf
      exact absurd hf (by simp)
    · rw [hr] at hr'
      obtain rfl := Option.some.inj (Except.ok.inj hr')
      exact ((hw.base hexisting).update hcalm hr₀).copy hcopy
  · rw [recordOf_writeRun_of_ne w updates hid] at hr
    exact hw.record r hr

theorem Underway.save (hσ : ∀ q v, σ q = .ok v → v.isData = true) (hw : w.Underway x σ id)
    (hleads : x.Leads σ w.attempt) (hon : x.engine.checkpoints = true) :
    (w.saveCheckpoint x.runId).Underway x σ id := by
  cases hdata : w.attempt.checkpoint with
  | error f =>
    unfold saveCheckpoint
    rw [hdata]
    exact hw
  | ok data =>
    have hstep := w.checkpointStep_saveCheckpoint x.runId id
    rw [saveCheckpoint_eq hdata] at hstep ⊢
    refine hw.write hσ ⟨rfl, by simp [Keyed.get?], fun v hv => ?_⟩ hstep fun _ => ⟨hleads, hon⟩
    obtain rfl : v = .object [(StoredCheckpoint.key, data)] := by simpa using hv
    simp [Value.unwritable?, Value.unwritableField?, Attempt.writable_of_checkpoint hdata]

/-- **The run goes on.** -/
theorem Underway.answers (hσ : ∀ q v, σ q = .ok v → v.isData = true) (hw : w.Underway x σ id)
    (h : w.Answers d w') (hd : d.call.Steady x)
    (hleads : ∀ other, d.call = .saveCheckpoint other → x.Leads σ w.attempt) :
    w'.Underway x σ id := by
  obtain ⟨step, call, answer, start, stop⟩ := d
  cases hd with
  | other hc =>
    refine ⟨hw.consistent.of_recordOf_eq (h.recordOf_eq hc id) h.fixed, ?_⟩
    rw [h.recordOf_eq hc id]
    exact hw.record
  | update hcalm hspares =>
    rw [h.updateRun_eq]
    exact (hw.at start).write hσ hcalm (checkpointStep_writeRun _ _ _ hspares) False.elim
  | save hon =>
    rw [h.saveCheckpoint_eq]
    exact (hw.at start).save hσ (hleads _ rfl) hon

/-- **What a run leaves behind** wherever it is stopped: a consistent record; if it says that the run was
    completed, it has the result that was foreseen and the last checkpoint. -/
structure Left (x : Execution) (σ : Assignment) (id : String) (w : World) : Prop where
  consistent : w.Consistent x σ id
  completed : ∀ r, w.recordOf id = .ok (some r) → r.status = .completed →
    ∃ fin, x.foreseeRun σ = .ok fin ∧ r.result = fin.output
      ∧ (x.engine.checkpoints = true →
        ∃ a : Attempt, w.checkpointOf id = some a.written ∧ a.base = fin.context)

theorem Underway.left (hw : w.Underway x σ id) : w.Left x σ id :=
  ⟨hw.consistent, fun r hr hcompleted => absurd hcompleted (hw.record r hr).status⟩

theorem Mute.of_fixed {w w' : World} (h : w.Mute) (hfixed : Stores.Fixed w.stores w'.stores) :
    w'.Mute := by
  unfold Mute
  rwa [hfixed.isOpen, hfixed.outage]

end World

/-! ## Runs -/

namespace Execution

variable {x : Execution} {σ : Assignment} {id : String} {w w' : World} {d : Deed} {ds : List Deed}
  {pace : Clock → Clock → Prop}

/-- On the way to the end: the run goes on, and so does the attempt at hand. -/
def OnTheWay (x : Execution) (σ : Assignment) (id : String) (w : World) : Prop :=
  w.Underway x σ id ∧ x.Leads σ w.attempt

/-- What is done for a step does not lead away. -/
theorem OnTheWay.part (hσ : ∀ q v, σ q = .ok v → v.isData = true) (hw : x.OnTheWay σ id w)
    {path : StepPath} (hassigned : Assigned σ ds) (hd : PartOf pace x path ds d)
    (h : w.Answers d w') : x.OnTheWay σ id w' := by
  obtain ⟨q, -, -, -, hcall⟩ := hd.treeCall
  refine ⟨hw.1.answers hσ h hcall.steady fun _ _ => hw.2, ?_⟩
  obtain ⟨-, hcursor, hbase⟩ := hcall.after_fields w.attempt
  rw [← h.attempt_eq] at hcursor hbase
  obtain ⟨hplace, hdata, hhonest⟩ := hw.2
  exact ⟨by rwa [hcursor, hbase], hbase ▸ hdata, hd.honest hassigned h hhonest⟩

/-- The beginning of a step of the root list. -/
theorem enter_onTheWay (hσ : ∀ q v, σ q = .ok v → v.isData = true) {k : Int} {c : Context}
    {t : Clock} {q : Option (Except Fault Unit × Clock)} (hw : w.Underway x σ id)
    (hleads : ∀ runId, x.Leads σ ⟨runId, k, c, []⟩) (hadmits : w.Admits ds w')
    (h : Program.Course pace none t (x.enter k false c).outcome ds q) :
    w'.Underway x σ id ∧ (q ≠ none → x.OnTheWay σ id w') := by
  rcases enter_course h with ⟨rfl, rfl⟩ | ⟨d, es, rfl, -, hcall, hes⟩
  · rw [hadmits.eq_of_nil]
    exact ⟨hw, fun h => absurd rfl h⟩
  · obtain ⟨w₁, hd, hrest⟩ := hadmits.of_cons
    have hfirst : x.OnTheWay σ id w₁ := by
      refine ⟨hw.answers hσ hd (hcall ▸ .other rfl) fun _ h => ?_, ?_⟩
      · rw [hcall] at h
        exact absurd h (by simp)
      · rw [hd.attempt_eq, hcall]
        exact hleads _
    have hlast : x.OnTheWay σ id w' := by
      refine hrest.keeps (fun e he u u' hu hu' => ?_) hfirst
      obtain ⟨-, hsave, hon⟩ := hes e he
      refine ⟨hu.1.answers hσ hu' (hsave ▸ .save hon) fun _ _ => hu.2, ?_⟩
      rw [hu'.attempt_eq, hsave]
      exact hu.2
    exact ⟨hlast.1, fun _ => hlast⟩

/-- An attempt that has just begun a step of the root list. -/
theorem leads_of_foreseen {i : Nat} {c : Context} (hc : c.IsData)
    (ho : concludedOutcome (x.foreseeRoot σ (numbered i (x.plan.steps.drop i)) c) = x.foreseeRun σ)
    (runId : String) : x.Leads σ ⟨runId, i, c, []⟩ := ⟨⟨i, rfl, ho⟩, hc, honest_nil⟩

/-- **The root list is carried out on the way to the end of the run.** -/
theorem walkRoot_underway (hσ : ∀ q v, σ q = .ok v → v.isData = true) {steps : List Step} :
    ∀ {i : Nat} {c : Context} {t : Clock} {ds : List Deed} {r : Option (Outcome × Clock)}
      {w w' : World}, x.plan.steps.drop i = steps → c.IsData →
      concludedOutcome (x.foreseeRoot σ (numbered i steps) c) = x.foreseeRun σ →
      w.Underway x σ id → Assigned σ ds → w.Admits ds w' →
      Fiber.Course pace t (x.walkRoot (numbered i steps) false c) ds r →
      w'.Underway x σ id ∧ ∀ res ∈ r, Plain res.1
        ∧ concludedOutcome res.1 = x.foreseeRun σ := by
  induction steps with
  | nil =>
    intro i c t ds r w w' _ hc ho hw _ hadmits h
    obtain ⟨rfl, hr⟩ := h.of_done
    rw [hadmits.eq_of_nil]
    refine ⟨hw, fun res hres => ?_⟩
    rw [hr res hres]
    exact ⟨.ok hc hc.previous, ho⟩
  | cons s rest ih =>
    intro i c t ds r w w' hdrop hc ho hw hassigned hadmits h
    have hleads := leads_of_foreseen hc (hdrop ▸ ho)
    cases walkRoot_course h with
    | first henter => exact ⟨(enter_onTheWay hσ hw hleads hadmits henter).1, by simp⟩
    | both henter hbody =>
      obtain ⟨w₁, hw₁, hadmits⟩ := hadmits.split
      have hfirst := (enter_onTheWay hσ hw hleads hw₁ henter).2 (by simp)
      have hproper := StepPath.proper_root i s
      have hstep {t ds r w'} (hassigned : Assigned σ ds) (hadmits : w₁.Admits ds w')
          (h : Fiber.Course pace t (x.walk s (.root i s.kind) c) ds r) : x.OnTheWay σ id w' :=
        hadmits.keeps (fun d hd _ _ hu hu' => hu.part hσ hassigned
          (x.walk_parts s hproper rfl h d hd) hu') hfirst
      have hassigned := hassigned.of_append.2
      -- how the step ends was foreseen, so the plan takes it as was foreseen
      have hguards {t o u es w'} (hassigned : Assigned σ es) (hadmits : w₁.Admits es w')
          (hwalk : Fiber.Course pace t (x.walk s (.root i s.kind) c) es (some (o, u))) :
          x.guarded s i c o = x.guarded s i c (x.foresee σ s (.root i s.kind) c) :=
        (x.walk_foreseen s rfl hassigned
          (walk_truthful hproper rfl hassigned hadmits hfirst.2.honest hwalk).1 hwalk).guarded ..
      have hplain : Plain (x.guarded s i c (x.foresee σ s (.root i s.kind) c)) :=
        (foresee_plain hσ s hc).guarded (x := x) hc s i
      rw [numbered, foreseeRoot] at ho
      cases hbody with
      | stopped hwalk => exact ⟨(hstep hassigned hadmits hwalk).1, by simp⟩
      | @failed _ f _ _ _ hwalk hguarded hr =>
        rw [hguards hassigned hadmits hwalk] at hguarded
        rw [hguarded] at ho
        refine ⟨(hstep hassigned hadmits hwalk).1, fun res hres => ?_⟩
        rw [hr res hres]
        exact ⟨.error f, ho⟩
      | @goesOn _ fin _ _ _ _ hwalk hguarded hnext =>
        obtain ⟨w₂, hw₂, hadmits⟩ := hadmits.split
        obtain ⟨hassigned₁, hassigned₂⟩ := hassigned.of_append
        rw [hguards hassigned₁ hw₂ hwalk] at hguarded
        rw [hguarded] at ho hplain
        refine ih ?_ (hplain fin rfl).1 ho (hstep hassigned₁ hw₂ hwalk).1 hassigned₂ hadmits hnext
        rw [← List.drop_drop, hdrop]
        rfl

/-- **The last checkpoint** of a run is written, unless the store takes no writes or the record cannot be
    read. -/
theorem enter_sealed (hσ : ∀ q v, σ q = .ok v → v.isData = true) {k : Int} {c : Context} {t : Clock}
    {res : Except Fault Unit × Clock} (hc : c.IsData) (hw : w.Underway x σ x.runId)
    (hon : x.engine.checkpoints = true) (hadmits : w.Admits ds w')
    (h : Program.Course pace none t (x.enter k false c).outcome ds (some res)) :
    w'.Unreadable x.runId ∨ w'.Mute
      ∨ ∃ a : Attempt, w'.checkpointOf x.runId = some a.written ∧ a.base = c
        ∧ a.written.storable = a.written := by
  have houtcome : (x.enter k false c).outcome
      = .ask (.enterStep k c false) fun _ => x.saveCheckpoint.outcome := rfl
  rw [houtcome] at h
  cases h with
  | @ask _ start stop _ _ _ _ _ _ hstop rest =>
    rw [outcome_saveCheckpoint, if_pos hon] at rest
    cases rest with
    | @ask _ start' stop' _ _ _ _ _ _ hstop' rest =>
      obtain ⟨rfl, -⟩ := rest.of_done
      obtain ⟨w₁, hd, hrest⟩ := hadmits.of_cons
      obtain ⟨w₂, hd', hrest⟩ := hrest.of_cons
      obtain rfl := hrest.eq_of_nil
      have hw₁ : w₁.Underway x σ x.runId :=
        hw.answers hσ hd (.other rfl) fun _ h => absurd h (by simp)
      have hattempt : w₁.attempt = w.attempt.enter k c false := hd.attempt_eq
      rw [hd'.saveCheckpoint_eq]
      -- plain data can always be written, so only the store or an unreadable record can be in the way
      by_cases hmute : w₁.Mute
      · exact .inr (.inl (hmute.of_fixed (World.saveCheckpoint_fixed { w₁ with clock := start' } ..)))
      · cases hexisting : w₁.recordOf x.runId with
        | error f =>
          exact .inl (World.Unreadable.saveCheckpoint (w := { w₁ with clock := start' })
            ⟨f, hexisting⟩ ..)
        | ok existing =>
          have hbase : w₁.attempt.base = c := by rw [hattempt]; rfl
          obtain ⟨hdata, hwritten⟩ := Attempt.checkpoint_of_isData (a := w₁.attempt)
            (by rwa [hbase]) (by rw [hattempt]; rfl)
          have hstorable := Value.storable_of_isData hwritten
          rcases World.saveCheckpoint_kept (w := { w₁ with clock := start' }) hmute hexisting
            (hw₁.base hexisting) hdata (Value.unwritable?_of_isData hwritten) with
            hlost | ⟨v, hkept, hv⟩
          · exact .inl hlost
          · refine .inr (.inr ⟨w₁.attempt, ?_, hbase, hstorable⟩)
            rcases hkept with rfl | rfl
            · exact hv
            · rwa [hstorable] at hv

/-- **The last update** of a run that was completed. -/
theorem completed_left (hσ : ∀ q v, σ q = .ok v → v.isData = true) {c : Context} (hc : c.IsData)
    (hforeseen : x.foreseeRun σ = .ok ⟨c, c.previous⟩) (hw : w.Underway x σ id)
    (hsealed : x.engine.checkpoints = true → id = x.runId →
      w.Unreadable x.runId ∨ w.Mute ∨ ∃ a : Attempt, w.checkpointOf x.runId = some a.written
        ∧ a.base = c ∧ a.written.storable = a.written)
    (h : w.Answers d w')
    (hcall : d.call = .updateRun x.runId
      [("status", .text "completed"), ("result", c.previous)]) : w'.Left x σ id := by
  obtain ⟨step, call, answer, start, stop⟩ := d
  dsimp only at hcall
  subst hcall
  rw [h.updateRun_eq]
  have hw := hw.at start
  have hspares : RunRecord.SparesCheckpoint
      [("status", .text "completed"), ("result", c.previous)] := fun v hv => by simp at hv
  have hstep := World.checkpointStep_writeRun { w with clock := start } x.runId id hspares
  refine ⟨hw.consistent.write hσ hstep False.elim, fun r hr hcompleted => ?_⟩
  by_cases hid : id = x.runId
  · subst hid
    rcases World.recordOf_writeRun { w with clock := start } x.runId
        [("status", .text "completed"), ("result", c.previous)] with
      hsame | ⟨f, hf⟩ | ⟨existing, r₀, r', hexisting, hr₀, hr', hcopy⟩
    · exact absurd hcompleted (hw.record r (hsame ▸ hr)).status
    · rw [hr] at hf
      exact absurd hf (by simp)
    · obtain rfl := Option.some.inj (Except.ok.inj (hr.symm.trans hr'))
      have hresult := (RunRecord.update_completed (hw.base hexisting) hr₀).1
      refine ⟨_, hforeseen, ?_, fun hon => ?_⟩
      · rcases hcopy.result with h | h <;> rw [h, hresult]
        exact Value.storable_of_isData hc.previous
      -- what was saved at the end of the list is still there, if anything could be saved
      · rcases hsealed hon rfl with ⟨f, hf⟩ | hmute | ⟨a, ha, hbase, hstorable⟩
        · exact absurd (hexisting.symm.trans hf) (by simp)
        · have hsame := World.Mute.writeRun (w := { w with clock := start }) hmute x.runId
            [("status", .text "completed"), ("result", c.previous)]
          rw [World.recordOf, hsame, ← World.recordOf] at hr
          exact absurd hcompleted (hw.record r hr).status
        · refine ⟨a, ?_, hbase⟩
          cases hstep with
          | unreadable h => obtain ⟨f, hf⟩ := h; rw [hr] at hf; exact absurd hf (by simp)
          | stays h => exact h.trans ha
          | copied h =>
            have ha : World.checkpointOf { w with clock := start } x.runId = some a.written := ha
            rw [h, ha, Option.map_some, hstorable]
          | saved hsaving => exact hsaving.elim
  · rw [World.recordOf_writeRun_of_ne _ _ hid] at hr
    exact absurd hcompleted (hw.record r hr).status

/-- **The end of a run** leaves behind what must be left. -/
theorem conclude_left (hσ : ∀ q v, σ q = .ok v → v.isData = true) {o : Outcome} {t : Clock}
    {q : Option (Except Fault Finished × Clock)} (hplain : Plain o)
    (ho : concludedOutcome o = x.foreseeRun σ) (hw : w.Underway x σ id) (hadmits : w.Admits ds w')
    (h : Program.Course pace none t (x.conclude o).outcome ds q) : w'.Left x σ id := by
  have hleads {fin : Finished} (hfin : o = .ok fin) :
      ∀ runId, x.Leads σ ⟨runId, x.plan.steps.length, fin.context, []⟩ := by
    subst hfin
    exact leads_of_foreseen (hplain fin rfl).1 (by rw [List.drop_length, numbered, foreseeRoot]; exact ho)
  cases ConclusionCourse.of_course h with
  | untold =>
    rw [hadmits.eq_of_nil]
    exact hw.left
  | @failed f =>
    have hcalm : RunRecord.Calm (RunRecord.failedUpdate f) :=
      ⟨rfl, by simp [RunRecord.failedUpdate, Keyed.get?], fun v hv => by simp [RunRecord.failedUpdate] at hv⟩
    obtain ⟨w₁, hd, hnil⟩ := hadmits.of_cons
    rw [hnil.eq_of_nil]
    exact (hw.answers hσ hd (.update hcalm (RunRecord.spares_failed f)) fun other hsave =>
      absurd hsave (by simp)).left
  | entering henter => exact (enter_onTheWay hσ hw (hleads rfl) hadmits henter).1.left
  | @completed fin _ _ _ _ _ _ henter =>
    obtain ⟨w₁, hw₁, hadmits⟩ := hadmits.split
    have hat := (enter_onTheWay hσ hw (hleads rfl) hw₁ henter).2 (by simp)
    have hc := (hplain fin rfl).1
    obtain ⟨w₂, hd, hnil⟩ := hadmits.of_cons
    rw [hnil.eq_of_nil]
    refine completed_left hσ hc ho.symm hat.1 (fun hon hid => ?_) hd rfl
    subst hid
    exact enter_sealed hσ hc hw hon hw₁ henter

/-- **Wherever a run is stopped**, it leaves behind what must be left. -/
theorem fromStart_left (hσ : ∀ q v, σ q = .ok v → v.isData = true)
    (hinput : x.plan.input.isData = true) {executionId : Option String} {t : Clock}
    {r : Option (Outcome × Clock)} (hfresh : w.recordOf id = .ok none) (hassigned : Assigned σ ds)
    (hadmits : w.Admits ds w') (h : Fiber.Course pace t (x.fromStart executionId) ds r) :
    w'.Left x σ id := by
  have hw : w.Underway x σ id := by
    have hnone : w.checkpointOf id = none := by rw [World.checkpointOf, hfresh]
    refine ⟨⟨fun _ => hfresh, by simp [hnone], fun _ => hnone⟩, fun r hr => ?_⟩
    rw [hfresh] at hr
    exact absurd hr (by simp)
  -- the announcement touches neither the checkpoint nor the result
  have hannounce {ds w' q} (hadmits : w.Admits ds w')
      (h : Program.Course pace none t (Engine.announce x executionId).outcome ds q) :
      w'.Underway x σ id := by
    have hcalm := RunRecord.calm_announced x.plan executionId
    have hspares := RunRecord.spares_announced x.plan executionId
    refine hadmits.keeps (fun d hd u u' hu hu' => ?_) hw
    have hcall := (writeRun_course h d hd).2
    refine hu.answers hσ hu' (hcall ▸ .update hcalm hspares) fun other hsave => ?_
    rw [hcall] at hsave
    exact absurd hsave (by simp)
  cases writeRun_then h with
  | first hfirst => exact (hannounce hadmits hfirst).left
  | both hfirst hrest =>
    obtain ⟨w₁, hw₁, hadmits⟩ := hadmits.split
    have hw₁ := hannounce hw₁ hfirst
    have hassigned := hassigned.of_append.2
    have hbegins {answer start stop w₂}
        (hbegin : w₁.Answers ⟨none, .beginAttempt ⟨x.runId, 0, Engine.startContext x.plan x.runId, []⟩, answer,
          start, stop⟩ w₂) : w₂.Underway x σ id :=
      hw₁.answers hσ hbegin (.other rfl) fun other h => absurd h (by simp)
    have hroot {t ds r} {w₂ w' : World} (hw₂ : w₂.Underway x σ id) (hassigned : Assigned σ ds) (hadmits : w₂.Admits ds w')
        (h : Fiber.Course pace t (x.walkRoot (numbered 0 (x.plan.steps.drop 0)) false
          (Engine.startContext x.plan x.runId)) ds r) :=
      walkRoot_underway hσ (i := 0) rfl (Context.isData_start hinput _ _) rfl hw₂ hassigned hadmits h
    cases AttemptCourse.of_course (m := 0) rfl hrest with
    | unbegun => rw [hadmits.eq_of_nil]; exact hw₁.left
    | walking hwalk =>
      obtain ⟨w₂, hbegin, hadmits⟩ := hadmits.of_cons
      exact (hroot (hbegins hbegin) hassigned.of_cons hadmits hwalk).1.left
    | concluding hwalk hend =>
      obtain ⟨w₂, hbegin, hadmits⟩ := hadmits.of_cons
      obtain ⟨w₃, hw₃, hadmits⟩ := hadmits.split
      obtain ⟨hunderway, hres⟩ := hroot (hbegins hbegin) hassigned.of_cons.of_append.1 hw₃ hwalk
      obtain ⟨hplain, ho⟩ := hres _ rfl
      exact conclude_left hσ hplain ho hunderway hadmits hend

end Execution

/-! ## Continuations -/

theorem World.Left.of_stores {x : Execution} {σ : Assignment} {id : String} {w w' : World}
    (hw : w.Left x σ id) (h : w'.stores = w.stores) : w'.Left x σ id := by
  have hrecord : w'.recordOf id = w.recordOf id := by rw [World.recordOf, h, ← World.recordOf]
  refine ⟨hw.consistent.of_recordOf_eq hrecord (by rw [h]; exact ⟨rfl, rfl⟩), ?_⟩
  rw [hrecord, World.checkpointOf, hrecord]
  exact hw.completed

/-- **How a continuation ends**, given the record that was found and the end of the run: as the run
    does, but for a run without a checkpoint. Of such a run, if it was completed, nothing is known but
    its result; otherwise it starts over, if what was read of its plan is accepted. -/
def resumedOutcome (plan : Plan) (id : String) (record : RunRecord) (o : Outcome) : Outcome :=
  if record.metadata.has StoredCheckpoint.key then o
  else if record.status = .completed then .ok ⟨.start plan.input (some id) false, record.result⟩
  else
    match (PlanSource.parsed plan).accept with
    | .error f => .error f
    | .ok _ => o

/-- What is read of the metadata that hold a checkpoint. -/
theorem StoredCheckpoint.ofMetadata_written {metadata : Keyed Value} {a : Attempt}
    (h : metadata.get? key = some a.written) :
    ∃ checkpoint, ofMetadata metadata = .ok checkpoint ∧ checkpoint.context? = some a.base.toValue
      ∧ ∀ id context, checkpoint.toAttempt id context = .ok ⟨id, a.cursor, context, a.journal⟩ := by
  refine ⟨⟨[("cursor", .int a.cursor), ("context", a.base.toValue), ("journal", .object a.journal)]⟩,
    ?_, ?_, fun id context => ?_⟩
  · simp [ofMetadata, h, Attempt.written, Value.truthy, Value.fields?]
  · simp [context?, Keyed.get?, Context.toValue, Value.truthy]
  · have hcursor : (⟨[("cursor", .int a.cursor), ("context", a.base.toValue),
        ("journal", .object a.journal)]⟩ : StoredCheckpoint).cursor = .ok a.cursor := rfl
    have hjournal : (⟨[("cursor", .int a.cursor), ("context", a.base.toValue),
        ("journal", .object a.journal)]⟩ : StoredCheckpoint).journal = .ok a.journal := by
      cases hj : a.journal <;> simp [journal, Keyed.get?, Value.truthy, Value.fields?]
    rw [toAttempt, hcursor, hjournal]
    rfl

theorem StoredCheckpoint.ofMetadata_none {metadata : Keyed Value} (h : metadata.get? key = none) :
    ofMetadata metadata = .ok ⟨[]⟩ := by
  simp [ofMetadata, h, Value.truthy]

section

variable {e : Engine} {plan : Plan} {σ : Assignment} {id : String} {w w' : World} {ds : List Deed}
  {pace : Clock → Clock → Prop} {t : Clock} {res : Outcome × Clock} {record : RunRecord}

/-- The outcome of a run that was completed before. -/
theorem completedBefore_ends {checkpoint : StoredCheckpoint} {context : Context}
    (h : checkpoint.context? = none ∧ context = .start plan.input (some record.runId) false
      ∨ ∃ snapshot, checkpoint.context? = some snapshot ∧ Context.restore snapshot = .ok context) :
    (Engine.completedBefore plan record checkpoint).outcome.Ends fun o =>
      o = .ok ⟨context, record.result⟩ := by
  unfold Engine.completedBefore
  rcases h with ⟨hnone, rfl⟩ | ⟨snapshot, hsome, hrestore⟩
  · rw [hnone]
    exact fun _ => rfl
  · rw [hsome]
    dsimp only
    rw [hrestore]
    exact fun _ => rfl

/-- A record of a run of which nothing was saved. -/
theorem resumeRecord_unsaved (hid : id ≠ "") (hdata : record.metadata.get? StoredCheckpoint.key = none)
    (hassigned : Assigned σ ds) (hadmits : w.Admits ds w')
    (h : Fiber.Course pace t (e.resumeRecord plan record id) ds (some res)) :
    res.1 = resumedOutcome plan id record (Execution.foreseeRun ⟨e, plan, id⟩ σ) := by
  have heq {checkpoint : StoredCheckpoint} (h : StoredCheckpoint.ofMetadata record.metadata = .ok checkpoint) :
      checkpoint = ⟨[]⟩ := Except.ok.inj (h.symm.trans (StoredCheckpoint.ofMetadata_none hdata))
  rw [resumedOutcome, Keyed.has, hdata]
  simp only [Option.isSome_none, Bool.false_eq_true, ↓reduceIte]
  cases RecordCourse.of_course h with
  | unreadable hunread =>
    exact absurd (hunread.symm.trans (StoredCheckpoint.ofMetadata_none hdata)) (by simp)
  | completed hread hcompleted hreturns =>
    obtain rfl := heq hread
    rw [if_pos hcompleted]
    exact hreturns.ends (completedBefore_ends (.inl ⟨rfl, rfl⟩)) _ rfl
  | refused _ hcompleted _ hrefuses hr =>
    rw [if_neg hcompleted, hrefuses, hr res rfl]
  | afresh _ hcompleted _ haccept hrun =>
    rw [if_neg hcompleted, haccept]
    obtain ⟨runId, es, fs, u, -, hgiven, rfl, -, hcourse⟩ := run_course haccept hrun
    obtain rfl := hgiven id rfl hid
    obtain ⟨w₁, -, hadmits⟩ := hadmits.split
    exact Execution.fromStart_foreseen hassigned.of_append.2 hadmits hcourse
  | unrestored hread _ hsnapshot =>
    obtain rfl := heq hread
    exact absurd hsnapshot (by simp [StoredCheckpoint.context?, Keyed.get?])
  | continued hread _ hsnapshot =>
    obtain rfl := heq hread
    exact absurd hsnapshot (by simp [StoredCheckpoint.context?, Keyed.get?])

/-- **A record that is found leads to the end of its run.** -/
theorem resumeRecord_agrees (hid : id ≠ "") (hw : w.Left ⟨e, plan, id⟩ σ id)
    (hrecord : w.recordOf id = .ok (some record)) (hassigned : Assigned σ ds)
    (hadmits : w.Admits ds w')
    (h : Fiber.Course pace t (e.resumeRecord plan record id) ds (some res)) :
    res.1 = resumedOutcome plan id record (Execution.foreseeRun ⟨e, plan, id⟩ σ) := by
  have hcheckpoint : w.checkpointOf id = record.metadata.get? StoredCheckpoint.key := by
    rw [World.checkpointOf, hrecord]
  cases hdata : record.metadata.get? StoredCheckpoint.key with
  | none => exact resumeRecord_unsaved hid hdata hassigned hadmits h
  | some data =>
    obtain ⟨a, ha, rfl⟩ := hw.consistent.saved data (hcheckpoint.trans hdata)
    obtain ⟨checkpoint, hread, hcontext, hattempt⟩ := StoredCheckpoint.ofMetadata_written hdata
    have heq {checkpoint' : StoredCheckpoint}
        (h : StoredCheckpoint.ofMetadata record.metadata = .ok checkpoint') : checkpoint = checkpoint' :=
      Except.ok.inj (hread.symm.trans h)
    have hbind : (Context.restore a.base.toValue).bind (checkpoint.toAttempt id)
        = .ok ⟨id, a.cursor, a.base, a.journal⟩ := by
      rw [Context.restore_toValue]
      exact hattempt id a.base
    rw [resumedOutcome, Keyed.has, hdata]
    simp only [Option.isSome_some, ↓reduceIte]
    cases RecordCourse.of_course h with
    | unreadable hunread => exact absurd (hunread.symm.trans hread) (by simp)
    | completed hread' hcompleted hreturns =>
      obtain rfl := heq hread'
      obtain ⟨fin, hfin, hresult, hlast⟩ := hw.completed record hrecord hcompleted
      have hon : e.checkpoints = true := by
        by_contra hoff
        have := hw.consistent.unsaved (Bool.not_eq_true _ ▸ hoff)
        rw [hcheckpoint, hdata] at this
        exact absurd this (by simp)
      -- the checkpoint of a completed run is the one at the end of the root list
      obtain ⟨a', ha', hbase⟩ := hlast hon
      have hcontext' : checkpoint.context? = some a'.base.toValue := by
        obtain ⟨c', hread', h', -⟩ :=
          StoredCheckpoint.ofMetadata_written (hcheckpoint.symm.trans ha')
        obtain rfl := heq hread'
        exact h'
      rw [hreturns.ends (completedBefore_ends (.inr ⟨_, hcontext', Context.restore_toValue _⟩)) _ rfl,
        hfin, hbase]
      dsimp only
      rw [hresult]
    | refused hread' _ hnone =>
      obtain rfl := heq hread'
      exact absurd (hnone.symm.trans hcontext) (by simp)
    | afresh hread' _ hnone =>
      obtain rfl := heq hread'
      exact absurd (hnone.symm.trans hcontext) (by simp)
    | unrestored hread' _ hsnapshot hunrestored =>
      obtain rfl := heq hread'
      obtain rfl := Option.some.inj (hsnapshot.symm.trans hcontext)
      exact absurd (hunrestored.symm.trans hbind) (by simp)
    | continued hread' _ hsnapshot hattempt hcourse =>
      obtain rfl := heq hread'
      obtain rfl := Option.some.inj (hsnapshot.symm.trans hcontext)
      obtain rfl := Except.ok.inj (hbind.symm.trans hattempt)
      obtain ⟨m, hm, ho⟩ := ha.place
      cases writeRun_then hcourse with
      | both hwrite hcourse =>
        obtain ⟨w₁, -, hadmits⟩ := hadmits.split
        rw [← ho]
        exact Execution.carryOutFrom_foreseen (a := ⟨id, a.cursor, a.base, a.journal⟩) hm
          (fun _ => ha.honest) hassigned.of_append.2 hadmits hcourse

/-- **A continuation leads to the end of its run.** -/
theorem resume_agrees {source : PlanSource} (haccept : source.accept = .ok plan) (hid : id ≠ "")
    (hw : w.Left ⟨e, plan, id⟩ σ id) (hrecord : w.recordOf id = .ok (some record))
    (hassigned : Assigned σ ds) (hadmits : w.Admits ds w')
    (h : Fiber.Course pace t (e.resume source id) ds (some res)) :
    res.1 = resumedOutcome plan id record (Execution.foreseeRun ⟨e, plan, id⟩ σ) := by
  have hopen : w.stores.isOpen = true := by
    by_contra hclosed
    have := hw.consistent.absent (.inr (Bool.not_eq_true _ ▸ hclosed))
    rw [hrecord] at this
    exact absurd this (by simp)
  -- the store answers with the record
  have hanswers {answer start stop w₁} (hd : w.Answers ⟨none, .store (.getRun id), answer, start, stop⟩ w₁) :
      foundRun answer = .ok (some record) := (hd.foundRun_eq hopen).trans hrecord
  cases ResumeCourse.of_course haccept h with
  | failed hfound | unknown hfound =>
    obtain ⟨w₁, hd, -⟩ := hadmits.of_cons
    exact absurd (hfound.symm.trans (hanswers hd)) (by simp)
  | found hfound hrest =>
    obtain ⟨w₁, hd, hadmits⟩ := hadmits.of_cons
    obtain rfl := Option.some.inj (Except.ok.inj (hfound.symm.trans (hanswers hd)))
    have hsame := World.recordOf_congr (hd.runs_eq rfl) id
    have hw₁ : w₁.Left ⟨e, plan, id⟩ σ id := by
      refine ⟨hw.consistent.of_recordOf_eq hsame hd.fixed, ?_⟩
      rw [hsame, World.checkpointOf, hsame]
      exact hw.completed
    exact resumeRecord_agrees hid hw₁ (hsame.trans hrecord) hassigned.of_cons hadmits hrest

end

/-- **A fiber that leads to an outcome** when its leaves end as they must: whatever it has done, it can
    go on to its end in any surroundings; and it ends with the outcome. -/
structure World.LeadsTo (w : World) (σ : Assignment) (p : Fiber Outcome) (o : Outcome) : Prop where
  ends : ∀ (env : Environment) {ds : List Deed} {r : Option (Outcome × Clock)} {w' : World},
    w.Runs (· ≤ ·) p ds r w' → ∃ T es res w'', ({ w' with clock := T } : World).Prompts env es
      ∧ w.Runs (· ≤ ·) p (ds ++ es) (some res) w''
  agrees : ∀ {ds : List Deed} {res : Outcome × Clock} {w' : World},
    w.Runs (· ≤ ·) p ds (some res) w' → Assigned σ ds → res.1 = o

/-- **A run that was interrupted ends as if it had not been.** Take a run on a fresh id whose leaves
    end as an assignment says, and stop it anywhere after the store has a record of it. The
    continuation from what is left in the stores leads to the end of the run, but for a run without a
    checkpoint; and when checkpoints are kept, no run without one was completed. -/
theorem resume_as_uninterrupted {e : Engine} {source : PlanSource} {plan : Plan} {σ : Assignment}
    {given executionId : Option String} {id : String} {record : RunRecord} {pre post : List Deed}
    {o : Outcome} {t : Clock} {w stopped ended later : World} (haccept : source.accept = .ok plan)
    (hinput : plan.input.isData = true) (hσ : ∀ q v, σ q = .ok v → v.isData = true)
    (hfresh : w.recordOf id = .ok none)
    (hruns : w.Runs (· ≤ ·) (e.run source given executionId) (pre ++ post) (some (o, t)) ended)
    (hassigned : Assigned σ (pre ++ post)) (hstopped : w.Admits pre stopped)
    (hrecord : stopped.recordOf id = .ok (some record)) (hstores : later.stores = stopped.stores) :
    later.LeadsTo σ (e.resume source id) (resumedOutcome plan id record o)
      ∧ (e.checkpoints = true → record.status = .completed →
        record.metadata.has StoredCheckpoint.key = true) := by
  obtain ⟨runId, es, fs, u, hne, -, hds, hids, hcourse⟩ := run_course haccept hruns.course
  have hsilent {es' w₁} (hes' : ∀ d ∈ es', d ∈ es) (h : w.Admits es' w₁) :
      w₁.recordOf id = .ok none := by
    refine h.keeps (I := fun v => v.recordOf id = .ok none) (fun d hd v v' hv hv' => ?_) hfresh
    rw [hv'.recordOf_eq (by rw [hids d (hes' d hd)]; rfl), hv]
  -- the stop lies behind the choice of the id, for there is a record
  obtain ⟨as, rfl, rfl⟩ : ∃ as, pre = es ++ as ∧ fs = as ++ post := by
    rcases List.append_eq_append_iff.mp hds with ⟨as, has, -⟩ | ⟨as, rfl, hfs⟩
    · have hnone := hsilent (fun d hd => has ▸ List.mem_append_left _ hd) hstopped
      rw [hrecord] at hnone
      exact absurd hnone (by simp)
    · exact ⟨as, rfl, hfs⟩
  rw [List.append_assoc] at hassigned
  have hassigned := hassigned.of_append.2
  obtain ⟨w₁, hw₁, hstopped⟩ := hstopped.split
  have hleft : stopped.Left ⟨e, plan, runId⟩ σ id :=
    Execution.fromStart_left hσ hinput (hsilent (fun _ h => h) hw₁) hassigned.of_append.1 hstopped
      (hcourse.stop rfl)
  obtain rfl : id = runId := by
    by_contra hother
    have hnone := hleft.consistent.absent (.inl hother)
    rw [hrecord] at hnone
    exact absurd hnone (by simp)
  have ho : o = Execution.foreseeRun ⟨e, plan, id⟩ σ := by
    have hadmits := hruns.admits
    rw [List.append_assoc] at hadmits
    obtain ⟨w₂, -, hadmits⟩ := hadmits.split
    exact Execution.fromStart_foreseen hassigned hadmits hcourse
  have hlater := hleft.of_stores hstores
  have hrecord' : later.recordOf id = .ok (some record) := by
    rw [World.recordOf, hstores, ← World.recordOf, hrecord]
  refine ⟨⟨fun env _ _ _ h => h.finish env, fun {ds res w'} h hassigned => ?_⟩,
    fun hon hcompleted => ?_⟩
  · rw [ho]
    exact resume_agrees haccept hne hlater hrecord' hassigned h.admits h.course
  · obtain ⟨fin, hfin, hresult, hlast⟩ := hleft.completed record hrecord hcompleted
    obtain ⟨a, ha, -⟩ := hlast hon
    have hdata : record.metadata.get? StoredCheckpoint.key = some a.written := by
      rw [World.checkpointOf, hrecord] at ha
      exact ha
    rw [Keyed.has, hdata]
    rfl

/-! ### An instance -/

/-- Both agents are done, whenever they are called. -/
def agentsEnd : Assignment := fun _ => .ok (.text "done")

/-- The first trial, had it not been stopped. -/
def wholeTrial : Trial :=
  .prompt plainEngine agentsDone {} (plainEngine.run twoAgents (some "run") none)

/-- What the two agents report, and then the parallel step. -/
theorem agents_assigned {ds : List Deed} (n : Nat)
    (h : (reports ds).map (fun r => (r.path.kind?, r.outcome))
      = List.replicate n (some "agent", .ok (.text "done"))
        ++ [(some "parallel", .ok (.object [("results", .list [.text "done", .text "done"])]))]) :
    Assigned agentsEnd ds := by
  intro r hr _ hparallel
  have hr : (r.path.kind?, r.outcome) ∈ _ := h ▸ List.mem_map_of_mem hr
  rcases List.mem_append.mp hr with hr | hr
  · exact (Prod.mk.inj (List.eq_of_mem_replicate hr)).2
  · exact absurd (Prod.mk.inj (List.mem_singleton.mp hr)).1 hparallel

/-- The trial that goes on where the first one was stopped ends as the first one would have ended. -/
theorem two_agents_resumed :
    continuedTrial.result.map Prod.fst = wholeTrial.result.map Prod.fst := by
  have hruns : World.Runs (· ≤ ·) {} (plainEngine.run twoAgents (some "run") none)
      (stoppedTrial.deeds ++ wholeTrial.deeds.drop 9) wholeTrial.result wholeTrial.after := by
    have hsplit : stoppedTrial.deeds ++ wholeTrial.deeds.drop 9 = wholeTrial.deeds :=
      List.take_append_drop ..
    rw [hsplit]
    exact Trial.prompt_runs ..
  have hassigned : Assigned agentsEnd (stoppedTrial.deeds ++ wholeTrial.deeds.drop 9) :=
    agents_assigned 2 rfl
  have hstopped : World.Admits {} stoppedTrial.deeds stoppedTrial.after :=
    (Trial.stopped_runs ..).admits
  have hcontinued : stoppedTrial.after.Runs (· ≤ ·) (plainEngine.resume twoAgents "run")
      continuedTrial.deeds continuedTrial.result continuedTrial.after := Trial.prompt_runs ..
  obtain ⟨record, hrecord, hkey⟩ : ∃ record, stoppedTrial.after.recordOf "run" = .ok (some record)
      ∧ record.metadata.has StoredCheckpoint.key = true := ⟨_, rfl, rfl⟩
  have haccept : twoAgents.accept = .ok _ := rfl
  have hplain (q : StepPath) (v : Value) (h : agentsEnd q = .ok v) : v.isData = true := by
    obtain rfl := Except.ok.inj h
    rfl
  obtain ⟨hleads, -⟩ := resume_as_uninterrupted haccept rfl hplain rfl hruns hassigned hstopped
    hrecord rfl
  have hends := hleads.agrees hcontinued (agents_assigned 1 rfl)
  rw [resumedOutcome, if_pos hkey] at hends
  exact congrArg some hends

end Runbook
