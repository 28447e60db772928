import Runbook.Proofs.PlainData

/-!
# `Proofs.RunUpdates` — what the updates of a run do to its record

Until a run has come to its end, its record has no result and says that it goes on, or has failed. Only
the last update of a run says that it is completed; by then the checkpoint is the last one, unless the
store takes no writes at all.

## Contents
- **Going on.** `RunRecord.Unfinished`, and the updates that keep a record so, `Calm`.
- **Last updates.** What an update with a result does.
- **Saving.** A checkpoint that can be written down is written down, as long as the store takes
  writes, `saveCheckpoint_kept`.
-/

namespace Runbook

/-! ## Going on -/

/-- The word for a status stands for no other one. -/
theorem RunStatus.eq_of_ofValue {v : Value} {s : RunStatus} (h : RunStatus.ofValue v = .ok s) :
    v = .text s.word := by
  unfold RunStatus.ofValue at h
  split at h
  · next s' hs =>
    obtain rfl : s' = s := by simpa using h
    obtain ⟨word, hv, hword⟩ := Option.bind_eq_some_iff.mp hs
    have hword := List.find?_some hword
    simp only [decide_eq_true_eq] at hword
    rw [hword]
    cases v <;> simp [Value.text?] at hv
    rw [hv]
  · simp [Checked.complain] at h

namespace RunRecord

/-- **A record of a run that has not been completed.** -/
structure Unfinished (r : RunRecord) : Prop where
  status : r.status ≠ .completed
  result : r.result = .null
  writable : Value.unwritableField? r.metadata = none

/-- **Updates that do not complete a run**, and that can be written down. -/
structure Calm (updates : Keyed Value) : Prop where
  result : updates.get? "result" = none
  status : updates.get? "status" ≠ some (.text "completed")
  metadata : ∀ v, ("metadata", v) ∈ updates → v.unwritable? = none

theorem calm_announced (plan : Plan) (executionId : Option String) :
    Calm (announcedUpdate plan executionId) := by
  refine ⟨by simp [announcedUpdate, Keyed.get?], by simp [announcedUpdate, Keyed.get?], fun v hv => ?_⟩
  obtain rfl : v = .object [("config_id", .ofText? plan.id)] := by simpa [announcedUpdate] using hv
  cases plan.id <;> rfl

theorem calm_continued : Calm continuedUpdate :=
  ⟨rfl, by simp [continuedUpdate, Keyed.get?], fun v hv => by simp [continuedUpdate] at hv⟩

theorem calm_failed (f : Fault) : Calm (failedUpdate f) :=
  ⟨rfl, by simp [failedUpdate, Keyed.get?], fun v hv => by simp [failedUpdate] at hv⟩

theorem unfinished_start (id : String) (now : Stamp) : (start id now).Unfinished :=
  ⟨by simp [start], rfl, rfl⟩

theorem Unfinished.copy {r r' : RunRecord} (h : r.Unfinished) (hcopy : r.Copy r') :
    r'.Unfinished where
  status := hcopy.status ▸ h.status
  result := by
    rcases hcopy.result with hr | hr <;> rw [hr, h.result]
    rfl
  writable := by
    rcases hcopy.metadata with hm | hm <;> rw [hm]
    · exact h.writable
    · exact Value.unwritableField?_storable h.writable

theorem unwritableField?_putAll {m entries : Keyed Value}
    (hm : Value.unwritableField? m = none) (hentries : Value.unwritableField? entries = none) :
    Value.unwritableField? (m.putAll entries) = none := by
  unfold Keyed.putAll
  induction entries generalizing m with
  | nil => exact hm
  | cons entry rest ih =>
    obtain ⟨k, v⟩ := entry
    rw [Value.unwritableField?, Option.or_eq_none_iff] at hentries
    exact ih (Value.unwritableField?_put hm hentries.1) hentries.2

theorem overlay_writable {m m' : Keyed Value} {v : Value} (hm : Value.unwritableField? m = none)
    (hv : v.unwritable? = none) (h : Update.overlay m v = .ok m') :
    Value.unwritableField? m' = none := by
  unfold Update.overlay at h
  split at h
  · rwa [← Except.ok.inj h]
  · cases v <;> simp only [Except.ok.injEq, reduceCtorEq] at h
    rw [← h]
    exact unwritableField?_putAll hm (by rwa [Value.unwritable?] at hv)

theorem overlays_writable {base : RunRecord} {updates metadata : Keyed Value}
    {error : Option ErrorInfo} (hbase : Value.unwritableField? base.metadata = none)
    (hupdates : ∀ v, ("metadata", v) ∈ updates → v.unwritable? = none)
    (h : base.overlays updates = .ok (metadata, error)) :
    Value.unwritableField? metadata = none := by
  unfold overlays at h
  refine foldlM_keeps (I := fun acc : Keyed Value × Option ErrorInfo =>
    Value.unwritableField? acc.1 = none) ?_ hbase h
  rintro acc ⟨k, v⟩ hmem acc' hacc hstep
  dsimp only at hstep
  split at hstep
  · next hk =>
    subst hk
    obtain ⟨m, hm, hacc'⟩ := Fault.bind_eq_ok.mp hstep
    rw [← Except.ok.inj hacc']
    exact overlay_writable hbase (hupdates v hmem) hm
  · split at hstep
    · obtain ⟨e, -, hacc'⟩ := Fault.bind_eq_ok.mp hstep
      rw [← Except.ok.inj hacc']
      exact hacc
    · rw [← Except.ok.inj hstep]
      exact hacc

/-- **Calm updates** leave a run unfinished. -/
theorem Unfinished.update {existing : Option RunRecord} {id : String} {updates : Keyed Value}
    {now : Stamp} {r : RunRecord} (hbase : (existing.getD (start id now)).Unfinished)
    (hupdates : Calm updates) (h : update existing id updates now = .ok r) : r.Unfinished := by
  obtain ⟨metadata, error, r₀, hoverlays, hrevise, rfl⟩ := update_eq_ok.mp h
  obtain ⟨_, _, _, _, _, _, -, hstatus, -, hresult, -, -, rfl⟩ := revise_eq_ok.mp hrevise
  refine ⟨?_, ?_, ?_⟩
  · rw [settle_status]
    dsimp only
    rintro rfl
    unfold Update.field Update.newValue? at hstatus
    cases hv : updates.get? "status" with
    | none =>
      rw [hv] at hstatus
      exact hbase.status (by simpa [Value.present?] using hstatus)
    | some v =>
      rw [hv] at hstatus
      cases v <;> simp only [Value.present?, Checked.under_eq_ok] at hstatus <;>
        first
        | exact hbase.status (by simpa using hstatus)
        | exact hupdates.status (hv.trans (congrArg some (RunStatus.eq_of_ofValue hstatus)))
  · rw [settle_result]
    dsimp only
    simp only [Update.field, Update.newValue?, hupdates.result, Value.present?,
      Checked.ok.injEq] at hresult
    rw [← hresult, hbase.result]
  · rw [settle_metadata]
    exact overlays_writable hbase.writable hupdates.metadata hoverlays

/-! ## Last updates -/

/-- The update with which a run is completed. -/
theorem update_completed {existing : Option RunRecord} {id : String} {v : Value} {now : Stamp}
    {r : RunRecord} (hbase : (existing.getD (start id now)).Unfinished)
    (h : update existing id [("status", .text "completed"), ("result", v)] now = .ok r) :
    r.result = v ∧ r.metadata = (existing.getD (start id now)).metadata := by
  obtain ⟨metadata, error, r₀, hoverlays, hrevise, rfl⟩ := update_eq_ok.mp h
  obtain ⟨_, _, _, _, _, _, -, -, -, hresult, -, -, rfl⟩ := revise_eq_ok.mp hrevise
  rw [settle_result, settle_metadata]
  dsimp only
  have hmetadata : metadata = (existing.getD (start id now)).metadata :=
    (Prod.mk.inj (Except.ok.inj hoverlays)).1.symm
  refine ⟨?_, hmetadata⟩
  cases v with
  | null =>
    simp [Update.field, Update.newValue?, Keyed.get?, Value.present?] at hresult
    rw [← hresult, hbase.result]
  | _ =>
    simp [Update.field, Update.newValue?, Keyed.get?, Value.present?, Decode.anything,
      Checked.under_eq_ok] at hresult
    exact hresult.symm

/-! ## Saving -/

/-- A checkpoint is laid over any record. -/
theorem update_checkpoint (existing : Option RunRecord) (id : String) (data : Value) (now : Stamp) :
    ∃ r, update existing id [("metadata", .object [(StoredCheckpoint.key, data)])] now = .ok r
      ∧ r.metadata = (existing.getD (start id now)).metadata.put StoredCheckpoint.key data
      ∧ r.result = (existing.getD (start id now)).result :=
  ⟨_, rfl, by rw [settle_metadata]; rfl, by rw [settle_result]⟩

/-- What a record consists of besides its result and metadata can be written down. -/
theorem unwritable?_toValue {r : RunRecord} (hresult : r.result.unwritable? = none)
    (hmetadata : Value.unwritableField? r.metadata = none) : r.toValue.unwritable? = none := by
  have htext (s : Option String) := Value.unwritable?_of_isData (Value.isData_ofText? s)
  have herror (e : Option ErrorInfo) := Value.unwritable?_of_isData (ErrorInfo.isData_toValue? e)
  have hstamp (s : Option Stamp) := Value.unwritable?_of_isData (Stamp.isData_toValue? s)
  simp only [toValue, Value.unwritable?, Value.unwritableField?, htext, herror, hstamp, hresult,
    hmetadata, Stamp.toValue, Option.none_or]

end RunRecord

/-- What operations on the stores do not change: whether they are open, and which writes fail. -/
structure Stores.Fixed (s s' : Stores) : Prop where
  isOpen : s'.isOpen = s.isOpen
  outage : s'.outage = s.outage

theorem Stores.Touches.fixed {s s' : Stores} {op : StoreOp} (h : s.Touches op s') : s.Fixed s' := by
  cases h <;> exact ⟨rfl, rfl⟩

/-- Operations neither open the stores nor close them, nor do they mend them. -/
theorem Stores.perform_fixed (s : Stores) (now : Stamp) (op : StoreOp) :
    s.Fixed (s.perform now op).2 := (s.perform_touches now op).fixed

namespace World

/-- **A store that takes no writes** of run records at all. -/
def Mute (w : World) : Prop := w.stores.isOpen = false ∨ w.stores.outage = .always

/-- Nor does anything else that is done. -/
theorem Answers.fixed {w w' : World} {d : Deed} (h : w.Answers d w') :
    Stores.Fixed w.stores w'.stores := by
  rcases h.stores_cases with hsame | ⟨op, -, hstores⟩
  · rw [hsame]
    exact ⟨rfl, rfl⟩
  · rw [hstores]
    exact Stores.perform_fixed ..

theorem writeRun_fixed (w : World) (id : String) (updates : Keyed Value) :
    Stores.Fixed w.stores (w.writeRun id updates).stores := Stores.perform_fixed ..

theorem saveCheckpoint_fixed (w : World) (id : String) :
    Stores.Fixed w.stores (w.saveCheckpoint id).stores := by
  unfold saveCheckpoint
  split
  · exact w.writeRun_fixed ..
  · exact ⟨rfl, rfl⟩

theorem Mute.writeRun {w : World} (h : w.Mute) (id : String) (updates : Keyed Value) :
    (w.writeRun id updates).stores = w.stores := by
  unfold World.writeRun useStores
  simp only [Stores.perform, record_stores]
  rcases h with h | h
  · simp [h]
  · by_cases hopen : w.stores.isOpen = true
    · simp [Stores.performOpen, Stores.writing, Stores.setRun, Outage.hits, h, hopen]
    · simp [hopen]

/-- A write that nothing keeps from success. -/
theorem recordOf_writeRun_of_hold {w : World} {id : String} {updates : Keyed Value}
    {existing : Option RunRecord} {r : RunRecord} {held : Held RunRecord}
    (hopen : w.stores.isOpen = true) (hhits : w.stores.outage.hits updates = false)
    (hexisting : w.recordOf id = .ok existing)
    (hr : RunRecord.update existing id updates w.stamp = .ok r)
    (hheld : hold w.stores.runs.backend r = .ok held) :
    (w.writeRun id updates).recordOf id = some <$> held.read := by
  obtain ⟨runs, hset, hrecords⟩ : ∃ runs, w.stores.runs.set id updates w.stamp = .ok (r, runs)
      ∧ runs.records = w.stores.runs.records.put id held := by
    rw [recordOf] at hexisting
    unfold RunStore.set RunStore.keep
    rw [hexisting, ← RunRecord.runId_of_update hr]
    simp only [bind, Except.bind, RunRecord.runId_of_update hr, hr, hheld]
    exact ⟨_, rfl, rfl⟩
  have hset : w.stores.runs.set id updates (Stamp.ofMicros w.clock) = .ok (r, runs) := hset
  have hwrite : (w.writeRun id updates).stores.runs = runs := by
    unfold World.writeRun useStores
    simp [Stores.perform, Stores.performOpen, Stores.writing, Stores.setRun, record, stamp, hopen,
      hhits, hset, bind, Except.bind, pure, Except.pure]
  rw [recordOf, hwrite, RunStore.get, hrecords, Keyed.readHeld_put_self]

theorem hold_eq_ok {ρ : Type} [Recorded ρ] {backend : Backend} {r : ρ}
    (h : (Recorded.toValue r).unwritable? = none) : ∃ held, hold backend r = .ok held := by
  have hencode : encode r = .ok (Recorded.toValue r).storable := by
    unfold encode
    rw [h]
  cases backend with
  | memory => exact ⟨_, rfl⟩
  | _ =>
    exact ⟨.document (Recorded.toValue r).storable, by simp [hold, hencode, Functor.map, Except.map]⟩

theorem saveCheckpoint_eq {w : World} {id : String} {data : Value}
    (h : w.attempt.checkpoint = .ok data) :
    w.saveCheckpoint id
      = w.writeRun id [("metadata", .object [(StoredCheckpoint.key, data)])] := by
  unfold saveCheckpoint
  rw [h]
  rfl

/-- **A save that nothing keeps from success** leaves a record that cannot be read, or one that is read of
    what the backend holds of a record with the attempt in it. -/
theorem saveCheckpoint_recorded {w : World} {id : String} {existing : Option RunRecord} {data : Value}
    (hmute : ¬ w.Mute) (hexisting : w.recordOf id = .ok existing)
    (hresult : (existing.getD (.start id w.stamp)).result.unwritable? = none)
    (hmetadata : Value.unwritableField? (existing.getD (.start id w.stamp)).metadata = none)
    (hdata : w.attempt.checkpoint = .ok data) (hwritable : data.unwritable? = none) :
    (w.saveCheckpoint id).Unreadable id
      ∨ ∃ (r : RunRecord) (held : Held RunRecord) (r' : RunRecord),
        hold w.stores.runs.backend r = .ok held ∧ held.read = .ok r'
        ∧ r.metadata.get? StoredCheckpoint.key = some data
        ∧ (w.saveCheckpoint id).checkpointOf id = r'.metadata.get? StoredCheckpoint.key := by
  obtain ⟨r, hr, hput, hsame⟩ := RunRecord.update_checkpoint existing id data w.stamp
  obtain ⟨held, hheld⟩ : ∃ held, hold w.stores.runs.backend r = .ok held :=
    hold_eq_ok (RunRecord.unwritable?_toValue (hsame ▸ hresult)
      (hput ▸ Value.unwritableField?_put hmetadata hwritable))
  unfold Mute at hmute
  obtain ⟨hopen, hout⟩ := not_or.mp hmute
  have hhits : w.stores.outage.hits [("metadata", .object [(StoredCheckpoint.key, data)])] = false := by
    cases h : w.stores.outage with
    | always => exact absurd h hout
    | never => rfl
    | statuses words => simp [Outage.hits, Keyed.get?]
  have hread := recordOf_writeRun_of_hold (by simpa using hopen) hhits hexisting hr hheld
  rw [saveCheckpoint_eq hdata]
  cases hheld' : held.read with
  | error f => exact .inl ⟨f, by rw [hread, hheld']; rfl⟩
  | ok r' =>
    refine .inr ⟨r, held, r', hheld, hheld', by rw [hput, Keyed.get?_put_self], ?_⟩
    rw [checkpointOf, hread, hheld']
    rfl

/-- **A checkpoint that can be written down is written down**, unless the store takes no writes or the
    record cannot be read. -/
theorem saveCheckpoint_kept {w : World} {id : String} {existing : Option RunRecord} {data : Value}
    (hmute : ¬ w.Mute) (hexisting : w.recordOf id = .ok existing)
    (hbase : (existing.getD (.start id w.stamp)).Unfinished)
    (hdata : w.attempt.checkpoint = .ok data) (hwritable : data.unwritable? = none) :
    (w.saveCheckpoint id).Unreadable id
      ∨ ∃ v, data.Kept v ∧ (w.saveCheckpoint id).checkpointOf id = some v := by
  rcases saveCheckpoint_recorded hmute hexisting (by rw [hbase.result]; rfl) hbase.writable hdata hwritable
    with hlost | ⟨r, held, r', hheld, hread, hput, hat⟩
  · exact .inl hlost
  · refine .inr ?_
    rcases get?_of_copy StoredCheckpoint.key (copy_of_hold hheld hread).metadata with h | h
    · exact ⟨data, .refl _, by rw [hat, h, hput]⟩
    · exact ⟨data.storable, .inr rfl, by rw [hat, h, hput]; rfl⟩

end World

end Runbook
