import Runbook.Proofs.RunUpdates

/-!
# `Proofs.Keeping` — what a backend makes of the data that it keeps

A store in memory keeps data as it is, every other one what a document holds of it. Either way, keeping
what is kept already changes nothing. So the checkpoint in a run record stays the same to the letter
from one save to the next, whatever else is written in between.

## Contents
- **Values.** `Backend.keeps`, with `keeps_keeps`.
- **Contexts.** `Backend.keepsContext`, the context that is restored from a snapshot that was kept.
- **Records.** `RunRecord.Writable`, a record that can be written down, and the updates that leave it
  so.
- **Writes.** What becomes of the checkpoint of a run, exactly: `checkpointOf_writeRun`,
  `checkpointOf_saveCheckpoint`, and `saveCheckpoint_stored`.
-/

namespace Runbook

/-! ## Values -/

namespace Value

mutual
/-- What a document holds is what a document of it holds. -/
theorem storable_storable : ∀ v : Value, v.storable.storable = v.storable
  | .null | .bool _ | .int _ | .text _ | .function _ | .schema _ | .parsed _ _ => rfl
  | .real x => by
    rw [storable]
    split
    · next h => rw [storable, if_pos h]
    · rfl
  | .list items => by rw [storable, storable, storableItems_storableItems items]
  | .object fields => by rw [storable, storable, storableFields_storableFields fields]

theorem storableItems_storableItems : ∀ items : List Value,
    storableItems (storableItems items) = storableItems items
  | [] => rfl
  | v :: rest => by
    rw [storableItems, storableItems, storable_storable v, storableItems_storableItems rest]

theorem storableFields_storableFields : ∀ fields : Keyed Value,
    storableFields (storableFields fields) = storableFields fields
  | [] => rfl
  | (k, v) :: rest => by
    rw [storableFields, storableFields, storable_storable v, storableFields_storableFields rest]
end

theorem storableItems_eq_map (items : List Value) : storableItems items = items.map storable := by
  induction items with
  | nil => rfl
  | cons v rest ih => rw [storableItems, ih, List.map_cons]

end Value

namespace Backend

/-- What a backend keeps of a value. -/
def keeps (b : Backend) (v : Value) : Value := if b = .memory then v else v.storable

/-- What a backend keeps of fields. -/
def keepsFields (b : Backend) (fields : Keyed Value) : Keyed Value :=
  if b = .memory then fields else Value.storableFields fields

variable (b : Backend)

theorem keepsFields_eq_map (fields : Keyed Value) :
    b.keepsFields fields = fields.map fun entry => (entry.1, b.keeps entry.2) := by
  unfold keepsFields keeps
  split
  · simp
  · exact storableFields_eq_map fields

@[simp] theorem keepsFields_nil : b.keepsFields [] = [] := by rw [keepsFields_eq_map]; rfl

@[simp] theorem keepsFields_cons (k : String) (v : Value) (rest : Keyed Value) :
    b.keepsFields ((k, v) :: rest) = (k, b.keeps v) :: b.keepsFields rest := by
  simp [keepsFields_eq_map]

@[simp] theorem keeps_object (fields : Keyed Value) :
    b.keeps (.object fields) = .object (b.keepsFields fields) := by
  unfold keeps keepsFields
  split <;> simp [Value.storable]

@[simp] theorem keeps_list (items : List Value) :
    b.keeps (.list items) = .list (items.map b.keeps) := by
  unfold keeps
  split
  · simp
  · simp [Value.storable, Value.storableItems_eq_map]

@[simp] theorem keeps_int (n : Int) : b.keeps (.int n) = .int n := by
  unfold keeps; split <;> rfl

@[simp] theorem keeps_text (s : String) : b.keeps (.text s) = .text s := by
  unfold keeps; split <;> rfl

@[simp] theorem keeps_null : b.keeps .null = .null := by
  unfold keeps; split <;> rfl

/-- **Keeping what is kept changes nothing.** -/
@[simp] theorem keeps_keeps (v : Value) : b.keeps (b.keeps v) = b.keeps v := by
  unfold keeps
  split
  · rfl
  · exact v.storable_storable

@[simp] theorem keepsFields_keepsFields (fields : Keyed Value) :
    b.keepsFields (b.keepsFields fields) = b.keepsFields fields := by
  simp [keepsFields_eq_map, Function.comp_def]

theorem keeps_of_isData {v : Value} (h : v.isData = true) : b.keeps v = v := by
  unfold keeps
  split
  · rfl
  · exact Value.storable_of_isData h

theorem get?_keepsFields (fields : Keyed Value) (key : String) :
    (b.keepsFields fields).get? key = (fields.get? key).map b.keeps := by
  have hself : b.keepsFields fields = if b = .memory then fields else Value.storableFields fields := rfl
  rw [hself]
  split
  · next h => subst h; cases fields.get? key <;> rfl
  · next h =>
    rw [get?_storableFields]
    have hb : b.keeps = Value.storable := funext fun v => if_neg h
    rw [hb]

theorem unwritable?_keeps {v : Value} (h : v.unwritable? = none) : (b.keeps v).unwritable? = none := by
  unfold keeps
  split
  · exact h
  · exact Value.unwritable?_storable h

theorem unwritableField?_keepsFields {fields : Keyed Value}
    (h : Value.unwritableField? fields = none) :
    Value.unwritableField? (b.keepsFields fields) = none := by
  unfold keepsFields
  split
  · exact h
  · exact Value.unwritableField?_storable h

/-! ## Contexts -/

/-- The context that a backend keeps. -/
def keepsContext (c : Context) : Context :=
  { c with
    input := b.keeps c.input
    steps := b.keepsFields c.steps
    previous := b.keeps c.previous
    all := c.all.map b.keeps }

theorem toValue_keepsContext (c : Context) : (b.keepsContext c).toValue = b.keeps c.toValue := by
  have herrors (es : List StepError) :
      (es.map StepError.toValue).map b.keeps = es.map StepError.toValue := by
    rw [List.map_map]
    refine List.map_congr_left fun e _ => keeps_of_isData b ?_
    obtain ⟨ref, error⟩ := e
    cases ref <;> rfl
  obtain ⟨input, steps, previous, all, errors, runId⟩ := c
  have hid : b.keeps (Value.ofText? runId) = Value.ofText? runId :=
    b.keeps_of_isData (Value.isData_ofText? runId)
  cases errors with
  | none => simp [Context.toValue, keepsContext, hid]
  | some es => simp only [Context.toValue, keepsContext, keeps_object, keepsFields_cons, keepsFields_nil,
      keeps_list, hid, herrors]

/-- An attempt as a backend keeps it. -/
def keepsAttempt (a : Attempt) : Attempt :=
  { a with base := b.keepsContext a.base, journal := b.keepsFields a.journal }

end Backend

/-! ## Records -/

/-- A record that is held reads as what the backend keeps of it. -/
theorem record_of_hold {b : Backend} {r r' : RunRecord} {held : Held RunRecord}
    (hheld : hold b r = .ok held) (hread : held.read = .ok r') :
    r'.status = r.status ∧ r'.result = b.keeps r.result
      ∧ r'.metadata = b.keepsFields r.metadata := by
  rcases hold_cases hheld with ⟨rfl, rfl⟩ | ⟨hb, -, rfl⟩
  · obtain rfl : r = r' := Except.ok.inj hread
    exact ⟨rfl, rfl, rfl⟩
  · rw [Backend.keeps, if_neg hb, Backend.keepsFields, if_neg hb]
    exact RunRecord.of_decode hread

namespace RunRecord

/-- **A record that can be written down.** -/
structure Writable (r : RunRecord) : Prop where
  result : r.result.unwritable? = none
  metadata : Value.unwritableField? r.metadata = none

theorem writable_start (id : String) (now : Stamp) : (start id now).Writable := ⟨rfl, rfl⟩

theorem Writable.of_hold {b : Backend} {r r' : RunRecord} {held : Held RunRecord} (h : r.Writable)
    (hheld : hold b r = .ok held) (hread : held.read = .ok r') : r'.Writable := by
  obtain ⟨-, hresult, hmetadata⟩ := record_of_hold hheld hread
  exact ⟨hresult ▸ b.unwritable?_keeps h.result, hmetadata ▸ b.unwritableField?_keepsFields h.metadata⟩

/-- What an update leaves of the status and the result. -/
theorem update_fields {existing : Option RunRecord} {id : String} {updates : Keyed Value}
    {now : Stamp} {r : RunRecord} (h : update existing id updates now = .ok r) :
    Update.field updates "status" (existing.getD (start id now)).status RunStatus.ofValue
        = .ok r.status
      ∧ Update.field updates "result" (existing.getD (start id now)).result Decode.anything
        = .ok r.result := by
  obtain ⟨metadata, error, r₀, -, hrevise, rfl⟩ := update_eq_ok.mp h
  obtain ⟨_, _, _, _, _, _, -, hstatus, -, hresult, -, -, rfl⟩ := revise_eq_ok.mp hrevise
  rw [settle_status, settle_result]
  exact ⟨hstatus, hresult⟩

/-- **Calm updates** leave a record that can be written down. -/
theorem Writable.update {existing : Option RunRecord} {id : String} {updates : Keyed Value}
    {now : Stamp} {r : RunRecord} (hbase : (existing.getD (start id now)).Writable)
    (hupdates : Calm updates) (h : update existing id updates now = .ok r) : r.Writable := by
  obtain ⟨-, hresult⟩ := update_fields h
  obtain ⟨error, hoverlays⟩ := metadata_of_update h
  refine ⟨?_, overlays_writable hbase.metadata hupdates.metadata hoverlays⟩
  simp only [Update.field, Update.newValue?, hupdates.result, Value.present?,
    Checked.ok.injEq] at hresult
  rw [← hresult]
  exact hbase.result

end RunRecord

/-! ## Writes -/

namespace World

variable {w w' : World} {d : Deed} {id : String}

/-- The backend of the run records. -/
abbrev backend (w : World) : Backend := w.stores.runs.backend

theorem writeRun_backend (w : World) (id : String) (updates : Keyed Value) :
    (w.writeRun id updates).backend = w.backend := by
  rcases w.writeRun_cases id updates with hruns | ⟨_, _, _, -, -, -, hbackend, -⟩
  · rw [backend, hruns]
  · exact hbackend

theorem saveCheckpoint_backend (w : World) (id : String) :
    (w.saveCheckpoint id).backend = w.backend := by
  unfold saveCheckpoint
  split
  · exact w.writeRun_backend ..
  · rfl

theorem Answers.backend_eq (h : w.Answers d w') (hd : d.call.Orderly) : w'.backend = w.backend := by
  obtain ⟨step, call, answer, start, stop⟩ := d
  cases hd with
  | other hc => rw [backend, h.runs_eq hc]
  | update other => rw [h.updateRun_eq]; exact writeRun_backend { w with clock := start } ..
  | save other => rw [h.saveCheckpoint_eq]; exact saveCheckpoint_backend { w with clock := start } _

/-- **A write that spares the checkpoint** leaves what the backend keeps of it. -/
theorem checkpointOf_writeRun (w : World) (other : String) {updates : Keyed Value}
    (hspares : RunRecord.SparesCheckpoint updates) (id : String) :
    (w.writeRun other updates).Unreadable id
      ∨ (w.writeRun other updates).checkpointOf id = w.checkpointOf id
      ∨ (w.writeRun other updates).checkpointOf id = (w.checkpointOf id).map w.backend.keeps := by
  by_cases hid : id = other
  · subst hid
    rcases w.recordOf_writeRun_cases id updates with
      hsame | hlost | ⟨existing, r, held, r', hex, hr, hheld, hread, hr'⟩
    · exact .inr (.inl (by rw [checkpointOf, hsame, checkpointOf]))
    · exact .inl hlost
    · obtain ⟨error, hoverlays⟩ := RunRecord.metadata_of_update hr
      have hold : r.metadata.get? StoredCheckpoint.key = w.checkpointOf id := by
        rw [RunRecord.overlays_spared hspares.entry hoverlays, checkpointOf, hex]
        cases existing <;> rfl
      refine .inr (.inr ?_)
      rw [checkpointOf, hr']
      dsimp only
      rw [(record_of_hold hheld hread).2.2, Backend.get?_keepsFields, hold]
  · exact .inr (.inl (by rw [checkpointOf, recordOf_writeRun_of_ne w updates hid, checkpointOf]))

/-- **A save** leaves the checkpoint alone, or puts in its place what the backend keeps of the
    attempt. -/
theorem checkpointOf_saveCheckpoint (w : World) (id : String) :
    (w.saveCheckpoint id).Unreadable id
      ∨ (w.saveCheckpoint id).checkpointOf id = w.checkpointOf id
      ∨ ∃ data, w.attempt.checkpoint = .ok data
        ∧ (w.saveCheckpoint id).checkpointOf id = some (w.backend.keeps data) := by
  cases hdata : w.attempt.checkpoint with
  | error f =>
    unfold saveCheckpoint
    rw [hdata]
    exact .inr (.inl rfl)
  | ok data =>
    rw [saveCheckpoint_eq hdata]
    rcases w.recordOf_writeRun_cases id [("metadata", .object [(StoredCheckpoint.key, data)])] with
      hsame | hlost | ⟨existing, r, held, r', hex, hr, hheld, hread, hr'⟩
    · exact .inr (.inl (by rw [checkpointOf, hsame, checkpointOf]))
    · exact .inl hlost
    · obtain ⟨error, hoverlays⟩ := RunRecord.metadata_of_update hr
      refine .inr (.inr ⟨data, rfl, ?_⟩)
      rw [checkpointOf, hr']
      dsimp only
      rw [(record_of_hold hheld hread).2.2, Backend.get?_keepsFields,
        (overlays_checkpoint hoverlays).1, Keyed.get?_put_self, Option.map_some]

theorem recordOf_saveCheckpoint_of_ne (w : World) {id other : String} (h : other ≠ id) :
    (w.saveCheckpoint id).recordOf other = w.recordOf other := by
  unfold saveCheckpoint
  split
  · exact recordOf_writeRun_of_ne _ _ h
  · rfl

/-- A store that takes no writes keeps no attempt. -/
theorem Mute.saveCheckpoint {w : World} (h : w.Mute) (id : String) :
    (w.saveCheckpoint id).stores = w.stores := by
  unfold World.saveCheckpoint
  split
  · exact h.writeRun ..
  · rfl

/-- **A save that nothing keeps from success** puts the attempt into the record. -/
theorem saveCheckpoint_stored {existing : Option RunRecord} {data : Value} (hmute : ¬ w.Mute)
    (hexisting : w.recordOf id = .ok existing)
    (hbase : (existing.getD (.start id w.stamp)).Writable)
    (hdata : w.attempt.checkpoint = .ok data) (hwritable : data.unwritable? = none) :
    (w.saveCheckpoint id).Unreadable id
      ∨ (w.saveCheckpoint id).checkpointOf id = some (w.backend.keeps data) := by
  rcases saveCheckpoint_recorded hmute hexisting hbase.result hbase.metadata hdata hwritable
    with hlost | ⟨r, held, r', hheld, hread, hput, hat⟩
  · exact .inl hlost
  · refine .inr ?_
    rw [hat, (record_of_hold hheld hread).2.2, Backend.get?_keepsFields, hput, Option.map_some]

end World

end Runbook
