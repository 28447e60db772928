import Runbook.Proofs.Attempts
import Runbook.Proofs.PlainRecords
import Runbook.Proofs.Saves

/-!
# `Proofs.Standings` — what the record of a run says of it

A run tells its record how it stands: that it has begun, that it is paused and which event it waits for, that
it goes on, how it has ended. An update that does not name a field leaves it as it was. So as long as the store
works, the record says at any moment what it was told last.

## Contents
- **Records.** `Backend.keepsRun`, the record that a backend keeps, and `RunRecord.Fits`.
- **Updates.** `RunRecord.Tidings`, the updates with which runs tell how they stand; what they set.
- **Standings.** `Standing`, with `Standing.after` and `Standing.afterAll`, what is left of updates in order.
- **Working stores.** `World.Working`; the step lemmas `Working.tell` and `Working.save`, and the run lemma
  `Working.admits`.
-/

namespace Runbook

/-! ## Records -/

namespace Backend

variable (b : Backend)

/-- The run record that a backend keeps. -/
def keepsRun (r : RunRecord) : RunRecord :=
  { r with
    result := b.keeps r.result
    metadata := b.keepsFields r.metadata }

@[simp] theorem keepsRun_keepsRun (r : RunRecord) : b.keepsRun (b.keepsRun r) = b.keepsRun r := by
  simp [keepsRun]

theorem keepsRun_memory (r : RunRecord) : Backend.memory.keepsRun r = r := rfl

theorem keeps_run (r : RunRecord) : b.keeps r.toValue = (b.keepsRun r).toValue := by
  simp only [RunRecord.toValue, keepsRun, keeps_object, keepsFields_cons, keepsFields_nil, keeps_text,
    b.keeps_of_isData (ErrorInfo.isData_toValue? _), b.keeps_of_isData (Stamp.isData_toValue? _),
    b.keeps_of_isData (Value.isData_ofText? _), Stamp.toValue]

end Backend

namespace RunRecord

/-- **A record that a backend can hold**: any record in memory; in a document, one with proper stamps whose
    values can be written down. -/
def Fits (b : Backend) (r : RunRecord) : Prop := b ≠ .memory → r.Proper ∧ r.Writable

theorem Writable.keepsRun {r : RunRecord} (h : r.Writable) (b : Backend) : (b.keepsRun r).Writable :=
  ⟨b.unwritable?_keeps h.result, b.unwritableField?_keepsFields h.metadata⟩

theorem Proper.keepsRun {r : RunRecord} (h : r.Proper) (b : Backend) : (b.keepsRun r).Proper :=
  ⟨h.createdAt, h.updatedAt, h.completedAt⟩

theorem Fits.keepsRun {b : Backend} {r : RunRecord} (h : r.Fits b) : (b.keepsRun r).Fits b :=
  fun hb => ⟨(h hb).1.keepsRun b, (h hb).2.keepsRun b⟩

/-- **A record that fits is held**, and what is read of it is what the backend keeps of it. -/
theorem Fits.hold {b : Backend} {r : RunRecord} (h : r.Fits b) :
    ∃ held, Runbook.hold b r = .ok held ∧ held.read = .ok (b.keepsRun r) := by
  have hheld : ∃ held, Runbook.hold b r = .ok held := by
    by_cases hb : b = .memory
    · exact ⟨.live r, by rw [hb]; rfl⟩
    · exact World.hold_eq_ok (unwritable?_toValue (h hb).2.result (h hb).2.metadata)
  obtain ⟨held, hheld⟩ := hheld
  refine ⟨held, hheld, Runbook.read_of_hold hheld (fun hb => by rw [hb, Backend.keepsRun_memory]) fun hb => ?_⟩
  show RunRecord.ofValue (b.keeps r.toValue) = _
  rw [b.keeps_run r]
  exact RunRecord.ofValue_toValue ((h hb).1.keepsRun b)

theorem proper_start {id : String} {now : Stamp} (hnow : now.Proper) : (start id now).Proper where
  createdAt := hnow
  updatedAt := hnow
  completedAt := by simp [start]

/-- Updates leave proper stamps. -/
theorem Proper.update {existing : Option RunRecord} {id : String} {updates : Keyed Value} {now : Stamp}
    {r : RunRecord} (hbase : (existing.getD (start id now)).Proper) (hnow : now.Proper)
    (h : update existing id updates now = .ok r) : r.Proper := by
  obtain ⟨metadata, error, r₀, -, hrevise, rfl⟩ := update_eq_ok.mp h
  obtain ⟨_, status, _, _, createdAt, completedAt, -, -, -, -, hcreated, hcompleted, rfl⟩ :=
    revise_eq_ok.mp hrevise
  have hcreated : createdAt.Proper := Update.field_proper hbase.createdAt hcreated
  have hcompleted : ∀ s ∈ completedAt, s.Proper := Update.field_proper? hbase.completedAt hcompleted
  unfold settle
  split
  · refine ⟨hcreated, hnow, fun s hs => ?_⟩
    cases completedAt with
    | none => exact Option.some.inj hs ▸ hnow
    | some s' => exact hcompleted s hs
  · exact ⟨hcreated, hnow, hcompleted⟩

/-! ## Updates -/

/-- The update with which a run says that it is paused or goes on, and which event it waits for. -/
def standsUpdate (s : RunStatus) (token : Option (Option String)) : Keyed Value :=
  ("status", .text s.word) :: (token.map fun t => ("hook_token", Value.ofText? t)).toList

/-- **The updates with which runs tell how they stand.** -/
inductive Tidings : Keyed Value → Prop where
  | begun (plan : Plan) (executionId : Option String) : Tidings (announcedUpdate plan executionId)
  | stands {s : RunStatus} (token : Option (Option String)) (h : s = .paused ∨ s = .running) :
      Tidings (standsUpdate s token)
  | failed (f : Fault) : Tidings (failedUpdate f)
  | completed (c : Context) : Tidings (completedUpdate c)

theorem tidings_continued : Tidings continuedUpdate := .stands none (.inr rfl)

theorem tidings_of_status {updates : Keyed Value} (h : StatusUpdates updates) :
    ∃ s token, (s = .paused ∨ s = .running) ∧ updates = standsUpdate s token := by
  obtain ⟨s, hs, rfl | ⟨token, rfl⟩⟩ := h
  · exact ⟨s, none, hs, rfl⟩
  · exact ⟨s, some token, hs, rfl⟩

/-- The status that an update sets. -/
def toldStatus? (updates : Keyed Value) : Option RunStatus :=
  match RunStatus.ofValue ((updates.get? "status").getD .null) with
  | .ok s => some s
  | .bad _ => none

/-- The token that an update sets; null clears it. -/
def toldToken? (updates : Keyed Value) : Option (Option String) :=
  (updates.get? "hook_token").map Value.text?

/-- The result that an update sets. -/
def toldResult? (updates : Keyed Value) : Option Value := Update.newValue? updates "result"

/-- The error that an update sets. -/
def toldError? (updates : Keyed Value) : Option ErrorInfo :=
  (updates.get? "error").bind fun v => (ErrorInfo.ofUpdate? v).toOption.join

section

variable {s : RunStatus} {token : Option (Option String)}

@[simp] theorem toldStatus?_stands : toldStatus? (standsUpdate s token) = some s := by
  have hword : (standsUpdate s token).get? "status" = some (.text s.word) := rfl
  rw [toldStatus?, hword, Option.getD_some, RunStatus.ofValue_word]

@[simp] theorem toldToken?_stands : toldToken? (standsUpdate s token) = token := by
  cases token with
  | none => rfl
  | some t => cases t <;> rfl

@[simp] theorem toldResult?_stands : toldResult? (standsUpdate s token) = none := by
  cases token <;> rfl

@[simp] theorem toldError?_stands : toldError? (standsUpdate s token) = none := by
  cases token <;> rfl

end

end RunRecord

/-! ## Standings -/

/-- **What the record of a run says of it.** -/
structure Standing where
  status : RunStatus := .pending
  token : Option String := none
  result : Value := .null
  error : Option ErrorInfo := none

/-- What a record says of its run. -/
def RunRecord.standing (r : RunRecord) : Standing := ⟨r.status, r.hookToken, r.result, r.error⟩

/-- What a backend keeps of a standing. -/
def Backend.keepsStanding (b : Backend) (s : Standing) : Standing := { s with result := b.keeps s.result }

theorem RunRecord.standing_keepsRun (b : Backend) (r : RunRecord) :
    (b.keepsRun r).standing = b.keepsStanding r.standing := rfl

namespace Standing

open RunRecord

variable {s : Standing} {updates : Keyed Value} {us vs : List (Keyed Value)}

/-- A standing after an update: what the update does not set stays. -/
def after (s : Standing) (updates : Keyed Value) : Standing where
  status := (toldStatus? updates).getD s.status
  token := (toldToken? updates).getD s.token
  result := (toldResult? updates).getD s.result
  error := (toldError? updates).or s.error

/-- A standing after updates in order. -/
def afterAll (s : Standing) (us : List (Keyed Value)) : Standing := us.foldl after s

@[simp] theorem after_nil : s.after [] = s := rfl

@[simp] theorem afterAll_nil : s.afterAll [] = s := rfl

@[simp] theorem afterAll_cons : s.afterAll (updates :: us) = (s.after updates).afterAll us := rfl

@[simp] theorem afterAll_append : s.afterAll (us ++ vs) = (s.afterAll us).afterAll vs := List.foldl_append ..

theorem keepsStanding_after (b : Backend) :
    b.keepsStanding ((b.keepsStanding s).after updates) = b.keepsStanding (s.after updates) := by
  unfold Backend.keepsStanding after
  cases toldResult? updates <;> simp

theorem keepsStanding_afterAll (b : Backend) :
    b.keepsStanding ((b.keepsStanding s).afterAll us) = b.keepsStanding (s.afterAll us) := by
  induction us generalizing s with
  | nil => simp [Backend.keepsStanding]
  | cons u us ih => rw [afterAll_cons, afterAll_cons, ← ih, keepsStanding_after, ih]

/-! What is left of updates is what was told last. -/

/-- A field that updates set or leave is the one that was told last. -/
theorem field_afterAll {α : Type} (field : Standing → α) (told? : Keyed Value → Option α)
    (hafter : ∀ s updates, field (s.after updates) = (told? updates).getD (field s)) (s : Standing)
    (us : List (Keyed Value)) : field (s.afterAll us) = ((us.filterMap told?).getLast?).getD (field s) := by
  induction us generalizing s with
  | nil => rfl
  | cons u us ih =>
    rw [afterAll_cons, ih, List.filterMap_cons, hafter]
    cases told? u with
    | none => rfl
    | some v => simp [List.getLast?_cons]

theorem status_afterAll : (s.afterAll us).status = ((us.filterMap toldStatus?).getLast?).getD s.status :=
  field_afterAll Standing.status toldStatus? (fun _ _ => rfl) s us

theorem token_afterAll : (s.afterAll us).token = ((us.filterMap toldToken?).getLast?).getD s.token :=
  field_afterAll Standing.token toldToken? (fun _ _ => rfl) s us

theorem result_afterAll : (s.afterAll us).result = ((us.filterMap toldResult?).getLast?).getD s.result :=
  field_afterAll Standing.result toldResult? (fun _ _ => rfl) s us

/-- An error stays until another one is told; no update clears it. -/
theorem error_afterAll : (s.afterAll us).error = ((us.filterMap toldError?).getLast?).or s.error := by
  induction us generalizing s with
  | nil => rfl
  | cons u us ih =>
    rw [afterAll_cons, ih, List.filterMap_cons, after]
    cases toldError? u with
    | none => rfl
    | some v => simp [List.getLast?_cons]

end Standing

namespace RunRecord

/-- **A run can tell any tidings**, and the record then says them. -/
theorem update_tidings {updates : Keyed Value} (h : Tidings updates) (existing : Option RunRecord)
    (id : String) (now : Stamp) :
    ∃ r, update existing id updates now = .ok r
      ∧ r.standing = (existing.getD (start id now)).standing.after updates := by
  cases h with
  | begun plan executionId => cases executionId <;> exact ⟨_, rfl, rfl⟩
  | stands token h =>
    rcases h with rfl | rfl <;> rcases token with - | - | token <;> exact ⟨_, rfl, rfl⟩
  | failed f => exact ⟨_, rfl, rfl⟩
  | completed c =>
    obtain ⟨input, steps, previous, all, errors, runId⟩ := c
    cases previous <;> exact ⟨_, rfl, rfl⟩

theorem Tidings.spares {updates : Keyed Value} (h : Tidings updates) : SparesCheckpoint updates := by
  cases h with
  | begun plan executionId => exact spares_announced plan executionId
  | stands token => cases token <;> exact fun v hv => absurd hv (by simp [standsUpdate])
  | failed f => exact spares_failed f
  | completed c => exact spares_completed c

/-- What is told of a run besides its result can be written down. -/
theorem Tidings.metadata {updates : Keyed Value} (h : Tidings updates) :
    ∀ v, ("metadata", v) ∈ updates → v.unwritable? = none := by
  cases h with
  | begun => exact (calm_announced _ _).metadata
  | stands token => cases token <;> exact fun v hv => absurd hv (by simp [standsUpdate])
  | failed => exact (calm_failed _).metadata
  | completed => exact fun v hv => absurd hv (by simp [completedUpdate])

/-- An update whose result and metadata can be written down leaves a record that can. -/
theorem Writable.told {existing : Option RunRecord} {id : String} {updates : Keyed Value} {now : Stamp}
    {r : RunRecord} (hbase : (existing.getD (start id now)).Writable)
    (hresult : ∀ v, toldResult? updates = some v → v.unwritable? = none)
    (hmetadata : ∀ v, ("metadata", v) ∈ updates → v.unwritable? = none)
    (h : RunRecord.update existing id updates now = .ok r) : r.Writable := by
  have hfield := (update_fields h).2
  obtain ⟨error, hoverlays⟩ := metadata_of_update h
  refine ⟨?_, overlays_writable hbase.metadata hmetadata hoverlays⟩
  unfold Update.field at hfield
  split at hfield
  · next v hv =>
    obtain rfl := Checked.ok.inj (Checked.under_eq_ok.mp hfield)
    exact hresult _ hv
  · exact Checked.ok.inj hfield ▸ hbase.result

/-- A record that is held in a document can be written down. -/
theorem writable_of_hold {b : Backend} {r : RunRecord} {held : Held RunRecord} (hb : b ≠ .memory)
    (h : Runbook.hold b r = .ok held) : r.Writable := by
  rcases hold_cases h with ⟨rfl, -⟩ | ⟨-, hnone, -⟩
  · exact absurd rfl hb
  · simp only [Recorded.toValue, toValue, Value.unwritable?, Value.unwritableField?,
      Option.or_eq_none_iff] at hnone
    exact ⟨hnone.2.2.2.2.1, hnone.2.2.2.2.2.2.1⟩

theorem standing_settle (r : RunRecord) (now : Stamp) : (r.settle now).standing = r.standing := by
  unfold settle
  split <;> rfl

/-- A checkpoint is laid over any record, and what the record says stays. -/
theorem update_saved (existing : Option RunRecord) (id : String) (data : Value) (now : Stamp) :
    ∃ r, update existing id [("metadata", .object [(StoredCheckpoint.key, data)])] now = .ok r
      ∧ r.standing = (existing.getD (start id now)).standing
      ∧ r.metadata = (existing.getD (start id now)).metadata.put StoredCheckpoint.key data :=
  ⟨_, rfl, standing_settle .., settle_metadata ..⟩

end RunRecord

/-! ## Working stores -/

/-- **A record that is kept**, if there is one: it can be read, and is one that the backend keeps. -/
def RunStore.Keeps (id : String) (s : RunStore) : Prop :=
  ∃ existing, s.get id = .ok existing ∧ ∀ r ∈ existing, r.Fits s.backend ∧ s.backend.keepsRun r = r

theorem RunStore.keeps_none {id : String} {s : RunStore} (h : s.get id = .ok none) : s.Keeps id :=
  ⟨none, h, by simp⟩

namespace World

open RunRecord

variable {w w' : World} {id : String} {updates : Keyed Value} {d : Deed} {ds : List Deed}

/-- What the record of a run says of it, at some moment. -/
def standing (w : World) (id : String) : Standing :=
  match w.recordOf id with
  | .ok (some r) => r.standing
  | _ => {}

theorem standing_of_record {r : RunRecord} (h : w.recordOf id = .ok (some r)) :
    w.standing id = r.standing := by rw [standing, h]

theorem standing_congr (h : w'.recordOf id = w.recordOf id) : w'.standing id = w.standing id := by
  rw [standing, h, standing]

/-- **A store that works**, as far as the record of a run is concerned: it is open and takes all writes, and
    it keeps the record, if there is one. -/
structure Working (id : String) (w : World) : Prop where
  isOpen : w.stores.isOpen = true
  outage : w.stores.outage = .never
  record : w.stores.runs.Keeps id

theorem standing_of_existing {existing : Option RunRecord} (h : w.recordOf id = .ok existing) (now : Stamp) :
    w.standing id = (existing.getD (start id now)).standing := by
  rw [standing, h]
  cases existing <;> rfl

/-- In a store that works the standing is kept. -/
theorem Working.keepsStanding (hw : w.Working id) :
    w.backend.keepsStanding (w.standing id) = w.standing id := by
  obtain ⟨existing, hexisting, hkept⟩ := hw.record
  cases existing with
  | none =>
    rw [standing_of_existing hexisting w.stamp]
    exact congrArg (fun v => ({ result := v } : Standing)) (Backend.keeps_null _)
  | some r => rw [standing_of_record hexisting, ← standing_keepsRun, (hkept r rfl).2]

theorem Working.of_recordOf (hw : w.Working id) (h : w'.recordOf id = w.recordOf id)
    (hbackend : w'.backend = w.backend) (hfixed : Stores.Fixed w.stores w'.stores) : w'.Working id where
  isOpen := hfixed.isOpen.trans hw.isOpen
  outage := hfixed.outage.trans hw.outage
  record := by
    obtain ⟨existing, hexisting, hkept⟩ := hw.record
    refine ⟨existing, h.trans hexisting, ?_⟩
    rwa [show w'.stores.runs.backend = w.stores.runs.backend from hbackend]

/-- **An update of a record** that fits is written, and read again as the backend keeps it. -/
theorem Working.write (hw : w.Working id) (hclock : w.backend ≠ .memory → w.clock < Stamp.lastMicro)
    {existing : Option RunRecord} {r : RunRecord} (hexisting : w.recordOf id = .ok existing)
    (hr : update existing id updates w.stamp = .ok r) (hwritable : w.backend ≠ .memory → r.Writable) :
    (w.writeRun id updates).recordOf id = .ok (some (w.backend.keepsRun r))
      ∧ (w.writeRun id updates).Working id := by
  -- stamps are proper if those of the old record are, and the clock has not run past the calendar
  have hfits : r.Fits w.backend := by
    intro hb
    refine ⟨?_, hwritable hb⟩
    have hnow : w.stamp.Proper := Stamp.proper_ofMicros (hclock hb)
    refine Proper.update ?_ hnow hr
    cases existing with
    | none => exact proper_start hnow
    | some r₀ =>
      obtain ⟨existing', hexisting', hkept⟩ := hw.record
      obtain rfl := Except.ok.inj (hexisting.symm.trans hexisting')
      exact ((hkept r₀ rfl).1 hb).1
  obtain ⟨held, hheld, hread⟩ := hfits.hold
  have hhits : w.stores.outage.hits updates = false := by rw [hw.outage]; rfl
  have hrecord : (w.writeRun id updates).recordOf id = .ok (some (w.backend.keepsRun r)) := by
    rw [recordOf_writeRun_of_hold hw.isOpen hhits hexisting hr hheld, hread]
    rfl
  have hfixed := w.writeRun_fixed id updates
  have hbackend : (w.writeRun id updates).stores.runs.backend = w.backend := w.writeRun_backend id updates
  refine ⟨hrecord, hfixed.isOpen.trans hw.isOpen, hfixed.outage.trans hw.outage, _, hrecord, ?_⟩
  -- the backend keeps once more what it has kept
  rintro _ ⟨⟩
  rw [hbackend]
  exact ⟨hfits.keepsRun, Backend.keepsRun_keepsRun ..⟩

/-- **The step lemma for tidings.** They leave a store that works; and the record says what it was told,
    unless that cannot be written down. -/
theorem Working.tell (hw : w.Working id) (hclock : w.backend ≠ .memory → w.clock < Stamp.lastMicro)
    (htidings : Tidings updates) :
    (w.writeRun id updates).Working id
      ∧ ((w.writeRun id updates).standing id = w.backend.keepsStanding ((w.standing id).after updates)
        ∨ (w.writeRun id updates).recordOf id = w.recordOf id
          ∧ w.backend ≠ .memory ∧ ∃ v, toldResult? updates = some v ∧ v.unwritable? ≠ none) := by
  obtain ⟨existing, hexisting, hkept⟩ := hw.record
  obtain ⟨r, hr, hstanding⟩ := update_tidings htidings existing id w.stamp
  rw [← standing_of_existing hexisting] at hstanding
  have hwritten (hwritable : w.backend ≠ .memory → r.Writable) :
      (w.writeRun id updates).Working id
        ∧ (w.writeRun id updates).standing id
          = w.backend.keepsStanding ((w.standing id).after updates) := by
    obtain ⟨hrecord, hworking⟩ := hw.write hclock hexisting hr hwritable
    exact ⟨hworking, by rw [standing_of_record hrecord, standing_keepsRun, hstanding]⟩
  -- only the result of an update may be more than the store can hold
  by_cases hresult : w.backend ≠ .memory → ∀ v, toldResult? updates = some v → v.unwritable? = none
  · obtain ⟨hworking, hsaid⟩ := hwritten fun hb => by
      refine Writable.told ?_ (hresult hb) htidings.metadata hr
      cases existing with
      | none => exact writable_start ..
      | some r₀ => exact ((hkept r₀ rfl).1 hb).2
    exact ⟨hworking, .inl hsaid⟩
  · obtain ⟨hb, v, hv, hwritable⟩ : w.backend ≠ .memory
        ∧ ∃ v, toldResult? updates = some v ∧ v.unwritable? ≠ none := by
      simpa only [Classical.not_imp, not_forall, exists_prop] using hresult
    rcases w.writeRun_cases id updates with hruns | ⟨existing', r', held, hexisting', hr', hheld, -⟩
    · have hsame : (w.writeRun id updates).recordOf id = w.recordOf id := by rw [recordOf, hruns, recordOf]
      exact ⟨hw.of_recordOf hsame (w.writeRun_backend ..) (w.writeRun_fixed ..),
        .inr ⟨hsame, hb, v, hv, hwritable⟩⟩
    · -- what is held in a document can be written down
      obtain rfl := Except.ok.inj (hexisting.symm.trans hexisting')
      obtain rfl := Except.ok.inj (hr.symm.trans hr')
      obtain ⟨hworking, hsaid⟩ := hwritten fun hb => writable_of_hold hb hheld
      exact ⟨hworking, .inl hsaid⟩

/-- **The step lemma for saves.** They leave a store that works, and what the record says; and the checkpoint
    is the attempt as the backend keeps it, if the attempt can be saved. -/
theorem Working.save (hw : w.Working id) (hclock : w.backend ≠ .memory → w.clock < Stamp.lastMicro) :
    (w.saveCheckpoint id).Working id ∧ (w.saveCheckpoint id).standing id = w.standing id
      ∧ ∀ data, w.attempt.checkpoint = .ok data →
        (w.saveCheckpoint id).checkpointOf id = some (w.backend.keeps data) := by
  cases hdata : w.attempt.checkpoint with
  | error f =>
    -- an attempt that cannot be written down is not saved, and the world stays as it is
    have hsame : w.saveCheckpoint id = w := by rw [saveCheckpoint, hdata]
    rw [hsame]
    exact ⟨hw, rfl, fun _ h => absurd h (by simp)⟩
  | ok data =>
    obtain ⟨existing, hexisting, hkept⟩ := hw.record
    obtain ⟨r, hr, hstanding, hmetadata⟩ := update_saved existing id data w.stamp
    have hwritable (hb : w.backend ≠ .memory) : r.Writable := by
      refine Writable.told ?_ (fun v hv => absurd hv (by simp [toldResult?, Update.newValue?, Keyed.get?,
        Value.present?])) (fun v hv => ?_) hr
      · cases existing with
        | none => exact writable_start ..
        | some r₀ => exact ((hkept r₀ rfl).1 hb).2
      · obtain rfl : v = .object [(StoredCheckpoint.key, data)] := by simpa using hv
        simp only [Value.unwritable?, Value.unwritableField?, Attempt.writable_of_checkpoint hdata, Option.none_or]
    obtain ⟨hrecord, hworking⟩ := hw.write hclock hexisting hr hwritable
    rw [saveCheckpoint_eq hdata]
    refine ⟨hworking, ?_, ?_⟩
    · rw [standing_of_record hrecord, standing_keepsRun, hstanding, ← standing_of_existing hexisting,
        hw.keepsStanding]
    · rintro _ ⟨⟩
      rw [checkpointOf_eq_some]
      refine ⟨_, hrecord, ?_⟩
      show (w.backend.keepsFields r.metadata).get? StoredCheckpoint.key = _
      rw [Backend.get?_keepsFields, hmetadata, Keyed.get?_put_self]
      rfl

end World

/-! ## Deeds -/

/-- The update of the record of a run that a call makes; it is empty when the call only saves, or does
    something else. -/
def Call.told (id : String) : Call → Keyed Value
  | .updateRun other updates => if other = id then updates else []
  | _ => []

theorem Call.told_updateRun (id : String) (updates : Keyed Value) :
    (Call.updateRun id updates).told id = updates := if_pos rfl

theorem Call.told_of_writesRun {c : Call} (h : c.writesRun = false) (id : String) : c.told id = [] := by
  cases c <;> first | rfl | exact absurd h (by simp [Call.writesRun])

/-- **Calls that inform the record of a run**, if they touch it at all, by saves and by tidings. -/
inductive Call.Informs (id : String) : Call → Prop where
  | other {c : Call} (h : c.writesRun = false) : Informs id c
  | save : Informs id (.saveCheckpoint id)
  | tells {updates : Keyed Value} (h : RunRecord.Tidings updates) : Informs id (.updateRun id updates)

theorem Call.Informs.orderly {id : String} {c : Call} (h : c.Informs id) : c.Orderly := by
  cases h with
  | other h => exact .other h
  | save => exact .save id
  | tells h => exact .update id h.spares

/-- A deed at a time that a backend can hold. -/
def Deed.Timely (b : Backend) (d : Deed) : Prop := b ≠ .memory → d.start < Stamp.lastMicro

/-- A deed that tells no result which a backend cannot hold. -/
def Deed.Holdable (b : Backend) (id : String) (d : Deed) : Prop :=
  b ≠ .memory → ∀ v, RunRecord.toldResult? (d.call.told id) = some v → v.unwritable? = none

/-- What deeds tell of a run, in order. -/
def tidingsOf (id : String) (ds : List Deed) : List (Keyed Value) := ds.map fun d => d.call.told id

@[simp] theorem tidingsOf_nil (id : String) : tidingsOf id [] = [] := rfl

@[simp] theorem tidingsOf_cons (id : String) (d : Deed) (ds : List Deed) :
    tidingsOf id (d :: ds) = d.call.told id :: tidingsOf id ds := rfl

@[simp] theorem tidingsOf_append (id : String) (ds es : List Deed) :
    tidingsOf id (ds ++ es) = tidingsOf id ds ++ tidingsOf id es := List.map_append

namespace World

open RunRecord

variable {w w' : World} {id : String} {d : Deed} {ds : List Deed}

/-- **The step lemma.** A call that informs the record leaves a store that works; and the record says what it
    was told, unless that is a result that cannot be held. -/
theorem Working.answers (hw : w.Working id) (h : w.Answers d w') (hd : d.call.Informs id)
    (htime : d.Timely w.backend) :
    w'.Working id
      ∧ (w'.standing id = w.backend.keepsStanding ((w.standing id).after (d.call.told id))
        ∨ w'.standing id = w.standing id ∧ ¬ d.Holdable w.backend id
          ∧ toldToken? (d.call.told id) = none) := by
  have hbackend := h.backend_eq hd.orderly
  obtain ⟨step, call, answer, start, stop⟩ := d
  have hat : ({ w with clock := start } : World).Working id := ⟨hw.isOpen, hw.outage, hw.record⟩
  cases hd with
  | other hcall =>
    have hsame := h.recordOf_eq hcall id
    refine ⟨hw.of_recordOf hsame hbackend h.fixed, .inl ?_⟩
    rw [Call.told_of_writesRun hcall, Standing.after_nil, hw.keepsStanding, standing_congr hsame]
  | save =>
    rw [h.saveCheckpoint_eq]
    obtain ⟨hworking, hsaid, -⟩ := hat.save htime
    refine ⟨hworking, .inl ?_⟩
    rw [hsaid]
    exact hw.keepsStanding.symm
  | @tells updates htidings =>
    rw [h.updateRun_eq]
    obtain ⟨hworking, hsaid | ⟨hsame, hb, v, hv, hlost⟩⟩ := hat.tell htime htidings
    · refine ⟨hworking, .inl ?_⟩
      rw [Call.told_updateRun, hsaid]
      rfl
    · refine ⟨hworking, .inr ⟨standing_congr hsame, fun hheld => hlost (hheld hb v ?_), ?_⟩⟩
      · rw [Call.told_updateRun]
        exact hv
      · rw [Call.told_updateRun]
        cases htidings <;> first | rfl | exact absurd hv (by simp)

/-- **The run lemma.** Deeds that inform the record leave a store that works; and the record says what they
    have told last, as the backend keeps it. -/
theorem Working.admits (hw : w.Working id) (hadmits : w.Admits ds w')
    (hds : ∀ d ∈ ds, d.call.Informs id) (htime : ∀ d ∈ ds, d.Timely w.backend) :
    w'.Working id ∧ w'.backend = w.backend
      ∧ (w'.standing id).token = ((w.standing id).afterAll (tidingsOf id ds)).token
      ∧ ((∀ d ∈ ds, d.Holdable w.backend id) →
        w'.standing id = w.backend.keepsStanding ((w.standing id).afterAll (tidingsOf id ds))) := by
  -- by induction on the deeds; the backend stays the same, so that it holds what it has held before
  induction hadmits with
  | nil => exact ⟨hw, rfl, rfl, fun _ => hw.keepsStanding.symm⟩
  | @cons w w₁ w' d ds first rest ih =>
    have hd := hds d List.mem_cons_self
    have hbackend := first.backend_eq hd.orderly
    obtain ⟨hworking, hsaid⟩ := hw.answers first hd (htime d List.mem_cons_self)
    obtain ⟨hlast, hsame, htoken, hstanding⟩ := ih hworking (fun e he => hds e (.tail _ he))
      fun e he => hbackend ▸ htime e (.tail _ he)
    refine ⟨hlast, hsame.trans hbackend, ?_, fun hheld => ?_⟩
    · -- an update that is lost tells a result, and so no token
      rw [htoken, tidingsOf_cons, Standing.afterAll_cons, Standing.token_afterAll, Standing.token_afterAll]
      rcases hsaid with hsaid | ⟨hsaid, -, hnone⟩ <;> rw [hsaid]
      · rfl
      · rw [Standing.after, hnone]
        rfl
    · obtain hsaid := hsaid.resolve_right fun h => h.2.1 (hheld d List.mem_cons_self)
      rw [hstanding fun e he => hbackend ▸ hheld e (.tail _ he), hsaid, hbackend, tidingsOf_cons,
        Standing.afterAll_cons, Standing.keepsStanding_afterAll]

end World

end Runbook
