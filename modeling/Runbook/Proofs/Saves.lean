import Runbook.Proofs.Continuation
import Runbook.Proofs.Entries
import Runbook.Proofs.Keeping

/-!
# `Proofs.Saves` — one checkpoint after the other

While an attempt goes along, the checkpoint in the run record is replaced again and again. A later one
either stands at the same step of the root list, with a journal whose entries have gone on, or at the
next step, with an empty journal: it succeeds the earlier one.

A record that can be written down takes every checkpoint that can be written down itself, unless the
store takes no writes at all.

## Contents
- **Data.** `checkpointData`, and `JournalEntry.GoesOn.keeps`.
- **Succession.** `Succeeds`.
- **Records.** `World.Going`, the record of a run that goes on, and what deeds make of it.
- **Deeds.** `Advances`, what is shown of every deed of a run.
-/

namespace Runbook

/-! ## Data -/

/-- The data of a checkpoint. -/
def checkpointData (k : Nat) (context : Value) (journal : Keyed Value) : Value :=
  .object [("cursor", .int k), ("context", context), ("journal", .object journal)]

theorem checkpointData_inj {k k' : Nat} {context context' : Value} {j j' : Keyed Value}
    (h : checkpointData k context j = checkpointData k' context' j') :
    k = k' ∧ context = context' ∧ j = j' := by
  simp only [checkpointData, Value.object.injEq, List.cons.injEq, Prod.mk.injEq, Value.int.injEq,
    Int.natCast_inj, true_and, and_true] at h
  exact h

theorem Backend.keeps_checkpointData (b : Backend) (k : Nat) (context : Value) (j : Keyed Value) :
    b.keeps (checkpointData k context j) = checkpointData k (b.keeps context) (b.keepsFields j) := by
  simp [checkpointData]

/-- A checkpoint is the data of its attempt. -/
theorem Attempt.checkpoint_eq {a : Attempt} {k : Nat} {data : Value} (hk : a.cursor = k)
    (h : a.checkpoint = .ok data) : data = checkpointData k a.base.toValue a.journal := by
  rw [Attempt.eq_written h, written, hk]
  rfl

/-- An attempt can be saved if what it consists of can be written down. -/
theorem Attempt.checkpoint_eq_ok {a : Attempt} (hbase : a.base.toValue.unwritable? = none)
    (hjournal : Value.unwritableField? a.journal = none) : ∃ data, a.checkpoint = .ok data := by
  unfold checkpoint Context.snapshot
  rw [hbase]
  simp only [Value.unwritable?, hjournal, bind, Except.bind]
  exact ⟨_, rfl⟩

/-- What an attempt consists of can be written down if it can be saved. -/
theorem Attempt.base_writable {a : Attempt} {data : Value} (h : a.checkpoint = .ok data) :
    a.base.toValue.unwritable? = none := by
  unfold checkpoint Context.snapshot at h
  obtain ⟨context, hcontext, -⟩ := Fault.bind_eq_ok.mp h
  split at hcontext
  · exact absurd hcontext (by simp)
  · assumption

namespace JournalEntry

variable (b : Backend) {entry e e' : Option Value} {runId : String}

theorem ended_keeps_iff : Ended (entry.map b.keeps) ↔ Ended entry := by
  have hkeeps : b.keeps = id ∨ b.keeps = Value.storable := by
    by_cases hb : b = .memory
    · exact .inl (funext fun v => if_pos hb)
    · exact .inr (funext fun v => if_neg hb)
  rcases hkeeps with h | h <;> rw [h]
  · simp
  · exact ⟨ended_of_storable, Ended.storable⟩

theorem keeps_eq_text_iff {v : Value} {s : String} : b.keeps v = .text s ↔ v = .text s := by
  constructor
  · intro h
    unfold Backend.keeps at h
    split at h
    · exact h
    · cases v <;> simp only [Value.storable, reduceCtorEq] at h
      case text => exact h
      case real => split at h <;> simp at h
  · rintro rfl
    exact b.keeps_text s

/-- What is no mapping names no run. -/
theorem not_names_of_fields? {v : Value} (h : v.fields? = none) : ¬ Names (some v) runId := by
  simp only [Names, noted, read, Option.getD_some]
  by_cases hv : v.truthy = true
  · rw [if_pos hv, h]
    simp
  · rw [if_neg hv]
    simp [Value.fields?, Keyed.get?]

/-- What is noted of a run is still noted in what a backend keeps of the entry. -/
theorem names_keeps_iff : Names (entry.map b.keeps) runId ↔ Names entry runId := by
  have hneither {v v' : Value} (hv : v.fields? = none) (hv' : v'.fields? = none) :
      Names (some v') runId ↔ Names (some v) runId :=
    ⟨fun h => absurd h (not_names_of_fields? hv'), fun h => absurd h (not_names_of_fields? hv)⟩
  cases entry with
  | none => rfl
  | some v =>
    cases v with
    | object fields =>
      simp only [Option.map_some, Backend.keeps_object, Names, noted_object, Except.ok.injEq,
        Backend.get?_keepsFields]
      cases Keyed.get? fields "runId" with
      | none => rfl
      | some v => exact keeps_eq_text_iff b
    | real x =>
      refine hneither rfl ?_
      unfold Backend.keeps
      split
      · rfl
      · rw [Value.storable]
        split <;> rfl
    | list items => exact hneither rfl (by rw [Backend.keeps_list]; rfl)
    | _ =>
      unfold Backend.keeps
      simp only [Option.map_some, Value.storable, ite_self]

/-- What a backend keeps of an entry goes on as the entry does. -/
theorem GoesOn.keeps (h : GoesOn e e') : GoesOn (e.map b.keeps) (e'.map b.keeps) where
  ended hended := by rw [h.ended ((ended_keeps_iff b).mp hended)]
  names runId hnames :=
    (h.names runId ((names_keeps_iff b).mp hnames)).imp (ended_keeps_iff b).mpr
      (names_keeps_iff b).mpr

end JournalEntry

/-! ## Succession -/

/-- **One checkpoint succeeds another**: it stands at the same step of the root list, began it with the
    same context, and the entries of the journal have gone on; or it stands at the next step, with an
    empty journal. -/
inductive Succeeds : Value → Value → Prop where
  | stays {k : Nat} {context : Value} {j j' : Keyed Value}
      (h : ∀ key, JournalEntry.GoesOn (j.get? key) (j'.get? key)) :
      Succeeds (checkpointData k context j) (checkpointData k context j')
  | moves {k : Nat} {context context' : Value} {j : Keyed Value} :
      Succeeds (checkpointData k context j) (checkpointData (k + 1) context' [])

/-! ## Records -/

theorem Call.Steady.orderly {x : Execution} {c : Call} (h : c.Steady x) : c.Orderly := by
  cases h with
  | other hc => exact .other hc
  | update _ hspares => exact .update _ hspares
  | save => exact .save _

theorem RunRecord.calm_checkpoint {data : Value} (h : data.unwritable? = none) :
    Calm [("metadata", .object [(StoredCheckpoint.key, data)])] := by
  refine ⟨rfl, by simp [Keyed.get?], fun v hv => ?_⟩
  obtain rfl : v = .object [(StoredCheckpoint.key, data)] := by simpa using hv
  simp [Value.unwritable?, Value.unwritableField?, h]

namespace World

variable {x : Execution} {id : String} {w w' : World} {d : Deed}

/-- **The record of a run that goes on** can be written down. -/
def Going (id : String) (w : World) : Prop := ∀ r, w.recordOf id = .ok (some r) → r.Writable

theorem Going.of_recordOf_eq (hw : w.Going id) (h : w'.recordOf id = w.recordOf id) : w'.Going id := by
  unfold Going
  rwa [h]

theorem Going.base (hw : w.Going id) {existing : Option RunRecord} {now : Stamp}
    (h : w.recordOf id = .ok existing) : (existing.getD (.start id now)).Writable := by
  cases existing with
  | none => exact RunRecord.writable_start ..
  | some r => exact hw r h

theorem Going.write (hw : w.Going id) {updates : Keyed Value} (hcalm : RunRecord.Calm updates)
    (other : String) : (w.writeRun other updates).Going id := by
  by_cases hid : id = other
  · subst hid
    intro r hr
    rcases w.recordOf_writeRun_cases id updates with
      hsame | ⟨f, hf⟩ | ⟨existing, r₀, held, r', hex, hr₀, hheld, hread, hr'⟩
    · exact hw r (hsame ▸ hr)
    · exact absurd (hr.symm.trans hf) (by simp)
    · obtain rfl := Option.some.inj (Except.ok.inj (hr.symm.trans hr'))
      exact ((hw.base hex).update hcalm hr₀).of_hold hheld hread
  · exact hw.of_recordOf_eq (recordOf_writeRun_of_ne w updates hid)

/-- **The run goes on.** -/
theorem Going.answers (hw : w.Going id) (h : w.Answers d w') (hd : d.call.Steady x) : w'.Going id := by
  obtain ⟨step, call, answer, start, stop⟩ := d
  cases hd with
  | other hc => exact hw.of_recordOf_eq (h.recordOf_eq hc id)
  | update hcalm =>
    rw [h.updateRun_eq]
    exact Going.write (w := { w with clock := start }) hw hcalm _
  | save =>
    rw [h.saveCheckpoint_eq]
    unfold saveCheckpoint
    split
    · next data hdata =>
      exact Going.write (w := { w with clock := start }) hw
        (RunRecord.calm_checkpoint (Attempt.writable_of_checkpoint hdata)) _
    · exact hw

/-- The record of a run is not touched by what is done for another one. -/
theorem Answers.recordOf_of_ne (h : w.Answers d w') (hd : d.call.Steady x) (hid : id ≠ x.runId) :
    w'.recordOf id = w.recordOf id := by
  obtain ⟨step, call, answer, start, stop⟩ := d
  cases hd with
  | other hc => exact h.recordOf_eq hc id
  | update =>
    rw [h.updateRun_eq]
    exact recordOf_writeRun_of_ne { w with clock := start } _ hid
  | save =>
    rw [h.saveCheckpoint_eq]
    exact recordOf_saveCheckpoint_of_ne { w with clock := start } hid

/-- A deed that saves nothing leaves the checkpoint that the backend keeps. -/
theorem Answers.checkpointOf_same (h : w.Answers d w') (hd : d.call.Orderly)
    (hsaves : ∀ other, d.call ≠ .saveCheckpoint other)
    (hkept : ∀ data, w.checkpointOf id = some data → w.backend.keeps data = data) :
    w'.Unreadable id ∨ w'.checkpointOf id = w.checkpointOf id := by
  obtain ⟨step, call, answer, start, stop⟩ := d
  cases hd with
  | other hc => exact .inr (h.checkpointOf_eq hc id)
  | save other => exact absurd rfl (hsaves other)
  | update other hspares =>
    rw [h.updateRun_eq]
    rcases checkpointOf_writeRun { w with clock := start } other hspares id with hlost | hsame | hcopy
    · exact .inl hlost
    · exact .inr hsame
    · refine .inr (hcopy.trans ?_)
      have hat : ({ w with clock := start } : World).checkpointOf id = w.checkpointOf id := rfl
      rw [hat]
      cases hdata : w.checkpointOf id with
      | none => rfl
      | some data => exact congrArg some (hkept data hdata)

/-- **A save that nothing keeps from success.** -/
theorem Going.saves (hw : w.Going id) (h : w.Answers d w') (hcall : d.call = .saveCheckpoint id)
    (hmute : ¬ w.Mute) {data : Value} (hdata : w.attempt.checkpoint = .ok data) :
    w'.Unreadable id ∨ w'.checkpointOf id = some (w.backend.keeps data) := by
  obtain ⟨step, call, answer, start, stop⟩ := d
  dsimp only at hcall
  subst hcall
  rw [h.saveCheckpoint_eq]
  cases hexisting : w.recordOf id with
  | error f =>
    exact .inl (Unreadable.saveCheckpoint (w := { w with clock := start }) ⟨f, hexisting⟩ id)
  | ok existing =>
    exact saveCheckpoint_stored (w := { w with clock := start }) hmute hexisting
      (hw.base hexisting) hdata (Attempt.writable_of_checkpoint hdata)

/-- A save that does not come to be: the attempt cannot be written down, or the store takes no writes. -/
theorem Answers.stores_of_save (h : w.Answers d w') (hcall : d.call = .saveCheckpoint id)
    (hfails : w.Mute ∨ ∃ f, w.attempt.checkpoint = .error f) : w'.stores = w.stores := by
  obtain ⟨step, call, answer, start, stop⟩ := d
  dsimp only at hcall
  subst hcall
  rw [h.saveCheckpoint_eq]
  rcases hfails with hmute | ⟨f, hf⟩
  · exact Mute.saveCheckpoint (w := { w with clock := start }) hmute id
  · unfold saveCheckpoint
    rw [show ({ w with clock := start } : World).attempt.checkpoint = .error f from hf]

end World

/-! ## Deeds -/

/-- **What is shown of every deed** of a run: the checkpoint that is stored afterwards succeeds the one
    before, unless the record cannot be read any more; and a save that can come to be does. -/
structure Advances (id : String) (u : World) (d : Deed) (u' : World) : Prop where
  succeeds : ∀ data, u.checkpointOf id = some data →
    u'.Unreadable id ∨ ∃ data', u'.checkpointOf id = some data' ∧ Succeeds data data'
  saves : d.call = .saveCheckpoint id → ¬ u.Mute → ∀ data, u.attempt.checkpoint = .ok data →
    u'.Unreadable id ∨ u'.checkpointOf id = some (u.backend.keeps data)

end Runbook
