import Runbook.Proofs.Progress
import Runbook.Proofs.Attempts

/-!
# `Proofs.Recollections` — what the record of a run brings back

All that a later attempt at a run has of earlier ones is the checkpoint in the record: a cursor, a context and a
journal, as the backend keeps them. Whatever is so of every attempt when it is saved is so of the checkpoint that
is found.

## Contents
- **Records.** `World.Recollects`, a record with nothing but what was saved; its step lemma.
- **Attempts.** `Attempt.StandsAt`, an attempt at a position of the root list; its step lemma.
- **Continuations.** `World.Recollects.found`, and `Execution.BeginsWith.recollects`.
-/

namespace Runbook

/-! ## Records -/

/-- **A record of what was saved**: the cursor, the context and the journal in its checkpoint are such as were
    saved, and the backend keeps them. -/
structure World.Recollects (b : Backend) (saved : Nat → Context → Keyed Value → Prop) (id : String)
    (w : World) : Prop where
  backend : w.backend = b
  stored : ∀ data, w.checkpointOf id = some data → ∃ (k : Nat) (c : Context) (j : Keyed Value),
    data = checkpointData k c.toValue j ∧ b.keeps data = data ∧ saved k c j

section

variable {b : Backend} {saved saved' : Nat → Context → Keyed Value → Prop} {id : String} {w w' : World} {d : Deed}

/-- What becomes of the checkpoint when it is saved. -/
theorem World.Answers.checkpointOf_of_save (h : w.Answers d w') (hcall : d.call = .saveCheckpoint id) :
    w'.Unreadable id ∨ w'.checkpointOf id = w.checkpointOf id
      ∨ ∃ data, w.attempt.checkpoint = .ok data ∧ w'.checkpointOf id = some (w.backend.keeps data) := by
  obtain ⟨step, call, answer, start, stop⟩ := d
  dsimp only at hcall
  subst hcall
  rw [h.saveCheckpoint_eq]
  exact World.checkpointOf_saveCheckpoint { w with clock := start } id

namespace World.Recollects

theorem of_fresh (hfresh : w.checkpointOf id = none) : w.Recollects w.backend saved id :=
  ⟨rfl, fun data hdata => absurd (hfresh.symm.trans hdata) (by simp)⟩

theorem of_runs (hw : w.Recollects b saved id) (h : w'.stores.runs = w.stores.runs) :
    w'.Recollects b saved id where
  backend := by rw [World.backend, h]; exact hw.backend
  stored := by
    have hsame : w'.checkpointOf id = w.checkpointOf id := by
      rw [World.checkpointOf, World.checkpointOf, World.recordOf_congr h]
    rw [hsame]
    exact hw.stored

theorem mono (hw : w.Recollects b saved id) (hsaved : ∀ k c j, saved k c j → saved' k c j) :
    w.Recollects b saved' id where
  backend := hw.backend
  stored data hdata := by
    obtain ⟨k, c, j, heq, hkept, hsave⟩ := hw.stored data hdata
    exact ⟨k, c, j, heq, hkept, hsaved k c j hsave⟩

/-- **What becomes of the checkpoint** of a run: it is lost, or it stays, or a save puts in its place what the backend
    keeps of the attempt at hand. -/
theorem checkpoint_cases (hw : w.Recollects b saved id) (h : w.Answers d w') (hd : d.call.Orderly)
    (hown : ∀ other, d.call = .saveCheckpoint other → other = id) :
    w'.Unreadable id ∨ w'.checkpointOf id = w.checkpointOf id
      ∨ ∃ data, d.call = .saveCheckpoint id ∧ w.attempt.checkpoint = .ok data
          ∧ w'.checkpointOf id = some (b.keeps data) := by
  by_cases hsave : ∃ other, d.call = .saveCheckpoint other
  · obtain ⟨other, hcall⟩ := hsave
    obtain rfl := hown other hcall
    rcases h.checkpointOf_of_save hcall with hlost | hsame | ⟨data, hdata, hnew⟩
    · exact .inl hlost
    · exact .inr (.inl hsame)
    · exact .inr (.inr ⟨data, hcall, hdata, hw.backend ▸ hnew⟩)
  · refine (h.checkpointOf_same hd (fun other hcall => hsave ⟨other, hcall⟩) fun data hdata => ?_).imp_right .inl
    obtain ⟨k, c, j, -, hkept, -⟩ := hw.stored data hdata
    rw [hw.backend, hkept]

/-- **The step lemma.** A save brings what the backend keeps of the attempt at hand. -/
theorem answers (hw : w.Recollects b saved id) (h : w.Answers d w') (hd : d.call.Orderly)
    (hsaves : ∀ other, d.call = .saveCheckpoint other → other = id ∧ ∃ k : Nat, w.attempt.cursor = k
      ∧ saved k (b.keepsContext w.attempt.base) (b.keepsFields w.attempt.journal)) :
    w'.Recollects b saved id where
  backend := (h.backend_eq hd).trans hw.backend
  stored data hdata := by
    rcases hw.checkpoint_cases h hd fun other hcall => (hsaves other hcall).1 with
      hlost | hsame | ⟨data', hcall, hdata', hnew⟩
    · exact absurd (hlost.checkpointOf_eq.symm.trans hdata) (by simp)
    · exact hw.stored data (hsame ▸ hdata)
    · obtain ⟨-, k, hcursor, hsaved⟩ := hsaves id hcall
      obtain rfl := Option.some.inj (hnew.symm.trans hdata)
      obtain rfl := Attempt.checkpoint_eq hcursor hdata'
      refine ⟨k, b.keepsContext w.attempt.base, b.keepsFields w.attempt.journal, ?_, b.keeps_keeps _, hsaved⟩
      rw [Backend.keeps_checkpointData, Backend.toValue_keepsContext]

end World.Recollects

end

/-! ## Attempts -/

/-- **An attempt stands at a position** of the root list, with a context that belongs there. -/
def Attempt.StandsAt (here : Nat → Context → Prop) (a : Attempt) : Prop := ∃ k : Nat, a.cursor = k ∧ here k a.base

/-- **The step lemma.** The attempt stands there until it begins another step of the root list. -/
theorem Attempt.StandsAt.after {here : Nat → Context → Prop} {a : Attempt} {x : Execution} {c : Call}
    (ha : a.StandsAt here) (hc : (∃ q : StepPath, x.TreeCall q c) ∨ x.Between c)
    (henters : ∀ k c₀ keepJournal, c = .enterStep k c₀ keepJournal → ∃ i : Nat, k = i ∧ here i c₀) :
    (a.after c).StandsAt here := by
  rcases hc with ⟨q, hc⟩ | hc
  · obtain ⟨-, hcursor, hbase⟩ := hc.after_fields a
    rw [StandsAt, hcursor, hbase]
    exact ha
  · cases hc with
    | enters k c₀ keepJournal => exact henters k c₀ keepJournal rfl
    | saves => exact ha
    | updates => exact ha

/-! ## Continuations -/

section

variable {b : Backend} {saved : Nat → Context → Keyed Value → Prop} {id : String} {w : World}

/-- **What a continuation finds** in the record: no checkpoint, and then no context; or one, and in it what was
    saved. -/
theorem World.Recollects.found (hw : w.Recollects b saved id) {record : RunRecord}
    {checkpoint : StoredCheckpoint} (hrecord : w.recordOf id = .ok (some record))
    (hcheckpoint : StoredCheckpoint.ofMetadata record.metadata = .ok checkpoint) :
    (w.checkpointOf id = none ∧ checkpoint.context? = none)
      ∨ ∃ (k : Nat) (c : Context) (j : Keyed Value),
        w.checkpointOf id = some (checkpointData k c.toValue j) ∧ saved k c j
        ∧ checkpoint.context? = some c.toValue
        ∧ (Context.restore c.toValue).bind (checkpoint.toAttempt id) = .ok ⟨id, k, c, j⟩ := by
  have hat : w.checkpointOf id = record.metadata.get? StoredCheckpoint.key := by
    rw [World.checkpointOf, hrecord]
  cases hdata : record.metadata.get? StoredCheckpoint.key with
  | none =>
    rw [StoredCheckpoint.ofMetadata_none hdata] at hcheckpoint
    obtain rfl := Except.ok.inj hcheckpoint
    exact .inl ⟨hat.trans hdata, rfl⟩
  | some data =>
    obtain ⟨k, c, j, rfl, -, hsaved⟩ := hw.stored data (hat.trans hdata)
    have hwritten : record.metadata.get? StoredCheckpoint.key
        = some (Attempt.written ⟨id, k, c, j⟩) := hdata
    obtain ⟨checkpoint', hread, hcontext, hattempt⟩ := StoredCheckpoint.ofMetadata_written hwritten
    obtain rfl := Except.ok.inj (hcheckpoint.symm.trans hread)
    refine .inr ⟨k, c, j, hat.trans hdata, hsaved, hcontext, ?_⟩
    rw [Context.restore_toValue]
    exact hattempt id _

/-- **With what an attempt begins**: at the beginning of the root list with a new context, or with what was
    saved. -/
theorem Execution.BeginsWith.recollects {x : Execution} {anew : Prop} {a : Attempt} {keepJournal : Bool}
    (h : x.BeginsWith w anew a keepJournal) (hw : w.Recollects b saved x.runId) :
    a = ⟨x.runId, 0, Engine.startContext x.plan x.runId, []⟩
      ∨ ∃ (k : Nat) (c : Context) (j : Keyed Value), a = ⟨x.runId, k, c, j⟩ ∧ saved k c j := by
  cases h with
  | afresh => exact .inl rfl
  | again _ hfound hsnapshot ha =>
    obtain ⟨record, hrecord, -, hcheckpoint⟩ := hfound
    rcases hw.found hrecord hcheckpoint with ⟨-, hnone⟩ | ⟨k, c, j, -, hsaved, hcontext, hbind⟩
    · exact absurd (hsnapshot.symm.trans hnone) (by simp)
    · obtain rfl := Option.some.inj (hsnapshot.symm.trans hcontext)
      obtain rfl := Except.ok.inj (ha.symm.trans hbind)
      exact .inr ⟨k, c, j, rfl, hsaved⟩

end

end Runbook
