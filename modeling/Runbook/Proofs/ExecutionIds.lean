import Runbook.Proofs.Amendments

/-!
# `Proofs.ExecutionIds` — which run an execution id finds

A table looks for an execution id in the rows of the runs. The other stores keep an index beside the records,
to which entries are only added: what it finds is a run that has the execution id, or one from which an
update has taken it since.

## Contents
- **Execution ids.** `RunStore.HasExecution`; what a write makes of the execution ids of records and of the
  index.
- **Look-ups.** `RunStore.Consistent`, what rows and index tell of the records, and what is found by them;
  `RunStore.runOfExecution?_of_replaced`.
- **Histories.** One step, `Consistent.change`; `Stores.Stripped`, and `found_by_execution_id`.
-/

namespace Runbook

/-! ## Execution ids -/

/-- Whether a store keeps an index of execution ids beside its records. -/
def Backend.keepsIndex : Backend → Bool
  | .memory | .redis => true
  | .sqlite | .postgres => false

namespace RunStore

variable {s s' : RunStore} {r : RunRecord} {id e : String} {now : Stamp}

/-- **The record of a run has an execution id.** -/
def HasExecution (s : RunStore) (id e : String) : Prop :=
  ∃ r, s.get id = .ok (some r) ∧ r.executionId = some e

theorem hasExecution_of_keep (hfits : r.Fits s.backend) (h : s.keep r = .ok s') (id e : String) :
    s'.HasExecution id e ↔ if id = r.runId then r.executionId = some e else s.HasExecution id e := by
  unfold HasExecution
  split
  · next hid =>
    subst hid
    rw [get_of_keep hfits h]
    refine ⟨?_, fun he => ⟨_, rfl, he⟩⟩
    rintro ⟨kept, hkept, he⟩
    obtain rfl := Option.some.inj (Except.ok.inj hkept)
    exact he
  · next hid => rw [get_of_keep_of_ne h hid]

/-- The rows after a record was kept. -/
theorem columns_of_keep (h : s.keep r = .ok s') :
    s'.columns = s.columns.put r.runId ⟨r.executionId, r.status⟩ := by
  obtain ⟨held, -, rfl⟩ := keep_eq_ok.mp h
  rfl

/-- What the index finds after a record was kept. -/
theorem executions_of_keep (h : s.keep r = .ok s') (e : String) : s'.executions.get? e =
    if r.executionId = some e ∧ e ≠ "" then some r.runId else s.executions.get? e := by
  obtain ⟨held, -, rfl⟩ := keep_eq_ok.mp h
  show (s.indexed r).get? e = _
  unfold indexed
  cases r.executionId with
  | none => simp
  | some taken =>
    dsimp only
    by_cases hempty : taken = ""
    · rw [if_pos hempty, if_neg]
      rintro ⟨heq, hne⟩
      exact hne ((Option.some.inj heq).symm.trans hempty)
    · rw [if_neg hempty]
      by_cases heq : e = taken
      · subst heq
        rw [Keyed.get?_put_self, if_pos ⟨rfl, hempty⟩]
      · rw [Keyed.get?_put_of_ne _ _ heq, if_neg]
        exact fun h => heq (Option.some.inj h.1).symm

/-! ## Look-ups -/

/-- **What rows and index tell of the records.** The rows have the execution ids of the records. The index has
    every execution id of a record, and finds a run that has it or had it, as told by `Former`. -/
structure Consistent (s : RunStore) (Former : String → String → Prop) : Prop where
  distinct : s.columns.keys.Nodup
  rows : ∀ id e, (s.columns.get? id).bind RunColumns.executionId = some e ↔ s.HasExecution id e
  points : ∀ id e, s.executions.get? e = some id → s.HasExecution id e ∨ Former id e
  covers : ∀ id e, e ≠ "" → s.HasExecution id e → s.executions.get? e ≠ none

theorem consistent_empty (b : Backend) : (Stores.empty b).runs.Consistent fun _ _ => False where
  distinct := List.nodup_nil
  rows _ _ := ⟨nofun, fun ⟨_, h, _⟩ => absurd h nofun⟩
  points _ _ := nofun
  covers _ _ _ := fun ⟨_, h, _⟩ => absurd h nofun

variable {Former Former' : String → String → Prop}

theorem Consistent.mono (h : s.Consistent Former) (himp : ∀ id e, Former id e → Former' id e) :
    s.Consistent Former' :=
  { h with points := fun id e hfound => (h.points id e hfound).imp_right (himp id e) }

/-- **A run that is found** has the execution id; or there is an index, and the run had it. -/
theorem Consistent.of_found (h : s.Consistent Former) (hfound : s.runOfExecution? e = some id) :
    s.HasExecution id e ∨ s.backend.keepsIndex = true ∧ Former id e := by
  unfold runOfExecution? at hfound
  cases hb : s.backend with
  | memory | redis =>
    rw [hb] at hfound
    exact (h.points id e hfound).imp_right fun hformer => ⟨rfl, hformer⟩
  | sqlite | postgres =>
    rw [hb] at hfound
    obtain ⟨⟨rowId, row⟩, hrow, rfl⟩ := Option.map_eq_some_iff.mp hfound
    refine .inl ((h.rows rowId e).mp ?_)
    -- no other row stands under the same run id
    have hexecution : row.executionId = some e := by simpa using List.find?_some hrow
    rw [Keyed.get?_of_mem h.distinct (List.mem_of_find?_eq_some hrow)]
    exact hexecution

/-- **When no run is found**, none has the execution id, unless it is empty and there is an index. -/
theorem Consistent.of_not_found (h : s.Consistent Former) (hnone : s.runOfExecution? e = none)
    (he : s.backend.keepsIndex = true → e ≠ "") (id : String) : ¬ s.HasExecution id e := by
  intro hhas
  unfold runOfExecution? at hnone
  cases hb : s.backend with
  | memory | redis =>
    rw [hb] at hnone he
    exact h.covers id e (he rfl) hhas hnone
  | sqlite | postgres =>
    rw [hb] at hnone
    obtain ⟨row, hrow, hexecution⟩ := Option.bind_eq_some_iff.mp ((h.rows id e).mpr hhas)
    have hunseen := List.find?_eq_none.mp (Option.map_eq_none_iff.mp hnone) _ (Keyed.mem_of_get? hrow)
    exact hunseen (decide_eq_true hexecution)

/-- **An index still finds a run** under the execution id that was replaced in its record. -/
theorem runOfExecution?_of_replaced (hb : s.backend.keepsIndex = true)
    (hfound : s.runOfExecution? e = some r.runId) (hreplaced : r.executionId ≠ some e) (h : s.keep r = .ok s') :
    s'.runOfExecution? e = some r.runId := by
  have hindex : s'.executions.get? e = s.executions.get? e := by
    rw [executions_of_keep h, if_neg fun hand => hreplaced hand.1]
  unfold runOfExecution? at hfound ⊢
  rw [backend_of_keep h]
  cases hbackend : s.backend with
  | memory | redis =>
    rw [hbackend] at hfound
    exact hindex.trans hfound
  | sqlite | postgres =>
    rw [hbackend] at hb
    exact absurd hb nofun

/-! ## Histories -/

variable {op : StoreOp} {answer : Except Fault StoreAnswer}

/-- **A write leaves rows and index consistent**; it can make a former holder of an execution id. -/
theorem Consistent.keep (h : s.Consistent Former) (hfits : r.Fits s.backend) (hkeep : s.keep r = .ok s') :
    s'.Consistent fun id e => Former id e ∨ s.HasExecution id e ∧ ¬ s'.HasExecution id e := by
  have hhas := hasExecution_of_keep hfits hkeep
  have hindex := executions_of_keep hkeep
  refine ⟨?_, fun id e => ?_, fun id e hfound => ?_, fun id e he hid => ?_⟩
  · rw [columns_of_keep hkeep]
    exact Keyed.nodup_keys_put h.distinct _ _
  · rw [hhas, columns_of_keep hkeep]
    split
    · next hid =>
      subst hid
      rw [Keyed.get?_put_self]
      rfl
    · next hid =>
      rw [Keyed.get?_put_of_ne _ _ hid]
      exact h.rows id e
  · rw [hindex] at hfound
    split at hfound
    · next htaken =>
      obtain rfl := Option.some.inj hfound
      exact .inl ((hhas _ e).mpr ((if_pos rfl).mpr htaken.1))
    · -- the entry is older: its run has the execution id still, or has lost it just now
      by_cases hstill : s'.HasExecution id e
      · exact .inl hstill
      · exact .inr ((h.points id e hfound).symm.imp_right fun hhad => ⟨hhad, hstill⟩)
  · rw [hindex]
    split
    · exact nofun
    · next huntaken =>
      -- the run of the new record has another execution id, so it is a run that the index knew before
      replace hid := (hhas id e).mp hid
      split at hid
      · exact absurd ⟨hid, he⟩ huntaken
      · exact h.covers id e he hid

/-- **An operation leaves rows and index consistent.** -/
theorem Consistent.change (h : s.Consistent Former) (hs : s.Sound) (hnow : now.Proper)
    (hchange : s.Change now op answer s') :
    s'.Consistent fun id e => Former id e ∨ s.HasExecution id e ∧ ¬ s'.HasExecution id e := by
  cases hchange with
  | none => exact h.mono fun _ _ => .inl
  | written hread hr hkeep => exact h.keep (hs.fits hnow hread hr hkeep) hkeep

end RunStore

namespace Stores

variable {s : Stores}

/-- **An operation takes an execution id from a run.** -/
def Strips (s : Stores) (c : TimedOp) (id e : String) : Prop :=
  s.runs.HasExecution id e ∧ ¬ (s.carryOut c).2.runs.HasExecution id e

/-- **Some operation takes an execution id from a run.** -/
def Stripped (s : Stores) : List TimedOp → String → String → Prop
  | [], _, _ => False
  | c :: cs, id, e => s.Strips c id e ∨ (s.carryOut c).2.Stripped cs id e

/-- **Operations leave rows and index consistent.** -/
theorem consistent_after {cs : List TimedOp} {Former : String → String → Prop} (h : s.runs.Consistent Former)
    (hs : s.runs.Sound) (hclock : ∀ c ∈ cs, c.clock < Stamp.lastMicro) :
    (s.after cs).runs.Consistent fun id e => Former id e ∨ s.Stripped cs id e := by
  induction cs generalizing s Former with
  | nil => exact h.mono fun _ _ => .inl
  | cons c rest ih =>
    have hnow := Stamp.proper_ofMicros (hclock c List.mem_cons_self)
    have hchange := s.runs_change c
    refine (ih (h.change hs hnow hchange) (hs.change hnow hchange) fun d hd => hclock d (.tail _ hd)).mono ?_
    exact fun _ _ => or_assoc.mp

end Stores

/-- **What an execution id finds.** After operations in order, a look-up answers; the run that it finds has the
    execution id, or the store keeps an index and some operation took the execution id from the run; and when
    it finds none, no run has the execution id, the empty one in an index apart. -/
theorem found_by_execution_id {b : Backend} {cs : List TimedOp} (hclock : ∀ c ∈ cs, c.clock < Stamp.lastMicro)
    (clock : Clock) (e : String) :
    let s := (Stores.empty b).after cs
    ∃ found, (s.carryOut ⟨clock, .runOfExecution e⟩).1 = .ok (.name found)
      ∧ (∀ id ∈ found, s.runs.HasExecution id e ∨ b.keepsIndex = true ∧ (Stores.empty b).Stripped cs id e)
      ∧ (found = none → (b.keepsIndex = true → e ≠ "") → ∀ id, ¬ s.runs.HasExecution id e) := by
  intro s
  have hopen : s.isOpen = true := ((Stores.working_empty b).after cs).isOpen
  have hbackend : s.runs.backend = b := (Stores.runs_sound (RunStore.sound_empty b) hclock).2
  have h := (Stores.consistent_after (RunStore.consistent_empty b) (RunStore.sound_empty b) hclock).mono
    fun _ _ => (false_or _).mp
  refine ⟨s.runs.runOfExecution? e, congrArg Prod.fst (if_pos hopen), fun id hfound => ?_, fun hnone he => ?_⟩
  · exact (h.of_found hfound).imp_right fun hformer => ⟨hbackend ▸ hformer.1, hformer.2⟩
  · exact h.of_not_found hnone fun hindex => he (hbackend ▸ hindex)

/-- An execution id that two runs take, and one of them changes. -/
def sharedExecution : List TimedOp :=
  [⟨0, .setRun "nightly" [("execution_id", .text "e-1")]⟩, ⟨1, .setRun "retry" [("execution_id", .text "e-1")]⟩,
    ⟨2, .setRun "nightly" [("status", .text "running"), ("execution_id", .text "e-2")]⟩]

theorem sharedExecution_found : (∀ c ∈ sharedExecution, c.clock < Stamp.lastMicro)
    ∧ (let s := (Stores.empty .redis).after sharedExecution
      ∃ found, (s.carryOut ⟨3, .runOfExecution "e-1"⟩).1 = .ok (.name found)
        ∧ (∀ id ∈ found, s.runs.HasExecution id "e-1"
          ∨ Backend.redis.keepsIndex = true ∧ (Stores.empty .redis).Stripped sharedExecution id "e-1")
        ∧ (found = none → (Backend.redis.keepsIndex = true → "e-1" ≠ "") →
          ∀ id, ¬ s.runs.HasExecution id "e-1")) := by
  have hclock : ∀ c ∈ sharedExecution, c.clock < Stamp.lastMicro := by decide
  exact ⟨hclock, found_by_execution_id hclock 3 "e-1"⟩

end Runbook
