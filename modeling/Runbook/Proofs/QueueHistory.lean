import Runbook.Proofs.QueueRecords

/-!
# `Proofs.QueueHistory` — what becomes of the record of a queue

An operation on a queue makes a record, out of nothing or out of what is read of the queue, and keeps it.
Only a store in memory can be left with something else: it changes its record in place, so that the part of
an update that comes before a failure remains.

## Contents
- **Records.** `StoreOp.MakesQueue`, the record that an operation makes.
- **Steps.** `QueueStore.Change`, all that an operation can do to the queues, and `Stores.queues_change`.
- **Ids.** `QueueStore.Filed`: every record stands under its own id, and an operation changes what is read of
  the queue that it names.
-/

namespace Runbook

/-! ## Records -/

/-- **The record that an operation on a queue makes.** -/
inductive StoreOp.MakesQueue (s : QueueStore) (now : Stamp) : StoreOp → QueueRecord → Prop
  | created {id queueId workerId workerJobId : String} {metadata totalSteps : Value} {r : QueueRecord}
      (h : QueueRecord.create id queueId workerId workerJobId metadata totalSteps now = .ok r) :
      MakesQueue s now (.createQueue id queueId workerId workerJobId metadata totalSteps) r
  | appended {id workerId workerJobId : String} {r : QueueRecord} (hread : s.get id = .ok (some r)) :
      MakesQueue s now (.appendStep id workerId workerJobId) (r.appendStep workerId workerJobId now)
  | stepped {id : String} {index : Value} {updates : Keyed Value} {r r' : QueueRecord}
      (hread : s.get id = .ok (some r)) (h : r.updateStep index updates now = .ok r') :
      MakesQueue s now (.updateStep id index updates) r'
  | overridden {id : String} {status : Value} {updates : Keyed Value} {r r' : QueueRecord}
      (hread : s.get id = .ok (some r)) (h : r.override status updates now = (r', none)) :
      MakesQueue s now (.updateQueue id status updates) r'

namespace QueueRecord

variable {r r' : QueueRecord} {status : Value} {updates : Keyed Value} {now : Stamp} {f : Fault}

@[simp] theorem withStatus_id (r : QueueRecord) (status : Value) (now : Stamp) :
    (r.withStatus status now).id = r.id := by
  unfold withStatus
  split <;> rfl

@[simp] theorem withFinish_id (r : QueueRecord) (updates : Keyed Value) : (r.withFinish updates).id = r.id := by
  unfold withFinish
  split <;> rfl

theorem override_id {g : Option Fault} (h : r.override status updates now = (r', g)) : r'.id = r.id := by
  cases g with
  | none =>
    obtain ⟨metadata, -, rfl⟩ := override_eq_none.mp h
    simp
  | some f =>
    obtain ⟨-, rfl⟩ := override_eq_error.mp h
    simp

theorem updateStep_id {index : Value} (h : r.updateStep index updates now = .ok r') : r'.id = r.id := by
  obtain ⟨position, -, h⟩ := Fault.bind_eq_ok.mp h
  split at h
  · cases h
    rfl
  · obtain ⟨step, -, h⟩ := Fault.bind_eq_ok.mp h
    cases h
    unfold follow
    split
    · rfl
    · split <;> rfl

theorem create_id {id queueId workerId workerJobId : String} {metadata totalSteps : Value}
    (h : create id queueId workerId workerJobId metadata totalSteps now = .ok r) : r.id = id := by
  have h := Fault.ofChecked_eq_ok.mp h
  simp only [Checked.seq_eq_ok, Checked.map_eq_ok] at h
  obtain ⟨_, _, ⟨_, -, rfl⟩, -, rfl⟩ := h
  rfl

end QueueRecord

namespace QueueStore

variable {s s' : QueueStore} {r : QueueRecord} {op : StoreOp} {now : Stamp} {answer : Except Fault StoreAnswer}

/-! ## Steps -/

/-- A store after a record was made by an operation and kept: a new record is noted in the indexes. -/
def noted (op : StoreOp) (r : QueueRecord) (s : QueueStore) : QueueStore :=
  match op with
  | .createQueue .. => s.note r
  | _ => s

@[simp] theorem noted_backend : (s.noted op r).backend = s.backend := by unfold noted; split <;> rfl

@[simp] theorem noted_records : (s.noted op r).records = s.records := by unfold noted; split <;> rfl

@[simp] theorem noted_columns : (s.noted op r).columns = s.columns := by unfold noted; split <;> rfl

/-- **All that an operation can do to the queues** is to keep the record that it makes, which it also
    answers. In memory it can fail, and keep a record that it has changed in part. -/
inductive Change (s : QueueStore) (now : Stamp) : StoreOp → Except Fault StoreAnswer → QueueStore → Prop
  | none {op : StoreOp} {answer : Except Fault StoreAnswer}
      (h : (Call.store op).sparesQueues = true ∨ ∃ f, answer = .error f) : Change s now op answer s
  | written {op : StoreOp} {r : QueueRecord} {s' : QueueStore} (hmade : op.MakesQueue s now r)
      (hkeep : s.keep r = .ok s') : Change s now op (.ok (.queue (some r))) (s'.noted op r)
  | spoiled {id : String} {status : Value} {updates : Keyed Value} {r r' : QueueRecord} {f : Fault}
      {s' : QueueStore} (hmemory : s.backend = .memory) (hread : s.get id = .ok (some r))
      (hpart : r.override status updates now = (r', some f)) (hkeep : s.keep r' = .ok s') :
      Change s now (.updateQueue id status updates) (.error f) s'

theorem backend_of_keep (h : s.keep r = .ok s') : s'.backend = s.backend := by
  obtain ⟨-, -, hbackend, -⟩ := keep_eq_ok h
  exact hbackend

theorem records_of_keep (h : s.keep r = .ok s') :
    ∃ held, hold s.backend r = .ok held ∧ s'.records = s.records.put r.id held := by
  obtain ⟨held, hheld, h⟩ := Fault.bind_eq_ok.mp h
  cases h
  exact ⟨held, hheld, rfl⟩

theorem Change.backend_eq (h : s.Change now op answer s') : s'.backend = s.backend := by
  cases h with
  | none => rfl
  | written _ hkeep => rw [noted_backend, backend_of_keep hkeep]
  | spoiled _ _ _ hkeep => exact backend_of_keep hkeep

theorem change_eq_ok {id : String} {change : QueueRecord → Except Fault QueueRecord} :
    s.change id change = .ok (r, s') ↔ ∃ found, s.get id = .ok (some found) ∧ change found = .ok r
      ∧ s.keep r = .ok s' := by
  unfold QueueStore.change
  constructor
  · intro h
    obtain ⟨found, hfound, h⟩ := Fault.bind_eq_ok.mp h
    obtain ⟨r', hr, h⟩ := Fault.bind_eq_ok.mp h
    obtain ⟨kept, hkept, h⟩ := Fault.bind_eq_ok.mp h
    cases h
    exact ⟨found, require_eq_ok.mp hfound, hr, hkept⟩
  · rintro ⟨found, hfound, hr, hkeep⟩
    exact Fault.bind_eq_ok.mpr ⟨found, require_eq_ok.mpr hfound, Fault.bind_eq_ok.mpr ⟨r, hr,
      Fault.bind_eq_ok.mpr ⟨s', hkeep, rfl⟩⟩⟩

theorem change_of_queueWrite {e : Except Fault (QueueRecord × QueueStore)} (h : op.queueWrite? s now = some e)
    (hok : e = .ok (r, s')) : s.Change now op (.ok (.queue (some r))) s' := by
  subst hok
  cases op with
  | createQueue id queueId workerId workerJobId metadata totalSteps =>
    obtain ⟨r', hr, h⟩ := Fault.bind_eq_ok.mp (Option.some.inj h)
    obtain ⟨-, s₁, hkeep, rfl, rfl⟩ := create_eq_ok.mp h
    exact .written (.created hr) hkeep
  | appendStep id workerId workerJobId =>
    obtain ⟨found, hread, hr, hkeep⟩ := change_eq_ok.mp ((appendStep_eq ..).symm.trans (Option.some.inj h))
    obtain rfl := Except.ok.inj hr
    exact .written (.appended hread) hkeep
  | updateStep id index updates =>
    obtain ⟨found, hread, hr, hkeep⟩ := change_eq_ok.mp ((updateStep_eq ..).symm.trans (Option.some.inj h))
    exact .written (.stepped hread hr) hkeep
  | _ => exact absurd h nofun

/-- What is set from outside is kept, or spoils a record in memory. -/
theorem change_of_override (s : QueueStore) (id : String) (status : Value) (updates : Keyed Value) (now : Stamp) :
    s.Change now (.updateQueue id status updates)
      ((fun r => .queue (some r)) <$> (s.override id status updates now).1)
      (s.override id status updates now).2 := by
  unfold QueueStore.override
  cases hfound : s.require id with
  | error f => exact .none (.inr ⟨f, rfl⟩)
  | ok found =>
    have hread := require_eq_ok.mp hfound
    dsimp only
    cases hr : found.override status updates now with
    | mk r failure =>
      cases failure with
      | none =>
        dsimp only
        cases hkeep : s.keep r with
        | error f => exact .none (.inr ⟨f, rfl⟩)
        | ok s' => exact .written (.overridden hread hr) hkeep
      | some f =>
        dsimp only
        cases hb : s.backend with
        | memory =>
          cases hkeep : s.keep r with
          | error g => exact .none (.inr ⟨f, rfl⟩)
          | ok s' => exact .spoiled hb hread hr hkeep
        | _ => exact .none (.inr ⟨f, rfl⟩)

end QueueStore

namespace Stores

/-- **An operation changes the queues**, or leaves them as they are. -/
theorem queues_change (s : Stores) (c : TimedOp) :
    s.queues.Change (.ofMicros c.clock) c.op (s.carryOut c).1 (s.carryOut c).2.queues := by
  obtain ⟨clock, op⟩ := c
  by_cases hspares : (Call.store op).sparesQueues = true
  · rw [show (s.carryOut ⟨clock, op⟩).2.queues = s.queues from perform_queues hspares]
    exact .none (.inl hspares)
  by_cases hopen : s.isOpen = true
  · rw [carryOut_of_open hopen]
    cases hwrite : op.queueWrite? s.queues (.ofMicros clock) with
    | some e =>
      rw [performOpen_queueWrite hwrite]
      cases he : e with
      | error f => exact .none (.inr ⟨f, rfl⟩)
      | ok result => exact QueueStore.change_of_queueWrite hwrite he
    | none =>
      cases op with
      | updateQueue id status updates => exact s.queues.change_of_override id status updates _
      | createQueue | appendStep | updateStep => exact absurd hwrite nofun
      | _ => exact absurd rfl hspares
  · rw [show s.carryOut ⟨clock, op⟩ = (.error _, s) from if_neg hopen]
    exact .none (.inr ⟨_, rfl⟩)

end Stores

/-! ## Ids -/

/-- What is read again of a record is the record of the same queue. -/
theorem QueueRecord.of_hold {b : Backend} {r r' : QueueRecord} {held : Held QueueRecord}
    (hheld : hold b r = .ok held) (hread : held.read = .ok r') :
    r'.id = r.id ∧ r'.queueId = r.queueId ∧ (r.createdAt.Proper → r'.createdAt = r.createdAt) := by
  by_cases hb : b = .memory
  · subst hb
    obtain rfl := Except.ok.inj hheld
    obtain rfl := Except.ok.inj hread
    exact ⟨rfl, rfl, fun _ => rfl⟩
  · rw [hold_eq_document hb hheld] at hread
    have hfields : ofValue (b.keeps r.toValue) = .ok r' := Fault.ofChecked_eq_ok.mp hread
    rw [toValue, Backend.keeps_object] at hfields
    simp only [Backend.keepsFields_cons, Backend.keepsFields_nil, Backend.keeps_text, Stamp.toValue] at hfields
    obtain ⟨hid, hqueue, -, -, -, -, hcreated, -⟩ := ofValue_eq_ok.mp hfields
    have hid := Decode.of_required_eq_ok rfl hid
    have hqueue := Decode.of_required_eq_ok rfl hqueue
    refine ⟨(Checked.ok.inj hid).symm, (Checked.ok.inj hqueue).symm, fun hproper => ?_⟩
    have hcreated := Decode.of_required_eq_ok rfl hcreated
    exact Checked.ok.inj (hcreated.symm.trans (Decode.stamp_toValue hproper))

/-- The queue whose record an operation writes. -/
def StoreOp.queue? : StoreOp → Option String
  | .createQueue id .. | .appendStep id .. | .updateStep id .. | .updateQueue id .. => some id
  | _ => none

namespace QueueStore

variable {s s' : QueueStore} {r : QueueRecord} {op : StoreOp} {now : Stamp} {answer : Except Fault StoreAnswer}
  {id : String}

/-- **Every record stands under its own id.** -/
def Filed (s : QueueStore) : Prop := ∀ id r, s.get id = .ok (some r) → r.id = id

theorem filed_empty (b : Backend) : (Stores.empty b).queues.Filed := by
  intro id r h
  have hnone : (Stores.empty b).queues.get id = .ok none := rfl
  exact absurd (hnone.symm.trans h) (by simp)

@[simp] theorem noted_get : (s.noted op r).get id = s.get id := by rw [get, noted_records, get]

theorem get_of_keep_of_ne (h : s.keep r = .ok s') (hne : id ≠ r.id) : s'.get id = s.get id := by
  obtain ⟨held, -, hrecords⟩ := records_of_keep h
  rw [get, hrecords, Keyed.readHeld_put_of_ne _ _ hne, get]

/-- What is read of a record that was kept. -/
theorem read_of_keep (h : s.keep r = .ok s') {r' : QueueRecord} (hread : s'.get r.id = .ok (some r')) :
    ∃ held, hold s.backend r = .ok held ∧ held.read = .ok r' := by
  obtain ⟨held, hheld, -, hget⟩ := keep_eq_ok h
  obtain ⟨kept, hkept, heq⟩ := Fault.map_eq_ok.mp (hget.symm.trans hread)
  exact ⟨held, hheld, hkept.trans (congrArg Except.ok (Option.some.inj heq))⟩

theorem Filed.keep (h : s.Filed) (hkeep : s.keep r = .ok s') : s'.Filed := by
  intro id r' hread
  by_cases hid : id = r.id
  · subst hid
    obtain ⟨held, hheld, hkept⟩ := read_of_keep hkeep hread
    exact (QueueRecord.of_hold hheld hkept).1
  · exact h id r' ((get_of_keep_of_ne hkeep hid).symm.trans hread)

/-- An operation makes the record of the queue that it names. -/
theorem Filed.id_of_made (h : s.Filed) (hmade : op.MakesQueue s now r) : op.queue? = some r.id := by
  cases hmade with
  | created hcreate => rw [QueueRecord.create_id hcreate, StoreOp.queue?]
  | appended hread => exact congrArg some (h _ _ hread).symm
  | stepped hread hstep => rw [QueueRecord.updateStep_id hstep, h _ _ hread, StoreOp.queue?]
  | overridden hread hset => rw [QueueRecord.override_id hset, h _ _ hread, StoreOp.queue?]

theorem Filed.change (h : s.Filed) (hchange : s.Change now op answer s') : s'.Filed := by
  cases hchange with
  | none => exact h
  | written _ hkeep => exact fun id r' hread => h.keep hkeep id r' (noted_get.symm.trans hread)
  | spoiled _ _ _ hkeep => exact h.keep hkeep

/-- **An operation on one queue** leaves what is read of the others. -/
theorem Filed.get_of_ne (h : s.Filed) (hchange : s.Change now op answer s') (hne : op.queue? ≠ some id) :
    s'.get id = s.get id := by
  cases hchange with
  | none => rfl
  | written hmade hkeep =>
    rw [noted_get]
    exact get_of_keep_of_ne hkeep fun hid => hne (hid ▸ h.id_of_made hmade)
  | spoiled _ hread hpart hkeep =>
    refine get_of_keep_of_ne hkeep fun hid => hne ?_
    rw [StoreOp.queue?, hid, QueueRecord.override_id hpart, h _ _ hread]

end QueueStore

end Runbook
