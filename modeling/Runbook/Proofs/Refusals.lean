import Runbook.Proofs.QueueHistory

/-!
# `Proofs.Refusals` — what an operation that fails leaves behind

An operation on the stores that fails leaves them exactly as they were: every record, every table and every
index. The one exception is a queue in memory. When a status is set from outside together with metadata that
cannot be laid over, the operation fails, and the status has been set.

## Contents
- **Queues in memory.** `QueueStore.Lively`, what a store in memory holds; a record that is put back changes
  nothing, `Lively.keep_self`.
- **States.** `Stores.Reachable`, the states that stores can be in.
- **Failures.** `StoreOp.IsMixed`, the exception; `failed_operation_changes_nothing`, and what the exception
  leaves, `mixed_update_leaves_status`.
-/

namespace Runbook

/-! ## Queues in memory -/

/-- What is put back in its place changes nothing. -/
theorem Keyed.put_of_get? {α : Type} {m : Keyed α} {key : String} {value : α} (h : m.get? key = some value) :
    m.put key value = m := by
  induction m with
  | nil => exact absurd h (by simp [get?])
  | cons entry rest ih =>
    obtain ⟨k, old⟩ := entry
    rw [get?] at h
    rw [put]
    split at h
    · next hk =>
      obtain rfl := Option.some.inj h
      rw [if_pos hk]
    · next hk => rw [if_neg hk, ih h]

namespace QueueStore

variable {s s' : QueueStore} {r : QueueRecord} {id : String} {now : Stamp} {op : StoreOp}
  {answer : Except Fault StoreAnswer}

/-- **A store in memory holds live records**, each under its own id, and has a row for each. -/
structure Lively (s : QueueStore) : Prop where
  backend : s.backend = .memory
  records : ∀ id held, s.records.get? id = some held → ∃ r, held = .live r ∧ r.id = id
    ∧ (s.columns.get? id).isSome = true

theorem lively_empty : (Stores.empty .memory).queues.Lively := ⟨rfl, fun _ _ h => absurd h nofun⟩

/-- A store in memory keeps any record. -/
theorem Lively.keep_eq (h : s.Lively) (r : QueueRecord) : s.keep r = .ok { s with
    records := s.records.put r.id (.live r)
    columns := s.columns.put r.id ((s.columns.get? r.id).getD ⟨r.queueId, r.createdAt⟩) } := by
  unfold keep
  rw [h.backend]
  rfl

theorem Lively.of_keep (h : s.Lively) (hkeep : s.keep r = .ok s') : s'.Lively := by
  obtain rfl := Except.ok.inj ((h.keep_eq r).symm.trans hkeep)
  refine ⟨h.backend, fun id held hheld => ?_⟩
  by_cases hid : id = r.id
  · subst hid
    rw [Keyed.get?_put_self] at hheld
    exact ⟨r, (Option.some.inj hheld).symm, rfl, by rw [Keyed.get?_put_self]; rfl⟩
  · rw [Keyed.get?_put_of_ne _ _ hid] at hheld
    rw [Keyed.get?_put_of_ne _ _ hid]
    exact h.records id held hheld

/-- What is read of a queue is the live record under its id. -/
theorem Lively.held_of_get (h : s.Lively) (hread : s.get id = .ok (some r)) :
    s.records.get? r.id = some (.live r) ∧ r.id = id ∧ (s.columns.get? r.id).isSome = true := by
  unfold get Keyed.readHeld at hread
  split at hread
  · next held hheld =>
    obtain ⟨r', rfl, rfl, hrow⟩ := h.records id held hheld
    obtain rfl := Option.some.inj (Except.ok.inj hread)
    exact ⟨hheld, rfl, hrow⟩
  · exact absurd (Except.ok.inj hread) nofun

/-- **A record that is put back** leaves the store as it was. -/
theorem Lively.keep_self (h : s.Lively) (hread : s.get id = .ok (some r)) : s.keep r = .ok s := by
  obtain ⟨hheld, -, hrow⟩ := h.held_of_get hread
  obtain ⟨columns, hcolumns⟩ := Option.isSome_iff_exists.mp hrow
  rw [h.keep_eq, hcolumns, Option.getD_some, Keyed.put_of_get? hheld, Keyed.put_of_get? hcolumns]

/-- **The step lemma.** -/
theorem Lively.change (h : s.Lively) (hchange : s.Change now op answer s') : s'.Lively := by
  cases hchange with
  | none => exact h
  | written _ hkeep =>
    have hkept := h.of_keep hkeep
    exact ⟨by rw [noted_backend]; exact hkept.backend, by rw [noted_records, noted_columns]; exact hkept.records⟩
  | spoiled _ _ _ hkeep => exact h.of_keep hkeep

end QueueStore

/-! ## States -/

namespace Stores

variable {b : Backend} {s : Stores} {now : Stamp} {op : StoreOp} {f : Fault}

/-- **The states of stores**: operations are carried out, and in between a database may be closed, moved or
    opened again, and may stop to take writes. -/
inductive Reachable (b : Backend) : Stores → Prop
  | start : Reachable b (empty b)
  | operated {s : Stores} (h : Reachable b s) (c : TimedOp) : Reachable b (s.carryOut c).2
  | switched {s : Stores} (h : Reachable b s) (isOpen : Bool) (outage : Outage) (path : String) :
      Reachable b { s with isOpen, outage, path }

/-- **The run lemma.** Stores in memory hold live records of queues at any time. -/
theorem Reachable.lively (h : s.Reachable .memory) : s.queues.Lively := by
  induction h with
  | start => exact QueueStore.lively_empty
  | @operated s _ c ih => exact ih.change (s.queues_change c)
  | switched _ _ _ _ ih => exact ih

theorem Reachable.backend_eq (h : s.Reachable b) : s.queues.backend = b := by
  induction h with
  | start => rfl
  | @operated s _ c ih => exact (s.queues_change c).backend_eq.trans ih
  | switched _ _ _ _ ih => exact ih

end Stores

/-! ## Failures -/

/-- **What spoils a queue in memory**: a status that is set from outside, together with metadata that are no
    mapping. -/
def StoreOp.IsMixed : StoreOp → Prop
  | .updateQueue _ status updates =>
    status ≠ .null ∧ ∃ v, updates.get? "metadata" = some v ∧ v.truthy = true ∧ v.fields? = none
  | _ => False

/-- Metadata that cannot be overlaid are given, and are no mapping. -/
theorem Update.overlay_eq_error {m : Keyed Value} {given : Option Value} {f : Fault}
    (h : overlay m (given.getD .null) = .error f) : ∃ v, given = some v ∧ v.truthy = true ∧ v.fields? = none := by
  cases given with
  | none => exact absurd h nofun
  | some v =>
    refine ⟨v, rfl, ?_⟩
    unfold overlay at h
    split at h
    · exact absurd h nofun
    · next htruthy =>
      refine ⟨by simpa using htruthy, ?_⟩
      cases v with
      | object => exact absurd h nofun
      | _ => rfl

/-- **A failure leaves the queues** as they were, but for mixed updates in memory. -/
theorem QueueStore.Change.of_error {s s' : QueueStore} {now : Stamp} {op : StoreOp} {f : Fault}
    (h : s.Change now op (.error f) s') (hlively : s.backend = .memory → s.Lively)
    (hmixed : s.backend = .memory → ¬ op.IsMixed) : s' = s := by
  cases h with
  | none => rfl
  | @spoiled id status updates r r' _ _ hmemory hread hpart hkeep =>
    obtain ⟨hoverlay, rfl⟩ := QueueRecord.override_eq_error.mp hpart
    -- the record that was changed in part is the record itself, unless a status was set
    have hnull : status = .null := by
      by_contra hne
      exact hmixed hmemory ⟨hne, Update.overlay_eq_error hoverlay⟩
    subst hnull
    exact Except.ok.inj (hkeep.symm.trans ((hlively hmemory).keep_self hread))

namespace Stores

variable {b : Backend} {s : Stores} {now : Stamp} {op : StoreOp} {f : Fault}

theorem writing_of_error {α : Type} {a : Except Fault (α × Stores)} {answer : α → StoreAnswer}
    (h : (s.writing a answer).1 = .error f) : (s.writing a answer).2 = s := by
  unfold writing at h ⊢
  split at h
  · exact absurd h nofun
  · rfl

/-- Open stores are left as they were by an operation that fails. -/
theorem Reachable.performOpen_of_error (hs : s.Reachable b) (hmixed : b = .memory → ¬ op.IsMixed)
    (h : (s.performOpen now op).1 = .error f) : (s.performOpen now op).2 = s := by
  have hbackend := hs.backend_eq
  cases op with
  | updateQueue id status updates =>
    have hchange := s.queues.change_of_override id status updates now
    rw [show _ <$> (s.queues.override id status updates now).1 = .error f from h] at hchange
    have hlively (hb : s.queues.backend = .memory) : s.queues.Lively := by
      obtain rfl := hbackend.symm.trans hb
      exact hs.lively
    have hqueues := hchange.of_error hlively fun hb => hmixed (hbackend.symm.trans hb)
    show { s with queues := (s.queues.override id status updates now).2 } = s
    rw [hqueues]
  | getRun | runOfExecution | listRuns | getJob | listJobs | getQueue | listQueues => rfl
  | _ => exact writing_of_error h

end Stores

/-- **An operation that fails changes nothing.** Whatever was done to stores before: when an operation fails,
    the stores are afterwards what they were, with every record, every row of a table and every entry of an
    index. Only a queue in memory can have taken a status from an update whose metadata are no mapping. -/
theorem failed_operation_changes_nothing {b : Backend} {s : Stores} (hs : s.Reachable b) {now : Stamp}
    {op : StoreOp} {f : Fault} (hmixed : b = .memory → ¬ op.IsMixed) (h : (s.perform now op).1 = .error f) :
    (s.perform now op).2 = s := by
  unfold Stores.perform at h ⊢
  by_cases hopen : s.isOpen = true
  · rw [if_pos hopen] at h ⊢
    exact hs.performOpen_of_error hmixed h
  · rw [if_neg hopen]

/-- A queue that has just been started, in memory. -/
def startedQueue : Stores :=
  ((Stores.empty .memory).carryOut ⟨0, .createQueue "queue" "images" "resize" "job" .null (.int 2)⟩).2

/-- Updates of it that fail: of a step that it does not have, with a status that steps do not have, and with
    metadata that are no mapping. -/
def refusedUpdates : List StoreOp :=
  [.updateStep "queue" (.int 1) [("status", .text "running")],
    .updateStep "queue" (.int 0) [("output", .int 1), ("status", .text "lost")],
    .updateQueue "queue" .null [("completed_at", .text "later"), ("metadata", .list [.int 1])]]

theorem refusedUpdates_change_nothing : startedQueue.Reachable .memory ∧ ∀ op ∈ refusedUpdates, ¬ op.IsMixed
    ∧ ∃ f, (startedQueue.perform (.ofMicros 5) op).1 = .error f
      ∧ (startedQueue.perform (.ofMicros 5) op).2 = startedQueue := by
  have hreachable : startedQueue.Reachable .memory := .operated .start _
  refine ⟨hreachable, fun op hop => ?_⟩
  have hmixed : ¬ op.IsMixed := by
    simp only [refusedUpdates, List.mem_cons, List.not_mem_nil, or_false] at hop
    rcases hop with rfl | rfl | rfl <;> simp [StoreOp.IsMixed]
  have hfails : ∀ op ∈ refusedUpdates, (startedQueue.perform (.ofMicros 5) op).1.toOption.isNone = true := by
    decide +kernel
  have hfailed := hfails op hop
  cases hresult : (startedQueue.perform (.ofMicros 5) op).1 with
  | ok answer => rw [hresult] at hfailed; exact absurd hfailed nofun
  | error f => exact ⟨hmixed, f, rfl, failed_operation_changes_nothing hreachable (fun _ => hmixed) hresult⟩

/-- **What a mixed update leaves in memory**: it fails, and the queue has the status, and with it perhaps a
    time of completion. -/
theorem mixed_update_leaves_status {s : Stores} (hs : s.Reachable .memory) (hopen : s.isOpen = true) {now : Stamp}
    {id : String} {status : Value} {updates : Keyed Value} {r : QueueRecord}
    (hread : s.queues.get id = .ok (some r)) (hmixed : (StoreOp.updateQueue id status updates).IsMixed) :
    (∃ f, (s.perform now (.updateQueue id status updates)).1 = .error f)
      ∧ (s.perform now (.updateQueue id status updates)).2.queues.get id = .ok (some (r.withStatus status now)) := by
  obtain ⟨-, v, hgiven, htruthy, hmapping⟩ := hmixed
  obtain ⟨f, hoverlay⟩ : ∃ f, Update.overlay (r.withStatus status now).metadata v = .error f := by
    unfold Update.overlay
    rw [htruthy]
    cases v with
    | object => exact absurd hmapping nofun
    | _ => exact ⟨_, rfl⟩
  have hpart : r.override status updates now = (r.withStatus status now, some f) :=
    QueueRecord.override_eq_error.mpr ⟨by rw [hgiven]; exact hoverlay, rfl⟩
  have hlively := hs.lively
  obtain ⟨queues, hkeep, hget⟩ : ∃ queues, s.queues.keep (r.withStatus status now) = .ok queues
      ∧ queues.get id = .ok (some (r.withStatus status now)) := by
    refine ⟨_, hlively.keep_eq _, ?_⟩
    rw [QueueStore.get, QueueRecord.withStatus_id, (hlively.held_of_get hread).2.1, Keyed.readHeld_put_self]
    rfl
  have hoverride : s.queues.override id status updates now = (.error f, queues) := by
    unfold QueueStore.override
    rw [QueueStore.require_eq_ok.mpr hread]
    dsimp only
    rw [hpart]
    dsimp only
    rw [hlively.backend, hkeep]
    rfl
  unfold Stores.perform
  rw [if_pos hopen, Stores.performOpen, hoverride]
  exact ⟨⟨f, rfl⟩, hget⟩

end Runbook
