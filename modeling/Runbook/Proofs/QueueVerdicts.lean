import Runbook.Proofs.QueueHistory

/-!
# `Proofs.QueueVerdicts` — a queue stands as its steps do

How a queue stands follows from one update at a time: a step that fails fails the queue, and the last step
completes it. As long as the last step of a queue that has failed is not completed, the queue has failed from
the first step that failed on, in whatever order its steps are updated and further steps are appended.

## Contents
- **Updates.** `QueueRecord.updateStep_eq_ok`, all that an update of a step does, and what it makes of the
  status.
- **Records.** `QueueRecord.Stands`, and what each operation makes of it.
- **Histories.** `Stores.stepFailed`, whether a step has failed, and `Stores.overruled`, whether the last step
  was completed after that; `failed_step_fails_queue` and `completed_of_overrules`.
-/

namespace Runbook

/-! ## Updates -/

namespace QueueRecord

variable {r r' : QueueRecord} {index : Value} {updates : Keyed Value} {now : Stamp}

/-- The status that an update tells of a step. -/
def toldStatus (updates : Keyed Value) : Option String := (updates.get? "status").bind Value.text?

/-- A position is that of a step. -/
theorem lt_of_position {i : Nat} (h : r.position index = .ok i) : i < r.steps.length := by
  unfold position at h
  split at h
  · exact absurd h (by simp)
  · next hinside =>
    cases index with
    | int n =>
      obtain rfl := Except.ok.inj h
      simp [isOutside, Value.integer?] at hinside
      omega
    | bool b =>
      obtain rfl := Except.ok.inj h
      simp [isOutside, Value.integer?] at hinside
      omega
    | _ => cases h

/-- **All that an update of a step does**: it changes the step at a position, and the queue follows. -/
theorem updateStep_eq_ok (h : r.updateStep index updates now = .ok r') : ∃ i step step',
    r.position index = .ok i ∧ r.steps[i]? = some step ∧ step.update updates now = .ok step'
      ∧ r' = ({ r with steps := r.steps.set i step', updatedAt := now } : QueueRecord).follow i
          (toldStatus updates) now := by
  obtain ⟨i, hi, h⟩ := Fault.bind_eq_ok.mp h
  rw [List.getElem?_eq_getElem (lt_of_position hi)] at h
  obtain ⟨step', hstep', h⟩ := Fault.bind_eq_ok.mp h
  exact ⟨i, _, step', hi, List.getElem?_eq_getElem (lt_of_position hi), hstep', (Except.ok.inj h).symm⟩

/-- **A position is the last one** of the pipeline, as far as its length is known. -/
def IsLast (r : QueueRecord) (i : Nat) : Prop := (i : Int) = r.lastCount - 1

theorem isLast_set {i j : Nat} {step : QueueStepRecord} :
    ({ r with steps := r.steps.set j step, updatedAt := now } : QueueRecord).IsLast i ↔ r.IsLast i := by
  simp [IsLast, lastCount]

/-- What the status of a queue becomes: a failed step fails it, and the last step completes it. -/
theorem status_of_follow (r : QueueRecord) (i : Nat) (told : Option String) (now : Stamp) :
    told = some "failed" ∧ (r.follow i told now).status = .failed
      ∨ (told = some "completed" ∧ r.IsLast i) ∧ (r.follow i told now).status = .completed
      ∨ (told ≠ some "failed" ∧ ¬ (told = some "completed" ∧ r.IsLast i))
        ∧ (r.follow i told now).status = r.status := by
  unfold follow
  split
  · next hfailed => exact .inl ⟨hfailed, rfl⟩
  · next hfailed =>
    split
    · next hlast => exact .inr (.inl ⟨hlast, rfl⟩)
    · next hlast => exact .inr (.inr ⟨⟨hfailed, hlast⟩, rfl⟩)

end QueueRecord

/-- A value that is read as a status is its word. -/
theorem JobStatus.text?_of_ofValue {v : Value} {s : JobStatus} (h : ofValue v = .ok s) : v.text? = some s.word := by
  unfold ofValue at h
  split at h
  · next found hfound =>
    obtain ⟨word, hword, hfind⟩ := Option.bind_eq_some_iff.mp hfound
    obtain rfl := Checked.ok.inj h
    have hsame : found.word = word := by simpa using List.find?_some hfind
    rw [hword, hsame]
  · exact absurd h (by simp [Checked.complain])

/-- A step has failed after an update only if it had before, or was told to. -/
theorem QueueStepRecord.told_of_failed {s s' : QueueStepRecord} {updates : Keyed Value} {now : Stamp}
    (h : s.update updates now = .ok s') (hfailed : s'.status = .failed) :
    s.status = .failed ∨ QueueRecord.toldStatus updates = some "failed" := by
  obtain ⟨-, -, hstatus, -⟩ := of_update h
  rw [hfailed] at hstatus
  unfold Update.field at hstatus
  split at hstatus
  · next v hv =>
    have htext := JobStatus.text?_of_ofValue (Checked.under_eq_ok.mp hstatus)
    refine .inr ?_
    have hgiven : updates.get? "status" = some v := by
      unfold Update.newValue? Value.present? at hv
      split at hv
      · exact absurd hv (by simp)
      · exact hv
    rw [QueueRecord.toldStatus, hgiven]
    exact htext
  · exact .inl (Checked.ok.inj hstatus)

/-! ## Records -/

/-- **A queue stands as its steps do**: given whether a step has failed since the queue was created, the queue
    has failed too; and without that no step is one that failed. -/
structure QueueRecord.Stands (failed : Bool) (r : QueueRecord) : Prop where
  known : ∀ v, r.status ≠ .other v
  status : failed = true → r.status = .failed
  steps : ∀ step ∈ r.steps, step.status = .failed → failed = true

namespace QueueRecord

variable {r r' : QueueRecord} {failed : Bool} {updates : Keyed Value} {now : Stamp}

/-- That a queue stands as its steps do is told by its outline. -/
theorem Stands.of_outline (h : r.Stands failed) (houtline : r'.outline = r.outline) : r'.Stands failed := by
  obtain ⟨-, hstatus, -, hsteps⟩ := QueueOutline.mk.inj houtline
  refine ⟨hstatus ▸ h.known, hstatus ▸ h.status, fun step hstep hfailed => ?_⟩
  have hmem : step.outline ∈ r.steps.map QueueStepRecord.outline := hsteps ▸ List.mem_map_of_mem hstep
  obtain ⟨step₀, hstep₀, heq⟩ := List.mem_map.mp hmem
  exact h.steps step₀ hstep₀ ((congrArg StepOutline.status heq).trans hfailed)

theorem stands_of_create {id queueId workerId workerJobId : String} {metadata totalSteps : Value}
    (h : create id queueId workerId workerJobId metadata totalSteps now = .ok r) : r.Stands false := by
  have h := Fault.ofChecked_eq_ok.mp h
  simp only [Checked.seq_eq_ok, Checked.map_eq_ok] at h
  obtain ⟨_, _, ⟨_, -, rfl⟩, -, rfl⟩ := h
  exact ⟨by simp, by simp, by simp [QueueStepRecord.queued]⟩

theorem Stands.appendStep (h : r.Stands failed) (workerId workerJobId : String) (now : Stamp) :
    (r.appendStep workerId workerJobId now).Stands failed := by
  refine ⟨h.known, h.status, fun step hstep hfailed => ?_⟩
  rcases List.mem_append.mp hstep with hold | hnew
  · exact h.steps step hold hfailed
  · obtain rfl := List.mem_singleton.mp hnew
    exact absurd hfailed (by simp [QueueStepRecord.queued])

/-- Whether an update completes the last step of a queue that has failed. -/
def overruled (r : QueueRecord) (index : Value) (updates : Keyed Value) : Bool :=
  match r.status, r.position index with
  | .failed, .ok i => (i : Int) = r.lastCount - 1 && toldStatus updates = some "completed"
  | _, _ => false

theorem overruled_iff {index : Value} : r.overruled index updates = true ↔
    r.status = .failed ∧ (∃ i, r.position index = .ok i ∧ r.IsLast i) ∧ toldStatus updates = some "completed" := by
  unfold overruled
  split
  · next i hstatus hi => simp [hstatus, hi, IsLast]
  · next hnot =>
    refine ⟨fun h => absurd h (by simp), ?_⟩
    rintro ⟨hstatus, ⟨i, hi, -⟩, -⟩
    exact absurd hi (hnot i hstatus)

/-- **An update of a step** leaves a queue that stands as its steps do, unless it completes the last step of a
    queue that has failed. -/
theorem Stands.updateStep {index : Value} (h : r.Stands failed) (hlate : r.overruled index updates = false)
    (hr : r.updateStep index updates now = .ok r') :
    r'.Stands (failed || toldStatus updates = some "failed") := by
  obtain ⟨i, step, step', hi, hstep, hstep', rfl⟩ := updateStep_eq_ok hr
  obtain ⟨-, -, hsteps, -⟩ := follow_same { r with steps := r.steps.set i step', updatedAt := now } i
    (toldStatus updates) now
  have hsteps' : ∀ s ∈ r.steps.set i step', s.status = .failed →
      (failed || toldStatus updates = some "failed") = true := by
    intro s hs hfailed
    rcases List.mem_or_eq_of_mem_set hs with hold | rfl
    · rw [h.steps s hold hfailed, Bool.true_or]
    · rcases QueueStepRecord.told_of_failed hstep' hfailed with hbefore | htold
      · rw [h.steps step (List.mem_of_getElem? hstep) hbefore, Bool.true_or]
      · rw [htold]
        simp
  rcases status_of_follow { r with steps := r.steps.set i step', updatedAt := now } i (toldStatus updates) now
    with ⟨htold, hstatus⟩ | ⟨⟨htold, hlast⟩, hstatus⟩ | ⟨⟨htold, -⟩, hstatus⟩
  · exact ⟨by simp [hstatus], fun _ => hstatus, hsteps ▸ hsteps'⟩
  · -- a queue that is completed has not failed before
    refine ⟨by simp [hstatus], fun hfailed => ?_, hsteps ▸ hsteps'⟩
    have hbefore : failed = true := by simpa [htold] using hfailed
    have hover := overruled_iff.mpr ⟨h.status hbefore, ⟨i, hi, isLast_set.mp hlast⟩, htold⟩
    exact absurd (hlate.symm.trans hover) (by simp)
  · refine ⟨fun v hv => h.known v (hstatus.symm.trans hv), fun hfailed => hstatus.trans (h.status ?_), hsteps ▸ hsteps'⟩
    simpa [htold] using hfailed

/-- **A queue whose last step is completed** is completed, whatever its status was. -/
theorem completed_of_overruled {index : Value} (h : r.overruled index updates = true)
    (hr : r.updateStep index updates now = .ok r') : r'.status = .completed := by
  obtain ⟨-, ⟨j, hj, hlast⟩, htold⟩ := overruled_iff.mp h
  obtain ⟨i, step, step', hi, -, -, rfl⟩ := updateStep_eq_ok hr
  obtain rfl : j = i := Except.ok.inj (hj.symm.trans hi)
  rcases status_of_follow { r with steps := r.steps.set j step', updatedAt := now } j (toldStatus updates) now
    with ⟨hfailed, -⟩ | ⟨-, hstatus⟩ | ⟨⟨-, hnot⟩, -⟩
  · exact absurd (htold.symm.trans hfailed) (by decide)
  · exact hstatus
  · exact absurd ⟨htold, isLast_set.mpr hlast⟩ hnot

end QueueRecord

/-! ## Histories -/

namespace StoreOp

/-- Whether a step of a queue has failed since its record was created, after one more operation. -/
def stepFailed (id : String) : StoreOp → Except Fault StoreAnswer → Bool → Bool
  | .createQueue created .., .ok _, failed => if created = id then false else failed
  | .updateStep updated _ updates, .ok _, failed =>
    if updated = id then failed || QueueRecord.toldStatus updates = some "failed" else failed
  | _, _, failed => failed

/-- Whether an operation completes the last step of a queue that has failed. -/
def overrules (s : QueueStore) (id : String) : StoreOp → Bool
  | .updateStep updated index updates =>
    updated = id && (s.get id).toOption.join.any fun r => r.overruled index updates
  | _ => false

theorem stepFailed_of_ne {op : StoreOp} {id : String} (h : op.queue? ≠ some id)
    (answer : Except Fault StoreAnswer) (failed : Bool) : op.stepFailed id answer failed = failed := by
  cases op <;> cases answer <;> simp_all [stepFailed, queue?]

end StoreOp

namespace QueueStore

variable {s s' : QueueStore} {op : StoreOp} {now : Stamp} {answer : Except Fault StoreAnswer} {id : String}
  {failed : Bool}

/-- **What is read of a queue stands as its steps do.** -/
def Stands (s : QueueStore) (id : String) (failed : Bool) : Prop :=
  ∀ r, s.get id = .ok (some r) → r.Stands failed

theorem stands_of_keep {r : QueueRecord} (h : r.Stands failed) (hkeep : s.keep r = .ok s') :
    s'.Stands r.id failed := by
  intro r' hread
  obtain ⟨held, hheld, hkept⟩ := read_of_keep hkeep hread
  exact h.of_outline (QueueRecord.outline_of_hold h.known hheld hkept)

/-- **An operation leaves a queue that stands as its steps do**, unless the queue is set from outside, or its
    last step is completed after a step has failed. -/
theorem Stands.change (h : s.Stands id failed) (hfiled : s.Filed)
    (hinside : ∀ status updates, op ≠ .updateQueue id status updates) (hlate : op.overrules s id = false)
    (hchange : s.Change now op answer s') : s'.Stands id (op.stepFailed id answer failed) := by
  by_cases hother : op.queue? ≠ some id
  · rw [StoreOp.stepFailed_of_ne hother]
    exact fun r hread => h r ((hfiled.get_of_ne hchange hother).symm.trans hread)
  replace hother : op.queue? = some id := by simpa using hother
  cases hchange with
  | none hnone =>
    rcases hnone with hspares | ⟨f, rfl⟩
    · cases op <;> simp [Call.sparesQueues, StoreOp.queue?] at hspares hother
    · cases op <;> exact h
  | @spoiled queue status updates =>
    obtain rfl : queue = id := Option.some.inj hother
    exact absurd rfl (hinside status updates)
  | @written _ r _ hmade hkeep =>
    obtain rfl : r.id = id := Option.some.inj ((hfiled.id_of_made hmade).symm.trans hother)
    -- the record that is kept stands as its steps do, however it was made
    have hr : r.Stands (op.stepFailed r.id (.ok (.queue (some r))) failed) := by
      cases hmade with
      | created hcreate =>
        rw [StoreOp.stepFailed, if_pos (Option.some.inj hother)]
        exact QueueRecord.stands_of_create hcreate
      | appended hread => exact (h _ (Option.some.inj hother ▸ hread)).appendStep _ _ _
      | @stepped queue index updates found _ hread hstep =>
        obtain rfl : queue = r.id := Option.some.inj hother
        rw [StoreOp.stepFailed, if_pos rfl]
        have hfound : found.overruled index updates = false := by
          simpa [StoreOp.overrules, hread, Except.toOption] using hlate
        exact (h _ hread).updateStep hfound hstep
      | @overridden queue status updates =>
        obtain rfl : queue = r.id := Option.some.inj hother
        exact absurd rfl (hinside status updates)
    exact fun r' hread => stands_of_keep hr hkeep r' (noted_get.symm.trans hread)

end QueueStore

namespace Stores

variable {s : Stores} {id : String}

/-- **Whether a step of a queue has failed** since its record was created, told from what operations in order
    answer. -/
def stepFailed (s : Stores) (id : String) : List TimedOp → Bool → Bool
  | [], failed => failed
  | c :: cs, failed => (s.carryOut c).2.stepFailed id cs (c.op.stepFailed id (s.carryOut c).1 failed)

/-- **Whether some operation completes the last step of a queue that has failed.** -/
def overruled (s : Stores) (id : String) : List TimedOp → Bool
  | [] => false
  | c :: cs => c.op.overrules s.queues id || (s.carryOut c).2.overruled id cs

theorem stands_after {cs : List TimedOp} {failed : Bool} (h : s.queues.Stands id failed) (hfiled : s.queues.Filed)
    (hinside : ∀ c ∈ cs, ∀ status updates, c.op ≠ .updateQueue id status updates)
    (hlate : s.overruled id cs = false) : (s.after cs).queues.Stands id (s.stepFailed id cs failed) := by
  induction cs generalizing s failed with
  | nil => exact h
  | cons c rest ih =>
    have hchange := s.queues_change c
    obtain ⟨hnow, hrest⟩ := Bool.or_eq_false_iff.mp hlate
    exact ih (h.change hfiled (hinside c List.mem_cons_self) hnow hchange) (hfiled.change hchange)
      (fun d hd => hinside d (.tail _ hd)) hrest

end Stores

/-- **A failed step fails its queue for good.** After operations in order, none of which sets the queue from
    outside or completes its last step when it has failed, a queue that is completed has no failed step; and
    when a step has failed since the queue was created, the queue has failed. -/
theorem failed_step_fails_queue {b : Backend} {cs : List TimedOp} {id : String} {r : QueueRecord}
    (hinside : ∀ c ∈ cs, ∀ status updates, c.op ≠ .updateQueue id status updates)
    (hlate : (Stores.empty b).overruled id cs = false)
    (hread : ((Stores.empty b).after cs).queues.get id = .ok (some r)) :
    (r.status = .completed → ∀ step ∈ r.steps, step.status ≠ .failed)
      ∧ ((Stores.empty b).stepFailed id cs false = true → r.status = .failed) := by
  have h : r.Stands ((Stores.empty b).stepFailed id cs false) :=
    Stores.stands_after (s := Stores.empty b) nofun (QueueStore.filed_empty b) hinside hlate r hread
  refine ⟨fun hcompleted step hstep hfailed => ?_, h.status⟩
  exact absurd (hcompleted.symm.trans (h.status (h.steps step hstep hfailed))) (by simp)

/-- A pipeline whose second step fails before the first is completed. -/
def spoiledPipeline : List TimedOp :=
  [⟨0, .createQueue "thumbnails" "images" "resize" "r-1" .null (.int 3)⟩,
    ⟨1, .appendStep "thumbnails" "upload" "u-1"⟩,
    ⟨2, .updateStep "thumbnails" (.int 1) [("status", .text "failed"), ("error", .text "no space")]⟩,
    ⟨3, .appendStep "thumbnails" "notify" "n-1"⟩,
    ⟨4, .updateStep "thumbnails" (.int 0) [("status", .text "completed")]⟩]

theorem spoiledPipeline_fails : ∃ r,
    (∀ c ∈ spoiledPipeline, ∀ status updates, c.op ≠ .updateQueue "thumbnails" status updates)
      ∧ (Stores.empty .redis).overruled "thumbnails" spoiledPipeline = false
      ∧ ((Stores.empty .redis).after spoiledPipeline).queues.get "thumbnails" = .ok (some r)
      ∧ (Stores.empty .redis).stepFailed "thumbnails" spoiledPipeline false = true ∧ r.status = .failed := by
  have hinside : ∀ c ∈ spoiledPipeline, ∀ status updates, c.op ≠ .updateQueue "thumbnails" status updates := by
    simp [spoiledPipeline]
  have hlate : (Stores.empty .redis).overruled "thumbnails" spoiledPipeline = false := by decide +kernel
  have hfound : (((Stores.empty .redis).after spoiledPipeline).queues.get "thumbnails").toOption.join.isSome
      = true := by decide +kernel
  have hfailed : (Stores.empty .redis).stepFailed "thumbnails" spoiledPipeline false = true := by decide +kernel
  cases hread : ((Stores.empty .redis).after spoiledPipeline).queues.get "thumbnails" with
  | error f => simp [hread, Except.toOption] at hfound
  | ok found =>
    cases found with
    | none => simp [hread, Except.toOption] at hfound
    | some r =>
      exact ⟨r, hinside, hlate, rfl, hfailed, (failed_step_fails_queue hinside hlate hread).2 hfailed⟩

/-- **Completing the last step of a queue that has failed** completes the queue. -/
theorem completed_of_overrules {s : Stores} {c : TimedOp} {id : String} {r' : QueueRecord}
    (h : c.op.overrules s.queues id = true) (hanswer : (s.carryOut c).1 = .ok (.queue (some r'))) :
    r'.status = .completed := by
  obtain ⟨clock, op⟩ := c
  have hchange := s.queues_change ⟨clock, op⟩
  rw [hanswer] at hchange
  generalize (s.carryOut ⟨clock, op⟩).2.queues = s' at hchange
  cases op with
  | updateStep updated index updates =>
    cases hchange with
    | none hnone => exact absurd hnone (by simp [Call.sparesQueues])
    | written hmade hkeep =>
      cases hmade with
      | stepped hread hstep =>
        obtain ⟨rfl, hover⟩ : updated = id ∧ _ := by simpa [StoreOp.overrules] using h
        rw [hread] at hover
        exact QueueRecord.completed_of_overruled (by simpa [Except.toOption] using hover) hstep
  | _ => exact absurd h (by simp [StoreOp.overrules])

end Runbook
