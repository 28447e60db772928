import Mathlib.Logic.Function.Basic
import Runbook.Proofs.Backends
import Runbook.Proofs.QueueHistory
import Runbook.Proofs.RunHistory

/-!
# `Proofs.LastWrites` — every write that was accepted is read again

A store that keeps documents reads a record out of its document each time it is asked for. As long as
operations are given plain data, it always can, and reads what the last operation on the record has left.
What was left is told from the answers alone.

The one exception is what is set of a queue from outside, which is not checked: a status that queues do not
have, or a time of completion that is no time, makes the document of the queue unreadable.

## Contents
- **Documents.** `Reads`, records that are read as they are known; queues whose time of completion can be
  read, `QueueRecord.Legible`.
- **Operations.** `StoreOp.IsPlain` and `StoreOp.IsReadable`; what operations leave, `Stores.leave`.
- **Steps.** For runs, jobs and queues: what each operation leaves is read after it.
- **Histories.** `Stores.ReadsAs.after` and `accepted_writes_are_read`.
-/

namespace Runbook

/-! ## Documents -/

section

variable {ρ : Type} [Recorded ρ] {key : ρ → String} {Plain : ρ → Prop} {settled : ρ → ρ} {b : Backend} {r : ρ}
  {entries : Keyed (Held ρ)} {known : String → Option ρ}

/-- **Records are read as they are known**: each that is known is plain, stands under its own key, and is read
    as a settled one. -/
def Reads (key : ρ → String) (Plain : ρ → Prop) (settled : ρ → ρ) (entries : Keyed (Held ρ))
    (known : String → Option ρ) : Prop :=
  ∀ id, entries.readHeld id = .ok ((known id).map settled) ∧ ∀ r ∈ known id, key r = id ∧ Plain r

/-- **A plain record that was put into a document** is read again. -/
theorem Reads.put (h : Reads key Plain settled entries known) (hfaithful : Faithful Plain settled)
    (hb : b ≠ .memory) (hr : Plain r) {held : Held ρ} (hheld : hold b r = .ok held) :
    Reads key Plain settled (entries.put (key r) held) (Function.update known (key r) (some r)) := by
  intro other
  by_cases hother : other = key r
  · subst hother
    obtain rfl := Except.ok.inj (hheld.symm.trans (hfaithful.hold_eq hb hr))
    rw [Function.update_self, Keyed.readHeld_put_self]
    refine ⟨?_, fun r' hr' => Option.some.inj hr' ▸ ⟨rfl, hr⟩⟩
    show some <$> decode (Recorded.toValue r) = _
    rw [decode, hfaithful.read r hr]
    rfl
  · rw [Function.update_of_ne hother, Keyed.readHeld_put_of_ne _ _ hother]
    exact h other

/-- What is read is a settled record that is known. -/
theorem Reads.known_of_read (h : Reads key Plain settled entries known) {id : String} {found : ρ}
    (hread : entries.readHeld id = .ok (some found)) : ∃ r, known id = some r ∧ key r = id ∧ Plain r
      ∧ found = settled r := by
  obtain ⟨hget, hknown⟩ := h id
  obtain ⟨r, hr, hsettled⟩ := Option.map_eq_some_iff.mp (Except.ok.inj (hget.symm.trans hread))
  exact ⟨r, hr, (hknown r hr).1, (hknown r hr).2, hsettled.symm⟩

theorem reads_nil : Reads key Plain settled [] fun _ => none := fun _ => ⟨rfl, nofun⟩

end

/-! ### Queues -/

/-- **A time of completion that is read again**: a stamp, or plain data that stand for one. -/
def Finish.Legible : Finish → Prop
  | .stamp s => s.Proper
  | .other v => v.isData = true ∧ ∃ s, Decode.stamp v = .ok s

namespace Finish

variable {f : Finish}

theorem Proper.legible (h : f.Proper) : f.Legible := by
  cases f with
  | stamp s => exact h
  | other v =>
    obtain ⟨s, hs, rfl⟩ := h
    exact ⟨rfl, s, Decode.stamp_toValue hs⟩

/-- A time of completion is read as the stamp that it stands for. -/
theorem Legible.dated_eq (h : f.Legible) :
    ∃ s : Stamp, s.Proper ∧ f.dated = .stamp s ∧ Decode.stamp f.toValue = .ok s ∧ f.toValue.isData = true := by
  cases f with
  | stamp s => exact ⟨s, h, rfl, Decode.stamp_toValue h, rfl⟩
  | other v =>
    obtain ⟨hdata, s, hs⟩ := h
    exact ⟨s, Decode.proper_of_stamp hs, by rw [dated, hs], hs, hdata⟩

end Finish

namespace QueueRecord

variable {r r' : QueueRecord} {status : Value} {updates : Keyed Value} {now : Stamp}

/-- **A queue record that is read again.** -/
structure Legible (r : QueueRecord) : Prop where
  rest : ({ r with completedAt := none } : QueueRecord).Plain
  completedAt : ∀ f ∈ r.completedAt, f.Legible

theorem Plain.legible (h : r.Plain) : r.Legible where
  rest := ⟨⟨h.status, h.steps, h.createdAt, h.updatedAt, nofun⟩, h.stepsPlain, h.metadata⟩
  completedAt f hf := (h.completedAt f hf).legible

/-- What is read of a record is plain. -/
theorem Legible.dated_plain (h : r.Legible) : r.dated.Plain where
  status := h.rest.status
  steps := h.rest.steps
  createdAt := h.rest.createdAt
  updatedAt := h.rest.updatedAt
  completedAt f hf := by
    obtain ⟨g, hg, rfl⟩ := Option.map_eq_some_iff.mp hf
    obtain ⟨s, hs, hdated, -⟩ := (h.completedAt g hg).dated_eq
    rw [hdated]
    exact hs
  stepsPlain := h.rest.stepsPlain
  metadata := h.rest.metadata

theorem Legible.toValue_isData (h : r.Legible) : r.toValue.isData = true := by
  have hfinish : (Finish.toValue? r.completedAt).isData = true := by
    cases hcompleted : r.completedAt with
    | none => rfl
    | some f =>
      obtain ⟨-, -, -, -, hdata⟩ := (h.completedAt f hcompleted).dated_eq
      exact hdata
  have hrest := h.rest.toValue_isData
  simp only [toValue, Value.isData, Value.allFieldsData, Bool.and_eq_true] at hrest ⊢
  obtain ⟨hid, hqueue, hstatus, hsteps, htotal, hmetadata, hcreated, hupdated, -, hend⟩ := hrest
  exact ⟨hid, hqueue, hstatus, hsteps, htotal, hmetadata, hcreated, hupdated, hfinish, hend⟩

theorem Legible.read (h : r.Legible) : ofValue r.toValue = .ok r.dated := by
  have hfinish : Decode.nullable (fun v => Finish.stamp <$> Decode.stamp v) (Finish.toValue? r.completedAt)
      = .ok (r.completedAt.map Finish.dated) := by
    cases hcompleted : r.completedAt with
    | none => rfl
    | some f =>
      obtain ⟨s, -, hdated, hread, -⟩ := (h.completedAt f hcompleted).dated_eq
      have hstamp : (Finish.stamp <$> Decode.stamp f.toValue : Checked Finish) = .ok (.stamp s) := by
        rw [hread]
        rfl
      rw [Option.map_some, hdated, Finish.toValue?]
      -- null would be read as no time at all, but it stands for no stamp
      generalize f.toValue = v at hread hstamp
      cases v with
      | null => exact absurd hread nofun
      | _ => exact (congrArg (Checked.map some) hstamp).trans rfl
  unfold toValue
  exact ofValue_eq_ok.mpr ⟨Decode.required_eq_ok rfl rfl, Decode.required_eq_ok rfl rfl,
    Decode.required_eq_ok rfl (QueueStatus.read_toValue h.rest.status),
    Decode.required_eq_ok rfl (QueueStepRecord.listOfValue_map h.rest.steps),
    Decode.option_eq_ok rfl (Decode.nullable_ofInt? _), Decode.required_eq_ok rfl rfl,
    Decode.required_eq_ok rfl (Decode.stamp_toValue h.rest.createdAt),
    Decode.required_eq_ok rfl (Decode.stamp_toValue h.rest.updatedAt),
    Decode.option_eq_ok rfl hfinish⟩

theorem faithful_legible : Faithful Legible dated := ⟨fun _ h => h.toValue_isData, fun _ h => h.read⟩

theorem Plain.appendStep (h : r.Plain) (workerId workerJobId : String) (hnow : now.Proper) :
    (r.appendStep workerId workerJobId now).Plain :=
  (Twin.appendStep ⟨h, h, rfl⟩ workerId workerJobId hnow).left

theorem Plain.updateStep (h : r.Plain) {index : Value} (hupdates : Value.allFieldsData updates = true)
    (hnow : now.Proper) (hr : r.updateStep index updates now = .ok r') : r'.Plain := by
  have hagree := Twin.updateStep ⟨h, h, rfl⟩ index hupdates hnow
  rw [hr] at hagree
  cases hagree with | ok htwin => exact htwin.left

/-- **What can be read again of a queue** when it is set from outside: a status that queues have, and a time of
    completion that is one. -/
structure Readable (status : Value) (updates : Keyed Value) : Prop where
  status : status = .null ∨ ∃ word ∈ QueueStatus.words, status = .text word
  finish : ∀ v, Update.newValue? updates "completed_at" = some v → ∃ s, Decode.stamp v = .ok s

theorem readable_of_stamp {word : String} (hword : word ∈ QueueStatus.words) {s : Stamp} (hs : s.Proper)
    (metadata : Value) : Readable (.text word) [("completed_at", s.toValue), ("metadata", metadata)] := by
  refine ⟨.inr ⟨word, hword, rfl⟩, fun v hv => ⟨s, ?_⟩⟩
  obtain rfl := Option.some.inj hv
  exact Decode.stamp_toValue hs

theorem Plain.override (h : r.Plain) (hupdates : Value.allFieldsData updates = true) (hnow : now.Proper)
    (hset : Readable status updates) (hr : r.override status updates now = (r', none)) : r'.Legible := by
  have hstatus : (r.withStatus status now).Plain := (Twin.withStatus ⟨h, h, rfl⟩ hnow hset.status).left
  obtain ⟨metadata, hoverlay, rfl⟩ := override_eq_none.mp hr
  -- metadata are checked when they are laid over; the status and the time of completion never are
  have hgiven : ((updates.get? "metadata").getD .null).isData = true := by
    cases hv : updates.get? "metadata" with
    | none => rfl
    | some v => exact Value.isData_of_get? hupdates hv
  have hmetadata := Update.overlay_isData hstatus.metadata hgiven hoverlay
  unfold withFinish
  split
  · next v hv =>
    refine ⟨⟨⟨hstatus.status, hstatus.steps, hstatus.createdAt, hnow, nofun⟩, hstatus.stepsPlain, hmetadata⟩, ?_⟩
    rintro _ ⟨⟩
    exact ⟨Update.isData_of_newValue? hupdates hv, hset.finish v hv⟩
  · refine ⟨⟨⟨hstatus.status, hstatus.steps, hstatus.createdAt, hnow, nofun⟩, hstatus.stepsPlain, hmetadata⟩, ?_⟩
    exact fun f hf => (hstatus.completedAt f hf).legible

end QueueRecord

/-! ## Operations -/

namespace StoreOp

/-- **Operations with plain data.** -/
def IsPlain : StoreOp → Prop
  | .setRun _ updates | .setJob _ updates | .updateJob _ updates | .updateStep _ _ updates
  | .updateQueue _ _ updates => Value.allFieldsData updates = true
  | .createQueue _ _ _ _ metadata _ => metadata.isData = true
  | _ => True

/-- **Operations that set of a queue from outside** only what can be read again. -/
def IsReadable : StoreOp → Prop
  | .updateQueue _ status updates => QueueRecord.Readable status updates
  | _ => True

/-! ### What they leave -/

/-- What is known of runs after an operation, told from its answer. -/
def leavesRun : StoreOp → Except Fault StoreAnswer → (String → Option RunRecord) → (String → Option RunRecord)
  | .setRun id _, .ok (.run r), known => Function.update known id r
  | _, _, known => known

theorem leavesRun_of_spared (op : StoreOp) {answer : Except Fault StoreAnswer} {known : String → Option RunRecord}
    (h : (Call.store op).writesRun = false ∨ ∃ f, answer = .error f) : op.leavesRun answer known = known := by
  rcases h with hspares | ⟨f, rfl⟩
  · cases op <;> first | rfl | exact absurd hspares nofun
  · cases op <;> rfl

/-- What is known of jobs after an operation, told from its answer. -/
def leavesJob (now : Stamp) :
    StoreOp → Except Fault StoreAnswer → (String → Option JobRecord) → (String → Option JobRecord)
  | .setJob id _, .ok (.job r), known | .updateJob id _, .ok (.job r), known => Function.update known id r
  | .addInternalJob id child, .ok _, known =>
    Function.update known id ((known id).map fun r => r.addInternal child now)
  | _, _, known => known

theorem leavesJob_of_spared (op : StoreOp) {now : Stamp} {answer : Except Fault StoreAnswer}
    {known : String → Option JobRecord} (h : op.writesJob = false ∨ ∃ f, answer = .error f) :
    op.leavesJob now answer known = known := by
  rcases h with hspares | ⟨f, rfl⟩
  · cases op <;> first | rfl | exact absurd hspares nofun
  · cases op <;> rfl

/-- What is known of queues after an operation, told from its answer. -/
def leavesQueue :
    StoreOp → Except Fault StoreAnswer → (String → Option QueueRecord) → (String → Option QueueRecord)
  | .createQueue id .., .ok (.queue r), known | .appendStep id .., .ok (.queue r), known
  | .updateStep id .., .ok (.queue r), known | .updateQueue id .., .ok (.queue r), known =>
    Function.update known id r
  | _, _, known => known

theorem leavesQueue_of_spared (op : StoreOp) {answer : Except Fault StoreAnswer}
    {known : String → Option QueueRecord} (h : (Call.store op).sparesQueues = true ∨ ∃ f, answer = .error f) :
    op.leavesQueue answer known = known := by
  rcases h with hspares | ⟨f, rfl⟩
  · cases op <;> first | rfl | exact absurd hspares nofun
  · cases op <;> rfl

end StoreOp

/-- **What operations have left** under every id. -/
structure Left where
  runs : String → Option RunRecord
  jobs : String → Option JobRecord
  queues : String → Option QueueRecord

/-- Nothing was left yet. -/
def Left.nothing : Left := ⟨fun _ => none, fun _ => none, fun _ => none⟩

/-- What is left after one more operation, told from its answer. -/
def Left.after (left : Left) (c : TimedOp) (answer : Except Fault StoreAnswer) : Left where
  runs := c.op.leavesRun answer left.runs
  jobs := c.op.leavesJob (.ofMicros c.clock) answer left.jobs
  queues := c.op.leavesQueue answer left.queues

/-- **What operations in order leave**, told from their answers alone. -/
def Stores.leave (s : Stores) : List TimedOp → Left → Left
  | [], left => left
  | c :: cs, left => (s.carryOut c).2.leave cs (left.after c (s.carryOut c).1)

/-! ## Steps -/

/-! ### Runs -/

namespace RunStore

variable {s s' : RunStore} {now : Stamp} {op : StoreOp} {answer : Except Fault StoreAnswer}
  {known : String → Option RunRecord}

/-- **The runs are read as they are known.** -/
def ReadsAs (s : RunStore) : (String → Option RunRecord) → Prop :=
  Reads RunRecord.runId RunRecord.Plain id s.records

theorem ReadsAs.change (h : s.ReadsAs known) (hb : s.backend ≠ .memory) (hnow : now.Proper)
    (hplain : op.IsPlain) (hchange : s.Change now op answer s') : s'.ReadsAs (op.leavesRun answer known) := by
  cases hchange with
  | none hnone => rwa [op.leavesRun_of_spared hnone]
  | @written runId updates existing r _ hread hr hkeep =>
    obtain ⟨hget, hknown⟩ := h runId
    rw [Option.map_id] at hget
    obtain rfl := Except.ok.inj (hread.symm.trans hget)
    obtain ⟨held, hheld, rfl⟩ := keep_eq_ok.mp hkeep
    have hr' := RunRecord.plain_of_update (fun e he => (hknown e he).2) hplain hnow hr
    obtain rfl := RunRecord.runId_of_update hr
    exact h.put RunRecord.faithful hb hr' hheld

end RunStore

/-! ### Jobs -/

namespace JobStore

variable {s s' : JobStore} {now : Stamp} {op : StoreOp} {answer : Except Fault StoreAnswer}
  {known : String → Option JobRecord}

/-- **The jobs are read as they are known.** -/
def ReadsAs (s : JobStore) : (String → Option JobRecord) → Prop :=
  Reads JobRecord.jobId JobRecord.Plain id s.records

theorem ReadsAs.wrote (h : s.ReadsAs known) (hb : s.backend ≠ .memory) {r : JobRecord} (hr : r.Plain)
    (hwrote : s.Wrote r s') : s'.ReadsAs (Function.update known r.jobId (some r)) := by
  obtain ⟨held, hheld, hrecords⟩ := hwrote.records
  unfold ReadsAs
  rw [hrecords]
  exact h.put JobRecord.faithful hb hr hheld

theorem ReadsAs.answers (h : s.ReadsAs known) (hb : s.backend ≠ .memory) (hnow : now.Proper)
    (hplain : op.IsPlain) (hanswers : s.Answers now op answer s') :
    s'.ReadsAs (op.leavesJob now answer known) := by
  cases hanswers with
  | none hnone => rwa [op.leavesJob_of_spared hnone]
  | @written _ jobId updates existing r _ hop hread hr hwrote =>
    obtain ⟨hget, hknown⟩ := h jobId
    rw [Option.map_id] at hget
    obtain rfl := Except.ok.inj (hread.symm.trans hget)
    have hupdates : Value.allFieldsData updates = true := by
      rcases hop with rfl | rfl <;> exact hplain
    have hr' := JobRecord.plain_of_update (fun e he => (hknown e he).2) hupdates hnow hr
    have hleaves : op.leavesJob now (.ok (.job (some r))) known = Function.update known jobId (some r) := by
      rcases hop with rfl | rfl <;> rfl
    rw [hleaves, ← JobRecord.jobId_of_update hr]
    exact h.wrote hb hr' hwrote
  | @child jobId child parent _ hread hwrote =>
    -- the parent is written under its own id, which is the one that it was read by
    obtain ⟨r, hr, hid, hr', rfl⟩ := h.known_of_read hread
    have hleaves : (StoreOp.addInternalJob jobId child).leavesJob now (.ok .nothing) known
        = Function.update known jobId (some (parent.addInternal child now)) := by
      rw [StoreOp.leavesJob, hr]
      rfl
    rw [hleaves, ← hid]
    exact h.wrote hb (hr'.addInternal child hnow) hwrote

end JobStore

/-! ### Queues -/

namespace QueueStore

variable {s s' : QueueStore} {now : Stamp} {op : StoreOp} {answer : Except Fault StoreAnswer}
  {known : String → Option QueueRecord} {r : QueueRecord}

/-- **The queues are read as they are known**, with a stamp for the time of completion. -/
def ReadsAs (s : QueueStore) : (String → Option QueueRecord) → Prop :=
  Reads QueueRecord.id QueueRecord.Legible QueueRecord.dated s.records

/-- What is read of a queue is plain, and stands under its own id. -/
theorem ReadsAs.plain_of_read (h : s.ReadsAs known) {id : String} (hread : s.get id = .ok (some r)) :
    r.Plain ∧ r.id = id := by
  obtain ⟨left, -, hid, hleft, rfl⟩ := h.known_of_read hread
  exact ⟨hleft.dated_plain, hid⟩

/-- **The record that an operation makes** is read again. -/
theorem ReadsAs.legible_of_made (h : s.ReadsAs known) (hnow : now.Proper) (hplain : op.IsPlain)
    (hreadable : op.IsReadable) (hmade : op.MakesQueue s now r) : r.Legible := by
  cases hmade with
  | created hcreate => exact (QueueRecord.plain_of_create hplain hnow hcreate).legible
  | appended hread => exact ((h.plain_of_read hread).1.appendStep _ _ hnow).legible
  | stepped hread hstep => exact ((h.plain_of_read hread).1.updateStep hplain hnow hstep).legible
  | overridden hread hset => exact (h.plain_of_read hread).1.override hplain hnow hreadable hset

/-- The record that an operation makes is known after it. -/
theorem ReadsAs.leaves_of_made (h : s.ReadsAs known) (hmade : op.MakesQueue s now r) :
    op.leavesQueue (.ok (.queue (some r))) known = Function.update known r.id (some r) := by
  cases hmade with
  | created hcreate => rw [QueueRecord.create_id hcreate, StoreOp.leavesQueue]
  | @appended id workerId workerJobId found hread =>
    have hid : (found.appendStep workerId workerJobId now).id = id := (h.plain_of_read hread).2
    rw [hid, StoreOp.leavesQueue]
  | stepped hread hstep =>
    rw [QueueRecord.updateStep_id hstep, (h.plain_of_read hread).2, StoreOp.leavesQueue]
  | overridden hread hset =>
    rw [QueueRecord.override_id hset, (h.plain_of_read hread).2, StoreOp.leavesQueue]

theorem ReadsAs.change (h : s.ReadsAs known) (hb : s.backend ≠ .memory) (hnow : now.Proper)
    (hplain : op.IsPlain) (hreadable : op.IsReadable) (hchange : s.Change now op answer s') :
    s'.ReadsAs (op.leavesQueue answer known) := by
  cases hchange with
  | none hnone => rwa [op.leavesQueue_of_spared hnone]
  | written hmade hkeep =>
    obtain ⟨held, hheld, hrecords⟩ := records_of_keep hkeep
    unfold ReadsAs
    rw [noted_records, hrecords, h.leaves_of_made hmade]
    exact h.put QueueRecord.faithful_legible hb (h.legible_of_made hnow hplain hreadable hmade) hheld
  | spoiled hmemory =>
    -- only a live record is changed in place
    exact absurd hmemory hb

end QueueStore

/-! ## Histories -/

namespace Stores

variable {s : Stores} {left : Left}

/-- **The stores are read as operations have left them.** -/
structure ReadsAs (s : Stores) (left : Left) : Prop where
  runs : s.runs.ReadsAs left.runs
  jobs : s.jobs.ReadsAs left.jobs
  queues : s.queues.ReadsAs left.queues

/-- **Stores that hold documents.** -/
structure Documents (s : Stores) : Prop where
  runs : s.runs.backend ≠ .memory
  jobs : s.jobs.backend ≠ .memory
  queues : s.queues.backend ≠ .memory

theorem ReadsAs.carryOut (h : s.ReadsAs left) (hdocs : s.Documents) {c : TimedOp}
    (hclock : c.clock < Stamp.lastMicro) (hplain : c.op.IsPlain) (hreadable : c.op.IsReadable) :
    (s.carryOut c).2.ReadsAs (left.after c (s.carryOut c).1) ∧ (s.carryOut c).2.Documents := by
  have hnow := Stamp.proper_ofMicros hclock
  have hruns := s.runs_change c
  have hjobs := s.jobs_answers c
  have hqueues := s.queues_change c
  exact ⟨⟨h.runs.change hdocs.runs hnow hplain hruns, h.jobs.answers hdocs.jobs hnow hplain hjobs,
    h.queues.change hdocs.queues hnow hplain hreadable hqueues⟩,
    ⟨hruns.backend_eq ▸ hdocs.runs, hjobs.backend_eq ▸ hdocs.jobs, hqueues.backend_eq ▸ hdocs.queues⟩⟩

/-- **Operations in order** leave stores that are read as they left them. -/
theorem ReadsAs.after (h : s.ReadsAs left) (hdocs : s.Documents) {cs : List TimedOp}
    (hclock : ∀ c ∈ cs, c.clock < Stamp.lastMicro) (hplain : ∀ c ∈ cs, c.op.IsPlain)
    (hreadable : ∀ c ∈ cs, c.op.IsReadable) : (s.after cs).ReadsAs (s.leave cs left) := by
  induction cs generalizing s left with
  | nil => exact h
  | cons c rest ih =>
    obtain ⟨h', hdocs'⟩ := h.carryOut hdocs (hclock c List.mem_cons_self) (hplain c List.mem_cons_self)
      (hreadable c List.mem_cons_self)
    exact ih h' hdocs' (fun d hd => hclock d (.tail _ hd)) (fun d hd => hplain d (.tail _ hd))
      fun d hd => hreadable d (.tail _ hd)

end Stores

/-- **Every write that was accepted is read again.** After operations in order, with plain data and with
    nothing set of a queue that cannot be read, a store that keeps documents answers for every run and every
    job the record that was left of it, and for every queue this record with a stamp for its time of
    completion. -/
theorem accepted_writes_are_read {b : Backend} (hb : b ≠ .memory) {cs : List TimedOp}
    (hclock : ∀ c ∈ cs, c.clock < Stamp.lastMicro) (hplain : ∀ c ∈ cs, c.op.IsPlain)
    (hreadable : ∀ c ∈ cs, c.op.IsReadable) (clock : Clock) (id : String) :
    let s := (Stores.empty b).after cs
    let left := (Stores.empty b).leave cs .nothing
    (s.carryOut ⟨clock, .getRun id⟩).1 = .ok (.run (left.runs id))
      ∧ (s.carryOut ⟨clock, .getJob id⟩).1 = .ok (.job (left.jobs id))
      ∧ (s.carryOut ⟨clock, .getQueue id⟩).1 = .ok (.queue ((left.queues id).map QueueRecord.dated)) := by
  intro s left
  have hempty : (Stores.empty b).ReadsAs .nothing := ⟨reads_nil, reads_nil, reads_nil⟩
  have h : s.ReadsAs left := hempty.after ⟨hb, hb, hb⟩ hclock hplain hreadable
  have hopen : s.isOpen = true := ((Stores.working_empty b).after cs).isOpen
  have hanswer (op : StoreOp) : (s.carryOut ⟨clock, op⟩).1 = (s.performOpen (.ofMicros clock) op).1 :=
    congrArg Prod.fst (if_pos hopen)
  have hrun : s.runs.get id = .ok (left.runs id) := (h.runs id).1.trans (by rw [Option.map_id]; rfl)
  have hjob : s.jobs.get id = .ok (left.jobs id) := (h.jobs id).1.trans (by rw [Option.map_id]; rfl)
  have hqueue : s.queues.get id = .ok ((left.queues id).map QueueRecord.dated) := (h.queues id).1
  refine ⟨?_, ?_, ?_⟩
  · rw [hanswer, Stores.performOpen, Stores.reading, hrun]
    rfl
  · rw [hanswer, Stores.performOpen, Stores.reading, hjob]
    rfl
  · rw [hanswer, Stores.performOpen, Stores.reading, hqueue]
    rfl

/-- A run, a job and a queue of one batch; the queue is ended from outside. -/
def batchEndedFromOutside : List TimedOp :=
  [⟨0, .setRun "batch" [("status", .text "running"), ("metadata", .object [("attempt", .int 1)])]⟩,
    ⟨1, .setJob "batch" [("worker_id", .text "resize"), ("status", .text "running")]⟩,
    ⟨2, .addInternalJob "batch" ⟨"part", "resize"⟩⟩,
    ⟨3, .createQueue "batch" "images" "resize" "batch" .null (.int 2)⟩,
    ⟨4, .updateQueue "batch" (.text "partial")
      [("completed_at", (Stamp.ofMicros 0).toValue), ("metadata", .object [("reason", .text "manual")])]⟩,
    ⟨5, .appendStep "batch" "upload" "part"⟩]

theorem batchEndedFromOutside_is_read :
    (∀ c ∈ batchEndedFromOutside, c.clock < Stamp.lastMicro) ∧ (∀ c ∈ batchEndedFromOutside, c.op.IsPlain)
      ∧ (∀ c ∈ batchEndedFromOutside, c.op.IsReadable)
      ∧ (let s := (Stores.empty .sqlite).after batchEndedFromOutside
        let left := (Stores.empty .sqlite).leave batchEndedFromOutside .nothing
        (s.carryOut ⟨6, .getRun "batch"⟩).1 = .ok (.run (left.runs "batch"))
          ∧ (s.carryOut ⟨6, .getJob "batch"⟩).1 = .ok (.job (left.jobs "batch"))
          ∧ (s.carryOut ⟨6, .getQueue "batch"⟩).1
            = .ok (.queue ((left.queues "batch").map QueueRecord.dated))) := by
  have hclock : ∀ c ∈ batchEndedFromOutside, c.clock < Stamp.lastMicro := by decide
  have hplain : ∀ c ∈ batchEndedFromOutside, c.op.IsPlain := by
    simp [batchEndedFromOutside, StoreOp.IsPlain, Value.allFieldsData, Value.isData, Stamp.toValue]
  have hstart : (Stamp.ofMicros 0).Proper := Stamp.proper_ofMicros (by decide)
  have hpartial : QueueRecord.Readable (.text "partial")
      [("completed_at", (Stamp.ofMicros 0).toValue), ("metadata", .object [("reason", .text "manual")])] :=
    QueueRecord.readable_of_stamp (by decide) hstart _
  have hreadable : ∀ c ∈ batchEndedFromOutside, c.op.IsReadable := by
    simp [batchEndedFromOutside, StoreOp.IsReadable, hpartial]
  have hread := accepted_writes_are_read (b := .sqlite) (by decide) hclock hplain hreadable 6 "batch"
  exact ⟨hclock, hplain, hreadable, hread⟩

end Runbook
