import Runbook.Proofs.Outputs
import Runbook.Proofs.Redeliveries

/-!
# `Proofs.Mirrors` — what is seen of a job is recorded

A look at the status of a remote job writes what it has seen into the record of the job, and does not say when that
fails. The record knows fewer statuses than a look understands, and reads errors that a look hands on as they
are. So a look is mirrored as far as the record can follow it; where it cannot, the record stays behind.

## Contents
- **Passes.** `Program.Passes.heeds`, what a program heeds while others act; `Stores.Keeps.passes_aside`, calls
  that leave the stores alone.
- **Observations.** `Observation.updates`, what is written of one, and `observe_eq_ok`.
- **Records.** `JobRecord.update_seen` and `JobRecord.update_unseen`: what the record takes over, and what it
  cannot take.
- **Writes.** `Stores.Keeps.passes_refused`, a write that cannot be made; `passes_recordJob`.
- **The result.** `look_mirrored`.
-/

namespace Runbook

section

variable {σ α : Type} {R : σ → (c : Call) → c.Answer → σ → Prop} {P : σ → Call → Prop} {id : String}
  {b : Backend} {found : Option JobRecord} {w w' : World} {ds : List Deed}

/-! ## Passes -/

/-- **What a program heeds holds at its end**, also when it passes amid others. -/
theorem Program.Passes.heeds {Q : α → σ → Prop} {p : Program α} {a : α} {s s' : σ}
    (h : Program.Passes id p w ds a w') (hp : p.Heeds R P Q s) (hs : Follows R s ds s') : Q a s' := by
  induction h generalizing s with
  | done => exact hs.eq_of_nil ▸ hp
  | ask _ _ ih =>
    obtain ⟨s₁, hfirst, hrest⟩ := hs.of_cons
    exact ih (hp.2 _ s₁ hfirst) hrest

/-- What an action yields, told only what can be written down. -/
theorem Action.Passes.yields {a : Action α} {Good : α → Prop} {v : α} (h : a.Passes id w ds (.ok v) w')
    (ha : a.Yields Good) (hplain : ∀ d ∈ ds, d.call.Plain d.answer) : Good v := by
  have hfollows : Follows PlainStep () ds () := by
    clear h
    induction ds with
    | nil => exact .nil
    | cons d ds ih => exact .cons (hplain d List.mem_cons_self) (ih fun e he => hplain e (.tail _ he))
  exact Program.Passes.heeds h ha hfollows v rfl

/-- **A program that leaves the stores alone** leaves what they keep of a job. -/
theorem Stores.Keeps.passes_aside {p : Program α} {a : α} (h : w.stores.Keeps b id found)
    (hpasses : Program.Passes id p w ds a w') (hp : p.Makes fun c => c.usesStore = false) :
    w'.stores.Keeps b id found := by
  induction hpasses with
  | done => exact h
  | ask first _ ih => exact ih (h.amid first hp.1) (hp.2 _)

end

/-! ## Observations -/

/-- What is written into the record of a job when it was seen. -/
def Observation.updates (o : Observation) (worker : String) : Keyed Value :=
  [("worker_id", .text worker), ("status", .ofText? o.status), ("output", o.output), ("error", o.error),
    ("metadata", .object o.metadata)]

/-- **What is observed** are the parts of the reply. -/
theorem Dispatch.observe_eq_ok {status output error metadata : Value} {o : Observation}
    (h : Fault.ofChecked Observation.structureName (Observation.ofFields
      [("status", status), ("output", output), ("error", error),
        ("metadata", if metadata.truthy then metadata else .object [])]) = .ok o)
    (hstatus : status ≠ .null) :
    (∃ word, o.status = some word) ∧ o.output = output ∧ o.error = error
      ∧ (metadata = .object o.metadata ∨ o.metadata = []) := by
  obtain ⟨hword, houtput, herror, hmetadata⟩ := Observation.ofFields_eq_ok (Fault.ofChecked_eq_ok.mp h)
  simp only [Decode.option, Decode.optional, Decode.FieldName.find?, Decode.FieldName.plain, Keyed.get?,
    String.reduceEq, ↓reduceIte, Checked.under_eq_ok, Decode.anything, Checked.ok.injEq]
    at hword houtput herror hmetadata
  refine ⟨?_, houtput.symm, herror.symm, ?_⟩
  · cases hs : o.status with
    | some word => exact ⟨word, rfl⟩
    | none =>
      -- only null would be read as nothing
      rw [hs] at hword
      cases status with
      | null => exact absurd rfl hstatus
      | _ => cases hword
  · split at hmetadata
    · cases metadata <;> simp only [Decode.dictionary, Checked.complain, Checked.ok.injEq, reduceCtorEq]
        at hmetadata
      exact .inl (by rw [hmetadata])
    · exact .inr (Checked.ok.inj hmetadata).symm

/-- What is observed of a reply that can be written down can be, too. -/
theorem Observation.updates_writable {data : Value} {o : Observation} {worker : String}
    (houtput : o.output = data.getD "output") (herror : o.error = data.getD "error")
    (hmetadata : data.getD "metadata" = .object o.metadata ∨ o.metadata = []) (hdata : data.unwritable? = none) :
    Value.unwritableField? (o.updates worker) = none := by
  have hpart (key : String) : (data.getD key).unwritable? = none := Value.unwritable?_getD hdata key
  have hstatus (s : Option String) : (Value.ofText? s).unwritable? = none := by cases s <;> rfl
  have hfields : Value.unwritableField? o.metadata = none := by
    rcases hmetadata with hgiven | hnone
    · have hobject := hpart "metadata"
      rw [hgiven] at hobject
      exact hobject
    · rw [hnone]
      rfl
  simp [updates, Value.unwritableField?, Value.unwritable?, hstatus, houtput, herror, hpart, hfields]

/-! ## Records -/

/-- **The output that a record shows** after its job was seen: null is no new output. -/
def JobRecord.outputSeen (existing : Option JobRecord) (o : Observation) : Value :=
  if o.output.isNull then (existing.map JobRecord.output).getD .null else o.output

namespace JobRecord

variable {existing : Option JobRecord} {id worker : String} {o : Observation}

theorem isTerminal_getD (hopen : ∀ r ∈ existing, r.isTerminal = false) (id : String) (now : Stamp) :
    (existing.getD (start id now)).isTerminal = false := by
  cases existing with
  | none => rfl
  | some e => exact hopen e rfl

/-- **What is laid over a job that has not ended** when it was seen: its error must be readable. -/
theorem overlays_seen {base : JobRecord} (hopen : base.isTerminal = false) (o : Observation) (worker : String) :
    base.overlays (o.updates worker)
      = (ErrorInfo.ofUpdate? o.error).map fun e => ⟨base.metadata.putAll o.metadata, e, none⟩ := by
  have hmetadata : Update.overlay base.metadata (.object o.metadata)
      = .ok (base.metadata.putAll o.metadata) := by
    cases o.metadata <;> rfl
  cases herror : ErrorInfo.ofUpdate? o.error with
  | error f =>
    simp [overlays, Observation.updates, hopen, herror, bind, Except.bind, pure, Except.pure, Except.map]
  | ok e =>
    simp [overlays, Observation.updates, hopen, herror, hmetadata, bind, Except.bind, pure, Except.pure,
      Except.map]

theorem status_seen {word : String} (h : o.status = some word) (worker : String) (old : JobStatus) :
    Update.field (o.updates worker) "status" old JobStatus.ofValue
      = (JobStatus.ofValue (.text word)).under (.name "status") := by
  simp [Update.field, Update.newValue?, Observation.updates, Keyed.get?, h, Value.present?, Value.ofText?]

/-- **A job is recorded as it was seen**, when records know its status and its error can be read. -/
theorem update_seen {s : JobStatus} {e : Option ErrorInfo} (hopen : ∀ r ∈ existing, r.isTerminal = false)
    (hstatus : o.status = some s.word) (herror : ErrorInfo.ofUpdate? o.error = .ok e) (worker : String)
    (now : Stamp) :
    ∃ r, update existing id (o.updates worker) now = .ok r ∧ r.status = s ∧ r.error = e
      ∧ r.output = outputSeen existing o := by
  have hbase := isTerminal_getD hopen id now
  have hoverlays := overlays_seen hbase o worker
  rw [herror, Except.map] at hoverlays
  have hread : Update.field (o.updates worker) "status" (existing.getD (start id now)).status JobStatus.ofValue
      = .ok s := by
    rw [status_seen hstatus, JobStatus.ofValue_word]
    rfl
  have hworker : Update.field (o.updates worker) "worker_id" (existing.getD (start id now)).workerId Decode.text
      = .ok worker := rfl
  obtain ⟨r, hr, hrstatus, hrerror, hroutput⟩ := update_stage hbase hoverlays rfl hworker hread rfl rfl
  refine ⟨r, hr, hrstatus, hrerror, hroutput.trans ?_⟩
  have hnew : Update.newValue? (o.updates worker) "output" = Value.present? (some o.output) := by
    simp [Update.newValue?, Observation.updates, Keyed.get?]
  have hold : (existing.getD (start id now)).output = (existing.map JobRecord.output).getD .null := by
    cases existing <;> rfl
  rw [hnew, hold, outputSeen]
  cases o.output <;> rfl

/-- **A job is not recorded** when no record knows its status, or when its error cannot be read. -/
theorem update_unseen {word : String} (hopen : ∀ r ∈ existing, r.isTerminal = false)
    (hstatus : o.status = some word)
    (h : (∀ s : JobStatus, word ≠ s.word) ∨ ∃ f, ErrorInfo.ofUpdate? o.error = .error f) (now : Stamp) :
    ∃ f, update existing id (o.updates worker) now = .error f := by
  cases hupdate : update existing id (o.updates worker) now with
  | error f => exact ⟨f, rfl⟩
  | ok r =>
    exfalso
    have hbase := isTerminal_getD hopen id now
    obtain ⟨overlay, r₀, hoverlays, hrevise, -⟩ := update_eq_ok.mp hupdate
    rw [hbase, if_neg Bool.false_ne_true] at hrevise
    rcases h with hunknown | ⟨f, hf⟩
    · obtain ⟨_, status, _, _, _, _, _, -, hread, -⟩ := revise_eq_ok.mp hrevise
      rw [status_seen hstatus, Checked.under_eq_ok, JobStatus.ofValue] at hread
      split at hread
      · next s hs => exact hunknown s (by simpa [eq_comm] using List.find?_some hs)
      · exact nomatch hread
    · rw [overlays_seen hbase, hf] at hoverlays
      exact nomatch hoverlays

end JobRecord

/-! ## Writes -/

section

variable {settings : DispatchSettings} {worker id : String} {b : Backend} {found : Option JobRecord}
  {w w' : World} {ds : List Deed} {o : Observation}

/-- **A write that cannot be made** leaves what is kept of the job. -/
theorem Stores.Keeps.passes_refused {updates : Keyed Value} {answer : Except Fault Unit}
    (h : w.stores.Keeps b id found) (hpasses : (Action.setJob id updates).Passes id w ds answer w')
    (hrefused : ∃ f, JobRecord.update found id updates w'.stamp = .error f) : w'.stores.Keeps b id found := by
  obtain ⟨_, hstore, -⟩ := Action.Passes.of_map hpasses
  obtain ⟨_, u, -, -, hsame, -, hperform⟩ := hstore.of_store
  have hkept := h.sameJob hsame
  obtain ⟨f, hf⟩ := hrefused
  rw [Stores.perform_setJob, if_pos hkept.isOpen, hkept.get] at hperform
  simp only [JobStore.revision, bind, Except.bind, hf] at hperform
  exact (Prod.mk.inj hperform).2 ▸ hkept

/-- **What is kept of a job that was seen**: a record of how it was seen, or what was kept before, when nothing
    was known of it, or when the record cannot follow. -/
inductive Mirrored (b : Backend) (found : Option JobRecord) (o : Observation) : Option JobRecord → Prop
  | recorded {r : JobRecord} (hstatus : o.status = some r.status.word)
      (herror : ErrorInfo.ofUpdate? o.error = .ok r.error)
      (houtput : r.output = b.keeps (JobRecord.outputSeen found o)) : Mirrored b found o (some r)
  | unknown (hstatus : o.status = some "queued") : Mirrored b found o found
  | behind (h : (∀ s : JobStatus, o.status ≠ some s.word) ∨ ∃ f, ErrorInfo.ofUpdate? o.error = .error f) :
      Mirrored b found o found

/-- **The write of what was seen** is made, or it cannot be made; either way, that is all. -/
theorem Stores.Keeps.passes_recordJob {answer : Except Fault Unit} {word : String} (h : w.stores.Keeps b id found)
    (hopen : ∀ r ∈ found, r.isTerminal = false)
    (hpasses : (Dispatch.recordJob worker id o).Passes id w ds answer w') (hstatus : o.status = some word)
    (hwritable : b ≠ .memory → Value.unwritableField? (o.updates worker) = none) :
    ∃ found', w'.stores.Keeps b id found' ∧ Mirrored b found o found' := by
  obtain ⟨_, hlift, -⟩ := Action.Passes.of_map hpasses
  obtain ⟨_, w₁, es, _, -, hset, hend⟩ := Program.Passes.of_bind hlift
  obtain ⟨-, -, hw⟩ := hend.of_done
  rw [hw]
  have hset : (Action.setJob id (o.updates worker)).Passes id w es _ w₁ := hset
  by_cases hseen : (∃ s : JobStatus, word = s.word) ∧ ∃ e, ErrorInfo.ofUpdate? o.error = .ok e
  · obtain ⟨⟨s, rfl⟩, e, he⟩ := hseen
    obtain ⟨r, hr, rfl, rfl, hroutput⟩ := JobRecord.update_seen hopen hstatus he worker w₁.stamp
    obtain ⟨-, -, hkeeps⟩ := h.passes_setJob hset hr fun hb =>
      JobRecord.Writable.update (h.writable_base w₁.stamp hb) (hwritable hb) hr
    exact ⟨_, hkeeps, .recorded hstatus he (congrArg b.keeps hroutput)⟩
  · have hunseen : (∀ s : JobStatus, word ≠ s.word) ∨ ∃ f, ErrorInfo.ofUpdate? o.error = .error f := by
      by_cases hknown : ∃ s : JobStatus, word = s.word
      · cases herror : ErrorInfo.ofUpdate? o.error with
        | error f => exact .inr ⟨f, rfl⟩
        | ok e => exact absurd ⟨hknown, e, herror⟩ hseen
      · exact .inl fun s hs => hknown ⟨s, hs⟩
    refine ⟨found, h.passes_refused hset (JobRecord.update_unseen hopen hstatus hunseen _), .behind ?_⟩
    rw [hstatus]
    exact hunseen.imp_left fun hne s hs => hne s (Option.some.inj hs)

/-- **A look that shows something**, from the request to the record. -/
theorem Stores.Keeps.passes_lookAtJob (h : w.stores.Keeps b id found) (hopen : ∀ r ∈ found, r.isTerminal = false)
    (hpasses : (Dispatch.lookAtJob settings worker id).Passes id w ds (.ok o) w')
    (hplain : b ≠ .memory → ∀ d ∈ ds, d.call.Plain d.answer) :
    ∃ found', w'.stores.Keeps b id found' ∧ Mirrored b found o found' := by
  unfold Dispatch.lookAtJob at hpasses
  obtain ⟨reply, w₁, es, fs, rfl, hreply, hshown⟩ | ⟨f, hf, -⟩ := Action.Passes.of_bind hpasses
  swap
  · exact absurd hf (by simp)
  have hkeeps₁ : w₁.stores.Keeps b id found :=
    h.passes_aside hreply (Dispatch.makes_statusReply (fun _ => rfl) ..)
  split at hshown
  · obtain ⟨-, ho, rfl⟩ := hshown.of_pure
    obtain rfl := Except.ok.inj ho
    exact ⟨found, hkeeps₁, .unknown rfl⟩
  · next data =>
    have hdata (hb : b ≠ .memory) : data.unwritable? = none :=
      hreply.yields Dispatch.statusReply_yields (fun d hd => hplain hb d (List.mem_append_left _ hd)) data rfl
    dsimp only at hshown
    obtain ⟨seen, w₂, es₂, fs₂, -, hobserve, hrecorded⟩ | ⟨f, hf, -⟩ := Action.Passes.of_bind hshown
    swap
    · exact absurd hf (by simp)
    obtain ⟨-, hseen, rfl⟩ := hobserve.of_ofExcept
    obtain ⟨_, w₃, es₃, fs₃, -, hrecord, hend⟩ | ⟨f, hf, -⟩ := Action.Passes.of_bind hrecorded
    swap
    · exact absurd hf (by simp)
    obtain ⟨-, ho, rfl⟩ := hend.of_pure
    obtain rfl := Except.ok.inj ho
    -- the status that is read is never null
    have hstatus : (if (data.getD "status").truthy then data.getD "status" else Value.text "queued") ≠ .null := by
      split
      · next htruthy => exact fun hnull => by simp [hnull, Value.truthy] at htruthy
      · simp
    obtain ⟨⟨word, hword⟩, houtput, herror, hmetadata⟩ := Dispatch.observe_eq_ok hseen.symm hstatus
    exact hkeeps₁.passes_recordJob hopen hrecord hword fun hb =>
      Observation.updates_writable houtput herror hmetadata (hdata hb)

/-! ## The result -/

/-- A look that sees an end sees one of three statuses, of which records know two. -/
theorem Observation.status_of_isDone (hdone : o.isDone = true) :
    o.status = some "completed" ∨ o.status = some "partial" ∨ o.status = some "failed" := by
  simpa [isDone, isSuccessful, or_assoc] using hdone

/-- A job that is recorded as it was seen has ended when the look saw an end. -/
theorem JobStatus.isTerminal_seen {s : JobStatus} (h : o.status = some s.word) : s.isTerminal = o.isDone := by
  cases s <;> simp [JobStatus.isTerminal, Observation.isDone, Observation.isSuccessful, h, JobStatus.word]

/-- **What a look sees is mirrored** as far as the record can follow it. Take any look that shows something, at
    a job that has not ended or is unknown, while others leave the record of the job alone. When it shows an end
    other than a partial one, with an error that can be read, the record has ended then, too, with that status,
    that error and the output that was shown. When it shows no end, the record has not ended, either. But when
    it shows a partial end, or an end with an error that cannot be read, the record stays as it was. -/
theorem look_mirrored (h : w.stores.Keeps b id found) (hopen : ∀ r ∈ found, r.isTerminal = false)
    (hpasses : (Dispatch.lookAtJob settings worker id).Passes id w ds (.ok o) w')
    (hplain : b ≠ .memory → ∀ d ∈ ds, d.call.Plain d.answer) :
    ∃ found', w'.stores.Keeps b id found'
      ∧ (o.isDone = true → o.status ≠ some "partial" → (∃ e, ErrorInfo.ofUpdate? o.error = .ok e) →
          ∃ r, found' = some r ∧ r.isTerminal = true ∧ o.status = some r.status.word
            ∧ ErrorInfo.ofUpdate? o.error = .ok r.error
            ∧ r.output = b.keeps (JobRecord.outputSeen found o))
      ∧ (o.isDone = false → ∀ r ∈ found', r.isTerminal = false)
      ∧ (o.isDone = true → o.status = some "partial" ∨ (∃ f, ErrorInfo.ofUpdate? o.error = .error f) →
          found' = found) := by
  obtain ⟨found', hkeeps, hmirrored⟩ := h.passes_lookAtJob hopen hpasses hplain
  refine ⟨found', hkeeps, ?_⟩
  cases hmirrored with
  | @recorded r hstatus herror houtput =>
    have hterminal : r.isTerminal = o.isDone := JobStatus.isTerminal_seen hstatus
    refine ⟨fun hdone _ _ => ⟨r, rfl, hterminal.trans hdone, hstatus, herror, houtput⟩, fun hrunning => ?_,
      fun _ hunseen => ?_⟩
    · rintro _ ⟨⟩
      exact hterminal.trans hrunning
    · -- the record could follow, so this is not so
      rcases hunseen with hpartial | ⟨f, hf⟩
      · rw [hpartial] at hstatus
        cases hs : r.status <;> simp [hs, JobStatus.word] at hstatus
      · exact absurd (hf.symm.trans herror) (by simp)
  | unknown hstatus =>
    have hrunning : o.isDone = false := by simp [Observation.isDone, Observation.isSuccessful, hstatus]
    refine ⟨fun hdone => ?_, fun _ => hopen, fun _ _ => rfl⟩
    exact absurd (hrunning.symm.trans hdone) (by simp)
  | behind hunseen =>
    refine ⟨fun hdone hpartial hread => ?_, fun _ => hopen, fun _ _ => rfl⟩
    obtain ⟨e, he⟩ := hread
    rcases hunseen with hunknown | ⟨f, hf⟩
    · rcases Observation.status_of_isDone hdone with hs | hs | hs
      · exact absurd hs (hunknown .completed)
      · exact absurd hs hpartial
      · exact absurd hs (hunknown .failed)
    · exact absurd (hf.symm.trans he) (by simp)

end

/-! ### An instance -/

/-- A job of which is known that it runs. -/
def resizeRunning : List TimedOp :=
  [⟨0, .setJob "thumbnail" [("worker_id", .text "resize"), ("status", .text "running")]⟩]

/-- A world with this job, whose remote side says that it is done. -/
def resizedWorld : World :=
  { stores := (Stores.empty .sqlite).after resizeRunning
    remote := { replies := [(Remote.shared, [{ response := .ok (.ofJson 200 (.object
      [("status", .text "completed"), ("output", .text "small.png")])) }])] } }

/-- A look at the job when nobody else is there. -/
def resizedLook : Program (Except Fault Observation) := (Dispatch.lookAtJob {} "resize" "thumbnail").outcome

/-- The job ran before the look; after it, the record shows that it has ended, with the output that was seen. -/
theorem thumbnail_mirrored : ∃ found r, resizedWorld.stores.jobs.get "thumbnail" = .ok (some found)
    ∧ found.isTerminal = false
    ∧ (resizedLook.runAlone resizedWorld).2.stores.jobs.get "thumbnail" = .ok (some r)
    ∧ r.isTerminal = true ∧ r.output = .text "small.png" := by
  have hid (n : Nat) : "job-" ++ Dispatch.hexId n ≠ "thumbnail" := by
    intro h
    have := congrArg String.toList h
    simp [String.toList_append] at this
  obtain ⟨found, hkeeps⟩ : ∃ found, resizedWorld.stores.Keeps .sqlite "thumbnail" found :=
    (Stores.Keeps.empty .sqlite "thumbnail").after (show ∀ c ∈ resizeRunning, c.clock < Stamp.lastMicro by decide)
  have hrunning : (resizedWorld.stores.jobs.get "thumbnail").toOption.join.any (fun r => !r.isTerminal) = true := by
    decide +kernel
  rw [hkeeps.get] at hrunning
  obtain ⟨e, rfl, he⟩ : ∃ e, found = some e ∧ e.isTerminal = false := by
    simpa [Except.toOption, Option.any_eq_true] using hrunning
  have hshown : (resizedLook.runAlone resizedWorld).1.toOption.any (fun o => o.status = some "completed"
      && o.error.isNull && o.output.text? = some "small.png") = true := by decide +kernel
  have hpasses := resizedLook.passes_deedsAlone resizedWorld hid (by decide +kernel)
  -- the look is made alone, so nobody comes between it and the record
  cases hlook : (resizedLook.runAlone resizedWorld).1 with
  | error f => simp [hlook, Except.toOption] at hshown
  | ok o =>
    rw [hlook] at hshown hpasses
    simp only [Except.toOption, Option.any_some, Bool.and_eq_true, decide_eq_true_eq] at hshown
    obtain ⟨⟨hstatus, herror⟩, htext⟩ := hshown
    have hdone : o.isDone = true := by simp [Observation.isDone, Observation.isSuccessful, hstatus]
    have hnull : ErrorInfo.ofUpdate? o.error = .ok none := by
      cases ho : o.error <;> simp [ho, Value.isNull] at herror
      rfl
    have hout : o.output = .text "small.png" := by
      cases ho : o.output <;> simp [ho, Value.text?] at htext
      rw [htext]
    obtain ⟨found', hkeeps', hmirrored, -⟩ :=
      look_mirrored hkeeps (by rintro _ ⟨⟩; exact he) hpasses fun _ => by decide +kernel
    obtain ⟨r, rfl, hended, -, -, houtput⟩ := hmirrored hdone (by simp [hstatus]) ⟨none, hnull⟩
    refine ⟨e, r, hkeeps.get, he, hkeeps'.get, hended, houtput.trans ?_⟩
    rw [JobRecord.outputSeen, hout]
    rfl

end Runbook
