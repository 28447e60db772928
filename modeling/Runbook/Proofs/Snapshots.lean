import Runbook.Proofs.Simultaneous

/-!
# `Proofs.Snapshots` — a context is restored from its snapshot as it was

Whatever a run does to a context of plain data, the context holds nothing else. So it can be written down,
and what is written down is all of it: absent errors are not an empty list, a number that names a step is
not a text, and outputs stay in their order.

A snapshot may wait in the metadata of a run. There it is part of a document, which is read and written
again with every update of the run; as plain data it comes out of it as it went in.

## Contents
- **Contexts.** `Context.Reached`, what outputs, errors and branches make of contexts of plain data.
- **Metadata.** `RunStore.Holds`, a record that holds a value in its metadata: it is put there by one update,
  and stays through operations that spare it. `Backend.GivesBack`.
- **Snapshots.** `snapshots_restored`.
-/

namespace Runbook

/-! ## Contexts -/

namespace Context

/-- **Contexts that can be reached** from contexts of plain data, by recording plain outputs and errors, and
    by forking and merging branches. -/
inductive Reached : Context → Prop
  | built {c : Context} (h : c.IsData) : Reached c
  | recordOutput {c : Context} (h : Reached c) (id : Option String) {output : Value}
      (houtput : output.isData = true) : Reached (c.recordOutput id output)
  | recordError {c : Context} (h : Reached c) (step : StepRef) (text : String) :
      Reached (c.recordError step text)
  | fork {c : Context} (h : Reached c) : Reached c.fork
  | merge {c branch : Context} (h : Reached c) (hbranch : Reached branch) : Reached (c.merge branch)

/-- **Reached contexts hold plain data**, by induction on the way there. -/
theorem Reached.isData {c : Context} (h : c.Reached) : c.IsData := by
  induction h with
  | built h => exact h
  | recordOutput _ id houtput ih => exact ih.recordOutput id houtput
  | recordError _ step text ih => exact ih.recordError step text
  | fork _ ih => exact ih.fork
  | merge _ _ ih ihbranch => exact ih.merge ihbranch

end Context

/-! ## Metadata -/

/-- **An operation leaves an entry of the metadata of a run alone.** -/
def StoreOp.SparesEntry (id key : String) : StoreOp → Prop
  | .setRun other updates => other = id → RunRecord.SparesEntry key updates
  | _ => True

namespace RunStore

/-- **The record of a run holds a value** under a key of its metadata. -/
def Holds (s : RunStore) (id key : String) (v : Value) : Prop :=
  ∃ r, s.get id = .ok (some r) ∧ r.metadata.get? key = some v

variable {s s' : RunStore} {id key : String} {v : Value} {now : Stamp} {op : StoreOp}
  {answer : Except Fault StoreAnswer}

/-- **The step lemma.** An operation that spares an entry leaves its value, as long as it is one that the
    backend keeps as it is. -/
theorem Holds.change (h : s.Holds id key v) (hs : s.Sound) (hnow : now.Proper) (hv : s.backend.keeps v = v)
    (hspares : op.SparesEntry id key) (hchange : s.Change now op answer s') : s'.Holds id key v := by
  cases hchange with
  | none => exact h
  | @written other updates existing r _ hread hr hkeep =>
    obtain ⟨found, hfound, hentry⟩ := h
    have hid : r.runId = other := RunRecord.runId_of_update hr
    by_cases hother : other = id
    · -- all of the metadata is read, laid over and kept anew
      subst hother
      obtain rfl : existing = some found := Except.ok.inj (hread.symm.trans hfound)
      obtain ⟨error, hoverlays⟩ := RunRecord.metadata_of_update hr
      have hmetadata : r.metadata.get? key = some v :=
        (RunRecord.overlays_spared (hspares rfl) hoverlays).trans hentry
      refine ⟨_, hid ▸ get_of_keep (hs.fits hnow hread hr hkeep) hkeep, ?_⟩
      show (s.backend.keepsFields r.metadata).get? key = some v
      rw [Backend.get?_keepsFields, hmetadata, Option.map_some, hv]
    · exact ⟨found, (get_of_keep_of_ne hkeep (hid ▸ Ne.symm hother)).trans hfound, hentry⟩

end RunStore

namespace RunRecord

/-- Metadata of plain data are always taken. -/
theorem takeable_metadata (b : Backend) {metadata : Keyed Value} (hkeys : metadata.keys.Nodup)
    (hdata : Value.allFieldsData metadata = true) : Takeable b [("metadata", .object metadata)] where
  named := ⟨by simp [Keyed.keys], hkeys⟩
  legible := ⟨nofun, nofun, nofun, nofun, fun _ hv _ => Option.some.inj hv ▸ rfl, nofun, nofun⟩
  writable _ := ⟨nofun, Value.unwritableField?_of_allData hdata⟩

end RunRecord

namespace Stores

variable {s : Stores} {clock : Clock} {id key : String} {v : Value} {updates : Keyed Value} {cs : List TimedOp}

/-- An update that the store takes is accepted, and what it names of the metadata is held. -/
theorem Working.carryOut_holds (h : s.Working) (hs : s.runs.Sound) (hclock : clock < Stamp.lastMicro)
    (hv : s.runs.backend.keeps v = v) (htaken : RunRecord.Takeable s.runs.backend updates)
    (hentry : (key, v) ∈ Update.metadata updates) :
    (∃ answer, (s.carryOut ⟨clock, .setRun id updates⟩).1 = .ok answer)
      ∧ (s.carryOut ⟨clock, .setRun id updates⟩).2.runs.Holds id key v := by
  obtain ⟨existing, hread, -⟩ := hs id
  obtain ⟨haccepted, hget⟩ := h.carryOut_written hs (Stamp.proper_ofMicros hclock) hread htaken
  refine ⟨haccepted, _, hget, ?_⟩
  have hcontains : ((existing.getD (.start id (.ofMicros clock))).amended
      ((RunRecord.Amendment.ofUpdate updates).kept s.runs.backend) (.ofMicros clock)).Contains s.runs.backend updates :=
    RunRecord.contains_amended htaken.named htaken.legible
  exact (hcontains.metadata _ hentry).trans (congrArg some hv)

/-- **The run lemma.** Operations that spare an entry leave its value. -/
theorem holds_after (h : s.runs.Holds id key v) (hs : s.runs.Sound) (hv : s.runs.backend.keeps v = v)
    (hclock : ∀ c ∈ cs, c.clock < Stamp.lastMicro) (hspares : ∀ c ∈ cs, c.op.SparesEntry id key) :
    (s.after cs).runs.Holds id key v := by
  induction cs generalizing s with
  | nil => exact h
  | cons c rest ih =>
    have hchange := s.runs_change c
    have hnow := Stamp.proper_ofMicros (hclock c List.mem_cons_self)
    have hheld := h.change hs hnow hv (hspares c List.mem_cons_self) hchange
    exact ih hheld (hs.change hnow hchange) (hchange.backend_eq ▸ hv) (fun d hd => hclock d (.tail _ hd))
      fun d hd => hspares d (.tail _ hd)

/-- What is held is read. -/
theorem Working.carryOut_getRun (h : s.Working) (hheld : s.runs.Holds id key v) (clock : Clock) :
    ∃ r, (s.carryOut ⟨clock, .getRun id⟩).1 = .ok (.run (some r)) ∧ r.metadata.get? key = some v := by
  obtain ⟨r, hread, hentry⟩ := hheld
  refine ⟨r, ?_, hentry⟩
  rw [carryOut_of_open h.isOpen, performOpen, reading, hread]
  rfl

end Stores

/-- **A backend gives a value back**: whatever was done to the stores before, an update that puts it into the
    metadata of a run is accepted, if it is one that the store takes; and whatever is done then that spares
    the entry, the value is read again as it was. -/
def Backend.GivesBack (b : Backend) (v : Value) : Prop :=
  ∀ {before between : List TimedOp} {clock later : Clock} {id key : String} {updates : Keyed Value},
    (∀ c ∈ before, c.clock < Stamp.lastMicro) → clock < Stamp.lastMicro →
    (∀ c ∈ between, c.clock < Stamp.lastMicro) → RunRecord.Takeable b updates →
    (key, v) ∈ Update.metadata updates → (∀ c ∈ between, c.op.SparesEntry id key) →
    let put := ((Stores.empty b).after before).carryOut ⟨clock, .setRun id updates⟩
    (∃ answer, put.1 = .ok answer)
      ∧ ∃ r, ((put.2.after between).carryOut ⟨later, .getRun id⟩).1 = .ok (.run (some r))
        ∧ r.metadata.get? key = some v

/-- **Plain data are given back.** -/
theorem Backend.givesBack_of_isData (b : Backend) {v : Value} (h : v.isData = true) : b.GivesBack v := by
  intro before between clock later id key updates hbefore hclock hbetween htaken hentry hspares
  -- of what was done before, it only matters that the runs can be read and that the store takes writes
  obtain ⟨hsound, hbackend⟩ := Stores.runs_sound (RunStore.sound_empty b) hbefore
  have hworking := (Stores.working_empty b).after before
  generalize (Stores.empty b).after before = s at hsound hbackend hworking
  obtain rfl : s.runs.backend = b := hbackend
  have hkeeps := s.runs.backend.keeps_of_isData h
  obtain ⟨haccepted, hheld⟩ := hworking.carryOut_holds hsound hclock hkeeps htaken hentry
  have hchange := s.runs_change ⟨clock, .setRun id updates⟩
  have hsound' := hsound.change (Stamp.proper_ofMicros hclock) hchange
  have hafter := Stores.holds_after hheld hsound' (hchange.backend_eq ▸ hkeeps) hbetween hspares
  exact ⟨haccepted, ((hworking.carryOut _).after between).carryOut_getRun hafter later⟩

/-! ## Snapshots -/

/-- **Snapshots restore exactly.** Every context that outputs, errors, forks and merges make of contexts of
    plain data has a snapshot; the context that is restored from it is the same; and the tables of SQLite
    give the snapshot back as it was put into the metadata of a run. -/
theorem snapshots_restored {c : Context} (h : c.Reached) :
    ∃ data, c.snapshot = .ok data ∧ Context.restore data = .ok c ∧ Backend.sqlite.GivesBack data :=
  ⟨c.toValue, h.isData.snapshot, c.restore_toValue, Backend.sqlite.givesBack_of_isData h.isData.toValue⟩

/-- A release: its build is known, and a branch that checks it has failed before it is folded back. -/
def refusedRelease : Context :=
  let started := Context.start (.object [("tag", .text "v2")]) (some "run") true
  let built := started.recordOutput (some "build") (.real 1.0)
  let checks := (built.fork.recordOutput (some "lint") .null).recordError (.index 0) "lint: 3 problems"
  (built.merge checks).recordError (.name "0") "release: refused"

/-- What is done to the stores before its snapshot is put into the record of its run. -/
def releaseStarted : List TimedOp :=
  [⟨0, .setRun "run" [("status", .text "running"), ("metadata", .object [("config_id", .text "release")])]⟩]

/-- What is done to them until the snapshot is read. -/
def releasePaused : List TimedOp :=
  [⟨2, .setRun "run" [("status", .text "paused"), ("metadata", .object [("config_id", .null)])]⟩,
    ⟨3, .setRun "other" [("metadata", .object [("context", .int 0)])]⟩, ⟨4, .listRuns .null⟩]

theorem refusedRelease_restored : refusedRelease.Reached ∧ ∃ data, refusedRelease.snapshot = .ok data
    ∧ Context.restore data = .ok refusedRelease
    ∧ (let put := ((Stores.empty .sqlite).after releaseStarted).carryOut
          ⟨1, .setRun "run" [("metadata", .object [("context", data), ("build", .int 7)])]⟩
      ∃ r, ((put.2.after releasePaused).carryOut ⟨5, .getRun "run"⟩).1 = .ok (.run (some r))
        ∧ r.metadata.get? "context" = some data) := by
  have hstarted : (Context.start (.object [("tag", .text "v2")]) (some "run") true).Reached :=
    .built (Context.isData_start rfl _ _)
  have hbuilt := @Context.Reached.recordOutput _ hstarted (some "build") (.real 1.0) rfl
  have hreached : refusedRelease.Reached :=
    (hbuilt.merge ((hbuilt.fork.recordOutput (some "lint") rfl).recordError (.index 0) _)).recordError (.name "0") _
  obtain ⟨data, hdata, hrestore, hback⟩ := snapshots_restored hreached
  have hplain : data.isData = true :=
    Except.ok.inj (hdata.symm.trans hreached.isData.snapshot) ▸ hreached.isData.toValue
  have htaken : RunRecord.Takeable .sqlite [("metadata", .object [("context", data), ("build", .int 7)])] :=
    RunRecord.takeable_metadata .sqlite (by simp [Keyed.keys])
      (by simp [Value.allFieldsData, hplain, Value.isData])
  have hspares : ∀ c ∈ releasePaused, c.op.SparesEntry "run" "context" := by
    simp [releasePaused, StoreOp.SparesEntry, RunRecord.SparesEntry]
  exact ⟨hreached, data, hdata, hrestore,
    (hback (by decide) (by decide) (by decide) htaken List.mem_cons_self hspares).2⟩

end Runbook
