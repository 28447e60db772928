import Runbook.Proofs.Standings

/-!
# `Proofs.RunHistory` — what becomes of the record of a run

Whatever is done to the stores, the record of a run is always read as the last write left it, and each
write makes it out of what was read before. A write keeps one record, and beside it what is looked up in
tables and in the index of execution ids.

## Contents
- **Filed records.** `RunRecord.Filed`, what is known of every record that is read; `RunStore.keep_eq_ok`,
  one write, and `RunStore.Sound`.
- **Steps.** `RunStore.Change`, all that an operation can do to the runs, with `Sound.change`;
  `Stores.carryOut_setRun`, an update that nothing keeps from success.
- **Histories.** `Stores.Working`, stores that are open and take all writes; `Stores.runs_sound`.
-/

namespace Runbook

/-! ## Filed records -/

namespace RunRecord

variable {r : RunRecord} {b : Backend} {id : String} {now : Stamp}

/-- **An ended run has a time of completion.** -/
def Timed (r : RunRecord) : Prop := r.status.isTerminal = true → r.completedAt.isSome = true

theorem timed_settle (r : RunRecord) (now : Stamp) : (r.settle now).Timed := by
  unfold settle
  split
  · intro _
    show (r.completedAt.or (some now)).isSome = true
    cases r.completedAt <;> rfl
  · next h => exact fun h' => absurd h' h

theorem timed_of_update {existing : Option RunRecord} {updates : Keyed Value}
    (h : update existing id updates now = .ok r) : r.Timed := by
  obtain ⟨_, _, r₀, -, -, rfl⟩ := update_eq_ok.mp h
  exact timed_settle _ now

/-- **What is known of a record that is read** from the store of a backend. -/
structure Filed (b : Backend) (id : String) (r : RunRecord) : Prop where
  runId : r.runId = id
  timed : r.Timed
  fits : r.Fits b
  kept : b.keepsRun r = r

/-- What a backend keeps of a record is filed. -/
theorem filed_keeps (hid : r.runId = id) (htimed : r.Timed) (hfits : r.Fits b) : (b.keepsRun r).Filed b id :=
  ⟨hid, htimed, hfits.keepsRun, b.keepsRun_keepsRun r⟩

/-- Updates of filed records leave proper stamps. -/
theorem proper_of_filed {existing : Option RunRecord} {updates : Keyed Value} (hb : b ≠ .memory)
    (hfiled : ∀ e ∈ existing, e.Filed b id) (hnow : now.Proper)
    (h : update existing id updates now = .ok r) : r.Proper := by
  refine Proper.update ?_ hnow h
  cases existing with
  | none => exact proper_start hnow
  | some e => exact ((hfiled e rfl).fits hb).1

end RunRecord

namespace RunStore

variable {s s' : RunStore} {r : RunRecord} {id : String} {now : Stamp}

/-- The index of execution ids after a record was kept. -/
def indexed (s : RunStore) (r : RunRecord) : Keyed String :=
  match r.executionId with
  | some e => if e = "" then s.executions else s.executions.put e r.runId
  | none => s.executions

/-- **A write of a record.** -/
theorem keep_eq_ok : s.keep r = .ok s' ↔ ∃ held, hold s.backend r = .ok held
    ∧ s' = { s with
        records := s.records.put r.runId held
        columns := s.columns.put r.runId ⟨r.executionId, r.status⟩
        executions := s.indexed r } := by
  unfold keep
  rw [Fault.bind_eq_ok]
  exact exists_congr fun held => and_congr_right fun _ => ⟨fun h => (Except.ok.inj h).symm, fun h => h ▸ rfl⟩

theorem backend_of_keep (h : s.keep r = .ok s') : s'.backend = s.backend := by
  obtain ⟨held, -, rfl⟩ := keep_eq_ok.mp h
  rfl

/-- A record with proper stamps that a store keeps is one that its backend can hold. -/
theorem fits_of_keep (hr : s.backend ≠ .memory → r.Proper) (h : s.keep r = .ok s') : r.Fits s.backend := by
  obtain ⟨held, hheld, rfl⟩ := keep_eq_ok.mp h
  exact fun hb => ⟨hr hb, RunRecord.writable_of_hold hb hheld⟩

/-- **A record that was kept is read** as the backend keeps it. -/
theorem get_of_keep (hr : r.Fits s.backend) (h : s.keep r = .ok s') :
    s'.get r.runId = .ok (some (s.backend.keepsRun r)) := by
  obtain ⟨held, hheld, rfl⟩ := keep_eq_ok.mp h
  obtain ⟨held', hheld', hread⟩ := hr.hold
  obtain rfl := Except.ok.inj (hheld.symm.trans hheld')
  rw [get, Keyed.readHeld_put_self, hread]
  rfl

theorem get_of_keep_of_ne (h : s.keep r = .ok s') (hne : id ≠ r.runId) : s'.get id = s.get id := by
  obtain ⟨held, -, rfl⟩ := keep_eq_ok.mp h
  rw [get, Keyed.readHeld_put_of_ne _ _ hne, get]

/-- A record that fits is kept. -/
theorem keep_of_fits (hr : r.Fits s.backend) : ∃ s', s.keep r = .ok s' := by
  obtain ⟨held, hheld, -⟩ := hr.hold
  exact ⟨_, keep_eq_ok.mpr ⟨held, hheld, rfl⟩⟩

theorem set_eq_ok {updates : Keyed Value} : s.set id updates now = .ok (r, s') ↔ ∃ existing,
    s.get id = .ok existing ∧ RunRecord.update existing id updates now = .ok r ∧ s.keep r = .ok s' := by
  unfold set
  constructor
  · intro h
    obtain ⟨existing, hread, h⟩ := Fault.bind_eq_ok.mp h
    obtain ⟨r', hr, h⟩ := Fault.bind_eq_ok.mp h
    obtain ⟨kept, hkept, h⟩ := Fault.bind_eq_ok.mp h
    cases h
    exact ⟨existing, hread, hr, hkept⟩
  · rintro ⟨existing, hread, hr, hkeep⟩
    exact Fault.bind_eq_ok.mpr ⟨existing, hread, Fault.bind_eq_ok.mpr ⟨r, hr,
      Fault.bind_eq_ok.mpr ⟨s', hkeep, rfl⟩⟩⟩

/-- **Every record of the store can be read**, and is filed. -/
def Sound (s : RunStore) : Prop :=
  ∀ id, ∃ existing, s.get id = .ok existing ∧ ∀ r ∈ existing, r.Filed s.backend id

theorem Sound.filed (hs : s.Sound) {existing : Option RunRecord} (hread : s.get id = .ok existing) :
    ∀ r ∈ existing, r.Filed s.backend id := by
  obtain ⟨found, hfound, hfiled⟩ := hs id
  obtain rfl := Except.ok.inj (hread.symm.trans hfound)
  exact hfiled

/-- What an update of a sound store keeps is a record that the backend can hold. -/
theorem Sound.fits (hs : s.Sound) (hnow : now.Proper) {existing : Option RunRecord} {updates : Keyed Value}
    (hread : s.get id = .ok existing) (hr : RunRecord.update existing id updates now = .ok r)
    (hkeep : s.keep r = .ok s') : r.Fits s.backend :=
  fits_of_keep (fun hb => RunRecord.proper_of_filed hb (hs.filed hread) hnow hr) hkeep

/-! ## Steps -/

/-- **All that an operation can do to the runs** is to write one record, made out of what is read of the
    run; the record is also what it answers. -/
inductive Change (s : RunStore) (now : Stamp) : StoreOp → Except Fault StoreAnswer → RunStore → Prop
  | none {op : StoreOp} {answer : Except Fault StoreAnswer}
      (h : (Call.store op).writesRun = false ∨ ∃ f, answer = .error f) : Change s now op answer s
  | written {id : String} {updates : Keyed Value} {existing : Option RunRecord} {r : RunRecord} {s' : RunStore}
      (hread : s.get id = .ok existing) (hr : RunRecord.update existing id updates now = .ok r)
      (hkeep : s.keep r = .ok s') : Change s now (.setRun id updates) (.ok (.run (some r))) s'

variable {op : StoreOp} {answer : Except Fault StoreAnswer}

theorem Change.backend_eq (h : s.Change now op answer s') : s'.backend = s.backend := by
  cases h with
  | none => rfl
  | written _ _ hkeep => exact backend_of_keep hkeep

/-- **An operation leaves a sound store.** -/
theorem Sound.change (hs : s.Sound) (hnow : now.Proper) (h : s.Change now op answer s') : s'.Sound := by
  cases h with
  | none => exact hs
  | @written id updates existing r _ hread hr hkeep =>
    have hid : r.runId = id := RunRecord.runId_of_update hr
    have hfits := hs.fits hnow hread hr hkeep
    intro other
    rw [backend_of_keep hkeep]
    by_cases hother : other = id
    · subst hother
      refine ⟨_, hid ▸ get_of_keep hfits hkeep, fun r' hr' => ?_⟩
      exact Option.some.inj hr' ▸ RunRecord.filed_keeps hid (RunRecord.timed_of_update hr) hfits
    · rw [get_of_keep_of_ne hkeep fun heq => hother (heq.trans hid)]
      exact hs other

theorem sound_empty (b : Backend) : (Stores.empty b).runs.Sound := fun _ => ⟨none, rfl, by simp⟩

end RunStore

namespace Stores

variable {s : Stores} {c : TimedOp}

/-- **An operation changes the runs**, or leaves them as they are. -/
theorem runs_change (s : Stores) (c : TimedOp) :
    s.runs.Change (.ofMicros c.clock) c.op (s.carryOut c).1 (s.carryOut c).2.runs := by
  obtain ⟨clock, op⟩ := c
  by_cases hwrites : (Call.store op).writesRun = false
  · rw [show (s.carryOut ⟨clock, op⟩).2.runs = s.runs from perform_runs hwrites]
    exact .none (.inl hwrites)
  obtain ⟨id, updates, rfl⟩ : ∃ id updates, op = .setRun id updates := by
    cases op with
    | setRun id updates => exact ⟨id, updates, rfl⟩
    | _ => exact absurd rfl hwrites
  by_cases hopen : s.isOpen = true
  · rw [carryOut_of_open hopen]
    cases hresult : s.setRun id updates (.ofMicros clock) with
    | error f =>
      rw [performOpen, hresult]
      exact .none (.inr ⟨f, rfl⟩)
    | ok result =>
      rw [performOpen, hresult]
      obtain ⟨r, s'⟩ := result
      unfold setRun at hresult
      split at hresult
      · exact absurd hresult (by simp)
      · obtain ⟨⟨r', runs⟩, hset, hresult⟩ := Fault.bind_eq_ok.mp hresult
        cases hresult
        obtain ⟨existing, hread, hr, hkeep⟩ := RunStore.set_eq_ok.mp hset
        exact .written hread hr hkeep
  · rw [show s.carryOut ⟨clock, .setRun id updates⟩ = (.error _, s) from if_neg hopen]
    exact .none (.inr ⟨_, rfl⟩)

/-- **Stores that are open and take all writes.** -/
structure Working (s : Stores) : Prop where
  isOpen : s.isOpen = true
  outage : s.outage = .never

theorem working_empty (b : Backend) : (empty b).Working := ⟨rfl, rfl⟩

theorem Working.carryOut (h : s.Working) (c : TimedOp) : (s.carryOut c).2.Working :=
  have hfixed := s.perform_fixed (.ofMicros c.clock) c.op
  ⟨hfixed.isOpen.trans h.isOpen, hfixed.outage.trans h.outage⟩

/-- **An update that nothing keeps from success.** -/
theorem Working.carryOut_setRun (h : s.Working) {clock : Clock} {id : String} {updates : Keyed Value}
    {existing : Option RunRecord} {r : RunRecord} {runs : RunStore} (hread : s.runs.get id = .ok existing)
    (hr : RunRecord.update existing id updates (.ofMicros clock) = .ok r) (hkeep : s.runs.keep r = .ok runs) :
    s.carryOut ⟨clock, .setRun id updates⟩ = (.ok (.run (some r)), { s with runs }) := by
  have hset := RunStore.set_eq_ok.mpr ⟨existing, hread, hr, hkeep⟩
  have hhits : s.outage.hits updates = false := by rw [h.outage]; rfl
  have hwrite : s.setRun id updates (.ofMicros clock) = .ok (r, { s with runs }) := by
    unfold setRun
    rw [hhits, hset]
    rfl
  rw [carryOut_of_open h.isOpen, performOpen, hwrite]
  rfl

/-! ## Histories -/

theorem Working.after (h : s.Working) (cs : List TimedOp) : (s.after cs).Working := by
  induction cs generalizing s with
  | nil => exact h
  | cons c rest ih => exact ih (h.carryOut c)

/-- **Operations leave the runs sound.** -/
theorem runs_sound {cs : List TimedOp} (hs : s.runs.Sound) (hclock : ∀ c ∈ cs, c.clock < Stamp.lastMicro) :
    (s.after cs).runs.Sound ∧ (s.after cs).runs.backend = s.runs.backend := by
  induction cs generalizing s with
  | nil => exact ⟨hs, rfl⟩
  | cons c rest ih =>
    have hchange := s.runs_change c
    have hnow := Stamp.proper_ofMicros (hclock c List.mem_cons_self)
    obtain ⟨hsound, hbackend⟩ := ih (hs.change hnow hchange) fun d hd => hclock d (.tail _ hd)
    exact ⟨hsound, hbackend.trans hchange.backend_eq⟩

end Stores

end Runbook
