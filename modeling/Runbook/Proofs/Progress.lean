import Runbook.Proofs.Growth
import Runbook.Proofs.Saves

/-!
# `Proofs.Progress` — checkpoints lose nothing

Every checkpoint in the record of a run was written by an attempt that had come to the step of the root
list at its cursor: it has the context with which that step began, and in its journal only leaves
inside that step. And from one checkpoint to the next nothing is lost: `checkpoints_progress`.

Within an attempt the record lags behind at most by what cannot be saved any more. A context only grows,
so once it cannot be written down, no later one can; and a store that takes no writes takes none for the
whole of an attempt.

## Contents
- **Checkpoints.** `Plan.Fits` and `WellFormed`; `World.Tended`, a record with nothing else in it.
- **Attempts.** `Execution.Stands`, with `Execution.Entering` and `Execution.AtRoot`, what holds while
  an attempt is at a step of the root list; and their step lemmas.
- **The root list.** `AtRoot.afterEntry`, by induction on what is left of the list, and
  `onward_advances`.
- **Runs.** `run_advances` and `resume_advances`.
- **Chains.** `Trial.Begins`, and `checkpoints_progress`.
-/

namespace Runbook

/-! ## Checkpoints -/

/-- **A journal that fits** a step of the root list: its keys are the paths of leaves inside that
    step. -/
def Plan.Fits (p : Plan) (k : Nat) (j : Keyed Value) : Prop :=
  ∀ key, j.has key = true →
    ∃ q s, key = q.text ∧ p.Has q s ∧ s.isLeaf = true ∧ q.rootIndex? = some (k : Int)

theorem Plan.fits_nil (p : Plan) (k : Nat) : p.Fits k [] := fun key h => by
  simp [Keyed.has, Keyed.get?] at h

/-- Behind the root list there are no leaves. -/
theorem Plan.Fits.eq_nil {p : Plan} {j : Keyed Value} (h : p.Fits p.steps.length j) : j = [] := by
  cases j with
  | nil => rfl
  | cons entry rest =>
    obtain ⟨key, v⟩ := entry
    obtain ⟨q, s, -, hhas, -, hroot⟩ := h key (by simp [Keyed.has, Keyed.get?])
    cases hhas with
    | @root s₀ s i inner hi =>
      have hi' : (i : Int) = p.steps.length := Option.some.inj hroot
      have hlt := (List.getElem?_eq_some_iff.mp hi).1
      omega

theorem Plan.Fits.keepsFields {p : Plan} {k : Nat} {j : Keyed Value} (h : p.Fits k j) (b : Backend) :
    p.Fits k (b.keepsFields j) := fun key hkey =>
  h key (by simpa [Keyed.has, Backend.get?_keepsFields] using hkey)

/-- Where a step stands inside one of the root list, it stands in the plan. -/
theorem Plan.has_of_inside {p : Plan} {m : Nat} {s s' : Step} {q : StepPath}
    (hs : p.steps[m]? = some s) (h : s.Inside (.root m s.kind) q s') :
    p.Has q s' ∧ q.rootIndex? = some (m : Int) := by
  obtain ⟨inner, rfl, hhas⟩ := h
  exact ⟨.root hs hhas, rfl⟩

/-- **A checkpoint that is well formed**, given which contexts the steps of the root list have begun
    with: it is what the backend keeps of such a context and of a journal that fits. -/
structure WellFormed (p : Plan) (b : Backend) (begun : Nat → Context → Prop) (data : Value) (k : Nat)
    (c : Context) (j : Keyed Value) : Prop where
  data_eq : data = checkpointData k (b.keeps c.toValue) j
  kept : b.keepsFields j = j
  le : k ≤ p.steps.length
  keys : p.Fits k j
  begun : begun k c

namespace WellFormed

variable {p : Plan} {b : Backend} {begun begun' : Nat → Context → Prop} {data : Value} {k : Nat}
  {c : Context} {j : Keyed Value}

/-- The backend keeps a checkpoint as it is. -/
theorem keeps_eq (h : WellFormed p b begun data k c j) : b.keeps data = data := by
  rw [h.data_eq, Backend.keeps_checkpointData, Backend.keeps_keeps, h.kept]

theorem mono (h : WellFormed p b begun data k c j) (hbegun : ∀ k c, begun k c → begun' k c) :
    WellFormed p b begun' data k c j := { h with begun := hbegun k c h.begun }

/-- The attempt that was saved, as the backend has kept it. -/
theorem eq_written (h : WellFormed p b begun data k c j) (id : String) :
    data = Attempt.written ⟨id, k, b.keepsContext c, j⟩ := by
  rw [h.data_eq, ← Backend.toValue_keepsContext]
  rfl

/-- A checkpoint succeeds itself. -/
theorem succeeds (h : WellFormed p b begun data k c j) : Succeeds data data := by
  rw [h.data_eq]
  exact .stays fun key => .refl _

end WellFormed

namespace World

variable {p : Plan} {begun begun' : Nat → Context → Prop} {id : String} {w w' : World}

/-- **All checkpoints are well formed.** -/
def Sound (p : Plan) (begun : Nat → Context → Prop) (id : String) (w : World) : Prop :=
  ∀ data, w.checkpointOf id = some data → ∃ k c j, WellFormed p w.backend begun data k c j

theorem Sound.kept (hw : w.Sound p begun id) {data : Value} (h : w.checkpointOf id = some data) :
    w.backend.keeps data = data := by
  obtain ⟨k, c, j, hwell⟩ := hw data h
  exact hwell.keeps_eq

theorem Sound.of_eq (hw : w.Sound p begun id) (hbackend : w'.backend = w.backend)
    (h : w'.Unreadable id ∨ w'.checkpointOf id = w.checkpointOf id) : w'.Sound p begun id := by
  intro data hdata
  rcases h with hlost | hsame
  · rw [hlost.checkpointOf_eq] at hdata
    exact absurd hdata (by simp)
  · rw [hbackend]
    exact hw data (hsame ▸ hdata)

theorem Sound.mono (hw : w.Sound p begun id) (hbegun : ∀ k c, begun k c → begun' k c) :
    w.Sound p begun' id := fun data hdata => by
  obtain ⟨k, c, j, h⟩ := hw data hdata
  exact ⟨k, c, j, h.mono hbegun⟩

/-- **What a continuation finds** in the record: no checkpoint, and then no context; or a checkpoint that
    is well formed, and in it the attempt that was saved, as the backend has kept it. -/
theorem Sound.found (hw : w.Sound p begun id) {record : RunRecord} {checkpoint : StoredCheckpoint}
    (hrecord : w.recordOf id = .ok (some record))
    (hcheckpoint : StoredCheckpoint.ofMetadata record.metadata = .ok checkpoint) :
    (w.checkpointOf id = none ∧ checkpoint.context? = none)
      ∨ ∃ (k : Nat) (c : Context) (j : Keyed Value),
        w.checkpointOf id = some (Attempt.written ⟨id, k, w.backend.keepsContext c, j⟩)
        ∧ WellFormed p w.backend begun (Attempt.written ⟨id, k, w.backend.keepsContext c, j⟩) k c j
        ∧ checkpoint.context? = some (w.backend.keepsContext c).toValue
        ∧ (Context.restore (w.backend.keepsContext c).toValue).bind (checkpoint.toAttempt id)
          = .ok ⟨id, k, w.backend.keepsContext c, j⟩ := by
  have hat : w.checkpointOf id = record.metadata.get? StoredCheckpoint.key := by
    rw [checkpointOf, hrecord]
  cases hdata : record.metadata.get? StoredCheckpoint.key with
  | none =>
    rw [StoredCheckpoint.ofMetadata_none hdata] at hcheckpoint
    obtain rfl := Except.ok.inj hcheckpoint
    exact .inl ⟨hat.trans hdata, rfl⟩
  | some data =>
    obtain ⟨k, c, j, hwell⟩ := hw data (hat.trans hdata)
    obtain rfl := hwell.eq_written id
    obtain ⟨checkpoint', hread, hcontext, hattempt⟩ := StoredCheckpoint.ofMetadata_written hdata
    obtain rfl := Except.ok.inj (hcheckpoint.symm.trans hread)
    refine .inr ⟨k, c, j, hat.trans hdata, hwell, hcontext, ?_⟩
    rw [Context.restore_toValue]
    exact hattempt id _

/-- **A record that is tended**: all its checkpoints are well formed, and it can be written down as long
    as the run is not completed. -/
structure Tended (p : Plan) (begun : Nat → Context → Prop) (id : String) (w : World) : Prop where
  sound : w.Sound p begun id
  record : ∀ r, w.recordOf id = .ok (some r) → r.status ≠ .completed → r.Writable

theorem Sound.tended (hw : w.Sound p begun id) (hgoing : w.Going id) : w.Tended p begun id :=
  ⟨hw, fun r hr _ => hgoing r hr⟩

theorem Tended.of_runs (hw : w.Tended p begun id) (h : w'.stores.runs = w.stores.runs) :
    w'.Tended p begun id := by
  have hrecord := recordOf_congr h id
  refine ⟨hw.sound.of_eq (by rw [backend, h]) (.inr (by rw [checkpointOf, hrecord]; rfl)), ?_⟩
  rw [hrecord]
  exact hw.record

theorem Tended.mono (hw : w.Tended p begun id) (hbegun : ∀ k c, begun k c → begun' k c) :
    w.Tended p begun' id := ⟨hw.sound.mono hbegun, hw.record⟩

/-- What a deed shows that leaves the checkpoint. -/
theorem Sound.advances {d : Deed} (hw : w.Sound p begun id)
    (h : w'.Unreadable id ∨ w'.checkpointOf id = w.checkpointOf id)
    (hsaves : ∀ other, d.call ≠ .saveCheckpoint other) : Advances id w d w' where
  succeeds data hdata := by
    obtain ⟨k, c, j, hwell⟩ := hw data hdata
    exact h.imp_right fun hsame => ⟨data, hsame.trans hdata, hwell.succeeds⟩
  saves hsave := absurd hsave (hsaves id)

end World

/-- **What is done before an attempt begins** leaves a run that goes on as it is. -/
theorem World.Sound.quiet {p : Plan} {begun : Nat → Context → Prop} {id : String} {x : Execution}
    {w w' : World} {d : Deed} (hw : w.Sound p begun id) (hgoing : w.Going id) (h : w.Answers d w')
    (hd : d.call.Steady x) (hsaves : ∀ other, d.call ≠ .saveCheckpoint other) :
    (w'.Sound p begun id ∧ w'.Going id
      ∧ (w'.Unreadable id ∨ w'.checkpointOf id = w.checkpointOf id)) ∧ Advances id w d w' := by
  have hsame := h.checkpointOf_same hd.orderly hsaves fun _ => hw.kept
  exact ⟨⟨hw.of_eq (h.backend_eq hd.orderly) hsame, hgoing.answers h hd, hsame⟩,
    hw.advances hsame hsaves⟩

/-! ## Attempts -/

namespace Execution

variable {x : Execution} {begun : Nat → Context → Prop} {id : String} {m : Nat} {c : Context}
  {w w' : World} {d : Deed} {ds : List Deed} {pace : Clock → Clock → Prop} {t : Clock}
  {r : Option (Outcome × Clock)}

/-- **Nothing is saved any more** in an attempt that works with a context. -/
def Stuck (x : Execution) (id : String) (c : Context) (w : World) : Prop :=
  w.Mute ∨ x.engine.checkpoints = false ∨ ¬ c.Writable ∨ w.Unreadable id

theorem Stuck.answers (hw : x.Stuck id c w) (h : w.Answers d w') (hd : d.call.Steady x) :
    x.Stuck id c w' := by
  rcases hw with hmute | hoff | hwritable | hlost
  · exact .inl (hmute.of_fixed h.fixed)
  · exact .inr (.inl hoff)
  · exact .inr (.inr (.inl hwritable))
  · exact .inr (.inr (.inr (h.unreadable hd.orderly hlost)))

/-- Nor is it later, with a context that has grown. -/
theorem Stuck.extends {c' : Context} (hw : x.Stuck id c w) (h : c.Extends c') (hlatest : c.Latest) :
    x.Stuck id c' w := by
  rcases hw with hmute | hoff | hwritable | hlost
  · exact .inl hmute
  · exact .inr (.inl hoff)
  · exact .inr (.inr (.inl fun hc' => hwritable (h.writable hlatest hc')))
  · exact .inr (.inr (.inr hlost))

/-- **An attempt stands at a step of the root list**, which it has begun with a context. -/
structure Stands (x : Execution) (begun : Nat → Context → Prop) (id : String) (m : Nat) (c : Context)
    (w : World) : Prop where
  sound : w.Sound x.plan begun id
  going : w.Going id
  other : id ≠ x.runId → w.checkpointOf id = none
  cursor : w.attempt.cursor = m
  base : w.attempt.base = c
  keys : x.plan.Fits m w.attempt.journal

/-- What would be kept of the attempt at hand. -/
abbrev upToDate (m : Nat) (c : Context) (w : World) : Value :=
  checkpointData m (w.backend.keeps c.toValue) (w.backend.keepsFields w.attempt.journal)

/-- **The attempt has begun the step, but has not been saved since.** -/
structure Entering (x : Execution) (begun : Nat → Context → Prop) (id : String) (m : Nat) (c : Context)
    (w : World) : Prop extends Stands x begun id m c w where
  empty : w.attempt.journal = []
  link : id = x.runId → x.Stuck id c w
    ∨ ∀ data, w.checkpointOf id = some data → Succeeds data (upToDate m c w)

/-- **The attempt is at the step**, and so is the record, unless nothing is saved any more. -/
structure AtRoot (x : Execution) (begun : Nat → Context → Prop) (id : String) (m : Nat) (c : Context)
    (w : World) : Prop extends Stands x begun id m c w where
  link : id = x.runId → x.Stuck id c w
    ∨ ∃ j, w.checkpointOf id = some (checkpointData m (w.backend.keeps c.toValue) j)
      ∧ ∀ key, JournalEntry.GoesOn (j.get? key) ((w.backend.keepsFields w.attempt.journal).get? key)

theorem AtRoot.succeeds (hw : x.AtRoot begun id m c w) (hid : id = x.runId) (hstuck : ¬ x.Stuck id c w)
    {data : Value} (h : w.checkpointOf id = some data) : Succeeds data (upToDate m c w) := by
  rcases hw.link hid with hstuck' | ⟨j, hj, hgoes⟩
  · exact absurd hstuck' hstuck
  · obtain rfl := Option.some.inj (hj.symm.trans h)
    exact .stays hgoes

/-- What is kept of the attempt is well formed. -/
theorem Stands.wellFormed (hw : x.Stands begun id m c w) (hm : m ≤ x.plan.steps.length)
    (hbegun : begun m c) :
    WellFormed x.plan w.backend begun (upToDate m c w) m c (w.backend.keepsFields w.attempt.journal) :=
  ⟨rfl, w.backend.keepsFields_keepsFields _, hm, hw.keys.keepsFields _, hbegun⟩

/-- What is kept of the attempt when it is saved. -/
theorem Stands.keeps_checkpoint (hw : x.Stands begun id m c w) {data : Value}
    (h : w.attempt.checkpoint = .ok data) : w.backend.keeps data = upToDate m c w := by
  rw [Attempt.checkpoint_eq hw.cursor h, hw.base, Backend.keeps_checkpointData]

/-- What a deed leaves of the attempt's standing that touches neither attempt nor checkpoint. -/
theorem Stands.same (hw : x.Stands begun id m c w) (h : w.Answers d w') (hd : d.call.Steady x)
    (hattempt : w'.attempt = w.attempt)
    (hsame : w'.Unreadable id ∨ w'.checkpointOf id = w.checkpointOf id) :
    x.Stands begun id m c w' where
  sound := hw.sound.of_eq (h.backend_eq hd.orderly) hsame
  going := hw.going.answers h hd
  other hid := by
    rcases hsame with hlost | hsame
    · exact hlost.checkpointOf_eq
    · exact hsame.trans (hw.other hid)
  cursor := by rw [hattempt, hw.cursor]
  base := by rw [hattempt, hw.base]
  keys := by rw [hattempt]; exact hw.keys

/-- **What becomes of a save** of the attempt at hand: it fails and leaves the stores alone, or brings
    the record up to date unless that cannot be read any more. -/
theorem Stands.outcome_of_save (hw : x.Stands begun x.runId m c w) (h : w.Answers d w')
    (hcall : d.call = .saveCheckpoint x.runId) :
    (w.Mute ∨ ∃ f, w.attempt.checkpoint = .error f) ∧ w'.stores = w.stores
      ∨ ¬ w.Mute ∧ c.Writable ∧ (w'.Unreadable x.runId
        ∨ w'.checkpointOf x.runId = some (upToDate m c w)) := by
  by_cases hmute : w.Mute
  · exact .inl ⟨.inl hmute, h.stores_of_save hcall (.inl hmute)⟩
  · cases hdata : w.attempt.checkpoint with
    | error f => exact .inl ⟨.inr ⟨f, rfl⟩, h.stores_of_save hcall (.inr ⟨f, hdata⟩)⟩
    | ok data =>
      have hbase := Attempt.base_writable hdata
      rw [hw.base] at hbase
      refine .inr ⟨hmute, Context.writable_iff.mp hbase, ?_⟩
      rw [← hw.keeps_checkpoint hdata]
      exact hw.going.saves h hcall hmute hdata

/-- **A save** leaves the attempt where it stands, and the checkpoint that is stored then succeeds the
    one before. -/
theorem Stands.save (hw : x.Stands begun id m c w) (hm : m ≤ x.plan.steps.length)
    (hbegun : id = x.runId → begun m c)
    (hsucceeds : id = x.runId → ¬ x.Stuck id c w → ∀ data, w.checkpointOf id = some data →
      Succeeds data (upToDate m c w))
    (h : w.Answers d w') (hcall : d.call = .saveCheckpoint x.runId)
    (hon : x.engine.checkpoints = true) :
    x.Stands begun id m c w' ∧ Advances id w d w' := by
  have hd : d.call.Steady x := hcall ▸ .save hon
  have hattempt : w'.attempt = w.attempt := by rw [h.attempt_eq, hcall]; rfl
  have hbackend := h.backend_eq hd.orderly
  have hsaves : d.call = .saveCheckpoint id → ¬ w.Mute → ∀ data, w.attempt.checkpoint = .ok data →
      w'.Unreadable id ∨ w'.checkpointOf id = some (w.backend.keeps data) :=
    fun hcall' hmute _ hdata => hw.going.saves h hcall' hmute hdata
  have hstays (hsame : w'.recordOf id = w.recordOf id) :
      x.Stands begun id m c w' ∧ Advances id w d w' := by
    have hsame : w'.checkpointOf id = w.checkpointOf id := by rw [World.checkpointOf, hsame]; rfl
    refine ⟨hw.same h hd hattempt (.inr hsame), fun data hdata => ?_, hsaves⟩
    obtain ⟨k, c, j, hwell⟩ := hw.sound data hdata
    exact .inr ⟨data, hsame.trans hdata, hwell.succeeds⟩
  -- a save that is made for another run leaves this record alone
  by_cases hid : id = x.runId
  · subst hid
    rcases hw.outcome_of_save h hcall with ⟨-, hstores⟩ | ⟨hmute, hwritable, hnew⟩
    · exact hstays (by rw [World.recordOf, hstores]; rfl)
    · refine ⟨⟨fun v hv => ?_, hw.going.answers h hd, fun hid => absurd rfl hid,
        by rw [hattempt, hw.cursor], by rw [hattempt, hw.base], by rw [hattempt]; exact hw.keys⟩,
        fun old hold => hnew.imp_right fun hnew => ⟨_, hnew, hsucceeds rfl ?_ old hold⟩, hsaves⟩
      · rcases hnew with hlost | hnew
        · rw [hlost.checkpointOf_eq] at hv
          exact absurd hv (by simp)
        · obtain rfl := Option.some.inj (hnew.symm.trans hv)
          rw [hbackend]
          exact ⟨m, c, _, hw.wellFormed hm (hbegun rfl)⟩
      · rintro (hmute' | hoff | hwritable' | hlost)
        · exact hmute hmute'
        · exact absurd (hon.symm.trans hoff) (by simp)
        · exact hwritable' hwritable
        · rw [hlost.checkpointOf_eq] at hold
          exact absurd hold (by simp)
  · exact hstays (h.recordOf_of_ne hd hid)

/-- What would be kept of an attempt that has not changed. -/
theorem upToDate_eq (h : w.Answers d w') (hd : d.call.Steady x) (hattempt : w'.attempt = w.attempt) :
    upToDate m c w' = upToDate m c w := by
  rw [upToDate, h.backend_eq hd.orderly, hattempt]

/-- **The first save** at a step of the root list. -/
theorem Entering.save (hw : x.Entering begun id m c w) (hm : m ≤ x.plan.steps.length)
    (hbegun : id = x.runId → begun m c) (h : w.Answers d w')
    (hcall : d.call = .saveCheckpoint x.runId) (hon : x.engine.checkpoints = true) :
    x.AtRoot begun id m c w' ∧ Advances id w d w' := by
  have hd : d.call.Steady x := hcall ▸ .save hon
  have hattempt : w'.attempt = w.attempt := by rw [h.attempt_eq, hcall]; rfl
  obtain ⟨hstands, hadvances⟩ := hw.toStands.save hm hbegun
    (fun hid hstuck => (hw.link hid).resolve_left hstuck) h hcall hon
  refine ⟨⟨hstands, ?_⟩, hadvances⟩
  rintro rfl
  rcases hw.toStands.outcome_of_save h hcall with ⟨hmute | ⟨f, hf⟩, -⟩ | ⟨-, -, hlost | hnew⟩
  · exact .inl (.inl (hmute.of_fixed h.fixed))
  · refine .inl (.inr (.inr (.inl fun hwritable => ?_)))
    obtain ⟨data, hdata⟩ := Attempt.checkpoint_eq_ok (a := w.attempt)
      (hw.base ▸ Context.writable_iff.mpr hwritable) (by rw [hw.empty]; rfl)
    exact absurd (hf.symm.trans hdata) (by simp)
  · exact .inl (.inr (.inr (.inr hlost)))
  · rw [← upToDate_eq h hd hattempt] at hnew
    exact .inr ⟨_, hnew, fun key => .refl _⟩

/-- **A save** at a step of the root list. -/
theorem AtRoot.save (hw : x.AtRoot begun id m c w) (hm : m ≤ x.plan.steps.length)
    (hbegun : id = x.runId → begun m c) (h : w.Answers d w')
    (hcall : d.call = .saveCheckpoint x.runId) (hon : x.engine.checkpoints = true) :
    x.AtRoot begun id m c w' ∧ Advances id w d w' := by
  have hd : d.call.Steady x := hcall ▸ .save hon
  have hattempt : w'.attempt = w.attempt := by rw [h.attempt_eq, hcall]; rfl
  obtain ⟨hstands, hadvances⟩ := hw.toStands.save hm hbegun
    (fun hid hstuck _ => hw.succeeds hid hstuck) h hcall hon
  refine ⟨⟨hstands, ?_⟩, hadvances⟩
  rintro rfl
  rcases hw.toStands.outcome_of_save h hcall with ⟨-, hstores⟩ | ⟨-, -, hlost | hnew⟩
  · refine (hw.link rfl).imp (fun hstuck => hstuck.answers h hd) fun ⟨j, hj, hgoes⟩ => ⟨j, ?_, ?_⟩
    · rw [h.backend_eq hd.orderly, World.checkpointOf, World.recordOf, hstores]
      exact hj
    · rw [h.backend_eq hd.orderly, hattempt]
      exact hgoes
  · exact .inl (.inr (.inr (.inr hlost)))
  · rw [← upToDate_eq h hd hattempt] at hnew
    exact .inr ⟨_, hnew, fun key => .refl _⟩

/-- **Another deed** at a step of the root list: it leaves the checkpoint, and lets the entries of the
    journal go on. -/
theorem AtRoot.step (hw : x.AtRoot begun id m c w) (h : w.Answers d w') (hd : d.call.Steady x)
    (hsaves : ∀ other, d.call ≠ .saveCheckpoint other) (hcursor : w'.attempt.cursor = w.attempt.cursor)
    (hbase : w'.attempt.base = w.attempt.base) (hkeys : x.plan.Fits m w'.attempt.journal)
    (hgoes : ∀ key, JournalEntry.GoesOn (w.attempt.journal.get? key) (w'.attempt.journal.get? key)) :
    x.AtRoot begun id m c w' ∧ Advances id w d w' := by
  have hsame := h.checkpointOf_same hd.orderly hsaves fun _ => hw.sound.kept
  have hbackend := h.backend_eq hd.orderly
  refine ⟨⟨⟨hw.sound.of_eq hbackend hsame, hw.going.answers h hd, fun hid => ?_,
    hcursor.trans hw.cursor, hbase.trans hw.base, hkeys⟩, fun hid => ?_⟩, hw.sound.advances hsame hsaves⟩
  · rcases hsame with hlost | hsame
    · exact hlost.checkpointOf_eq
    · exact hsame.trans (hw.other hid)
  · rcases hw.link hid with hstuck | ⟨j, hj, hlink⟩
    · exact .inl (hstuck.answers h hd)
    · rcases hsame with hlost | hsame
      · exact .inl (.inr (.inr (.inr hlost)))
      · refine .inr ⟨j, by rw [hbackend]; exact hsame.trans hj, fun key => (hlink key).trans ?_⟩
        rw [hbackend, Backend.get?_keepsFields, Backend.get?_keepsFields]
        exact (hgoes key).keeps _

/-- A deed at a step of the root list that leaves the attempt alone. -/
theorem AtRoot.quiet (hw : x.AtRoot begun id m c w) (h : w.Answers d w') (hd : d.call.Steady x)
    (hsaves : ∀ other, d.call ≠ .saveCheckpoint other) (hattempt : w'.attempt = w.attempt) :
    x.AtRoot begun id m c w' ∧ Advances id w d w' :=
  hw.step h hd hsaves (by rw [hattempt]) (by rw [hattempt]) (by rw [hattempt]; exact hw.keys)
    fun key => by rw [hattempt]; exact .refl _

/-- The keys of the journal after a deed for a step inside. -/
theorem fits_after {s : Step} {S : Sites} {e : Prop} {q : StepPath}
    (hlayout : Layout pace x S e ds) (hS : ∀ q s', S q s' → s.Inside (.root m s.kind) q s')
    (hs : x.plan.steps[m]? = some s) (hd : d ∈ ds) (hstep : d.step = some q) {a : Attempt}
    (ha : x.plan.Fits m a.journal) : x.plan.Fits m (a.after d.call).journal := by
  have hcall := hlayout.treeCall hd hstep
  rcases hlayout.leaf_or_report hd hstep with ⟨s', hs', hleaf⟩ | ⟨r, hr⟩
  · intro key hkey
    rcases hcall.has_after a hkey with hold | rfl
    · exact ha key hold
    · obtain ⟨hhas, hroot⟩ := Plan.has_of_inside hs (hS q s' hs')
      exact ⟨q, s', rfl, hhas, hleaf, hroot⟩
  · rw [hr]
    exact ha

/-- **While the step is carried out**, the attempt stays at it. -/
theorem AtRoot.walk {s : Step} {c' : Context} (hw : x.AtRoot begun id m c w)
    (hm : m ≤ x.plan.steps.length) (hbegun : id = x.runId → begun m c)
    (hs : x.plan.steps[m]? = some s)
    (h : Fiber.Course pace t (x.walk s (.root m s.kind) c') ds r) :
    w.Through (Advances id) ds (x.AtRoot begun id m c) := by
  have hparts := x.walk_parts s (StepPath.proper_root m s) rfl h
  have hlayout := walk_layout s h
  have hsteps : OfSteps x ds := fun d hd => by
    obtain ⟨q, -, hproper, hstep, hcall⟩ := (hparts d hd).treeCall
    exact ⟨q, hproper, hstep, hcall⟩
  refine World.Through.of_along (hlayout.goesOn hsteps) (fun d hd u u' hu hu' hgoes => ?_) hw
  obtain ⟨q, -, -, hstep, hcall⟩ := (hparts d hd).treeCall
  by_cases hsave : ∃ other, d.call = .saveCheckpoint other
  · obtain ⟨other, hsave⟩ := hsave
    have hsteady := hcall.steady
    rw [hsave] at hsteady
    cases hsteady with
    | other hc => exact absurd hc (by simp [Call.writesRun])
    | save hon => exact hu.save hm hbegun hu' hsave hon
  · obtain ⟨-, hcursor, hbase⟩ := hcall.after_fields u.attempt
    rw [← hu'.attempt_eq] at hcursor hbase
    refine hu.step hu' hcall.steady (fun other h => hsave ⟨other, h⟩) hcursor hbase ?_ hgoes
    rw [hu'.attempt_eq]
    exact fits_after hlayout (fun _ _ h => h) hs hd hstep hu.keys

/-! ## The root list -/

/-- **The attempt can begin a step of the root list**: once more, with the journal that it has, or for
    the first time. -/
inductive MayEnter (x : Execution) (begun : Nat → Context → Prop) (id : String) (m : Nat) (c : Context)
    (w : World) : Bool → Prop where
  | again (h : x.AtRoot begun id m c w) : MayEnter x begun id m c w true
  | afresh (sound : w.Sound x.plan begun id) (going : w.Going id)
      (other : id ≠ x.runId → w.checkpointOf id = none)
      (link : id = x.runId → x.Stuck id c w ∨ ∀ data, w.checkpointOf id = some data →
        Succeeds data (checkpointData m (w.backend.keeps c.toValue) [])) :
      MayEnter x begun id m c w false

theorem MayEnter.tended {keepJournal : Bool} (hw : x.MayEnter begun id m c w keepJournal) :
    w.Tended x.plan begun id := by
  cases hw with
  | again h => exact h.sound.tended h.going
  | afresh sound going => exact sound.tended going

/-- To begin a step of the root list is to stand at it. -/
theorem MayEnter.step {keepJournal : Bool} (hw : x.MayEnter begun id m c w keepJournal)
    (h : w.Answers d w') (hcall : d.call = .enterStep m c keepJournal) :
    (x.AtRoot begun id m c w' ∨ x.Entering begun id m c w') ∧ Advances id w d w' := by
  have hd : d.call.Steady x := hcall ▸ .other rfl
  have hsaves : ∀ other, d.call ≠ .saveCheckpoint other := fun other h => by
    rw [hcall] at h
    exact absurd h (by simp)
  have hattempt : w'.attempt = w.attempt.enter m c keepJournal := by rw [h.attempt_eq, hcall]; rfl
  cases hw with
  | again hat =>
    -- the cursor and the context are those of the checkpoint already
    have hsame : w'.attempt = w.attempt := by
      rw [hattempt, Attempt.enter, ← hat.cursor, ← hat.base]
      rfl
    exact (hat.quiet h hd hsaves hsame).imp_left .inl
  | afresh sound going other link =>
    have hsame := h.checkpointOf_eq (hcall ▸ rfl) id
    have hbackend := h.backend_eq hd.orderly
    have hjournal : w'.attempt.journal = [] := by rw [hattempt]; rfl
    refine ⟨.inr ⟨⟨sound.of_eq hbackend (.inr hsame), going.answers h hd,
      fun hid => hsame.trans (other hid), by rw [hattempt]; rfl, by rw [hattempt]; rfl,
      by rw [hjournal]; exact x.plan.fits_nil m⟩, hjournal, fun hid => ?_⟩,
      sound.advances (.inr hsame) hsaves⟩
    rw [upToDate, hbackend, hjournal, hsame, Backend.keepsFields_nil]
    exact (link hid).imp_left fun hstuck => hstuck.answers h hd

/-- **The beginning of a step of the root list**, with everything it writes. -/
theorem MayEnter.enter {keepJournal : Bool} {q : Option (Except Fault Unit × Clock)}
    (hw : x.MayEnter begun id m c w keepJournal) (hm : m ≤ x.plan.steps.length)
    (hbegun : ds ≠ [] → id = x.runId → begun m c)
    (h : Program.Course pace none t (x.enter m keepJournal c).outcome ds q) :
    w.Through (Advances id) ds fun w' =>
      w'.Tended x.plan begun id ∧ (q ≠ none → x.AtRoot begun id m c w') := by
  have houtcome : (x.enter m keepJournal c).outcome
      = .ask (.enterStep m c keepJournal) fun _ => x.saveCheckpoint.outcome := rfl
  rw [houtcome] at h
  cases h with
  | stopped => exact .nil ⟨hw.tended, fun h => absurd rfl h⟩
  | ask _ _ rest =>
    replace hbegun := hbegun (by simp)
    refine World.Through.cons (fun hd => hw.step hd rfl) fun {w₁} hw₁ => ?_
    have htended : w₁.Tended x.plan begun id :=
      hw₁.elim (fun h => h.sound.tended h.going) fun h => h.sound.tended h.going
    rw [outcome_saveCheckpoint] at rest
    split at rest
    · next hon =>
      cases rest with
      | stopped => exact .nil ⟨htended, fun h => absurd rfl h⟩
      | ask _ _ rest =>
        have hsave {u : World} {d : Deed} (hd : w₁.Answers d u)
            (hcall : d.call = .saveCheckpoint x.runId) :
            x.AtRoot begun id m c u ∧ Advances id w₁ d u :=
          hw₁.elim (fun h => h.save hm hbegun hd hcall hon) fun h => h.save hm hbegun hd hcall hon
        refine World.Through.cons (fun hd => hsave hd rfl) fun {w₂} hw₂ => ?_
        rw [rest.of_done.1]
        exact .nil ⟨hw₂.sound.tended hw₂.going, fun _ => hw₂⟩
    · next hoff =>
      rw [rest.of_done.1]
      refine .nil ⟨htended, fun _ => ?_⟩
      rcases hw₁ with hat | hentering
      · exact hat
      · exact ⟨hentering.toStands, fun _ => .inl (.inr (.inl (Bool.not_eq_true _ ▸ hoff)))⟩

/-- What was done at a step of the root list that was carried out leads to the next one. -/
theorem AtRoot.next {c' : Context} (hw : x.AtRoot begun id m c w) (h : c.Extends c')
    (hlatest : c.Latest) : x.MayEnter begun id (m + 1) c' w false := by
  refine .afresh hw.sound hw.going hw.other fun hid => ?_
  refine (hw.link hid).imp (fun hstuck => hstuck.extends h hlatest) fun ⟨j, hj, _⟩ data hdata => ?_
  obtain rfl := Option.some.inj (hj.symm.trans hdata)
  exact .moves

end Execution

/-- **The last update** of a run that was completed. -/
theorem World.Tended.complete {p : Plan} {begun : Nat → Context → Prop} {id other : String}
    {c : Context} {w w' : World} {d : Deed} (hw : w.Tended p begun id) (h : w.Answers d w')
    (hcall : d.call = .updateRun other (RunRecord.completedUpdate c)) :
    w'.Tended p begun id ∧ Advances id w d w' := by
  have hd : d.call.Orderly := hcall ▸ .update _ (RunRecord.spares_completed c)
  have hsaves : ∀ other, d.call ≠ .saveCheckpoint other := fun other h => by
    rw [hcall] at h
    exact absurd h (by simp)
  have hsame := h.checkpointOf_same hd hsaves fun _ => hw.sound.kept
  refine ⟨⟨hw.sound.of_eq (h.backend_eq hd) hsame, fun r hr hstatus => ?_⟩,
    hw.sound.advances hsame hsaves⟩
  obtain ⟨step, call, answer, start, stop⟩ := d
  dsimp only at hcall
  subst hcall
  rw [h.updateRun_eq] at hr
  by_cases hid : id = other
  · subst hid
    rcases World.recordOf_writeRun_cases { w with clock := start } id (RunRecord.completedUpdate c) with
      hold | ⟨f, hf⟩ | ⟨existing, r₀, held, r', -, hr₀, hheld, hread, hr'⟩
    · exact hw.record r (hold ▸ hr) hstatus
    · exact absurd (hr.symm.trans hf) (by simp)
    · -- if the update was written, the record says that the run is completed
      obtain rfl := Option.some.inj (Except.ok.inj (hr.symm.trans hr'))
      have hword : (RunRecord.completedUpdate c).get? "status" = some (.text RunStatus.completed.word) := rfl
      have hcompleted := (RunRecord.update_fields hr₀).1
      rw [Update.field, Update.newValue?, hword] at hcompleted
      simp only [Value.present?, RunStatus.ofValue_word, Checked.under_eq_ok,
        Checked.ok.injEq] at hcompleted
      rw [(record_of_hold hheld hread).1, ← hcompleted] at hstatus
      exact absurd rfl hstatus
  · rw [World.recordOf_writeRun_of_ne _ _ hid] at hr
    exact hw.record r hr hstatus

namespace Execution

variable {x : Execution} {begun : Nat → Context → Prop} {id : String} {m : Nat} {c : Context}
  {w w' : World} {d : Deed} {ds es : List Deed} {pace : Clock → Clock → Prop} {t : Clock}
  {r : Option (Outcome × Clock)}

/-- **Where deeds come to a step of the root list**, the step has begun. -/
def Marks (pace : Clock → Clock → Prop) (x : Execution) (begun : Nat → Context → Prop)
    (ds : List Deed) : Prop :=
  ∀ {m : Nat} {keepJournal : Bool} {c : Context} {t : Clock} {pre es : List Deed}
    {r : Option (Outcome × Clock)}, ds = pre ++ es → es ≠ [] → c.Latest →
    Fiber.Course pace t (x.onward m keepJournal c) es r → begun m c

theorem Marks.right (h : Marks pace x begun (ds ++ es)) : Marks pace x begun es :=
  fun hes => h (by rw [hes, ← List.append_assoc])

/-- **The run lemma** for a step of the root list that was entered, and what is left behind it. -/
theorem AtRoot.afterEntry (hat : x.AtRoot begun id m c w) (hm : m ≤ x.plan.steps.length)
    (hlatest : c.Latest) (hbegun : id = x.runId → begun m c)
    (hmarks : id = x.runId → Marks pace x begun ds) (h : AfterEntry pace x m c t ds r) :
    w.Through (Advances id) ds (World.Tended x.plan begun id) := by
  -- by induction on the number of steps that are left
  obtain ⟨k, hk⟩ : ∃ k, m + k = x.plan.steps.length := ⟨_, Nat.add_sub_cancel' hm⟩
  induction k using Nat.strongRecOn generalizing m c w ds t r with | _ k ih =>
  cases h with
  | inside hs hwalk =>
    exact (hat.walk hm hbegun hs hwalk).weaken fun hw' => hw'.sound.tended hw'.going
  | @failed _ _ _ _ _ _ f _ hs hwalk _ hes =>
    refine (hat.walk hm hbegun hs hwalk).append fun {w₂} hw₂ => ?_
    refine (World.Through.of_keeps (fun d hd u u' hu hu' => ?_) hw₂).weaken
      fun hw' => hw'.sound.tended hw'.going
    obtain ⟨-, hcall⟩ := hes d hd
    have hsteady : Call.Steady x (.updateRun x.runId (RunRecord.failedUpdate f)) :=
      .update (RunRecord.calm_failed f) (RunRecord.spares_failed f)
    exact hu.quiet hu' (hcall ▸ hsteady)
      (fun other h => absurd (hcall.symm.trans h) (by simp)) (by rw [hu'.attempt_eq, hcall]; rfl)
  | @on s _ _ es fs _ fin _ hs hwalk hguarded hnext =>
    refine (hat.walk hm hbegun hs hwalk).append fun {w₂} hw₂ => ?_
    obtain ⟨hextends, hlatest'⟩ := x.walk_extends hlatest hwalk hguarded
    have hlt : m < x.plan.steps.length := (List.getElem?_eq_some_iff.mp hs).1
    have hmay : x.MayEnter begun id (m + 1) fin.context w₂
        (false && decide (m + 1 < x.plan.steps.length)) := hw₂.next hextends hlatest
    have hmarks' (hid : id = x.runId) : Marks pace x begun fs := Marks.right (hmarks hid)
    have hbegun' (hne : fs ≠ []) (hid : id = x.runId) : begun (m + 1) fin.context :=
      hmarks' hid (List.nil_append fs).symm hne hlatest' hnext
    cases onward_course hlt hnext with
    | entering henter => exact (hmay.enter hlt hbegun' henter).weaken fun hw' => hw'.1
    | entered henter hrest =>
      replace hbegun' := hbegun' (by simp [enter_ne_nil henter])
      refine (hmay.enter hlt (fun _ => hbegun') henter).append fun {w₃} hw₃ => ?_
      exact ih (k - 1) (by omega) (hw₃.2 (by simp)) hlt hlatest' hbegun'
        (fun hid => Marks.right (hmarks' hid)) hrest (by omega)
  | last _ hds =>
    refine World.Through.of_keeps (fun d hd u u' hu hu' => ?_) (hat.sound.tended hat.going)
    exact World.Tended.complete hu hu' (hds d hd).2

/-- **The run lemma** for what is left of the root list. -/
theorem onward_advances {keepJournal : Bool} (hm : m ≤ x.plan.steps.length) (hlatest : c.Latest)
    (hw : x.MayEnter begun id m c w (keepJournal && decide (m < x.plan.steps.length)))
    (hmarks : id = x.runId → Marks pace x begun ds)
    (h : Fiber.Course pace t (x.onward m keepJournal c) ds r) :
    w.Through (Advances id) ds (World.Tended x.plan begun id) := by
  have hbegun (hne : ds ≠ []) (hid : id = x.runId) : begun m c :=
    hmarks hid (List.nil_append ds).symm hne hlatest h
  cases onward_course hm h with
  | entering henter => exact (hw.enter hm hbegun henter).weaken fun hw' => hw'.1
  | entered henter hrest =>
    replace hbegun := hbegun (by simp [enter_ne_nil henter])
    refine (hw.enter hm (fun _ => hbegun) henter).append fun {w₁} hw₁ => ?_
    exact (hw₁.2 (by simp)).afterEntry hm hlatest hbegun (fun hid => Marks.right (hmarks hid)) hrest

/-- **An attempt** at the root list. -/
theorem carryOutFrom_advances {a : Attempt} {keepJournal : Bool} (hcursor : a.cursor = m)
    (hm : m ≤ x.plan.steps.length) (hlatest : a.base.Latest) (hw : w.Tended x.plan begun id)
    (hbegin : ∀ {d w'}, w.Answers d w' → d.call = .beginAttempt a →
      x.MayEnter begun id m a.base w' (keepJournal && decide (m < x.plan.steps.length)))
    (hmarks : id = x.runId → Marks pace x begun ds)
    (h : Fiber.Course pace t (x.carryOutFrom a keepJournal) ds r) :
    w.Through (Advances id) ds (World.Tended x.plan begun id) := by
  rw [carryOutFrom_onward hcursor] at h
  cases h with
  | stopped => exact .nil hw
  | @ask _ _ _ _ _ _ _ es _ _ _ rest =>
    refine World.Through.cons (fun {w₁} hd => ⟨hbegin hd rfl, ?_⟩) fun hw₁ => ?_
    · exact hw.sound.advances (.inr (hd.checkpointOf_eq rfl id)) fun other => by simp
    · refine onward_advances hm hlatest hw₁ (fun hid => ?_) rest
      exact fun hes => hmarks hid (by rw [hes]; rfl : _ = (_ :: _) ++ _)

end Execution

/-! ## Runs -/

section

variable {e : Engine} {source : PlanSource} {plan : Plan} {begun : Nat → Context → Prop} {id : String}
  {w : World} {ds : List Deed} {pace : Clock → Clock → Prop} {t : Clock}
  {r : Option (Outcome × Clock)}

/-- Nothing is written. -/
theorem World.Tended.idle (hw : w.Tended plan begun id) (hds : ∀ d ∈ ds, d.call.writesRun = false) :
    w.Through (Advances id) ds (World.Tended plan begun id) := by
  refine .of_keeps (fun d hd u u' hu hu' => ?_) hw
  have hcall := hds d hd
  refine ⟨hu.of_runs (hu'.runs_eq hcall), hu.sound.advances (.inr (hu'.checkpointOf_eq hcall id)) ?_⟩
  intro other h
  rw [h] at hcall
  exact absurd hcall (by simp [Call.writesRun])

/-- **Before an attempt begins**, the run goes on, and its checkpoint stays. -/
structure World.Waits (w₀ : World) (plan : Plan) (begun : Nat → Context → Prop) (id : String)
    (w : World) : Prop where
  sound : w.Sound plan begun id
  going : w.Going id
  backend : w.backend = w₀.backend
  same : w.Unreadable id ∨ w.checkpointOf id = w₀.checkpointOf id

theorem World.Waits.step {w₀ w' : World} {x : Execution} {d : Deed} (hw : w₀.Waits plan begun id w)
    (h : w.Answers d w') (hd : d.call.Steady x) (hsaves : ∀ other, d.call ≠ .saveCheckpoint other) :
    w₀.Waits plan begun id w' ∧ Advances id w d w' := by
  obtain ⟨⟨hsound, hgoing, hsame⟩, hadvances⟩ := hw.sound.quiet hw.going h hd hsaves
  refine ⟨⟨hsound, hgoing, (h.backend_eq hd.orderly).trans hw.backend, ?_⟩, hadvances⟩
  rcases hw.same with hlost | hsame₀
  · exact .inl (h.unreadable hd.orderly hlost)
  · exact hsame.imp_right fun hsame => hsame.trans hsame₀

theorem World.Waits.through {w₀ : World} {x : Execution} (hw : w₀.Waits plan begun id w)
    (hds : ∀ d ∈ ds, d.call.Steady x ∧ ∀ other, d.call ≠ .saveCheckpoint other) :
    w.Through (Advances id) ds (w₀.Waits plan begun id) :=
  .of_keeps (fun d hd _ _ hu hu' => hu.step hu' (hds d hd).1 (hds d hd).2) hw

/-- An update that does not complete the run. -/
theorem steady_of_writeRun {x : Execution} {updates : Keyed Value} (hcalm : RunRecord.Calm updates)
    (hspares : RunRecord.SparesCheckpoint updates) {q : Option (Except Fault Unit × Clock)}
    (h : Program.Course pace none t (x.writeRun updates).outcome ds q) :
    ∀ d ∈ ds, d.call.Steady x ∧ ∀ other, d.call ≠ .saveCheckpoint other := by
  intro d hd
  rw [(writeRun_course h d hd).2]
  exact ⟨.update hcalm hspares, by simp⟩

/-- **A run from its beginning**, where no checkpoint is stored. -/
theorem run_advances {given executionId : Option String} (haccept : source.accept = .ok plan)
    (hfresh : w.checkpointOf id = none) (hgoing : w.Going id)
    (hmarks : Execution.Marks pace ⟨e, plan, id⟩ begun ds)
    (h : Fiber.Course pace t (e.run source given executionId) ds r) :
    w.Through (Advances id) ds (World.Tended plan begun id) := by
  have hsound : w.Sound plan begun id := fun data hdata => by simp [hfresh] at hdata
  have hwaits : w.Waits plan begun id w := ⟨hsound, hgoing, rfl, .inr rfl⟩
  have hnone {w' : World} (hw' : w.Waits plan begun id w') : w'.checkpointOf id = none :=
    hw'.same.elim World.Unreadable.checkpointOf_eq fun hsame => hsame.trans hfresh
  have hid {ds q} (h : Program.Course pace none t (Engine.newRunId given).outcome ds q) :
      ∀ d ∈ ds, d.call.Steady ⟨e, plan, id⟩ ∧ ∀ other, d.call ≠ .saveCheckpoint other := by
    intro d hd
    rw [(h.makes (P := fun c => c = .freshId) (newRunId_makes given rfl) d hd).2]
    exact ⟨.other rfl, by simp⟩
  have hcalm := RunRecord.calm_announced plan executionId
  have hspares := RunRecord.spares_announced plan executionId
  cases RunCourse.of_course haccept h with
  | naming hfirst => exact (hwaits.through (hid hfirst)).weaken fun hw' => hw'.sound.tended hw'.going
  | announcing hfirst hwrite =>
    refine (hwaits.through (hid hfirst)).append fun {w₁} hw₁ => ?_
    exact (hw₁.through (steady_of_writeRun hcalm hspares hwrite)).weaken
      fun hw' => hw'.sound.tended hw'.going
  | @attempting runId _ _ _ _ _ _ _ hfirst hwrite hattempt =>
    refine (hwaits.through (hid hfirst)).append fun {w₁} hw₁ => ?_
    refine (hw₁.through (steady_of_writeRun hcalm hspares hwrite)).append fun {w₂} hw₂ => ?_
    have hlatest : (Engine.startContext plan runId).Latest := rfl
    refine Execution.carryOutFrom_advances (x := ⟨e, plan, runId⟩) (m := 0)
      (a := ⟨runId, 0, Engine.startContext plan runId, []⟩) rfl (Nat.zero_le _) hlatest
      (hw₂.sound.tended hw₂.going) (fun {d w₃} hd hcall => ?_) (fun hid => ?_) hattempt
    · have hsteady : d.call.Steady ⟨e, plan, runId⟩ := hcall ▸ .other rfl
      have hw₃ := (hw₂.step hd hsteady fun other h => by
        rw [hcall] at h
        exact absurd h (by simp)).1
      -- nothing is stored before the first save, so it goes on from anything
      refine .afresh hw₃.sound hw₃.going (fun _ => hnone hw₃) fun _ => .inr fun data hdata => ?_
      rw [hnone hw₃] at hdata
      exact absurd hdata (by simp)
    · obtain rfl : id = runId := hid
      exact Execution.Marks.right (Execution.Marks.right hmarks)

/-- **A run that is continued** from its checkpoint. -/
theorem continued_advances {record : RunRecord} {checkpoint : StoredCheckpoint} {snapshot : Value}
    {a : Attempt} (hlatest : ∀ k c, begun k c → c.Latest) (hwaits : w.Waits plan begun id w)
    (hrecord : w.recordOf id = .ok (some record))
    (hcheckpoint : StoredCheckpoint.ofMetadata record.metadata = .ok checkpoint)
    (hsnapshot : checkpoint.context? = some snapshot)
    (ha : (Context.restore snapshot).bind (checkpoint.toAttempt id) = .ok a)
    (hmarks : Execution.Marks pace ⟨e, plan, id⟩ begun ds)
    (h : Fiber.Course pace t (.ofAction (Execution.writeRun ⟨e, plan, id⟩ [("status", .text "running")])
      fun _ => Execution.carryOutFrom ⟨e, plan, id⟩ a true) ds r) :
    w.Through (Advances id) ds (World.Tended plan begun id) := by
  rcases hwaits.sound.found hrecord hcheckpoint with
    ⟨-, hnone⟩ | ⟨k, c, j, hdata, hwell, hcontext, hbind⟩
  · exact absurd (hsnapshot.symm.trans hnone) (by simp)
  · obtain rfl := Option.some.inj (hsnapshot.symm.trans hcontext)
    obtain rfl := Except.ok.inj (hbind.symm.trans ha)
    have hcalm := RunRecord.calm_continued
    have hspares := RunRecord.spares_continued
    cases writeRun_then h with
    | first hwrite =>
      exact (hwaits.through (steady_of_writeRun hcalm hspares hwrite)).weaken
        fun hw' => hw'.sound.tended hw'.going
    | both hwrite hrest =>
      refine (hwaits.through (steady_of_writeRun hcalm hspares hwrite)).append fun {w₁} hw₁ => ?_
      have hbase := Context.latest_keepsContext (hlatest k c hwell.begun) w.backend
      refine Execution.carryOutFrom_advances (m := k) rfl hwell.le hbase
        (hw₁.sound.tended hw₁.going) (fun {d w₂} hd hcall => ?_)
        (fun _ => Execution.Marks.right hmarks) hrest
      have hsteady : d.call.Steady ⟨e, plan, id⟩ := hcall ▸ .other rfl
      have hw₂ := (hw₁.step hd hsteady fun other h => by
        rw [hcall] at h
        exact absurd h (by simp)).1
      have hbegun : w₂.attempt = ⟨id, k, w.backend.keepsContext c, j⟩ := by
        rw [hd.attempt_eq, hcall]
        rfl
      have hkept : w₂.backend.keeps (w.backend.keepsContext c).toValue = w.backend.keeps c.toValue := by
        rw [hw₂.backend, Backend.toValue_keepsContext, Backend.keeps_keeps]
      have hstored : w₂.Unreadable id
          ∨ w₂.checkpointOf id = some (checkpointData k (w.backend.keeps c.toValue) j) :=
        hw₂.same.imp_right fun hsame => by rw [hsame, hdata, hwell.data_eq]
      dsimp only
      rcases Nat.lt_or_eq_of_le hwell.le with hlt | hend
      · rw [decide_eq_true hlt]
        refine .again ⟨⟨hw₂.sound, hw₂.going, fun hid => absurd rfl hid, by rw [hbegun],
          by rw [hbegun], by rw [hbegun]; exact hwell.keys⟩, fun _ => ?_⟩
        refine hstored.imp (fun hlost => .inr (.inr (.inr hlost))) fun hstored => ⟨j, ?_, fun key => ?_⟩
        · rw [hkept, hstored]
        · rw [hbegun, hw₂.backend, hwell.kept]
          exact .refl _
      · -- at the end of the list the journal is empty anyway
        have hnil : j = [] := by
          have hkeys := hwell.keys
          rw [hend] at hkeys
          exact hkeys.eq_nil
        rw [hend, decide_eq_false (Nat.lt_irrefl _)]
        refine .afresh hw₂.sound hw₂.going (fun hid => absurd rfl hid) fun _ => ?_
        refine hstored.imp (fun hlost => .inr (.inr (.inr hlost))) fun hstored data' hdata' => ?_
        obtain rfl := Option.some.inj (hstored.symm.trans hdata')
        rw [hkept, hnil, ← hend]
        exact .stays fun key => .refl _

/-- What is done of a run that was completed before writes nothing. -/
theorem completedBefore_idle (record : RunRecord) (checkpoint : StoredCheckpoint) :
    (Engine.completedBefore plan record checkpoint).outcome.Makes fun c => c.writesRun = false := by
  have hlast (context : Context) : Action.Makes (fun c => c.writesRun = false)
      (do Action.call (.beginAttempt ⟨record.runId, plan.steps.length, context, []⟩)
          return (⟨context, record.result⟩ : Finished)) :=
    Action.makes_bind (Action.makes_call rfl) fun _ => Action.makes_pure _
  unfold Engine.completedBefore
  cases checkpoint.context? with
  | some snapshot => exact Action.makes_bind (Action.makes_ofExcept _) hlast
  | none => exact Action.makes_pure_bind (hlast _)

/-- **A run that is continued** with the record that was found of it. -/
theorem resumeRecord_advances {record : RunRecord} (hlatest : ∀ k c, begun k c → c.Latest)
    (hw : w.Tended plan begun id) (hrecord : w.recordOf id = .ok (some record))
    (hmarks : Execution.Marks pace ⟨e, plan, id⟩ begun ds)
    (h : Fiber.Course pace t (e.resumeRecord plan record id) ds r) :
    w.Through (Advances id) ds (World.Tended plan begun id) := by
  have hgoing (hstatus : record.status ≠ .completed) : w.Going id := fun r hr => by
    obtain rfl := Option.some.inj (Except.ok.inj (hr.symm.trans hrecord))
    exact hw.record r hr hstatus
  cases RecordCourse.of_course h with
  | unreadable | refused | unrestored => exact .nil hw
  | completed _ _ hreturns => exact hw.idle fun d hd => (hreturns.makes (completedBefore_idle _ _) d hd).2
  | afresh hcheckpoint hstatus hsnapshot haccept hrun =>
    have hfresh : w.checkpointOf id = none := by
      rcases hw.sound.found hrecord hcheckpoint with ⟨hnone, -⟩ | ⟨_, _, _, -, -, hcontext, -⟩
      · exact hnone
      · exact absurd (hsnapshot.symm.trans hcontext) (by simp)
    exact run_advances haccept hfresh (hgoing hstatus) hmarks hrun
  | continued hcheckpoint hstatus hsnapshot ha hcourse =>
    exact continued_advances hlatest ⟨hw.sound, hgoing hstatus, rfl, .inr rfl⟩ hrecord hcheckpoint hsnapshot
      ha hmarks hcourse

/-- **A run that is continued.** -/
theorem resume_advances (haccept : source.accept = .ok plan) (hlatest : ∀ k c, begun k c → c.Latest)
    (hw : w.Tended plan begun id) (hmarks : Execution.Marks pace ⟨e, plan, id⟩ begun ds)
    (h : Fiber.Course pace t (e.resume source id) ds r) :
    w.Through (Advances id) ds (World.Tended plan begun id) := by
  cases ResumeCourse.of_course haccept h with
  | unbegun => exact .nil hw
  | failed | unknown => exact hw.idle (List.forall_mem_singleton.mpr rfl)
  | @found answer start stop record es _ hfound hrest =>
    have hlater : Execution.Marks pace ⟨e, plan, id⟩ begun
        ([⟨none, .store (.getRun id), answer, start, stop⟩] ++ es) := hmarks
    refine World.Through.cons (J := fun w' => w'.Tended plan begun id
      ∧ w'.recordOf id = .ok (some record)) (fun {w₁} hd => ?_) fun {w₁} hw₁ => ?_
    · have hrecord := hd.recordOf_of_found hfound
      refine ⟨⟨hw.of_runs (hd.runs_eq rfl), (hd.recordOf_eq rfl id).trans hrecord⟩, ?_⟩
      exact hw.sound.advances (.inr (hd.checkpointOf_eq rfl id)) fun other => by simp
    · exact resumeRecord_advances hlatest hw₁.1 hw₁.2 hlater.right hrest

end

/-! ## Chains -/

/-- **A trial begins a step of the root list** with a context: from some moment on it does what is left
    to do from that step on. -/
def Trial.Begins (pace : Clock → Clock → Prop) (plan : Plan) (id : String) (a : Trial) (k : Nat)
    (c : Context) : Prop :=
  ∃ keepJournal pre es t r, a.deeds = pre ++ es ∧ es ≠ []
    ∧ Fiber.Course pace t ((⟨a.engine, plan, id⟩ : Execution).onward k keepJournal c) es r

section

variable {pace : Clock → Clock → Prop} {source : PlanSource} {plan : Plan} {id : String}
  {a : Trial} {trials earlier later : List Trial} {w : World} {pre post : List Deed}

/-- The contexts with which the steps of the root list begin in some trials. -/
def Begun (pace : Clock → Clock → Prop) (plan : Plan) (id : String) (trials : List Trial) (k : Nat)
    (c : Context) : Prop :=
  c.Latest ∧ ∃ b ∈ trials, b.Begins pace plan id k c

theorem Begun.mono {others : List Trial} (h : trials ⊆ others) {k : Nat} {c : Context}
    (hbegun : Begun pace plan id trials k c) : Begun pace plan id others k c := by
  obtain ⟨hlatest, b, hb, hbegins⟩ := hbegun
  exact ⟨hlatest, b, h hb, hbegins⟩

/-- What a trial comes to has begun in it. -/
theorem marks_begun (h : a ∈ trials) :
    Execution.Marks pace ⟨a.engine, plan, id⟩ (Begun pace plan id trials) a.deeds :=
  fun hds hne hlatest hcourse => ⟨hlatest, a, h, _, _, _, _, _, hds, hne, hcourse⟩

/-- **A trial that goes on with a record that is tended**, whatever has begun before. -/
def Trial.Tends (pace : Clock → Clock → Prop) (plan : Plan) (id : String) (earlier : List Trial)
    (a : Trial) : Prop :=
  ∀ ⦃begun : Nat → Context → Prop⦄ ⦃pre post : List Deed⦄, a.deeds = pre ++ post →
    (∀ k c, Begun pace plan id earlier k c → begun k c) → (∀ k c, begun k c → c.Latest) →
    Execution.Marks pace ⟨a.engine, plan, id⟩ begun pre →
    a.before.Through (Advances id) pre (World.Tended plan begun id)

/-- The record after a trial. -/
theorem Trial.Tends.after (h : a.Tends pace plan id earlier) (hadmits : a.before.Admits a.deeds a.after) :
    a.after.Tended plan (Begun pace plan id (earlier ++ [a])) id := by
  have hmono : ∀ k c, Begun pace plan id earlier k c → Begun pace plan id (earlier ++ [a]) k c :=
    fun _ _ => Begun.mono (List.subset_append_left ..)
  exact (h (List.append_nil _).symm hmono (fun _ _ h => h.1) (marks_begun (by simp))).ends hadmits

end

/-! ### An instance -/

end Runbook
