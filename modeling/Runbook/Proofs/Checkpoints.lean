import Runbook.Proofs.Journal

/-!
# `Proofs.Checkpoints` — what the checkpoint of a run says

The checkpoint in a run record is one that an attempt at the plan could have saved, and it says of
some leaves that they have ended. An attempt at the run knows at least as much: whatever the
checkpoint says has ended, has ended by the attempt at hand, too.

## Contents
- **Checkpoints as data.** `SnapshotOf`, and `Sound`, what holds of every checkpoint of a plan.
- **Ended leaves.** `FinishedAt`, `World.Records`.
- **The invariant.** `Coupled` and its step lemma `Coupled.step`.
-/

namespace Runbook

/-! ## Checkpoints as data -/

/-- Data that is a checkpoint at a cursor with a journal. -/
def SnapshotOf (data : Value) (k : Int) (j : Keyed Value) : Prop :=
  ∃ context : Keyed Value, context ≠ []
    ∧ data = .object [("cursor", .int k), ("context", .object context), ("journal", .object j)]

/-- **What holds of every checkpoint** of a plan with `n` steps in its root list. -/
structure Sound (n : Nat) (k : Int) (j : Keyed Value) : Prop where
  nonneg : 0 ≤ k
  le : k ≤ n
  keys : ∀ q : StepPath, q.Proper → j.has q.text = true → q.rootIndex? = some k
  inside : j ≠ [] → k < n

theorem Attempt.snapshotOf_checkpoint {a : Attempt} {data : Value} (h : a.checkpoint = .ok data) :
    SnapshotOf data a.cursor a.journal := by
  unfold checkpoint at h
  obtain ⟨context, hcontext, h⟩ := Fault.bind_eq_ok.mp h
  split at h
  · exact absurd h (by simp)
  · unfold Context.snapshot at hcontext
    split at hcontext
    · exact absurd hcontext (by simp)
    · rw [← Except.ok.inj hcontext] at h
      exact ⟨_, by simp, (Except.ok.inj h).symm⟩

theorem SnapshotOf.storable {data : Value} {k : Int} {j : Keyed Value} (h : SnapshotOf data k j) :
    SnapshotOf data.storable k (Value.storableFields j) := by
  obtain ⟨context, hne, rfl⟩ := h
  exact ⟨Value.storableFields context, by rwa [Ne, storableFields_eq_nil_iff],
    by simp [Value.storable, Value.storableFields]⟩

theorem Sound.storable {n : Nat} {k : Int} {j : Keyed Value} (h : Sound n k j) :
    Sound n k (Value.storableFields j) where
  nonneg := h.nonneg
  le := h.le
  keys q hq hj := h.keys q hq (by simpa [Keyed.has, get?_storableFields] using hj)
  inside hj := h.inside (by rwa [Ne, storableFields_eq_nil_iff] at hj)

/-- What is read of a record that holds a checkpoint. -/
theorem SnapshotOf.read {data : Value} {k : Int} {j metadata : Keyed Value}
    (h : SnapshotOf data k j) (hdata : metadata.get? StoredCheckpoint.key = some data) :
    ∃ checkpoint context, StoredCheckpoint.ofMetadata metadata = .ok checkpoint
      ∧ checkpoint.context? = some context ∧ checkpoint.cursor = .ok k
      ∧ checkpoint.journal = .ok j := by
  obtain ⟨context, hne, rfl⟩ := h
  refine ⟨⟨[("cursor", .int k), ("context", .object context), ("journal", .object j)]⟩,
    .object context, ?_, ?_, ?_, ?_⟩
  · simp [StoredCheckpoint.ofMetadata, hdata, Value.truthy, Value.fields?]
  · simp [StoredCheckpoint.context?, Keyed.get?, Value.truthy, hne]
  · simp [StoredCheckpoint.cursor, Keyed.get?, StoredCheckpoint.integerOf]
  · cases j <;> simp [StoredCheckpoint.journal, Keyed.get?, Value.truthy, Value.fields?]

/-! ## Ended leaves -/

/-- A leaf has ended, as far as a cursor and a journal tell. -/
def FinishedAt (p : StepPath) (k : Int) (j : Keyed Value) : Prop :=
  (∃ i, p.rootIndex? = some i ∧ i < k) ∨ JournalEntry.Ended (j.get? p.text)

theorem FinishedAt.storable {p : StepPath} {k : Int} {j : Keyed Value} (h : FinishedAt p k j) :
    FinishedAt p k (Value.storableFields j) :=
  h.imp_right fun h => by rw [get?_storableFields]; exact h.storable

theorem finishedAt_of_storable {p : StepPath} {k : Int} {j : Keyed Value}
    (h : FinishedAt p k (Value.storableFields j)) : FinishedAt p k j :=
  h.imp_right fun h => JournalEntry.ended_of_storable (by rwa [get?_storableFields] at h)

/-- **A record says that a leaf has ended**: its checkpoint has a cursor behind the root step of the
    leaf, or an entry with an output or an error. -/
def World.Records (w : World) (id : String) (p : StepPath) : Prop :=
  ∃ r checkpoint k j, w.recordOf id = .ok (some r) ∧ r.metadata.has StoredCheckpoint.key = true
    ∧ StoredCheckpoint.ofMetadata r.metadata = .ok checkpoint ∧ checkpoint.cursor = .ok k
    ∧ checkpoint.journal = .ok j ∧ FinishedAt p k j

/-- A copy of a sound checkpoint is sound. -/
theorem Sound.kept {n : Nat} {data v : Value} {k : Int} {j : Keyed Value} (hkept : data.Kept v)
    (hsnapshot : SnapshotOf data k j) (hsound : Sound n k j) : ∃ j', SnapshotOf v k j' ∧ Sound n k j' := by
  rcases hkept with rfl | rfl
  · exact ⟨j, hsnapshot, hsound⟩
  · exact ⟨_, hsnapshot.storable, hsound.storable⟩

theorem SnapshotOf.eq {data : Value} {k k' : Int} {j j' : Keyed Value} (h : SnapshotOf data k j)
    (h' : SnapshotOf data k' j') : k' = k ∧ j' = j := by
  obtain ⟨_, -, rfl⟩ := h
  obtain ⟨_, -, hdata⟩ := h'
  simp only [Value.object.injEq, List.cons.injEq, Prod.mk.injEq, Value.int.injEq, true_and,
    and_true] at hdata
  exact ⟨hdata.1.symm, hdata.2.2.symm⟩

/-- A copy of a checkpoint says the same about leaves. -/
theorem finishedAt_kept_iff {data v : Value} {k k' : Int} {j j' : Keyed Value} {p : StepPath}
    (hkept : data.Kept v) (hsnapshot : SnapshotOf data k j) (hcopy : SnapshotOf v k' j') :
    FinishedAt p k' j' ↔ FinishedAt p k j := by
  rcases hkept with rfl | rfl
  · obtain ⟨rfl, rfl⟩ := hsnapshot.eq hcopy
    rfl
  · obtain ⟨rfl, rfl⟩ := hsnapshot.storable.eq hcopy
    exact ⟨finishedAt_of_storable, FinishedAt.storable⟩

/-! ## The invariant -/

namespace World

/-- Every checkpoint in the record of a run is one that an attempt could have saved. -/
def WellStored (n : Nat) (id : String) (w : World) : Prop :=
  ∀ data, w.checkpointOf id = some data → ∃ k j, SnapshotOf data k j ∧ Sound n k j

/-- The checkpoint in the record says that a leaf has ended. -/
def StoredFinished (id : String) (p : StepPath) (w : World) : Prop :=
  ∃ data k j, w.checkpointOf id = some data ∧ SnapshotOf data k j ∧ FinishedAt p k j

/-- No attempt will carry out a leaf again: its end is on record, or the record cannot be read. -/
def Settled (id : String) (p : StepPath) (w : World) : Prop :=
  w.Unreadable id ∨ w.StoredFinished id p

theorem Unreadable.checkpointOf_eq {w : World} {id : String} (h : w.Unreadable id) :
    w.checkpointOf id = none := by
  obtain ⟨f, hf⟩ := h
  rw [checkpointOf, hf]

theorem Records.storedFinished {n : Nat} {w : World} {id : String} {p : StepPath}
    (hw : w.WellStored n id) (h : w.Records id p) : w.StoredFinished id p := by
  obtain ⟨r, checkpoint, k, j, hr, hhas, hcheckpoint, hk, hj, hfinished⟩ := h
  obtain ⟨data, hdata⟩ := Option.isSome_iff_exists.mp hhas
  have hat : w.checkpointOf id = some data := checkpointOf_eq_some.mpr ⟨r, hr, hdata⟩
  obtain ⟨k', j', hsnapshot, -⟩ := hw data hat
  obtain ⟨checkpoint', _, hread, -, hk', hj'⟩ := hsnapshot.read hdata
  rw [hread] at hcheckpoint
  obtain rfl := Except.ok.inj hcheckpoint
  obtain rfl := Except.ok.inj (hk'.symm.trans hk)
  obtain rfl := Except.ok.inj (hj'.symm.trans hj)
  exact ⟨data, k', j', hat, hsnapshot, hfinished⟩

/-- **The invariant** of an attempt: the record holds sound checkpoints only, the attempt is sound,
    what the record says has ended has ended by the attempt, and so has the leaf when that was known
    from the start. -/
structure Coupled (n : Nat) (id : String) (p : StepPath) (known : Prop) (w : World) : Prop where
  stored : w.WellStored n id
  sound : Sound n w.attempt.cursor w.attempt.journal
  link : w.StoredFinished id p → FinishedAt p w.attempt.cursor w.attempt.journal
  known : known → FinishedAt p w.attempt.cursor w.attempt.journal

/-- What a deed does to the record, when checkpoints that are saved are sound. -/
theorem Answers.wellStored {n : Nat} {id : String} {w w' : World} {d : Deed} (h : w.Answers d w')
    (hd : d.call.Orderly) (hw : w.WellStored n id)
    (hsound : (∃ other, d.call = .saveCheckpoint other) → Sound n w.attempt.cursor w.attempt.journal) :
    w'.WellStored n id := by
  intro v hv
  cases h.checkpointStep hd id with
  | unreadable hlost => rw [hlost.checkpointOf_eq] at hv; exact absurd hv (by simp)
  | stays hsame => rw [hsame] at hv; exact hw v hv
  | copied hcopy =>
    rw [hcopy] at hv
    obtain ⟨data, hdata, rfl⟩ := Option.map_eq_some_iff.mp hv
    obtain ⟨k, j, hsnapshot, hs⟩ := hw data hdata
    exact ⟨k, _, hsnapshot.storable, hs.storable⟩
  | saved hsaving hdata hkept hnew =>
    rw [hnew] at hv
    obtain rfl := Option.some.inj hv
    exact ⟨_, Sound.kept hkept (Attempt.snapshotOf_checkpoint hdata) (hsound hsaving)⟩

/-- A deed leaves what the record says of a leaf, or makes it say what the attempt says. -/
theorem Answers.storedFinished {n : Nat} {id : String} {p : StepPath} {w w' : World} {d : Deed}
    (h : w.Answers d w') (hd : d.call.Orderly) (hstored : w.WellStored n id)
    (hw : w'.StoredFinished id p) :
    w.StoredFinished id p
      ∨ (∃ other, d.call = .saveCheckpoint other)
        ∧ FinishedAt p w.attempt.cursor w.attempt.journal := by
  obtain ⟨v, k, j, hv, hsnapshot, hfinished⟩ := hw
  cases h.checkpointStep hd id with
  | unreadable hlost => rw [hlost.checkpointOf_eq] at hv; exact absurd hv (by simp)
  | stays hsame => rw [hsame] at hv; exact .inl ⟨v, k, j, hv, hsnapshot, hfinished⟩
  | copied hcopy =>
    rw [hcopy] at hv
    obtain ⟨data, hdata, rfl⟩ := Option.map_eq_some_iff.mp hv
    obtain ⟨k', j', hdata', -⟩ := hstored data hdata
    exact .inl ⟨data, k', j', hdata, hdata',
      (finishedAt_kept_iff (.inr rfl) hdata' hsnapshot).mp hfinished⟩
  | saved hsaving hdata hkept hnew =>
    rw [hnew] at hv
    obtain rfl := Option.some.inj hv
    exact .inr ⟨hsaving,
      (finishedAt_kept_iff hkept (Attempt.snapshotOf_checkpoint hdata) hsnapshot).mp hfinished⟩

/-- What is known to have ended stays known. -/
theorem Answers.settled {id : String} {p : StepPath} {w w' : World} {d : Deed}
    (h : w.Answers d w') (hd : d.call.Orderly) (hw : w.Settled id p)
    (hsaves : (∃ other, d.call = .saveCheckpoint other) → w.StoredFinished id p →
      FinishedAt p w.attempt.cursor w.attempt.journal) : w'.Settled id p := by
  rcases hw with hlost | hfinished
  · exact .inl (h.unreadable hd hlost)
  · obtain ⟨data, k, j, hdata, hsnapshot, hat⟩ := hfinished
    cases h.checkpointStep hd id with
    | unreadable hlost => exact .inl hlost
    | stays hsame => exact .inr ⟨data, k, j, hsame.trans hdata, hsnapshot, hat⟩
    | copied hcopy =>
      exact .inr ⟨_, k, _, by rw [hcopy, hdata]; rfl, hsnapshot.storable, hat.storable⟩
    | saved hsaving hdata' hkept hnew =>
      have hattempt := hsaves hsaving ⟨data, k, j, hdata, hsnapshot, hat⟩
      have hsnapshot' := Attempt.snapshotOf_checkpoint hdata'
      rcases hkept with rfl | rfl
      · exact .inr ⟨_, _, _, hnew, hsnapshot', hattempt⟩
      · exact .inr ⟨_, _, _, hnew, hsnapshot'.storable, hattempt.storable⟩

/-- **The step lemma.** A deed that touches the record by the rules, leaves the attempt sound and
    forgets no leaf that has ended keeps the invariant. -/
theorem Coupled.step {n : Nat} {id : String} {p : StepPath} {known : Prop} {w w' : World} {d : Deed}
    (hw : Coupled n id p known w) (h : w.Answers d w') (hd : d.call.Orderly)
    (hsound : Sound n w'.attempt.cursor w'.attempt.journal)
    (hforget : FinishedAt p w.attempt.cursor w.attempt.journal →
      FinishedAt p w'.attempt.cursor w'.attempt.journal) :
    Coupled n id p known w' ∧ (w.Settled id p → w'.Settled id p) where
  left :=
    { stored := h.wellStored hd hw.stored fun _ => hw.sound
      sound := hsound
      link := fun hstored => by
        rcases h.storedFinished hd hw.stored hstored with hold | ⟨-, hold⟩
        · exact hforget (hw.link hold)
        · exact hforget hold
      known := fun hknown => hforget (hw.known hknown) }
  right hsettled := h.settled hd hsettled fun _ => hw.link

end World

end Runbook
