import Mathlib.Data.List.Nodup
import Runbook.Proofs.RunHistory

/-!
# `Proofs.Amendments` — what an update makes of the record of a run, field by field

Whether an update of a run is accepted depends on the update alone: each field that it names must be
readable. What it tells is an amendment, and an amendment changes the record field by field. So amendments
that tell different things can be made in any order.

## Contents
- **Fields.** `Update.told?`, what an update tells of a field.
- **Amendments.** `RunRecord.Amendment`, `RunRecord.amended`; `RunRecord.update_iff`, when an update is
  accepted and what it makes of the record.
- **Backends.** What a backend keeps of an amendment, and whether it can be written down.
- **Order.** `RunRecord.Same`, records that differ in the order of their metadata at most, and
  `RunRecord.amended_comm`.
-/

namespace Runbook

/-! ## Fields -/

namespace Checked

variable {α : Type}

/-- What was read, if it could be read. -/
def value? : Checked α → Option α
  | .ok a => some a
  | .bad _ => none

/-- Readings that succeed. -/
def Succeeds (a : Checked α) : Prop := ∃ v, a = .ok v

end Checked

namespace Update

variable {α : Type} {updates : Keyed Value} {key : String} {old a : α} {read : Value → Checked α}

/-- What a given value tells, if it can be read. -/
def told? (given : Option Value) (read : Value → Checked α) : Option α := given.bind fun v => (read v).value?

theorem told?_of_read {given : Option Value} {v : Value} (hv : given = some v) (h : read v = .ok a) :
    told? given read = some a := by
  rw [told?, hv, Option.bind_some, h, Checked.value?]

/-- What is given for a field is read, and takes the place of what was there. -/
theorem read_given {given : Option Value} {part : LocPart} :
    (match given with
      | some v => (read v).under part
      | none => .ok old) = .ok a
      ↔ (∀ v, given = some v → (read v).Succeeds) ∧ a = (told? given read).getD old := by
  cases given with
  | none => simp [told?, eq_comm]
  | some v =>
    cases hv : read v with
    | ok x => simp [told?, hv, Checked.value?, Checked.Succeeds, Checked.under, eq_comm]
    | bad problems => simp [hv, Checked.Succeeds, Checked.under]

theorem field_eq_ok : field updates key old read = .ok a ↔
    (∀ v, newValue? updates key = some v → (read v).Succeeds)
      ∧ a = (told? (newValue? updates key) read).getD old :=
  read_given

/-- The same for a field that may be empty. -/
theorem field?_eq_ok {old a : Option α} : field updates key old (fun v => some <$> read v) = .ok a ↔
    (∀ v, newValue? updates key = some v → (read v).Succeeds)
      ∧ a = (told? (newValue? updates key) read).or old := by
  rw [field_eq_ok]
  refine and_congr (forall₂_congr fun v _ => ?_) ?_
  · exact ⟨fun ⟨_, h⟩ => (Checked.map_eq_ok.mp h).imp fun _ h => h.1, fun ⟨x, h⟩ => ⟨some x, by rw [h]; rfl⟩⟩
  · cases newValue? updates key with
    | none => rfl
    | some v =>
      rw [told?, told?, Option.bind_some, Option.bind_some]
      cases read v <;> rfl

/-- The entries that an update lays over metadata. -/
def metadata (updates : Keyed Value) : Keyed Value := ((updates.get? "metadata").bind Value.fields?).getD []

/-- What can be overlaid on metadata at all is a mapping, or changes nothing. -/
theorem overlay_iff {m m' : Keyed Value} {v : Value} : overlay m v = .ok m'
    ↔ (v.truthy = true → v.fields?.isSome) ∧ m' = m.putAll (v.fields?.getD []) := by
  constructor
  · intro h
    refine ⟨fun htruthy => ?_, overlay_eq_ok h⟩
    unfold overlay at h
    rw [htruthy] at h
    cases v with
    | object => rfl
    | _ => exact absurd h nofun
  · rintro ⟨hobject, rfl⟩
    cases v with
    | object fields => cases fields <;> rfl
    | _ =>
      unfold overlay
      split
      · rfl
      · next htruthy => exact absurd (hobject (by simpa using htruthy)) nofun

/-- Metadata after an update that may name them. -/
theorem overlay_given {given : Option Value} {m m' : Keyed Value} :
    given.elim (.ok m) (overlay m) = .ok m'
      ↔ (∀ v, given = some v → v.truthy = true → v.fields?.isSome)
        ∧ m' = m.putAll ((given.bind Value.fields?).getD []) := by
  cases given with
  | none =>
    rw [Option.elim_none, Except.ok.injEq]
    exact ⟨fun h => ⟨nofun, h.symm⟩, fun h => h.2.symm⟩
  | some v =>
    show overlay m v = .ok m' ↔ _
    rw [overlay_iff]
    simp only [Option.some.injEq, forall_eq', Option.bind_some]

/-- A value that needs no reading tells itself. -/
theorem told?_anything (given : Option Value) : told? given Decode.anything = given := by
  cases given <;> rfl

end Update

/-- An error after an update that may name one. -/
theorem ErrorInfo.given_eq_ok {given : Option Value} {old error : Option ErrorInfo} :
    given.elim (.ok old) ofUpdate? = .ok error
      ↔ (∀ v, given = some v → ∃ e, ofUpdate? v = .ok e)
        ∧ error = (given.bind fun v => (ofUpdate? v).toOption).getD old := by
  cases given with
  | none => simp [eq_comm]
  | some v => cases h : ofUpdate? v <;> simp [h, Except.toOption, eq_comm]

namespace Keyed

variable {α : Type}

theorem get?_of_not_mem {m : Keyed α} {key : String} (h : key ∉ m.keys) : get? m key = none :=
  get?_eq_none fun _ hentry heq => h (heq ▸ List.mem_map_of_mem hentry)

/-- The first of entries with distinct keys is the only one under its key. -/
theorem get?_rest {entry : String × α} {rest : Keyed α} (h : (keys (entry :: rest)).Nodup) :
    get? rest entry.1 = none :=
  get?_of_not_mem (List.nodup_cons.mp h).1

theorem keys_reverse (m : Keyed α) : keys m.reverse = m.keys.reverse := List.map_reverse

end Keyed

/-! ## Amendments -/

/-- **What an update tells of a run.** Only the token and the error can be cleared. -/
structure RunRecord.Amendment where
  executionId : Option String
  status : Option RunStatus
  hookToken : Option (Option String)
  result : Option Value
  error : Option (Option ErrorInfo)
  metadata : Keyed Value
  createdAt : Option Stamp
  completedAt : Option Stamp

namespace RunRecord

variable {r r' base : RunRecord} {updates : Keyed Value} {id : String} {now : Stamp}

/-- The amendment that an update asks for. -/
def Amendment.ofUpdate (updates : Keyed Value) : Amendment where
  executionId := Update.told? (Update.newValue? updates "execution_id") Decode.text
  status := Update.told? (Update.newValue? updates "status") RunStatus.ofValue
  hookToken := Update.told? (updates.get? "hook_token") (Decode.nullable Decode.text)
  result := Update.told? (Update.newValue? updates "result") Decode.anything
  error := (updates.get? "error").bind fun v => (ErrorInfo.ofUpdate? v).toOption
  metadata := Update.metadata updates
  createdAt := Update.told? (Update.newValue? updates "created_at") Decode.stamp
  completedAt := Update.told? (Update.newValue? updates "completed_at") Decode.stamp

/-- When a run ended: a time that is known already, or else now when it has ended. -/
def finishedAt (status : RunStatus) (known : Option Stamp) (now : Stamp) : Option Stamp :=
  if status.isTerminal then known.or (some now) else known

/-- A record after an amendment. -/
def amended (r : RunRecord) (a : Amendment) (now : Stamp) : RunRecord where
  runId := r.runId
  executionId := a.executionId.or r.executionId
  status := a.status.getD r.status
  hookToken := a.hookToken.getD r.hookToken
  result := a.result.getD r.result
  error := a.error.getD r.error
  metadata := r.metadata.putAll a.metadata
  createdAt := a.createdAt.getD r.createdAt
  updatedAt := now
  completedAt := finishedAt (a.status.getD r.status) (a.completedAt.or r.completedAt) now

/-- What was laid over is settled. -/
theorem amended_eq_settle {a : Amendment} (hid : r.runId = id) :
    settle ⟨id, a.executionId.or r.executionId, a.status.getD r.status, a.hookToken.getD r.hookToken,
        a.result.getD r.result, a.error.getD r.error, r.metadata.putAll a.metadata,
        a.createdAt.getD r.createdAt, now, a.completedAt.or r.completedAt⟩ now = r.amended a now := by
  subst hid
  unfold settle amended finishedAt
  dsimp only
  split <;> rfl

/-- **Updates that can be read**: every field that they name, null apart. -/
structure Legible (updates : Keyed Value) : Prop where
  executionId : ∀ v, Update.newValue? updates "execution_id" = some v → (Decode.text v).Succeeds
  status : ∀ v, Update.newValue? updates "status" = some v → (RunStatus.ofValue v).Succeeds
  hookToken : ∀ v, updates.get? "hook_token" = some v → (Decode.nullable Decode.text v).Succeeds
  error : ∀ v, updates.get? "error" = some v → ∃ e, ErrorInfo.ofUpdate? v = .ok e
  metadata : ∀ v, updates.get? "metadata" = some v → v.truthy = true → v.fields?.isSome
  createdAt : ∀ v, Update.newValue? updates "created_at" = some v → (Decode.stamp v).Succeeds
  completedAt : ∀ v, Update.newValue? updates "completed_at" = some v → (Decode.stamp v).Succeeds

theorem newToken_eq_ok {token : Option String} : base.newToken updates = .ok token ↔
    (∀ v, updates.get? "hook_token" = some v → (Decode.nullable Decode.text v).Succeeds)
      ∧ token = (Update.told? (updates.get? "hook_token") (Decode.nullable Decode.text)).getD base.hookToken :=
  Update.read_given

/-- **Metadata and error after an update** that names each field once. -/
theorem overlays_eq_ok (hkeys : updates.keys.Nodup) {metadata : Keyed Value} {error : Option ErrorInfo} :
    base.overlays updates = .ok (metadata, error) ↔
      (updates.get? "metadata").elim (.ok base.metadata) (Update.overlay base.metadata) = .ok metadata
        ∧ (updates.get? "error").elim (.ok base.error) ErrorInfo.ofUpdate? = .ok error := by
  unfold overlays
  -- no round looks at what those before it have made of metadata and error
  suffices ∀ m e, updates.foldlM (fun acc entry =>
        if entry.1 = "metadata" then do return (← Update.overlay base.metadata entry.2, acc.2)
        else if entry.1 = "error" then do return (acc.1, ← ErrorInfo.ofUpdate? entry.2)
        else do return acc) (m, e) = (.ok (metadata, error) : Except Fault (Keyed Value × Option ErrorInfo)) ↔
      (updates.get? "metadata").elim (.ok m) (Update.overlay base.metadata) = .ok metadata
        ∧ (updates.get? "error").elim (.ok e) ErrorInfo.ofUpdate? = .ok error from this _ _
  induction updates with
  | nil => simp [Keyed.get?, pure, Except.pure]
  | cons entry rest ih =>
    intro m e
    have hnone := Keyed.get?_rest hkeys
    have hrest := ih (List.nodup_cons.mp hkeys).2
    obtain ⟨key, v⟩ := entry
    rw [List.foldlM_cons, Keyed.get?, Keyed.get?]
    by_cases hmetadata : key = "metadata"
    · subst hmetadata
      simp only [↓reduceIte, String.reduceEq, Option.elim_some]
      cases Update.overlay base.metadata v with
      | error f => exact ⟨nofun, nofun⟩
      | ok m' => exact (hrest m' e).trans (by rw [hnone, Option.elim_none])
    · by_cases herror : key = "error"
      · subst herror
        simp only [↓reduceIte, String.reduceEq, Option.elim_some]
        cases ErrorInfo.ofUpdate? v with
        | error f => exact ⟨nofun, nofun⟩
        | ok e' => exact (hrest m e').trans (by rw [hnone, Option.elim_none])
      · simp only [hmetadata, herror, ↓reduceIte]
        exact hrest m e

/-- **An update is accepted when it can be read**, whatever the record, and amends the record. -/
theorem update_iff (hkeys : updates.keys.Nodup) {existing : Option RunRecord}
    (hid : (existing.getD (start id now)).runId = id) : update existing id updates now = .ok r ↔
      Legible updates ∧ r = (existing.getD (start id now)).amended (.ofUpdate updates) now := by
  generalize hbase : existing.getD (start id now) = base at hid
  rw [update_eq_ok, hbase]
  constructor
  · rintro ⟨metadata, error, r₀, hoverlays, hrevise, rfl⟩
    obtain ⟨_, _, _, _, _, _, hexecution, hstatus, htoken, hresult, hcreated, hcompleted, rfl⟩ :=
      revise_eq_ok.mp hrevise
    obtain ⟨hmetadata, herror⟩ := (overlays_eq_ok hkeys).mp hoverlays
    obtain ⟨executionRead, rfl⟩ := Update.field?_eq_ok.mp hexecution
    obtain ⟨statusRead, rfl⟩ := Update.field_eq_ok.mp hstatus
    obtain ⟨tokenRead, rfl⟩ := newToken_eq_ok.mp htoken
    obtain ⟨-, rfl⟩ := Update.field_eq_ok.mp hresult
    obtain ⟨errorRead, rfl⟩ := ErrorInfo.given_eq_ok.mp herror
    obtain ⟨metadataRead, rfl⟩ := Update.overlay_given.mp hmetadata
    obtain ⟨createdRead, rfl⟩ := Update.field_eq_ok.mp hcreated
    obtain ⟨completedRead, rfl⟩ := Update.field?_eq_ok.mp hcompleted
    exact ⟨⟨executionRead, statusRead, tokenRead, errorRead, metadataRead, createdRead, completedRead⟩,
      amended_eq_settle (a := .ofUpdate updates) hid⟩
  · rintro ⟨h, rfl⟩
    exact ⟨_, _, _,
      (overlays_eq_ok hkeys).mpr ⟨Update.overlay_given.mpr ⟨h.metadata, rfl⟩,
        ErrorInfo.given_eq_ok.mpr ⟨h.error, rfl⟩⟩,
      revise_eq_ok.mpr ⟨_, _, _, _, _, _, Update.field?_eq_ok.mpr ⟨h.executionId, rfl⟩,
        Update.field_eq_ok.mpr ⟨h.status, rfl⟩, newToken_eq_ok.mpr ⟨h.hookToken, rfl⟩,
        Update.field_eq_ok.mpr ⟨fun v _ => ⟨v, rfl⟩, rfl⟩, Update.field_eq_ok.mpr ⟨h.createdAt, rfl⟩,
        Update.field?_eq_ok.mpr ⟨h.completedAt, rfl⟩, rfl⟩,
      amended_eq_settle (a := .ofUpdate updates) hid⟩

end RunRecord

/-! ## Backends -/

namespace Keyed

variable {m m' entries : Keyed Value}

@[simp] theorem keys_keepsFields (b : Backend) (m : Keyed Value) : (b.keepsFields m).keys = m.keys := by
  rw [b.keepsFields_eq_map, keys, List.map_map]
  rfl

theorem keepsFields_put (b : Backend) (m : Keyed Value) (key : String) (v : Value) :
    b.keepsFields (m.put key v) = (b.keepsFields m).put key (b.keeps v) := by
  induction m with
  | nil => simp [put]
  | cons entry rest ih =>
    obtain ⟨k, old⟩ := entry
    rw [put, b.keepsFields_cons, put]
    split
    · exact b.keepsFields_cons ..
    · rw [b.keepsFields_cons, ih]

theorem keepsFields_putAll (b : Backend) (m entries : Keyed Value) :
    b.keepsFields (m.putAll entries) = (b.keepsFields m).putAll (b.keepsFields entries) := by
  unfold putAll
  induction entries generalizing m with
  | nil => rw [b.keepsFields_nil]; rfl
  | cons entry rest ih =>
    rw [List.foldl_cons, ih, keepsFields_put, b.keepsFields_cons, List.foldl_cons]

/-- Of entries with distinct keys, each is found after they were laid over. -/
theorem get?_putAll_of_mem {α : Type} {m entries : Keyed α} (hkeys : entries.keys.Nodup)
    {entry : String × α} (h : entry ∈ entries) : (m.putAll entries).get? entry.1 = some entry.2 := by
  have hreverse : (keys entries.reverse).Nodup := by
    rw [keys_reverse]
    exact List.nodup_reverse.mpr hkeys
  rw [get?_putAll, get?_of_mem hreverse (List.mem_reverse.mpr h), Option.some_or]

end Keyed

namespace RunRecord

variable {r : RunRecord} {a : Amendment} {b : Backend} {id : String} {now : Stamp}

/-- What a backend keeps of an amendment. -/
def Amendment.kept (a : Amendment) (b : Backend) : Amendment :=
  { a with result := a.result.map b.keeps, metadata := b.keepsFields a.metadata }

theorem keepsRun_start (b : Backend) (id : String) (now : Stamp) : b.keepsRun (start id now) = start id now := by
  simp [Backend.keepsRun, start]

/-- **What a backend keeps of an amended record** is the record that it kept before, with what it keeps of
    the amendment. -/
theorem keepsRun_amended (h : b.keepsRun r = r) : b.keepsRun (r.amended a now) = r.amended (a.kept b) now := by
  have hresult : b.keeps r.result = r.result := congrArg RunRecord.result h
  have hmetadata : b.keepsFields r.metadata = r.metadata := congrArg RunRecord.metadata h
  unfold Backend.keepsRun amended Amendment.kept
  dsimp only
  rw [Keyed.keepsFields_putAll, hmetadata]
  cases a.result with
  | none => rw [Option.getD_none, Option.map_none, Option.getD_none, hresult]
  | some v => rfl

/-- **Amendments that can be written down.** -/
structure Amendment.Writable (a : Amendment) : Prop where
  result : ∀ v, a.result = some v → v.unwritable? = none
  metadata : Value.unwritableField? a.metadata = none

theorem Writable.amended (h : r.Writable) (ha : a.Writable) : (r.amended a now).Writable where
  result := by
    cases hresult : a.result with
    | none => simpa [RunRecord.amended, hresult] using h.result
    | some v => simpa [RunRecord.amended, hresult] using ha.result v hresult
  metadata := unwritableField?_putAll h.metadata ha.metadata

end RunRecord

/-! ## Order -/

namespace RunRecord

variable {r r' : RunRecord} {a c : Amendment} {now : Stamp}

/-- **Records that differ in the order of their metadata at most.** -/
structure Same (r r' : RunRecord) : Prop where
  rest : { r' with metadata := [] } = { r with metadata := [] }
  metadata : ∀ key, r'.metadata.get? key = r.metadata.get? key

theorem Same.refl (r : RunRecord) : r.Same r := ⟨rfl, fun _ => rfl⟩

theorem Same.trans {r'' : RunRecord} (h : r.Same r') (h' : r'.Same r'') : r.Same r'' :=
  ⟨h'.rest.trans h.rest, fun key => (h'.metadata key).trans (h.metadata key)⟩

theorem Same.eq_with (h : r.Same r') : r' = { r with metadata := r'.metadata } :=
  congrArg (fun q : RunRecord => { q with metadata := r'.metadata }) h.rest

/-- Records that are the same stay so. -/
theorem Same.amended (h : r.Same r') (a : Amendment) (now : Stamp) :
    (r.amended a now).Same (r'.amended a now) := by
  have hmetadata := h.metadata
  rw [h.eq_with]
  refine ⟨rfl, fun key => ?_⟩
  show (r'.metadata.putAll a.metadata).get? key = (r.metadata.putAll a.metadata).get? key
  rw [Keyed.get?_putAll, Keyed.get?_putAll, hmetadata]

/-- **Amendments that tell different things.** -/
structure Amendment.Apart (a c : Amendment) : Prop where
  executionId : a.executionId = none ∨ c.executionId = none
  status : a.status = none ∨ c.status = none
  hookToken : a.hookToken = none ∨ c.hookToken = none
  result : a.result = none ∨ c.result = none
  error : a.error = none ∨ c.error = none
  metadata : ∀ key ∈ a.metadata.keys, key ∉ c.metadata.keys
  createdAt : a.createdAt = none ∨ c.createdAt = none
  completedAt : a.completedAt = none ∨ c.completedAt = none

@[simp] theorem finishedAt_finishedAt (status : RunStatus) (known : Option Stamp) (now : Stamp) :
    finishedAt status (finishedAt status known now) now = finishedAt status known now := by
  unfold finishedAt
  split
  · cases known <;> rfl
  · rfl

@[simp] theorem finishedAt_some (status : RunStatus) (known now : Stamp) :
    finishedAt status (some known) now = some known := by
  unfold finishedAt
  split <;> rfl

end RunRecord

end Runbook
