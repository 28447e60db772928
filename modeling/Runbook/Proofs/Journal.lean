import Runbook.Proofs.RunRecords
import Runbook.Proofs.StepCourse

/-!
# `Proofs.Journal` — the journal while steps are carried out

What is done for a step changes the journal under the text of its path only, and an entry that says
how a step ended is never taken back to one that does not.

## Contents
- **Ended entries.** `JournalEntry.Ended`, and that they are replayed.
- **Changes.** What a call of a step does to the attempt.
-/

namespace Runbook

/-! ## Ended entries -/

/-- **An entry that says how its step ended**: it holds an output or an error. -/
def JournalEntry.Ended (found : Option Value) : Prop :=
  ∃ fields : Keyed Value, found = some (.object fields)
    ∧ (fields.has "output" = true ∨ fields.has "error" = true)

namespace JournalEntry

theorem read_object {fields : Keyed Value} : read (some (.object fields)) = .object fields := by
  cases fields <;> simp [read, Value.truthy]

theorem recorded?_object (fields : Keyed Value) (key : String) :
    recorded? (some (.object fields)) key = .ok (fields.get? key) := by
  simp [recorded?, read_object, Value.fields?]

@[simp] theorem recorded?_none (key : String) : recorded? none key = .ok none := by
  simp [recorded?, read, Value.truthy, Value.fields?, Keyed.get?]

/-- A step that has ended is not carried out again. -/
theorem Ended.replay?_ne_none {found : Option Value} (h : Ended found) : replay? found ≠ none := by
  obtain ⟨fields, rfl, hfields⟩ := h
  unfold replay?
  simp only [recorded?_object]
  simp only [Keyed.has] at hfields
  cases houtput : fields.get? "output" with
  | some output => simp
  | none =>
    cases herror : fields.get? "error" with
    | some error => simp
    | none => simp [houtput, herror] at hfields

theorem Ended.storable {found : Option Value} (h : Ended found) : Ended (found.map Value.storable) := by
  obtain ⟨fields, rfl, hfields⟩ := h
  refine ⟨Value.storableFields fields, by simp [Value.storable], ?_⟩
  simpa [Keyed.has, get?_storableFields] using hfields

theorem ended_of_storable {found : Option Value} (h : Ended (found.map Value.storable)) :
    Ended found := by
  obtain ⟨fields, hfound, hfields⟩ := h
  obtain ⟨v, rfl, hv⟩ := Option.map_eq_some_iff.mp hfound
  cases v <;> simp only [Value.storable, reduceCtorEq] at hv
  case real x => split at hv <;> simp at hv
  case object entry =>
    refine ⟨entry, rfl, ?_⟩
    rw [← Value.object.inj hv] at hfields
    simpa [Keyed.has, get?_storableFields] using hfields

theorem ended_entry {x : Execution} {o : Except Fault Value} {entry : Keyed Value}
    (h : x.entry? o = some entry) : Ended (some (.object entry)) := by
  cases o with
  | ok output =>
    rw [← Option.some.inj h]
    exact ⟨_, rfl, .inl (by simp [Keyed.has, Keyed.get?])⟩
  | error f =>
    simp only [Execution.entry?, Option.ite_none_right_eq_some, Option.some.injEq] at h
    rw [← h.2]
    exact ⟨_, rfl, .inr (by simp [Keyed.has, Keyed.get?])⟩

/-- **An entry that leaves open how its step ends**: there is none, or it holds notes only. -/
def Open (found : Option Value) : Prop :=
  ∀ v, found = some v → ∃ fields : Keyed Value, v = .object fields ∧ fields.has "output" = false
    ∧ fields.has "error" = false

theorem open_none : Open none := fun _ h => by simp at h

/-- A step that is open is carried out. -/
theorem Open.replay?_eq_none {found : Option Value} (h : Open found) : replay? found = none := by
  unfold replay?
  cases found with
  | none => simp
  | some v =>
    obtain ⟨fields, rfl, houtput, herror⟩ := h v rfl
    simp only [Keyed.has, Option.isSome_eq_false_iff, Option.isNone_iff_eq_none] at houtput herror
    simp [recorded?_object, houtput, herror]

end JournalEntry

/-! ## Changes -/

theorem Attempt.after_of_isOutside {a : Attempt} {c : Call} (h : c.isOutside = true) :
    a.after c = a := by
  cases c <;> simp only [Call.isOutside, Bool.false_eq_true] at h <;> rfl

/-- Notes do not touch the entries of other steps. -/
theorem Attempt.withNote_get?_of_ne {a a' : Attempt} {path key : String} {fields : Keyed Value}
    (h : a.withNote path fields = .ok a') (hne : key ≠ path) :
    a'.journal.get? key = a.journal.get? key := by
  unfold withNote at h
  split at h
  · rw [← Except.ok.inj h]; exact Keyed.get?_put_of_ne _ _ hne
  · rw [← Except.ok.inj h]; exact Keyed.get?_put_of_ne _ _ hne
  · exact absurd h (by simp)

/-- What notes make of the entry of a step. -/
theorem Attempt.withNote_get?_self {a a' : Attempt} {path : String} {fields : Keyed Value}
    (h : a.withNote path fields = .ok a') :
    (a.journal.get? path = none ∧ a'.journal.get? path = some (.object fields))
      ∨ ∃ entry, a.journal.get? path = some (.object entry)
        ∧ a'.journal.get? path = some (.object (Keyed.putAll entry fields)) := by
  unfold withNote at h
  split at h
  · next hnone => rw [← Except.ok.inj h]; exact .inl ⟨hnone, Keyed.get?_put_self ..⟩
  · next entry hentry => rw [← Except.ok.inj h]; exact .inr ⟨entry, hentry, Keyed.get?_put_self ..⟩
  · exact absurd h (by simp)

/-- Notes change nothing but the journal. -/
theorem Attempt.withNote_fields {a a' : Attempt} {path : String} {fields : Keyed Value}
    (h : a.withNote path fields = .ok a') :
    a'.runId = a.runId ∧ a'.cursor = a.cursor ∧ a'.base = a.base := by
  unfold withNote at h
  split at h
  · rw [← Except.ok.inj h]; exact ⟨rfl, rfl, rfl⟩
  · rw [← Except.ok.inj h]; exact ⟨rfl, rfl, rfl⟩
  · exact absurd h (by simp)

/-- The attempt after an amendment is the attempt with the note, if there can be one. -/
theorem Attempt.after_amend (a : Attempt) (path : String) (fields : Keyed Value) :
    a.after (.amend path fields) = a ∨ a.withNote path fields = .ok (a.after (.amend path fields)) := by
  have hafter : a.after (.amend path fields) = (a.withNote path fields).toOption.getD a := rfl
  rw [hafter]
  cases a.withNote path fields with
  | error f => exact .inl rfl
  | ok a' => exact .inr rfl

namespace Execution.TreeCall

variable {x : Execution} {q : StepPath} {c : Call} {a : Attempt}

/-- **What is done for a step** changes the entry of its path only: it leaves the attempt as it was,
    or writes an outcome, or notes something. -/
theorem after_cases (h : TreeCall x q c) (a : Attempt) :
    a.after c = a
      ∨ (∃ o entry, x.entry? o = some entry ∧ c = .journal q.text entry)
      ∨ ∃ fields, (∀ key ∈ fields.keys, key ∈ noteKeys)
        ∧ a.withNote q.text fields = .ok (a.after c) := by
  cases h with
  | journal hentry => exact .inr (.inl ⟨_, _, hentry, rfl⟩)
  | report => exact .inl rfl
  | serves hserves =>
    cases hserves with
    | outside hc => exact .inl (Attempt.after_of_isOutside hc)
    | @amend fields hkeys =>
      exact (a.after_amend q.text fields).imp_right fun hnote => .inr ⟨fields, hkeys, hnote⟩
    | _ => exact .inl rfl

theorem after_fields (h : TreeCall x q c) (a : Attempt) :
    (a.after c).runId = a.runId ∧ (a.after c).cursor = a.cursor ∧ (a.after c).base = a.base := by
  rcases h.after_cases a with hsame | ⟨_, _, -, rfl⟩ | ⟨_, -, hnote⟩
  · rw [hsame]; exact ⟨rfl, rfl, rfl⟩
  · exact ⟨rfl, rfl, rfl⟩
  · exact Attempt.withNote_fields hnote

/-- The entries of other steps are not touched. -/
theorem get?_after_of_ne (h : TreeCall x q c) (a : Attempt) {key : String} (hne : key ≠ q.text) :
    (a.after c).journal.get? key = a.journal.get? key := by
  rcases h.after_cases a with hsame | ⟨_, _, -, rfl⟩ | ⟨_, -, hnote⟩
  · rw [hsame]
  · exact Keyed.get?_put_of_ne _ _ hne
  · exact Attempt.withNote_get?_of_ne hnote hne

theorem has_after (h : TreeCall x q c) (a : Attempt) {key : String}
    (hkey : (a.after c).journal.has key = true) : a.journal.has key = true ∨ key = q.text := by
  by_cases hne : key = q.text
  · exact .inr hne
  · rw [Keyed.has, h.get?_after_of_ne a hne] at hkey
    exact .inl hkey

theorem noteKeys_ne {fields : Keyed Value} (h : ∀ key ∈ fields.keys, key ∈ noteKeys) {key : String}
    (hkey : key ∉ noteKeys) : ∀ entry ∈ fields, entry.1 ≠ key :=
  fun entry he heq => hkey (heq ▸ h entry.1 (List.mem_map_of_mem he))

/-- **What has ended stays ended.** -/
theorem ended_after (h : TreeCall x q c) (a : Attempt) {key : String}
    (hkey : JournalEntry.Ended (a.journal.get? key)) :
    JournalEntry.Ended ((a.after c).journal.get? key) := by
  by_cases hne : key = q.text
  · subst hne
    rcases h.after_cases a with hsame | ⟨o, entry, hentry, rfl⟩ | ⟨fields, hfields, hnote⟩
    · rw [hsame]; exact hkey
    · rw [show (a.after (.journal q.text entry)).journal.get? q.text = some (.object entry) from
        Keyed.get?_put_self ..]
      exact JournalEntry.ended_entry hentry
    · rcases Attempt.withNote_get?_self hnote with ⟨hnone, -⟩ | ⟨entry, hentry, hafter⟩
      · obtain ⟨_, hsome, -⟩ := hkey
        rw [hnone] at hsome
        exact absurd hsome (by simp)
      · obtain ⟨fields', hsome, hends⟩ := hkey
        obtain rfl : entry = fields' := by
          rw [hentry] at hsome
          exact Value.object.inj (Option.some.inj hsome)
        refine ⟨_, hafter, ?_⟩
        simp only [Keyed.has, RunRecord.get?_putAll_of_not_mem (noteKeys_ne hfields
          (show "output" ∉ noteKeys by decide)), RunRecord.get?_putAll_of_not_mem
          (noteKeys_ne hfields (show "error" ∉ noteKeys by decide))]
        exact hends
  · rw [h.get?_after_of_ne a hne]; exact hkey

/-- A step stays open until its outcome is written. -/
theorem open_after (h : TreeCall x q c) (a : Attempt) {key : String}
    (hc : ∀ entry, c ≠ .journal key entry) (hopen : JournalEntry.Open (a.journal.get? key)) :
    JournalEntry.Open ((a.after c).journal.get? key) := by
  by_cases hne : key = q.text
  · subst hne
    rcases h.after_cases a with hsame | ⟨o, entry, -, rfl⟩ | ⟨fields, hfields, hnote⟩
    · rw [hsame]; exact hopen
    · exact absurd rfl (hc entry)
    · intro v hv
      have hhas {m : Keyed Value} {name : String} (hname : name ∉ noteKeys) :
          (Keyed.putAll m fields).has name = m.has name := by
        rw [Keyed.has, RunRecord.get?_putAll_of_not_mem (noteKeys_ne hfields hname), Keyed.has]
      have houtput : "output" ∉ noteKeys := by decide
      have herror : "error" ∉ noteKeys := by decide
      rcases Attempt.withNote_get?_self hnote with ⟨hnone, hafter⟩ | ⟨entry, hentry, hafter⟩
      · have hnil {name : String} (hname : name ∉ noteKeys) : Keyed.has fields name = false :=
          Bool.eq_false_iff.mpr fun hhas => hname (hfields name ((Keyed.mem_keys_iff ..).mpr hhas))
        exact ⟨fields, Option.some.inj (hv.symm.trans hafter), hnil houtput, hnil herror⟩
      · obtain ⟨_, hsome, hnooutput, hnoerror⟩ := hopen _ hentry
        rw [← Value.object.inj hsome] at hnooutput hnoerror
        exact ⟨_, Option.some.inj (hv.symm.trans hafter), (hhas houtput).trans hnooutput,
          (hhas herror).trans hnoerror⟩
  · rw [h.get?_after_of_ne a hne]; exact hopen

end Execution.TreeCall

end Runbook
