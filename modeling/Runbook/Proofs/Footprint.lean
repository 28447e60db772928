import Runbook.Proofs.Journal
import Runbook.Proofs.Prompt

/-!
# `Proofs.Footprint` — what the calls of a step touch

The journal and the stores are shared by all steps, but each call of a step touches one part of them
at most: the entry of the step in the journal, or its job. What is done to other parts can neither be
told by its answer nor does the call change them. So a list of deeds is admitted by every world that
agrees with the first one on the parts the deeds touch, whatever others do in between.

## Contents
- **Parts.** `Part`, `Call.part?`, the part that a call touches, and `Call.IsLocal`, calls that touch
  no other.
- **Jobs.** A write to the record of a job depends on that record alone.
- **Agreement.** `World.Agree`; a deed on the parts that two worlds agree on, `Agree.answers`, and one
  on another part, `Agree.of_answers`.
- **Lists.** `Touched`, `Apart`, and `World.Admits.of_interleaved` with its converse.
-/

namespace Runbook

/-! ## Parts -/

/-- A part of what the steps of a run share. -/
inductive Part where
  /-- The entry of the journal under the text of a path. -/
  | entry (path : String)
  | job (id : String)

/-- The job that a part is. -/
def Part.job? : Part → Option String
  | .entry _ => none
  | .job id => some id

/-- The part that a call touches. -/
def Call.part? : Call → Option Part
  | .recall path | .journal path _ | .amend path _ => some (.entry path)
  | .store (.getJob id) | .store (.setJob id _) => some (.job id)
  | _ => none

/-- **Calls that touch one part at most.** They may write the run record, from which no step reads. -/
def Call.IsLocal : Call → Prop
  | .freshId | .beginAttempt _ | .enterStep _ _ _ => False
  | .store (.getJob _) | .store (.setJob _ _) => True
  | .store _ => False
  | _ => True

/-- The calls of a step touch its entry and its job. -/
theorem Execution.TreeCall.isLocal {x : Execution} {q : StepPath} {c : Call} (h : TreeCall x q c) :
    c.IsLocal ∧ ∀ p ∈ c.part?, p = .entry q.text ∨ p = .job (x.jobId q.text) := by
  cases h with
  | serves h =>
    cases h with
    | outside h =>
      cases c <;> simp only [Call.isOutside, Bool.false_eq_true] at h <;>
        exact ⟨trivial, by simp [Call.part?]⟩
    | _ => exact ⟨trivial, by simp [Call.part?]⟩
  | journal => exact ⟨trivial, by simp [Call.part?]⟩
  | report => exact ⟨trivial, by simp [Call.part?]⟩

/-! ## Jobs -/

/-- What becomes of the record of a job, given what was read of it. -/
def JobStore.revision (found : Except Fault (Option JobRecord)) (backend : Backend) (id : String)
    (updates : Keyed Value) (now : Stamp) : Except Fault (JobRecord × Held JobRecord) := do
  let r ← JobRecord.update (← found) id updates now
  return (r, ← hold backend r)

theorem JobStore.get_congr {s s' : JobStore} {id : String}
    (h : s'.records.get? id = s.records.get? id) : s'.get id = s.get id := by
  unfold get Keyed.readHeld
  rw [h]

theorem JobRecord.jobId_of_update {existing : Option JobRecord} {id : String}
    {updates : Keyed Value} {now : Stamp} {r : JobRecord}
    (h : JobRecord.update existing id updates now = .ok r) : r.jobId = id := by
  obtain ⟨_, -, h⟩ := Fault.bind_eq_ok.mp h
  cases h
  rfl

/-- A store of jobs after a record was kept. -/
def JobStore.after (s : JobStore) (id : String) (r : JobRecord) (held : Held JobRecord) : JobStore :=
  ({ s with records := s.records.put id held
            columns := s.columns.put id (s.newColumns r) } : JobStore).note r

/-- **A write to the record of a job** depends on that record alone. -/
theorem JobStore.set_eq (s : JobStore) (id : String) (updates : Keyed Value) (now : Stamp) :
    s.set id updates now
      = (fun p => (p.1, s.after id p.1 p.2)) <$> revision (s.get id) s.backend id updates now := by
  unfold set revision keep
  simp only [bind, Except.bind, Functor.map, Except.map]
  cases s.get id with
  | error f => rfl
  | ok existing =>
    cases hr : JobRecord.update existing id updates now with
    | error f => simp [hr]
    | ok r =>
      cases hheld : hold s.backend r with
      | error f => simp [hr, hheld]
      | ok held =>
        simp [hr, hheld, after, JobRecord.jobId_of_update hr, pure, Except.pure]

theorem Stores.perform_getJob (s : Stores) (now : Stamp) (id : String) :
    s.perform now (.getJob id)
      = (if s.isOpen then .job <$> s.jobs.get id else .error (.store (.closed s.path)), s) := by
  unfold perform
  split <;> rfl

theorem Stores.perform_setJob (s : Stores) (now : Stamp) (id : String) (updates : Keyed Value) :
    s.perform now (.setJob id updates)
      = if s.isOpen then
          match JobStore.revision (s.jobs.get id) s.jobs.backend id updates now with
          | .ok (r, held) => (.ok (.job (some r)), { s with jobs := s.jobs.after id r held })
          | .error f => (.error f, s)
        else (.error (.store (.closed s.path)), s) := by
  unfold perform performOpen
  split
  · dsimp only
    rw [JobStore.set_eq]
    cases JobStore.revision (s.jobs.get id) s.jobs.backend id updates now <;> rfl
  · rfl

/-! ## Agreement -/

/-- **Stores of which some jobs are the same.** -/
structure Stores.Agree (S : String → Prop) (s t : Stores) : Prop where
  jobs : ∀ id, S id → t.jobs.records.get? id = s.jobs.records.get? id
  backend : t.jobs.backend = s.jobs.backend
  isOpen : t.isOpen = s.isOpen
  path : t.path = s.path

namespace Stores.Agree

variable {S : String → Prop} {s t : Stores} {now : Stamp} {id : String} {updates : Keyed Value}

theorem refl (S : String → Prop) (s : Stores) : Stores.Agree S s s := ⟨fun _ _ => rfl, rfl, rfl, rfl⟩

theorem symm (h : Stores.Agree S s t) : Stores.Agree S t s :=
  ⟨fun id hid => (h.jobs id hid).symm, h.backend.symm, h.isOpen.symm, h.path.symm⟩

theorem trans {t' : Stores} (h : Stores.Agree S s t) (h' : Stores.Agree S t t') :
    Stores.Agree S s t' :=
  ⟨fun id hid => (h'.jobs id hid).trans (h.jobs id hid), h'.backend.trans h.backend,
    h'.isOpen.trans h.isOpen, h'.path.trans h.path⟩

/-- A look at a job that is the same shows the same. -/
theorem getJob (h : Stores.Agree S s t) (hid : S id) :
    (t.perform now (.getJob id)).1 = (s.perform now (.getJob id)).1 := by
  rw [perform_getJob, perform_getJob, JobStore.get_congr (h.jobs id hid), h.isOpen, h.path]

/-- A write to a job that is the same ends the same, and leaves the stores the same. -/
theorem setJob (h : Stores.Agree S s t) (hid : S id) :
    (t.perform now (.setJob id updates)).1 = (s.perform now (.setJob id updates)).1
      ∧ Stores.Agree S (s.perform now (.setJob id updates)).2
          (t.perform now (.setJob id updates)).2 := by
  rw [perform_setJob, perform_setJob, JobStore.get_congr (h.jobs id hid), h.isOpen, h.path, h.backend]
  split
  · split
    · next r held _ =>
      refine ⟨rfl, fun other hother => ?_, h.backend, rfl, rfl⟩
      by_cases heq : other = id
      · subst heq
        exact (Keyed.get?_put_self ..).trans (Keyed.get?_put_self ..).symm
      · exact (Keyed.get?_put_of_ne _ _ heq).trans
          ((h.jobs other hother).trans (Keyed.get?_put_of_ne _ _ heq).symm)
    · exact ⟨rfl, h⟩
  · exact ⟨rfl, h⟩

/-- A write to another job cannot be told. -/
theorem of_setJob (hid : ¬ S id) : Stores.Agree S s (s.perform now (.setJob id updates)).2 := by
  rw [perform_setJob]
  split
  · split
    · refine ⟨fun other hother => ?_, rfl, rfl, rfl⟩
      exact Keyed.get?_put_of_ne _ _ fun heq => hid (heq ▸ hother)
    · exact refl S s
  · exact refl S s

/-- Nor can a write to the record of a run. -/
theorem of_setRun : Stores.Agree S s (s.perform now (.setRun id updates)).2 := by
  unfold perform
  split
  · unfold performOpen writing
    dsimp only
    split
    · next h =>
      unfold setRun at h
      split at h
      · exact absurd h (by simp)
      · obtain ⟨_, -, h⟩ := Fault.bind_eq_ok.mp h
        cases h
        exact ⟨fun _ _ => rfl, rfl, rfl, rfl⟩
    · exact refl S s
  · exact refl S s

end Stores.Agree

/-- **Worlds that agree on some parts** of what steps share. -/
structure World.Agree (S : Part → Prop) (u v : World) : Prop where
  entries : ∀ path, S (.entry path) → v.attempt.journal.get? path = u.attempt.journal.get? path
  stores : Stores.Agree (fun id => S (.job id)) u.stores v.stores

/-- Notes about an entry that is the same are taken or refused the same. -/
theorem Attempt.withNote_congr {a b : Attempt} {path : String} (fields : Keyed Value)
    (h : b.journal.get? path = a.journal.get? path) :
    (∃ f, a.withNote path fields = .error f ∧ b.withNote path fields = .error f)
      ∨ ∃ v, a.withNote path fields = .ok (a.withEntry path v)
          ∧ b.withNote path fields = .ok (b.withEntry path v) := by
  unfold withNote
  rw [h]
  split
  · exact .inr ⟨_, rfl, rfl⟩
  · exact .inr ⟨_, rfl, rfl⟩
  · exact .inl ⟨_, rfl, rfl⟩

namespace World.Agree

variable {S : Part → Prop} {u u' v w : World} {c : Call} {answer : c.Answer} {d : Deed}

theorem refl (S : Part → Prop) (u : World) : World.Agree S u u := ⟨fun _ _ => rfl, .refl ..⟩

theorem symm (h : World.Agree S u v) : World.Agree S v u :=
  ⟨fun path hpath => (h.entries path hpath).symm, h.stores.symm⟩

theorem trans (h : World.Agree S u v) (h' : World.Agree S v w) : World.Agree S u w :=
  ⟨fun path hpath => (h'.entries path hpath).trans (h.entries path hpath), h.stores.trans h'.stores⟩

/-- The time is no part. -/
theorem at_clock (S : Part → Prop) (u : World) (t : Clock) : World.Agree S u { u with clock := t } :=
  ⟨fun _ _ => rfl, .refl ..⟩

/-- An update of a run record cannot be told. -/
theorem of_writeRun (S : Part → Prop) (u : World) (id : String) (updates : Keyed Value) :
    World.Agree S u (u.writeRun id updates) := ⟨fun _ _ => rfl, .of_setRun⟩

/-- What is written to an entry leaves the other ones as they are. -/
theorem of_withEntry (S : Part → Prop) (u : World) {path : String} (v : Value)
    (hpath : ¬ S (.entry path)) :
    World.Agree S u { u with attempt := u.attempt.withEntry path v } :=
  ⟨fun _ hother => Keyed.get?_put_of_ne _ _ fun heq => hpath (heq ▸ hother), .refl ..⟩

theorem withEntry (h : World.Agree S u v) (path : String) (entry : Value) :
    World.Agree S { u with attempt := u.attempt.withEntry path entry }
      { v with attempt := v.attempt.withEntry path entry } := by
  refine ⟨fun other hother => ?_, h.stores⟩
  by_cases heq : other = path
  · subst heq
    exact (Keyed.get?_put_self ..).trans (Keyed.get?_put_self ..).symm
  · exact (Keyed.get?_put_of_ne _ _ heq).trans
      ((h.entries other hother).trans (Keyed.get?_put_of_ne _ _ heq).symm)

/-- **What is done to other parts cannot be told.** -/
theorem of_step (hc : c.isOutside = false) (hlocal : c.IsLocal) (hS : ∀ p ∈ c.part?, ¬ S p)
    (hstep : u.step c = .now answer u') : World.Agree S u u' := by
  cases c <;> simp only [Call.isOutside, Bool.true_eq_false] at hc <;>
    simp only [World.step, Progress.now.injEq] at hstep <;> obtain ⟨-, rfl⟩ := hstep
  case freshId | beginAttempt | enterStep => exact hlocal.elim
  case clock | «recall» | report | note => exact ⟨fun _ _ => rfl, .refl ..⟩
  case updateRun id updates => exact of_writeRun S u id updates
  case saveCheckpoint id =>
    unfold saveCheckpoint
    split
    · exact of_writeRun ..
    · exact refl S u
  case journal path entry => exact of_withEntry S u _ (hS _ rfl)
  case amend path fields =>
    unfold amend
    rcases Attempt.withNote_congr (a := u.attempt) fields rfl with ⟨f, hf, -⟩ | ⟨v, hv, -⟩
    · rw [hf]; exact refl S u
    · rw [hv]; exact of_withEntry S u _ (hS _ rfl)
  case store op =>
    cases op <;> simp only [Call.IsLocal] at hlocal
    case getJob id =>
      refine ⟨fun _ _ => rfl, ?_⟩
      simp only [useStores, Stores.perform_getJob]
      exact .refl ..
    case setJob id updates => exact ⟨fun _ _ => rfl, .of_setJob (hS _ rfl)⟩

/-- **A call in another world** that agrees on the part that the call touches. -/
theorem step (h : World.Agree S u v) (hclock : v.clock = u.clock) (hc : c.isOutside = false)
    (hlocal : c.IsLocal) (hS : ∀ p ∈ c.part?, S p) (hstep : u.step c = .now answer u') :
    ∃ v', v.step c = .now answer v' ∧ World.Agree S u' v' := by
  have hother {v'} (hpart : c.part? = none) (hstep' : v.step c = .now answer v') :
      World.Agree S u' v' := by
    have hS (p) (hp : p ∈ c.part?) : ¬ S p := by simp [hpart] at hp
    exact ((of_step hc hlocal hS hstep).symm.trans h).trans (of_step hc hlocal hS hstep')
  cases c <;> simp only [Call.isOutside, Bool.true_eq_false] at hc <;>
    simp only [World.step, Progress.now.injEq] at hstep <;> obtain ⟨hanswer, rfl⟩ := hstep
  case freshId | beginAttempt | enterStep => exact hlocal.elim
  case clock => exact ⟨v, by rw [← hanswer, ← hclock]; rfl, h⟩
  case report | note | updateRun | saveCheckpoint => exact ⟨_, rfl, hother rfl rfl⟩
  case «recall» path => exact ⟨v, by rw [← hanswer, ← h.entries path (hS _ rfl)]; rfl, h⟩
  case journal path entry => exact ⟨_, rfl, h.withEntry path _⟩
  -- the same entry is amended in both worlds, or refused in both
  case amend path fields =>
    simp only [World.step]
    unfold amend at hanswer ⊢
    rcases Attempt.withNote_congr fields (h.entries path (hS _ rfl)) with ⟨f, hf, hf'⟩ | ⟨e, he, he'⟩
    · rw [hf] at hanswer
      rw [hf, hf', ← hanswer]
      exact ⟨v, rfl, h⟩
    · rw [he] at hanswer
      rw [he, he', ← hanswer]
      exact ⟨_, rfl, h.withEntry path e⟩
  case store op =>
    have hstamp : v.stamp = u.stamp := by rw [stamp, stamp, hclock]
    cases op <;> simp only [Call.IsLocal] at hlocal
    case getJob id =>
      have hread : (v.stores.perform u.stamp (.getJob id)).1 = (u.stores.perform u.stamp (.getJob id)).1 :=
        h.stores.getJob (hS _ rfl)
      refine ⟨(v.useStores (.getJob id)).2, ?_, h.entries, ?_⟩
      · rw [← hanswer]
        simp only [World.step, useStores, hstamp, hread]
      · simp only [useStores, Stores.perform_getJob]
        exact h.stores
    case setJob id updates =>
      obtain ⟨(hwrite : (v.stores.perform u.stamp (.setJob id updates)).1 = _), hafter⟩ :=
        h.stores.setJob (hS _ rfl)
      refine ⟨(v.useStores (.setJob id updates)).2, ?_, h.entries, ?_⟩
      · rw [← hanswer]
        simp only [World.step, useStores, hstamp, hwrite]
      · simp only [useStores, hstamp]
        exact hafter

/-- **What is done to other parts cannot be told.** -/
theorem of_answers (hd : u.Answers d u') (hlocal : d.call.IsLocal) (hS : ∀ p ∈ d.call.part?, ¬ S p) :
    World.Agree S u u' := by
  cases hd with
  | outside _ _ _ hattempt hstores =>
    exact ⟨fun _ _ => by rw [hattempt], hstores ▸ .refl ..⟩
  | inside hc _ hstep => exact (at_clock S u _).trans (of_step hc hlocal hS hstep)

/-- **A deed in another world** that agrees on the part that the deed touches. -/
theorem answers (h : World.Agree S u v) (hd : u.Answers d u') (hlocal : d.call.IsLocal)
    (hS : ∀ p ∈ d.call.part?, S p) (hclock : v.clock ≤ d.start) :
    ∃ v', v.Answers d v' ∧ World.Agree S u' v' := by
  cases hd with
  | @outside _ _ _ start _ _ hc _ _ hattempt hstores _ =>
    refine ⟨{ v with clock := start }, .outside hc hclock rfl rfl rfl rfl, ?_⟩
    exact ⟨fun path hpath => by rw [hattempt]; exact h.entries path hpath, hstores ▸ h.stores⟩
  | @inside _ _ _ start _ hc _ hstep =>
    have h : World.Agree S { u with clock := start } { v with clock := start } :=
      ⟨h.entries, h.stores⟩
    obtain ⟨v', hv', hagree⟩ := h.step rfl hc hlocal hS hstep
    exact ⟨v', .inside hc hclock hv', hagree⟩

end World.Agree

/-- The clock shows when the last deed was begun. -/
theorem World.Answers.clock_eq {w w' : World} {d : Deed} (h : w.Answers d w') :
    w'.clock = d.start := by
  cases h with
  | outside _ _ hclock => exact hclock
  | @inside _ c _ start _ hc _ hstep =>
    obtain ⟨_, _, hstep', hclock⟩ := ({ w with clock := start } : World).step_of_not_isOutside hc
    obtain ⟨-, rfl⟩ := Progress.now.inj (hstep.symm.trans hstep')
    exact hclock

/-! ## Lists -/

/-- Deeds that touch some parts only. -/
def Within (S : Part → Prop) (ds : List Deed) : Prop :=
  ∀ d ∈ ds, d.call.IsLocal ∧ ∀ p ∈ d.call.part?, S p

/-- Deeds in the order of time. -/
def InOrder (ds : List Deed) : Prop := ds.Pairwise fun d e => d.start ≤ e.start

namespace World.Admits

variable {S T : Part → Prop} {ds es fs : List Deed}

/-- A world goes along with deeds in the order of time. -/
theorem inOrder {w w' : World} (h : w.Admits ds w') :
    InOrder ds ∧ ∀ d ∈ ds, w.clock ≤ d.start := by
  induction h with
  | nil => exact ⟨.nil, fun d hd => absurd hd List.not_mem_nil⟩
  | cons first rest ih =>
    obtain ⟨horder, hlate⟩ := ih
    rw [first.clock_eq] at hlate
    refine ⟨List.pairwise_cons.mpr ⟨hlate, horder⟩, fun e he => ?_⟩
    rcases List.mem_cons.mp he with rfl | he
    · exact first.clock_le
    · exact Nat.le_trans first.clock_le (hlate e he)

/-- The clock is no later than the last deed. -/
theorem clock_le {w w' : World} {t : Clock} (h : w.Admits ds w') (hw : w.clock ≤ t)
    (hds : ∀ d ∈ ds, d.start ≤ t) : w'.clock ≤ t :=
  h.keeps (fun d hd _ _ _ hd' => hd'.clock_eq ▸ hds d hd) hw

/-- **Without the others.** What a world goes along with while others do something else, it goes along
    with when they do not. -/
theorem of_interleaved (h : Interleaved ds es fs) (hds : Within S ds)
    (hes : Within (fun p => ¬ S p) es) : ∀ {u u' v : World}, World.Agree S u v → v.clock ≤ u.clock →
    u.Admits fs u' → ∃ v', v.Admits ds v' := by
  induction h with
  | nil => exact fun _ _ _ => ⟨_, .nil⟩
  | left _ ih =>
    intro u u' v hagree hclock hadmits
    obtain ⟨u₁, hd, hadmits⟩ := hadmits.of_cons
    obtain ⟨hlocal, hS⟩ := hds _ List.mem_cons_self
    obtain ⟨v₁, hd', hagree⟩ := hagree.answers hd hlocal hS (Nat.le_trans hclock hd.clock_le)
    obtain ⟨v', hv'⟩ := ih (fun d hd => hds d (.tail _ hd)) hes hagree
      (Nat.le_of_eq (hd'.clock_eq.trans hd.clock_eq.symm)) hadmits
    exact ⟨v', .cons hd' hv'⟩
  | right _ ih =>
    intro u u' v hagree hclock hadmits
    obtain ⟨u₁, he, hadmits⟩ := hadmits.of_cons
    obtain ⟨hlocal, hS⟩ := hes _ List.mem_cons_self
    refine ih hds (fun d hd => hes d (.tail _ hd)) ((Agree.of_answers he hlocal hS).symm.trans hagree)
      (Nat.le_trans hclock ?_) hadmits
    exact he.clock_eq ▸ he.clock_le

/-- **With the others.** What a world goes along with in two parts that have nothing in common, it goes
    along with in one, in the order of time. -/
theorem interleaved (h : Interleaved ds es fs) (hds : Within S ds) (hds' : Within (fun p => ¬ T p) ds)
    (hes : Within T es) (hes' : Within (fun p => ¬ S p) es) (horder : InOrder fs) :
    ∀ {u v v' w w' : World}, World.Agree S u v → World.Agree T u w → (∀ d ∈ fs, u.clock ≤ d.start) →
    v.Admits ds v' → w.Admits es w' → ∃ u', u.Admits fs u' := by
  induction h with
  | nil => exact fun _ _ _ _ _ => ⟨_, .nil⟩
  | left _ ih =>
    intro u v v' w w' hv hw hlate hadmits hadmits'
    obtain ⟨v₁, hd, hadmits⟩ := hadmits.of_cons
    obtain ⟨hbefore, horder⟩ := List.pairwise_cons.mp horder
    obtain ⟨hlocal, hS⟩ := hds _ List.mem_cons_self
    obtain ⟨u₁, hd', hagree⟩ := hv.symm.answers hd hlocal hS (hlate _ List.mem_cons_self)
    have hother := Agree.of_answers hd' hlocal (hds' _ List.mem_cons_self).2
    obtain ⟨u', hu'⟩ := ih (fun d hd => hds d (.tail _ hd)) (fun d hd => hds' d (.tail _ hd)) hes hes'
      horder hagree.symm (hother.symm.trans hw) (hd'.clock_eq ▸ hbefore) hadmits hadmits'
    exact ⟨u', .cons hd' hu'⟩
  | right _ ih =>
    intro u v v' w w' hv hw hlate hadmits hadmits'
    obtain ⟨w₁, he, hadmits'⟩ := hadmits'.of_cons
    obtain ⟨hbefore, horder⟩ := List.pairwise_cons.mp horder
    obtain ⟨hlocal, hT⟩ := hes _ List.mem_cons_self
    obtain ⟨u₁, he', hagree⟩ := hw.symm.answers he hlocal hT (hlate _ List.mem_cons_self)
    have hother := Agree.of_answers he' hlocal (hes' _ List.mem_cons_self).2
    obtain ⟨u', hu'⟩ := ih hds hds' (fun d hd => hes d (.tail _ hd)) (fun d hd => hes' d (.tail _ hd))
      horder (hother.symm.trans hv) hagree.symm (he'.clock_eq ▸ hbefore) hadmits hadmits'
    exact ⟨u', .cons he' hu'⟩

end World.Admits

end Runbook
