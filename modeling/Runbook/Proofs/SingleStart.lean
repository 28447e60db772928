import Runbook.Proofs.Outputs
import Runbook.Proofs.Progress
import Runbook.Proofs.Starts

/-!
# `Proofs.SingleStart` — a run elsewhere is started once, however often its step is attempted

A step that has started a run elsewhere is held back by its journal entry, and that entry is saved at once.
From then on the checkpoint in the run record holds the step back: each later checkpoint succeeds it. An
attempt that goes on from such a checkpoint starts nothing for the step.

All of this rests on saves that come to be. They do where checkpoints are kept, the store of run records
takes writes, and everything that comes in is JSON.

## Contents
- **Checkpoints.** `Step.HeldAt` and `World.HeldBack`; `World.TidyStored`.
- **Deeds.** `Regular`, what is known of every deed of an attempt.
- **The root list.** `walk_starts`, one step of the list, and `afterEntry_starts`, by induction on what
  is left of it.
- **Attempts.** `resume_starts` and `run_starts`.
- **Chains.** `run_started_once`.
-/

namespace Runbook

open JournalEntry

/-! ## Checkpoints -/

theorem Step.heldBack_keeps_iff {s : Step} (b : Backend) {entry : Option Value} :
    s.HeldBack (entry.map b.keeps) ↔ s.HeldBack entry := by
  unfold Step.HeldBack
  simp only [ended_keeps_iff, names_keeps_iff]

/-- **A checkpoint that holds a step back**: it stands behind the step, or has an entry that does. -/
def Step.HeldAt (s : Step) (q : StepPath) (k : Nat) (j : Keyed Value) : Prop :=
  ∃ i : Int, q.rootIndex? = some i ∧ (i < k ∨ i = k ∧ s.HeldBack (j.get? q.text))

/-- A step that is held back by a checkpoint is held back by the next one. -/
theorem Succeeds.heldAt {s : Step} {q : StepPath} {data data' : Value} (h : Succeeds data data')
    {k : Nat} {v : Value} {j : Keyed Value} (hdata : data = checkpointData k v j)
    (hheld : s.HeldAt q k j) :
    ∃ k' v' j', data' = checkpointData k' v' j' ∧ s.HeldAt q k' j' := by
  obtain ⟨i, hi, hheld⟩ := hheld
  cases h with
  | @stays k₀ _ _ j' hgoes =>
    obtain ⟨rfl, rfl, rfl⟩ := checkpointData_inj hdata
    exact ⟨k₀, _, j', rfl, i, hi, hheld.imp_right fun h => ⟨h.1, h.2.goesOn (hgoes q.text)⟩⟩
  | @moves k₀ _ context' =>
    obtain ⟨rfl, -, -⟩ := checkpointData_inj hdata
    refine ⟨k₀ + 1, context', [], rfl, i, hi, .inl ?_⟩
    rcases hheld with hlt | ⟨rfl, -⟩ <;> omega

theorem JournalEntry.Mapping.storable {entry : Option Value} (h : Mapping entry) :
    Mapping (entry.map Value.storable) := by
  intro v hv
  obtain ⟨v₀, hv₀, rfl⟩ := Option.map_eq_some_iff.mp hv
  obtain ⟨fields, rfl⟩ := h v₀ hv₀
  exact ⟨_, by rw [Value.storable]⟩

/-- **A checkpoint that is tidy**: it can be written down, and all its entries are mappings. -/
def TidyCheckpoint (data : Value) : Prop :=
  data.unwritable? = none ∧ ∃ k j, SnapshotOf data k j ∧ ∀ key, Mapping (j.get? key)

theorem TidyCheckpoint.kept {data v : Value} (h : TidyCheckpoint data) (hkept : data.Kept v) :
    TidyCheckpoint v := by
  obtain ⟨hwritable, k, j, hsnapshot, hmapping⟩ := h
  rcases hkept with rfl | rfl
  · exact ⟨hwritable, k, j, hsnapshot, hmapping⟩
  · refine ⟨Value.unwritable?_storable hwritable, k, _, hsnapshot.storable, fun key => ?_⟩
    rw [get?_storableFields]
    exact (hmapping key).storable

theorem Attempt.Tidy.saved {a : Attempt} {data : Value} (h : a.Tidy) (hdata : a.checkpoint = .ok data) :
    TidyCheckpoint data :=
  ⟨Attempt.writable_of_checkpoint hdata, _, _, Attempt.snapshotOf_checkpoint hdata, h.mapping⟩

/-- A tidy attempt can be saved if its context can be written down. -/
theorem Attempt.Tidy.checkpoint {a : Attempt} {k : Nat} {c : Context} (h : a.Tidy)
    (hcursor : a.cursor = k) (hbase : a.base = c) (hc : c.Writable) :
    a.checkpoint = .ok (checkpointData k c.toValue a.journal) := by
  obtain ⟨data, hdata⟩ := a.checkpoint_eq_ok (hbase ▸ Context.writable_iff.mpr hc) h.writable
  rw [hdata, Attempt.checkpoint_eq hcursor hdata, hbase]

namespace World

variable {id : String} {s : Step} {q : StepPath} {w w' : World} {d : Deed}

/-- **The record of a run holds a step back**: its checkpoint does, or it cannot be read any more, so
    that no attempt comes to the step again. -/
def HeldBack (s : Step) (q : StepPath) (id : String) (w : World) : Prop :=
  w.Unreadable id
    ∨ ∃ k v j, w.checkpointOf id = some (checkpointData k v j) ∧ s.HeldAt q k j

/-- A step that is held back stays so. -/
theorem HeldBack.answers (hw : w.HeldBack s q id) (h : w.Answers d w') (hd : d.call.Orderly)
    (hadvances : Advances id w d w') : w'.HeldBack s q id := by
  rcases hw with hlost | ⟨k, v, j, hdata, hheld⟩
  · exact .inl (h.unreadable hd hlost)
  · rcases hadvances.succeeds _ hdata with hlost | ⟨data', hdata', hsucceeds⟩
    · exact .inl hlost
    · obtain ⟨k', v', j', rfl, hheld'⟩ := hsucceeds.heldAt rfl hheld
      exact .inr ⟨k', v', j', hdata', hheld'⟩

/-- **All checkpoints of a run are tidy.** -/
def TidyStored (id : String) (w : World) : Prop :=
  ∀ data, w.checkpointOf id = some data → TidyCheckpoint data

theorem TidyStored.answers (hw : w.TidyStored id) (h : w.Answers d w') (hd : d.call.Orderly)
    (htidy : (∃ other, d.call = .saveCheckpoint other) → w.attempt.Tidy) : w'.TidyStored id := by
  intro v hv
  cases h.checkpointStep hd id with
  | unreadable hlost =>
    rw [hlost.checkpointOf_eq] at hv
    exact absurd hv (by simp)
  | stays hsame => exact hw v (hsame ▸ hv)
  | copied hcopy =>
    rw [hcopy] at hv
    obtain ⟨data, hdata, rfl⟩ := Option.map_eq_some_iff.mp hv
    exact (hw data hdata).kept (.inr rfl)
  | saved hsaving hdata hkept hnew =>
    obtain rfl := Option.some.inj (hnew.symm.trans hv)
    exact ((htidy hsaving).saved hdata).kept hkept

end World

/-! ## Deeds -/

/-- **What is known of every deed** of a trial. -/
structure Safe (id : String) (u : World) (d : Deed) (u' : World) : Prop where
  advances : Advances id u d u'
  orderly : d.call.Orderly
  saved : (∃ other, d.call = .saveCheckpoint other) → u.attempt.Tidy

/-- What is known of every deed of an attempt that has begun. -/
structure Regular (id : String) (u : World) (d : Deed) (u' : World) : Prop where
  advances : Advances id u d u'
  orderly : d.call.Orderly
  plain : d.call.Plain d.answer
  tidy : u.attempt.Tidy

section

variable {pace : Clock → Clock → Prop} {x : Execution} {s : Step} {q : StepPath} {m : Nat} {c : Context}
  {id : String} {w w' u u' : World} {d : Deed} {ds : List Deed} {t : Clock}
  {r : Option (Outcome × Clock)}

theorem World.Along.safe (h : w.Along (Regular id) ds) : w.Along (Safe id) ds :=
  h.weaken fun _ hregular => ⟨hregular.advances, hregular.orderly, fun _ => hregular.tidy⟩

theorem safe_of_quiet (h : w.Along (Advances id) ds) (hds : ∀ d ∈ ds, d.call.Quiet) :
    w.Along (Safe id) ds := by
  rintro pre d post u u' rfl hpre hd
  obtain ⟨horderly, hsaves⟩ := hds d (by simp)
  exact ⟨h pre d post u u' rfl hpre hd, horderly, fun ⟨other, hsave⟩ => absurd hsave (hsaves other)⟩

/-- Along safe deeds a step that was held back stays so. -/
theorem World.HeldBack.lasts {pre post : List Deed} (hu : u.HeldBack s q id)
    (h : w.Along (Safe id) ds) (hds : ds = pre ++ post) (hpre : w.Admits pre u)
    (hpost : u.Admits post w') : w'.HeldBack s q id := by
  have hstays : w.Along (fun u _ u' => u.HeldBack s q id → u'.HeldBack s q id) ds :=
    h.weaken fun hd hsafe hu => hu.answers hd hsafe.orderly hsafe.advances
  exact hstays.lasts hds hpre hpost hu

/-- Along safe deeds all checkpoints stay tidy. -/
theorem World.TidyStored.lasts (hw : w.TidyStored id) (h : w.Along (Safe id) ds)
    (hadmits : w.Admits ds w') : w'.TidyStored id := by
  have hstays : w.Along (fun u _ u' => u.TidyStored id → u'.TidyStored id) ds :=
    h.weaken fun hd hsafe hu => hu.answers hd hsafe.orderly hsafe.saved
  exact hstays.lasts (List.nil_append ds).symm .nil hadmits hw

/-- **A save holds back** the step whose entry does. -/
theorem Regular.holds (h : Regular id u d u') (hcall : d.call = .saveCheckpoint id) (hmute : ¬ u.Mute)
    (hcursor : u.attempt.cursor = m) (hbase : u.attempt.base = c) (hc : c.Writable)
    (hroot : q.rootIndex? = some (m : Int)) (hheld : s.HeldBack (u.attempt.journal.get? q.text)) :
    u'.HeldBack s q id := by
  rcases h.advances.saves hcall hmute _ (h.tidy.checkpoint hcursor hbase hc) with hlost | hsaved
  · exact .inl hlost
  · rw [Backend.keeps_checkpointData] at hsaved
    refine .inr ⟨m, _, _, hsaved, m, hroot, .inr ⟨rfl, ?_⟩⟩
    rw [Backend.get?_keepsFields]
    exact (Step.heldBack_keeps_iff _).mpr hheld

/-! ## The root list -/

/-- A request that starts a run for a step. -/
def Deed.starts (q : StepPath) (d : Deed) : Bool := d.step = some q && d.call.startsRun d.answer

theorem countP_starts (q : StepPath) (ds : List Deed) :
    ds.countP (Deed.starts q) = (deedsFor q ds).countP fun d => d.call.startsRun d.answer := by
  rw [deedsFor, List.countP_filter]
  refine List.countP_congr fun d _ => ?_
  simp [Deed.starts, and_comm]

/-- What is done for no step starts nothing. -/
theorem countP_starts_of_none (q : StepPath) (h : ∀ d ∈ ds, d.step = none) :
    ds.countP (Deed.starts q) = 0 := by
  refine List.countP_eq_zero.mpr fun d hd => ?_
  simp [Deed.starts, h d hd]

/-- A deed of one step, among the deeds of all. -/
theorem deedsFor_eq_append_cons {pre post : List Deed} (h : deedsFor q ds = pre ++ d :: post) :
    ∃ before after, ds = before ++ d :: after ∧ deedsFor q before = pre := by
  obtain ⟨before, rest, rfl, hpre, hrest⟩ := List.filter_eq_append_iff.mp h
  obtain ⟨between, after, rfl, hnone, -, -⟩ := List.filter_eq_cons_iff.mp hrest
  have hnil : deedsFor q between = [] := deedsFor_eq_nil fun e he => by simpa using hnone e he
  exact ⟨before ++ between, after, by simp, by rw [deedsFor_append, hnil, List.append_nil]; exact hpre⟩

/-- What is done for steps leaves the attempt at its place. -/
theorem OfSteps.place_eq (h : OfSteps x ds) (hadmits : w.Admits ds w') :
    w'.attempt.cursor = w.attempt.cursor ∧ w'.attempt.base = w.attempt.base := by
  refine hadmits.keeps (I := fun u => u.attempt.cursor = w.attempt.cursor
    ∧ u.attempt.base = w.attempt.base) (fun d hd u u' hu hu' => ?_) ⟨rfl, rfl⟩
  obtain ⟨q, -, -, hcall⟩ := h d hd
  obtain ⟨-, hcursor, hbase⟩ := hcall.after_fields u.attempt
  rw [hu'.attempt_eq]
  exact ⟨hcursor.trans hu.1, hbase.trans hu.2⟩

theorem World.Admits.not_mute (h : w.Admits ds w') (hmute : ¬ w.Mute) : ¬ w'.Mute := by
  refine h.keeps (I := fun u => ¬ u.Mute) (fun d _ u u' hu hd hmute => hu ?_) hmute
  unfold World.Mute at hmute ⊢
  rwa [hd.fixed.isOpen, hd.fixed.outage] at hmute

/-- **A step of the root list** that was carried out to its end: none of the steps inside it has started
    more than one run; and one that has started a run was not held back before, but is held back now. -/
theorem walk_starts {s₀ : Step} {res : Outcome × Clock} (hs₀ : x.plan.steps[m]? = some s₀)
    (hwalk : Fiber.Course pace t (x.walk s₀ (.root m s₀.kind) c) ds (some res))
    (hadmits : w.Admits ds w') (hregular : w.Along (Regular x.runId) ds) (hmute : ¬ w.Mute)
    (hw : w.attempt.Tidy) (hcursor : w.attempt.cursor = m) (hbase : w.attempt.base = c)
    (hc : c.Writable) (hon : x.engine.checkpoints = true) (hhas : x.plan.Has q s) (hstarts : s.startsRuns = true) :
    ds.countP (Deed.starts q) = 0
      ∨ ds.countP (Deed.starts q) = 1 ∧ q.rootIndex? = some (m : Int)
        ∧ ¬ s.HeldBack (w.attempt.journal.get? q.text) ∧ w'.HeldBack s q x.runId := by
  have hparts := x.walk_parts s₀ (StepPath.proper_root m s₀) rfl hwalk
  have hsteps : OfSteps x ds := fun d hd => by
    obtain ⟨p, -, hproper, hstep, hcall⟩ := (hparts d hd).treeCall
    exact ⟨p, hproper, hstep, hcall⟩
  have hfollows := hsteps.follows_entry hhas.proper hadmits
  have hdone := Execution.walk_layout s₀ hwalk q
  rw [countP_starts]
  generalize hes : deedsFor q ds = es at hdone hfollows
  cases hdone with
  | nothing => exact .inl rfl
  | report => exact .inl rfl
  | @leaf s' c' _ _ _ hs' hleaf hcourse hended =>
    obtain ⟨hhas', hroot⟩ := Plan.has_of_inside hs₀ hs'
    obtain rfl := hhas'.unique hhas
    obtain ⟨body, hbody, hprogram⟩ := Execution.program_of_leaf hleaf hcourse
    obtain ⟨res', rfl⟩ := Option.ne_none_iff_exists'.mp (hended (by simp))
    obtain ⟨b, htally, hsaved⟩ := hfollows.tally (s := s') 0 False
    rcases hprogram.heeds (carryOut_tally hstarts hbody hon (hw.mapping q.text)) htally res' rfl with
      hnone | ⟨hone, hfree, hb⟩
    · exact .inl (by simpa using hnone)
    refine .inr ⟨by simpa using hone, hroot, hfree, ?_⟩
    -- the deed that has saved the entry which holds the step back
    obtain ⟨pre, d, post, runId, hsplit, hcall, hheld⟩ := (hsaved hb).resolve_left id
    obtain ⟨before, after, rfl, hpre⟩ := deedsFor_eq_append_cons (hes.trans hsplit)
    obtain ⟨u, hu, hrest⟩ := hadmits.split
    obtain ⟨u', hd, hafter⟩ := hrest.of_cons
    have hmem : d ∈ before ++ d :: after := by simp
    obtain ⟨p, -, -, hserves⟩ := hsteps d hmem
    have hown : d.call = .saveCheckpoint x.runId := hserves.save_own hcall
    have hbefore : OfSteps x before := fun e he => hsteps e (List.mem_append_left _ he)
    obtain ⟨hcursor', hbase'⟩ := hbefore.place_eq hu
    have hsave : u'.HeldBack s' q x.runId :=
      (hregular before d after u u' rfl hu hd).holds hown (hu.not_mute hmute) (hcursor'.trans hcursor)
        (hbase'.trans hbase) hc hroot (hheld _ (hpre ▸ hbefore.follows_entry hhas.proper hu))
    exact hsave.lasts hregular.safe (List.append_cons before d after) (hu.append (.cons hd .nil)) hafter

/-- An attempt that has come to the next step of the root list holds the steps behind it back. -/
theorem Step.HeldAt.of_lt {k : Nat} {i : Int} {j : Keyed Value} (hi : q.rootIndex? = some i)
    (h : i < k) : s.HeldAt q k j := ⟨i, hi, .inl h⟩

/-- **What is left of the root list**, when the step at its head was entered: no step starts more than one
    run; and one that has started a run was not held back before, but is held back now. -/
theorem afterEntry_starts (h : AfterEntry pace x m c t ds r) (hr : r ≠ none)
    (hm : m ≤ x.plan.steps.length) (hadmits : w.Admits ds w')
    (hregular : w.Along (Regular x.runId) ds) (hmute : ¬ w.Mute) (hw : w.attempt.Tidy)
    (hcursor : w.attempt.cursor = m) (hbase : w.attempt.base = c) (hc : c.Writable)
    (hon : x.engine.checkpoints = true) (hhas : x.plan.Has q s) (hstarts : s.startsRuns = true) :
    ds.countP (Deed.starts q) = 0
      ∨ ds.countP (Deed.starts q) = 1 ∧ ¬ s.HeldAt q m w.attempt.journal
        ∧ w'.HeldBack s q x.runId := by
  -- by induction on the number of steps that are left
  obtain ⟨k, hk⟩ : ∃ k, m + k = x.plan.steps.length := ⟨_, Nat.add_sub_cancel' hm⟩
  induction k using Nat.strongRecOn generalizing m c w ds t r with | _ k ih =>
  have hfree (hroot : q.rootIndex? = some (m : Int))
      (h : ¬ s.HeldBack (w.attempt.journal.get? q.text)) : ¬ s.HeldAt q m w.attempt.journal := by
    rintro ⟨i, hi, hlt | ⟨-, hheld⟩⟩
    · obtain rfl := Option.some.inj (hroot.symm.trans hi)
      exact absurd hlt (Int.lt_irrefl _)
    · exact h hheld
  cases h with
  | inside => exact absurd rfl hr
  | failed hs hwalk _ hes =>
    obtain ⟨w₁, hw₁, hrest⟩ := hadmits.split
    rw [List.countP_append, countP_starts_of_none q fun d hd => (hes d hd).1, Nat.add_zero]
    refine (walk_starts hs hwalk hw₁ hregular.left hmute hw hcursor hbase hc hon hhas hstarts).imp_right
      fun ⟨hone, hroot, hopen, hheld⟩ => ⟨hone, hfree hroot hopen, ?_⟩
    exact hheld.lasts hregular.safe rfl hw₁ hrest
  | last _ hds => exact .inl (countP_starts_of_none q fun d hd => (hds d hd).1)
  | @on s₀ _ _ _ _ _ fin _ hs hwalk hguarded hnext =>
    have hlt : m < x.plan.steps.length := (List.getElem?_eq_some_iff.mp hs).1
    obtain ⟨w₁, hw₁, hadmits⟩ := hadmits.split
    have hplain : w.Along (fun _ d _ => d.call.Plain d.answer) _ := hregular.left.weaken fun _ h => h.plain
    have hc' : fin.context.Writable :=
      Execution.walk_writable (fun d hd => hplain.of_mem hw₁ hd) hc hwalk hguarded
    have hfirst := walk_starts hs hwalk hw₁ hregular.left hmute hw hcursor hbase hc hon hhas hstarts
    cases onward_course hlt hnext with
    | entering => exact absurd rfl hr
    | entered henter hrest =>
      rw [Bool.false_and] at henter
      obtain ⟨w₂, hw₂, hadmits⟩ := hadmits.split
      have hattempt := attempt_of_enter henter hw₂
      have hnil : w₂.attempt.journal = [] := by rw [hattempt]; rfl
      have hlater := ih (k - 1) (by omega) hrest hr hlt hadmits ((hregular.right hw₁).right hw₂)
        (hw₂.not_mute (hw₁.not_mute hmute)) (Attempt.tidy_of_nil hnil) (by rw [hattempt]; rfl)
        (by rw [hattempt]; rfl) hc' (by omega)
      rw [List.countP_append, List.countP_append, countP_starts_of_none q henter.step_eq, Nat.zero_add]
      rcases hfirst with hnone | ⟨hone, hroot, hopen, hheld⟩
      · rw [hnone, Nat.zero_add]
        refine hlater.imp_right fun ⟨hone, hopen, hheld⟩ => ⟨hone, fun h => hopen ?_, hheld⟩
        obtain ⟨i, hi, hle⟩ := h
        exact .of_lt hi (by omega)
      · rcases hlater with hnone | ⟨-, hopen', -⟩
        · rw [hone, hnone]
          exact .inr ⟨rfl, hfree hroot hopen, hheld.lasts hregular.safe rfl hw₁ (hw₂.append hadmits)⟩
        · exact absurd (.of_lt hroot (by omega)) hopen'

/-! ## Attempts -/

/-- A step of the plan stands in the root list. -/
theorem Plan.Has.rootIndex {p : Plan} (h : p.Has q s) :
    ∃ i : Nat, q.rootIndex? = some (i : Int) ∧ i < p.steps.length := by
  cases h with
  | @root s₀ _ i rest hi => exact ⟨i, rfl, (List.getElem?_eq_some_iff.mp hi).1⟩

/-- **The deeds of an attempt are regular** from any moment on, if its record advances from there. -/
theorem onward_regular {keepJournal : Bool} {pre post : List Deed} (hm : m ≤ x.plan.steps.length)
    (h : Fiber.Course pace t (x.onward m keepJournal c) ds r)
    (houtside : ∀ d ∈ ds, d.call.isOutside = true → d.call.Plain d.answer) (hw : w.attempt.Tidy)
    (hds : ds = pre ++ post) (hpre : w.Admits pre u) (hadvances : u.Along (Advances id) post) :
    u.Along (Regular id) post := by
  have hcalls := onward_ofAttempt hm h
  have htidy {before after : List Deed} (hsplit : ds = before ++ after) {v : World}
      (hv : w.Admits before v) : v.attempt.Tidy ∧ ∀ d ∈ before, d.call.Plain d.answer :=
    (onward_layout h).tidy hcalls houtside hw hsplit hv
  rintro before d after v v' rfl hv hd
  refine ⟨hadvances before d after v v' rfl hv hd, ?_, ?_, (htidy (hds.trans (List.append_assoc ..).symm) (hpre.append hv)).1⟩
  · rcases hcalls d (by simp [hds]) with ⟨q, -, hcall⟩ | ⟨-, hcall⟩
    · exact hcall.orderly
    · exact hcall.orderly
  · have hsplit : ds = (pre ++ (before ++ [d])) ++ after := by simp [hds]
    exact (htidy hsplit (hpre.append (hv.append (.cons hd .nil)))).2 d (by simp)

/-- **What is left of the root list**, from a position that is entered anew or once more. -/
theorem onward_starts {keepJournal : Bool} {res : Outcome × Clock} (hm : m ≤ x.plan.steps.length)
    (h : Fiber.Course pace t (x.onward m keepJournal c) ds (some res)) (hadmits : w.Admits ds w')
    (hregular : w.Along (Regular x.runId) ds) (hmute : ¬ w.Mute) (hw : w.attempt.Tidy)
    (hc : c.Writable) (hon : x.engine.checkpoints = true) (hhas : x.plan.Has q s)
    (hstarts : s.startsRuns = true) :
    ds.countP (Deed.starts q) = 0
      ∨ ds.countP (Deed.starts q) = 1
        ∧ ¬ s.HeldAt q m
            (w.attempt.enter m c (keepJournal && decide (m < x.plan.steps.length))).journal
        ∧ w'.HeldBack s q x.runId := by
  generalize hr : some res = r at h
  cases onward_course hm h with
  | entering => exact absurd hr (by simp)
  | entered henter hrest =>
    obtain ⟨w₁, hw₁, hadmits⟩ := hadmits.split
    have hattempt := attempt_of_enter henter hw₁
    have htidy : w₁.attempt.Tidy := by
      rw [hattempt]
      exact (Execution.Between.enters (x := x) m c _).tidy hw
    rw [List.countP_append, countP_starts_of_none q henter.step_eq, Nat.zero_add, ← hattempt]
    exact afterEntry_starts hrest (hr ▸ by simp) hm hadmits (hregular.right hw₁) (hw₁.not_mute hmute)
      htidy (by rw [hattempt]; rfl) (by rw [hattempt]; rfl) hc hon hhas hstarts

theorem startContext_writable {plan : Plan} (h : plan.input.unwritable? = none) (runId : String) :
    (Engine.startContext plan runId).Writable := ⟨h, rfl, rfl, rfl⟩

/-- What a tidy checkpoint holds. -/
theorem TidyCheckpoint.attempt {a : Attempt} (h : TidyCheckpoint a.written) :
    a.Tidy ∧ a.base.Writable := by
  obtain ⟨hwritable, k, j, hsnapshot, hmapping⟩ := h
  simp only [Attempt.written, Value.unwritable?, Value.unwritableField?, Option.or_eq_none_iff,
    and_true, true_and] at hwritable
  have hj : a.journal = j := by
    obtain ⟨context, -, hdata⟩ := hsnapshot
    simp only [Attempt.written, Value.object.injEq, List.cons.injEq, Prod.mk.injEq, true_and,
      and_true] at hdata
    exact hdata.2.2
  exact ⟨⟨hwritable.2, hj ▸ hmapping⟩, Context.writable_iff.mp hwritable.1⟩

/-- **The attempt that a continuation begins** can be saved, and holds back what the record does. -/
theorem Execution.BeginsWith.fit {a : Attempt} {keepJournal : Bool}
    (h : x.BeginsWith w False a keepJournal)
    (htended : w.Tended x.plan (fun _ c => c.Latest) x.runId) (htidy : w.TidyStored x.runId)
    (hinput : x.plan.input.unwritable? = none) :
    ∃ m : Nat, a.cursor = m ∧ m ≤ x.plan.steps.length ∧ a.Tidy ∧ a.base.Writable
      ∧ (w.HeldBack s q x.runId → s.HeldAt q m
          (a.enter m a.base (keepJournal && decide (m < x.plan.steps.length))).journal) := by
  cases h with
  | afresh h =>
    obtain ⟨checkpoint, ⟨record, hrecord, -, hcheckpoint⟩, hnone⟩ := h.resolve_left id
    have hfresh : w.checkpointOf x.runId = none := by
      rcases htended.sound.found hrecord hcheckpoint with ⟨hfresh, -⟩ | ⟨_, _, _, -, -, hcontext, -⟩
      · exact hfresh
      · exact absurd (hnone.symm.trans hcontext) (by simp)
    refine ⟨0, rfl, Nat.zero_le _, Attempt.tidy_of_nil rfl, startContext_writable hinput _, ?_⟩
    rintro (⟨f, hf⟩ | ⟨k, v, j, hdata, -⟩)
    · exact absurd (hrecord.symm.trans hf) (by simp)
    · exact absurd (hfresh.symm.trans hdata) (by simp)
  | again _ hfound hsnapshot ha =>
    obtain ⟨record, hrecord, -, hcheckpoint⟩ := hfound
    rcases htended.sound.found hrecord hcheckpoint with
      ⟨-, hnone⟩ | ⟨k, c, j, hdata, hwell, hcontext, hbind⟩
    · exact absurd (hsnapshot.symm.trans hnone) (by simp)
    · obtain rfl := Option.some.inj (hsnapshot.symm.trans hcontext)
      obtain rfl := Except.ok.inj (ha.symm.trans hbind)
      obtain ⟨hjournal, hbase⟩ := (htidy _ hdata).attempt
      refine ⟨k, rfl, hwell.le, hjournal, hbase, ?_⟩
      rintro (hlost | ⟨k', v, j', hdata', i, hi, hheld⟩)
      · exact absurd (hlost.checkpointOf_eq.symm.trans hdata) (by simp)
      · rw [hdata, Option.some.injEq, hwell.data_eq] at hdata'
        obtain ⟨rfl, -, rfl⟩ := checkpointData_inj hdata'
        -- at the end of the list the journal is empty anyway
        have hsame : (Attempt.enter ⟨x.runId, k, w.backend.keepsContext c, j⟩ k (w.backend.keepsContext c)
            (true && decide (k < x.plan.steps.length))).journal = j := by
          rcases Nat.lt_or_eq_of_le hwell.le with hlt | hend
          · rw [decide_eq_true hlt]
            rfl
          · rw [(hend ▸ hwell.keys : x.plan.Fits x.plan.steps.length j).eq_nil]
            rw [hend, decide_eq_false (Nat.lt_irrefl _)]
            rfl
        rw [hsame]
        exact ⟨i, hi, hheld⟩

/-- **A continuation** starts no run for a step that was held back; otherwise it starts one run at most,
    and holds the step back if it does. -/
theorem resume_starts {e : Engine} {source : PlanSource} {plan : Plan} {res : Outcome × Clock}
    (haccept : source.accept = .ok plan) (hid : id ≠ "")
    (hruns : w.Runs pace (e.resume source id) ds (some res) w') (hon : e.checkpoints = true)
    (hmute : ¬ w.Mute) (houtside : ∀ d ∈ ds, d.call.isOutside = true → d.call.Plain d.answer)
    (htended : w.Tended plan (fun _ c => c.Latest) id) (htidy : w.TidyStored id)
    (hinput : plan.input.unwritable? = none) (hhas : plan.Has q s) (hstarts : s.startsRuns = true) :
    w'.Tended plan (fun _ c => c.Latest) id ∧ w'.TidyStored id
      ∧ (ds.countP (Deed.starts q) = 0 ∧ (w.HeldBack s q id → w'.HeldBack s q id)
        ∨ ds.countP (Deed.starts q) = 1 ∧ ¬ w.HeldBack s q id ∧ w'.HeldBack s q id) := by
  have hmarks : Execution.Marks pace ⟨e, plan, id⟩ (fun _ c => c.Latest) ds :=
    fun _ _ hlatest _ => hlatest
  have hthrough := resume_advances haccept (fun _ _ h => h) htended hmarks hruns.course
  have halong := hthrough.along
  -- with safe deeds the record stays tidy, and what it holds back it holds back to the end
  suffices h : w.Along (Safe id) ds ∧ (ds.countP (Deed.starts q) = 0
      ∨ ds.countP (Deed.starts q) = 1 ∧ ¬ w.HeldBack s q id ∧ w'.HeldBack s q id) by
    refine ⟨hthrough.ends hruns.admits, htidy.lasts h.1 hruns.admits, h.2.imp_left fun hnone =>
      ⟨hnone, fun hheld => hheld.lasts h.1 (List.nil_append ds).symm .nil hruns.admits⟩⟩
  have hpreparing {ds : List Deed} (hds : Preparing id ds) :
      (∀ d ∈ ds, d.call.Quiet) ∧ ds.countP (Deed.starts q) = 0 :=
    ⟨fun d hd => (hds d hd).2.quiet, countP_starts_of_none q fun d hd => (hds d hd).1⟩
  have hadmits := hruns.admits
  generalize hr : some res = r at hruns
  cases resume_undertakes haccept hid hadmits hruns.course with
  | prepared hds =>
    obtain ⟨hquiet, hnone⟩ := hpreparing hds
    exact ⟨safe_of_quiet halong hquiet, .inl hnone⟩
  | restored _ _ _ _ _ hds hes =>
    obtain ⟨hquiet, hnone⟩ := hpreparing hds
    refine ⟨safe_of_quiet halong fun d hd => ?_, .inl ?_⟩
    · rcases List.mem_append.mp hd with hd | hd
      · exact hquiet d hd
      · rw [(hes d hd).2]
        exact Call.quiet_beginAttempt _
    · rw [List.countP_append, hnone, countP_starts_of_none q fun d hd => (hes d hd).1]
  | @attempted a keepJournal ds₁ _ _ _ hds hbegins hcourse =>
    obtain ⟨hquiet, hnone⟩ := hpreparing hds
    obtain ⟨m, hm, hle, hjournal, hbase, hheld⟩ := hbegins.fit (s := s) (q := q) htended htidy hinput
    rw [carryOutFrom_onward hm] at hcourse
    cases hcourse with
    | stopped => exact absurd hr (by simp)
    | @ask _ start stop _ _ _ answer fs _ _ _ rest =>
      have hregular {w₁ w₂ : World} (hw₁ : w.Admits ds₁ w₁)
          (hbegin : w₁.Answers ⟨none, .beginAttempt a, answer, start, stop⟩ w₂) :
          w₂.attempt = a ∧ w₂.Along (Regular id) fs := by
        have hattempt : w₂.attempt = a := hbegin.attempt_eq
        refine ⟨hattempt, onward_regular hle rest (fun d hd => houtside d (by simp [hd]))
          (hattempt ▸ hjournal) (List.nil_append fs).symm .nil ?_⟩
        exact (halong.right hw₁).tail hbegin
      refine ⟨(safe_of_quiet halong.left hquiet).append fun {w₁} hw₁ => ?_, ?_⟩
      · refine .cons (fun hbegin => ?_) fun hbegin => (hregular hw₁ hbegin).2.safe
        have hadvances := (halong.right hw₁) [] _ fs w₁ _ rfl .nil hbegin
        exact ⟨hadvances, (Call.quiet_beginAttempt a).1, fun ⟨_, h⟩ => absurd h (by simp)⟩
      · obtain ⟨w₁, hw₁, hadmits⟩ := hadmits.split
        obtain ⟨w₂, hbegin, hadmits⟩ := hadmits.of_cons
        obtain ⟨hattempt, hregular⟩ := hregular hw₁ hbegin
        have hunmuted : ¬ w₂.Mute := hw₁.append (.cons hbegin .nil) |>.not_mute hmute
        subst hr
        rw [List.countP_append, hnone, Nat.zero_add, List.countP_cons_of_neg (by simp [Deed.starts])]
        refine (onward_starts hle rest hadmits hregular hunmuted (hattempt ▸ hjournal) hbase hon hhas
          hstarts).imp_right fun ⟨hone, hopen, hheld'⟩ => ⟨hone, fun h => hopen ?_, hheld'⟩
        rw [hattempt]
        exact hheld h

theorem Call.Prepares.steady {call : Call} (h : call.Prepares x.runId) : call.Steady x := by
  cases h with
  | freshId => exact .other rfl
  | look => exact .other rfl
  | update hcalm hspares => exact .update hcalm hspares

/-- **The first save** of an attempt puts it in the place of whatever the record held before. -/
theorem enter_stored {res : Except Fault Unit × Clock}
    (h : Program.Course pace none t (x.enter m false c).outcome ds (some res))
    (hadmits : w.Admits ds w') (hgoing : w.Going x.runId) (hmute : ¬ w.Mute) (hc : c.Writable)
    (hon : x.engine.checkpoints = true) :
    w'.Going x.runId ∧ (w'.Unreadable x.runId
      ∨ w'.checkpointOf x.runId = some (w'.backend.keeps (checkpointData m c.toValue []))) := by
  have houtcome : (x.enter m false c).outcome
      = .ask (.enterStep m c false) fun _ => x.saveCheckpoint.outcome := rfl
  rw [houtcome] at h
  cases h with
  | ask _ _ rest =>
    rw [Execution.outcome_saveCheckpoint, if_pos hon] at rest
    cases rest with
    | ask _ _ rest =>
      obtain ⟨w₁, hd, hadmits⟩ := hadmits.of_cons
      obtain ⟨w₂, hsave, hadmits⟩ := hadmits.of_cons
      rw [rest.of_done.1] at hadmits
      obtain rfl := hadmits.eq_of_nil
      have hattempt : w₁.attempt = w.attempt.enter m c false := hd.attempt_eq
      have htidy : w₁.attempt.Tidy := Attempt.tidy_of_nil (by rw [hattempt]; rfl)
      have hdata := htidy.checkpoint (k := m) (c := c) (by rw [hattempt]; rfl) (by rw [hattempt]; rfl) hc
      have hgoing₁ : w₁.Going x.runId := hgoing.answers (x := x) hd (.other rfl)
      have hunmuted : ¬ w₁.Mute := (World.Admits.cons hd .nil).not_mute hmute
      refine ⟨hgoing₁.answers hsave (.save hon), ?_⟩
      refine (hgoing₁.saves hsave rfl hunmuted hdata).imp_right fun hnew => ?_
      rw [hnew, hsave.backend_eq (.save _), show w₁.attempt.journal = [] by rw [hattempt]; rfl]

theorem Backend.kept (b : Backend) (v : Value) : v.Kept (b.keeps v) := by
  unfold keeps
  split
  · exact .inl rfl
  · exact .inr rfl

/-- After the first save the attempt is at the step. -/
theorem Execution.AtRoot.of_first_save {begun : Nat → Context → Prop} (hgoing : w.Going x.runId)
    (hm : m ≤ x.plan.steps.length) (hbegun : begun m c) (hcursor : w.attempt.cursor = m)
    (hbase : w.attempt.base = c) (hnil : w.attempt.journal = [])
    (hstored : w.Unreadable x.runId
      ∨ w.checkpointOf x.runId = some (w.backend.keeps (checkpointData m c.toValue []))) :
    x.AtRoot begun x.runId m c w where
  sound := by
    intro data hdata
    rcases hstored with hlost | hnew
    · exact absurd (hlost.checkpointOf_eq.symm.trans hdata) (by simp)
    · obtain rfl := Option.some.inj (hnew.symm.trans hdata)
      refine ⟨m, c, [], ?_, Backend.keepsFields_nil _, hm, x.plan.fits_nil m, hbegun⟩
      rw [Backend.keeps_checkpointData, Backend.keepsFields_nil]
  going := hgoing
  other h := absurd rfl h
  cursor := hcursor
  base := hbase
  keys := by rw [hnil]; exact x.plan.fits_nil m
  link _ := by
    refine hstored.imp (fun hlost => .inr (.inr (.inr hlost))) fun hnew => ⟨[], ?_, fun key => ?_⟩
    · rw [hnew, Backend.keeps_checkpointData, Backend.keepsFields_nil]
    · rw [hnil, Backend.keepsFields_nil]
      exact .refl _

theorem World.TidyStored.of_first_save {data : Value} (hdata : TidyCheckpoint data)
    (hstored : w.Unreadable id ∨ w.checkpointOf id = some (w.backend.keeps data)) :
    w.TidyStored id := by
  intro v hv
  rcases hstored with hlost | hnew
  · exact absurd (hlost.checkpointOf_eq.symm.trans hv) (by simp)
  · obtain rfl := Option.some.inj (hnew.symm.trans hv)
    exact hdata.kept (w.backend.kept data)

/-- **A run from its beginning** starts one run at most for a step, and holds the step back if it does. -/
theorem run_starts {e : Engine} {source : PlanSource} {plan : Plan} {given executionId : Option String}
    {res : Outcome × Clock} (haccept : source.accept = .ok plan) (hid : RunsAs given ds id)
    (hruns : w.Runs pace (e.run source given executionId) ds (some res) w')
    (hon : e.checkpoints = true) (hmute : ¬ w.Mute)
    (houtside : ∀ d ∈ ds, d.call.isOutside = true → d.call.Plain d.answer) (hgoing : w.Going id)
    (hinput : plan.input.unwritable? = none) (hhas : plan.Has q s) (hstarts : s.startsRuns = true) :
    w'.Tended plan (fun _ c => c.Latest) id ∧ w'.TidyStored id
      ∧ (ds.countP (Deed.starts q) = 0
        ∨ ds.countP (Deed.starts q) = 1 ∧ w'.HeldBack s q id) := by
  have hadmits := hruns.admits
  generalize hr : some res = r at hruns
  cases run_undertakes haccept hid w hruns.course with
  | prepared _ hnone => exact absurd trivial (hnone res hr.symm).1
  | restored hanew => exact absurd trivial hanew
  | @attempted a keepJournal ds₁ es _ _ hds hbegins hcourse =>
    cases hbegins with
    | again hanew => exact absurd trivial hanew
    | afresh =>
      rw [carryOutFrom_onward (m := 0) rfl] at hcourse
      cases hcourse with
      | stopped => exact absurd hr (by simp)
      | ask _ _ rest =>
        obtain ⟨w₁, hw₁, hadmits⟩ := hadmits.split
        obtain ⟨w₂, hbegin, hadmits⟩ := hadmits.of_cons
        have hgoing₁ : w₁.Going id := hw₁.keeps
          (fun d hd u u' hu hu' => hu.answers hu' (hds d hd).2.steady) hgoing
        have hgoing₂ : w₂.Going id := hgoing₁.answers (x := ⟨e, plan, id⟩) hbegin (.other rfl)
        have hattempt₂ : w₂.attempt = ⟨id, 0, Engine.startContext plan id, []⟩ := hbegin.attempt_eq
        have hunmuted : ¬ w₂.Mute := (hw₁.append (.cons hbegin .nil)).not_mute hmute
        have hc := startContext_writable hinput id
        subst hr
        cases onward_course (Nat.zero_le _) rest with
        | entered henter hrest =>
          rw [Bool.false_and] at henter
          obtain ⟨w₃, hw₃, hadmits⟩ := hadmits.split
          obtain ⟨hgoing₃, hstored⟩ := enter_stored henter hw₃ hgoing₂ hunmuted hc hon
          have hattempt := attempt_of_enter henter hw₃
          have hnil : w₃.attempt.journal = [] := by rw [hattempt]; rfl
          have hcursor : w₃.attempt.cursor = (0 : Nat) := by rw [hattempt]; rfl
          have hbase : w₃.attempt.base = Engine.startContext plan id := by rw [hattempt]; rfl
          have htidy := Attempt.tidy_of_nil hnil
          -- the first step begins with an empty journal, which can always be saved
          have hsaved := htidy.saved (htidy.checkpoint hcursor hbase hc)
          rw [hnil] at hsaved
          have hat : Execution.AtRoot ⟨e, plan, id⟩ (fun _ c => c.Latest) id 0
              (Engine.startContext plan id) w₃ :=
            .of_first_save hgoing₃ (Nat.zero_le _) rfl hcursor hbase hnil hstored
          have hthrough := hat.afterEntry (Nat.zero_le _) rfl (fun _ => rfl)
            (fun _ _ _ _ _ _ _ _ _ _ hlatest _ => hlatest) hrest
          have hregular := onward_regular (Nat.zero_le _) rest (fun d hd => houtside d (by simp_all))
            (Attempt.tidy_of_nil (by rw [hattempt₂])) rfl hw₃ hthrough.along
          have htidyStored := World.TidyStored.of_first_save hsaved hstored
          refine ⟨hthrough.ends hadmits, htidyStored.lasts hregular.safe hadmits, ?_⟩
          have hstarted := afterEntry_starts hrest (by simp) (Nat.zero_le _) hadmits hregular
            (hw₃.not_mute hunmuted) htidy hcursor hbase hc hon hhas hstarts
          -- nothing is started for the step before the root list is carried out
          rw [List.countP_append, countP_starts_of_none q fun d hd => (hds d hd).1, Nat.zero_add,
            List.countP_cons_of_neg (by simp [Deed.starts]), List.countP_append,
            countP_starts_of_none q henter.step_eq, Nat.zero_add]
          exact hstarted.imp_right fun h => ⟨h.1, h.2.2⟩

end

/-! ## Chains -/

/-- **A trial whose saves come to be**: it comes to its end, keeps checkpoints in a store that takes
    writes, and is told only what can be written down. -/
structure Trial.Sturdy (a : Trial) : Prop where
  ended : a.result ≠ none
  checkpoints : a.engine.checkpoints = true
  writes : ¬ a.before.Mute
  plain : ∀ d ∈ a.deeds, d.call.isOutside = true → d.call.Plain d.answer

section

variable {pace : Clock → Clock → Prop} {source : PlanSource} {plan : Plan} {id : String} {s : Step}
  {q : StepPath} {w w' : World}

theorem World.HeldBack.of_runs (hw : w.HeldBack s q id) (h : w'.stores.runs = w.stores.runs) :
    w'.HeldBack s q id := by
  rwa [HeldBack, Unreadable, checkpointOf, recordOf_congr h]

theorem World.TidyStored.of_runs (hw : w.TidyStored id) (h : w'.stores.runs = w.stores.runs) :
    w'.TidyStored id := by
  rwa [TidyStored, checkpointOf, recordOf_congr h]

/-- **The account of all continuations.** -/
theorem Resumes.starts {runs : RunStore} {trials : List Trial}
    (h : Resumes pace source id runs trials) (haccept : source.accept = .ok plan) (hid : id ≠ "")
    (hsturdy : ∀ a ∈ trials, a.Sturdy) (hinput : plan.input.unwritable? = none)
    (hhas : plan.Has q s) (hstarts : s.startsRuns = true) :
    ∀ {w : World}, w.stores.runs = runs → w.Tended plan (fun _ c => c.Latest) id →
      w.TidyStored id →
      (trials.flatMap Trial.deeds).countP (Deed.starts q) ≤ 1
        ∧ (w.HeldBack s q id → (trials.flatMap Trial.deeds).countP (Deed.starts q) = 0) := by
  induction h with
  | nil => exact fun _ _ _ => ⟨Nat.zero_le _, fun _ => rfl⟩
  | @cons runs a rest hbefore hruns hrest ih =>
    intro w hw htended htidy
    obtain ⟨hended, hon, hmute, hplain⟩ := hsturdy a List.mem_cons_self
    obtain ⟨res, hres⟩ := Option.ne_none_iff_exists'.mp hended
    rw [hres] at hruns
    have hsame : a.before.stores.runs = w.stores.runs := hbefore.trans hw.symm
    obtain ⟨htended', htidy', hcount⟩ := resume_starts haccept hid hruns hon hmute hplain
      (htended.of_runs hsame) (htidy.of_runs hsame) hinput hhas hstarts
    have hlater := ih (fun b hb => hsturdy b (.tail _ hb)) rfl htended' htidy'
    rw [List.flatMap_cons, List.countP_append]
    rcases hcount with ⟨hnone, hkeeps⟩ | ⟨hone, hopen, hheld⟩
    · rw [hnone, Nat.zero_add]
      exact ⟨hlater.1, fun hheld => hlater.2 (hkeeps (hheld.of_runs hsame))⟩
    · rw [hone, hlater.2 hheld]
      exact ⟨Nat.le_refl 1, fun hheld => absurd (hheld.of_runs hsame) hopen⟩

/-- **A run elsewhere is started once.** Take a run, and any number of continuations of it, over one store
    of run records; each comes to its end, keeps checkpoints in a store that takes writes, and is told
    only what can be written down. The input of the plan can be written down, and so can the record of
    the run id, if there was one before. Then at most one request of a workflow step, or of an agent step
    whose reply is not awaited, has started a run elsewhere. -/
theorem run_started_once {given executionId : Option String} {first : Trial} {rest : List Trial}
    (haccept : source.accept = .ok plan) (hid : RunsAs given first.deeds id)
    (hruns : first.before.Runs pace (first.engine.run source given executionId) first.deeds
      first.result first.after)
    (hrest : Resumes pace source id first.after.stores.runs rest)
    (hsturdy : ∀ a ∈ first :: rest, a.Sturdy) (hgoing : first.before.Going id)
    (hinput : plan.input.unwritable? = none) (hhas : plan.Has q s) (hstarts : s.startsRuns = true) :
    ((first :: rest).flatMap Trial.deeds).countP (Deed.starts q) ≤ 1 := by
  obtain ⟨hended, hon, hmute, hplain⟩ := hsturdy first List.mem_cons_self
  obtain ⟨res, hres⟩ := Option.ne_none_iff_exists'.mp hended
  rw [hres] at hruns
  obtain ⟨htended, htidy, hcount⟩ :=
    run_starts haccept hid hruns hon hmute hplain hgoing hinput hhas hstarts
  have hlater := hrest.starts haccept hid.ne_empty (fun b hb => hsturdy b (.tail _ hb)) hinput hhas
    hstarts rfl htended htidy
  rw [List.flatMap_cons, List.countP_append]
  rcases hcount with hnone | ⟨hone, hheld⟩
  · rw [hnone, Nat.zero_add]
    exact hlater.1
  · exact Nat.le_of_eq (by rw [hone, hlater.2 hheld])

end

/-! ### Instances -/

/-- A workflow whose end nobody waits for, and then an agent. -/
def importThenReport : PlanSource :=
  .document (.object
    [("steps", .list
      [.object [("type", .text "workflow"), ("workflow", .text "import"), ("await", .bool false)],
       .object [("type", .text "agent"), ("agent", .text "report")]])])

/-- The place of the workflow. -/
def importStep : StepPath := .root 0 "workflow"

/-- Surroundings in which the workflow is started, and the agent fails. -/
def importing : Environment :=
  .replying fun r =>
    if r.url = "http://localhost:3000/api/workflows/import" then
      { response := .ok ⟨200, "", .object [("runId", .text "import-1")]⟩ }
    else { response := .ok ⟨500, "", .null⟩ }

/-- The run, which fails with the agent. -/
def importRun (e : Engine) (w : World) : Trial :=
  .prompt e importing w (e.run importThenReport (some "run") none)

/-- The continuation of the run, which fails likewise. -/
def importResumed (e : Engine) (w : World) : Trial :=
  .prompt e importing (importRun e w).after (e.resume importThenReport "run")

/-- The continuation does not start the workflow once more. -/
theorem import_started_once :
    (importRun plainEngine {}).deeds.countP (Deed.starts importStep) = 1
      ∧ ([importRun plainEngine {}, importResumed plainEngine {}].flatMap Trial.deeds).countP
          (Deed.starts importStep) ≤ 1 := by
  obtain ⟨plan, call, haccept, hsteps, hinput⟩ : ∃ plan call, importThenReport.accept = .ok plan
      ∧ plan.steps[0]? = some (.workflow call "import") ∧ plan.input.unwritable? = none :=
    ⟨_, _, rfl, rfl, rfl⟩
  have hhas : plan.Has importStep (.workflow call "import") := .root hsteps .here
  have hruns := Trial.prompt_runs plainEngine importing {}
    (plainEngine.run importThenReport (some "run") none)
  have hwrites : ¬ World.Mute {} := by simp [World.Mute, Stores.empty]
  have hsturdy : ∀ a ∈ [importRun plainEngine {}, importResumed plainEngine {}], a.Sturdy := by
    refine List.forall_mem_cons.mpr ⟨?_, List.forall_mem_singleton.mpr ?_⟩
    · exact ⟨Option.some_ne_none _, rfl, hwrites, by decide +kernel⟩
    · exact ⟨Option.some_ne_none _, rfl, hruns.admits.not_mute hwrites, by decide +kernel⟩
  have hgoing : World.Going "run" {} := fun r hr => by
    have hnone : World.recordOf {} "run" = .ok none := rfl
    exact absurd (hnone.symm.trans hr) (by simp)
  refine ⟨by decide +kernel, ?_⟩
  exact run_started_once haccept (.given rfl) hruns (.cons rfl (Trial.prompt_runs ..) .nil) hsturdy
    hgoing hinput hhas rfl

/-- **A run and its continuation that start the workflow twice**, although both come to their ends, and are
    told only what can be written down. -/
structure ImportsTwice (e : Engine) (w : World) : Prop where
  run : w.Runs (· ≤ ·) (e.run importThenReport (some "run") none) (importRun e w).deeds
    (importRun e w).result (importRun e w).after
  resumed : Resumes (· ≤ ·) importThenReport "run" (importRun e w).after.stores.runs [importResumed e w]
  ended : ∀ a ∈ [importRun e w, importResumed e w], a.result ≠ none
  plain : ∀ a ∈ [importRun e w, importResumed e w], ∀ d ∈ a.deeds,
    d.call.isOutside = true → d.call.Plain d.answer
  twice : ([importRun e w, importResumed e w].flatMap Trial.deeds).countP (Deed.starts importStep) = 2

/-- An engine that keeps no checkpoints. -/
def forgetfulEngine : Engine := { plainEngine with checkpoints := false }

/-- A store that takes no writes any more, and still holds an old record of the run. -/
def deafWorld : World :=
  let w := World.writeRun {} "run" RunRecord.continuedUpdate
  { w with stores := { w.stores with outage := .always } }

/-- Where nothing is saved, because no checkpoints are kept or because the store takes no writes, a
    continuation starts over. -/
theorem import_started_twice :
    ImportsTwice forgetfulEngine {} ∧ ImportsTwice plainEngine deafWorld := by
  have hended (e : Engine) (w : World) : ∀ a ∈ [importRun e w, importResumed e w], a.result ≠ none :=
    List.forall_mem_cons.mpr ⟨Option.some_ne_none _, List.forall_mem_singleton.mpr (Option.some_ne_none _)⟩
  constructor
  · exact ⟨Trial.prompt_runs .., .cons rfl (Trial.prompt_runs ..) .nil, hended _ _, by decide +kernel,
      by decide +kernel⟩
  · exact ⟨Trial.prompt_runs .., .cons rfl (Trial.prompt_runs ..) .nil, hended _ _, by decide +kernel,
      by decide +kernel⟩

end Runbook
