import Runbook.Proofs.Recollections
import Runbook.Proofs.RootOutputs
import Runbook.Proofs.SingleTrigger
import Runbook.Proofs.Sleeps

/-!
# `Proofs.WakeTimes` — the wake time of a sleep in an attempt

The wake time of a sleep lives in one note in the journal, and from there it goes into every checkpoint. No other
step touches the entry, and the sleep itself leaves the note as it is until the step has ended. So whatever an attempt
saves while it stands at one step of the root list carries the same wake time.

## Contents
- **Checkpoints.** `StepPath.SleepsUntil` and `SleepsIn`, of a cursor and a journal; `CountedIn`, a wake time that is
  counted; `World.HoldsSleep` and `World.Asleep`, of the record.
- **Attempts.** `Execution.Dozes`, and `LetsSleep` and `Lulls`, what is shown of every deed; the step lemma
  `Dozes.step`.
- **The root list.** `Dozes.walk`, `MayDoze.enter`, and `onward_dozes` and `onward_walk_of_step`, by induction on what
  is left.
-/

namespace Runbook

open JournalEntry

/-! ## Checkpoints -/

/-- **A sleep that lasts until a time**, as far as a cursor and a journal tell: its step is behind the cursor, or it
    stands at it and has ended, or has that wake time noted. -/
def StepPath.SleepsUntil (q : StepPath) (t : Float) (k : Int) (j : Keyed Value) : Prop :=
  ∃ i, q.rootIndex? = some i ∧ (i < k ∨ i = k ∧ (Ended (j.get? q.text) ∨ Wakes (j.get? q.text) t))

/-- **A journal with the entry of a sleep**: the entry is one, and where a wake time is noted the step of the root
    list is the one at the cursor. -/
structure SleepsIn (counted : Float → Prop) (q : StepPath) (k : Int) (j : Keyed Value) : Prop where
  entry : OfSleep counted (j.get? q.text)
  root : ∀ t, Wakes (j.get? q.text) t → q.rootIndex? = some k

section

variable {counted counted' : Float → Prop} {q : StepPath} {t : Float} {k k' : Int} {j : Keyed Value} {b : Backend}

theorem sleepsIn_nil : SleepsIn counted q k [] := ⟨ofSleep_none, fun _ h => absurd h not_wakes_none⟩

theorem SleepsIn.mono (h : SleepsIn counted q k j) (hcounted : ∀ t, counted t → counted' t) :
    SleepsIn counted' q k j := ⟨h.entry.mono hcounted, h.root⟩

/-- What a backend keeps of the journal of a sleep is one. -/
theorem SleepsIn.keepsFields (h : SleepsIn counted q k j) (b : Backend) : SleepsIn counted q k (b.keepsFields j) where
  entry := by
    rw [Backend.get?_keepsFields]
    exact h.entry.keeps b
  root t ht := by
    rw [Backend.get?_keepsFields] at ht
    exact h.root t (h.entry.wakes_of_keeps ht)

theorem SleepsIn.sleepsUntil (h : SleepsIn counted q k j) (ht : Wakes (j.get? q.text) t) : q.SleepsUntil t k j :=
  ⟨k, h.root t ht, .inr ⟨rfl, .inr ht⟩⟩

/-- A backend that keeps the wake time keeps how long a sleep lasts. -/
theorem SleepsIn.sleepsUntil_keeps_iff (h : SleepsIn counted q k j) (ht : b.keeps (.real t) = .real t) :
    q.SleepsUntil t k' (b.keepsFields j) ↔ q.SleepsUntil t k' j := by
  unfold StepPath.SleepsUntil
  rw [Backend.get?_keepsFields, ended_keeps_iff]
  have hwakes : Wakes ((j.get? q.text).map b.keeps) t ↔ Wakes (j.get? q.text) t :=
    ⟨h.entry.wakes_of_keeps, .keeps h.entry.mapping ht⟩
  simp only [hwakes]

/-- Behind the step of the root list it does not matter what the journal holds. -/
theorem StepPath.SleepsUntil.of_lt {j' : Keyed Value} (h : q.SleepsUntil t k j) (hlt : k < k') :
    q.SleepsUntil t k' j' := by
  obtain ⟨i, hi, hik⟩ := h
  exact ⟨i, hi, .inl (by omega)⟩

end

/-- **A wake time that is counted** in the deeds of an attempt: the duration is added to the time that the step was
    told first. -/
def CountedIn (q : StepPath) (d : Duration) (ds : List Deed) (t : Float) : Prop :=
  ∃ now, (readings (deedsFor q ds)).head? = some now ∧ ∃ seconds, d.seconds = .ok seconds ∧ t = now.seconds + seconds

section

variable {q : StepPath} {d : Duration} {ds es : List Deed} {t : Float}

/-- What is done later does not matter. -/
theorem CountedIn.append (h : CountedIn q d ds t) (es : List Deed) : CountedIn q d (ds ++ es) t := by
  obtain ⟨now, hnow, hcounted⟩ := h
  refine ⟨now, ?_, hcounted⟩
  rw [deedsFor_append, readings_append, List.head?_append, hnow]
  rfl

/-- What is done for other steps does not matter. -/
theorem CountedIn.of_deedsFor (h : CountedIn q d ds t) (hsame : deedsFor q es = deedsFor q ds) :
    CountedIn q d es t := by
  rwa [CountedIn, hsame]

/-- For a step with a counted wake time something is done. -/
theorem CountedIn.exists_deed (h : CountedIn q d ds t) : ∃ e ∈ ds, e.step = some q := by
  obtain ⟨now, hnow, -⟩ := h
  obtain ⟨e, he⟩ : ∃ e, e ∈ deedsFor q ds := by
    refine List.exists_mem_of_ne_nil _ fun hnil => ?_
    rw [hnil] at hnow
    exact absurd hnow (by simp [readings])
  exact ⟨e, mem_deedsFor.mp he⟩

end

/-- **What is saved of an attempt** at a plan with a sleep. -/
def SavesSleep (counted : Float → Prop) (q : StepPath) (n : Nat) (k : Nat) (_ : Context) (j : Keyed Value) : Prop :=
  k ≤ n ∧ SleepsIn counted q k j

namespace World

/-- **The record of a run says until when a sleep lasts.** -/
def HoldsSleep (q : StepPath) (t : Float) (id : String) (w : World) : Prop :=
  ∃ (k : Nat) (v : Value) (j : Keyed Value),
    w.checkpointOf id = some (checkpointData k v j) ∧ q.SleepsUntil t k j

/-- It says so, or it cannot be read any more. -/
def Asleep (q : StepPath) (t : Float) (id : String) (w : World) : Prop :=
  w.Unreadable id ∨ w.HoldsSleep q t id

section

variable {q : StepPath} {t : Float} {id : String} {n : Nat} {b : Backend} {counted : Float → Prop} {w w' : World}
  {d : Deed}

theorem HoldsSleep.of_same (hw : w.HoldsSleep q t id) (h : w'.checkpointOf id = w.checkpointOf id) :
    w'.HoldsSleep q t id := by
  rwa [HoldsSleep, h]

/-- A record that cannot be read holds nothing. -/
theorem Unreadable.not_holdsSleep (hw : w.Unreadable id) : ¬ w.HoldsSleep q t id := fun ⟨k, v, j, hdata, _⟩ =>
  absurd (hw.checkpointOf_eq.symm.trans hdata) (by simp)

theorem Asleep.of_runs (hw : w.Asleep q t id) (h : w'.stores.runs = w.stores.runs) : w'.Asleep q t id := by
  rwa [Asleep, Unreadable, HoldsSleep, checkpointOf, recordOf_congr h]

theorem Asleep.of_same (hw : w.Asleep q t id) (h : w.Answers d w') (hd : d.call.Orderly)
    (hsame : w'.Unreadable id ∨ w'.checkpointOf id = w.checkpointOf id) : w'.Asleep q t id := by
  rcases hw with hlost | hholds
  · exact .inl (h.unreadable hd hlost)
  · exact hsame.imp_right fun hsame => hholds.of_same hsame

/-- A wake time that stands in the record is one that the backend keeps. -/
theorem Recollects.keeps_real (hw : w.Recollects b (SavesSleep counted q n) id) {k : Nat} {v : Value}
    {j : Keyed Value} (hdata : w.checkpointOf id = some (checkpointData k v j)) :
    SleepsIn counted q k j ∧ k ≤ n ∧ ∀ t, Wakes (j.get? q.text) t → b.keeps (.real t) = .real t := by
  obtain ⟨k', c, j', heq, hkept, hle, hsleeps⟩ := hw.stored _ hdata
  obtain ⟨rfl, rfl, rfl⟩ := checkpointData_inj heq
  rw [Backend.keeps_checkpointData] at hkept
  obtain ⟨-, -, hj⟩ := checkpointData_inj hkept
  refine ⟨hsleeps, hle, fun t ht => ht.kept hsleeps.entry.mapping ?_⟩
  rw [← Backend.get?_keepsFields, hj]

end

end World

/-! ## Attempts -/

/-- **A deed that lets a run sleep**: what the record says of a wake time that the backend keeps, it says
    afterwards. -/
def LetsSleep (b : Backend) (q : StepPath) (id : String) (u : World) (_ : Deed) (u' : World) : Prop :=
  ∀ t, b.keeps (.real t) = .real t → u.Asleep q t id → u'.Asleep q t id

/-- **What is shown of every deed** of an attempt: neither the record nor the attempt forgets until when the sleep
    lasts. -/
structure Lulls (b : Backend) (q : StepPath) (id : String) (u : World) (d : Deed) (u' : World) : Prop where
  record : LetsSleep b q id u d u'
  attempt : ∀ t, q.SleepsUntil t u.attempt.cursor u.attempt.journal →
    q.SleepsUntil t u'.attempt.cursor u'.attempt.journal

/-- **An attempt dozes** at a position of the root list: its journal has the entry of a sleep, and as far as the
    record tells until when the sleep lasts, or that was known from the start, the attempt knows. -/
structure Execution.Dozes (x : Execution) (b : Backend) (q : StepPath) (counted knows : Float → Prop) (m : Nat)
    (w : World) : Prop where
  record : w.Recollects b (SavesSleep counted q x.plan.steps.length) x.runId
  le : m ≤ x.plan.steps.length
  cursor : w.attempt.cursor = m
  journal : SleepsIn counted q m w.attempt.journal
  link : ∀ t, b.keeps (.real t) = .real t → w.HoldsSleep q t x.runId → q.SleepsUntil t m w.attempt.journal
  known : ∀ t, knows t → q.SleepsUntil t m w.attempt.journal

namespace Execution

section

variable {x : Execution} {b : Backend} {q : StepPath} {counted knows : Float → Prop} {m m' : Nat} {w w' : World}
  {d : Deed} {ds : List Deed} {t : Clock} {r : Option (Outcome × Clock)} {c : Context}
  {pace : Clock → Clock → Prop} {s₀ : Step} {stepId : Option String} {duration : Duration} {keepJournal : Bool}

/-- **The step lemma.** -/
theorem Dozes.step (hw : x.Dozes b q counted knows m w) (h : w.Answers d w') (hd : d.call.Orderly)
    (hown : ∀ other, d.call = .saveCheckpoint other → other = x.runId) (hle : m' ≤ x.plan.steps.length)
    (hcursor : w'.attempt.cursor = m') (hjournal : SleepsIn counted q m' w'.attempt.journal)
    (hforget : ∀ t, q.SleepsUntil t m w.attempt.journal → q.SleepsUntil t m' w'.attempt.journal) :
    x.Dozes b q counted knows m' w' ∧ Lulls b q x.runId w d w' := by
  have hrecord : w'.Recollects b (SavesSleep counted q x.plan.steps.length) x.runId :=
    hw.record.answers h hd fun other hcall =>
      ⟨hown other hcall, m, hw.cursor, hw.le, hw.journal.keepsFields b⟩
  have hcases := hw.record.checkpoint_cases h hd hown
  -- what is saved of the attempt lasts as long as the sleep does in its journal
  have hsaved {data : Value} (hdata : w.attempt.checkpoint = .ok data) :
      b.keeps data = checkpointData m (b.keeps w.attempt.base.toValue) (b.keepsFields w.attempt.journal) := by
    rw [Attempt.checkpoint_eq hw.cursor hdata, Backend.keeps_checkpointData]
  refine ⟨⟨hrecord, hle, hcursor, hjournal, fun t ht hholds => hforget t ?_,
    fun t ht => hforget t (hw.known t ht)⟩, fun t ht hasleep => ?_, fun t hsleeps => ?_⟩
  · rcases hcases with hlost | hsame | ⟨data, -, hdata', hnew⟩
    · exact absurd hholds hlost.not_holdsSleep
    · exact hw.link t ht (hholds.of_same hsame.symm)
    · obtain ⟨k, v, j, hdata, hsleeps⟩ := hholds
      rw [hnew, hsaved hdata', Option.some.injEq] at hdata
      obtain ⟨rfl, -, rfl⟩ := checkpointData_inj hdata
      exact (hw.journal.sleepsUntil_keeps_iff ht).mp hsleeps
  · rcases hasleep with hlost | hholds
    · exact .inl (h.unreadable hd hlost)
    · rcases hcases with hlost | hsame | ⟨data, -, hdata', hnew⟩
      · exact .inl hlost
      · exact .inr (hholds.of_same hsame)
      · refine .inr ⟨m, _, _, hnew.trans (congrArg some (hsaved hdata')), ?_⟩
        exact (hw.journal.sleepsUntil_keeps_iff ht).mpr (hw.link t ht hholds)
  · rw [hw.cursor] at hsleeps
    rw [hcursor]
    exact hforget t hsleeps

/-- A deed that leaves the attempt alone. -/
theorem Dozes.quiet (hw : x.Dozes b q counted knows m w) (h : w.Answers d w') (hd : d.call.Orderly)
    (hown : ∀ other, d.call = .saveCheckpoint other → other = x.runId) (hattempt : w'.attempt = w.attempt) :
    x.Dozes b q counted knows m w' ∧ Lulls b q x.runId w d w' :=
  hw.step h hd hown hw.le (by rw [hattempt, hw.cursor]) (by rw [hattempt]; exact hw.journal)
    fun t ht => by rwa [hattempt]

/-! ## The root list -/

/-- **What is done for the sleep** while its step of the root list is carried out. -/
theorem walk_minds {pre post : List Deed} (hs : x.plan.steps[m]? = some s₀)
    (hhas : x.plan.Has q (.sleep stepId duration)) (hentry : OfSleep counted (w.attempt.journal.get? q.text))
    (h : Fiber.Course pace t (x.walk s₀ (.root m s₀.kind) c) ds r) (hds : ds = pre ++ d :: post)
    (hpre : w.Admits pre w') (hstep : d.step = some q) :
    Nap.Minds q.text duration
      ⟨w'.attempt.journal.get? q.text, readings (deedsFor q pre), sleeps (deedsFor q pre)⟩ d.call := by
  have hsteps : OfSteps x ds := fun d hd => by
    obtain ⟨p, -, hproper, hstep, hcall⟩ :=
      (x.walk_parts s₀ (StepPath.proper_root m s₀) rfl h d hd).treeCall
    exact ⟨p, hproper, hstep, hcall⟩
  exact (Execution.walk_layout s₀ h).minds hsteps hhas.proper
    (fun s hinside => (Plan.has_of_inside hs hinside).1.unique hhas) (hentry.mono fun _ _ => trivial) hds hpre hstep

/-- **While a step of the root list is carried out**, the attempt dozes at it. -/
theorem Dozes.walk (hw : x.Dozes b q counted knows m w) (hs : x.plan.steps[m]? = some s₀)
    (hhas : x.plan.Has q (.sleep stepId duration)) (hcounted : ∀ t, CountedIn q duration ds t → counted t)
    (h : Fiber.Course pace t (x.walk s₀ (.root m s₀.kind) c) ds r) :
    w.Through (Lulls b q x.runId) ds (x.Dozes b q counted knows m) := by
  -- what is done for the step itself leaves the wake time in its entry
  have hown : w.Along (fun u d _ => d.step = some q →
      (∀ t, Wakes (u.attempt.journal.get? q.text) t → Ended (after q.text (u.attempt.journal.get? q.text) d.call)
        ∨ Wakes (after q.text (u.attempt.journal.get? q.text) d.call) t)
      ∧ (OfSleep counted (u.attempt.journal.get? q.text) →
        OfSleep counted (after q.text (u.attempt.journal.get? q.text) d.call))) ds := by
    intro pre d post u u' hds hpre _ hstep
    have hminds := walk_minds hs hhas hw.journal.entry h hds hpre hstep
    refine ⟨hminds.keeps, hminds.notes counted fun now hnow seconds hseconds =>
      hcounted _ ⟨now, ?_, seconds, hseconds, rfl⟩⟩
    have htold : readings (deedsFor q pre) = [now] := hnow
    rw [hds, deedsFor_append, readings_append, htold]
    rfl
  refine World.Through.of_along hown (fun d hd u u' hu hu' hmine => ?_) hw
  obtain ⟨p, hstep, hroot, hcall⟩ := walk_rootIndex h d hd
  obtain ⟨p', -, hproper, hstep', -⟩ := (x.walk_parts s₀ (StepPath.proper_root m s₀) rfl h d hd).treeCall
  obtain rfl := Option.some.inj (hstep.symm.trans hstep')
  obtain ⟨-, hcursor, -⟩ := hcall.after_fields u.attempt
  have hafter := hu'.attempt_eq
  have hentry : u'.attempt.journal.get? q.text
        = after q.text (u.attempt.journal.get? q.text) d.call := by
    rw [hafter, Attempt.get?_after hcall]
  have hother (hne : d.step ≠ some q) :
      u'.attempt.journal.get? q.text = u.attempt.journal.get? q.text := by
    rw [hafter]
    exact hcall.get?_after_of_ne _ fun htext =>
      hne (by rw [hstep, StepPath.text_injective hhas.proper hproper htext])
  have hplace : d.step = some q → q.rootIndex? = some (m : Int) := fun hq => by
    rwa [← Option.some.inj (hstep.symm.trans hq)]
  refine hu.step hu' hcall.orderly (fun other hsave => ?_) hu.le (by rw [hafter, hcursor, hu.cursor]) ?_ ?_
  · exact (Call.saveCheckpoint.inj ((hcall.save_own hsave).symm.trans hsave)).symm
  · by_cases hq : d.step = some q
    · exact ⟨hentry ▸ (hmine hq).2 hu.journal.entry, fun _ _ => hplace hq⟩
    · exact ⟨hother hq ▸ hu.journal.entry, fun t ht => hu.journal.root t (hother hq ▸ ht)⟩
  · rintro t ⟨i, hi, hlt | ⟨rfl, hended | hwakes⟩⟩
    · exact ⟨i, hi, .inl hlt⟩
    · exact ⟨_, hi, .inr ⟨rfl, .inl (hafter ▸ hcall.ended_after _ hended)⟩⟩
    · refine ⟨_, hi, .inr ⟨rfl, ?_⟩⟩
      by_cases hq : d.step = some q
      · exact hentry ▸ (hmine hq).1 t hwakes
      · exact .inr (hother hq ▸ hwakes)

/-- **The attempt can begin a step of the root list**, and forgets the journal only where no sleep lasts by it. -/
structure MayDoze (x : Execution) (b : Backend) (q : StepPath) (counted knows : Float → Prop) (m : Nat)
    (keepJournal : Bool) (k : Nat) (w : World) : Prop where
  dozes : x.Dozes b q counted knows k w
  kept : keepJournal = true → k = m
  forgotten : keepJournal = false → ∀ t, q.SleepsUntil t k w.attempt.journal → q.SleepsUntil t m []

/-- **The beginning of a step of the root list**, with everything it writes. -/
theorem MayDoze.enter {k : Nat} {res : Option (Except Fault Unit × Clock)}
    (hw : x.MayDoze b q counted knows m keepJournal k w) (hle : m ≤ x.plan.steps.length)
    (h : Program.Course pace none t (x.enter m keepJournal c).outcome ds res) :
    w.Through (Lulls b q x.runId) ds fun w' =>
      (∃ k, x.Dozes b q counted knows k w') ∧ (res ≠ none → x.Dozes b q counted knows m w') := by
  rcases enter_course h with ⟨rfl, rfl⟩ | ⟨d, es, rfl, hstep, hcall, hes⟩
  · exact .nil ⟨⟨k, hw.dozes⟩, fun h => absurd rfl h⟩
  · refine World.Through.cons (J := x.Dozes b q counted knows m) (fun {w₁} hd => ?_) fun {w₁} hw₁ => ?_
    · have hattempt : w₁.attempt = w.attempt.enter m c keepJournal := by rw [hd.attempt_eq, hcall]; rfl
      have hjournal : w₁.attempt.journal = if keepJournal then w.attempt.journal else [] := by
        rw [hattempt]
        rfl
      refine hw.dozes.step hd (hcall ▸ .other rfl) (fun other hsave => ?_) hle (by rw [hattempt]; rfl) ?_ ?_
      · exact absurd (hcall.symm.trans hsave) (by simp)
      · rw [hjournal]
        cases keepJournal with
        | true => exact hw.kept rfl ▸ hw.dozes.journal
        | false => exact sleepsIn_nil
      · rw [hjournal]
        cases keepJournal with
        | true => exact fun t ht => hw.kept rfl ▸ ht
        | false => exact hw.forgotten rfl
    · refine (World.Through.of_keeps (fun e he u u' hu hu' => ?_) hw₁).weaken fun hw' => ⟨⟨m, hw'⟩, fun _ => hw'⟩
      obtain ⟨-, hsave, -⟩ := hes e he
      exact hu.quiet hu' (hsave ▸ .save _) (fun other h => (Call.saveCheckpoint.inj (hsave.symm.trans h)).symm)
        (by rw [hu'.attempt_eq, hsave]; rfl)

/-- Updates of the run record that leave checkpoints alone. -/
theorem Dozes.updates {updates : Keyed Value} (hspares : RunRecord.SparesCheckpoint updates)
    (hw : x.Dozes b q counted knows m w) (hds : ∀ d ∈ ds, d.step = none ∧ d.call = .updateRun x.runId updates) :
    w.Through (Lulls b q x.runId) ds fun w' => ∃ k, x.Dozes b q counted knows k w' := by
  refine (World.Through.of_keeps (fun d hd u u' hu hu' => ?_) hw).weaken fun hw' => ⟨m, hw'⟩
  obtain ⟨-, hcall⟩ := hds d hd
  exact hu.quiet hu' (hcall ▸ .update _ hspares) (fun other h => absurd (hcall.symm.trans h) (by simp))
    (by rw [hu'.attempt_eq, hcall]; rfl)

/-- **The run lemma** for what is left of the root list. -/
theorem onward_dozes {k : Nat} (hle : m ≤ x.plan.steps.length)
    (hw : x.MayDoze b q counted knows m (keepJournal && decide (m < x.plan.steps.length)) k w)
    (hhas : x.plan.Has q (.sleep stepId duration)) (hcounted : ∀ t, CountedIn q duration ds t → counted t)
    (h : Fiber.Course pace t (x.onward m keepJournal c) ds r) :
    w.Through (Lulls b q x.runId) ds fun w' => ∃ k, x.Dozes b q counted knows k w' := by
  -- by induction on the number of steps that are left
  obtain ⟨left, hleft⟩ : ∃ left, m + left = x.plan.steps.length := ⟨_, Nat.add_sub_cancel' hle⟩
  induction left using Nat.strongRecOn generalizing m keepJournal k c w ds t r with | _ left ih
  cases onward_course hle h with
  | entering henter => exact (hw.enter hle henter).weaken fun hw' => hw'.1
  | entered henter hrest =>
    replace hcounted := fun t ht => hcounted t (CountedIn.of_deedsFor ht (deedsFor_after_none henter.step_eq _ q))
    refine (hw.enter hle henter).append fun {w₁} hw₁ => ?_
    have hat := hw₁.2 (by simp)
    cases hrest with
    | inside hs hwalk => exact (hat.walk hs hhas hcounted hwalk).weaken fun hw' => ⟨m, hw'⟩
    | failed hs hwalk _ hes =>
      refine (hat.walk hs hhas (fun t ht => hcounted t (ht.append _)) hwalk).append fun hw₂ => ?_
      exact hw₂.updates (RunRecord.spares_failed _) hes
    | last _ hds => exact hat.updates (RunRecord.spares_completed _) hds
    | on hs hwalk _ hnext =>
      refine (hat.walk hs hhas (fun t ht => hcounted t (ht.append _)) hwalk).append fun {w₂} hw₂ => ?_
      have hlt : m < x.plan.steps.length := (List.getElem?_eq_some_iff.mp hs).1
      refine ih (left - 1) (by omega) hlt ⟨hw₂, by simp, fun _ t ht => ht.of_lt (by omega)⟩
        (fun t ht => hcounted t ?_) hnext (by omega)
      -- the step stands behind the position that was carried out
      obtain ⟨d, hd, hstep⟩ := ht.exists_deed
      obtain ⟨i, hi, hroot⟩ := onward_rootIndex hnext hd hstep
      have hnone : ∀ d ∈ ([] : List Deed), d.step = none := fun d hd => absurd hd List.not_mem_nil
      exact ht.of_deedsFor ((deedsFor_apart hnone hwalk hnext).2 q i hi hroot)

/-- A deed in one of two lists in turn. -/
theorem split_of_append {as bs pre post : List Deed} (h : as ++ bs = pre ++ d :: post) :
    (∃ rest, as = pre ++ d :: rest) ∨ ∃ pre', pre = as ++ pre' ∧ bs = pre' ++ d :: post := by
  rcases List.append_eq_append_iff.mp h with ⟨cs, hpre, hbs⟩ | ⟨cs, has, hpost⟩
  · exact .inr ⟨cs, hpre, hbs⟩
  · cases cs with
    | nil => exact .inr ⟨[], by simpa using has.symm, by simpa using hpost.symm⟩
    | cons e cs =>
      obtain ⟨rfl, rfl⟩ := List.cons.inj (hpost.trans (List.cons_append ..))
      exact .inl ⟨cs, has⟩

/-- **A step is carried out in one piece**: what is done for it is done while its step of the root list is carried
    out, and nothing is done for it before. -/
theorem onward_walk_of_step {pre post : List Deed} (hle : m ≤ x.plan.steps.length)
    (h : Fiber.Course pace t (x.onward m keepJournal c) ds r) (hds : ds = pre ++ d :: post)
    (hstep : d.step = some q) :
    ∃ before inside rest s i u c' r', pre = before ++ inside ∧ deedsFor q before = []
      ∧ x.plan.steps[i]? = some s
      ∧ Fiber.Course pace u (x.walk s (.root (i : Nat) s.kind) c') (inside ++ d :: rest) r' := by
  -- by induction on the number of steps that are left
  obtain ⟨left, hleft⟩ : ∃ left, m + left = x.plan.steps.length := ⟨_, Nat.add_sub_cancel' hle⟩
  induction left using Nat.strongRecOn generalizing m keepJournal c ds t r pre with | _ left ih
  have hnone {es : List Deed} (hes : ∀ e ∈ es, e.step = none) (hd : d ∈ es) : False :=
    absurd ((hes d hd).symm.trans hstep) (by simp)
  cases onward_course hle h with
  | entering henter => exact (hnone henter.step_eq (by simp [hds])).elim
  | @entered _ es₁ _ _ henter hrest =>
    rcases split_of_append hds with ⟨rest, rfl⟩ | ⟨pre, rfl, hes⟩
    · exact (hnone henter.step_eq (by simp)).elim
    · have hbefore := deedsFor_of_none henter.step_eq q
      cases hrest with
      | inside hs hwalk => exact ⟨es₁, pre, post, _, m, _, _, _, rfl, hbefore, hs, hes ▸ hwalk⟩
      | failed hs hwalk _ hends =>
        rcases split_of_append hes with ⟨rest, rfl⟩ | ⟨pre, rfl, hlast⟩
        · exact ⟨es₁, pre, rest, _, m, _, _, _, rfl, hbefore, hs, hwalk⟩
        · exact (hnone (fun e he => (hends e he).1) (by simp [hlast])).elim
      | last _ hends => exact (hnone (fun e he => (hends e he).1) (by simp [hes])).elim
      | @on _ _ _ ws _ _ _ _ hs hwalk _ hnext =>
        rcases split_of_append hes with ⟨rest, rfl⟩ | ⟨pre, rfl, hlast⟩
        · exact ⟨es₁, pre, rest, _, m, _, _, _, rfl, hbefore, hs, hwalk⟩
        · have hlt : m < x.plan.steps.length := (List.getElem?_eq_some_iff.mp hs).1
          obtain ⟨before, inside, rest, s, i, u, c', r', rfl, hbefore', hs', hwalk'⟩ :=
            ih (left - 1) (by omega) hlt hnext hlast (by omega)
          refine ⟨es₁ ++ (ws ++ before), inside, rest, s, i, u, c', r', by simp, ?_, hs', hwalk'⟩
          -- the step stands behind the position that was carried out
          obtain ⟨j, hj, hroot⟩ := onward_rootIndex hnext (by simp [hlast]) hstep
          have hwalked : deedsFor q ws = [] := deedsFor_eq_nil fun e he heq => by
            obtain ⟨p, hp, hat, -⟩ := walk_rootIndex hwalk e he
            obtain rfl := Option.some.inj (hp.symm.trans heq)
            have hmj : m = j := Int.natCast_inj.mp (Option.some.inj (hat.symm.trans hroot))
            omega
          rw [deedsFor_append, deedsFor_append, hbefore, hwalked, hbefore', List.append_nil, List.append_nil]

end

end Execution

end Runbook
