import Runbook.Proofs.SingleStart
import Runbook.Proofs.WakeTimes

/-!
# `Proofs.Awakenings` — a sleep that is restarted

A trial that goes on with a run takes the wake time of a sleep from the record, and whatever it saves has the same
one until the step has ended. So from the moment when the time was first saved, every trial that carries the step
out asks the host for what is left until then, and the sleep gets no longer however often it is restarted.

## Contents
- **Trials.** `Execution.Begun`, a trial that has begun its attempt; `Undertakes.phases` and `Undertakes.stop`.
- **What a trial does for a sleep.** `Begun.mayDoze` and `Begun.dozes`; `Undertakes.dozes`, what it saves;
  `Undertakes.minds`, what it does for the step; `Undertakes.recalls`, what it has of the record.
- **Moments.** `WakesAt`, `SleepsOnce` and `KeepsWakeTime`, what is so at a moment; `Trial.Later`.
- **Chains.** `Trial.FindsSleep` and its step lemmas; `Resumes.findsSleep`, by induction on the trials; the theorem.
-/

namespace Runbook

open JournalEntry

/-! ## Trials -/

/-- **A trial that has begun its attempt**: what it has done for no step until then, and what it does from its
    position of the root list on. -/
structure Execution.Begun (pace : Clock → Clock → Prop) (x : Execution) (w : World) (anew : Prop)
    (first : List Deed) (a : Attempt) (keepJournal : Bool) (m : Nat) (t : Clock) (ds : List Deed)
    (r : Option (Outcome × Clock)) : Prop where
  quiet : ∀ d ∈ first, d.step = none ∧ d.call.Quiet
  begins : x.BeginsWith w anew a keepJournal
  cursor : a.cursor = m
  le : m ≤ x.plan.steps.length
  attempt : ∀ {w'}, w.Admits first w' → w'.attempt = a
  course : Fiber.Course pace t (x.onward m keepJournal a.base) ds r

section

variable {pace : Clock → Clock → Prop} {x : Execution} {w w₁ u : World} {anew : Prop} {ds pre mid post : List Deed}
  {d : Deed} {r : Option (Outcome × Clock)} {b : Backend} {counted : Float → Prop} {q : StepPath}
  {stepId : Option String} {duration : Duration}

/-- What a trial does up to any moment is what a trial undertakes. -/
theorem Execution.Undertakes.stop (h : x.Undertakes pace w anew ds r) (hds : ds = pre ++ post) :
    x.Undertakes pace w anew pre none := by
  have hprepared {es : List Deed} (hes : Preparing x.runId es) (hpre : pre ⊆ es) :
      x.Undertakes pace w anew pre none := .prepared (fun d hd => hes d (hpre hd)) (by simp)
  cases h with
  | prepared hes => exact hprepared hes (hds ▸ List.subset_append_left _ _)
  | restored hanew hrecord hstatus hcheckpoint hc hes hfs =>
    rcases List.append_eq_append_iff.mp hds with ⟨as, rfl, has⟩ | ⟨bs, rfl, -⟩
    · exact .restored hanew hrecord hstatus hcheckpoint hc hes
        (fun d hd => hfs d (has ▸ List.mem_append_left _ hd)) (by simp)
    · exact hprepared hes (List.subset_append_left _ _)
  | attempted hes hbegins hcourse =>
    rcases List.append_eq_append_iff.mp hds with ⟨as, rfl, has⟩ | ⟨bs, rfl, -⟩
    · exact .attempted hes hbegins (hcourse.stop has)
    · exact hprepared hes (List.subset_append_left _ _)

/-- **The phases of a trial**: it does nothing for a step, or it begins an attempt and then does what is left. -/
theorem Execution.Undertakes.phases (h : x.Undertakes pace w anew ds r)
    (hw : w.Recollects b (SavesSleep counted q x.plan.steps.length) x.runId) :
    (∀ d ∈ ds, d.step = none ∧ d.call.Quiet)
      ∨ ∃ first a keepJournal m t rest, ds = first ++ rest ∧ x.Begun pace w anew first a keepJournal m t rest r := by
  have hquiet {es : List Deed} (hes : Preparing x.runId es) : ∀ d ∈ es, d.step = none ∧ d.call.Quiet :=
    fun d hd => ⟨(hes d hd).1, (hes d hd).2.quiet⟩
  cases h with
  | prepared hes => exact .inl (hquiet hes)
  | restored _ _ _ _ _ hes hfs =>
    refine .inl fun d hd => (List.mem_append.mp hd).elim (hquiet hes d) fun hd => ?_
    rw [(hfs d hd).2]
    exact ⟨(hfs d hd).1, Call.quiet_beginAttempt _⟩
  | @attempted a keepJournal es _ _ _ hes hbegins hcourse =>
    obtain ⟨m, hm, hle⟩ : ∃ m : Nat, a.cursor = m ∧ m ≤ x.plan.steps.length := by
      rcases hbegins.recollects hw with rfl | ⟨k, c, j, rfl, hle, -⟩
      · exact ⟨0, rfl, Nat.zero_le _⟩
      · exact ⟨k, rfl, hle⟩
    rw [carryOutFrom_onward hm] at hcourse
    cases hcourse with
    | stopped => exact .inl (by rw [List.append_nil]; exact hquiet hes)
    | @ask _ start stop _ _ _ answer fs _ _ _ hrest =>
      have hbegin : Call.Quiet (.beginAttempt a) := Call.quiet_beginAttempt a
      refine .inr ⟨es ++ [⟨none, .beginAttempt a, answer, start, stop⟩], a, keepJournal, m, _, fs, by simp, ?_,
        hbegins, hm, hle, fun hadmits => ?_, hrest⟩
      · intro d hd
        rcases List.mem_append.mp hd with hd | hd
        · exact hquiet hes d hd
        · rw [List.mem_singleton.mp hd]
          exact ⟨rfl, hbegin⟩
      · obtain ⟨w₁, -, hlast⟩ := hadmits.split
        obtain ⟨w₂, hd, hnil⟩ := hlast.of_cons
        rw [hnil.eq_of_nil, hd.attempt_eq]
        rfl

/-! ## What a trial does for a sleep -/

/-- Deeds that leave checkpoints alone leave what the record holds. -/
theorem letsSleep_of_quiet (hw : w.Recollects b (SavesSleep counted q x.plan.steps.length) x.runId)
    (hds : ∀ d ∈ ds, d.step = none ∧ d.call.Quiet) :
    w.Through (LetsSleep b q x.runId) ds fun w' =>
      w'.Recollects b (SavesSleep counted q x.plan.steps.length) x.runId
        ∧ (w'.Unreadable x.runId ∨ w'.checkpointOf x.runId = w.checkpointOf x.runId) := by
  refine .of_keeps (fun d hd u u' hu hu' => ?_) ⟨hw, .inr rfl⟩
  obtain ⟨-, horderly, hquiet⟩ := hds d hd
  have hsame : u'.Unreadable x.runId ∨ u'.checkpointOf x.runId = u.checkpointOf x.runId := by
    rcases hu.1.checkpoint_cases hu' horderly fun other hother => absurd hother (hquiet other) with
      hlost | hsame | ⟨data, hsave, -⟩
    · exact .inl hlost
    · exact .inr hsame
    · exact absurd hsave (hquiet _)
  refine ⟨⟨hu.1.answers hu' horderly fun other hother => absurd hother (hquiet other), ?_⟩,
    fun t _ ht => ht.of_same hu' horderly hsame⟩
  exact hu.2.elim (fun hlost => .inl (hu'.unreadable horderly hlost)) fun h =>
    hsame.imp_right fun hsame => hsame.trans h

variable {first inner : List Deed} {a : Attempt} {keepJournal : Bool} {m : Nat} {t : Clock} {v : Float}

/-- **The attempt of a trial** can begin its step of the root list, and knows what the record has held. -/
theorem Execution.Begun.mayDoze (h : x.Begun pace w anew first a keepJournal m t ds r)
    (hfresh : anew → w.checkpointOf x.runId = none)
    (hw : w.Recollects b (SavesSleep counted q x.plan.steps.length) x.runId)
    (hhas : x.plan.Has q (.sleep stepId duration)) (hfirst : w.Admits first w₁) :
    x.MayDoze b q counted (fun v => w.HoldsSleep q v x.runId) m (keepJournal && decide (m < x.plan.steps.length)) m
      w₁ := by
  obtain ⟨hw₁, hsame⟩ := (letsSleep_of_quiet hw h.quiet).ends hfirst
  have hattempt := h.attempt hfirst
  -- what the attempt has found in the record
  obtain ⟨hjournal, hknown, hforgets⟩ : SleepsIn counted q m a.journal
      ∧ (∀ v, w.HoldsSleep q v x.runId → q.SleepsUntil v m a.journal) ∧ (keepJournal = false → a.journal = []) := by
    have hcursor := h.cursor
    cases h.begins with
    | afresh hanew =>
      have hnone : w.checkpointOf x.runId = none := by
        rcases hanew with hanew | ⟨checkpoint, ⟨record, hrecord, -, hcheckpoint⟩, hnone⟩
        · exact hfresh hanew
        · rcases hw.found hrecord hcheckpoint with ⟨hnone, -⟩ | ⟨k, c, j, -, -, hcontext, -⟩
          · exact hnone
          · exact absurd (hnone.symm.trans hcontext) (by simp)
      exact ⟨sleepsIn_nil, fun v ⟨k, data, j, hdata, _⟩ => absurd (hnone.symm.trans hdata) (by simp), fun _ => rfl⟩
    | again _ hfound hsnapshot ha =>
      obtain ⟨record, hrecord, -, hcheckpoint⟩ := hfound
      rcases hw.found hrecord hcheckpoint with ⟨-, hnone⟩ | ⟨k, c, j, hdata, ⟨-, hsaved⟩, hcontext, hbind⟩
      · exact absurd (hsnapshot.symm.trans hnone) (by simp)
      · obtain rfl := Option.some.inj (hsnapshot.symm.trans hcontext)
        obtain rfl := Except.ok.inj (ha.symm.trans hbind)
        obtain rfl : k = m := Int.natCast_inj.mp hcursor
        refine ⟨hsaved, ?_, by simp⟩
        rintro v ⟨k', c', j', hdata', hsleeps⟩
        obtain ⟨rfl, -, rfl⟩ := checkpointData_inj (Option.some.inj (hdata.symm.trans hdata'))
        exact hsleeps
  refine ⟨⟨hw₁, h.le, by rw [hattempt, h.cursor], by rw [hattempt]; exact hjournal, fun v _ hv => ?_, fun v hv => ?_⟩,
    fun _ => rfl, fun hforgotten v hv => ?_⟩
  · rw [hattempt]
    rcases hsame with hlost | hsame
    · exact absurd hv hlost.not_holdsSleep
    · exact hknown v (hv.of_same hsame.symm)
  · rw [hattempt]
    exact hknown v hv
  · rw [hattempt] at hv
    rcases Bool.and_eq_false_iff.mp hforgotten with hkeep | hend
    · rwa [hforgets hkeep] at hv
    · -- at the end of the list the step is behind
      obtain ⟨i, hi, hlt⟩ := hhas.rootIndex
      have hend : ¬ m < x.plan.steps.length := of_decide_eq_false hend
      exact ⟨i, hi, .inl (by omega)⟩

/-- The attempt dozes from there on, up to any moment. -/
theorem Execution.Begun.dozes {es fs : List Deed} (h : x.Begun pace w anew first a keepJournal m t ds r)
    (hfresh : anew → w.checkpointOf x.runId = none)
    (hw : w.Recollects b (SavesSleep counted q x.plan.steps.length) x.runId)
    (hhas : x.plan.Has q (.sleep stepId duration)) (hfirst : w.Admits first w₁) (hds : ds = es ++ fs)
    (hcounted : ∀ v, CountedIn q duration es v → counted v) :
    w₁.Through (Lulls b q x.runId) es fun w' =>
      ∃ k, x.Dozes b q counted (fun v => w.HoldsSleep q v x.runId) k w' :=
  onward_dozes h.le (h.mayDoze hfresh hw hhas hfirst) hhas hcounted (h.course.stop hds)

/-- Before its attempt a trial does nothing for any step. -/
theorem Execution.Begun.deedsFor_eq (h : x.Begun pace w anew first a keepJournal m t ds r) (q : StepPath)
    (es : List Deed) : deedsFor q (first ++ es) = deedsFor q es :=
  deedsFor_after_none (fun d hd => (h.quiet d hd).1) es q

/-- **A trial lets the run sleep**, and saves the sleep as it should be. -/
theorem Execution.Undertakes.dozes (h : x.Undertakes pace w anew ds r)
    (hfresh : anew → w.checkpointOf x.runId = none)
    (hw : w.Recollects b (SavesSleep counted q x.plan.steps.length) x.runId)
    (hhas : x.plan.Has q (.sleep stepId duration)) (hcounted : ∀ v, CountedIn q duration ds v → counted v) :
    w.Through (LetsSleep b q x.runId) ds
      (World.Recollects b (SavesSleep counted q x.plan.steps.length) x.runId) := by
  rcases h.phases hw with hquiet | ⟨first, a, keepJournal, m, t, rest, rfl, hbegun⟩
  · exact (letsSleep_of_quiet hw hquiet).weaken fun h => h.1
  · have hrest {w₁ : World} (hfirst : w.Admits first w₁) := hbegun.dozes hfresh hw hhas hfirst
      (List.append_nil rest).symm fun v hv => hcounted v (hv.of_deedsFor (hbegun.deedsFor_eq q rest))
    refine ⟨(letsSleep_of_quiet hw hbegun.quiet).along.append fun hfirst =>
      (hrest hfirst).along.weaken fun _ h => h.record, fun hadmits => ?_⟩
    obtain ⟨w₁, hfirst, hadmits⟩ := hadmits.split
    obtain ⟨k, hdozes⟩ := (hrest hfirst).ends hadmits
    exact hdozes.record

/-- What is done for a step is done by an attempt that has begun. -/
theorem Execution.Undertakes.begun (h : x.Undertakes pace w anew ds r)
    (hw : w.Recollects b (SavesSleep counted q x.plan.steps.length) x.runId) (hds : ds = pre ++ d :: post)
    (hstep : d.step = some q) :
    ∃ first a keepJournal m t inner, pre = first ++ inner
      ∧ x.Begun pace w anew first a keepJournal m t (inner ++ d :: post) r := by
  rcases h.phases hw with hquiet | ⟨first, a, keepJournal, m, t, rest, rfl, hbegun⟩
  · exact absurd ((hquiet d (by simp [hds])).1.symm.trans hstep) (by simp)
  · rcases Execution.split_of_append hds with ⟨others, rfl⟩ | ⟨inner, rfl, rfl⟩
    · exact absurd ((hbegun.quiet d (by simp)).1.symm.trans hstep) (by simp)
    · exact ⟨first, a, keepJournal, m, t, inner, rfl, hbegun⟩

/-- **What a trial does for the sleep** is what a sleep on its way makes sure of. -/
theorem Execution.Undertakes.minds (h : x.Undertakes pace w anew ds r)
    (hfresh : anew → w.checkpointOf x.runId = none)
    (hw : w.Recollects b (SavesSleep counted q x.plan.steps.length) x.runId)
    (hhas : x.plan.Has q (.sleep stepId duration)) (hcounted : ∀ v, CountedIn q duration pre v → counted v)
    (hds : ds = pre ++ d :: post) (hpre : w.Admits pre u) (hstep : d.step = some q) :
    SleepsIn counted q u.attempt.cursor u.attempt.journal ∧ Nap.Minds q.text duration
      ⟨u.attempt.journal.get? q.text, readings (deedsFor q pre), sleeps (deedsFor q pre)⟩ d.call := by
  obtain ⟨first, a, keepJournal, m, t, inner, rfl, hbegun⟩ := h.begun hw hds hstep
  obtain ⟨w₁, hfirst, hinner⟩ := hpre.split
  have hdozes {es fs : List Deed} (hes : inner = es ++ fs) {v : World} (hv : w₁.Admits es v) :
      SleepsIn counted q v.attempt.cursor v.attempt.journal := by
    have hcounted : ∀ v, CountedIn q duration es v → counted v := fun v hv =>
      hcounted v ((hes ▸ hv.append fs).of_deedsFor (hbegun.deedsFor_eq q inner))
    have hsplit : inner ++ d :: post = es ++ (fs ++ d :: post) := by rw [hes, List.append_assoc]
    obtain ⟨k, hk⟩ := (hbegun.dozes hfresh hw hhas hfirst hsplit hcounted).ends hv
    rw [hk.cursor]
    exact hk.journal
  refine ⟨hdozes (List.append_nil inner).symm hinner, ?_⟩
  obtain ⟨before, inside, rest, s, i, t', c, r', rfl, hbefore, hs, hwalk⟩ :=
    onward_walk_of_step hbegun.le hbegun.course rfl hstep
  obtain ⟨w₂, hw₂, hinside⟩ := hinner.split
  rw [hbegun.deedsFor_eq, deedsFor_append, hbefore, List.nil_append]
  exact walk_minds hs hhas (hdozes rfl hw₂).entry hwalk rfl hinside hstep

/-- **A trial recalls the wake time** that has been in the record at any moment of it. -/
theorem Execution.Undertakes.recalls (h : x.Undertakes pace w anew ds r)
    (hfresh : anew → w.checkpointOf x.runId = none)
    (hw : w.Recollects b (SavesSleep counted q x.plan.steps.length) x.runId)
    (hhas : x.plan.Has q (.sleep stepId duration)) (hcounted : ∀ v, CountedIn q duration ds v → counted v)
    (hds : ds = pre ++ mid ++ d :: post) (hpre : w.Admits pre w₁) (hmid : w₁.Admits mid u)
    (hstep : d.step = some q) (hkept : b.keeps (.real v) = .real v) (hholds : w₁.HoldsSleep q v x.runId) :
    q.SleepsUntil v u.attempt.cursor u.attempt.journal := by
  obtain ⟨first, a, keepJournal, m, t, inner, hsplit, hbegun⟩ := h.begun hw hds hstep
  have hdozes {w₂ : World} (hfirst : w.Admits first w₂) :=
    hbegun.dozes hfresh hw hhas hfirst rfl fun v hv => hcounted v <| by
      rw [hds, hsplit]
      exact (hv.of_deedsFor (hbegun.deedsFor_eq q inner)).append _
  rcases List.append_eq_append_iff.mp hsplit with ⟨as, rfl, rfl⟩ | ⟨bs, rfl, rfl⟩
  · -- the attempt has begun since then
    obtain ⟨w₂, has, hinner⟩ := hmid.split
    obtain ⟨k, hdozes⟩ := (hdozes (hpre.append has)).ends hinner
    rw [hdozes.cursor]
    refine hdozes.known v ?_
    have hquiet : ∀ e ∈ pre, e.step = none ∧ e.call.Quiet := fun e he =>
      hbegun.quiet e (List.mem_append_left _ he)
    obtain ⟨-, hlost | hsame⟩ := (letsSleep_of_quiet hw hquiet).ends hpre
    · exact absurd hholds hlost.not_holdsSleep
    · exact hholds.of_same hsame.symm
  · -- it was under way
    obtain ⟨w₂, hfirst, hbs⟩ := hpre.split
    have halong := (hdozes hfirst).along
    obtain ⟨k, hk⟩ := (hbegun.dozes hfresh hw hhas hfirst (List.append_assoc ..) fun v hv => hcounted v <| by
      rw [hds, List.append_assoc]
      exact (hv.of_deedsFor (hbegun.deedsFor_eq q bs)).append _).ends hbs
    have hheld := hk.link v hkept hholds
    rw [← hk.cursor] at hheld
    exact ((halong.right hbs).weaken fun _ h => h.attempt v).lasts (List.nil_append mid).symm .nil hmid hheld

/-- A continuation that does something for a step has been able to read the record. -/
theorem Execution.Undertakes.holdsSleep (h : x.Undertakes pace w False ds r)
    (hw : w.Recollects b (SavesSleep counted q x.plan.steps.length) x.runId) (hds : ds = pre ++ d :: post)
    (hstep : d.step = some q) (hasleep : w.Asleep q v x.runId) : w.HoldsSleep q v x.runId := by
  refine hasleep.resolve_left ?_
  rintro ⟨f, hf⟩
  obtain ⟨first, a, keepJournal, m, t, inner, -, hbegun⟩ := h.begun hw hds hstep
  have hread {checkpoint : StoredCheckpoint} (h : w.Continues x.runId checkpoint) : False := by
    obtain ⟨record, hrecord, -⟩ := h.found
    exact absurd (hrecord.symm.trans hf) (by simp)
  cases hbegun.begins with
  | afresh hanew => exact hanew.elim id fun ⟨_, hfound, _⟩ => hread hfound
  | again _ hfound => exact hread hfound

end

/-! ## Moments -/

/-- **A deed next at hand**, of the step at a place. -/
def NextFor (q : StepPath) (next : List Deed) (e : Deed) : Prop := next.head? = some e ∧ e.step = some q

/-- **What is asked for to wake at a time**: what is left until then, at the time that the step was told last. -/
def WakesAt (q : StepPath) (t : Float) (done : List Deed) (seconds : Float) : Prop :=
  ∃ now, (readings (deedsFor q done)).getLast? = some now ∧ seconds = sleepLeft t now

/-- **A wake time is kept** at a later moment: every checkpoint that is found in the record has a later cursor, or
    the same one, and then the step has ended or has that wake time; and what is asked for is to wake at it. -/
structure KeepsWakeTime (q : StepPath) (t : Float) (id : String) (k : Nat) (done next : List Deed) (u : World) :
    Prop where
  stored : ∀ data, u.checkpointOf id = some data → ∃ (k' : Nat) (v : Value) (j : Keyed Value),
    data = checkpointData k' v j ∧ (k < k' ∨ k = k' ∧ (Ended (j.get? q.text) ∨ Wakes (j.get? q.text) t))
  asks : ∀ e, NextFor q next e → ∀ seconds, e.call = .hostSleep seconds → WakesAt q t done seconds

/-- **A later moment**, after some deeds of the same trial or of a later one. -/
inductive Trial.Later (a : Trial) (pre : List Deed) (w : World) (later : List Trial) :
    List Deed → List Deed → World → Prop where
  | same {mid next : List Deed} {u : World} (hdeeds : a.deeds = pre ++ mid ++ next) (hmid : w.Admits mid u) :
      Later a pre w later (pre ++ mid) next u
  | next {b : Trial} {done next : List Deed} {u : World} (hb : b ∈ later) (hdeeds : b.deeds = done ++ next)
      (hdone : b.before.Admits done u) : Later a pre w later done next u

/-! ## Chains -/

/-- **A trial of a run with a sleep**, and what it has found in the record. -/
structure Trial.FindsSleep (pace : Clock → Clock → Prop) (plan : Plan) (id : String) (b : Backend)
    (counted : Float → Prop) (q : StepPath) (anew : Prop) (a : Trial) : Prop where
  admits : a.before.Admits a.deeds a.after
  undertakes : (⟨a.engine, plan, id⟩ : Execution).Undertakes pace a.before anew a.deeds a.result
  fresh : anew → a.before.checkpointOf id = none
  record : a.before.Recollects b (SavesSleep counted q plan.steps.length) id

section

variable {pace : Clock → Clock → Prop} {source : PlanSource} {plan : Plan} {id : String} {b : Backend}
  {counted counted' : Float → Prop} {q : StepPath} {anew : Prop} {a : Trial} {done next : List Deed} {u : World}
  {stepId : Option String} {duration : Duration} {t : Float} {k : Nat}

theorem Trial.FindsSleep.mono (h : a.FindsSleep pace plan id b counted q anew)
    (hcounted : ∀ t, counted t → counted' t) : a.FindsSleep pace plan id b counted' q anew :=
  { h with record := h.record.mono fun _ _ _ hs => ⟨hs.1, hs.2.mono hcounted⟩ }

/-- **At any moment of a trial** the record is as it should be, and lets the run sleep. -/
theorem Trial.FindsSleep.at_moment (h : a.FindsSleep pace plan id b counted q anew)
    (hhas : plan.Has q (.sleep stepId duration)) (hdeeds : a.deeds = done ++ next)
    (hcounted : ∀ t, CountedIn q duration done t → counted t) :
    a.before.Through (LetsSleep b q id) done (World.Recollects b (SavesSleep counted q plan.steps.length) id) :=
  (h.undertakes.stop hdeeds).dozes h.fresh h.record hhas hcounted

/-- A sleep that lasts until a time at one moment of a trial lasts until then at a later one. -/
theorem Trial.FindsSleep.asleep (h : a.FindsSleep pace plan id b counted q anew)
    (hhas : plan.Has q (.sleep stepId duration)) {pre mid : List Deed} {w : World}
    (hdeeds : a.deeds = pre ++ mid ++ next) (hpre : a.before.Admits pre w) (hmid : w.Admits mid u)
    (hkept : b.keeps (.real t) = .real t) (hasleep : w.Asleep q t id) : u.Asleep q t id := by
  have hany : a.FindsSleep pace plan id b (fun _ => True) q anew := h.mono fun _ _ => trivial
  have halong := (hany.at_moment hhas hdeeds fun _ _ => trivial).along
  exact (halong.weaken fun _ h => h t hkept).lasts rfl hpre hmid hasleep

/-- **Where a sleep lasts until a time**, the wake time is kept. -/
theorem Trial.FindsSleep.keepsWakeTime (h : a.FindsSleep pace plan id b counted q anew)
    (hhas : plan.Has q (.sleep stepId duration)) (hdeeds : a.deeds = done ++ next) (hdone : a.before.Admits done u)
    (hroot : q.rootIndex? = some (k : Int)) (hasleep : u.Asleep q t id)
    (hrecalls : ∀ e, NextFor q next e → q.SleepsUntil t u.attempt.cursor u.attempt.journal) :
    KeepsWakeTime q t id k done next u where
  stored data hdata := by
    have hany : a.FindsSleep pace plan id b (fun _ => True) q anew := h.mono fun _ _ => trivial
    have hrecord := (hany.at_moment hhas hdeeds fun _ _ => trivial).ends hdone
    obtain ⟨k', c, j, rfl, -, -⟩ := hrecord.stored data hdata
    refine ⟨k', c.toValue, j, rfl, ?_⟩
    rcases hasleep with hlost | ⟨k'', v, j', hdata', i, hi, hsleeps⟩
    · exact absurd (hlost.checkpointOf_eq.symm.trans hdata) (by simp)
    · obtain ⟨rfl, -, rfl⟩ := checkpointData_inj (Option.some.inj (hdata.symm.trans hdata'))
      obtain rfl := Option.some.inj (hroot.symm.trans hi)
      exact hsleeps.imp (fun h => by omega) fun h => ⟨by omega, h.2⟩
  asks e he seconds hcall := by
    obtain ⟨post, rfl⟩ := List.head?_eq_some_iff.mp he.1
    have hany : a.FindsSleep pace plan id b (fun _ => True) q anew := h.mono fun _ _ => trivial
    obtain ⟨hjournal, hminds⟩ :=
      h.undertakes.minds h.fresh hany.record hhas (fun _ _ => trivial) hdeeds hdone he.2
    obtain ⟨hopen, -, t', now, hwakes, hnow, hseconds⟩ := hminds.asks seconds hcall
    -- the wake time that the step has found is the one until which the sleep lasts
    obtain ⟨i, hi, hlt | ⟨-, hended | hwakes'⟩⟩ := hrecalls e he
    · have := Option.some.inj (hi.symm.trans (hjournal.root t' hwakes))
      omega
    · exact absurd hended hopen
    · obtain rfl := hwakes.unique hwakes'
      exact ⟨now, hnow, hseconds⟩

/-- **A wake time that is counted** in one of several trials. -/
def CountedBy (q : StepPath) (d : Duration) (trials : List Trial) (t : Float) : Prop :=
  ∃ a ∈ trials, CountedIn q d a.deeds t

variable {runs : RunStore} {trials earlier later : List Trial} {w : World}

/-- **What a trial leaves** to the next one. -/
theorem Trial.FindsSleep.leaves (h : a.FindsSleep pace plan id b (CountedBy q duration earlier) q anew)
    (hhas : plan.Has q (.sleep stepId duration)) :
    a.after.Recollects b (SavesSleep (CountedBy q duration (earlier ++ [a])) q plan.steps.length) id := by
  have hmore : a.FindsSleep pace plan id b (CountedBy q duration (earlier ++ [a])) q anew :=
    h.mono fun t ⟨c, hc, ht⟩ => ⟨c, List.mem_append_left _ hc, ht⟩
  exact (hmore.at_moment hhas (List.append_nil _).symm fun t ht => ⟨a, by simp, ht⟩).ends h.admits

/-- **Every continuation finds the sleep** as the trials before it have left it. -/
theorem Resumes.findsSleep (h : Resumes pace source id runs trials) (haccept : source.accept = .ok plan)
    (hid : id ≠ "") (hhas : plan.Has q (.sleep stepId duration)) :
    ∀ {before : List Trial} {w : World}, w.stores.runs = runs →
      w.Recollects b (SavesSleep (CountedBy q duration before) q plan.steps.length) id →
      ∀ {earlier : List Trial}, trials = earlier ++ a :: later →
        a.FindsSleep pace plan id b (CountedBy q duration (before ++ earlier)) q False
          ∧ (∀ t, b.keeps (.real t) = .real t → w.Asleep q t id → a.before.Asleep q t id)
          ∧ Resumes pace source id a.after.stores.runs later := by
  induction h with
  | nil => intro before w _ _ earlier htrials; simp at htrials
  | @cons runs c rest hbefore hruns hrest ih =>
    intro before w hsame hrecord earlier htrials
    have hstart : c.before.stores.runs = w.stores.runs := hbefore.trans hsame.symm
    have hfinds : c.FindsSleep pace plan id b (CountedBy q duration before) q False :=
      ⟨hruns.admits, resume_undertakes haccept hid hruns.admits hruns.course, False.elim, hrecord.of_runs hstart⟩
    cases earlier with
    | nil =>
      obtain ⟨rfl, rfl⟩ := List.cons.inj htrials
      rw [List.append_nil]
      exact ⟨hfinds, fun t _ ht => ht.of_runs hstart, hrest⟩
    | cons c' earlier =>
      obtain ⟨rfl, hlater⟩ := List.cons.inj htrials
      obtain ⟨hnext, hsleeps, hlast⟩ := ih rfl (hfinds.leaves hhas) hlater
      rw [List.append_assoc] at hnext
      refine ⟨hnext, fun t hkept ht => hsleeps t hkept ?_, hlast⟩
      have hdeeds : c.deeds = [] ++ c.deeds ++ [] := by simp
      exact hfinds.asleep hhas hdeeds .nil hruns.admits hkept (ht.of_runs hstart)

/-- **Once it is stored, the wake time is kept** from any moment of a trial on. -/
theorem Trial.FindsSleep.keeps (h : a.FindsSleep pace plan id b (CountedBy q duration earlier) q anew)
    (haccept : source.accept = .ok plan) (hid : id ≠ "") (hhas : plan.Has q (.sleep stepId duration))
    (hlater : Resumes pace source id a.after.stores.runs later) {pre post : List Deed}
    (hdeeds : a.deeds = pre ++ post) (hpre : a.before.Admits pre w) (hpost : w.Admits post a.after)
    {v : Value} {j : Keyed Value} (hdata : w.checkpointOf id = some (checkpointData k v j))
    (hwakes : Wakes (j.get? q.text) t) (hmoment : a.Later pre w later done next u) :
    KeepsWakeTime q t id k done next u := by
  have hany : a.FindsSleep pace plan id b (fun _ => True) q anew := h.mono fun _ _ => trivial
  obtain ⟨hsleeps, -, hkept⟩ := ((hany.at_moment hhas hdeeds fun _ _ => trivial).ends hpre).keeps_real hdata
  have hkept := hkept t hwakes
  have hholds : w.HoldsSleep q t id := ⟨k, v, j, hdata, hsleeps.sleepsUntil hwakes⟩
  have hroot := hsleeps.root t hwakes
  cases hmoment with
  | same hsplit hmid =>
    have hasleep := h.asleep hhas hsplit hpre hmid hkept (.inr hholds)
    refine h.keepsWakeTime hhas hsplit (hpre.append hmid) hroot hasleep fun e he => ?_
    obtain ⟨others, rfl⟩ := List.head?_eq_some_iff.mp he.1
    exact h.undertakes.recalls h.fresh hany.record hhas (fun _ _ => trivial) hsplit hpre hmid he.2 hkept hholds
  | @next c done next u hc hsplit hdone =>
    obtain ⟨between, after, rfl⟩ := List.append_of_mem hc
    obtain ⟨hfinds, hsleeps, -⟩ := hlater.findsSleep haccept hid hhas rfl (h.leaves hhas) rfl
    have hend : a.deeds = pre ++ post ++ [] := hdeeds.trans (List.append_nil _).symm
    have hstart := hsleeps t hkept (h.asleep hhas hend hpre hpost hkept (.inr hholds))
    have hsplit' : c.deeds = [] ++ done ++ next := hsplit
    have hasleep := hfinds.asleep hhas hsplit' .nil hdone hkept hstart
    refine hfinds.keepsWakeTime hhas hsplit hdone hroot hasleep fun e he => ?_
    obtain ⟨others, rfl⟩ := List.head?_eq_some_iff.mp he.1
    have hany : c.FindsSleep pace plan id b (fun _ => True) q False := hfinds.mono fun _ _ => trivial
    exact hfinds.undertakes.recalls hfinds.fresh hany.record hhas (fun _ _ => trivial) hsplit' .nil hdone he.2 hkept
      (hfinds.undertakes.holdsSleep hfinds.record hsplit he.2 hstart)

end

/-! ### An instance -/

end Runbook
