import Runbook.Proofs.ExactOutputs
import Runbook.Proofs.Invocations
import Runbook.Proofs.RootFlow
import Runbook.Proofs.SingleStart

/-!
# `Proofs.DefaultInputs` — a step without an input is given the latest output

A capability step that has no input is invoked with the last output of the steps that feed it, and with the run
input if they have given none. In a run that has taken several attempts, steps before the position at which an
attempt begins were carried out by earlier ones: how they have ended is what the record of the run brings back of
it, as the backend keeps it. That is all of it in memory; a backend that writes JSON has no form for numbers that
are not finite, and keeps null in their place.

## Contents
- **Ends.** `Ends.continued` and `Ends.kept`, how steps have ended over several attempts.
- **Positions.** `BeginsAt`, and `Recalled`, with what an attempt may begin; `Current`, what such a context has.
- **Trials.** `Prelude`, deeds before the root list is begun; `onward_recollects`; `FlowsFrom`, and
  `Execution.Undertakes.flows`.
- **Chains.** `Trial.GivesLatest`; `Attempted.flows`, by induction on the trials; `default_inputs_follow`.
-/

namespace Runbook

/-! ## Ends -/

/-- How steps have ended by now: those below a position of the root list as they had before, and the others in
    certain deeds. -/
def Ends.continued (ends : Ends) (m : Nat) (ds : List Deed) : Ends :=
  fun q => if q.rootIndex?.any (· < (m : Int)) then ends q else endOf q ds

/-- How steps have ended, as far as a backend keeps their outputs. -/
def Ends.kept (ends : Ends) (b : Backend) : Ends := fun q => (ends q).map (Except.map b.keeps)

section

variable {p : Plan} {ends : Ends} {m n : Nat} {ds : List Deed} {q : StepPath} {s : Step}

theorem Ends.continued_below (h : p.Between n m q s) : ends.continued m ds q = ends q := by
  obtain ⟨-, i, -, him, hq⟩ := h
  unfold continued
  rw [if_pos]
  simp [hq, him]

theorem Ends.continued_above (h : p.Between m n q s) : ends.continued m ds q = endOf q ds := by
  obtain ⟨-, i, hmi, -, hq⟩ := h
  unfold continued
  rw [if_neg]
  simp [hq, hmi]

/-- What is kept once is kept for good. -/
theorem Ends.kept_continued_kept (b : Backend) :
    ((ends.kept b).continued m ds).kept b = (ends.continued m ds).kept b := by
  funext q
  unfold kept continued
  split
  · show ((ends q).map (Except.map b.keeps)).map (Except.map b.keeps) = (ends q).map (Except.map b.keeps)
    rcases ends q with _ | _ | _ <;> simp [Except.map]
  · rfl

end

/-! ## Positions -/

/-- **Deeds begin the root list at a position** with a context, if they begin it at all. -/
def BeginsAt (ds : List Deed) (m : Nat) (c : Context) : Prop :=
  ∀ k c', Enters ds k c' → (m : Int) ≤ k ∧ (k = m → c' = c)

/-- **With what an attempt may begin**, after some trials: at the first position with a new context, before any step
    has ended; or at a position that one of the trials has begun, with the context that it had there, as the
    backend keeps it. Then the steps below have ended as they did in that trial, or, if it began above them, as they
    had ended when it began. -/
inductive Recalled (p : Plan) (b : Backend) (id : String) : List Trial → Nat → Ends → Context → Prop where
  | fresh {trials : List Trial} : Recalled p b id trials 0 (fun _ => none) (Engine.startContext p id)
  | saved {earlier later : List Trial} {a : Trial} {m k : Nat} {ends : Ends} {c c' : Context}
      (h : Recalled p b id earlier m ends c) (hbegins : BeginsAt a.deeds m c) (henters : Enters a.deeds k c') :
      Recalled p b id (earlier ++ a :: later) k (ends.continued m a.deeds) (b.keepsContext c')

/-- **A context that is current** at a position: it can be recalled there, has the run input, and for its latest
    output what the backend keeps of the last one of the open steps below. -/
def Current (p : Plan) (b : Backend) (id : String) (trials : List Trial) (ends : Ends) (m : Nat) (c : Context) :
    Prop :=
  Recalled p b id trials m ends c ∧ (c.input = p.input ∨ c.input = b.keeps p.input)
    ∧ LastOutput (ends.kept b) (p.OpenBetween 0 m) .null c.previous

section

variable {p : Plan} {b : Backend} {id : String} {trials earlier : List Trial} {a : Trial} {m k : Nat} {ends : Ends}
  {c c' : Context}

theorem Recalled.append (h : Recalled p b id trials m ends c) (more : List Trial) :
    Recalled p b id (trials ++ more) m ends c := by
  cases h with
  | fresh => exact .fresh
  | saved h hbegins henters =>
    rw [List.append_assoc, List.cons_append]
    exact .saved h hbegins henters

theorem Current.append (h : Current p b id trials ends m c) (more : List Trial) :
    Current p b id (trials ++ more) ends m c := ⟨h.1.append more, h.2⟩

theorem Current.fresh : Current p b id trials (fun _ => none) 0 (Engine.startContext p id) :=
  ⟨.fresh, .inl rfl, .none fun _ _ ⟨_, _, _, h⟩ => absurd h (by simp [Ends.kept])⟩

/-- The last output from the first position on, where an attempt has begun at one in between. -/
theorem LastOutput.continued {v₀ v₁ v : Value} {ds : List Deed} {T : Sites}
    (h₁ : LastOutput ends (p.OpenBetween 0 m) v₀ v₁)
    (h₂ : LastOutput (endOf · ds) T v₁ v) {U : Sites} (hU : ∀ q s, U q s ↔ p.OpenBetween 0 m q s ∨ T q s)
    (hT : ∀ q s, T q s → p.Between m p.steps.length q s) :
    LastOutput (ends.continued m ds) U v₀ v := by
  have hbelow : LastOutput (ends.continued m ds) (p.OpenBetween 0 m) v₀ v₁ :=
    h₁.congr_sites (fun _ _ => .rfl) fun q s hs => Ends.continued_below hs.1
  have habove : LastOutput (ends.continued m ds) T v₁ v :=
    h₂.congr_sites (fun _ _ => .rfl) fun q s hs => Ends.continued_above (hT q s hs)
  exact hbelow.append habove hU fun q s q' s' hs hs' => hs.1.before (hT q' s' hs')

/-- **The step lemma.** The context of an attempt at a position that it begins is current, as the backend keeps it. -/
theorem Current.kept (h : Current p b id earlier ends m c) (hbegins : BeginsAt a.deeds m c)
    (henters : Enters a.deeds k c') (harrives : ArrivesAt p a.deeds m c k c') :
    Current p b id (earlier ++ [a]) (ends.continued m a.deeds) k (b.keepsContext c') := by
  obtain ⟨hrecalled, hinput, hlast⟩ := h
  refine ⟨.saved hrecalled hbegins henters, .inr ?_, ?_⟩
  · have hkept : (b.keepsContext c').input = b.keeps c.input := congrArg b.keeps harrives.input
    rw [hkept]
    rcases hinput with hinput | hinput <;> rw [hinput]
    exact b.keeps_keeps _
  · have hall : LastOutput ((ends.kept b).continued m a.deeds) (p.OpenBetween 0 k) .null c'.previous :=
      hlast.continued harrives.last (fun q s => Plan.openBetween_split (Nat.zero_le m) harrives.le) fun q s hs => by
        obtain ⟨hhas, i, hmi, hik, hq⟩ := hs.1
        exact ⟨hhas, i, hmi, Nat.lt_of_lt_of_le hik harrives.bound, hq⟩
    rw [← Ends.kept_continued_kept, ← Backend.keeps_null b]
    exact hall.map b.keeps

end

/-! ## Trials -/

/-- **Deeds before the root list is begun**: they are done for no step, save nothing, and begin no position. -/
structure Prelude (ds : List Deed) : Prop where
  unplaced : ∀ d ∈ ds, d.step = none
  quiet : ∀ d ∈ ds, d.call.Quiet
  begins : ∀ k c, ¬ Enters ds k c

theorem Prelude.append {ds es : List Deed} (hds : Prelude ds) (hes : Prelude es) :
    Prelude (ds ++ es) where
  unplaced := List.forall_mem_append.mpr ⟨hds.unplaced, hes.unplaced⟩
  quiet := List.forall_mem_append.mpr ⟨hds.quiet, hes.quiet⟩
  begins k c h := (enters_append.mp h).elim (hds.begins k c) (hes.begins k c)

theorem Preparing.isPrelude {runId : String} {ds : List Deed} (h : Preparing runId ds) : Prelude ds where
  unplaced d hd := (h d hd).1
  quiet d hd := (h d hd).2.quiet
  begins := h.quiet.2

theorem isPrelude_beginAttempt {a : Attempt} {ds : List Deed}
    (h : ∀ d ∈ ds, d.step = none ∧ d.call = .beginAttempt a) : Prelude ds where
  unplaced d hd := (h d hd).1
  quiet d hd := by
    rw [(h d hd).2]
    exact Call.quiet_beginAttempt a
  begins k c := not_enters fun d hd => by rw [(h d hd).2]; simp

section

variable {pace : Clock → Clock → Prop} {x : Execution} {w w' : World} {anew : Prop} {ds es : List Deed}
  {r : Option (Outcome × Clock)} {b : Backend} {saved saved' : Nat → Context → Prop} {t : Clock} {m k : Nat}
  {c c' : Context} {keepJournal : Bool} {id : String}

/-- **The run lemma** for what is left of the root list: the contexts with which positions are begun are the only
    ones that are saved. -/
theorem onward_recollects (hm : m ≤ x.plan.steps.length) (h : Fiber.Course pace t (x.onward m keepJournal c) ds r)
    (hw : w.Recollects b (fun k c _ => saved k c) x.runId)
    (hsaved : ∀ (k : Nat) c', Enters ds k c' → saved k (b.keepsContext c')) (hadmits : w.Admits ds w') :
    w'.Recollects b (fun k c _ => saved k c) x.runId := by
  have hcalls := onward_ofAttempt hm h
  have harrives := onward_arrivesAt hm h
  rcases onward_begins hm h with rfl | ⟨d, rest, keep, rfl, hcall⟩
  · rw [hadmits.eq_of_nil]
    exact hw
  · obtain ⟨w₁, hd, hrest⟩ := hadmits.of_cons
    have hw₁ : w₁.Recollects b (fun k c _ => saved k c) x.runId :=
      hw.answers hd (hcall ▸ .other rfl) fun other hother => absurd (hcall.symm.trans hother) (by simp)
    have hplace : w₁.attempt.StandsAt fun k c' => Enters (d :: rest) k c' := by
      rw [hd.attempt_eq, hcall]
      exact ⟨m, rfl, d, List.mem_cons_self, keep, hcall⟩
    -- from here on the attempt stands at a position that was begun
    refine (hrest.keeps (I := fun u => u.Recollects b (fun k c _ => saved k c) x.runId
      ∧ u.attempt.StandsAt fun k c' => Enters (d :: rest) k c') (fun e he u u' hu hu' => ?_) ⟨hw₁, hplace⟩).1
    have hcall : (∃ q : StepPath, x.TreeCall q e.call) ∨ x.Between e.call :=
      (hcalls e (.tail _ he)).imp (fun ⟨q, _, h⟩ => ⟨q, h⟩) fun h => h.2
    have horderly : e.call.Orderly := hcall.elim (fun ⟨_, h⟩ => h.orderly) fun h => h.orderly
    refine ⟨hu.1.answers hu' horderly fun other hother => ⟨?_, ?_⟩, ?_⟩
    · rcases hcall with ⟨q, hcall⟩ | hcall
      · exact Call.saveCheckpoint.inj (hother.symm.trans (hcall.save_own hother))
      · rw [hother] at hcall
        cases hcall
        rfl
    · obtain ⟨k, hcursor, henters⟩ := hu.2
      exact ⟨k, hcursor, hsaved k _ henters⟩
    · rw [hu'.attempt_eq]
      refine hu.2.after hcall fun k c₀ keepJournal hk => ?_
      have henters : Enters (d :: rest) k c₀ := ⟨e, .tail _ he, keepJournal, hk⟩
      obtain ⟨i, rfl, -⟩ := harrives k c₀ henters
      exact ⟨i, rfl, henters⟩

/-- Deeds that save nothing. -/
theorem World.Recollects.of_quiet {saved : Nat → Context → Keyed Value → Prop} (hw : w.Recollects b saved id)
    (hds : ∀ d ∈ ds, d.call.Quiet) (hadmits : w.Admits ds w') : w'.Recollects b saved id :=
  hadmits.keeps (fun d hd _ _ hu hu' => hu.answers hu' (hds d hd).1 fun other hother =>
    absurd hother ((hds d hd).2 other)) hw

/-- What is done for no step does not matter to the latest output. -/
theorem ArrivesAt.after_none {p : Plan} (h : ArrivesAt p es m c k c') (hds : ∀ d ∈ ds, d.step = none) :
    ArrivesAt p (ds ++ es) m c k c' :=
  { h with last := h.last.congr_sites (fun _ _ => .rfl) fun q _ _ => endOf_congr (deedsFor_after_none hds es q) }

/-- **A trial flows** from a position on, where it begins with a context that was saved for it: every step finds the
    last output of those that feed it. -/
def FlowsFrom (pace : Clock → Clock → Prop) (x : Execution) (saved : Nat → Context → Prop) (ds : List Deed) : Prop :=
  ∃ m c, m ≤ x.plan.steps.length ∧ saved m c ∧ BeginsAt ds m c
    ∧ Execution.FindsLast pace x (x.plan.Between m x.plan.steps.length) c ds

/-- What is left of the root list, after deeds that begin nothing. -/
theorem onward_flows (hm : m ≤ x.plan.steps.length) (h : Fiber.Course pace t (x.onward m keepJournal c) es r)
    (hds : Prelude ds) (hplace : saved m c)
    (hw : w.Recollects b (fun k c _ => saved' k c) x.runId)
    (hsaved : ∀ m c (k : Nat) c', saved m c → BeginsAt (ds ++ es) m c → Enters (ds ++ es) k c' →
      ArrivesAt x.plan (ds ++ es) m c k c' → saved' k (b.keepsContext c'))
    (hadmits : w.Admits (ds ++ es) w') :
    w'.Recollects b (fun k c _ => saved' k c) x.runId ∧ FlowsFrom pace x saved (ds ++ es) := by
  have harrives (k : Int) (c' : Context) (hk : Enters (ds ++ es) k c') :
      ∃ i : Nat, k = i ∧ ArrivesAt x.plan (ds ++ es) m c i c' := by
    have hk : Enters es k c' := (enters_append.mp hk).resolve_left (hds.begins k c')
    obtain ⟨i, rfl, harrives⟩ := onward_arrivesAt hm h k c' hk
    exact ⟨i, rfl, harrives.after_none hds.unplaced⟩
  have hbegins : BeginsAt (ds ++ es) m c := by
    intro k c' hk
    obtain ⟨i, rfl, harrives⟩ := harrives k c' hk
    exact ⟨Int.ofNat_le.mpr harrives.le, fun hi => harrives.here (Int.natCast_inj.mp hi)⟩
  refine ⟨?_, m, c, hm, hplace, hbegins, (onward_findsLast hm h).after_none hds.unplaced⟩
  obtain ⟨w₁, hfirst, hrest⟩ := hadmits.split
  refine onward_recollects hm h (hw.of_quiet hds.quiet hfirst) (fun k c' hk => ?_) hrest
  have hk : Enters (ds ++ es) k c' := enters_append.mpr (.inr hk)
  obtain ⟨i, hi, harrives⟩ := harrives k c' hk
  obtain rfl := Int.natCast_inj.mp hi
  exact hsaved m c k c' hplace hbegins hk harrives

/-- **What a trial does with what it finds in the record.** It flows from a position and a context that were saved,
    and what it saves in turn are the contexts of the positions that it begins. -/
theorem Execution.Undertakes.flows (h : x.Undertakes pace w anew ds r)
    (hwell : w.WellStored x.plan.steps.length x.runId) (hw : w.Recollects b (fun k c _ => saved k c) x.runId)
    (hfresh : saved 0 (Engine.startContext x.plan x.runId)) (hmono : ∀ k c, saved k c → saved' k c)
    (hsaved : ∀ m c (k : Nat) c', saved m c → BeginsAt ds m c → Enters ds k c' → ArrivesAt x.plan ds m c k c' →
      saved' k (b.keepsContext c'))
    (hadmits : w.Admits ds w') :
    w'.Recollects b (fun k c _ => saved' k c) x.runId ∧ FlowsFrom pace x saved ds := by
  have hw' : w.Recollects b (fun k c _ => saved' k c) x.runId := hw.mono fun k c _ => hmono k c
  have hnothing (hds : Prelude ds) :
      w'.Recollects b (fun k c _ => saved' k c) x.runId ∧ FlowsFrom pace x saved ds :=
    ⟨hw'.of_quiet hds.quiet hadmits, 0, _, Nat.zero_le _, hfresh, fun k c hk => absurd hk (hds.begins k c),
      .of_none hds.unplaced⟩
  cases h with
  | prepared hds => exact hnothing hds.isPrelude
  | restored _ _ _ _ _ hds hes => exact hnothing (hds.isPrelude.append (isPrelude_beginAttempt hes))
  | @attempted a _ pre es _ _ hds hbegins hcourse =>
    obtain ⟨m, hm, hle⟩ := hbegins.cursor hwell
    have hplace : saved m a.base := by
      rcases hbegins.recollects hw with rfl | ⟨k, c, j, rfl, hsave⟩
      · obtain rfl : m = 0 := (Int.natCast_inj.mp hm).symm
        exact hfresh
      · obtain rfl : k = m := Int.natCast_inj.mp hm
        exact hsave
    rw [carryOutFrom_onward hm] at hcourse
    cases hcourse with
    | stopped =>
      rw [List.append_nil] at hnothing ⊢
      exact hnothing hds.isPrelude
    | @ask _ start stop _ _ _ answer fs _ _ _ rest =>
      rw [List.append_cons] at hsaved hadmits ⊢
      have hbegin : Prelude [(⟨none, .beginAttempt a, answer, start, stop⟩ : Deed)] :=
        isPrelude_beginAttempt (List.forall_mem_singleton.mpr ⟨rfl, rfl⟩)
      exact onward_flows hle rest (hds.isPrelude.append hbegin) hplace hw' hsaved hadmits

end

/-! ## Chains -/

/-- **A trial that gives its steps the latest outputs**, after earlier ones. It begins the root list, if at all, at a
    position and with a context that it could recall, and that has the run input. Every capability step without an
    input for which anything is done is invoked with the last output that the steps that feed it have given, or
    with the run input if they have given none or null. What earlier trials have brought, outputs and run input, is
    there as the backend keeps it. -/
def Trial.GivesLatest (plan : Plan) (id : String) (earlier : List Trial) (a : Trial) : Prop :=
  ∃ m ends c, Recalled plan a.before.backend id earlier m ends c ∧ BeginsAt a.deeds m c
    ∧ (c.input = plan.input ∨ c.input = a.before.backend.keeps plan.input)
    ∧ ∀ q s call, plan.Has q s → s.call? = some call → call.hasInput = false → deedsFor q a.deeds ≠ [] →
      ∃ v, LastOutput ((ends.kept a.before.backend).continued m a.deeds) (Execution.Feeders plan.Has q) .null v
        ∧ Execution.InvokedWith ⟨a.engine, plan, id⟩ q.text (if v.isNull then c.input else v) s (deedsFor q a.deeds)

section

variable {pace : Clock → Clock → Prop} {source : PlanSource} {plan : Plan} {id : String} {b : Backend}
  {a : Trial} {earlier later trials : List Trial} {runs : RunStore} {w : World} {ds : List Deed} {x : Execution}

/-- A step without an input, where every step finds the last output of those that feed it. -/
theorem Execution.FindsLast.invokedWith {q : StepPath} {s : Step} {call : Capability} {m : Nat} {c : Context}
    {ends : Ends} (h : Execution.FindsLast pace x (x.plan.Between m x.plan.steps.length) c ds)
    (hm : m ≤ x.plan.steps.length) (hlast : LastOutput ends (x.plan.OpenBetween 0 m) .null c.previous)
    (hhas : x.plan.Has q s) (hcall : s.call? = some call) (hinput : call.hasInput = false)
    (hdeeds : deedsFor q ds ≠ []) :
    ∃ v, LastOutput (ends.continued m ds) (Execution.Feeders x.plan.Has q) .null v
      ∧ x.InvokedWith q.text (if v.isNull then c.input else v) s (deedsFor q ds) := by
  obtain ⟨s', c', t, es, r, hs', hcourse, hown, hsame, hfound⟩ := h q hdeeds
  obtain rfl := hs'.1.unique hhas
  refine ⟨c'.previous, hlast.continued hfound (fun q' s₁ => ?_) fun _ _ hs => hs.1, ?_⟩
  · -- what feeds the step stands below the position and is open, or stands above it
    have hall : x.plan.Has q' s₁ ↔ x.plan.Between 0 m q' s₁ ∨ x.plan.Between m x.plan.steps.length q' s₁ := by
      rw [← Plan.between_split (Nat.zero_le m) hm]
      refine ⟨fun hhas => ?_, fun h => h.1⟩
      obtain ⟨i, hi, hlt⟩ := hhas.rootIndex
      exact ⟨hhas, i, Nat.zero_le i, hlt, hi⟩
    unfold Execution.Feeders Plan.OpenBetween
    rw [hall, or_and_right]
    exact or_congr_left (and_congr_right fun hs₁ => hs₁.feeds_iff hs')
  · have hinvoked := Execution.walk_invokedWith hcourse hcall hinput
    have hleaf : s'.isLeaf = true := by cases s' <;> first | rfl | simp [Step.call?] at hcall
    obtain ⟨body, hbody, hcourse⟩ := Execution.walk_leaf_course hleaf hcourse
    have hself : deedsFor q es = es := deedsFor_eq_self fun d hd => (hcourse.treeCall hbody d hd).1
    rw [hown, hself, ← hsame]
    exact hinvoked

/-- An attempt at a run whose record recollects what earlier ones have saved. -/
theorem Trial.Attempts.flows (h : a.Attempts pace source id) (haccept : source.accept = .ok plan) (hid : id ≠ "")
    (hwell : a.before.WellStored plan.steps.length id)
    (hw : a.before.Recollects b (fun k c _ => ∃ ends, Current plan b id earlier ends k c) id) :
    FlowsFrom pace ⟨a.engine, plan, id⟩ (fun k c => ∃ ends, Current plan b id earlier ends k c) a.deeds
      ∧ a.after.Recollects b (fun k c _ => ∃ ends, Current plan b id (earlier ++ [a]) ends k c) id
      ∧ a.after.WellStored plan.steps.length id := by
  obtain ⟨hadmits, hwell', anew, hundertakes⟩ := h.undertakes haccept hid hwell
  have hmono : ∀ k c, (∃ ends, Current plan b id earlier ends k c) →
      ∃ ends, Current plan b id (earlier ++ [a]) ends k c := fun k c ⟨ends, h⟩ => ⟨ends, h.append [a]⟩
  have hsaved : ∀ m c (k : Nat) c', (∃ ends, Current plan b id earlier ends m c) → BeginsAt a.deeds m c →
      Enters a.deeds k c' → ArrivesAt plan a.deeds m c k c' →
      ∃ ends, Current plan b id (earlier ++ [a]) ends k (b.keepsContext c') :=
    fun m c k c' ⟨ends, h⟩ hbegins henters harrives => ⟨_, h.kept hbegins henters harrives⟩
  obtain ⟨hafter, hflows⟩ := hundertakes.flows hwell hw ⟨_, .fresh⟩ hmono hsaved hadmits
  exact ⟨hflows, hafter, hwell'⟩

/-- **Every attempt flows** from what earlier ones have saved. -/
theorem Attempted.flows (h : Attempted pace source id runs trials) (haccept : source.accept = .ok plan)
    (hid : id ≠ "") : ∀ {before : List Trial} {w : World}, w.stores.runs = runs →
      w.WellStored plan.steps.length id →
      w.Recollects b (fun k c _ => ∃ ends, Current plan b id before ends k c) id →
      ∀ {earlier : List Trial}, trials = earlier ++ a :: later →
        a.before.backend = b ∧ FlowsFrom pace ⟨a.engine, plan, id⟩
          (fun k c => ∃ ends, Current plan b id (before ++ earlier) ends k c) a.deeds := by
  induction h with
  | nil => intro before w _ _ _ earlier htrials; simp at htrials
  | @cons runs d rest hbefore hattempts hrest ih =>
    intro before w hruns hwell hw earlier htrials
    have hsame : d.before.stores.runs = w.stores.runs := hbefore.trans hruns.symm
    have hw := hw.of_runs hsame
    obtain ⟨hflows, hafter, hwell'⟩ := hattempts.flows haccept hid (hwell.of_runs hsame) hw
    cases earlier with
    | nil =>
      obtain ⟨rfl, -⟩ := List.cons.inj htrials
      rw [List.append_nil]
      exact ⟨hw.backend, hflows⟩
    | cons c' earlier =>
      obtain ⟨rfl, hlater⟩ := List.cons.inj htrials
      have hnext := ih rfl hwell' hafter hlater
      rwa [List.append_assoc] at hnext

/-- **Default inputs follow the data flow.** Take any plan that is accepted, and a run of it that is attempted again
    and again over one store of run records, by `run` or by `resume`. The remote sides answer as they like, the
    store may take any writes or none, and every attempt ends, or is stopped at any moment. Then each attempt gives
    its steps the latest outputs. -/
theorem default_inputs_follow (h : Attempted pace source id w.stores.runs trials)
    (hfresh : w.checkpointOf id = none) (hid : id ≠ "") (haccept : source.accept = .ok plan)
    (htrials : trials = earlier ++ a :: later) : a.GivesLatest plan id earlier := by
  have hwell : w.WellStored plan.steps.length id := fun data hdata =>
    absurd (hfresh.symm.trans hdata) (by simp)
  obtain ⟨hb, m, c, hm, ⟨ends, hrecalled, hinput, hlast⟩, hbegins, hfinds⟩ :=
    h.flows haccept hid rfl hwell (.of_fresh hfresh) htrials
  rw [List.nil_append, ← hb] at hrecalled
  rw [← hb] at hinput
  rw [← hb] at hlast
  exact ⟨m, ends, c, hrecalled, hbegins, hinput, fun q s call hhas hcall hnone hdeeds =>
    hfinds.invokedWith hm hlast hhas hcall hnone hdeeds⟩

end

/-! ### An instance -/

/-- The input in the body of a request. -/
def Call.givenInput? : Call → Option Value
  | .request r => r.body.bind (·.get? "input")
  | _ => none

/-- The agent fails, and the run is continued. Then the agent is called with the output of the workflow before it,
    which the first attempt has started. -/
theorem report_gets_import : ∃ plan, importThenReport.accept = .ok plan
    ∧ (importResumed plainEngine {}).GivesLatest plan "run" [importRun plainEngine {}]
    ∧ (importResumed plainEngine {}).deeds.filterMap
        (fun d => d.call.givenInput?.bind fun v => (v.get? "runId").bind Value.text?) = ["import-1"] := by
  obtain ⟨plan, haccept⟩ : ∃ plan, importThenReport.accept = .ok plan := ⟨_, rfl⟩
  have hattempted : Attempted (· ≤ ·) importThenReport "run" ({} : World).stores.runs
      [importRun plainEngine {}, importResumed plainEngine {}] :=
    .cons rfl (.anew (.given rfl) (Trial.prompt_runs ..)) (.cons rfl (.again (Trial.prompt_runs ..)) .nil)
  refine ⟨plan, haccept, ?_, by decide +kernel⟩
  exact default_inputs_follow (w := {}) hattempted rfl (by decide) haccept
    (show _ = [importRun plainEngine {}] ++ importResumed plainEngine {} :: [] from rfl)

end Runbook
