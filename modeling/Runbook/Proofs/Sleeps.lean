import Runbook.Proofs.Saves

/-!
# `Proofs.Sleeps` — a sleep step while it is carried out

A sleep is counted once. When the step is carried out for the first time it reads the clock, adds its duration
and notes when it will wake; from then on the note stays in the entry of the step until the step has ended.
Whoever carries the step out finds the note, reads the clock, and asks the host for what is left.

## Contents
- **Entries.** `JournalEntry.Wakes`, the wake time in an entry, and `JournalEntry.OfSleep`, an entry of a sleep;
  what a backend keeps of them.
- **The view.** `Nap`, a sleep on its way, with `readings` and `sleeps`; `NapStep` and `Follows.nap`.
- **Calls.** `sleepLeft`, and `Nap.Minds`, what a sleep makes sure of at each of its calls; `clock_minds`,
  `hostSleep_minds` and `noted_minds`.
- **The step.** `wakeTime_minds` and `runSleep_minds`; `carryOut_minds`, and `Layout.minds` among other steps.
-/

namespace Runbook

namespace JournalEntry

/-! ## Entries -/

/-- **An entry that says when its step wakes.** -/
def Wakes (entry : Option Value) (t : Float) : Prop := noted entry "wakeAt" = .ok (.real t)

/-- **An entry of a sleep**: a mapping, in which no wake time is noted, or one that is as it should be. -/
structure OfSleep (timed : Float → Prop) (entry : Option Value) : Prop where
  mapping : Mapping entry
  wake : ∀ v, noted entry "wakeAt" = .ok v → v = .null ∨ ∃ t, v = .real t ∧ timed t

section

variable {timed timed' : Float → Prop} {entry : Option Value} {t t' : Float} {b : Backend}

theorem Wakes.unique (h : Wakes entry t) (h' : Wakes entry t') : t = t' :=
  Value.real.inj (Except.ok.inj (h.symm.trans h'))

theorem not_wakes_none : ¬ Wakes none t := by simp [Wakes, noted_none]

theorem ofSleep_none : OfSleep timed none :=
  ⟨mapping_none, fun _ h => .inl (Except.ok.inj (h.symm.trans (noted_none "wakeAt")))⟩

theorem OfSleep.mono (h : OfSleep timed entry) (htimed : ∀ t, timed t → timed' t) : OfSleep timed' entry :=
  ⟨h.mapping, fun v hv => (h.wake v hv).imp_right fun ⟨t, ht, hat⟩ => ⟨t, ht, htimed t hat⟩⟩

theorem Mapping.keeps (h : Mapping entry) (b : Backend) : Mapping (entry.map b.keeps) := by
  intro v hv
  obtain ⟨v₀, hv₀, rfl⟩ := Option.map_eq_some_iff.mp hv
  obtain ⟨fields, rfl⟩ := h v₀ hv₀
  exact ⟨_, b.keeps_object fields⟩

/-- A note is kept as any value is. -/
theorem noted_keeps (h : Mapping entry) (b : Backend) (key : String) :
    noted (entry.map b.keeps) key = (noted entry key).map b.keeps := by
  cases entry with
  | none => rw [Option.map_none, noted_none, Except.map, b.keeps_null]
  | some v =>
    obtain ⟨fields, rfl⟩ := h v rfl
    rw [Option.map_some, b.keeps_object, noted_object, noted_object, Backend.get?_keepsFields, Except.map]
    cases Keyed.get? fields key with
    | none => rw [Option.map_none, Option.getD_none, b.keeps_null]
    | some v => rfl

/-- A number is kept, unless it is not finite. -/
theorem keeps_real (b : Backend) (t : Float) : b.keeps (.real t) = .real t ∨ b.keeps (.real t) = .null := by
  unfold Backend.keeps
  split
  · exact .inl rfl
  · rw [Value.storable]
    split
    · exact .inl rfl
    · exact .inr rfl

/-- What a backend keeps of an entry of a sleep is one. -/
theorem OfSleep.keeps (h : OfSleep timed entry) (b : Backend) : OfSleep timed (entry.map b.keeps) where
  mapping := h.mapping.keeps b
  wake v hv := by
    rw [noted_keeps h.mapping] at hv
    obtain ⟨v₀, hv₀, rfl⟩ := Fault.map_eq_ok.mp hv
    rcases h.wake v₀ hv₀ with rfl | ⟨t, rfl, htimed⟩
    · exact .inl b.keeps_null
    · exact (keeps_real b t).symm.imp_right fun ht => ⟨t, ht, htimed⟩

/-- A wake time in what a backend keeps of an entry was in the entry. -/
theorem OfSleep.wakes_of_keeps (h : OfSleep timed entry) (hkept : Wakes (entry.map b.keeps) t) : Wakes entry t := by
  rw [Wakes, noted_keeps h.mapping] at hkept
  obtain ⟨v, hv, hreal⟩ := Fault.map_eq_ok.mp hkept
  rcases h.wake v hv with rfl | ⟨t', rfl, -⟩
  · rw [b.keeps_null] at hreal
    exact absurd hreal (by simp)
  · rcases keeps_real b t' with hsame | hnull
    · rw [Wakes, hv, ← hsame.symm.trans hreal]
    · exact absurd (hnull.symm.trans hreal) (by simp)

/-- A wake time that the backend keeps stays in the entry. -/
theorem Wakes.keeps (hmapping : Mapping entry) (ht : b.keeps (.real t) = .real t) (h : Wakes entry t) :
    Wakes (entry.map b.keeps) t := by
  rw [Wakes, noted_keeps hmapping, h, Except.map, ht]

/-- In an entry that the backend keeps as it is, so is the wake time. -/
theorem Wakes.kept (hmapping : Mapping entry) (hentry : entry.map b.keeps = entry) (h : Wakes entry t) :
    b.keeps (.real t) = .real t := by
  have hkept := noted_keeps hmapping b "wakeAt"
  rw [hentry, h, Except.map] at hkept
  exact (Except.ok.inj hkept).symm

end

end JournalEntry

open JournalEntry

/-! ## The view -/

/-- The time that a call has told. -/
def Call.time? : (c : Call) → c.Answer → Option Clock
  | .clock, now => some now
  | _, _ => none

/-- The sleep that a call asks the host for. -/
def Call.sleep? : Call → Option Float
  | .hostSleep seconds => some seconds
  | _ => none

/-- The times that were told in some deeds. -/
def readings (ds : List Deed) : List Clock := ds.filterMap fun d => d.call.time? d.answer

/-- The sleeps that the host was asked for in some deeds. -/
def sleeps (ds : List Deed) : List Float := ds.filterMap fun d => d.call.sleep?

/-- **A sleep on its way**: its entry in the journal, the times that it was told, and the sleeps that it has asked
    the host for. -/
structure Nap where
  entry : Option Value
  told : List Clock
  asked : List Float

/-- **What a call makes of a sleep on its way.** -/
structure NapStep (path : String) (n : Nap) (c : Call) (answer : c.Answer) (n' : Nap) : Prop where
  entry : EntryStep path n.entry c answer n'.entry
  told : n'.told = n.told ++ (c.time? answer).toList
  asked : n'.asked = n.asked ++ c.sleep?.toList

theorem readings_append (ds es : List Deed) : readings (ds ++ es) = readings ds ++ readings es :=
  List.filterMap_append

theorem Follows.nap {path : String} {e e' : Option Value} {ds : List Deed} (h : Follows (EntryStep path) e ds e')
    (told : List Clock) (asked : List Float) :
    Follows (NapStep path) ⟨e, told, asked⟩ ds ⟨e', told ++ readings ds, asked ++ sleeps ds⟩ := by
  induction h generalizing told asked with
  | nil => simpa [readings, sleeps] using Follows.nil
  | @cons e e₁ e' d ds first _ ih =>
    have hrest := ih (told ++ (d.call.time? d.answer).toList) (asked ++ d.call.sleep?.toList)
    have htold : readings (d :: ds) = (d.call.time? d.answer).toList ++ readings ds := by
      rw [readings, List.filterMap_cons]
      cases d.call.time? d.answer <;> rfl
    have hasked : sleeps (d :: ds) = d.call.sleep?.toList ++ sleeps ds := by
      rw [sleeps, List.filterMap_cons]
      cases d.call.sleep? <;> rfl
    rw [htold, hasked, ← List.append_assoc, ← List.append_assoc]
    exact .cons ⟨first, rfl, rfl⟩ hrest

/-! ## Calls -/

/-- What is left of a sleep. -/
def sleepLeft (wakeAt : Float) (now : Clock) : Float :=
  if 0.0 < wakeAt - now.seconds then wakeAt - now.seconds else 0.0

namespace Nap

/-- **What a sleep makes sure of** at each of its calls: the wake time stays in the entry until the step has ended,
    and none is noted but the one that is counted from the only time it has been told until then; the host is asked
    once, for what is left at the last time it was told; and a sleep that succeeds has asked. -/
structure Minds (path : String) (d : Duration) (n : Nap) (c : Call) : Prop where
  keeps : ∀ t, Wakes n.entry t → Ended (after path n.entry c) ∨ Wakes (after path n.entry c) t
  notes : ∀ timed : Float → Prop,
    (∀ now, n.told = [now] → ∀ seconds, d.seconds = .ok seconds → timed (now.seconds + seconds)) →
    OfSleep timed n.entry → OfSleep timed (after path n.entry c)
  asks : ∀ seconds, c = .hostSleep seconds → ¬ Ended n.entry ∧ n.asked = []
    ∧ ∃ t now, Wakes n.entry t ∧ n.told.getLast? = some now ∧ seconds = sleepLeft t now
  reports : ∀ r v, c = .report r → r.outcome = .ok v → ∃ seconds, n.asked = [seconds]

/-- Calls that do not matter to a sleep on its way. -/
structure Idle (c : Call) : Prop where
  spared : JournalEntry.Spared c
  time : ∀ answer, c.time? answer = none
  sleep : c.sleep? = none
  report : ∀ r, c ≠ .report r

end Nap

section

variable {path : String} {d : Duration} {n n' : Nap} {c : Call} {answer : c.Answer} {x : Execution}

/-- A call that writes no entries, reports nothing and asks for no sleep. -/
theorem Nap.Minds.of_spared (h : JournalEntry.Spared c) (hsleep : c.sleep? = none) (hreport : ∀ r, c ≠ .report r) :
    n.Minds path d c where
  keeps t ht := .inr (by rwa [h.after_eq])
  notes timed _ hentry := by rwa [h.after_eq]
  asks seconds hc := by
    rw [hc] at hsleep
    exact absurd hsleep (by simp [Call.sleep?])
  reports r _ hc := absurd hc (hreport r)

/-- What a call leaves alone that writes no entries. -/
theorem NapStep.entry_eq (h : NapStep path n c answer n') (hc : JournalEntry.Spared c) : n'.entry = n.entry := by
  rw [h.entry.after, hc.after_eq]

theorem NapStep.idle (h : NapStep path n c answer n') (hc : Nap.Idle c) : n' = n := by
  have hentry := h.entry_eq hc.spared
  have htold := h.told
  have hasked := h.asked
  rw [hc.time, Option.toList_none, List.append_nil] at htold
  rw [hc.sleep, Option.toList_none, List.append_nil] at hasked
  cases n
  cases n'
  simp_all only

open Runbook.Action

theorem minds_of_idle {α : Type} {a : Action α} (h : Makes Nap.Idle a) :
    a.Heeds (NapStep path) (Nap.Minds path d) (fun _ n' => n' = n) n := by
  refine Action.heeds_of_makes (I := fun n' => n' = n) h (fun n' c hc _ => ?_) ?_ rfl
  · exact .of_spared hc.spared hc.sleep hc.report
  · rintro n' c answer n'' hc rfl hstep
    exact hstep.idle hc

theorem Execution.saveCheckpoint_idle : Makes Nap.Idle x.saveCheckpoint := by
  unfold Execution.saveCheckpoint
  split
  · exact makes_call ⟨⟨nofun, nofun⟩, fun _ => rfl, rfl, nofun⟩
  · exact makes_pure _

theorem Execution.writeRun_idle (updates : Keyed Value) : Makes Nap.Idle (x.writeRun updates) :=
  makes_call ⟨⟨nofun, nofun⟩, fun _ => rfl, rfl, nofun⟩

/-- The clock is read. -/
theorem clock_minds :
    (Action.call .clock).Heeds (NapStep path) (Nap.Minds path d)
      (fun o n' => ∃ now, o = .ok now ∧ n' = { n with told := n.told ++ [now] }) n := by
  have hspared : JournalEntry.Spared .clock := ⟨nofun, nofun⟩
  refine heeds_call (.of_spared hspared rfl nofun) fun now n' h => ⟨now, rfl, ?_⟩
  have hentry := h.entry_eq hspared
  have htold : n'.told = n.told ++ [now] := h.told
  have hasked : n'.asked = n.asked := h.asked.trans (List.append_nil _)
  cases n'
  simp_all only

/-- The host is asked for what is left. -/
theorem hostSleep_minds {t : Float} {now : Clock} (hopen : ¬ Ended n.entry) (hasked : n.asked = [])
    (hwakes : Wakes n.entry t) (hnow : n.told.getLast? = some now) :
    (Action.hostSleep (sleepLeft t now)).Heeds (NapStep path) (Nap.Minds path d)
      (fun _ n' => ¬ Ended n'.entry ∧ ∃ seconds, n'.asked = [seconds]) n := by
  have hspared : JournalEntry.Spared (.hostSleep (sleepLeft t now)) := ⟨nofun, nofun⟩
  refine ⟨⟨fun t' ht' => .inr ht', fun timed _ h => h, ?_, nofun⟩, fun answer n' hstep => ?_⟩
  · rintro seconds hc
    obtain rfl := Call.hostSleep.inj hc
    exact ⟨hopen, hasked, t, now, hwakes, hnow, rfl⟩
  · have hasked' : n'.asked = n.asked ++ [sleepLeft t now] := hstep.asked
    show ¬ Ended n'.entry ∧ ∃ seconds, n'.asked = [seconds]
    rw [hstep.entry_eq hspared, hasked', hasked]
    exact ⟨hopen, _, rfl⟩

/-- What was noted is read from the entry. -/
theorem noted_minds {key : String} :
    (Execution.noted path key).Heeds (NapStep path) (Nap.Minds path d)
      (fun o n' => n' = n ∧ o = noted n.entry key) n := by
  have hidle : Nap.Idle (.recall path) := ⟨⟨nofun, nofun⟩, fun _ => rfl, rfl, nofun⟩
  refine ⟨.of_spared hidle.spared rfl nofun, fun found n' hstep => ?_⟩
  rw [hstep.entry.told _ rfl]
  exact ⟨hstep.idle hidle, rfl⟩

/-! ## The step -/

/-- A wake time that is noted in an entry where there was none. -/
theorem wakes_after_note {entry : Option Value} (hmapping : Mapping entry) (t : Float) :
    Wakes (after path entry (.amend path [("wakeAt", .real t)])) t := by
  cases entry with
  | none => simp [after, Wakes, noted_object, Keyed.get?]
  | some v =>
    obtain ⟨fields, rfl⟩ := hmapping v rfl
    simp [after, Wakes, noted_object, Keyed.putAll]

/-- **The wake time is noted** once the clock was read. -/
theorem note_minds {now : Clock} {seconds : Float} (hentry : OfSleep (fun _ => True) n.entry)
    (hnone : noted n.entry "wakeAt" = .ok .null) (hnow : n.told = [now])
    (hseconds : d.seconds = .ok seconds) (hopen : ¬ Ended n.entry) (hasked : n.asked = []) :
    (x.note path [("wakeAt", .real (now.seconds + seconds))]).Heeds (NapStep path) (Nap.Minds path d)
      (fun _ n' => ¬ Ended n'.entry ∧ n'.asked = [] ∧ Wakes n'.entry (now.seconds + seconds)) n := by
  have hwakes : Wakes (after path n.entry (.amend path [("wakeAt", .real (now.seconds + seconds))]))
      (now.seconds + seconds) := wakes_after_note hentry.mapping _
  have hstill : ¬ Ended (after path n.entry (.amend path [("wakeAt", .real (now.seconds + seconds))])) :=
    not_ended_amend hopen (by simp [Keyed.keys, noteKeys])
  unfold Execution.note
  refine ⟨⟨fun t ht => absurd (ht.symm.trans hnone) (by simp), fun timed htimed h => ?_,
    fun _ h => absurd h (by simp), fun _ _ h => absurd h (by simp)⟩, fun o n' hstep => ?_⟩
  · refine ⟨h.mapping.after path _, fun v hv => .inr ⟨_, Except.ok.inj (hv.symm.trans hwakes), ?_⟩⟩
    exact htimed now hnow seconds hseconds
  · obtain ⟨hafter, -, hdone⟩ := hstep.entry
    have hasked' : n'.asked = [] := (hstep.asked.trans (List.append_nil _)).trans hasked
    have hn' : ¬ Ended n'.entry ∧ n'.asked = [] ∧ Wakes n'.entry (now.seconds + seconds) := by
      rw [hafter]
      exact ⟨hstill, hasked', hwakes⟩
    obtain rfl := hdone _ _ rfl hentry.mapping
    exact Action.heeds_weaken (minds_of_idle Execution.saveCheckpoint_idle) fun _ n'' h => h ▸ hn'

/-- **The wake time is found** in the entry, or it is noted there. -/
theorem wakeTime_minds (hentry : OfSleep (fun _ => True) n.entry) (hopen : ¬ Ended n.entry) (htold : n.told = [])
    (hasked : n.asked = []) :
    (x.wakeTime d path).Heeds (NapStep path) (Nap.Minds path d)
      (fun o n' => ¬ Ended n'.entry ∧ n'.asked = [] ∧ ∀ t, o = .ok t → Wakes n'.entry t) n := by
  unfold Execution.wakeTime
  refine Action.heeds_bind noted_minds ?_ fun e n' h => ⟨h.1 ▸ hopen, h.1 ▸ hasked, nofun⟩
  rintro found n' ⟨rfl, hfound⟩
  rcases hentry.wake found hfound.symm with rfl | ⟨t, rfl, -⟩
  · refine Action.heeds_bind clock_minds ?_ fun _ _ h => by simp at h
    rintro now n₁ ⟨_, heq, rfl⟩
    obtain rfl := Except.ok.inj heq
    cases hseconds : d.seconds with
    | error f => exact ⟨hopen, hasked, nofun⟩
    | ok seconds =>
      have hlast : n'.told ++ [now] = [now] := by rw [htold, List.nil_append]
      refine Action.heeds_bind (Q := fun o n₁ => n₁ = { n' with told := n'.told ++ [now] } ∧ o = .ok seconds)
        ⟨rfl, rfl⟩ ?_ fun _ _ h => by simp at h
      rintro _ n₁ ⟨rfl, hok⟩
      obtain rfl := Except.ok.inj hok
      refine Action.heeds_bind (note_minds hentry hfound.symm hlast hseconds hopen hasked) ?_
        fun _ n'' h => ⟨h.1, h.2.1, nofun⟩
      rintro - n'' ⟨hopen', hasked', hwakes⟩
      exact ⟨hopen', hasked', fun t ht => Except.ok.inj ht ▸ hwakes⟩
  · exact ⟨hopen, hasked, fun t' ht => Except.ok.inj ht ▸ hfound.symm⟩

/-- **A sleep** asks the host once, for what is left until it wakes. -/
theorem runSleep_minds (hentry : OfSleep (fun _ => True) n.entry) (hopen : ¬ Ended n.entry) (htold : n.told = [])
    (hasked : n.asked = []) :
    (x.runSleep d path).Heeds (NapStep path) (Nap.Minds path d)
      (fun o n' => ¬ Ended n'.entry ∧ ∀ v, o = .ok v → ∃ seconds, n'.asked = [seconds]) n := by
  unfold Execution.runSleep
  refine Action.heeds_bind (wakeTime_minds hentry hopen htold hasked) ?_ fun e n' h => ⟨h.1, nofun⟩
  rintro t n₁ ⟨hopen₁, hasked₁, hwakes⟩
  refine Action.heeds_bind clock_minds ?_ fun _ _ h => by simp at h
  rintro now n₂ ⟨_, heq, rfl⟩
  obtain rfl := Except.ok.inj heq
  refine Action.heeds_bind (minds_of_idle (Execution.writeRun_idle _)) ?_ fun _ n' h => h ▸ ⟨hopen₁, nofun⟩
  rintro - n₃ rfl
  have hnow : (n₁.told ++ [now]).getLast? = some now := List.getLast?_concat
  refine Action.heeds_bind (hostSleep_minds hopen₁ hasked₁ (hwakes t rfl) hnow) ?_ fun _ _ h => ⟨h.1, nofun⟩
  rintro - n₄ ⟨hopen₄, hasked₄⟩
  refine Action.heeds_bind (minds_of_idle (Execution.writeRun_idle _)) ?_ fun _ n' h => h ▸ ⟨hopen₄, nofun⟩
  rintro - n₅ rfl
  exact ⟨hopen₄, fun _ _ => hasked₄⟩

/-- What is written when the step has ended. -/
theorem close_minds {q : StepPath} {o : Except Fault Value} :
    (x.close q o).Heeds (NapStep q.text) (Nap.Minds q.text d) (fun _ _ => True) n := by
  unfold Execution.close
  cases hentry : x.entry? o with
  | none => trivial
  | some fields =>
    have hafter : after q.text n.entry (.journal q.text fields) = some (.object fields) := if_pos rfl
    refine ⟨⟨fun _ _ => .inl ?_, fun timed _ _ => ⟨?_, fun v hv => .inl ?_⟩, fun _ h => absurd h (by simp),
      fun _ _ h => absurd h (by simp)⟩, fun _ n' _ => ?_⟩
    · rw [hafter]
      exact ended_entry hentry
    · rw [hafter]
      exact mapping_object fields
    · rw [hafter, noted_object] at hv
      rw [← Except.ok.inj hv]
      cases o with
      | ok output =>
        rw [← Option.some.inj hentry]
        rfl
      | error f =>
        simp only [Execution.entry?, Option.ite_none_right_eq_some, Option.some.injEq] at hentry
        rw [← hentry.2]
        rfl
    · split
      · exact ⟨.of_spared ⟨by simp, by simp⟩ rfl (by simp), fun _ _ _ => trivial⟩
      · trivial

/-- **Each call of a sleep step.** -/
theorem carryOut_minds {q : StepPath} {id : Option String} {c : Context} (hentry : OfSleep (fun _ => True) n.entry)
    (htold : n.told = []) (hasked : n.asked = []) :
    (x.carryOut q id c (x.runSleep d q.text)).outcome.Heeds (NapStep q.text) (Nap.Minds q.text d) (fun _ _ => True)
      n := by
  have hidle : Nap.Idle (.recall q.text) := ⟨⟨nofun, nofun⟩, fun _ => rfl, rfl, nofun⟩
  rw [Execution.carryOut_eq]
  refine ⟨.of_spared hidle.spared rfl nofun, fun found n' hstep => ?_⟩
  obtain rfl : found = n.entry := hstep.entry.told found rfl
  obtain rfl := hstep.idle hidle
  dsimp only
  cases hreplay : replay? n'.entry with
  | some o => trivial
  | none =>
    have hopen : ¬ Ended n'.entry := fun h => h.replay?_ne_none hreplay
    dsimp only
    rw [Execution.carryOutNew_eq]
    refine Program.heeds_bind (runSleep_minds hentry hopen htold hasked) fun o n₁ ⟨_, hslept⟩ => ?_
    refine ⟨⟨fun t ht => .inr ht, fun _ _ h => h, nofun, ?_⟩, fun _ n₂ _ => ?_⟩
    · rintro r v hc hv
      rw [← Call.report.inj hc] at hv
      exact hslept v hv
    · exact Program.heeds_bind close_minds fun _ _ _ => trivial

end

/-- **Among the deeds of many steps**, each call for a sleep step is one that a sleep on its way makes. -/
theorem Layout.minds {pace : Clock → Clock → Prop} {x : Execution} {S : Sites} {e : Prop} {ds pre post : List Deed}
    {deed : Deed} {w u : World} {q : StepPath} {stepId : Option String} {d : Duration} (h : Layout pace x S e ds)
    (hsteps : OfSteps x ds) (hq : q.Proper) (hsite : ∀ s, S q s → s = .sleep stepId d)
    (hentry : OfSleep (fun _ => True) (w.attempt.journal.get? q.text)) (hds : ds = pre ++ deed :: post)
    (hpre : w.Admits pre u) (hstep : deed.step = some q) :
    Nap.Minds q.text d ⟨u.attempt.journal.get? q.text, readings (deedsFor q pre), sleeps (deedsFor q pre)⟩
      deed.call := by
  have hsplit : deedsFor q ds = deedsFor q pre ++ deed :: deedsFor q post := by
    rw [hds, deedsFor_append, deedsFor_cons_of_eq hstep]
  have hfollows := OfSteps.follows_entry
    (fun d hd => hsteps d (hds ▸ List.mem_append_left _ hd)) hq hpre
  have hown := h q
  generalize deedsFor q ds = es at hown hsplit
  cases hown with
  | nothing => simp at hsplit
  | report hs hleaf =>
    rw [hsite _ hs] at hleaf
    exact absurd hleaf (by simp [Step.isLeaf])
  | leaf hs hleaf hcourse =>
    obtain rfl := hsite _ hs
    obtain ⟨body, hbody, hprogram⟩ := Execution.program_of_leaf hleaf hcourse
    obtain rfl := Option.some.inj hbody
    rw [hsplit] at hprogram
    exact hprogram.heeds_at (carryOut_minds hentry rfl rfl) (hfollows.nap [] [])

end Runbook
