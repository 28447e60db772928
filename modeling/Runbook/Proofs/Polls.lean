import Runbook.Poll.Loop
import Runbook.Proofs.Conduct
import Runbook.Proofs.Magnitudes

/-!
# `Proofs.Polls` — a poll stops at the first end it sees, or at its bounds

A poll is a series of looks. After each look the clock is read; when the look has shown no end and the
bounds allow it, the poll waits, reads the clock again, and looks once more. What a look and a wait do,
how long they take and whether a look fails is left open: the history of a poll is told from what they
did.

## Contents
- **Histories.** `Look`, `Wait`, and `PollHistory`: the looks that were followed by another one, the last
  look, and the wait after it, if any.
- **Deeds.** `PollHistory.Looks`, `Waits`, `Rounds` and `Tells`: what was done in a history.
- **Bounds.** `Delay` and `PollBounds.Allows`: how long a wait may be; `allows_of_pause`.
- **The loop.** `PollHistory.Keeps`; `afterLook_course`, what follows one look, and `pollLoop_tells`, by
  induction on the looks that are left.
- **The end.** `PollBounds.Fits` and `pollLoop_ends`; `PollEnds`, the ways in which a poll ends that may fail, and
  `pollLoop_settles`; the theorem on polls.
-/

namespace Runbook

/-! ## Histories -/

/-- One look: what it showed, unless it failed, and the clock as it was read afterwards. -/
structure Look where
  shown : Except Fault Observation
  read : Clock

/-- One wait: how many seconds were asked for, and the clock as it was read afterwards. -/
structure Wait where
  seconds : Float
  read : Clock

/-- The history of a poll. -/
structure PollHistory where
  started : Clock
  /-- The looks that were followed by another one, each with the wait in between. -/
  rounds : List (Look × Wait)
  last : Look
  /-- The wait after the last look. -/
  rest : Option Wait

/-- The milliseconds between two readings of the clock. -/
def elapsedBetween (started now : Clock) : Float := (now.seconds - started.seconds) * 1000.0

namespace PollHistory

/-- All waits, each with the milliseconds that had gone by when it was asked for. -/
def waits (h : PollHistory) : List (Float × Float) :=
  (h.rounds.map fun round => (elapsedBetween h.started round.1.read, round.2.seconds))
    ++ h.rest.toList.map fun wait => (elapsedBetween h.started h.last.read, wait.seconds)

end PollHistory

/-- A look has shown the end. -/
def Look.IsLast (l : Look) : Prop := ∃ o, l.shown = .ok o ∧ o.isDone = true

/-! ## Deeds -/

namespace PollHistory

section

variable (pace : Clock → Clock → Prop) (step : Option StepPath) (look : Action Observation)
  (sleep : Float → Action Unit)

/-- **A look** to its end, whatever it does, and a reading of the clock. -/
inductive Looks (t : Clock) (l : Look) : List Deed → Clock → Prop where
  | mk {t₁ u : Clock} {ds es : List Deed}
      (hlook : Program.Course pace step t look.outcome ds (some (l.shown, t₁)))
      (hread : Program.Course pace step t₁ (Program.call .clock) es (some (l.read, u))) :
      Looks t l (ds ++ es) u

/-- **A wait** to its end, whatever it does, and a reading of the clock. -/
inductive Waits (t : Clock) (w : Wait) : List Deed → Clock → Prop where
  | mk {t₁ u : Clock} {ds es : List Deed}
      (hsleep : Program.Course pace step t (sleep w.seconds).outcome ds (some (.ok (), t₁)))
      (hread : Program.Course pace step t₁ (Program.call .clock) es (some (w.read, u))) :
      Waits t w (ds ++ es) u

/-- **Looks and waits in turn.** -/
inductive Rounds : Clock → List (Look × Wait) → List Deed → Clock → Prop where
  | nil {t : Clock} : Rounds t [] [] t
  | cons {t t₁ t₂ u : Clock} {l : Look} {w : Wait} {rounds : List (Look × Wait)}
      {ds es fs : List Deed} (hlook : Looks pace step look t l ds t₁)
      (hwait : Waits pace step sleep t₁ w es t₂) (rest : Rounds t₂ rounds fs u) :
      Rounds t ((l, w) :: rounds) (ds ++ es ++ fs) u

/-- **A last wait, or none.** -/
inductive Rests (t : Clock) : Option Wait → List Deed → Clock → Prop where
  | none : Rests t none [] t
  | some {w : Wait} {ds : List Deed} {u : Clock} (hwait : Waits pace step sleep t w ds u) :
      Rests t (some w) ds u

/-- **What was done in a history**: the clock was read, there were looks and waits in turn, the last look,
    and perhaps a wait. -/
inductive Tells (h : PollHistory) (t : Clock) : List Deed → Clock → Prop where
  | mk {t₀ t₁ t₂ u : Clock} {ds es fs gs : List Deed}
      (hstarted : Program.Course pace step t (Program.call .clock) ds (some (h.started, t₀)))
      (hrounds : Rounds pace step look sleep t₀ h.rounds es t₁)
      (hlast : Looks pace step look t₁ h.last fs t₂) (hrest : Rests pace step sleep t₂ h.rest gs u) :
      Tells h t (ds ++ es ++ fs ++ gs) u

end

end PollHistory

/-! ## Bounds -/

/-- A delay in milliseconds: an integer, or a double. -/
inductive Delay where
  | whole (n : Int)
  | part (x : Float)

namespace Delay

/-- The wait that is asked for: a thousandth of the delay. -/
def seconds : Delay → Float
  | .whole n => Number.thousandths n
  | .part x => x / 1000.0

/-- A delay is at most so many milliseconds, an integer. -/
def AtMost (n : Int) : Delay → Prop
  | .whole m => m ≤ n
  | .part x => ∃ order, Number.compareInt? x n = some order ∧ order.isLE = true

/-- A delay is at most so many milliseconds, a double. -/
def Within (left : Float) : Delay → Prop
  | .whole m => ∃ order, Number.compareInt? left m = some order ∧ order.isGE = true
  | .part x => x = left

end Delay

namespace PollBounds

variable {b : PollBounds} {elapsed : Float}

/-- A wait is as long as the bounds allow: a delay of at most the interval, and of at most the time that
    is left when time is bounded. -/
def Allows (b : PollBounds) (elapsed seconds : Float) : Prop :=
  ∃ delay : Delay, seconds = delay.seconds ∧ delay.AtMost b.intervalMs
    ∧ ∀ limit ∈ b.timeoutMs, Number.isFinite elapsed = true → delay.Within (Float.ofInt limit - elapsed)

theorem thousandths_of_interval {seconds : Float} (h : some <$> b.interval = .ok (some seconds)) :
    seconds = Number.thousandths b.intervalMs := by
  unfold interval at h
  generalize Number.isBeyondDoubles _ = beyond at h
  cases beyond with
  | true => exact absurd h nofun
  | false => exact (Option.some.inj (Except.ok.inj h)).symm

/-- What is left when time is bounded. -/
theorem remaining?_eq_ok {left : Option Float} (h : b.remaining? elapsed = .ok left) :
    left = b.timeoutMs.map fun limit => Float.ofInt limit - elapsed := by
  unfold remaining? at h
  cases hlimit : b.timeoutMs with
  | none =>
    rw [hlimit] at h
    exact (Except.ok.inj h).symm
  | some limit =>
    rw [hlimit] at h
    dsimp only at h
    generalize Number.isBeyondDoubles _ = beyond at h
    cases beyond with
    | true => exact absurd h nofun
    | false => exact (Except.ok.inj h).symm

theorem pause?_unbounded (h : b.remaining? elapsed = .ok none) :
    b.pause? elapsed = some <$> b.interval := by
  rw [pause?, h]
  generalize b.interval = interval
  rfl

theorem pause?_bounded {left : Float} (h : b.remaining? elapsed = .ok (some left)) :
    b.pause? elapsed
      = if left ≤ 0.0 then .ok none
        else if Number.compareInt? left b.intervalMs = some .lt then .ok (some (left / 1000.0))
        else some <$> b.interval := by
  rw [pause?, h]
  rfl

/-- **A pause is as long as the bounds allow**, given how much time has gone by. -/
theorem allows_of_pause {seconds : Float} (h : b.pause? elapsed = .ok (some seconds)) : b.Allows elapsed seconds := by
  cases hleft : b.remaining? elapsed with
  | error f =>
    rw [pause?, hleft] at h
    exact nomatch h
  | ok left =>
    have hvalue := remaining?_eq_ok hleft
    cases hlimit : b.timeoutMs with
    | none =>
      rw [hlimit] at hvalue
      subst hvalue
      rw [pause?_unbounded hleft] at h
      refine ⟨.whole b.intervalMs, thousandths_of_interval h, Int.le_refl _, ?_⟩
      rw [hlimit]
      exact nofun
    | some limit =>
      rw [hlimit] at hvalue
      subst hvalue
      rw [pause?_bounded hleft] at h
      have hmet {delay : Delay} (hwithin : Number.isFinite elapsed = true →
          delay.Within (Float.ofInt limit - elapsed)) : ∀ l ∈ some limit,
          Number.isFinite elapsed = true → delay.Within (Float.ofInt l - elapsed) := by
        intro l hl
        obtain rfl := Option.some.inj hl
        exact hwithin
      rw [Allows, hlimit]
      split at h
      · exact nomatch h
      · by_cases hless : Number.compareInt? (Float.ofInt limit - elapsed) b.intervalMs = some .lt
        · rw [if_pos hless] at h
          obtain rfl := Option.some.inj (Except.ok.inj h)
          exact ⟨.part (Float.ofInt limit - elapsed), rfl, ⟨.lt, hless, rfl⟩, hmet fun _ => rfl⟩
        · rw [if_neg hless] at h
          refine ⟨.whole b.intervalMs, thousandths_of_interval h, Int.le_refl _, hmet fun hfinite => ?_⟩
          -- what is left is a number, so that it was compared with the interval
          obtain ⟨order, horder⟩ := Number.exists_compareInt?
            (Number.isNumber_sub (Number.isNumber_ofInt limit) hfinite) b.intervalMs
          refine ⟨order, horder, ?_⟩
          cases order with
          | lt => exact absurd horder hless
          | eq => rfl
          | gt => rfl

/-- The time bound is met later than now. -/
theorem lt_of_not_isOver (hfinite : Number.isFinite elapsed = true) (h : b.isOver elapsed = false) :
    ∀ limit ∈ b.timeoutMs, Number.compareInt? elapsed limit = some .lt := by
  intro limit hlimit
  obtain ⟨order, horder⟩ := Number.exists_compareInt? (Number.isNumber_of_isFinite hfinite) limit
  rw [isOver, Option.mem_def.mp hlimit, Option.any_some, horder, Option.any_some] at h
  rw [horder]
  cases order with
  | lt => rfl
  | eq => exact absurd h (by decide)
  | gt => exact absurd h (by decide)

end PollBounds

/-! ## The loop -/

open PollHistory

/-- **The result that a last look leads to**: what it showed, if it showed the end, and else that time ran
    out. -/
structure PollResult.Tells (r : PollResult) (last : Look) : Prop where
  settled : ∀ o, last.shown = .ok o → o.isDone = true →
    r.outcome = (if Observation.isSuccessful o.status then .completed else .failed)
      ∧ r.status = o.status ∧ r.output = o.output ∧ r.error = o.error ∧ r.metadata = o.metadata
  timedOut : ¬ last.IsLast → r.outcome = .timeout
    ∧ r.status = last.shown.toOption.bind Observation.status

/-- **What a poll makes sure of**, whatever the looks and waits do. -/
structure PollHistory.Keeps (h : PollHistory) (b : PollBounds) (r : PollResult) : Prop where
  /-- The attempts are the looks. -/
  attempts : r.attempts = h.rounds.length + 1
  /-- There are no more of them than are allowed, but at least one. -/
  few : ∀ n ∈ b.maxRetries, (r.attempts : Int) ≤ max 1 n
  /-- Only the last one has shown the end. -/
  first : ∀ round ∈ h.rounds, ¬ round.1.IsLast
  tells : r.Tells h.last
  /-- It was looked again only before the time bound was met. -/
  inTime : ∀ round ∈ h.rounds, ∀ limit ∈ b.timeoutMs,
    Number.isFinite (elapsedBetween h.started round.2.read) = true →
    Number.compareInt? (elapsedBetween h.started round.2.read) limit = some .lt
  /-- No wait was longer than the bounds allow. -/
  brief : ∀ wait ∈ h.waits, b.Allows wait.1 wait.2

section

variable {pace : Clock → Clock → Prop} {step : Option StepPath} {look : Action Observation}
  {sleep : Float → Action Unit} {b : PollBounds} {started t u : Clock} {ds : List Deed} {result : PollResult}

theorem outcome_elapsedSince_bind {α : Type} (started : Clock) (f : Float → Action α) :
    (elapsedSince started >>= f).outcome
      = (Program.call .clock).bind fun now => (f (elapsedBetween started now)).outcome := rfl

/-- What is done after a look, given what it has shown and how much time has gone by. -/
def afterLook (look : Action Observation) (sleep : Float → Action Unit) (b : PollBounds)
    (started : Clock) (left attempts : Nat) (shown : Except Fault Observation) (elapsed : Float) :
    Action PollResult :=
  match shown.toOption.filter Observation.isDone with
  | some o => return .settled o (attempts + 1) elapsed
  | none =>
    if left = 0 then return .timedOut shown.toOption (attempts + 1) elapsed
    else
      Action.ofExcept (b.pause? elapsed) >>= fun
        | none => return .timedOut shown.toOption (attempts + 1) elapsed
        | some seconds => do
          sleep seconds
          let elapsed ← elapsedSince started
          if b.isOver elapsed then return .timedOut shown.toOption (attempts + 1) elapsed
          else pollLoop look sleep b started left (attempts + 1)

theorem outcome_pollLoop (left attempts : Nat) :
    (pollLoop look sleep b started (left + 1) attempts).outcome
      = look.outcome.bind fun shown => (Program.call .clock).bind fun now =>
          (afterLook look sleep b started left attempts shown (elapsedBetween started now)).outcome := by
  rw [pollLoop, Action.outcome_lift_bind]
  rfl

/-- The end that a look has shown. -/
theorem filter_isDone {last : Look} {o : Observation} :
    last.shown.toOption.filter Observation.isDone = some o ↔ last.shown = .ok o ∧ o.isDone = true := by
  obtain ⟨shown, read⟩ := last
  cases shown with
  | error f => simp [Except.toOption]
  | ok v => simp [Except.toOption, Option.filter_eq_some_iff]

theorem tells_settled {last : Look} {o : Observation} {attempts : Nat} {elapsed : Float}
    (hshown : last.shown = .ok o) (hdone : o.isDone = true) :
    (PollResult.settled o attempts elapsed).Tells last := by
  constructor
  · intro o' hshown' _
    obtain rfl := Except.ok.inj (hshown.symm.trans hshown')
    exact ⟨rfl, rfl, rfl, rfl, rfl⟩
  · intro hlast
    exact absurd ⟨o, hshown, hdone⟩ hlast

theorem tells_timedOut {last : Look} {attempts : Nat} {elapsed : Float} (hlast : ¬ last.IsLast) :
    (PollResult.timedOut last.shown.toOption attempts elapsed).Tells last := by
  constructor
  · intro o hshown hdone
    exact absurd ⟨o, hshown, hdone⟩ hlast
  · intro _
    refine ⟨rfl, ?_⟩
    cases last.shown with
    | error f => rfl
    | ok o => rfl

/-- **What follows a look**: nothing, a wait that is the last one, or a wait and the loop again. -/
inductive AfterLook (pace : Clock → Clock → Prop) (step : Option StepPath) (look : Action Observation)
    (sleep : Float → Action Unit) (b : PollBounds) (started : Clock) (left attempts : Nat) (last : Look)
    (t : Clock) (result : PollResult) : List Deed → Clock → Prop where
  | ends (hattempts : result.attempts = attempts + 1) (htells : result.Tells last) :
      AfterLook pace step look sleep b started left attempts last t result [] t
  | rests {w : Wait} {ds : List Deed} {u : Clock} (hattempts : result.attempts = attempts + 1)
      (htells : result.Tells last)
      (hpause : b.pause? (elapsedBetween started last.read) = .ok (some w.seconds))
      (hwait : Waits pace step sleep t w ds u) :
      AfterLook pace step look sleep b started left attempts last t result ds u
  | again {w : Wait} {ds es : List Deed} {t₁ u : Clock} (hleft : left ≠ 0) (hlast : ¬ last.IsLast)
      (hpause : b.pause? (elapsedBetween started last.read) = .ok (some w.seconds))
      (hwait : Waits pace step sleep t w ds t₁)
      (hover : b.isOver (elapsedBetween started w.read) = false)
      (hrest : Program.Course pace step t₁ (pollLoop look sleep b started left (attempts + 1)).outcome es
        (some (.ok result, u))) :
      AfterLook pace step look sleep b started left attempts last t result (ds ++ es) u

theorem afterLook_course {left attempts : Nat} {last : Look}
    (h : Program.Course pace step t (afterLook look sleep b started left attempts last.shown
      (elapsedBetween started last.read)).outcome ds (some (.ok result, u))) :
    AfterLook pace step look sleep b started left attempts last t result ds u := by
  have hdone {r : PollResult} (h : Program.Course pace step t (pure r : Action PollResult).outcome ds
      (some (.ok result, u))) (hattempts : r.attempts = attempts + 1) (htells : r.Tells last) :
      AfterLook pace step look sleep b started left attempts last t result ds u := by
    obtain ⟨rfl, hr⟩ := h.of_done
    obtain ⟨hresult, rfl⟩ := Prod.mk.inj (hr _ rfl)
    obtain rfl := Except.ok.inj hresult
    exact .ends hattempts htells
  unfold afterLook at h
  cases hfilter : last.shown.toOption.filter Observation.isDone with
  | some o =>
    rw [hfilter] at h
    obtain ⟨hshown, hisDone⟩ := filter_isDone.mp hfilter
    exact hdone h rfl (tells_settled hshown hisDone)
  | none =>
    rw [hfilter] at h
    have hlast : ¬ last.IsLast := by
      rintro ⟨o, hshown, hisDone⟩
      exact absurd (hfilter.symm.trans (filter_isDone.mpr ⟨hshown, hisDone⟩)) nofun
    by_cases hleft : left = 0
    · rw [if_pos hleft] at h
      exact hdone h rfl (tells_timedOut hlast)
    · rw [if_neg hleft] at h
      cases hpause : b.pause? (elapsedBetween started last.read) with
      | error f =>
        rw [hpause] at h
        obtain ⟨-, hr⟩ := h.of_done
        exact absurd (hr _ rfl) nofun
      | ok pause =>
        rw [hpause] at h
        cases pause with
        | none => exact hdone h rfl (tells_timedOut hlast)
        | some seconds =>
          -- the wait, and the clock read after it
          cases Program.Course.of_bind_action (a := sleep seconds) h with
          | @both o t₁ ds es _ hsleep h =>
            cases o with
            | error f => exact absurd (h.2 _ rfl) nofun
            | ok _ =>
              rw [outcome_elapsedSince_bind] at h
              cases Program.Course.of_bind h with
              | @both now t₂ es fs _ hread h =>
                have hwait : Waits pace step sleep t ⟨seconds, now⟩ (ds ++ es) t₂ := .mk hsleep hread
                rw [← List.append_assoc]
                cases hover : b.isOver (elapsedBetween started now) with
                | true =>
                  rw [hover] at h
                  obtain ⟨rfl, hr⟩ := h.of_done
                  obtain ⟨hresult, rfl⟩ := Prod.mk.inj (hr _ rfl)
                  obtain rfl := Except.ok.inj hresult
                  rw [List.append_nil]
                  exact .rests rfl (tells_timedOut hlast) hpause hwait
                | false =>
                  rw [hover] at h
                  exact .again hleft hlast hpause hwait hover h

/-- **What the loop makes sure of**, when some looks are left and some have been taken. -/
structure PollHistory.Goes (h : PollHistory) (b : PollBounds) (left attempts : Nat) (r : PollResult) :
    Prop where
  attempts : r.attempts = attempts + h.rounds.length + 1
  few : h.rounds.length + 1 ≤ left
  first : ∀ round ∈ h.rounds, ¬ round.1.IsLast
  tells : r.Tells h.last
  early : ∀ round ∈ h.rounds, b.isOver (elapsedBetween h.started round.2.read) = false
  paused : ∀ wait ∈ h.waits, b.pause? wait.1 = .ok (some wait.2)

/-- **The deeds of the loop**, told as looks and waits, by induction on the looks that are left. -/
theorem pollLoop_tells {left attempts : Nat}
    (h : Program.Course pace step t (pollLoop look sleep b started (left + 1) attempts).outcome ds
      (some (.ok result, u))) :
    ∃ rounds last rest, ∃ es fs gs t₁ t₂, ds = es ++ fs ++ gs
      ∧ Rounds pace step look sleep t rounds es t₁ ∧ Looks pace step look t₁ last fs t₂
      ∧ PollHistory.Rests pace step sleep t₂ rest gs u
      ∧ (⟨started, rounds, last, rest⟩ : PollHistory).Goes b (left + 1) attempts result := by
  induction left using Nat.strongRecOn generalizing t attempts ds with
  | ind left ih =>
    rw [outcome_pollLoop] at h
    cases Program.Course.of_bind h with
    | @both shown t₁ es fs _ hlook h =>
      cases Program.Course.of_bind h with
      | @both now t₂ fs gs _ hread h =>
        have hlast : Looks pace step look t ⟨shown, now⟩ (es ++ fs) t₂ := .mk hlook hread
        rw [← List.append_assoc]
        have hafter : AfterLook pace step look sleep b started left attempts ⟨shown, now⟩ t₂ result gs u :=
          afterLook_course h
        cases hafter with
        | ends hattempts htells =>
          refine ⟨[], ⟨shown, now⟩, none, [], es ++ fs, [], t, u, rfl, .nil, hlast, .none, ?_⟩
          exact ⟨hattempts, by simp, by simp, htells, by simp, by simp [PollHistory.waits]⟩
        | @rests w _ _ hattempts htells hpause hwait =>
          refine ⟨[], ⟨shown, now⟩, some w, [], es ++ fs, gs, t, t₂, rfl, .nil, hlast, .some hwait, ?_⟩
          exact ⟨hattempts, by simp, by simp, htells, by simp, by simpa [PollHistory.waits] using hpause⟩
        -- one more round comes before the rounds of the rest
        | @again w gs hs t₃ _ hleft hnotLast hpause hwait hover hrest =>
          obtain ⟨left, rfl⟩ := Nat.exists_eq_succ_of_ne_zero hleft
          obtain ⟨rounds, last, rest, es', fs', gs', t₄, t₅, rfl, hrounds, hlast', hrests, hgoes⟩ :=
            ih left (Nat.lt_succ_self left) hrest
          refine ⟨(⟨shown, now⟩, w) :: rounds, last, rest, (es ++ fs) ++ gs ++ es', fs', gs', t₄, t₅,
            by simp, .cons hlast hwait hrounds, hlast', hrests, ?_⟩
          constructor
          · have := hgoes.attempts
            simp only [List.length_cons] at this ⊢
            omega
          · have := hgoes.few
            simp only [List.length_cons] at this ⊢
            omega
          · exact List.forall_mem_cons.mpr ⟨hnotLast, hgoes.first⟩
          · exact hgoes.tells
          · exact List.forall_mem_cons.mpr ⟨hover, hgoes.early⟩
          · exact List.forall_mem_cons.mpr ⟨hpause, hgoes.paused⟩

/-! ## The end -/

/-- **The numbers of a poll fit into doubles**: the time bound does, and the interval in seconds. -/
def PollBounds.Fits (b : PollBounds) : Prop :=
  (∀ limit ∈ b.timeoutMs, Number.isBeyondDoubles limit.natAbs = false)
    ∧ Number.isBeyondDoubles (b.intervalMs.natAbs / 1000) = false

namespace PollBounds.Fits

theorem interval_eq (hfits : b.Fits) : b.interval = .ok (Number.thousandths b.intervalMs) := by
  rw [interval, if_neg (by rw [hfits.2]; exact Bool.false_ne_true)]

theorem remaining?_eq (hfits : b.Fits) (elapsed : Float) :
    b.remaining? elapsed = .ok (b.timeoutMs.map fun limit => Float.ofInt limit - elapsed) := by
  unfold remaining?
  cases hlimit : b.timeoutMs with
  | none => rfl
  | some limit =>
    dsimp only
    rw [if_neg (by rw [hfits.1 limit hlimit]; exact Bool.false_ne_true), Option.map_some]

/-- A pause is found as long as the numbers fit. -/
theorem pause (hfits : b.Fits) (elapsed : Float) : ∃ pause, b.pause? elapsed = .ok pause := by
  have hleft := hfits.remaining?_eq elapsed
  cases hlimit : b.timeoutMs with
  | none =>
    rw [hlimit] at hleft
    rw [pause?_unbounded hleft, hfits.interval_eq]
    exact ⟨_, rfl⟩
  | some limit =>
    rw [hlimit] at hleft
    rw [pause?_bounded hleft, hfits.interval_eq]
    split
    · exact ⟨_, rfl⟩
    · split
      · exact ⟨_, rfl⟩
      · exact ⟨_, rfl⟩

end PollBounds.Fits

theorem afterLook_ends {left attempts : Nat} {shown : Except Fault Observation} {elapsed : Float}
    (hpause : ∃ pause, b.pause? elapsed = .ok pause)
    (hsleep : ∀ seconds, (sleep seconds).outcome.Ends (· = .ok ()))
    (hloop : left ≠ 0 → (pollLoop look sleep b started left (attempts + 1)).outcome.Ends fun o => ∃ r, o = .ok r) :
    (afterLook look sleep b started left attempts shown elapsed).outcome.Ends fun o => ∃ r, o = .ok r := by
  unfold afterLook
  split
  · exact ⟨_, rfl⟩
  · split
    · exact ⟨_, rfl⟩
    · next hleft =>
      obtain ⟨pause, hpause⟩ := hpause
      rw [hpause, Action.outcome_ok_bind]
      cases pause with
      | none => exact ⟨_, rfl⟩
      | some seconds =>
        show (sleep seconds >>= _ : Action PollResult).outcome.Ends _
        rw [Action.outcome_bind]
        refine Program.ends_bind (hsleep seconds) ?_
        rintro _ rfl
        intro now
        show (if _ then _ else _ : Action PollResult).outcome.Ends _
        split
        · exact ⟨_, rfl⟩
        · exact hloop hleft

/-- **The loop comes to a result**, by induction on the looks that are left. -/
theorem pollLoop_ends (hfits : b.Fits) (hsleep : ∀ seconds, (sleep seconds).outcome.Ends (· = .ok ()))
    (left attempts : Nat) :
    (pollLoop look sleep b started left attempts).outcome.Ends fun o => ∃ r, o = .ok r := by
  induction left generalizing attempts with
  | zero => exact fun now => ⟨_, rfl⟩
  | succ left ih =>
    rw [outcome_pollLoop]
    refine Program.ends_bind (Program.ends_true _) fun shown _ => ?_
    intro now
    exact afterLook_ends (hfits.pause _) hsleep fun _ => ih (attempts + 1)

theorem PollBounds.looks_ne_zero (b : PollBounds) : b.looks ≠ 0 := by
  unfold looks
  split
  · omega
  · decide

/-- What the loop makes sure of is what a poll makes sure of. -/
theorem PollHistory.Goes.keeps {h : PollHistory} {left : Nat} (hgoes : h.Goes b left 0 result)
    (hleft : left = b.looks) : h.Keeps b result := by
  have hattempts : result.attempts = h.rounds.length + 1 := by
    have := hgoes.attempts
    omega
  constructor
  · exact hattempts
  · intro n hn
    have hfew := hgoes.few
    rw [hleft, PollBounds.looks, Option.mem_def.mp hn] at hfew
    dsimp only at hfew
    omega
  · exact hgoes.first
  · exact hgoes.tells
  · intro round hround limit hlimit hfinite
    exact PollBounds.lt_of_not_isOver hfinite (hgoes.early round hround) limit hlimit
  · intro wait hwait
    exact PollBounds.allows_of_pause (hgoes.paused wait hwait)

/-- **The deeds of a poll**, told as looks and waits. -/
theorem pollUntilDone_tells
    (h : Program.Course pace step t (pollUntilDone look sleep b).outcome ds (some (.ok result, u))) :
    ∃ h : PollHistory, h.Tells pace step look sleep t ds u ∧ h.Keeps b result := by
  obtain ⟨left, hleft⟩ := Nat.exists_eq_succ_of_ne_zero b.looks_ne_zero
  unfold pollUntilDone at h
  rw [hleft] at h
  have h : Program.Course pace step t ((Program.call .clock).bind fun started =>
      (pollLoop look sleep b started (left + 1) 0).outcome) ds (some (.ok result, u)) := h
  cases h.of_bind with
  | both hstarted h =>
    obtain ⟨rounds, last, rest, es, fs, gs, t₁, t₂, rfl, hrounds, hlast, hrest, hgoes⟩ :=
      pollLoop_tells h
    refine ⟨_, ?_, hgoes.keeps hleft.symm⟩
    rw [← List.append_assoc, ← List.append_assoc]
    exact .mk hstarted hrounds hlast hrest

/-- **A poll comes to a result** when its numbers fit and its waits come to an end. -/
theorem pollUntilDone_ends (hfits : b.Fits) (hsleep : ∀ seconds, (sleep seconds).outcome.Ends (· = .ok ())) :
    (pollUntilDone look sleep b).outcome.Ends fun o => ∃ result, o = .ok result :=
  fun _ => pollLoop_ends hfits hsleep b.looks 0

end

section

variable {σ : Type} {R : σ → (c : Call) → c.Answer → σ → Prop} {P : σ → Call → Prop} {I : σ → Prop}
  {E : Observation → σ → Prop} {look : Action Observation} {sleep : Float → Action Unit} {b : PollBounds} {s : σ}

/-- **How a poll ends**, given what follows from the end that it has seen, and what holds as long as it has
    seen none. -/
inductive PollEnds (b : PollBounds) (E : Observation → Prop) (I : Prop) : Except Fault PollResult → Prop where
  | settled {o : Observation} {attempts : Nat} {elapsed : Float} (hdone : o.isDone = true) (ho : E o) :
      PollEnds b E I (.ok (.settled o attempts elapsed))
  | timedOut {last : Option Observation} {attempts : Nat} {elapsed : Float} (h : I) :
      PollEnds b E I (.ok (.timedOut last attempts elapsed))
  | failed {elapsed : Float} {f : Fault} (h : I) (hpause : b.pause? elapsed = .error f) : PollEnds b E I (.error f)

theorem elapsedSince_bind_heeds {α : Type} {started : Clock} {f : Float → Action α} {Q : Except Fault α → σ → Prop}
    {J : σ → Prop} (hclock : ∀ s, P s .clock) (hJ : ∀ s now s', J s → R s .clock now s' → J s')
    (hf : ∀ elapsed s, J s → (f elapsed).Heeds R P Q s) (hs : J s) : (elapsedSince started >>= f).Heeds R P Q s := by
  refine Action.heeds_bind (elapsedSince_heeds (fun s _ => hclock s) hJ hs) ?_ fun _ _ h => absurd h.2 (by simp)
  exact fun elapsed s' h => hf elapsed s' h.1

/-- **A poll ends with the first end it sees**: what holds before any end is seen holds as long as none is,
    by induction on the looks that are left. -/
theorem pollLoop_settles {started : Clock} {left attempts : Nat} (hclock : ∀ s, P s .clock)
    (hI : ∀ s now s', I s → R s .clock now s' → I s') (hE : ∀ v s now s', E v s → R s .clock now s' → E v s')
    (hlook : ∀ s, I s → look.Heeds R P
      (fun o s' => (∃ v, o = .ok v ∧ v.isDone = true ∧ E v s') ∨ (I s' ∧ ∀ v, o = .ok v → v.isDone = false)) s)
    (hsleep : ∀ seconds s, I s → (sleep seconds).Heeds R P (fun o s' => I s' ∧ o = .ok ()) s) (hs : I s) :
    (pollLoop look sleep b started left attempts).Heeds R P (fun o s' => PollEnds b (E · s') (I s') o) s := by
  induction left generalizing s attempts with
  | zero => exact elapsedSince_bind_heeds hclock hI (fun _ _ h => .timedOut h) hs
  | succ left ih =>
    unfold Action.Heeds
    rw [outcome_pollLoop]
    refine Program.heeds_bind (hlook s hs) fun shown s₁ hshown => ?_
    rcases hshown with ⟨v, rfl, hdone, hv⟩ | ⟨hs₁, hopen⟩
    · -- the end is seen
      refine ⟨hclock s₁, fun now s₂ hnow => ?_⟩
      show (afterLook look sleep b started left attempts (.ok v) _).Heeds R P _ s₂
      unfold afterLook
      rw [show (Except.ok v : Except Fault Observation).toOption.filter Observation.isDone = some v by
        simp [Except.toOption, hdone]]
      exact .settled hdone (hE v s₁ now s₂ hv hnow)
    · refine ⟨hclock s₁, fun now s₂ hnow => ?_⟩
      have hs₂ := hI s₁ now s₂ hs₁ hnow
      show (afterLook look sleep b started left attempts shown _).Heeds R P _ s₂
      unfold afterLook
      rw [show shown.toOption.filter Observation.isDone = none by
        cases shown with
        | error f => rfl
        | ok v => simp [Except.toOption, hopen v rfl]]
      dsimp only
      split
      · exact .timedOut hs₂
      · cases hpause : b.pause? (elapsedBetween started now) with
        | error f => exact .failed hs₂ hpause
        | ok pause =>
          cases pause with
          | none => exact .timedOut hs₂
          | some seconds =>
            refine Action.heeds_bind (a := sleep seconds) (hsleep seconds s₂ hs₂) ?_ fun _ _ h => absurd h.2 (by simp)
            rintro - s₃ ⟨hs₃, -⟩
            refine elapsedSince_bind_heeds hclock hI (fun elapsed s₄ hs₄ => ?_) hs₃
            split
            · exact .timedOut hs₄
            · exact ih hs₄

theorem pollUntilDone_settles (hclock : ∀ s, P s .clock) (hI : ∀ s now s', I s → R s .clock now s' → I s')
    (hE : ∀ v s now s', E v s → R s .clock now s' → E v s')
    (hlook : ∀ s, I s → look.Heeds R P
      (fun o s' => (∃ v, o = .ok v ∧ v.isDone = true ∧ E v s') ∨ (I s' ∧ ∀ v, o = .ok v → v.isDone = false)) s)
    (hsleep : ∀ seconds s, I s → (sleep seconds).Heeds R P (fun o s' => I s' ∧ o = .ok ()) s) (hs : I s) :
    (pollUntilDone look sleep b).Heeds R P (fun o s' => PollEnds b (E · s') (I s') o) s :=
  ⟨hclock s, fun now s' h => pollLoop_settles hclock hI hE hlook hsleep (hI s now s' hs h)⟩

end

/-- **A poll stops at the first end it sees, or at its bounds.** Whenever it returns, its deeds are looks
    and waits in turn: only the last look has shown the end, or none has; the result says what the last
    look showed and how many there were; and looks and waits keep to the bounds. When the number of looks
    is bounded and every wait returns, it returns, unless its numbers do not fit into doubles. -/
theorem poll_stops_at_first_end (pace : Clock → Clock → Prop) (step : Option StepPath)
    (look : Action Observation) (sleep : Float → Action Unit) (b : PollBounds) :
    (∀ t ds result u,
      Program.Course pace step t (pollUntilDone look sleep b).outcome ds (some (.ok result, u)) →
      ∃ h : PollHistory, h.Tells pace step look sleep t ds u ∧ h.Keeps b result)
    ∧ (∀ n, b.maxRetries = some n → b.Fits →
      (∀ seconds, (sleep seconds).outcome.Ends (· = .ok ())) →
      (pollUntilDone look sleep b).outcome.Ends fun o => ∃ result, o = .ok result) := by
  constructor
  · intro t ds result u h
    exact pollUntilDone_tells h
  · intro n _ hfits hsleep
    exact pollUntilDone_ends hfits hsleep

/-! ### A kettle -/

/-- A kettle that boils as soon as the clock has moved. -/
def lookAtKettle : Action Observation := do
  let now ← Action.call .clock
  return if now = 0 then { status := some "running" } else { status := some "completed", output := .int 100 }

/-- Three looks at most, within a quarter of a second, a tenth of a second apart. -/
def kettleBounds : PollBounds := ⟨100, some 250, some 3⟩

/-- The deeds of a look at each end of a wait. -/
def kettleDeeds : List Deed :=
  [⟨none, .clock, (0 : Clock), 0, 0⟩, ⟨none, .clock, (0 : Clock), 0, 0⟩, ⟨none, .clock, (0 : Clock), 0, 0⟩,
   ⟨none, .pause (Number.thousandths 100), (), 0, 100000⟩, ⟨none, .clock, (100000 : Clock), 100000, 100000⟩,
   ⟨none, .clock, (100000 : Clock), 100000, 100000⟩, ⟨none, .clock, (100000 : Clock), 100000, 100000⟩]

def kettleResult : PollResult :=
  .settled { status := some "completed", output := .int 100 } 2 (elapsedBetween 0 100000)

theorem kettle_fits : kettleBounds.Fits := by
  constructor
  · rintro limit hlimit
    obtain rfl : 250 = limit := Option.some.inj hlimit
    decide +kernel
  · decide +kernel

theorem kettle_pause :
    kettleBounds.pause? (elapsedBetween 0 0) = .ok (some (Number.thousandths 100)) := by
  rw [PollBounds.pause?_bounded (kettle_fits.remaining?_eq _), kettle_fits.interval_eq,
    if_neg (by decide +kernel), if_neg (by decide +kernel)]
  rfl

theorem kettle_course :
    Program.Course (fun _ _ => True) none 0
      (pollUntilDone lookAtKettle (fun s => Action.call (.pause s)) kettleBounds).outcome kettleDeeds
      (some (.ok kettleResult, 100000)) := by
  have hover : kettleBounds.isOver (elapsedBetween 0 100000) = false := by decide +kernel
  refine .ask trivial (Nat.le_refl 0) ?_
  show Program.Course _ _ _ (pollLoop lookAtKettle _ kettleBounds 0 (2 + 1) 0).outcome _ _
  rw [outcome_pollLoop]
  refine .ask trivial (Nat.le_refl 0) (.ask trivial (Nat.le_refl 0) ?_)
  show Program.Course _ _ _ (Action.ofExcept (kettleBounds.pause? (elapsedBetween 0 0)) >>= _).outcome _ _
  rw [kettle_pause]
  refine .ask trivial (Nat.zero_le _) (.ask trivial (Nat.le_refl _) ?_)
  show Program.Course _ _ _ (if kettleBounds.isOver (elapsedBetween 0 100000) then _ else _ :
    Action PollResult).outcome _ _
  rw [hover]
  show Program.Course _ _ _ (pollLoop lookAtKettle _ kettleBounds 0 (1 + 1) 1).outcome _ _
  rw [outcome_pollLoop]
  exact .ask trivial (Nat.le_refl _) (.ask trivial (Nat.le_refl _) .done)

/-- The kettle is looked at twice. -/
theorem kettle_boils :
    (∃ h : PollHistory, h.Tells (fun _ _ => True) none lookAtKettle (fun s => Action.call (.pause s)) 0
        kettleDeeds 100000 ∧ h.Keeps kettleBounds kettleResult)
      ∧ (pollUntilDone lookAtKettle (fun s => Action.call (.pause s)) kettleBounds).outcome.Ends
        fun o => ∃ result, o = .ok result := by
  obtain ⟨hreturns, hends⟩ := poll_stops_at_first_end (fun _ _ => True) none lookAtKettle
    (fun s => Action.call (.pause s)) kettleBounds
  exact ⟨hreturns 0 kettleDeeds kettleResult 100000 kettle_course,
    hends 3 rfl kettle_fits fun _ _ => rfl⟩

end Runbook
