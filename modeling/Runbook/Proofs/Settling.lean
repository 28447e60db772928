import Runbook.Proofs.Pipelines

/-!
# `Proofs.Settling` — a queue that is carried out settles

A queue looks for the end of each step a bounded number of times, and notes whatever becomes of the step. So
it comes to its end, and its record says that it is completed or has failed. What can go wrong on the way is
that something cannot be noted: an input or an output that is no JSON, where documents are kept; a poll with
numbers that are too large; and the error that a worker reports, when it is a mapping that does not read as
one. Where a remote side follows a script whose errors read as such, nothing goes wrong.

## Contents
- **Runs alone.** `World.alone`, what a call makes of a world when nobody else is running, and
  `Program.runAlone_heeds`.
- **Scripts.** `Remote.Legible`, scripts whose replies can be taken down.
- **The result.** `runQueue_settles`.
-/

namespace Runbook

/-! ## Runs alone -/

/-- The world in which a call was answered, or waits for its answer. -/
def Progress.world {α : Type} : Progress α → World
  | .now _ w | .timer _ _ w | .turn _ w | .event _ _ _ w => w

/-- The answer when nobody else is running, and the world then. -/
def Progress.alone {α : Type} : Progress α → α × World
  | .now answer w | .turn answer w => (answer, w)
  | .timer due answer w => (answer, { w with clock := w.clock.reach due })
  | .event _ seconds answer w => (answer none, { w with clock := w.clock.wait (seconds.getD 0.0) })

/-- What is answered to a call when nobody else is running, and the world then. -/
def World.alone (w : World) (c : Call) : c.Answer × World := (w.step c).alone

theorem Program.runAlone_ask {α : Type} (c : Call) (next : c.Answer → Program α) (w : World) :
    (Program.ask c next).runAlone w = (next (w.alone c).1).runAlone (w.alone c).2 := by
  simp only [runAlone, World.alone]
  cases w.step c <;> rfl

/-- **Worlds that differ in little**: time may have passed, and something was seen. -/
structure World.Alike (w w' : World) : Prop where
  clock : w.clock ≤ w'.clock
  attempt : w'.attempt = w.attempt
  stores : w'.stores = w.stores
  ids : w'.idsGiven = w.idsGiven

/-- While a call waits, nothing happens but that time passes. -/
theorem Progress.alike_alone {α : Type} {p : Progress α} {w : World} (h : w.Alike p.world) :
    w.Alike p.alone.2 := by
  cases p with
  | now | turn => exact h
  | timer => exact ⟨Nat.le_trans h.clock (Clock.le_reach ..), h.attempt, h.stores, h.ids⟩
  | event => exact ⟨Nat.le_trans h.clock (Clock.le_wait ..), h.attempt, h.stores, h.ids⟩

theorem Progress.remote_alone {α : Type} (p : Progress α) : p.alone.2.remote = p.world.remote := by
  cases p <;> rfl

namespace World

variable (w : World)

/-- Calls that somebody else answers change little. -/
theorem alike_step {c : Call} (hc : c.isOutside = true) : w.Alike (w.step c).world := by
  have hsame {w' : World} (hclock : w'.clock = w.clock) (hattempt : w'.attempt = w.attempt)
      (hstores : w'.stores = w.stores) (hids : w'.idsGiven = w.idsGiven) : w.Alike w' :=
    ⟨Nat.le_of_eq hclock.symm, hattempt, hstores, hids⟩
  cases c <;> simp only [Call.isOutside, Bool.false_eq_true] at hc
  case request r =>
    simp only [step, reply]
    split <;> exact hsame rfl rfl rfl rfl
  case pause seconds =>
    simp only [step, after]
    split <;> exact hsame rfl rfl rfl rfl
  case hostSleep seconds =>
    simp only [step, hostSleep]
    split
    · exact hsame rfl rfl rfl rfl
    · split <;> exact hsame rfl rfl rfl rfl
  case awaitEvent token seconds =>
    simp only [step, awaitEvent]
    split <;> exact hsame rfl rfl rfl rfl
  case sendEvent token event => exact hsame rfl rfl rfl rfl

/-- **Alone as in company**: what is answered to a call is what a world can answer. -/
theorem answers_alone (c : Call) :
    w.Answers ⟨none, c, (w.alone c).1, (w.alone c).2.clock, (w.alone c).2.clock⟩ (w.alone c).2 := by
  cases hc : c.isOutside with
  | true =>
    have halike : w.Alike (w.alone c).2 := Progress.alike_alone (w.alike_step hc)
    exact .outside hc halike.clock rfl halike.attempt halike.stores halike.ids
  | false =>
    obtain ⟨answer, w', hstep, hclock⟩ := w.step_of_not_isOutside hc
    have halone : w.alone c = (answer, w') := by rw [alone, hstep]; rfl
    rw [halone]
    refine .inside hc (Nat.le_of_eq hclock.symm) ?_
    rw [show ({ w with clock := w'.clock } : World) = w by rw [hclock], hstep]

theorem le_clock_alone (c : Call) : w.clock ≤ (w.alone c).2.clock := (w.answers_alone c).clock_le

/-- The remote side goes on with the same script. -/
theorem replies_alone (c : Call) : (w.alone c).2.remote.replies = w.remote.replies := by
  rw [alone, Progress.remote_alone]
  cases c
  case request r => simp only [step, reply]; split <;> rfl
  case pause seconds => simp only [step, after]; split <;> rfl
  case hostSleep seconds =>
    simp only [step, hostSleep]
    split
    · rfl
    · split <;> rfl
  case awaitEvent token seconds => simp only [step, awaitEvent]; split <;> rfl
  case amend path fields => simp only [step, amend]; split <;> rfl
  case saveCheckpoint id => simp only [step, saveCheckpoint]; split <;> rfl
  all_goals rfl

theorem alone_request (r : Request) : (w.alone (.request r)).1 = (w.remote.answer r).1 := by
  simp only [alone, step, reply]
  split <;> rfl

end World

/-! ## Scripts -/

/-- A reply of success that can be taken down. -/
def Reply.Legible (b : Backend) (reply : Reply) : Prop :=
  ∀ response, reply.response = .ok response → response.isSuccess = true → response.Legible b

/-- **A script that can be taken down**: all of its replies to looks can. -/
def Remote.Legible (b : Backend) (remote : Remote) : Prop :=
  ∀ r : Request, r.method = "GET" →
    ∀ reply ∈ (remote.replies.get? (remote.listFor r.target)).getD [], reply.Legible b

theorem Remote.Legible.answer {b : Backend} {remote : Remote} (h : remote.Legible b) {r : Request}
    (hr : r.method = "GET") : (remote.answer r).1.Legible b := by
  have hunrouted : Reply.unrouted.Legible b := by
    intro response hresponse hsuccess
    obtain rfl := Except.ok.inj hresponse
    exact absurd hsuccess (by decide)
  have hlist := h r hr
  simp only [Remote.answer]
  generalize (remote.replies.get? (remote.listFor r.target)).getD [] = replies at hlist
  generalize (remote.taken.get? (remote.listFor r.target)).getD 0 = count
  cases hnth : replies[count]? with
  | some reply => exact hlist reply (List.mem_of_getElem? hnth)
  | none =>
    cases hlast : replies.getLast? with
    | some reply => exact hlist reply (List.mem_of_getLast? hlast)
    | none => exact hunrouted

theorem Remote.Legible.of_replies_eq {b : Backend} {remote remote' : Remote} (h : remote.Legible b)
    (heq : remote'.replies = remote.replies) : remote'.Legible b := by
  unfold Legible listFor
  rw [heq]
  exact h

/-! ## The result -/

section

variable {α : Type} {b : Backend} {P : Seen → Call → Prop} {Q : α → Seen → Prop}

theorem Program.le_clock_runAlone (p : Program α) (w : World) : w.clock ≤ (p.runAlone w).2.clock := by
  induction p generalizing w with
  | done a => exact Nat.le_refl _
  | ask c next ih =>
    rw [runAlone_ask]
    exact Nat.le_trans (w.le_clock_alone c) (ih _ _)

/-- **What a program makes sure of where everything works** it does when it runs alone, by induction on the
    program: its looks get replies of the script, and there is time to the end. -/
theorem Program.runAlone_heeds {p : Program α} {w : World} {xs : List Exchange}
    (hp : p.Heeds (Seen.Step True b) P Q ⟨w, xs⟩) (hscript : w.remote.Legible b)
    (htime : b ≠ .memory → (p.runAlone w).2.clock < Stamp.lastMicro) :
    ∃ ys, Q (p.runAlone w).1 ⟨(p.runAlone w).2, ys⟩ := by
  induction p generalizing w xs with
  | done a => exact ⟨xs, hp⟩
  | ask c next ih =>
    rw [runAlone_ask] at htime ⊢
    refine ih _ (hp.2 _ ⟨_, xs ++ (c.exchange? (w.alone c).1).toList⟩
      ⟨⟨_, _, _, w.answers_alone c⟩, rfl, fun _ => ?_, fun _ hb => ?_⟩)
      (hscript.of_replies_eq (w.replies_alone c)) htime
    · -- only looks have to be legible, and their replies are in the script
      cases c with
      | request r =>
        intro hget
        rw [w.alone_request r]
        exact hscript.answer hget
      | _ => trivial
    · -- the clock goes forward, so there is time now if there is at the end
      exact Stamp.proper_ofMicros (Nat.lt_of_le_of_lt (Program.le_clock_runAlone _ _) (htime hb))

end

/-- **A poll whose numbers are not too large.** -/
structure PollDefaults.Fits (d : PollDefaults) : Prop where
  timeout : Number.isBeyondDoubles d.timeoutMs.natAbs = false
  interval : Number.isBeyondDoubles (d.intervalMs.natAbs / 1000) = false

/-- The waits between two looks can be computed. -/
theorem PollDefaults.Fits.pauses {d : PollDefaults} (h : d.Fits) (elapsed : Float) :
    ∃ pause, d.toBounds.pause? elapsed = .ok pause := by
  have hinterval : ∃ seconds, d.toBounds.interval = .ok seconds := by
    unfold PollBounds.interval PollDefaults.toBounds
    simp only [h.interval, Bool.false_eq_true, if_false]
    exact ⟨_, rfl⟩
  have hremaining : ∃ left, d.toBounds.remaining? elapsed = .ok (some left) := by
    unfold PollBounds.remaining? PollDefaults.toBounds
    simp only [h.timeout, Bool.false_eq_true, if_false]
    exact ⟨_, rfl⟩
  obtain ⟨seconds, hseconds⟩ := hinterval
  obtain ⟨left, hleft⟩ := hremaining
  unfold PollBounds.pause?
  simp only [hleft, hseconds, bind, Except.bind]
  generalize Number.compareInt? _ _ = order
  split
  · exact ⟨_, rfl⟩
  · split <;> exact ⟨_, rfl⟩

section

variable {settings : DispatchSettings} {functions : Functions} {poll : PollDefaults}
  {definition : QueueDefinition} {initial : Value} {id : Option String} {w : World}

/-- **A queue that is carried out settles.** Take any definition with a step, any first input, any mapping
    functions, which may fail, any remote side that follows a script, and stores that are open. When the errors
    that come with failures read as such, and the numbers of the poll are not too large, the queue returns its
    record, which is completed or has failed, and is what the store keeps. Where documents are kept, this takes
    that the inputs and the replies can be written down, and the time as well, and that a record that is replaced
    can be read if it has to be. -/
theorem runQueue_settles (hne : definition.steps ≠ []) (hopen : w.stores.isOpen = true)
    (hreplaceable : ∀ id, w.stores.queues.Replaceable id)
    (hscript : w.remote.Legible w.stores.queues.backend) (hpoll : poll.Fits)
    (hplain : w.stores.queues.backend ≠ .memory → initial.unwritable? = none
      ∧ ∀ ref outputs v, functions.ofQueue ref initial outputs = .ok v → v.unwritable? = none)
    (htime : w.stores.queues.backend ≠ .memory →
      ((runQueue settings functions poll definition initial id).outcome.runAlone w).2.clock
        < Stamp.lastMicro) :
    ∃ r w', (runQueue settings functions poll definition initial id).outcome.runAlone w = (.ok (some r), w')
      ∧ (r.status = .completed ∨ r.status = .failed) ∧ w'.stores.queues.get r.id = .ok (some r) := by
  have hfit (id : String) : (QueueRun.mk settings functions poll definition initial id).Workable
      w.stores.queues.backend :=
    ⟨fun hb => (hplain hb).1, fun hb => (hplain hb).2, hpoll.pauses⟩
  have hruns : Action.Secures True w.stores.queues.backend _ _ ⟨w, []⟩ :=
    runQueue_secures settings functions poll definition initial id hne (fun _ => hfit) 
      (fun _ => ⟨hopen, rfl, hreplaceable⟩) rfl
  obtain ⟨ys, hend⟩ := Program.runAlone_heeds hruns hscript htime
  generalize (runQueue settings functions poll definition initial id).outcome.runAlone w = result at hend ⊢
  obtain ⟨outcome, w'⟩ := result
  cases outcome with
  | error f =>
    -- a fault would show that not everything works
    exact absurd trivial hend
  | ok found =>
    obtain ⟨r, begun, rfl, hended, hget⟩ := hend
    refine ⟨r, w', rfl, ?_, hget⟩
    rcases hended.ends.ended with ⟨hstatus, -⟩ | ⟨hstatus, -⟩
    · exact .inl hstatus
    · exact .inr hstatus

end

/-- The replies of a worker that is triggered, and then fails with an error. -/
def failingReplies (error : Value) : List Reply :=
  [{ response := .ok (.ofJson 200 (.object [])) },
   { response := .ok (.ofJson 200 (.object [("status", .text "failed"), ("error", error)])) }]

/-- A world with a database, and workers that fail with an error. -/
def failingWorld (error : Value) : World :=
  { stores := .empty .sqlite
    remote := { replies := [(Remote.shared, failingReplies error)] } }

/-- The thumbnails of a picture, as they are made in such a world. -/
def failingThumbnails (error : Value) : Except Fault (Option QueueRecord) × World :=
  (runQueue {} plainEngine.functions {} thumbnails (.text "cat.png") none).outcome.runAlone (failingWorld error)

/-- An error that is a text is noted. -/
theorem fullDisk_settles :
    ∃ r w', failingThumbnails (.text "disk full") = (.ok (some r), w')
      ∧ (r.status = .completed ∨ r.status = .failed) ∧ w'.stores.queues.get r.id = .ok (some r) := by
  have hscript : (failingWorld (.text "disk full")).remote.Legible .sqlite := by
    intro r _ reply hreply response hresponse _
    have hmem : reply ∈ failingReplies (.text "disk full") := by
      simp only [failingWorld, Keyed.get?] at hreply
      split at hreply
      · exact hreply
      · exact absurd hreply List.not_mem_nil
    simp only [failingReplies, List.mem_cons, List.not_mem_nil, or_false] at hmem
    rcases hmem with rfl | rfl <;> obtain rfl := Except.ok.inj hresponse
    · have hstatus : (Response.ofJson 200 (.object [])).json.getD "status" = .null := rfl
      exact ⟨fun _ => rfl, fun h => absurd (hstatus.symm.trans h) (by simp)⟩
    · exact ⟨fun _ => rfl, fun _ _ => ⟨_, rfl⟩⟩
  have htime : (failingThumbnails (.text "disk full")).2.clock < Stamp.lastMicro := by decide +kernel
  unfold failingThumbnails at htime ⊢
  refine runQueue_settles (by simp [thumbnails]) rfl (fun _ => nofun) hscript ⟨by decide +kernel, by decide +kernel⟩ ?_
    fun _ => htime
  refine fun _ => ⟨rfl, fun ref outputs v hv => ?_⟩
  exact Except.ok.inj hv ▸ rfl

/-- A mapping that does not read as an error cannot be noted: nothing is returned, and the record says for ever
    that the queue is running. -/
example :
    (failingThumbnails (.object [("code", .int 500)])).1.toOption.isNone = true
      ∧ ((failingThumbnails (.object [("code", .int 500)])).2.stores.queues.list none 1).toOption.map
          (List.map fun r => r.status.toValue.text?) = some [some "running"] := by
  decide +kernel

end Runbook
