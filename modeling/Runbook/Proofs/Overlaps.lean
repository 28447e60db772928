import Runbook.Proofs.Prompt
import Runbook.Proofs.Triggers

/-!
# `Proofs.Overlaps` — triggers of one job that overlap

Several callers may trigger one job. A call looks for the record of the job, writes it and sends its
request without being interrupted; then it waits, and until somebody replies, other calls begin, go on
and end. Whoever finds a record without the flag of failed triggers goes away again, also while the
first trigger is on its way. But the flag stays where it is while a failed trigger is sent again, so
that another call sends it, too; as long as no call begins at such a moment, at most one trigger is
accepted, in whatever order calls begin and replies arrive.

## Contents
- **Programs up to a request.** `Stage` and `Program.untilReply`, which agrees with `Program.runAlone`.
- **Calls that overlap.** `Client` and `Move`; `Client.run`, and `Client.retriesApart`.
- **The invariant.** `Client.Sound`, kept by `goOn` and by every move.
- **The result.** `Client.job_started_once`.
-/

namespace Runbook

/-! ## Programs up to a request -/

/-- How far a program gets by itself: to its end, or to a request that somebody replies to. -/
inductive Stage (α : Type) where
  | ended (a : α)
  | awaiting (r : Request) (next : Reply → Program α)

/-- What is left of a program. -/
def Stage.rest {α : Type} : Stage α → Program α
  | .ended a => .done a
  | .awaiting r next => .ask (.request r) next

/-- Runs a program up to its next request. -/
def Program.untilReply {α : Type} : Program α → World → Stage α × World
  | .done a, w => (.ended a, w)
  | .ask (.request r) next, w => (.awaiting r next, w.record (.request r))
  | .ask c next, w =>
    match w.step c with
    | .now answer w | .turn answer w => (next answer).untilReply w
    | .timer due answer w => (next answer).untilReply { w with clock := w.clock.reach due }
    | .event _ seconds answer w =>
      (next (answer none)).untilReply { w with clock := w.clock.wait (seconds.getD 0.0) }

/-- The reply of the scripted remote side, and the world when it arrives. -/
def World.scripted (w : World) (r : Request) : Reply × World :=
  let (reply, remote) := w.remote.answer r
  let clock := if 0.0 < reply.delayMs then w.clock.reach (w.clock.alarm (reply.delayMs / 1000.0)) else w.clock
  (reply, { w with remote, clock })

/-- Run alone, a program goes on with the scripted replies. -/
theorem Program.runAlone_eq {α : Type} (p : Program α) (w : World) :
    p.runAlone w =
      match p.untilReply w with
      | (.ended a, w) => (a, w)
      | (.awaiting r next, w) => (next (w.scripted r).1).runAlone (w.scripted r).2 := by
  induction p generalizing w with
  | done a => rfl
  | ask c next ih =>
    cases c with
    | request r =>
      simp only [runAlone, untilReply, World.step, World.reply, World.scripted]
      by_cases hdelay : 0.0 < ((w.record (.request r)).remote.answer r).1.delayMs
      · simp only [if_pos hdelay]
      · simp only [if_neg hdelay]
    | _ =>
      simp only [runAlone, untilReply]
      generalize w.step _ = progress
      cases progress <;> exact ih ..

section

variable {α : Type} {id : String} {n : Nat} {w : World} {P : JobView × Nat → Call → Prop}
  {Q : α → JobView × Nat → Prop}

/-- **The calls of a trigger** of a job. -/
inductive Call.Triggers (id : String) : Call → Prop where
  | clock : Triggers id .clock
  | getJob : Triggers id (.store (.getJob id))
  | setJob {updates : Keyed Value} : Triggers id (.store (.setJob id updates))
  | request {r : Request} : Triggers id (.request r)

/-- What the world answers to a call of a trigger changes its job as `TriggerStep` says. -/
theorem World.triggerStep {c : Call} {answer : c.Answer} {w' : World} (hc : c.Triggers id)
    (hinside : c.isOutside = false) (hstep : w.step c = .now answer w') (n : Nat) :
    TriggerStep id (w.jobView id, n) c answer (w'.jobView id, n) := by
  have hanswers : w.Answers ⟨none, c, answer, w.clock, w.clock⟩ w' :=
    .inside hinside (Nat.le_refl _) hstep
  cases hc with
  | clock =>
    rw [hanswers.jobView_eq (.inl rfl)]
    exact ⟨.other rfl, rfl, rfl⟩
  | getJob => exact ⟨hanswers.jobStep_getJob, rfl, rfl⟩
  | setJob => exact ⟨hanswers.jobStep_setJob, rfl, rfl⟩
  | request => exact absurd hinside (by simp [Call.isOutside])

/-- **Up to its next request a program heeds what it heeds.** -/
theorem Program.untilReply_heeds {p : Program α} (hmakes : p.Makes (Call.Triggers id))
    (hp : p.Heeds (TriggerStep id) P Q (w.jobView id, n)) :
    (p.untilReply w).1.rest.Makes (Call.Triggers id)
      ∧ (p.untilReply w).1.rest.Heeds (TriggerStep id) P Q ((p.untilReply w).2.jobView id, n) := by
  induction p generalizing w with
  | done a => exact ⟨trivial, hp⟩
  | ask c next ih =>
    -- all calls of a trigger but its request are answered at once
    have hgoesOn {answer : c.Answer} {w' : World} (hinside : c.isOutside = false)
        (hstep : w.step c = .now answer w') :=
      ih answer (hmakes.2 answer) (hp.2 answer _ (w.triggerStep hmakes.1 hinside hstep n))
    cases hmakes.1 with
    | request => exact ⟨hmakes, hp⟩
    | clock => exact hgoesOn rfl rfl
    | getJob => exact hgoesOn rfl rfl
    | setJob => exact hgoesOn rfl rfl

end

/-! ## Calls that overlap -/

/-- **Calls of one client**: those that wait for a reply, what was replied to those that went on, and what
    those that ended have returned. -/
structure Client where
  world : World
  waiting : List (Request × (Reply → Program (Except Fault DispatchResult))) := []
  answered : List (Request × Reply) := []
  returned : List (Except Fault DispatchResult) := []

/-- What can happen next. -/
inductive Move where
  /-- A call begins. -/
  | call (worker : String) (input : Value) (awaits : Bool) (context : Value)
  /-- One of the calls that wait gets its reply. -/
  | reply (index : Nat) (reply : Reply)
  /-- Time passes. -/
  | pass (time : Nat)

namespace Client

/-- Lets a call go on until it waits or ends. -/
def goOn (c : Client) (p : Program (Except Fault DispatchResult)) : Client :=
  match p.untilReply c.world with
  | (.ended o, world) => { c with world, returned := c.returned ++ [o] }
  | (.awaiting r next, world) => { c with world, waiting := c.waiting ++ [(r, next)] }

/-- How many requests were accepted. -/
def accepted (c : Client) : Nat :=
  c.answered.countP fun (_, reply) => reply.response.toOption.any Response.isSuccess

/-- Whether the record of a job asks for another trigger. -/
def asksAgain (c : Client) (jobId : String) : Bool :=
  match c.world.stores.jobs.get jobId with
  | .ok (some r) => Dispatch.isUntriggered r
  | _ => false

variable (settings : DispatchSettings) (jobId : String)

/-- What happens next; all calls are for one job. -/
def move (c : Client) : Move → Client
  | .call worker input awaits context =>
    c.goOn (Dispatch.triggerWorker settings worker input (some jobId) awaits context).outcome
  | .reply index reply =>
    match c.waiting[index]? with
    | none => c
    | some (r, next) =>
      { c with
        waiting := c.waiting.eraseIdx index
        answered := c.answered ++ [(r, reply)] }.goOn (next reply)
  | .pass time => { c with world := { c.world with clock := c.world.clock + time } }

/-- One move after the other. -/
def run (c : Client) (moves : List Move) : Client := moves.foldl (move settings jobId) c

/-- Whether a call may begin: nobody waits, or the record does not ask for another trigger. -/
def mayBegin (c : Client) : Move → Bool
  | .call .. => c.waiting.isEmpty || !c.asksAgain jobId
  | _ => true

/-- Whether no call begins while a failed trigger is sent again. -/
def retriesApart : Client → List Move → Bool
  | _, [] => true
  | c, m :: rest => c.mayBegin jobId m && retriesApart (c.move settings jobId m) rest

/-! ### The invariant -/

variable {settings jobId} {c : Client} {s s' : JobView × Nat}

/-- **A settled job**: at most one trigger was accepted, and after that the job is spent. -/
def Settled (s : JobView × Nat) : Prop := s.2 ≤ 1 ∧ (s.2 = 1 → s.1.Spent)

theorem Settled.spends (hs : Settled s) (h : Spends s s') : Settled s' := by
  obtain ⟨hle, hspent⟩ := hs
  rcases h with ⟨hcount, hkeeps⟩ | ⟨hcount, hunspent, hspent'⟩
  · exact ⟨hcount ▸ hle, fun h => hkeeps (hspent (hcount ▸ h))⟩
  · have hzero : s.2 ≠ 1 := fun h => hunspent (hspent h)
    exact ⟨by omega, fun _ => hspent'⟩

/-- What a client knows of the job, and how many requests were accepted. -/
def view (c : Client) (jobId : String) : JobView × Nat := (c.world.jobView jobId, c.accepted)

/-- **What is so after every move**: nobody waits and the job is settled; or one call waits, which began
    when the job was settled, and sees to it that it will be. -/
inductive Sound (jobId : String) (c : Client) : Prop where
  | idle (hwaiting : c.waiting = []) (hsettled : Settled (c.view jobId))
  | busy {r : Request} {next : Reply → Program (Except Fault DispatchResult)} {s : JobView × Nat}
      (hwaiting : c.waiting = [(r, next)]) (hs : Settled s)
      (hmakes : (Program.ask (.request r) next).Makes (Call.Triggers jobId))
      (hheeds : (Program.ask (.request r) next).Heeds (TriggerStep jobId) (Posts s)
        (fun _ => Settled) (c.view jobId))

/-- While a call waits, nothing has been accepted. -/
theorem Settled.of_posts {r : Request} (hs : Settled s) (h : Posts s s' (.request r)) : s'.2 = 0 := by
  obtain ⟨-, hunspent, -, hcount⟩ := h r rfl
  have hzero : s.2 ≠ 1 := fun h => hunspent (hs.2 h)
  have hle := hs.1
  omega

theorem Sound.accepted_le (h : c.Sound jobId) : c.accepted ≤ 1 := by
  cases h with
  | idle _ hsettled => exact hsettled.1
  | busy _ hs _ hheeds =>
    have hzero : c.accepted = 0 := hs.of_posts hheeds.1
    omega

/-- A call goes on while no other waits. -/
theorem Sound.goOn {p : Program (Except Fault DispatchResult)} (hwaiting : c.waiting = [])
    (hs : Settled s) (hmakes : p.Makes (Call.Triggers jobId))
    (hheeds : p.Heeds (TriggerStep jobId) (Posts s) (fun _ => Settled) (c.view jobId)) :
    (c.goOn p).Sound jobId := by
  obtain ⟨hrest, hlater⟩ := p.untilReply_heeds hmakes hheeds
  unfold Client.goOn
  generalize p.untilReply c.world = reached at hrest hlater ⊢
  obtain ⟨stage, world⟩ := reached
  cases stage with
  | ended o => exact .idle hwaiting hlater
  | awaiting r next => exact .busy (by rw [hwaiting]; rfl) hs hrest hlater

section

variable (settings : DispatchSettings) (worker : String) (input : Value) (awaits : Bool) (context : Value)

theorem makes_call (hid : jobId ≠ "") :
    (Dispatch.triggerWorker settings worker input (some jobId) awaits context).outcome.Makes
      (Call.Triggers jobId) :=
  Dispatch.makes_triggerWorker (fun _ => .request) hid .clock .getJob fun _ => .setJob

/-- A call that begins when its job is spent ends without having sent anything. -/
theorem goOn_of_spent (hid : jobId ≠ "") (hspent : (c.world.jobView jobId).Spent) :
    ∃ world o, c.goOn (Dispatch.triggerWorker settings worker input (some jobId) awaits context).outcome
        = { c with world, returned := c.returned ++ [o] }
      ∧ world.jobView jobId = c.world.jobView jobId := by
  obtain ⟨-, hlater⟩ := Program.untilReply_heeds (w := c.world) (n := c.accepted)
    (makes_call settings worker input awaits context hid) (triggerWorker_heeds hid)
  unfold Client.goOn
  generalize Program.untilReply _ c.world = reached at hlater ⊢
  obtain ⟨stage, world⟩ := reached
  cases stage with
  | ended o => exact ⟨world, o, rfl, congrArg Prod.fst (hlater.2.1 hspent)⟩
  | awaiting r next =>
    -- it would send a request, which nobody does whose job is spent
    exact absurd hspent (hlater.1 r rfl).2.1

end

/-- While a call waits, a record that does not ask for another trigger is that of a spent job. -/
theorem spent_of_not_asksAgain (hfound : (c.world.jobView jobId).found ≠ .ok none)
    (hagain : c.asksAgain jobId = false) : (c.world.jobView jobId).Spent := by
  refine ⟨hfound, fun r hr hflag => ?_⟩
  rw [World.found_jobView] at hr
  simp only [asksAgain, hr] at hagain
  rw [JobRecord.isUntriggered_iff.mpr hflag] at hagain
  exact absurd hagain (by simp)

/-- **Every move keeps the invariant**, when a call may begin that does. -/
theorem Sound.move (h : c.Sound jobId) (hid : jobId ≠ "") {m : Move} (hmay : c.mayBegin jobId m = true) :
    (c.move settings jobId m).Sound jobId := by
  cases m with
  | call worker input awaits context =>
    cases h with
    | idle hwaiting hsettled =>
      refine .goOn hwaiting hsettled (makes_call settings worker input awaits context hid) ?_
      exact Action.heeds_weaken (triggerWorker_heeds hid) fun _ _ h => hsettled.spends h.1
    | @busy r next s hwaiting hs hmakes hheeds =>
      -- the other call leaves the job alone, and the one that waits goes on waiting
      have hagain : c.asksAgain jobId = false := by simpa [mayBegin, hwaiting] using hmay
      have hspent := spent_of_not_asksAgain (hheeds.1 r rfl).2.2.1 hagain
      obtain ⟨world, o, hmove, hview⟩ := goOn_of_spent settings worker input awaits context hid hspent
      change (c.goOn _).Sound jobId
      rw [hmove]
      refine .busy hwaiting hs hmakes ?_
      change Program.Heeds _ _ _ _ (world.jobView jobId, c.accepted)
      rw [hview]
      exact hheeds
  | reply index reply =>
    cases h with
    | idle hwaiting hsettled =>
      have hmove : c.move settings jobId (.reply index reply) = c := by simp [Client.move, hwaiting]
      rw [hmove]
      exact .idle hwaiting hsettled
    | @busy r next s hwaiting hs hmakes hheeds =>
      cases index with
      | succ index =>
        have hmove : c.move settings jobId (.reply (index + 1) reply) = c := by
          simp [Client.move, hwaiting]
        rw [hmove]
        exact .busy hwaiting hs hmakes hheeds
      | zero =>
        -- the call that waits goes on; what was replied to it counts from now on
        have hmove : c.move settings jobId (.reply 0 reply)
            = { c with waiting := [], answered := c.answered ++ [(r, reply)] }.goOn (next reply) := by
          simp [Client.move, hwaiting]
        have hmethod : r.method = "POST" := (hheeds.1 r rfl).1
        rw [hmove]
        refine .goOn rfl hs (hmakes.2 reply) (hheeds.2 reply _ ⟨.other rfl, ?_, ?_⟩)
        · simp [Call.leavesFlag, hmethod]
        · simp only [view, Client.accepted, Call.accepted, hmethod, List.countP_append,
            List.countP_singleton, beq_self_eq_true, Bool.true_and]
          cases reply.response.toOption.any Response.isSuccess <;> rfl
  | pass time =>
    cases h with
    | idle hwaiting hsettled => exact .idle hwaiting hsettled
    | busy hwaiting hs hmakes hheeds => exact .busy hwaiting hs hmakes hheeds

/-- **Any moves keep the invariant**, when no call begins while a failed trigger is sent again. -/
theorem Sound.run (h : c.Sound jobId) (hid : jobId ≠ "") {moves : List Move}
    (hapart : c.retriesApart settings jobId moves = true) : (c.run settings jobId moves).Sound jobId := by
  induction moves generalizing c with
  | nil => exact h
  | cons m rest ih =>
    obtain ⟨hmay, hrest⟩ := Bool.and_eq_true_iff.mp hapart
    exact ih (h.move hid hmay) hrest

/-! ## The result -/

/-- **A job is not started twice by calls that overlap.** Take any world, and any calls for one job that
    begin, get their replies and go on in any order. If none of them begins while a failed trigger is being
    sent again, at most one of their requests is accepted. -/
theorem job_started_once (hid : jobId ≠ "") (w : World) (moves : List Move)
    (hapart : retriesApart settings jobId { world := w } moves = true) :
    (run settings jobId { world := w } moves).accepted ≤ 1 := by
  have hidle : Sound jobId { world := w } :=
    .idle rfl ⟨Nat.zero_le 1, fun h => absurd h (by simp [view, accepted])⟩
  exact (hidle.run hid hapart).accepted_le

/-- A call for a resize job. -/
def resize : Move := .call "resize" .null true .null

/-- The request of the call that has waited longest gets a response with a status. -/
def respond (status : Nat) : Move := .reply 0 { response := .ok ⟨status, "", .object []⟩ }

/-- A first trigger is refused, a second one accepted; three other calls find nothing to do. -/
def resizeRetried : List Move :=
  [resize, resize, respond 500, .pass 1000, resize, respond 202, resize, resize]

/-- Of the two triggers that were sent one was accepted. -/
theorem resize_accepted_once :
    retriesApart {} "job" { world := {} } resizeRetried = true
      ∧ (run {} "job" { world := {} } resizeRetried).answered.length = 2
      ∧ (run {} "job" { world := {} } resizeRetried).accepted ≤ 1 :=
  have hapart : retriesApart {} "job" { world := {} } resizeRetried = true := by decide +kernel
  ⟨hapart, by decide +kernel, job_started_once (by decide) {} resizeRetried hapart⟩

/-- Two calls that send a failed trigger again at the same time are both accepted. -/
example : (run {} "job" { world := {} }
    [resize, respond 500, resize, resize, respond 202, respond 202]).accepted = 2 := by decide +kernel

end Client

end Runbook
