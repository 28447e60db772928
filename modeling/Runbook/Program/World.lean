import Runbook.Host.Mailbox
import Runbook.Program.Basic

/-!
# `Program.World` — the world that programs run in

The world answers calls. It holds the clock, the remote side, the stores, the events, and the state
of the attempt, and it keeps a log of what an observer can see.

## Contents
- **The type.** `World`, with `record` for the log.
- **Parts.** `useStores`, `writeRun`, `saveCheckpoint`, `amend`, what calls do to the world.
- **Answers.** `Progress`, what becomes of a call, and `World.step`.
- **Sequential runs.** `Program.runAlone`, when nobody else is running.
-/

namespace Runbook

/-- How a host hands over events. -/
structure HostManner where
  /-- Whether the sender of an event learns that somebody took it. -/
  reportsDelivery : Bool := true
  /-- The shortest time that a wait takes, in seconds. -/
  shortestWait : Option Float := none

/-- The world that programs run in. -/
structure World where
  clock : Clock := 0
  /-- How many numbers were given out. -/
  idsGiven : Nat := 0
  remote : Remote := {}
  stores : Stores := .empty .memory
  manner : HostManner := {}
  mailbox : Mailbox Value := {}
  attempt : Attempt := ⟨"", 0, .start .null none false, []⟩
  /-- How many waits on the host are carried out before the process is stopped. -/
  sleepsLeft : Option Nat := none
  /-- What observers saw, the latest first. -/
  log : List LogEntry := []

namespace World

/-- The time as a stamp. -/
def stamp (w : World) : Stamp := .ofMicros w.clock

/-- The world after observers saw something. -/
def record (w : World) (e : Event) : World := { w with log := ⟨w.clock, e⟩ :: w.log }

/-- What observers saw, in order. -/
def seen (w : World) : List LogEntry := w.log.reverse

/-- Carries out an operation on the stores. -/
def useStores (w : World) (op : StoreOp) : Except Fault StoreAnswer × World :=
  let (answer, stores) := w.stores.perform w.stamp op
  (answer, { w with stores })

/-- Lays an update over a run record; that this fails is of no consequence. -/
def writeRun (w : World) (runId : String) (updates : Keyed Value) : World :=
  ((w.record (.runUpdate runId updates)).useStores (.setRun runId updates)).2

/-- Writes the attempt to a run record, unless it cannot be stored. -/
def saveCheckpoint (w : World) (runId : String) : World :=
  match w.attempt.checkpoint with
  | .ok data => w.writeRun runId [("metadata", .object [("checkpoint", data)])]
  | .error _ => w

/-- Adds to an entry of the journal. -/
def amend (w : World) (path : String) (fields : Keyed Value) : Except Fault Unit × World :=
  match w.attempt.withNote path fields with
  | .ok attempt => (.ok (), { w with attempt })
  | .error f => (.error f, w)

end World

/-- What becomes of a call. -/
inductive Progress (α : Type) where
  /-- It is answered at once. -/
  | now (answer : α) (w : World)
  /-- It is answered when a timer is due. -/
  | timer (due : Float) (answer : α) (w : World)
  /-- It is answered after the others had a turn. -/
  | turn (answer : α) (w : World)
  /-- It is answered by an event, or when time runs out. -/
  | event (token : String) (seconds : Option Float) (answer : Option Value → α) (w : World)

namespace World

/-- An answer after a wait. -/
def after {α : Type} (w : World) (seconds : Float) (answer : α) : Progress α :=
  if 0.0 < seconds then .timer (w.clock.alarm seconds) answer w else .turn answer w

/-- The reply to a request, after its delay. -/
def reply (w : World) (r : Request) : Progress Reply :=
  let w := w.record (.request r)
  let (reply, remote) := w.remote.answer r
  let w := { w with remote }
  if 0.0 < reply.delayMs then .timer (w.clock.alarm (reply.delayMs / 1000.0)) reply w
  else .now reply w

/-- A wait on the host; the last one that is left is never finished. -/
def hostSleep (w : World) (seconds : Float) : Progress (Except Fault Unit) :=
  let w := w.record (.sleep seconds)
  match w.sleepsLeft with
  | some 0 => .now (.error .restarted) { w with sleepsLeft := none }
  | left =>
    let w := { w with sleepsLeft := left.map (· - 1) }
    if 0.0 < seconds then .timer (w.clock.alarm seconds) (.ok ()) w else .now (.ok ()) w

/-- How long a wait for an event takes at most. -/
def patience (w : World) (seconds : Option Float) : Option Float :=
  match seconds, w.manner.shortestWait with
  | some s, some least => some (if s < least then least else s)
  | s, _ => s

/-- The next event of a token. -/
def awaitEvent (w : World) (token : String) (seconds : Option Float) : Progress (Option Value) :=
  match w.mailbox.take? token with
  | some (event, mailbox) => .now (some event) { w with mailbox }
  | none => .event token (w.patience seconds) id w

/-- What becomes of a call; sending is left to whoever knows the waiters. -/
def step (w : World) : (c : Call) → Progress c.Answer
  | .clock => .now w.clock w
  | .freshId => .now (w.idsGiven + 1) { w with idsGiven := w.idsGiven + 1 }
  | .request r => w.reply r
  | .pause seconds => w.after seconds ()
  | .hostSleep seconds => w.hostSleep seconds
  | .awaitEvent token seconds => w.awaitEvent token seconds
  | .sendEvent token event => .now false { w with mailbox := (w.mailbox.send token event).2 }
  | .store op => let (answer, w) := w.useStores op; .now answer w
  | .updateRun runId updates => .now () (w.writeRun runId updates)
  | .beginAttempt attempt => .now () { w with attempt }
  | .enterStep cursor base keepJournal =>
    .now () { w with attempt := w.attempt.enter cursor base keepJournal }
  | .recall path => .now (w.attempt.journal.get? path) w
  | .journal path entry => .now () { w with attempt := w.attempt.withEntry path (.object entry) }
  | .amend path fields => let (answer, w) := w.amend path fields; .now answer w
  | .saveCheckpoint runId => .now () (w.saveCheckpoint runId)
  | .report _ => .now () w
  | .note e => .now () (w.record e)

end World

/-- Runs a program when nobody else is running: waits move the clock, and an event that is not there
    yet never comes. -/
def Program.runAlone {α : Type} : Program α → World → α × World
  | .done a, w => (a, w)
  | .ask c next, w =>
    match w.step c with
    | .now answer w | .turn answer w => (next answer).runAlone w
    | .timer due answer w => (next answer).runAlone { w with clock := w.clock.reach due }
    | .event _ seconds answer w =>
      (next (answer none)).runAlone { w with clock := w.clock.wait (seconds.getD 0.0) }

end Runbook
