import Runbook.Program.World

/-!
# `Program.Scheduler` — fibers that share one world

Fibers take turns. A fiber whose turn it is runs until it has to wait; turns are taken in the
order in which they were asked for, and only when nobody asks for one does the clock move on, to the
alarm that is due first. Alarms that are due at the same time go off in the order in which they were
set.

## Contents
- **The type.** `Destination`, `Turn`, `Alarm`, `Listener`, `Group`, `Scheduler`.
- **Changes.** `enqueue`, `setAlarm`, `listen`, `send`, `spread`, `conclude`.
- **Turns.** `proceed`, a fiber up to its next wait; `wake`, the end of a wait; `take`, a turn; `ring?`,
  the next alarms.
- **Runs.** `settle`, as long as no time passes; `finish`, until the main fiber has ended.
-/

namespace Runbook

/-- Where the outcome of a fiber goes. -/
inductive Destination where
  /-- It is the outcome of the main fiber. -/
  | main
  /-- It is the outcome of one of the fibers of a group. -/
  | member (group index : Nat)
  /-- Nobody asks for it. -/
  | nowhere
  deriving DecidableEq, Repr

/-- What is done when it is a fiber's turn. A delay counts the turns that are let pass first. -/
inductive Turn (ρ : Type) where
  /-- The fiber goes on. -/
  | resume (delay : Nat) (dest : Destination) (p : Fiber ρ)
  /-- A listener goes on, whose wait has come to its end. -/
  | wake (delay : Nat) (token : String) (listener : Nat) (dest : Destination)
    (next : Option Value → Fiber ρ)
  /-- Time runs out for a listener. -/
  | expire (delay : Nat) (listener : Nat)
  /-- A fiber of a group has ended. -/
  | arrive (group : Nat)

/-- A turn that is asked for when it is due. -/
structure Alarm (ρ : Type) where
  due : Float
  turn : Turn ρ

/-- A fiber that waits for an event. -/
structure Listener (ρ : Type) where
  token : String
  dest : Destination
  /-- Whether there is an alarm that ends the wait. -/
  bounded : Bool
  next : Option Value → Fiber ρ

/-- A fiber that waits for the end of others. -/
structure Group (ρ : Type) where
  /-- How many of the others have not arrived. -/
  pending : Nat
  outcomes : List (Option ρ)
  dest : Destination
  next : List ρ → Fiber ρ

/-- Fibers that share one world. -/
structure Scheduler (ρ : Type) where
  world : World
  /-- The turns that were asked for, in order. -/
  ready : List (Turn ρ) := []
  /-- The alarms, in the order in which they were set. -/
  alarms : List (Alarm ρ) := []
  listeners : List (Nat × Listener ρ) := []
  groups : List (Nat × Group ρ) := []
  /-- How many listeners and groups there have been. -/
  numbered : Nat := 0
  /-- The outcome of the main fiber. -/
  outcome : Option ρ := none

namespace Scheduler

variable {ρ : Type}

/-! ## Changes -/

/-- Asks for a turn. -/
def enqueue (s : Scheduler ρ) (t : Turn ρ) : Scheduler ρ := { s with ready := s.ready ++ [t] }

/-- Asks for a turn when it is due. -/
def setAlarm (s : Scheduler ρ) (due : Float) (t : Turn ρ) : Scheduler ρ :=
  { s with alarms := s.alarms ++ [⟨due, t⟩] }

/-- Removes the alarm of a listener. -/
def cancelAlarm (s : Scheduler ρ) (listener : Nat) : Scheduler ρ :=
  { s with
    alarms := s.alarms.filter fun a =>
      match a.turn with
      | .expire _ other => other ≠ listener
      | _ => true }

/-- Adds a fiber that waits for an event. -/
def enlist (s : Scheduler ρ) (l : Listener ρ) : Scheduler ρ :=
  { s with
    numbered := s.numbered + 1
    listeners := (s.numbered, l) :: s.listeners
    world := { s.world with mailbox := s.world.mailbox.enlist l.token s.numbered } }

/-- Removes a fiber that waits for an event. -/
def withdraw (s : Scheduler ρ) (listener : Nat) : Scheduler ρ :=
  { s with listeners := s.listeners.filter fun l => l.1 ≠ listener }

/-- Lets a fiber wait for an event. Without patience it gives up before anything is sent. -/
def listen (s : Scheduler ρ) (token : String) (seconds : Option Float) (dest : Destination)
    (next : Option Value → Fiber ρ) : Scheduler ρ :=
  match seconds with
  | none => s.enlist ⟨token, dest, false, next⟩
  | some patience =>
    if 0.0 < patience then
      (s.enlist ⟨token, dest, true, next⟩).setAlarm (s.world.clock.alarm patience)
        (.expire 1 s.numbered)
    else s.enqueue (.resume 1 dest (next none))

/-- Ends the wait of a listener for whom time has run out. -/
def expire (s : Scheduler ρ) (listener : Nat) : Scheduler ρ :=
  match s.listeners.lookup listener with
  | none => s
  | some l =>
    { s.withdraw listener with
      world := { s.world with mailbox := s.world.mailbox.expire l.token listener } }.enqueue
      (.wake 1 l.token listener l.dest l.next)

/-- Sends an event; tells whether somebody took it, as far as the host reports this. -/
def send (s : Scheduler ρ) (token : String) (event : Value) : Bool × Scheduler ρ :=
  match s.world.mailbox.send token event with
  | (none, mailbox) => (false, { s with world := { s.world with mailbox } })
  | (some listener, mailbox) =>
    let sent : Scheduler ρ := { s with world := { s.world with mailbox } }
    let sent :=
      match s.listeners.lookup listener with
      | none => sent
      | some l =>
        ((sent.withdraw listener).cancelAlarm listener).enqueue
          (.wake (if l.bounded then 1 else 0) l.token listener l.dest l.next)
    (s.world.manner.reportsDelivery, sent)

/-- Lets fibers run side by side. -/
def spread (s : Scheduler ρ) (branches : List (Fiber ρ)) (dest : Destination)
    (next : List ρ → Fiber ρ) : Scheduler ρ :=
  { s with
    numbered := s.numbered + 1
    groups := (s.numbered, ⟨branches.length, branches.map fun _ => none, dest, next⟩) :: s.groups
    ready := s.ready ++ branches.mapIdx fun i p => .resume 0 (.member s.numbered i) p }

/-- Changes a group. -/
def updateGroup (s : Scheduler ρ) (group : Nat) (change : Group ρ → Group ρ) : Scheduler ρ :=
  { s with groups := s.groups.map fun (n, g) => if n = group then (n, change g) else (n, g) }

/-- Hands over the outcome of a fiber that has ended. -/
def conclude (s : Scheduler ρ) (dest : Destination) (outcome : ρ) : Scheduler ρ :=
  match dest with
  | .main => { s with outcome := some outcome }
  | .nowhere => s
  | .member group index =>
    (s.updateGroup group fun g => { g with outcomes := g.outcomes.set index (some outcome) }).enqueue
      (.arrive group)

/-- Notes that a fiber of a group has ended; after the last one the waiting fiber goes on. -/
def arrive (s : Scheduler ρ) (group : Nat) : Scheduler ρ :=
  match s.groups.lookup group with
  | none => s
  | some g =>
    if g.pending ≤ 1 then
      { s with groups := s.groups.filter fun other => other.1 ≠ group }.enqueue
        (.resume 0 g.dest (g.next (g.outcomes.filterMap id)))
    else s.updateGroup group fun g => { g with pending := g.pending - 1 }

/-! ## Turns -/

/-- Lets a fiber run until it has to wait. -/
def proceed (dest : Destination) : Fiber ρ → Scheduler ρ → Scheduler ρ
  | .done outcome, s => s.conclude dest outcome
  | .ask (.sendEvent token event) next _, s =>
    let (taken, s) := s.send token event
    proceed dest (next taken) s
  | .ask c next _, s =>
    match s.world.step c with
    | .now answer world => proceed dest (next answer) { s with world }
    | .turn answer world => { s with world }.enqueue (.resume 0 dest (next answer))
    | .timer due answer world => { s with world }.setAlarm due (.resume 1 dest (next answer))
    | .event token seconds answer world =>
      { s with world }.listen token seconds dest fun event => next (answer event)
  | .fork [] next, s => proceed dest (next []) s
  | .fork branches next, s => s.spread branches dest next

/-- Lets a listener go on, with the event that was handed over. -/
def wake (s : Scheduler ρ) (token : String) (listener : Nat) : Option Value × Scheduler ρ :=
  match s.world.mailbox.leave? token listener with
  | some (event, mailbox) => (event, { s with world := { s.world with mailbox } })
  | none => (none, s)

/-- Takes a turn. -/
def take (s : Scheduler ρ) : Turn ρ → Scheduler ρ
  | .resume 0 dest p => proceed dest p s
  | .resume (delay + 1) dest p => s.enqueue (.resume delay dest p)
  | .wake 0 token listener dest next =>
    let (event, s) := s.wake token listener
    proceed dest (next event) s
  | .wake (delay + 1) token listener dest next => s.enqueue (.wake delay token listener dest next)
  | .expire 0 listener => s.expire listener
  | .expire (delay + 1) listener => s.enqueue (.expire delay listener)
  | .arrive group => s.arrive group

/-- Takes the turn that was asked for first. -/
def takeNext? (s : Scheduler ρ) : Option (Scheduler ρ) :=
  match s.ready with
  | [] => none
  | t :: rest => some ({ s with ready := rest }.take t)

/-- The alarm that is due first. -/
def firstDue : List (Alarm ρ) → Option Float
  | [] => none
  | a :: rest =>
    match firstDue rest with
    | none => some a.due
    | some due => some (if due < a.due then due else a.due)

/-- The tolerance with which alarms go off together, in seconds. -/
def tolerance : Float := 1e-9

/-- Moves the clock to the alarm that is due first; all alarms that are due then go off. -/
def ring? (s : Scheduler ρ) : Option (Scheduler ρ) :=
  match firstDue s.alarms with
  | none => none
  | some due =>
    let clock := s.world.clock.reach due
    let isDue (a : Alarm ρ) : Bool := a.due ≤ due || a.due < clock.seconds + tolerance
    let (now, later) := s.alarms.partition isDue
    let inOrder := now.mergeSort fun a b => a.due ≤ b.due
    some { s with
      world := { s.world with clock }
      alarms := later
      ready := s.ready ++ inOrder.map Alarm.turn }

/-! ## Runs -/

/-- Takes turns, up to a number, until no one asks for one. -/
def settle : Nat → Scheduler ρ → Scheduler ρ
  | 0, s => s
  | turns + 1, s =>
    match s.takeNext? with
    | some s => settle turns s
    | none => s

/-- Takes turns and moves the clock, up to a number of times, until the main fiber has ended or
    nothing can happen any more. -/
def finish : Nat → Scheduler ρ → Scheduler ρ
  | 0, s => s
  | turns + 1, s =>
    if s.outcome.isSome then s
    else
      match s.takeNext? <|> s.ring? with
      | some s => finish turns s
      | none => s

/-- A number of turns that no run needs. -/
def manyTurns : Nat := Nat.pow 2 62

/-- Adds a fiber whose outcome nobody asks for. -/
def spawn (s : Scheduler ρ) (p : Fiber ρ) : Scheduler ρ := s.enqueue (.resume 0 .nowhere p)

/-- Runs a fiber to its end; its outcome, unless it waits for something that never happens. -/
def runMain (s : Scheduler ρ) (p : Fiber ρ) : Option ρ × Scheduler ρ :=
  let s := finish manyTurns (proceed .main p { s with outcome := none })
  (s.outcome, { s with outcome := none })

end Scheduler

end Runbook
