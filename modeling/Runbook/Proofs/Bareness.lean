import Runbook.Proofs.Course
import Runbook.Proofs.Recorders

/-!
# `Proofs.Bareness` — a run without its records

Take the run records out of a world, and out of a fiber the calls that only concern them. What is left is
bare. A fiber that does not ask for run records takes the same course with its records as its bare form does
without: `Scheduler.finishBy_bare`, for every recorder.

## Contents
- **Calls.** `Call.silent?`, calls that only concern run records; `Call.Blind`, calls that do not ask for
  them.
- **Worlds.** `World.bare`; a step of a world is a step of the bare one.
- **Fibers.** `Fiber.bare`, and `Fiber.Blind`.
- **Schedulers.** The same for the fibers that share a world; each change of a scheduler leads from blind
  ones to blind ones and is one of the bare scheduler.
- **Runs.** `World.carryOutBy_bare`.
-/

namespace Runbook

/-! ## Calls -/

/-- Whether observers see an update of a run record. -/
def Event.isRunUpdate : Event → Bool
  | .runUpdate _ _ => true
  | _ => false

/-- The answer to a call that only concerns run records. -/
def Call.silent? : (c : Call) → Option c.Answer
  | .updateRun _ _ => some ()
  | .saveCheckpoint _ => some ()
  | .note (.runUpdate _ _) => some ()
  | _ => none

/-- Whether an operation concerns run records. -/
def StoreOp.concernsRuns : StoreOp → Bool
  | .setRun _ _ | .getRun _ | .runOfExecution _ | .listRuns _ => true
  | _ => false

/-- Calls that do not ask for run records. -/
def Call.Blind (c : Call) : Prop := ∀ op, c = .store op → op.concernsRuns = false

/-! ## Worlds -/

/-- Stores without run records, and without writes of them that fail. -/
def Stores.bare (s : Stores) : Stores := { s with runs := { backend := .memory }, outage := .never }

/-- A world without run records, in which no updates of them were seen. -/
def World.bare (w : World) : World :=
  { w with stores := w.stores.bare, log := w.log.filter fun e => !e.event.isRunUpdate }

/-- What becomes of a call, but in a bare world. -/
def Progress.bare {α : Type} : Progress α → Progress α
  | .now answer w => .now answer w.bare
  | .timer due answer w => .timer due answer w.bare
  | .turn answer w => .turn answer w.bare
  | .event token seconds answer w => .event token seconds answer w.bare

/-- Operations on other records do not depend on run records, and leave them alone. -/
theorem Stores.perform_bare (s : Stores) (now : Stamp) {op : StoreOp} (hop : op.concernsRuns = false) :
    s.bare.perform now op = ((s.perform now op).1, (s.perform now op).2.bare) := by
  unfold perform
  rw [show s.bare.isOpen = s.isOpen from rfl]
  -- jobs and queues are there in the bare stores, too, and operations on them look at nothing else
  split
  · cases op with
    | setRun | getRun | runOfExecution | listRuns => exact absurd hop (by simp [StoreOp.concernsRuns])
    | getJob | listJobs | getQueue | listQueues => rfl
    | updateQueue => rfl
    | setJob jobId updates =>
      simp only [performOpen, show s.bare.jobs = s.jobs from rfl]
      cases s.jobs.set jobId updates now <;> rfl
    | updateJob jobId updates =>
      simp only [performOpen, show s.bare.jobs = s.jobs from rfl]
      cases s.jobs.update jobId updates now <;> rfl
    | addInternalJob parentId child =>
      simp only [performOpen, show s.bare.jobs = s.jobs from rfl]
      cases s.jobs.addInternal parentId child now <;> rfl
    | createQueue id queueId workerId workerJobId metadata totalSteps =>
      simp only [performOpen, show s.bare.queues = s.queues from rfl]
      cases QueueRecord.create id queueId workerId workerJobId metadata totalSteps now with
      | error f => rfl
      | ok r => simp only [bind, Except.bind]; cases s.queues.create r <;> rfl
    | appendStep id workerId workerJobId =>
      simp only [performOpen, show s.bare.queues = s.queues from rfl]
      cases s.queues.appendStep id workerId workerJobId now <;> rfl
    | updateStep id index updates =>
      simp only [performOpen, show s.bare.queues = s.queues from rfl]
      cases s.queues.updateStep id index updates now <;> rfl
  · cases op <;> rfl

namespace World

variable {k : Recorder} {w : World} {c : Call}

theorem bare_record (w : World) {e : Event} (he : e.isRunUpdate = false) :
    (w.record e).bare = w.bare.record e := by
  simp [bare, record, he]

theorem bare_record_runUpdate (w : World) (runId : String) (updates : Keyed Value) :
    (w.record (.runUpdate runId updates)).bare = w.bare := by
  simp [bare, record, Event.isRunUpdate]

/-- An update of a run record is not seen in the bare world. -/
theorem bare_writeRunBy (k : Recorder) (w : World) (runId : String) (updates : Keyed Value) :
    (w.writeRunBy k runId updates).bare = w.bare := w.bare_record_runUpdate runId updates

/-- A silent call changes nothing in the bare world. -/
theorem stepBy_of_silent {answer : c.Answer} (hc : c.silent? = some answer) :
    ∃ w', w.stepBy k c = .now answer w' ∧ w'.bare = w.bare := by
  cases c with
  | updateRun runId updates => exact ⟨_, rfl, bare_writeRunBy k w runId updates⟩
  | saveCheckpoint runId =>
    refine ⟨_, rfl, ?_⟩
    unfold saveCheckpointBy
    split
    · exact bare_writeRunBy ..
    · rfl
  | note e =>
    cases e with
    | runUpdate runId updates => exact ⟨_, rfl, w.bare_record_runUpdate runId updates⟩
    | _ => exact absurd hc (by simp [Call.silent?])
  | _ => exact absurd hc (by simp [Call.silent?])

/-- **A step of a world is a step of the bare world**, if it does not concern run records. -/
theorem stepBy_bare (hblind : c.Blind) (hloud : c.silent? = none) :
    (w.stepBy k c).bare = w.bare.step c := by
  -- what observers see besides updates is seen in the bare world; and no step looks at what was seen
  cases c with
  | updateRun | saveCheckpoint => exact absurd hloud (by simp [Call.silent?])
  | store op =>
    simp only [stepBy, step, useStores, show w.bare.stores = w.stores.bare from rfl,
      show w.bare.stamp = w.stamp from rfl, w.stores.perform_bare w.stamp (hblind op rfl)]
    rfl
  | note e =>
    cases e with
    | runUpdate => exact absurd hloud (by simp [Call.silent?])
    | _ => exact congrArg (Progress.now ()) (w.bare_record rfl)
  | request r =>
    have hseen : (w.record (.request r)).bare = w.bare.record (.request r) := w.bare_record rfl
    simp only [stepBy, step, reply]
    rw [← hseen]
    exact apply_ite Progress.bare ..
  | pause seconds =>
    exact apply_ite Progress.bare ..
  | hostSleep seconds =>
    have hseen : (w.record (.sleep seconds)).bare = w.bare.record (.sleep seconds) := w.bare_record rfl
    simp only [stepBy, step, hostSleep]
    rw [← hseen]
    dsimp only [bare]
    cases (w.record (.sleep seconds)).sleepsLeft with
    | none => exact apply_ite Progress.bare ..
    | some left =>
      cases left with
      | zero => rfl
      | succ left => exact apply_ite Progress.bare ..
  | awaitEvent token seconds =>
    simp only [stepBy, step, awaitEvent]
    dsimp only [bare]
    cases w.mailbox.take? token with
    | none => rfl
    | some taken => rfl
  | amend path fields =>
    simp only [stepBy, step, amend]
    dsimp only [bare]
    cases w.attempt.withNote path fields with
    | ok attempt => rfl
    | error f => rfl
  | _ => rfl

end World

/-! ## Fibers -/

/-- A program without its silent calls. -/
def Program.bare {α : Type} : Program α → Program α
  | .done a => .done a
  | .ask c next =>
    match c.silent? with
    | some answer => (next answer).bare
    | none => .ask c fun answer => (next answer).bare

mutual
/-- A fiber without its silent calls. -/
def Fiber.bare {ρ : Type} : Fiber ρ → Fiber ρ
  | .done outcome => .done outcome
  | .ask c next step =>
    match c.silent? with
    | some answer => (next answer).bare
    | none => .ask c (fun answer => (next answer).bare) step
  | .fork branches next => .fork (bareAll branches) fun outcomes => (next outcomes).bare

/-- `bare` of every fiber. -/
def Fiber.bareAll {ρ : Type} : List (Fiber ρ) → List (Fiber ρ)
  | [] => []
  | p :: ps => p.bare :: bareAll ps
end

mutual
/-- Fibers that do not ask for run records. -/
def Fiber.Blind {ρ : Type} : Fiber ρ → Prop
  | .done _ => True
  | .ask c next _ => c.Blind ∧ ∀ answer, (next answer).Blind
  | .fork branches next => AllBlind branches ∧ ∀ outcomes, (next outcomes).Blind

/-- `Blind` for every fiber. -/
def Fiber.AllBlind {ρ : Type} : List (Fiber ρ) → Prop
  | [] => True
  | p :: ps => p.Blind ∧ AllBlind ps
end

namespace Fiber

variable {ρ : Type} {α : Type}

theorem bareAll_eq_map (ps : List (Fiber ρ)) : bareAll ps = ps.map bare := by
  induction ps with
  | nil => rfl
  | cons p ps ih => rw [bareAll, ih, List.map_cons]

theorem allBlind_iff {ps : List (Fiber ρ)} : AllBlind ps ↔ ∀ p ∈ ps, p.Blind := by
  induction ps with
  | nil => simp [AllBlind]
  | cons p ps ih => rw [AllBlind, ih, List.forall_mem_cons]

theorem bare_ask_of_silent {c : Call} {answer : c.Answer} (hc : c.silent? = some answer)
    (next : c.Answer → Fiber ρ) (step : Option StepPath) :
    (ask c next step).bare = (next answer).bare := by
  rw [bare, hc]

theorem bare_ask_of_loud {c : Call} (hc : c.silent? = none) (next : c.Answer → Fiber ρ)
    (step : Option StepPath) :
    (ask c next step).bare = .ask c (fun answer => (next answer).bare) step := by
  rw [bare, hc]

end Fiber

/-! ## Schedulers -/

section

variable {ρ : Type}

def Turn.bare : Turn ρ → Turn ρ
  | .resume delay dest p => .resume delay dest p.bare
  | .wake delay token listener dest next => .wake delay token listener dest fun event => (next event).bare
  | .expire delay listener => .expire delay listener
  | .arrive group => .arrive group

def Turn.Blind : Turn ρ → Prop
  | .resume _ _ p => p.Blind
  | .wake _ _ _ _ next => ∀ event, (next event).Blind
  | _ => True

def Alarm.bare (a : Alarm ρ) : Alarm ρ := { a with turn := a.turn.bare }

def Listener.bare (l : Listener ρ) : Listener ρ := { l with next := fun event => (l.next event).bare }

def Group.bare (g : Group ρ) : Group ρ := { g with next := fun outcomes => (g.next outcomes).bare }

namespace Scheduler

/-- The bare fibers in the bare world. -/
def bare (s : Scheduler ρ) : Scheduler ρ where
  world := s.world.bare
  ready := s.ready.map Turn.bare
  alarms := s.alarms.map Alarm.bare
  listeners := s.listeners.map fun l => (l.1, l.2.bare)
  groups := s.groups.map fun g => (g.1, g.2.bare)
  numbered := s.numbered
  outcome := s.outcome

/-- None of the fibers asks for run records. -/
structure Blind (s : Scheduler ρ) : Prop where
  ready : ∀ t ∈ s.ready, t.Blind
  alarms : ∀ a ∈ s.alarms, a.turn.Blind
  listeners : ∀ l ∈ s.listeners, ∀ event, (l.2.next event).Blind
  groups : ∀ g ∈ s.groups, ∀ outcomes, (g.2.next outcomes).Blind

variable {s : Scheduler ρ} {t : Turn ρ} {p : Fiber ρ} {dest : Destination}

/-! ### Changes -/

theorem lookup_map_snd {α β : Type} (f : α → β) (n : Nat) (entries : List (Nat × α)) :
    (entries.map fun e => (e.1, f e.2)).lookup n = (entries.lookup n).map f := by
  induction entries with
  | nil => rfl
  | cons e rest ih =>
    rw [List.map_cons, List.lookup_cons, List.lookup_cons, ih]
    cases n == e.1 <;> rfl

theorem mem_of_lookup {α : Type} {n : Nat} {v : α} {entries : List (Nat × α)}
    (h : entries.lookup n = some v) : ∃ m, (m, v) ∈ entries := by
  induction entries with
  | nil => exact absurd h (by simp)
  | cons e rest ih =>
    rw [List.lookup_cons] at h
    split at h
    · obtain rfl := Option.some.inj h
      exact ⟨e.1, List.mem_cons_self⟩
    · obtain ⟨m, hm⟩ := ih h
      exact ⟨m, .tail _ hm⟩

theorem bare_enqueue (s : Scheduler ρ) (t : Turn ρ) : (s.enqueue t).bare = s.bare.enqueue t.bare := by
  simp [enqueue, bare]

theorem Blind.enqueue (h : s.Blind) (ht : t.Blind) : (s.enqueue t).Blind :=
  { h with ready := List.forall_mem_append.mpr ⟨h.ready, List.forall_mem_singleton.mpr ht⟩ }

theorem bare_setAlarm (s : Scheduler ρ) (due : Float) (t : Turn ρ) :
    (s.setAlarm due t).bare = s.bare.setAlarm due t.bare := by
  simp [setAlarm, bare, Alarm.bare]

theorem Blind.setAlarm (h : s.Blind) (ht : t.Blind) (due : Float) : (s.setAlarm due t).Blind :=
  { h with alarms := List.forall_mem_append.mpr ⟨h.alarms, List.forall_mem_singleton.mpr ht⟩ }

theorem bare_cancelAlarm (s : Scheduler ρ) (listener : Nat) :
    (s.cancelAlarm listener).bare = s.bare.cancelAlarm listener := by
  simp only [cancelAlarm, bare, List.filter_map, mk.injEq, true_and, and_true]
  congr 2
  funext a
  simp only [Function.comp_apply, Alarm.bare]
  cases a.turn <;> rfl

theorem Blind.cancelAlarm (h : s.Blind) (listener : Nat) : (s.cancelAlarm listener).Blind :=
  { h with alarms := fun a ha => h.alarms a (List.mem_of_mem_filter ha) }

theorem bare_withdraw (s : Scheduler ρ) (listener : Nat) :
    (s.withdraw listener).bare = s.bare.withdraw listener := by
  simp only [withdraw, bare, List.filter_map]
  rfl

theorem Blind.withdraw (h : s.Blind) (listener : Nat) : (s.withdraw listener).Blind :=
  { h with listeners := fun l hl => h.listeners l (List.mem_of_mem_filter hl) }

theorem Blind.enlist (h : s.Blind) {l : Listener ρ} (hl : ∀ event, (l.next event).Blind) :
    (s.enlist l).Blind := { h with listeners := List.forall_mem_cons.mpr ⟨hl, h.listeners⟩ }

theorem bare_listen (s : Scheduler ρ) (token : String) (seconds : Option Float) (dest : Destination)
    (next : Option Value → Fiber ρ) :
    (s.listen token seconds dest next).bare
      = s.bare.listen token seconds dest fun event => (next event).bare := by
  unfold listen
  cases seconds with
  | none => rfl
  | some patience =>
    dsimp only
    split
    · exact bare_setAlarm ..
    · exact bare_enqueue ..

theorem Blind.listen (h : s.Blind) (token : String) (seconds : Option Float) (dest : Destination)
    {next : Option Value → Fiber ρ} (hnext : ∀ event, (next event).Blind) :
    (s.listen token seconds dest next).Blind := by
  unfold Scheduler.listen
  cases seconds with
  | none => exact h.enlist hnext
  | some patience =>
    dsimp only
    split
    · exact Blind.setAlarm (t := .expire 1 s.numbered) (h.enlist hnext) trivial _
    · exact h.enqueue (hnext none)

theorem bare_expire (s : Scheduler ρ) (listener : Nat) : (s.expire listener).bare = s.bare.expire listener := by
  unfold expire
  rw [show s.bare.listeners = s.listeners.map fun l => (l.1, l.2.bare) from rfl, lookup_map_snd]
  cases s.listeners.lookup listener with
  | none => rfl
  | some l =>
    simp only [bare_enqueue, Option.map_some]
    congr 1
    simp only [withdraw, bare, List.filter_map]
    rfl

theorem Blind.expire (h : s.Blind) (listener : Nat) : (s.expire listener).Blind := by
  unfold Scheduler.expire
  cases hl : s.listeners.lookup listener with
  | none => exact h
  | some l =>
    obtain ⟨m, hm⟩ := mem_of_lookup hl
    have hrest := h.withdraw listener
    exact Blind.enqueue (t := .wake 1 l.token listener l.dest l.next) { hrest with } (h.listeners _ hm)

theorem bare_spread (s : Scheduler ρ) (branches : List (Fiber ρ)) (dest : Destination)
    (next : List ρ → Fiber ρ) :
    (s.spread branches dest next).bare
      = s.bare.spread (Fiber.bareAll branches) dest fun outcomes => (next outcomes).bare := by
  have hturns : (branches.mapIdx fun i p => Turn.resume 0 (.member s.numbered i) p).map Turn.bare
      = (branches.map Fiber.bare).mapIdx fun i p => .resume 0 (.member s.numbered i) p := by
    refine List.ext_getElem? fun i => ?_
    simp only [List.getElem?_map, List.getElem?_mapIdx, Option.map_map]
    rfl
  simp [spread, bare, Group.bare, Fiber.bareAll_eq_map, hturns, Function.comp_def]

theorem Blind.spread (h : s.Blind) {branches : List (Fiber ρ)} (hbranches : Fiber.AllBlind branches)
    (dest : Destination) {next : List ρ → Fiber ρ} (hnext : ∀ outcomes, (next outcomes).Blind) :
    (s.spread branches dest next).Blind where
  ready := by
    refine List.forall_mem_append.mpr ⟨h.ready, fun t ht => ?_⟩
    obtain ⟨i, hi, rfl⟩ := List.mem_mapIdx.mp ht
    exact Fiber.allBlind_iff.mp hbranches _ (List.getElem_mem hi)
  alarms := h.alarms
  listeners := h.listeners
  groups := List.forall_mem_cons.mpr ⟨hnext, h.groups⟩

theorem updateGroup_bare (s : Scheduler ρ) (group : Nat) (change change' : Group ρ → Group ρ)
    (hchange : ∀ g, (change g).bare = change' g.bare) :
    (s.updateGroup group change).bare = s.bare.updateGroup group change' := by
  simp only [updateGroup, bare, List.map_map, mk.injEq, true_and, and_true]
  refine List.map_congr_left fun g _ => ?_
  simp only [Function.comp_apply]
  split
  · exact congrArg _ (hchange g.2)
  · rfl

theorem Blind.updateGroup (h : s.Blind) (group : Nat) {change : Group ρ → Group ρ}
    (hchange : ∀ g, (change g).next = g.next) : (s.updateGroup group change).Blind where
  ready := h.ready
  alarms := h.alarms
  listeners := h.listeners
  groups := by
    intro g hg outcomes
    obtain ⟨⟨n, g'⟩, hg', rfl⟩ := List.mem_map.mp hg
    have hblind := h.groups _ hg' outcomes
    dsimp only
    split
    · rwa [hchange]
    · exact hblind

theorem bare_conclude (s : Scheduler ρ) (dest : Destination) (outcome : ρ) :
    (s.conclude dest outcome).bare = s.bare.conclude dest outcome := by
  cases dest with
  | main | nowhere => rfl
  | member group index =>
    unfold conclude
    rw [bare_enqueue, updateGroup_bare s group _
      (fun g => { g with outcomes := g.outcomes.set index (some outcome) }) fun g => rfl]
    rfl

theorem Blind.conclude (h : s.Blind) (dest : Destination) (outcome : ρ) :
    (s.conclude dest outcome).Blind := by
  cases dest with
  | main => exact { h with }
  | nowhere => exact h
  | member group index => exact Blind.enqueue (t := .arrive group) (h.updateGroup group fun g => rfl) trivial

theorem bare_arrive (s : Scheduler ρ) (group : Nat) : (s.arrive group).bare = s.bare.arrive group := by
  unfold arrive
  rw [show s.bare.groups = s.groups.map fun g => (g.1, g.2.bare) from rfl, lookup_map_snd]
  cases s.groups.lookup group with
  | none => rfl
  | some g =>
    simp only [Option.map_some, show g.bare.pending = g.pending from rfl]
    split
    · simp only [bare_enqueue]
      congr 1
      simp only [bare, List.filter_map]
      rfl
    · exact updateGroup_bare _ _ _ _ fun g => rfl

theorem Blind.arrive (h : s.Blind) (group : Nat) : (s.arrive group).Blind := by
  unfold Scheduler.arrive
  cases hg : s.groups.lookup group with
  | none => exact h
  | some g =>
    dsimp only
    split
    · obtain ⟨m, hm⟩ := mem_of_lookup hg
      have hrest : Blind { s with groups := s.groups.filter fun other => other.1 ≠ group } :=
        { h with groups := fun g hg => h.groups g (List.mem_of_mem_filter hg) }
      exact hrest.enqueue (h.groups _ hm _)
    · exact h.updateGroup group fun g => rfl

/-- To send an event takes the same receiver, who goes on with its bare form. -/
theorem bare_send (s : Scheduler ρ) (token : String) (event : Value) :
    s.bare.send token event = ((s.send token event).1, (s.send token event).2.bare) := by
  unfold send
  rw [show s.bare.world.mailbox = s.world.mailbox from rfl,
    show s.bare.listeners = s.listeners.map fun l => (l.1, l.2.bare) from rfl]
  rcases s.world.mailbox.send token event with ⟨_ | listener, mailbox⟩
  · rfl
  · simp only [lookup_map_snd]
    cases s.listeners.lookup listener with
    | none => rfl
    | some l =>
      simp only [Option.map_some, bare_enqueue, bare_cancelAlarm, bare_withdraw]
      rfl

theorem Blind.send (h : s.Blind) (token : String) (event : Value) : (s.send token event).2.Blind := by
  unfold Scheduler.send
  rcases s.world.mailbox.send token event with ⟨_ | listener, mailbox⟩
  · exact { h with }
  · have hsent : Blind { s with world := { s.world with mailbox } } := { h with }
    cases hl : s.listeners.lookup listener with
    | none => simpa only [hl] using hsent
    | some l =>
      obtain ⟨m, hm⟩ := mem_of_lookup hl
      simp only [hl]
      refine Blind.enqueue (t := .wake _ l.token listener l.dest l.next)
        ((hsent.withdraw listener).cancelAlarm listener) ?_
      exact h.listeners _ hm

/-! ### Turns -/

variable (k : Recorder)

/-- How a fiber goes on after a call that sends no event. -/
theorem proceed_ask {c : Call} (hsend : ∀ token event, c ≠ .sendEvent token event)
    (next : c.Answer → Fiber ρ) (step : Option StepPath) (s : Scheduler ρ) :
    proceed dest (.ask c next step) s =
      match s.world.step c with
      | .now answer world => proceed dest (next answer) { s with world }
      | .turn answer world => { s with world }.enqueue (.resume 0 dest (next answer))
      | .timer due answer world => { s with world }.setAlarm due (.resume 1 dest (next answer))
      | .event token seconds answer world =>
        { s with world }.listen token seconds dest fun event => next (answer event) :=
  proceed.eq_3 _ _ _ _ _ fun token event _ hc _ => hsend token event hc

/-- A call that concerns more than run records: what becomes of it in the bare world. -/
theorem step_bare_of_loud {c : Call} {w : World} {progress : Progress c.Answer} (hblind : c.Blind)
    (hloud : c.silent? = none) (hstep : w.stepBy k c = progress) : w.bare.step c = progress.bare := by
  rw [← hstep, World.stepBy_bare hblind hloud]

/-- How a fiber goes on in the bare world, by what becomes of its call in the world itself. -/
theorem proceed_bare_of_loud {c : Call} {progress : Progress c.Answer}
    (hsend : ∀ token event, c ≠ .sendEvent token event) (hblind : c.Blind) (hloud : c.silent? = none)
    (hstep : s.world.stepBy k c = progress) (next : c.Answer → Fiber ρ) (step : Option StepPath) :
    proceed dest (Fiber.ask c next step).bare s.bare =
      match progress.bare with
      | .now answer world => proceed dest (next answer).bare { s.bare with world }
      | .turn answer world => { s.bare with world }.enqueue (.resume 0 dest (next answer).bare)
      | .timer due answer world => { s.bare with world }.setAlarm due (.resume 1 dest (next answer).bare)
      | .event token seconds answer world =>
        { s.bare with world }.listen token seconds dest fun event => (next (answer event)).bare := by
  rw [Fiber.bare_ask_of_loud hloud, proceed_ask hsend, ← step_bare_of_loud k hblind hloud hstep]
  rfl

theorem noEvent {c : Call} {next : c.Answer → Fiber ρ}
    (h : ∀ token event (next' : (Call.sendEvent token event).Answer → Fiber ρ),
      c = .sendEvent token event → HEq next next' → False) (token : String) (event : Value) :
    c ≠ .sendEvent token event := by
  rintro rfl
  exact h token event next rfl HEq.rfl

/-- A call after which a fiber waits is not silent. -/
theorem loud_of_waits {c : Call} {w : World} {progress : Progress c.Answer}
    (hstep : w.stepBy k c = progress) (hwaits : ∀ answer w', progress ≠ .now answer w') :
    c.silent? = none := by
  cases hc : c.silent? with
  | none => rfl
  | some answer =>
    obtain ⟨w', hw', -⟩ := World.stepBy_of_silent (k := k) (w := w) hc
    exact absurd (hstep.symm.trans hw') (hwaits answer w')

/-- **The step lemma.** A fiber that does not ask for run records goes on as its bare form does in the bare
    world, whatever becomes of the records. -/
theorem proceedBy_bare (hp : p.Blind) (h : s.Blind) :
    (proceedBy k dest p s).Blind ∧ (proceedBy k dest p s).bare = proceed dest p.bare s.bare := by
  -- a silent call is left out of the bare fiber; any other is answered in the bare world as it is here
  fun_induction proceedBy k dest p s with
  | case1 outcome s => exact ⟨h.conclude dest outcome, bare_conclude ..⟩
  | case2 token event next step s taken s' hsent ih =>
    have hs' : s' = (s.send token event).2 := by rw [hsent]
    have hbare : s.bare.send token event = (taken, s'.bare) := by rw [bare_send, hsent]
    rw [Fiber.bare_ask_of_loud rfl, proceed, hbare]
    exact ih (hp.2 taken) (hs' ▸ h.send token event)
  | case3 c next step s hsend answer world hstep ih =>
    obtain ⟨hblind, hbare⟩ := ih (hp.2 answer) { h with }
    refine ⟨hblind, hbare.trans ?_⟩
    cases hc : c.silent? with
    | some answer' =>
      obtain ⟨w', hw', hsame⟩ := World.stepBy_of_silent (k := k) (w := s.world) hc
      obtain ⟨rfl, rfl⟩ := Progress.now.inj (hstep.symm.trans hw')
      rw [Fiber.bare_ask_of_silent hc]
      simp only [bare, hsame]
    | none =>
      rw [proceed_bare_of_loud k (noEvent hsend) hp.1 hc hstep]
      rfl
  | case4 c next step s hsend answer world hstep =>
    have hc : c.silent? = none := loud_of_waits k hstep (by simp)
    have hworld : Blind { s with world } := { h with }
    refine ⟨Blind.enqueue (t := .resume 0 dest (next answer)) hworld (hp.2 answer), ?_⟩
    rw [proceed_bare_of_loud k (noEvent hsend) hp.1 hc hstep]
    exact bare_enqueue ..
  | case5 c next step s hsend due answer world hstep =>
    have hc : c.silent? = none := loud_of_waits k hstep (by simp)
    have hworld : Blind { s with world } := { h with }
    refine ⟨Blind.setAlarm (t := .resume 1 dest (next answer)) hworld (hp.2 answer) due, ?_⟩
    rw [proceed_bare_of_loud k (noEvent hsend) hp.1 hc hstep]
    exact bare_setAlarm ..
  | case6 c next step s hsend token seconds answer world hstep =>
    have hc : c.silent? = none := loud_of_waits k hstep (by simp)
    have hworld : Blind { s with world } := { h with }
    refine ⟨hworld.listen token seconds dest fun event => hp.2 (answer event), ?_⟩
    rw [proceed_bare_of_loud k (noEvent hsend) hp.1 hc hstep]
    exact bare_listen ..
  | case7 next s ih => exact ih (hp.2 []) h
  | case8 branches next s hne =>
    refine ⟨h.spread hp.1 dest hp.2, ?_⟩
    cases branches with
    | nil => exact absurd rfl hne
    | cons q qs => exact bare_spread ..

/-- The end of a wait is the same in the bare world. -/
theorem bare_wake (s : Scheduler ρ) (token : String) (listener : Nat) :
    s.bare.wake token listener = ((s.wake token listener).1, (s.wake token listener).2.bare) := by
  unfold wake
  rw [show s.bare.world.mailbox = s.world.mailbox from rfl]
  cases s.world.mailbox.leave? token listener <;> rfl

theorem Blind.wake (h : s.Blind) (token : String) (listener : Nat) :
    (s.wake token listener).2.Blind := by
  unfold Scheduler.wake
  split
  · exact { h with }
  · exact h

theorem takeBy_bare (ht : t.Blind) (h : s.Blind) :
    (s.takeBy k t).Blind ∧ (s.takeBy k t).bare = s.bare.take t.bare := by
  cases t with
  | resume delay dest p =>
    cases delay with
    | zero => exact proceedBy_bare k ht h
    | succ delay => exact ⟨Blind.enqueue h ht, bare_enqueue ..⟩
  | wake delay token listener dest next =>
    cases delay with
    | zero =>
      have hwake : (Turn.wake 0 token listener dest next).bare
          = .wake 0 token listener dest fun event => (next event).bare := rfl
      rw [hwake, take, bare_wake]
      exact proceedBy_bare k (ht _) (h.wake token listener)
    | succ delay => exact ⟨Blind.enqueue h ht, bare_enqueue ..⟩
  | expire delay listener =>
    cases delay with
    | zero => exact ⟨h.expire listener, bare_expire ..⟩
    | succ delay => exact ⟨Blind.enqueue h ht, bare_enqueue ..⟩
  | arrive group => exact ⟨h.arrive group, bare_arrive ..⟩

/-- The next turn. -/
theorem takeNextBy?_bare (h : s.Blind) :
    (∀ s' ∈ s.takeNextBy? k, s'.Blind) ∧ (s.takeNextBy? k).map bare = s.bare.takeNext? := by
  unfold takeNextBy? takeNext?
  rw [show s.bare.ready = s.ready.map Turn.bare from rfl]
  have hready := h.ready
  cases hturns : s.ready with
  | nil => exact ⟨by simp, rfl⟩
  | cons t rest =>
    rw [hturns] at hready
    obtain ⟨ht, hrest⟩ := List.forall_mem_cons.mp hready
    obtain ⟨hblind, hbare⟩ := takeBy_bare k (s := { s with ready := rest }) ht { h with ready := hrest }
    exact ⟨by simpa using hblind, congrArg some hbare⟩

theorem firstDue_bare (alarms : List (Alarm ρ)) : firstDue (alarms.map Alarm.bare) = firstDue alarms := by
  induction alarms with
  | nil => rfl
  | cons a rest ih => rw [List.map_cons, firstDue, firstDue, ih]; rfl

/-- The next alarms. -/
theorem ring?_bare (h : s.Blind) : (∀ s' ∈ s.ring?, s'.Blind) ∧ s.ring?.map bare = s.bare.ring? := by
  unfold ring?
  rw [show s.bare.alarms = s.alarms.map Alarm.bare from rfl, firstDue_bare]
  cases firstDue s.alarms with
  | none => exact ⟨by simp, rfl⟩
  | some due =>
    simp only [List.partition_eq_filter_filter]
    constructor
    · simp only [Option.mem_some_iff, forall_eq']
      refine ⟨List.forall_mem_append.mpr ⟨h.ready, fun t ht => ?_⟩,
        fun a ha => h.alarms a (List.mem_of_mem_filter ha), h.listeners, h.groups⟩
      obtain ⟨a, ha, rfl⟩ := List.mem_map.mp ht
      exact h.alarms a (List.mem_of_mem_filter (List.mem_mergeSort.mp ha))
    · -- a bare alarm is due when the alarm is, so both lists are sorted in the same way
      have hsorted (alarms : List (Alarm ρ)) :
          ((alarms.map Alarm.bare).mergeSort fun a b => a.due ≤ b.due).map Alarm.turn
            = ((alarms.mergeSort fun a b => a.due ≤ b.due).map Alarm.turn).map Turn.bare := by
        have hbare := List.map_mergeSort (f := Alarm.bare) (l := alarms)
          (r := fun a b => decide (a.due ≤ b.due)) (s := fun a b => decide (a.due ≤ b.due))
          fun _ _ _ _ => rfl
        rw [← hbare, List.map_map, List.map_map]
        rfl
      simp only [Option.map_some, List.filter_map, hsorted]
      simp only [bare, List.map_append]
      rfl

/-- **The run lemma.** Fibers that do not ask for run records end as their bare forms do in the bare world. -/
theorem finishBy_bare (turns : Nat) (h : s.Blind) : (finishBy k turns s).bare = finish turns s.bare := by
  -- by induction on the turns that are left; either a turn is ready on both sides, or both ring the same alarms
  induction turns generalizing s with
  | zero => rfl
  | succ turns ih =>
    obtain ⟨hturn, htakes⟩ := takeNextBy?_bare k h
    obtain ⟨hring, hrings⟩ := ring?_bare h
    have hnext : (s.takeNextBy? k <|> s.ring?).map bare = (s.bare.takeNext? <|> s.bare.ring?) := by
      rw [← htakes, ← hrings]
      cases s.takeNextBy? k <;> rfl
    have hblind : ∀ s' ∈ (s.takeNextBy? k <|> s.ring?), s'.Blind := by
      cases htake : s.takeNextBy? k with
      | none => exact hring
      | some s' => exact fun s'' h'' => hturn s'' (htake ▸ h'')
    unfold finishBy finish
    rw [show s.bare.outcome = s.outcome from rfl, ← hnext]
    split
    · rfl
    · cases hsome : s.takeNextBy? k <|> s.ring? with
      | none => rfl
      | some s' => exact ih (hblind s' hsome)

theorem runMainBy_bare (hp : p.Blind) (h : s.Blind) :
    (s.runMainBy k p).1 = (s.bare.runMain p.bare).1
      ∧ (s.runMainBy k p).2.bare = (s.bare.runMain p.bare).2 := by
  have hfirst : Blind { s with outcome := none } := { h with }
  obtain ⟨hproceeds, hproceed⟩ : (proceedBy k .main p _).Blind ∧ _ := proceedBy_bare k hp hfirst
  have hend := finishBy_bare k manyTurns hproceeds
  rw [hproceed] at hend
  have houtcome := congrArg Scheduler.outcome hend
  have hrest := congrArg (fun s : Scheduler ρ => { s with outcome := none }) hend
  exact ⟨houtcome, hrest⟩

end Scheduler

end

/-! ## Runs -/

/-- Signals do not concern run records. -/
theorem Signal.toFiber_bare {ρ : Type} (g : Signal) (outcome : ρ) :
    (g.toFiber outcome).bare = g.toFiber outcome ∧ (g.toFiber outcome).Blind := by
  constructor
  · rfl
  · refine ⟨nofun, fun _ => ⟨nofun, fun _ => ⟨nofun, fun _ => trivial⟩⟩⟩

/-- Lets signals arrive. -/
def Scheduler.spawnAll (signals : List Signal) (s : Scheduler Outcome) : Scheduler Outcome :=
  signals.foldl (fun s g => s.spawn (g.toFiber (.error .restarted))) s

theorem Scheduler.spawnAll_bare (signals : List Signal) {s : Scheduler Outcome} (hs : s.Blind) :
    (s.spawnAll signals).Blind ∧ (s.spawnAll signals).bare = s.bare.spawnAll signals := by
  induction signals generalizing s with
  | nil => exact ⟨hs, rfl⟩
  | cons g rest ih =>
    obtain ⟨hbare, hblind⟩ := g.toFiber_bare (.error .restarted : Outcome)
    have hspawn : (s.spawn (g.toFiber (.error .restarted))).bare
        = s.bare.spawn (g.toFiber (.error .restarted)) := by
      rw [Scheduler.spawn, bare_enqueue, Turn.bare, hbare]
      rfl
    have hspawned : (s.spawn (g.toFiber (.error .restarted))).Blind :=
      Blind.enqueue (t := .resume 0 .nowhere (g.toFiber (.error .restarted : Outcome))) hs hblind
    obtain ⟨hrest, hrestbare⟩ := ih hspawned
    rw [hspawn] at hrestbare
    exact ⟨hrest, hrestbare⟩

/-- The result of a run, given its id. -/
def RunResult.ofOutcome (runId : String) (o : Outcome) : Except Fault RunResult :=
  o.map fun r => ⟨r.context, r.output, runId⟩

theorem World.carryOut_eq (w : World) (signals : List Signal) (run : Fiber Outcome) :
    w.carryOut signals run =
      let main := (Scheduler.spawnAll signals { world := w }).runMain run
      (main.1.map (RunResult.ofOutcome main.2.world.attempt.runId), main.2.world) := rfl

theorem World.carryOutBy_eq (k : Recorder) (w : World) (signals : List Signal) (run : Fiber Outcome) :
    w.carryOutBy k signals run =
      let main := (Scheduler.spawnAll signals { world := w }).runMainBy k run
      (main.1.map (RunResult.ofOutcome main.2.world.attempt.runId), main.2.world) := rfl

/-- **A run that does not ask for run records** ends as its bare form does in the bare world, and leaves the
    bare form of the world behind, whatever becomes of the records. -/
theorem World.carryOutBy_bare (k : Recorder) (w : World) (signals : List Signal) {run : Fiber Outcome}
    (hrun : run.Blind) :
    (w.carryOutBy k signals run).1 = (w.bare.carryOut signals run.bare).1
      ∧ (w.carryOutBy k signals run).2.bare = (w.bare.carryOut signals run.bare).2 := by
  have hstart : Scheduler.Blind ({ world := w } : Scheduler Outcome) :=
    ⟨by simp, by simp, by simp, by simp⟩
  obtain ⟨hblind, hspawned⟩ := Scheduler.spawnAll_bare signals hstart
  obtain ⟨hmain, hmainbare⟩ := Scheduler.runMainBy_bare k hrun hblind
  rw [hspawned] at hmain hmainbare
  rw [carryOutBy_eq, carryOut_eq]
  have hworld := congrArg Scheduler.world hmainbare
  have hrunId := congrArg (fun v : World => v.attempt.runId) hworld
  refine ⟨?_, hworld⟩
  dsimp only
  rw [hmain]
  exact congrArg (fun runId => Option.map (RunResult.ofOutcome runId) _) hrunId

end Runbook
