import Runbook.Orchestrator
import Runbook.Proofs.RunRecords

/-!
# `Proofs.Recorders` — runs over any store of run records

A run tells a store of run records how it is getting on. The store may keep what it is told, or refuse it, or
lose what it had. `World.carryOutBy` is a run over a store of which nothing is known; the run of
`World.carryOut`, over the store that the world holds, is a case of it.

## Contents
- **Recorders.** `Recorder`, and `World.keeping`, the store that the world holds.
- **Runs.** `World.stepBy`, `Scheduler.proceedBy`, up to `World.carryOutBy`.
- **The world's own store.** `World.carryOutBy_keeping`.
-/

namespace Runbook

/-! ## Recorders -/

/-- **A store of run records**, as far as a run is concerned: the records that it has after it was handed an
    update. It takes no time, but it may refuse any of the updates, and what it does may depend on all that
    has happened so far. -/
abbrev Recorder := World → String → Keyed Value → RunStore

namespace World

/-- The store that the world holds. -/
def keeping : Recorder := fun w runId updates => (w.useStores (.setRun runId updates)).2.stores.runs

/-- Hands an update to a recorder. -/
def writeRunBy (k : Recorder) (w : World) (runId : String) (updates : Keyed Value) : World :=
  let w := w.record (.runUpdate runId updates)
  { w with stores := { w.stores with runs := k w runId updates } }

/-- Hands the attempt to a recorder, unless it cannot be stored. -/
def saveCheckpointBy (k : Recorder) (w : World) (runId : String) : World :=
  match w.attempt.checkpoint with
  | .ok data => w.writeRunBy k runId [("metadata", .object [("checkpoint", data)])]
  | .error _ => w

/-- What becomes of a call when a recorder takes the updates of run records. -/
def stepBy (k : Recorder) (w : World) : (c : Call) → Progress c.Answer
  | .updateRun runId updates => .now () (w.writeRunBy k runId updates)
  | .saveCheckpoint runId => .now () (w.saveCheckpointBy k runId)
  | c => w.step c

end World

/-! ## Runs -/

namespace Scheduler

variable {ρ : Type} (k : Recorder)

/-- `proceed` over a recorder. -/
def proceedBy (dest : Destination) : Fiber ρ → Scheduler ρ → Scheduler ρ
  | .done outcome, s => s.conclude dest outcome
  | .ask (.sendEvent token event) next _, s =>
    let (taken, s) := s.send token event
    proceedBy dest (next taken) s
  | .ask c next _, s =>
    match s.world.stepBy k c with
    | .now answer world => proceedBy dest (next answer) { s with world }
    | .turn answer world => { s with world }.enqueue (.resume 0 dest (next answer))
    | .timer due answer world => { s with world }.setAlarm due (.resume 1 dest (next answer))
    | .event token seconds answer world =>
      { s with world }.listen token seconds dest fun event => next (answer event)
  | .fork [] next, s => proceedBy dest (next []) s
  | .fork branches next, s => s.spread branches dest next

/-- `take` over a recorder. -/
def takeBy (s : Scheduler ρ) : Turn ρ → Scheduler ρ
  | .resume 0 dest p => proceedBy k dest p s
  | .wake 0 token listener dest next =>
    let (event, s) := s.wake token listener
    proceedBy k dest (next event) s
  | t => s.take t

/-- `takeNext?` over a recorder. -/
def takeNextBy? (s : Scheduler ρ) : Option (Scheduler ρ) :=
  match s.ready with
  | [] => none
  | t :: rest => some ({ s with ready := rest }.takeBy k t)

/-- `finish` over a recorder. -/
def finishBy : Nat → Scheduler ρ → Scheduler ρ
  | 0, s => s
  | turns + 1, s =>
    if s.outcome.isSome then s
    else
      match s.takeNextBy? k <|> s.ring? with
      | some s => finishBy turns s
      | none => s

/-- `runMain` over a recorder. -/
def runMainBy (s : Scheduler ρ) (p : Fiber ρ) : Option ρ × Scheduler ρ :=
  let s := finishBy k manyTurns (proceedBy k .main p { s with outcome := none })
  (s.outcome, { s with outcome := none })

end Scheduler

/-- `carryOut` over a recorder. -/
def World.carryOutBy (k : Recorder) (w : World) (signals : List Signal) (run : Fiber Outcome) :
    Option (Except Fault RunResult) × World :=
  let s : Scheduler Outcome := { world := w }
  let s := signals.foldl (fun s signal => s.spawn (signal.toFiber (.error .restarted))) s
  let (outcome, s) := s.runMainBy k run
  let result (o : Outcome) : Except Fault RunResult :=
    o.map fun r => ⟨r.context, r.output, s.world.attempt.runId⟩
  (outcome.map result, s.world)

/-! ## The world's own store -/

namespace World

/-- An update of a run record touches nothing but the run records. -/
theorem perform_setRun (s : Stores) (now : Stamp) (runId : String) (updates : Keyed Value) :
    (s.perform now (.setRun runId updates)).2
      = { s with runs := (s.perform now (.setRun runId updates)).2.runs } := by
  by_cases hopen : s.isOpen = true
  · simp only [Stores.perform, if_pos hopen, Stores.performOpen, Stores.writing]
    cases hset : s.setRun runId updates now with
    | error f => rfl
    | ok written =>
      unfold Stores.setRun at hset
      split at hset
      · exact absurd hset (by simp)
      · obtain ⟨_, -, h⟩ := Fault.bind_eq_ok.mp hset
        cases h
        rfl
  · simp only [Stores.perform, if_neg hopen]

theorem writeRunBy_keeping (w : World) (runId : String) (updates : Keyed Value) :
    w.writeRunBy keeping runId updates = w.writeRun runId updates := by
  have hrest := perform_setRun w.stores w.stamp runId updates
  unfold writeRun useStores
  dsimp only
  rw [show (w.record (.runUpdate runId updates)).stores = w.stores from rfl,
    show (w.record (.runUpdate runId updates)).stamp = w.stamp from rfl, hrest]
  rfl

theorem stepBy_keeping (w : World) (c : Call) : w.stepBy keeping c = w.step c := by
  cases c with
  | updateRun runId updates => exact congrArg _ (w.writeRunBy_keeping runId updates)
  | saveCheckpoint runId =>
    refine congrArg (Progress.now ()) ?_
    unfold saveCheckpointBy saveCheckpoint
    cases w.attempt.checkpoint with
    | ok data => exact w.writeRunBy_keeping ..
    | error f => rfl
  | _ => rfl

end World

namespace Scheduler

variable {ρ : Type}

theorem proceedBy_keeping (dest : Destination) (p : Fiber ρ) (s : Scheduler ρ) :
    proceedBy World.keeping dest p s = proceed dest p s := by
  fun_induction proceed dest p s <;> simp_all [proceedBy, World.stepBy_keeping]

theorem takeBy_keeping (s : Scheduler ρ) (t : Turn ρ) : s.takeBy World.keeping t = s.take t := by
  unfold takeBy
  split
  · exact proceedBy_keeping ..
  · exact proceedBy_keeping ..
  · rfl

theorem finishBy_keeping (turns : Nat) (s : Scheduler ρ) :
    finishBy World.keeping turns s = finish turns s := by
  have hnext (s : Scheduler ρ) : s.takeNextBy? World.keeping = s.takeNext? := by
    unfold takeNextBy? takeNext?
    cases s.ready with
    | nil => rfl
    | cons t rest => exact congrArg some (takeBy_keeping ..)
  induction turns generalizing s with
  | zero => rfl
  | succ turns ih =>
    unfold finishBy finish
    rw [hnext]
    cases s.takeNext? <|> s.ring? with
    | none => rfl
    | some next => simp only [ih]

end Scheduler

/-- **A run over the store that the world holds.** -/
theorem World.carryOutBy_keeping (w : World) (signals : List Signal) (run : Fiber Outcome) :
    w.carryOutBy keeping signals run = w.carryOut signals run := by
  unfold carryOutBy carryOut Scheduler.runMainBy Scheduler.runMain
  simp only [Scheduler.proceedBy_keeping, Scheduler.finishBy_keeping]

end Runbook
