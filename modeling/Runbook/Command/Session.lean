import Runbook.Command.Basic
import Runbook.Orchestrator
import Runbook.Settings
import Runbook.Value.JsonReader

/-!
# `Command.Session` — carrying out commands

A session carries out commands one after the other. Databases in files last from one command to the
next; everything else begins anew with each command.

## Contents
- **Sessions.** `Surroundings`, `Session`, `Session.openStores`, `Session.keepStores`.
- **Answers.** `Printed`, and `Fault.isReported`, the failures that are shown to the user.
- **Commands.** One function for each, `Session.perform`, and `CommandLine.files`.
-/

namespace Runbook

/-! ## Sessions -/

/-- What a command finds around it: the environment, and the documents in files that exist. -/
structure Surroundings where
  env : Keyed String
  document? : String → Option Value

/-- What lasts from one command to the next. -/
structure Session where
  clock : Clock := 0
  /-- How many numbers were given out. -/
  idsGiven : Nat := 0
  /-- The databases in files. -/
  databases : Keyed Stores := []

namespace Session

/-- Opens the stores that the settings choose. -/
def openStores (s : Session) (choice : StoreChoice) : Stores :=
  match choice with
  | .sqlite path =>
    if path = ":memory:" then .empty .sqlite
    else (s.databases.get? path).getD { Stores.empty .sqlite with path }
  | choice => .empty choice.backend

/-- The session after stores were used. -/
def keepStores (s : Session) (choice : StoreChoice) (stores : Stores) : Session :=
  match choice with
  | .sqlite path =>
    if path = ":memory:" then s else { s with databases := s.databases.put path stores }
  | _ => s

end Session

/-! ## Answers -/

/-- What a command prints, and its exit code. -/
structure Printed where
  exitCode : Nat
  text : String
  deriving DecidableEq, Repr

namespace Printed

/-- A line that is printed by a command that succeeds. -/
def line (text : String) : Printed := ⟨0, text ++ "\n"⟩

/-- A line that is printed by a command that fails. -/
def failure (text : String) : Printed := ⟨1, text ++ "\n"⟩

/-- Lines, with an exit code. -/
def ofLines (exitCode : Nat) (lines : List String) : Printed :=
  ⟨exitCode, String.join (lines.map (· ++ "\n"))⟩

/-- A value that is printed as a document. -/
def document (v : Value) : Printed := line v.toPrettyJson

/-- The answer to a command line that cannot be read. -/
def usage : Printed := ⟨2, ""⟩

end Printed

/-- The failures that a run can be expected to end with; all others stop the command. -/
def Fault.isReported : Fault → Bool
  | .planInvalid _ | .invalidDuration _ | .dispatch _ | .pollTimeout _ | .hookTimeout _ _
  | .hookTokenMissing | .stepFailed _ _ | .unknownStepType _ | .store _ | .workerNotFound _ => true
  | _ => false

/-! ## Commands -/

/-- How the name of a file is written: without empty parts and parts that are a point. -/
def plainPath (path : String) : String :=
  let parts := (path.splitOn "/").filter fun part => part ≠ "" && part ≠ "."
  let joined := String.intercalate "/" parts
  if path.startsWith "/" then "/" ++ joined else if joined = "" then "." else joined

/-- The line that shows an issue. -/
def issueLine (i : Issue) : String :=
  let location :=
    match i.step with
    | some step => " [" ++ step ++ "]"
    | none => ""
  i.defect.severity.word.toUpper ++ " " ++ i.defect.code ++ location ++ ": " ++ i.defect.message

/-- The document in a file, which must exist. -/
def documentIn (around : Surroundings) (file : String) : Except Printed Value :=
  match around.document? (plainPath file) with
  | some v => .ok v
  | none => .error (.failure ("File not found: " ++ plainPath file))

/-- The value of a JSON text that is an argument. -/
def argumentValue (text what : String) : Except Printed Value :=
  match Value.ofJson text with
  | .ok v => .ok v
  | .error e => .error (.failure ("Invalid JSON for " ++ what ++ ": " ++ e.message text))

/-- Checks the plan in a file. -/
def validateFile (around : Surroundings) (file : String) : Except Fault Printed :=
  match documentIn around file with
  | .error printed => .ok printed
  | .ok v => do
    match ← validate v with
    | [] => return .line "Config is valid"
    | issues => return .ofLines (if isValid issues then 0 else 1) (issues.map issueLine)

/-- The plan of a command `run`. -/
def planDocument (around : Surroundings) (o : RunOptions) : Except Printed Value := do
  match ← documentIn around o.file with
  | .object fields => do
    let fields ←
      match o.input with
      | none => pure fields
      | some text => do
        match ← argumentValue text "--input" with
        | .null => pure fields
        | v => pure (Keyed.put fields "input" v)
    let fields :=
      if o.continueOnError then Keyed.put fields "continueOnError" (.bool true) else fields
    if o.resume && (nonEmpty? o.runId).isNone then
      throw (.failure "--resume requires --run-id")
    else return .object fields
  | _ => throw (.failure "Config file must contain a mapping")

/-- The engine that the settings set up. -/
def Settings.engine (s : Settings) : Engine where
  settings := s.dispatch
  functions := Supplied.table []
  workerPoll := s.workerPoll
  hookTimeout := some (.text s.hookTimeout)

/-- What is printed when a run has ended. -/
def printRun : Except Fault RunResult → Except Fault Printed
  | .ok r =>
    .ok (.document
      (.object
        [("runId", .text r.runId), ("status", .text "completed"), ("result", r.result),
         ("errors", .list ((r.context.errors.getD []).map StepError.toValue))]))
  | .error (.planInvalid issues) =>
    .ok (.ofLines 1 (issues.map fun i => i.defect.code ++ ": " ++ i.defect.message))
  | .error f => if f.isReported then .ok (.failure ("Run failed: " ++ f.message)) else .error f

/-- A run in the world of a session. -/
def carryOutRun (s : Session) (settings : Settings) (choice : StoreChoice) (plan : Value)
    (o : RunOptions) : Except Fault RunResult × Session :=
  let w : World :=
    { clock := s.clock, idsGiven := s.idsGiven, stores := s.openStores choice }
  let source := PlanSource.document plan
  let run :=
    if o.resume then settings.engine.resume source (o.runId.getD "")
    else settings.engine.run source o.runId none
  let (r, w) := w.carryOut [] run
  (r.getD (.error .restarted),
    { s with clock := w.clock, idsGiven := w.idsGiven }.keepStores choice w.stores)

/-- The stores and the host that a run uses. -/
def runChoices (around : Surroundings) (settings : Settings) : Except Fault StoreChoice := do
  let choice ← settings.storeChoice around.env none
  discard (settings.hostChoice around.env none)
  return choice

/-- Runs the plan in a file. -/
def runFile (around : Surroundings) (settings : Settings) (s : Session) (o : RunOptions) :
    Except Fault Printed × Session :=
  match planDocument around o with
  | .error printed => (.ok printed, s)
  | .ok plan =>
    match runChoices around settings with
    | .error f => (.error f, s)
    | .ok choice =>
      let (r, s) := carryOutRun s settings choice plan o
      (printRun r, s)

/-- Sends an event. Nobody can be waiting on the host of a command. -/
def sendSignal (around : Surroundings) (settings : Settings) (token payload : String) :
    Except Fault Printed :=
  match argumentValue payload "payload" with
  | .error printed => .ok printed
  | .ok _ => do
    discard (settings.hostChoice around.env none)
    return .line ("Event for " ++ token ++ " queued")

/-- What is looked up in the stores. -/
def lookUp (around : Surroundings) (settings : Settings) (s : Session) (op : StoreOp) :
    Except Fault StoreAnswer := do
  let choice ← settings.storeChoice around.env none
  ((s.openStores choice).perform (.ofMicros s.clock) op).1

/-- The record of a run, under its id or the execution id that it was started with. -/
def findRun (around : Surroundings) (settings : Settings) (s : Session) (id : String)
    (byExecution : Bool) : Except Fault StoreAnswer := do
  if byExecution then
    match ← lookUp around settings s (.runOfExecution id) with
    | .name (some runId) => lookUp around settings s (.getRun runId)
    | _ => return .run none
  else lookUp around settings s (.getRun id)

/-- The line that shows a job in a list. -/
def jobLine (r : JobRecord) : String :=
  r.jobId ++ "\t" ++ r.status.word ++ "\t" ++ r.createdAt.isoText

/-- The line that shows a queue in a list. -/
def queueLine (r : QueueRecord) : String :=
  r.id ++ "\t" ++ r.queueId ++ "\t" ++ r.status.toValue.display ++ "\t"
    ++ toString r.steps.length ++ " steps"

/-- What is printed for what was found in the stores. -/
def printFound : StoreAnswer → Printed
  | .run (some r) =>
    .document (.object ((Keyed.erase ((Recorded.toValue r).fields?.getD []) "metadata")))
  | .run none => .failure "Run not found"
  | .job (some r) => .document (Recorded.toValue r)
  | .job none => .failure "Job not found"
  | .jobs [] => .line "No jobs found"
  | .jobs rs => .ofLines 0 (rs.map jobLine)
  | .queue (some r) => .document (Recorded.toValue r)
  | .queue none => .failure "Queue job not found"
  | .queues [] => .line "No queue jobs found"
  | .queues rs => .ofLines 0 (rs.map queueLine)
  | _ => .ofLines 0 []

namespace Session

/-- Carries out a command under settings. -/
def performWith (s : Session) (around : Surroundings) (settings : Settings) :
    Command → Except Fault Printed × Session
  | .validate file => (validateFile around file, s)
  | .run o => runFile around settings s o
  | .signal token payload => (sendSignal around settings token payload, s)
  | .status id byExecution => (printFound <$> findRun around settings s id byExecution, s)
  | .showJob id => (printFound <$> lookUp around settings s (.getJob id), s)
  | .listJobs workerId => (printFound <$> lookUp around settings s (.listJobs workerId), s)
  | .showQueue id => (printFound <$> lookUp around settings s (.getQueue id), s)
  | .listQueues queueId limit =>
    (printFound <$> lookUp around settings s (.listQueues queueId limit), s)

/-- Carries out a command line. -/
def perform (s : Session) (around : Surroundings) (arguments : List String) :
    Except Fault Printed × Session :=
  match CommandLine.read? arguments with
  | none => (.ok .usage, s)
  | some line =>
    match Settings.load around.document? around.env (line.config.map plainPath) with
    | .error f => (.error f, s)
    | .ok settings =>
      match Command.read? line.words with
      | none => (.ok .usage, s)
      | some command => s.performWith around settings command

end Session

/-- The files that a command line names: that of the settings, and that of a plan. -/
def CommandLine.files (line : CommandLine) (env : Keyed String) : List String :=
  let plan :=
    match Command.read? line.words with
    | some (.validate file) => [plainPath file]
    | some (.run o) => [plainPath o.file]
    | _ => []
  Settings.fileName env (line.config.map plainPath) :: plan

end Runbook
