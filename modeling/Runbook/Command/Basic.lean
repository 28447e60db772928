import Runbook.Command.Arguments
import Runbook.Text.Digit

/-!
# `Command.Basic` — the commands

A command line names a settings file, if it likes, and then a command with its own options. The
command is only read after the settings have been loaded.

## Contents
- **Command lines.** `CommandLine` and `CommandLine.read?`.
- **Commands.** `RunOptions`, `Command`, and `Command.read?`.
-/

namespace Runbook

/-- A command line: the settings file and the words of the command. -/
structure CommandLine where
  config : Option String
  words : List String
  deriving DecidableEq, Repr

namespace CommandLine

/-- The options before the command. -/
def forms : List OptionForm := [⟨"--config", some 'c', true⟩, ⟨"--log-level", none, true⟩]

/-- The words with which commands begin. -/
def firstWords : List String := ["validate", "run", "status", "signal", "job", "queue"]

/-- Reads a command line; absent when it names no command. -/
def read? (arguments : List String) : Option CommandLine := do
  let a ← Arguments.read forms false arguments
  if firstWords.contains (← a.words.head?) then some ⟨a.value? "--config", a.words⟩ else none

end CommandLine

/-- How a plan is run. -/
structure RunOptions where
  file : String
  /-- JSON text that takes the place of the input of the plan. -/
  input : Option String
  runId : Option String
  continueOnError : Bool
  resume : Bool
  deriving DecidableEq, Repr

/-- The commands. -/
inductive Command where
  | validate (file : String)
  | run (options : RunOptions)
  | status (runId : String) (byExecution : Bool)
  | signal (token payload : String)
  | showJob (id : String)
  | listJobs (workerId : String)
  | showQueue (id : String)
  | listQueues (queueId : Option String) (limit : Int)
  deriving DecidableEq, Repr

namespace Command

/-- The options of `run`. -/
def runForms : List OptionForm :=
  [⟨"--input", some 'i', true⟩, ⟨"--run-id", none, true⟩, ⟨"--continue-on-error", none, false⟩,
   ⟨"--resume", none, false⟩]

/-- The options of `queue list`. -/
def queueForms : List OptionForm := [⟨"--queue-id", none, true⟩, ⟨"--limit", none, true⟩]

/-- Reads the arguments of a command that takes one word. -/
def readWord? (make : String → Command) (arguments : List String) : Option Command := do
  match (← Arguments.read [] true arguments).words with
  | [word] => some (make word)
  | _ => none

/-- Reads the arguments of `run`. -/
def readRun? (arguments : List String) : Option Command := do
  let a ← Arguments.read runForms true arguments
  match a.words with
  | [file] =>
    some (.run
      ⟨file, a.value? "--input", a.value? "--run-id", a.isSet "--continue-on-error",
        a.isSet "--resume"⟩)
  | _ => none

/-- Reads the arguments of `status`. -/
def readStatus? (arguments : List String) : Option Command := do
  let a ← Arguments.read [⟨"--execution-id", none, false⟩] true arguments
  match a.words with
  | [id] => some (.status id (a.isSet "--execution-id"))
  | _ => none

/-- Reads the arguments of `signal`; the payload is an empty object when none is given. -/
def readSignal? (arguments : List String) : Option Command := do
  match (← Arguments.read [] true arguments).words with
  | [token] => some (.signal token "\x7b\x7d")
  | [token, payload] => some (.signal token payload)
  | _ => none

/-- Reads the arguments of `queue list`. -/
def readQueues? (arguments : List String) : Option Command := do
  let a ← Arguments.read queueForms true arguments
  let limit ←
    match a.value? "--limit" with
    | some text => Text.integerOfText? text
    | none => some 50
  match a.words with
  | [] => some (.listQueues (a.value? "--queue-id") limit)
  | _ => none

/-- Reads a command of the group `job`. -/
def readJob? (words : List String) : Option Command := do
  match (← Arguments.read [] false words).words with
  | "show" :: arguments => readWord? .showJob arguments
  | "list" :: arguments => readWord? .listJobs arguments
  | _ => none

/-- Reads a command of the group `queue`. -/
def readQueue? (words : List String) : Option Command := do
  match (← Arguments.read [] false words).words with
  | "show" :: arguments => readWord? .showQueue arguments
  | "list" :: arguments => readQueues? arguments
  | _ => none

/-- Reads a command. -/
def read? : List String → Option Command
  | "validate" :: arguments => readWord? .validate arguments
  | "run" :: arguments => readRun? arguments
  | "status" :: arguments => readStatus? arguments
  | "signal" :: arguments => readSignal? arguments
  | "job" :: words => readJob? words
  | "queue" :: words => readQueue? words
  | _ => none

end Command

end Runbook
