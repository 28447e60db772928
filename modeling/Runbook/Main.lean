import Runbook.Command.Session

/-!
# `Main` — the command line

Reads the environment and the files that a command line names, carries out the command, and prints
its answer. Files hold JSON documents. Each call is a session of its own: its clock starts at zero,
nothing remote answers, and databases end with it.
-/

open Runbook

/-- The variables of the environment that matter, as far as they are set. -/
def readEnvironment : IO (Keyed String) :=
  Settings.environmentNames.filterMapM fun name => do
    return (← IO.getEnv name).map fun value => (name, value)

/-- The document in a file; absent when there is no such file. -/
def readDocument (path : String) : IO (Option (Except JsonError Value)) := do
  try
    return some (Value.ofJson (← IO.FS.readFile path))
  catch _ => return none

/-- The documents in the files that exist; the name of the first that holds no document. -/
def readDocuments : List String → IO (Except String (Keyed Value))
  | [] => return .ok []
  | path :: rest => do
    match ← readDocument path with
    | none => readDocuments rest
    | some (.error _) => return .error path
    | some (.ok v) => return (← readDocuments rest).map fun found => (path, v) :: found

/-- Prints an answer; the exit code. -/
def printAnswer : Except Fault Printed → IO UInt32
  | .ok p => do
    IO.print p.text
    return UInt32.ofNat p.exitCode
  | .error f => do
    IO.eprintln (f.name ++ ": " ++ f.message)
    return 1

/-- Carries out a command line. -/
def main (arguments : List String) : IO UInt32 := do
  let env ← readEnvironment
  let files := ((CommandLine.read? arguments).map fun line => line.files env).getD []
  match ← readDocuments files with
  | .error path => do
    IO.eprintln ("Not a JSON document: " ++ path)
    return 1
  | .ok found =>
    let session : Session := { idsGiven := ← IO.rand 0 (Nat.pow 2 120) }
    printAnswer (session.perform ⟨env, found.get?⟩ arguments).1
