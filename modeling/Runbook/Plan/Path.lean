/-!
# `Plan.Path` — where a step stands in a plan

The path of a step leads from the root list through the lists that contain it. Messages, journals
and job names all use its text.

## Contents
- **Paths.** `Branch`, `Place` and `StepPath`; `root` and `child` extend them.
- **Text.** `StepPath.text`: `2-parallel.parallel.0-agent`.
-/

namespace Runbook

/-- The list of a step that a nested step belongs to. -/
inductive Branch where
  | whenTrue
  | whenFalse
  | parallel
  deriving DecidableEq, Repr

/-- The word for a list in paths. -/
def Branch.word : Branch → String
  | .whenTrue => "then"
  | .whenFalse => "else"
  | .parallel => "parallel"

/-- A position in one list of steps: the list (absent for the root list), the index and the type of
    the step that stands there. An index below zero counts from the end of the root list. -/
structure Place where
  branch : Option Branch
  index : Int
  kind : String
  deriving DecidableEq, Repr

/-- The text of a position. -/
def Place.text (p : Place) : String :=
  let step := toString p.index ++ "-" ++ p.kind
  match p.branch with
  | none => step
  | some b => b.word ++ "." ++ step

/-- The positions that lead to a step, outermost first. -/
abbrev StepPath := List Place

namespace StepPath

/-- The path of a step of the root list. -/
def root (index : Int) (kind : String) : StepPath := [⟨none, index, kind⟩]

/-- The path of a step inside a list of the step at `path`. -/
def child (path : StepPath) (branch : Branch) (index : Nat) (kind : String) : StepPath :=
  path ++ [⟨some branch, index, kind⟩]

/-- The path of a step in a list: the root list, or a list of the step at the end of a path. -/
def within (parent : Option (StepPath × Branch)) (index : Nat) (kind : String) : StepPath :=
  match parent with
  | none => root index kind
  | some (path, branch) => child path branch index kind

/-- The text of a path. -/
def text (path : StepPath) : String := String.intercalate "." (path.map Place.text)

end StepPath

end Runbook
