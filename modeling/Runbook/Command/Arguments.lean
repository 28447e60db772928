import Runbook.Keyed

/-!
# `Command.Arguments` — options and words of a command line

An option is written with its long name or, if it has one, its letter; some take a value, which
follows an equals sign, the letter, or as the next argument. Two dashes end the options.

## Contents
- **Options.** `OptionForm`, `OptionUse`, and `optionUse`, what an argument that begins with a dash
  stands for.
- **Arguments.** `Arguments`, with `value?` and `isSet`, and `Arguments.read`.
-/

namespace Runbook

/-- How an option is written. -/
structure OptionForm where
  /-- With its dashes. -/
  name : String
  letter : Option Char := none
  takesValue : Bool := true

/-- What an argument that begins with a dash stands for. -/
inductive OptionUse where
  | complete (name value : String)
  /-- The value is the next argument. -/
  | incomplete (name : String)
  | unknown
  deriving DecidableEq, Repr

/-- A use of the long name of an option. -/
def longUse (form : OptionForm) (given : Option String) : OptionUse :=
  match form.takesValue, given with
  | true, some value => .complete form.name value
  | true, none => .incomplete form.name
  | false, none => .complete form.name ""
  | false, some _ => .unknown

/-- A use of the letters of options. -/
def letterUse (forms : List OptionForm) : List Char → OptionUse
  | '-' :: letter :: rest =>
    match forms.find? fun f => f.letter = some letter with
    | some f => if rest.isEmpty then .incomplete f.name else .complete f.name (String.ofList rest)
    | none => .unknown
  | _ => .unknown

/-- What an argument that begins with a dash stands for. -/
def optionUse (forms : List OptionForm) (argument : String) : OptionUse :=
  let cs := argument.toList
  let name := String.ofList (cs.takeWhile (· ≠ '='))
  let given :=
    match cs.dropWhile (· ≠ '=') with
    | [] => none
    | _ :: value => some (String.ofList value)
  match forms.find? fun f => f.name = name with
  | some f => longUse f given
  | none => letterUse forms cs

/-- The options and the words of a command line. -/
structure Arguments where
  /-- In order; an option without a value has the empty text. -/
  options : Keyed String
  words : List String
  deriving DecidableEq, Repr

namespace Arguments

/-- The value of an option: the last one that is given. -/
def value? (a : Arguments) (name : String) : Option String := Keyed.get? a.options.reverse name

/-- Whether an option is given. -/
def isSet (a : Arguments) (name : String) : Bool := a.options.has name

/-- The arguments with one more option in front. -/
def withOption (name value : String) (a : Arguments) : Arguments :=
  { a with options := (name, value) :: a.options }

/-- The arguments with one more word in front. -/
def withWord (word : String) (a : Arguments) : Arguments := { a with words := word :: a.words }

/-- Reads arguments; absent when an option is unknown or lacks its value. Options may stand behind
    words if `mixed`; otherwise everything behind the first word is a word. -/
def read (forms : List OptionForm) (mixed : Bool) : List String → Option Arguments
  | [] => some ⟨[], []⟩
  | argument :: rest =>
    if argument = "--" then some ⟨[], rest⟩
    else if argument.startsWith "-" && argument ≠ "-" then
      match optionUse forms argument with
      | .complete name value => (read forms mixed rest).map (withOption name value)
      | .incomplete name =>
        match rest with
        | value :: rest => (read forms mixed rest).map (withOption name value)
        | [] => none
      | .unknown => none
    else if mixed then (read forms mixed rest).map (withWord argument)
    else some ⟨[], argument :: rest⟩

end Arguments

end Runbook
