import Runbook.Value.Basic

/-!
# `Decode.Problem` — what is wrong with a document, and where

Reading a structure out of a value collects every problem, each with the path of keys and positions
that leads to it.

## Contents
- **Places.** `LocPart` and its text.
- **Problems.** `Complaint` with its code and wording; `Problem`, a complaint at a place.
- **Results.** `Checked`, the value read or all problems, whose applicative combination collects the
  problems of both sides in order.
-/

namespace Runbook

/-- One part of the path to a problem. -/
inductive LocPart where
  | name (s : String)
  | index (n : Nat)
  deriving DecidableEq, Repr

/-- The text of a part. -/
def LocPart.text : LocPart → String
  | .name s => s
  | .index n => toString n

/-- What can be wrong with a part of a document. -/
inductive Complaint where
  | missing
  | stringType
  | intType
  | intParsing
  | intFromFloat
  | intParsingSize
  | finiteNumber
  | floatType
  | floatParsing
  | boolType
  | boolParsing
  | listType
  | dictType
  | callableType
  | literalError (allowed : List String)
  | modelType (name : String)
  | modelAttributesType
  | unionTagInvalid (tag : String) (expected : List String)
  | unionTagNotFound
  | stringTooShort
  | listTooShort
  | belowMinimum
  | datetimeType
  | datetimeTooShort
  | datetimeInvalid (reason : String)
  deriving DecidableEq, Repr

namespace Complaint

/-- The code of a complaint. -/
def code : Complaint → String
  | .missing => "missing"
  | .stringType => "string_type"
  | .intType => "int_type"
  | .intParsing => "int_parsing"
  | .intFromFloat => "int_from_float"
  | .intParsingSize => "int_parsing_size"
  | .finiteNumber => "finite_number"
  | .floatType => "float_type"
  | .floatParsing => "float_parsing"
  | .boolType => "bool_type"
  | .boolParsing => "bool_parsing"
  | .listType => "list_type"
  | .dictType => "dict_type"
  | .callableType => "callable_type"
  | .literalError _ => "literal_error"
  | .modelType _ => "model_type"
  | .modelAttributesType => "model_attributes_type"
  | .unionTagInvalid _ _ => "union_tag_invalid"
  | .unionTagNotFound => "union_tag_not_found"
  | .stringTooShort => "string_too_short"
  | .listTooShort => "too_short"
  | .belowMinimum => "greater_than_equal"
  | .datetimeType => "datetime_type"
  | .datetimeTooShort => "datetime_from_date_parsing"
  | .datetimeInvalid _ => "datetime_from_date_parsing"

/-- Words in single quotes. -/
def quotedWords (ws : List String) : List String := ws.map fun w => "'" ++ w ++ "'"

/-- Alternatives, the last one after `or`. -/
def alternatives (ws : List String) : String :=
  match (quotedWords ws).reverse with
  | [] => ""
  | [w] => w
  | w :: rest => String.intercalate ", " rest.reverse ++ " or " ++ w

/-- The wording of a complaint. -/
def message : Complaint → String
  | .missing => "Field required"
  | .stringType => "Input should be a valid string"
  | .intType => "Input should be a valid integer"
  | .intParsing => "Input should be a valid integer, unable to parse string as an integer"
  | .intFromFloat => "Input should be a valid integer, got a number with a fractional part"
  | .intParsingSize => "Unable to parse input string as an integer, exceeded maximum size"
  | .finiteNumber => "Input should be a finite number"
  | .floatType => "Input should be a valid number"
  | .floatParsing => "Input should be a valid number, unable to parse string as a number"
  | .boolType => "Input should be a valid boolean"
  | .boolParsing => "Input should be a valid boolean, unable to interpret input"
  | .listType => "Input should be a valid list"
  | .dictType => "Input should be a valid dictionary"
  | .callableType => "Input should be callable"
  | .literalError allowed => "Input should be " ++ alternatives allowed
  | .modelType name => "Input should be a valid dictionary or instance of " ++ name
  | .modelAttributesType => "Input should be a valid dictionary or object to extract fields from"
  | .unionTagInvalid tag expected =>
    "Input tag '" ++ tag ++ "' found using 'type' does not match any of the expected tags: "
      ++ String.intercalate ", " (quotedWords expected)
  | .unionTagNotFound => "Unable to extract tag using discriminator 'type'"
  | .stringTooShort => "String should have at least 1 character"
  | .listTooShort => "List should have at least 1 item after validation, not 0"
  | .belowMinimum => "Input should be greater than or equal to 0"
  | .datetimeType => "Input should be a valid datetime"
  | .datetimeTooShort => "Input should be a valid datetime or date, input is too short"
  | .datetimeInvalid reason => "Input should be a valid datetime or date, " ++ reason

end Complaint

/-- A complaint at a place. -/
structure Problem where
  loc : List LocPart
  complaint : Complaint
  deriving DecidableEq, Repr

/-- The path to a problem, its parts joined by dots. -/
def Problem.path (p : Problem) : String := String.intercalate "." (p.loc.map LocPart.text)

/-- What was read, or every problem met. -/
inductive Checked (α : Type) where
  | ok (a : α)
  | bad (problems : List Problem)

namespace Checked

variable {α β : Type}

/-- A single complaint about the value at hand. -/
def complain (c : Complaint) : Checked α := .bad [⟨[], c⟩]

/-- Applies a function to what was read. -/
def map (f : α → β) : Checked α → Checked β
  | .ok a => .ok (f a)
  | .bad ps => .bad ps

/-- Combines two readings; the problems of both are kept, the first side's first. -/
def both (f : Checked (α → β)) (a : Checked α) : Checked β :=
  match f, a with
  | .ok f, .ok a => .ok (f a)
  | .ok _, .bad ps => .bad ps
  | .bad ps, .ok _ => .bad ps
  | .bad ps, .bad qs => .bad (ps ++ qs)

instance : Applicative Checked where
  pure := .ok
  map := map
  seq f a := both f (a ())

/-- Continues with what was read. -/
def andThen (a : Checked α) (f : α → Checked β) : Checked β :=
  match a with
  | .ok a => f a
  | .bad ps => .bad ps

/-- Places a reading under a part of the path. -/
def under (part : LocPart) : Checked α → Checked α
  | .ok a => .ok a
  | .bad ps => .bad (ps.map fun p => { p with loc := part :: p.loc })

/-- Reads every item of a list at its position. -/
def items (read : Value → Checked β) : Nat → List Value → Checked (List β)
  | _, [] => .ok []
  | n, v :: rest => (List.cons <$> (read v).under (.index n)) <*> items read (n + 1) rest

end Checked

end Runbook
