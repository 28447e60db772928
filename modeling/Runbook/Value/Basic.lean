import Runbook.Keyed
import Runbook.Number.Binary

/-!
# `Value` — the data that orchestrations carry

Inputs, outputs, messages and whole orchestration documents are values: JSON data with integers of
any size kept apart from doubles and objects that remember the order of their keys. Three further
forms occur only on the side of the program that builds an orchestration: functions of the run
context, payload schemas, and objects that have already been read into one of the library's
structures.

## Contents
- **The types.** `Value`, `Schema` (a payload schema) and `Shape` (what an already read object is).
- **Reading.** `get?` on objects, `isNull`, `isObject`, the type names of messages.
- **Data.** `isData`, values that are plain JSON.
-/

namespace Runbook

/-- The type of a field of a payload schema. -/
inductive FieldKind where
  | text
  | whole
  | flag
  deriving DecidableEq, Repr

/-- What a missing field of a payload schema is filled with. -/
inductive FieldDefault where
  | text (s : String)
  | whole (n : Int)
  deriving DecidableEq, Repr

/-- One field of a payload schema; a field without a default is required. -/
structure SchemaField where
  name : String
  kind : FieldKind
  default : Option FieldDefault
  deriving DecidableEq, Repr

/-- A payload schema: the fields a payload is checked against, in declaration order. -/
structure Schema where
  name : String
  fields : List SchemaField
  deriving DecidableEq, Repr

/-- What an object that has already been read is. -/
inductive Shape where
  | plan
  | agent
  | worker
  | workflow
  | hook
  | sleep
  | condition
  | parallel
  | foreign
  | stepField
  | pollPolicy
  | join
  /-- A payload that was checked against a schema. -/
  | payload (schema : Schema)
  deriving DecidableEq, Repr

/-- The data that orchestrations carry. -/
inductive Value where
  | null
  | bool (b : Bool)
  | int (n : Int)
  | real (x : Float)
  | text (s : String)
  | list (items : List Value)
  | object (fields : List (String × Value))
  /-- A function of the run context, named by its place in the table of functions. -/
  | function (ref : Nat)
  /-- A payload schema. -/
  | schema (s : Schema)
  /-- An object that has already been read, with its fields under their attribute names. -/
  | parsed (shape : Shape) (fields : List (String × Value))
  deriving Inhabited

namespace Value

/-- The fields of a mapping; an object already read is not a mapping. -/
def fields? : Value → Option (Keyed Value)
  | .object fs => some fs
  | _ => none

/-- The value under a key of an object, absent for everything else. -/
def get? (v : Value) (key : String) : Option Value := v.fields?.bind (Keyed.get? · key)

/-- The value under a key of an object, null when absent. -/
def getD (v : Value) (key : String) : Value := (v.get? key).getD .null

/-- Whether a value is null. -/
def isNull : Value → Bool
  | .null => true
  | _ => false

/-- Whether a value is a mapping. -/
def isObject : Value → Bool
  | .object _ => true
  | _ => false

/-- The text of a text value. -/
def text? : Value → Option String
  | .text s => some s
  | _ => none

/-- The items of a list. -/
def items? : Value → Option (List Value)
  | .list items => some items
  | _ => none

/-- Functions and payload schemas can be called. -/
def isCallable : Value → Bool
  | .function _ | .schema _ => true
  | _ => false

/-- A present value that is not null. -/
def present? : Option Value → Option Value
  | some .null => none
  | v => v

/-- The optional text as a value. -/
def ofText? : Option String → Value
  | some s => .text s
  | none => .null

/-- The optional integer as a value. -/
def ofInt? : Option Int → Value
  | some n => .int n
  | none => .null

/-- The name of a value's type in messages. -/
def typeName : Value → String
  | .null => "NoneType"
  | .bool _ => "bool"
  | .int _ => "int"
  | .real _ => "float"
  | .text _ => "str"
  | .list _ => "list"
  | .object _ => "dict"
  | .function _ => "function"
  | .schema _ => "ModelMetaclass"
  | .parsed shape _ =>
    match shape with
    | .plan => "OrchestrationConfig"
    | .agent => "AgentStep"
    | .worker => "WorkerStep"
    | .workflow => "WorkflowStep"
    | .hook => "HookStep"
    | .sleep => "SleepStep"
    | .condition => "ConditionStep"
    | .parallel => "ParallelStep"
    | .foreign => "ForeignStep"
    | .stepField => "StepFieldCondition"
    | .pollPolicy => "PollPolicy"
    | .join => "FromSteps"
    | .payload s => s.name

mutual
/-- Plain JSON data with finite numbers. -/
def isData : Value → Bool
  | .null | .bool _ | .int _ | .text _ => true
  | .real x => Number.isFinite x
  | .list items => allData items
  | .object fields => allFieldsData fields
  | .function _ | .schema _ | .parsed _ _ => false

/-- `isData` of every item. -/
def allData : List Value → Bool
  | [] => true
  | v :: rest => v.isData && allData rest

/-- `isData` of every field. -/
def allFieldsData : List (String × Value) → Bool
  | [] => true
  | (_, v) :: rest => v.isData && allFieldsData rest
end

mutual
/-- Holds neither a function nor a schema nor an object already read, at any depth. -/
def isPlain : Value → Bool
  | .null | .bool _ | .int _ | .text _ | .real _ => true
  | .list items => allPlain items
  | .object fields => allFieldsPlain fields
  | .function _ | .schema _ | .parsed _ _ => false

/-- `isPlain` of every item. -/
def allPlain : List Value → Bool
  | [] => true
  | v :: rest => v.isPlain && allPlain rest

/-- `isPlain` of every field. -/
def allFieldsPlain : List (String × Value) → Bool
  | [] => true
  | (_, v) :: rest => v.isPlain && allFieldsPlain rest
end

end Value

end Runbook
