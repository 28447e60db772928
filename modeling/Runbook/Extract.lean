import Runbook.Value.Truth

/-!
# `Extract` — the result in an agent's reply

An agent replies with messages, each carrying typed parts. Its result is what the first strategy of
an ordered list finds; every strategy looks through all messages before the next one is tried.

## Contents
- **Parts.** `parts`, the mappings among the parts of all messages, in order.
- **Strategies.** `Strategy` and what each one accepts: `ofPart?` for the three that look at parts,
  `bareResult?` for a single message without parts.
- **Extraction.** `Strategy.find?` and `extract`.
-/

namespace Runbook

/-- A way to find the result in a reply. -/
inductive Strategy where
  /-- A part of type `tool-call-result` with an `output` or a `result`. -/
  | toolCallResult
  /-- A part of a type that begins with `tool-`, with an `output`. -/
  | toolOutput
  /-- A part of type `data` or `data-end` with `data`. -/
  | dataPart
  /-- A single message without parts: its `result`, or the message itself. -/
  | bareResult
  deriving DecidableEq, Repr

namespace Extract

/-- The mappings among the parts of the messages, in order. -/
def parts (messages : List Value) : List (Keyed Value) :=
  messages.flatMap fun message =>
    match message.get? "parts" with
    | some (.list items) => items.filterMap Value.fields?
    | _ => []

/-- The type of a part. -/
def partType? (part : Keyed Value) : Option String := (part.get? "type").bind Value.text?

/-- What a part offers to a strategy. -/
def ofPart? (strategy : Strategy) (part : Keyed Value) : Option Value :=
  match strategy with
  | .toolCallResult =>
    if partType? part = some "tool-call-result" then
      (part.get? "output").or (part.get? "result")
    else none
  | .toolOutput =>
    match partType? part with
    | some kind => if kind.startsWith "tool-" then part.get? "output" else none
    | none => none
  | .dataPart =>
    if partType? part = some "data" ∨ partType? part = some "data-end" then part.get? "data"
    else none
  | .bareResult => none

/-- The result of a single message without parts: its `result` field; a message that has neither an
    `id` nor parts is itself the result. -/
def bareResult? (messages : List Value) : Option Value :=
  match messages with
  | [.object fields] =>
    match Keyed.get? fields "parts" with
    | some given => if given.truthy then none else Keyed.get? fields "result"
    | none =>
      match Keyed.get? fields "result" with
      | some result => some result
      | none => if Keyed.has fields "id" then none else some (.object fields)
  | _ => none

end Extract

/-- What a strategy finds in the messages of a reply. -/
def Strategy.find? (strategy : Strategy) (messages : List Value) : Option Value :=
  match strategy with
  | .bareResult => Extract.bareResult? messages
  | strategy => (Extract.parts messages).findSome? (Extract.ofPart? strategy)

/-- The strategies in the order in which they are tried. -/
def Strategy.all : List Strategy := [.toolCallResult, .toolOutput, .dataPart, .bareResult]

/-- The messages of a reply: a list is taken as it is, anything else is a single message. -/
def messagesOf : Value → List Value
  | .list items => items
  | v => [v]

/-- The result in a reply, null when no strategy finds one. -/
def extract (strategies : List Strategy) (reply : Value) : Value :=
  match reply with
  | .null => .null
  | reply => (strategies.findSome? fun s => s.find? (messagesOf reply)).getD .null

end Runbook
