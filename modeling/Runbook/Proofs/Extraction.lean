import Mathlib.Logic.Relation
import Runbook.Extract
import Runbook.Proofs.Texts

/-!
# `Proofs.Extraction` — the result of a reply does not depend on what stands around it

A reply is searched by one strategy after the other, and by each of them part by part through all messages. What
a part offers to a strategy is said here without the search. The result is then the first offer that is made to
the first strategy to which any is made, wherever the messages with offers to later strategies stand. Parts that
offer nothing can be put between the others, and messages without such parts between the messages, and the
result stays the same.

As long as anything is offered at all, a reply is never searched for a bare result, which does depend on how
many messages there are.

## Contents
- **Offers.** `Offers`, what a part offers to a strategy; `offer?_eq_some`.
- **Searches.** `partsOf` and `find?_eq`; `FirstOffer` with `firstOffer?_eq_some`, and `extract_eq_of_firstOffer?`.
- **Insertions.** `Inserted` and `firstOffer?_of_inserted`.
- **The result.** `extraction_stable`.
-/

namespace Runbook

namespace Extract

/-! ## Offers -/

/-- **What a part offers to a strategy.** -/
inductive Offers : Strategy → Value → Value → Prop where
  | callOutput {part : Keyed Value} {v : Value} (kind : part.get? "type" = some (.text "tool-call-result"))
      (output : part.get? "output" = some v) : Offers .toolCallResult (.object part) v
  | callResult {part : Keyed Value} {v : Value} (kind : part.get? "type" = some (.text "tool-call-result"))
      (bare : part.get? "output" = none) (result : part.get? "result" = some v) :
      Offers .toolCallResult (.object part) v
  | toolOutput {part : Keyed Value} {tool : String} {v : Value}
      (kind : part.get? "type" = some (.text ("tool-" ++ tool))) (output : part.get? "output" = some v) :
      Offers .toolOutput (.object part) v
  | data {part : Keyed Value} {kind : String} {v : Value} (kinds : kind = "data" ∨ kind = "data-end")
      (type : part.get? "type" = some (.text kind)) (data : part.get? "data" = some v) :
      Offers .dataPart (.object part) v

/-- A part that offers something to a strategy. -/
def IsOffer (part : Value) : Prop := ∃ s v, Offers s part v

/-- What a strategy takes from a part, if the part is a mapping. -/
def offer? (s : Strategy) (part : Value) : Option Value := part.fields?.bind (ofPart? s)

theorem partType?_eq_some {part : Keyed Value} {kind : String} :
    partType? part = some kind ↔ part.get? "type" = some (.text kind) := by
  unfold partType?
  cases part.get? "type" with
  | none => simp
  | some v => cases v <;> simp [Value.text?]

/-- **A strategy takes what a part offers to it.** -/
theorem ofPart?_eq_some {s : Strategy} {part : Keyed Value} {v : Value} :
    ofPart? s part = some v ↔ Offers s (.object part) v := by
  cases s with
  | toolCallResult =>
    -- an output is preferred to a result, which counts only without one
    rw [ofPart?, Option.ite_none_right_eq_some, partType?_eq_some, Option.or_eq_some_iff]
    constructor
    · rintro ⟨kind, output | ⟨bare, result⟩⟩
      · exact .callOutput kind output
      · exact .callResult kind bare result
    · rintro (⟨kind, output⟩ | ⟨kind, bare, result⟩)
      · exact ⟨kind, .inl output⟩
      · exact ⟨kind, .inr ⟨bare, result⟩⟩
  | toolOutput =>
    constructor
    · intro h
      rw [ofPart?] at h
      split at h
      · next kind hkind =>
        obtain ⟨hstart, output⟩ := Option.ite_none_right_eq_some.mp h
        obtain ⟨tool, rfl⟩ := Text.startsWith_iff.mp hstart
        exact .toolOutput (partType?_eq_some.mp hkind) output
      · exact absurd h (by simp)
    · rintro (_ | _ | ⟨kind, output⟩)
      rw [ofPart?, partType?_eq_some.mpr kind]
      dsimp only
      rw [if_pos (Text.startsWith_iff.mpr ⟨_, rfl⟩), output]
  | dataPart =>
    rw [ofPart?, Option.ite_none_right_eq_some]
    constructor
    · rintro ⟨kind | kind, data⟩
      · exact .data (.inl rfl) (partType?_eq_some.mp kind) data
      · exact .data (.inr rfl) (partType?_eq_some.mp kind) data
    · rintro (_ | _ | _ | ⟨rfl | rfl, kind, data⟩)
      · exact ⟨.inl (partType?_eq_some.mpr kind), data⟩
      · exact ⟨.inr (partType?_eq_some.mpr kind), data⟩
  | bareResult =>
    constructor
    · exact nofun
    · exact nofun

theorem offer?_eq_some {s : Strategy} {part v : Value} : offer? s part = some v ↔ Offers s part v := by
  cases part with
  | object part => exact ofPart?_eq_some
  | _ =>
    constructor
    · exact nofun
    · exact nofun

theorem offer?_eq_none {s : Strategy} {part : Value} : offer? s part = none ↔ ∀ v, ¬ Offers s part v := by
  simp only [Option.eq_none_iff_forall_ne_some, ne_eq, offer?_eq_some]

/-! ## Searches -/

/-- The parts of a message; a message without a list of parts has none. -/
def partsOf (message : Value) : List Value :=
  match message.get? "parts" with
  | some (.list items) => items
  | _ => []

/-- The parts that are searched are the mappings among the parts of all messages. -/
theorem parts_eq (messages : List Value) : parts messages = (messages.flatMap partsOf).filterMap Value.fields? := by
  rw [List.filterMap_flatMap, parts]
  congr 1
  funext message
  unfold partsOf
  cases message.get? "parts" with
  | none => rfl
  | some v => cases v <;> rfl

/-- The strategies that look at parts, in the order in which they are tried. -/
def partStrategies : List Strategy := [.toolCallResult, .toolOutput, .dataPart]

/-- They are tried before the search for a bare result. -/
theorem all_eq : Strategy.all = partStrategies ++ [.bareResult] := rfl

/-- A strategy that looks at parts takes the first offer. -/
theorem find?_eq {s : Strategy} (hs : s ≠ .bareResult) (messages : List Value) :
    s.find? messages = (messages.flatMap partsOf).findSome? (offer? s) := by
  have hparts : s.find? messages = (parts messages).findSome? (ofPart? s) := by
    cases s with
    | bareResult => exact absurd rfl hs
    | _ => rfl
  rw [hparts, parts_eq, ← List.head?_filterMap, List.filterMap_filterMap, List.head?_filterMap]
  rfl

/-- **The first offer to the first strategy to which anything is offered**: nothing is offered to the strategies
    before it by any part, and nothing to it by the parts before this one. -/
def FirstOffer (parts : List Value) (v : Value) : Prop :=
  ∃ (s : Strategy) (earlier later : List Strategy) (part : Value) (before after : List Value),
    Strategy.all = earlier ++ s :: later ∧ parts = before ++ part :: after ∧ Offers s part v
      ∧ (∀ p ∈ before, ∀ u, ¬ Offers s p u) ∧ ∀ s' ∈ earlier, ∀ p ∈ parts, ∀ u, ¬ Offers s' p u

/-- The first offer, by a search through the strategies, and for each of them through the parts. -/
def firstOffer? (parts : List Value) : Option Value :=
  Strategy.all.findSome? fun s => parts.findSome? (offer? s)

theorem firstOffer?_eq_some {parts : List Value} {v : Value} : firstOffer? parts = some v ↔ FirstOffer parts v := by
  simp only [firstOffer?, List.findSome?_eq_some_iff, List.findSome?_eq_none_iff, offer?_eq_some, offer?_eq_none]
  constructor
  · rintro ⟨earlier, s, later, hall, ⟨before, part, after, hparts, hoffer, hbefore⟩, hearlier⟩
    exact ⟨s, earlier, later, part, before, after, hall, hparts, hoffer, hbefore, hearlier⟩
  · rintro ⟨s, earlier, later, part, before, after, hall, hparts, hoffer, hbefore, hearlier⟩
    exact ⟨earlier, s, later, hall, ⟨before, part, after, hparts, hoffer, hbefore⟩, hearlier⟩

theorem exists_firstOffer? {parts : List Value} (h : ∃ part ∈ parts, IsOffer part) :
    ∃ v, firstOffer? parts = some v := by
  obtain ⟨part, hpart, s, v, hoffer⟩ := h
  apply Option.isSome_iff_exists.mp
  rw [firstOffer?, List.findSome?_isSome_iff]
  refine ⟨s, by cases s <;> decide, List.findSome?_isSome_iff.mpr ⟨part, hpart, ?_⟩⟩
  rw [offer?_eq_some.mpr hoffer]
  rfl

/-- **Where anything is offered, the result is the first offer**: the search for a bare result comes too late. -/
theorem extract_eq_of_firstOffer? {messages : List Value} {v : Value}
    (h : firstOffer? (messages.flatMap partsOf) = some v) : extract Strategy.all (.list messages) = v := by
  have hbare : (messages.flatMap partsOf).findSome? (offer? .bareResult) = none :=
    List.findSome?_eq_none_iff.mpr fun part _ => offer?_eq_none.mpr nofun
  have hsearch : (partStrategies.findSome? fun s => s.find? messages)
      = partStrategies.findSome? fun s => (messages.flatMap partsOf).findSome? (offer? s) := by
    simp only [partStrategies, List.findSome?, find?_eq (s := .toolCallResult) nofun,
      find?_eq (s := .toolOutput) nofun, find?_eq (s := .dataPart) nofun]
  rw [firstOffer?, all_eq, List.findSome?_append, List.findSome?_cons, hbare, List.findSome?_nil, Option.or_none] at h
  show (Strategy.all.findSome? fun s => s.find? messages).getD .null = v
  rw [all_eq, List.findSome?_append, hsearch, h]
  rfl

/-! ## Insertions -/

/-- **Something without an offer is put in**: a message anywhere in a reply, or a part anywhere among the parts of a
    message. -/
inductive Inserted : List Value → List Value → Prop where
  | message {before after : List Value} {message : Value} (h : ∀ part ∈ partsOf message, ¬ IsOffer part) :
      Inserted (before ++ after) (before ++ message :: after)
  | part {before after : List Value} {fields : Keyed Value} {first rest : List Value} {part : Value}
      (parts : fields.get? "parts" = some (.list (first ++ rest))) (h : ¬ IsOffer part) :
      Inserted (before ++ .object fields :: after)
        (before ++ .object (fields.put "parts" (.list (first ++ part :: rest))) :: after)

/-- Among the parts of all messages, those that are put in stand together and offer nothing. -/
theorem Inserted.parts {messages messages' : List Value} (h : Inserted messages messages') :
    ∃ before new after, messages.flatMap partsOf = before ++ after
      ∧ messages'.flatMap partsOf = before ++ (new ++ after) ∧ ∀ part ∈ new, ¬ IsOffer part := by
  cases h with
  | @message before after message h =>
    exact ⟨before.flatMap partsOf, partsOf message, after.flatMap partsOf, by simp, by simp, h⟩
  | @part before after fields first rest part hparts h =>
    have hold : partsOf (.object fields) = first ++ rest := by
      rw [partsOf, show (Value.object fields).get? "parts" = fields.get? "parts" from rfl, hparts]
    have hnew : partsOf (.object (fields.put "parts" (.list (first ++ part :: rest)))) = first ++ part :: rest := by
      rw [partsOf, show (Value.object (fields.put "parts" (.list (first ++ part :: rest)))).get? "parts" = _ from
        Keyed.get?_put_self ..]
    refine ⟨before.flatMap partsOf ++ first, [part], rest ++ after.flatMap partsOf, ?_, ?_, by simpa using h⟩
    · simp [hold]
    · simp [hnew]

/-- **What is put in changes no offer.** -/
theorem firstOffer?_of_inserted {messages messages' : List Value} (h : Inserted messages messages') :
    firstOffer? (messages'.flatMap partsOf) = firstOffer? (messages.flatMap partsOf) := by
  obtain ⟨before, new, after, hold, hnew, hnone⟩ := h.parts
  rw [hold, hnew, firstOffer?, firstOffer?]
  congr 1
  funext s
  have hskip : new.findSome? (offer? s) = none :=
    List.findSome?_eq_none_iff.mpr fun part hpart =>
      offer?_eq_none.mpr fun v hoffer => hnone part hpart ⟨s, v, hoffer⟩
  rw [List.findSome?_append, List.findSome?_append, List.findSome?_append, hskip, Option.none_or]

/-! ## The result -/

/-- **The result does not depend on what offers nothing.** Of a reply that is a list of messages and has a part that
    offers something to a strategy, the result is the first offer to the first strategy to which anything is
    offered; and whatever is put in between that offers nothing, messages or parts, the result stays the same. -/
theorem extraction_stable {messages : List Value}
    (hoffer : ∃ message ∈ messages, ∃ part ∈ partsOf message, IsOffer part) :
    (∀ v, extract Strategy.all (.list messages) = v ↔ FirstOffer (messages.flatMap partsOf) v)
      ∧ ∀ messages', Relation.ReflTransGen Inserted messages messages' →
        extract Strategy.all (.list messages') = extract Strategy.all (.list messages) := by
  obtain ⟨message, hmessage, part, hpart, hoffer⟩ := hoffer
  obtain ⟨v, hv⟩ := exists_firstOffer? ⟨part, List.mem_flatMap.mpr ⟨message, hmessage, hpart⟩, hoffer⟩
  have hresult := extract_eq_of_firstOffer? hv
  refine ⟨fun u => ?_, fun messages' hinserted => ?_⟩
  · rw [hresult, ← firstOffer?_eq_some, hv]
    exact Option.some_inj.symm
  · rw [hresult]
    apply extract_eq_of_firstOffer?
    induction hinserted with
    | refl => exact hv
    | tail _ hlast ih => exact (firstOffer?_of_inserted hlast).trans ih

/-- A remark in a message. -/
def remark : Value := .object [("type", .text "text"), ("text", .text "Let me see.")]

theorem remark_no_offer : ¬ IsOffer remark := by
  rintro ⟨s, v, hoffer⟩
  cases hoffer with
  | callOutput kind | callResult kind => exact absurd kind (by simp [Keyed.get?])
  | @toolOutput _ tool _ kind =>
    have hkind : "text" = "tool-" ++ tool := Value.text.inj (Option.some.inj kind)
    exact absurd (congrArg String.toList hkind) (by simp)
  | data kinds kind =>
    obtain rfl := Value.text.inj (Option.some.inj kind)
    exact absurd kinds (by decide)

/-- A draft in one message, and the answer of a tool in the next. -/
def answered : List Value :=
  [.object [("id", .text "m1"), ("parts", .list [.object [("type", .text "data"), ("data", .text "draft")]])],
   .object [("parts", .list [.object [("type", .text "tool-call-result"), ("output", .int 42)]])]]

/-- The same with remarks: a message of one, and one before the answer. -/
def answeredWithRemarks : List Value :=
  [.object [("id", .text "m1"), ("parts", .list [.object [("type", .text "data"), ("data", .text "draft")]])],
   .object [("parts", .list [remark])],
   .object [("parts", .list [remark, .object [("type", .text "tool-call-result"), ("output", .int 42)]])]]

theorem answered_inserted : Relation.ReflTransGen Inserted answered answeredWithRemarks := by
  have hmessage : ∀ part ∈ partsOf (.object [("parts", .list [remark])]), ¬ IsOffer part := by
    intro part hpart
    obtain rfl := List.mem_singleton.mp hpart
    exact remark_no_offer
  refine .tail (.tail .refl (@Inserted.message [_] _ _ hmessage)) ?_
  exact @Inserted.part [_, _] [] _ [] _ _ rfl remark_no_offer

/-- The answer is the result, with remarks and without, although the draft comes first. -/
theorem answer_extracted :
    (∃ message ∈ answered, ∃ part ∈ partsOf message, IsOffer part)
      ∧ extract Strategy.all (.list answered) = .int 42
      ∧ extract Strategy.all (.list answeredWithRemarks) = .int 42 := by
  have hoffer : ∃ message ∈ answered, ∃ part ∈ partsOf message, IsOffer part :=
    ⟨_, .head _, _, .head _, _, _, .data (.inl rfl) rfl rfl⟩
  have hanswer : extract Strategy.all (.list answered) = .int 42 := rfl
  exact ⟨hoffer, hanswer, ((extraction_stable hoffer).2 _ answered_inserted).trans hanswer⟩

end Extract

end Runbook
