import Mathlib.Data.List.TakeWhile
import Runbook.Fault
import Runbook.Proofs.Reaching
import Runbook.Proofs.Texts

/-!
# `Proofs.DurationTexts` — the texts that are lengths of time

A length of time is written as digits, perhaps with a point and more digits, and perhaps with a unit, and blanks
may stand before, between and behind the two. The grammar is stated here as the ways to put such a text
together, and the way the text is taken apart is compared with it: whatever is put together is taken apart
into the same digits and the same unit, since no character belongs to two of the classes, and whatever is
taken apart had been put together.

What is taken apart is measured by the digits, as the number they write, and by the unit, as its length in the
table. Only a unit that the table does not have is refused then.

## Contents
- **Characters.** Digits, blanks and letters as ranges of code points, of which no two overlap.
- **Spellings.** `Duration.Spelling`, a text with its grammar; `split?_chars` and `exists_spelling`, the two ways
  of `split?_eq_some`.
- **Units.** `Duration.UnitLength`; `unitMillis?_unitName`.
- **Lengths.** What is spelled, what is spelled with an unknown unit, and what is not spelled; `texts_measured`.
-/

namespace Runbook

namespace Text

/-! ## Characters -/

/-- The code points of the decimal digits, script by script. -/
def digitRanges : List (Nat × Nat) := zeroDigits.map fun start => (start, start + 9)

/-- The code points of the letters of units. -/
def letterRanges : List (Nat × Nat) := [(65, 90), (97, 122)]

theorem inRanges_iff {ranges : List (Nat × Nat)} {code : Nat} :
    inRanges ranges code = true ↔ ∃ range ∈ ranges, range.1 ≤ code ∧ code ≤ range.2 := by
  simp [inRanges]

theorem inRanges_of_digit {c : Char} (h : isDecimalDigit c = true) : inRanges digitRanges c.toNat = true := by
  obtain ⟨d, hd⟩ := Option.isSome_iff_exists.mp h
  obtain ⟨start, hstart, -⟩ := Option.map_eq_some_iff.mp hd
  have hwithin : start ≤ c.toNat ∧ c.toNat < start + 10 := by simpa using List.find?_some hstart
  refine inRanges_iff.mpr ⟨(start, start + 9), ?_, hwithin.1, by omega⟩
  exact List.mem_map_of_mem (List.mem_of_find?_eq_some hstart)

theorem inRanges_of_letter {c : Char} (h : c.isAlpha = true) : inRanges letterRanges c.toNat = true := by
  rcases Bool.or_eq_true_iff.mp h with hupper | hlower
  · have hwithin : 65 ≤ c.toNat ∧ c.toNat ≤ 90 := of_decide_eq_true hupper
    exact inRanges_iff.mpr ⟨(65, 90), by decide, hwithin⟩
  · have hwithin : 97 ≤ c.toNat ∧ c.toNat ≤ 122 :=
      (Bool.and_eq_true_iff.mp hlower).imp of_decide_eq_true of_decide_eq_true
    exact inRanges_iff.mpr ⟨(97, 122), by decide, hwithin⟩

/-- A code point is in one class only, if no range of the one overlaps a range of the other. -/
theorem not_inRanges_of_apart {ranges others : List (Nat × Nat)}
    (hapart : ∀ range ∈ ranges, ∀ other ∈ others, range.2 < other.1 ∨ other.2 < range.1) {code : Nat}
    (h : inRanges ranges code = true) : inRanges others code = false := by
  rw [Bool.eq_false_iff]
  intro hother
  obtain ⟨range, hrange, hfrom, hto⟩ := inRanges_iff.mp h
  obtain ⟨other, hmem, hfrom', hto'⟩ := inRanges_iff.mp hother
  have := hapart range hrange other hmem
  omega

/-- No digit of any script is white space. -/
theorem not_blank_of_digit {c : Char} (h : isDecimalDigit c = true) : isBlank c = false :=
  not_inRanges_of_apart (by decide) (inRanges_of_digit h)

theorem not_blank_of_letter {c : Char} (h : c.isAlpha = true) : isBlank c = false :=
  not_inRanges_of_apart (by decide) (inRanges_of_letter h)

theorem not_digit_of_letter {c : Char} (h : c.isAlpha = true) : isDecimalDigit c = false := by
  have hranges : inRanges digitRanges c.toNat = false :=
    not_inRanges_of_apart (by decide) (inRanges_of_letter h)
  rw [Bool.eq_false_iff]
  exact fun hdigit => absurd (inRanges_of_digit hdigit) (by simp [hranges])

end Text

namespace Duration

/-! ## Spellings -/

/-- **A length of time as it is written**: digits, perhaps a point with more digits, and perhaps the letters of a
    unit, with blanks before, between and behind. -/
structure Spelling extends Parts where
  before : List Char
  between : List Char
  after : List Char
  whole_ne_nil : whole ≠ []
  digit_whole : ∀ c ∈ whole, Text.isDecimalDigit c = true
  digit_places : ∀ c ∈ places, Text.isDecimalDigit c = true
  letter_unit : ∀ c ∈ unit, c.isAlpha = true
  blank_before : ∀ c ∈ before, Text.isBlank c = true
  blank_between : ∀ c ∈ between, Text.isBlank c = true
  blank_after : ∀ c ∈ after, Text.isBlank c = true

/-- The digits behind the point with the point; a point with no digits behind it is not written. -/
def pointed : List Char → List Char
  | [] => []
  | places => '.' :: places

/-- What is written behind the digits. -/
def Spelling.behind (p : Spelling) : List Char := p.between ++ (p.unit ++ p.after)

/-- The text that is written. -/
def Spelling.chars (p : Spelling) : List Char := p.before ++ (p.whole ++ (pointed p.places ++ p.behind))

/-- The digits behind a point that a text begins with. -/
def placesOf : List Char → List Char
  | '.' :: more => more.takeWhile Text.isDecimalDigit
  | _ => []

/-- What follows the point and the digits behind it. -/
def behindPlaces (cs : List Char) : List Char :=
  if (placesOf cs).isEmpty then cs else cs.drop ((placesOf cs).length + 1)

/-- A text is cut in three: the whole digits, the digits behind the point, and the unit. -/
theorem split?_eq (cs : List Char) :
    split? cs =
      let whole := (Text.trimLeft cs).takeWhile Text.isDecimalDigit
      let rest := (Text.trimLeft cs).dropWhile Text.isDecimalDigit
      let behind := Text.trimLeft (behindPlaces rest)
      if whole.isEmpty then none
      else if (Text.trimLeft (behind.dropWhile isUnitLetter)).isEmpty then
        some ⟨whole, placesOf rest, behind.takeWhile isUnitLetter⟩
      else none := rfl

theorem trimLeft_blanks {run : List Char} (hrun : ∀ c ∈ run, Text.isBlank c = true) : Text.trimLeft run = [] :=
  List.dropWhile_eq_nil_iff.mpr hrun

namespace Spelling

variable (p : Spelling)

/-- Behind the digits stand blanks and letters only. -/
theorem not_digit_behind {c : Char} (hc : c ∈ p.behind) : Text.isDecimalDigit c = false ∧ c ≠ '.' := by
  have hblank (h : Text.isBlank c = true) : Text.isDecimalDigit c = false ∧ c ≠ '.' := by
    constructor
    · rw [Bool.eq_false_iff]
      exact fun hdigit => absurd h (by simp [Text.not_blank_of_digit hdigit])
    · rintro rfl
      exact absurd h (by decide)
  rw [behind, List.mem_append, List.mem_append] at hc
  rcases hc with hc | hc | hc
  · exact hblank (p.blank_between c hc)
  · have hletter := p.letter_unit c hc
    refine ⟨Text.not_digit_of_letter hletter, ?_⟩
    rintro rfl
    exact absurd hletter (by decide)
  · exact hblank (p.blank_after c hc)

theorem trimLeft_chars : Text.trimLeft p.chars = p.whole ++ (pointed p.places ++ p.behind) := by
  refine (Text.span_run p.blank_before ?_).2
  intro c hc
  obtain ⟨first, others, hwhole⟩ := List.exists_cons_of_ne_nil p.whole_ne_nil
  obtain rfl : first = c := by simpa [hwhole] using hc
  exact Text.not_blank_of_digit (p.digit_whole first (by simp [hwhole]))

theorem span_whole : (p.whole ++ (pointed p.places ++ p.behind)).takeWhile Text.isDecimalDigit = p.whole
    ∧ (p.whole ++ (pointed p.places ++ p.behind)).dropWhile Text.isDecimalDigit = pointed p.places ++ p.behind := by
  refine Text.span_run p.digit_whole ?_
  intro c hc
  unfold pointed at hc
  split at hc
  · exact (p.not_digit_behind (List.mem_of_mem_head? hc)).1
  · obtain rfl : '.' = c := by simpa using hc
    decide

/-- The digits behind the point are found, and where there are none, no point is taken for one of theirs. -/
theorem placesOf_pointed : placesOf (pointed p.places ++ p.behind) = p.places := by
  have hbehind {c : Char} (hc : c ∈ p.behind.head?) := p.not_digit_behind (List.mem_of_mem_head? hc)
  have hdigits := (Text.span_run p.digit_places fun c hc => (hbehind hc).1).1
  cases hplaces : p.places with
  | nil =>
    show placesOf p.behind = []
    unfold placesOf
    split
    · next more hmore => exact absurd rfl (hbehind (c := '.') (by simp [hmore])).2
    · rfl
  | cons digit digits =>
    rw [hplaces] at hdigits
    exact hdigits

theorem behindPlaces_pointed : behindPlaces (pointed p.places ++ p.behind) = p.behind := by
  rw [behindPlaces, p.placesOf_pointed]
  cases p.places <;> simp [pointed]

/-- The unit is found behind the blanks, and blanks only behind the unit. -/
theorem unit_taken : (Text.trimLeft p.behind).takeWhile isUnitLetter = p.unit
    ∧ Text.trimLeft ((Text.trimLeft p.behind).dropWhile isUnitLetter) = [] := by
  by_cases hunit : p.unit = []
  · -- without a unit the blanks in front of it are those behind it
    have hblank : ∀ c ∈ p.behind, Text.isBlank c = true := by
      intro c hc
      rw [behind, hunit, List.nil_append, List.mem_append] at hc
      exact hc.elim (p.blank_between c) (p.blank_after c)
    rw [trimLeft_blanks hblank, hunit]
    exact ⟨rfl, rfl⟩
  · obtain ⟨letter, letters, hletters⟩ := List.exists_cons_of_ne_nil hunit
    have hbetween : Text.trimLeft p.behind = p.unit ++ p.after := by
      refine (Text.span_run p.blank_between ?_).2
      intro c hc
      obtain rfl : letter = c := by simpa [hletters] using hc
      exact Text.not_blank_of_letter (p.letter_unit letter (by simp [hletters]))
    have hafter : ∀ c ∈ p.after.head?, isUnitLetter c = false := by
      intro c hc
      rw [Bool.eq_false_iff]
      intro hletter
      have hblank := p.blank_after c (List.mem_of_mem_head? hc)
      exact absurd hblank (by simp [Text.not_blank_of_letter hletter])
    obtain ⟨htake, hdrop⟩ := Text.span_run p.letter_unit hafter
    rw [hbetween]
    exact ⟨htake, (congrArg Text.trimLeft hdrop).trans (trimLeft_blanks p.blank_after)⟩

/-- **What is put together is taken apart again**, into the same digits and the same unit. -/
theorem split?_chars : split? p.chars = some p.toParts := by
  obtain ⟨hwhole, hrest⟩ := p.span_whole
  obtain ⟨hunit, hleft⟩ := p.unit_taken
  rw [split?_eq]
  simp only [p.trimLeft_chars, hwhole, hrest, p.placesOf_pointed, p.behindPlaces_pointed, hunit, hleft]
  simp [p.whole_ne_nil]

end Spelling

/-- The point and the digits behind it are all that stands in front of what follows them. -/
theorem pointed_append_behindPlaces (cs : List Char) : pointed (placesOf cs) ++ behindPlaces cs = cs := by
  unfold behindPlaces
  cases hplaces : placesOf cs with
  | nil => rfl
  | cons digit digits =>
    obtain ⟨more, rfl⟩ : ∃ more, cs = '.' :: more := by
      unfold placesOf at hplaces
      split at hplaces
      · exact ⟨_, rfl⟩
      · exact absurd hplaces (by simp)
    have htaken : more.takeWhile Text.isDecimalDigit = digit :: digits := hplaces
    have hwhole := List.takeWhile_append_dropWhile (p := Text.isDecimalDigit) (l := more)
    rw [htaken] at hwhole
    rw [← hwhole]
    simp [pointed]

theorem isDecimalDigit_of_mem_placesOf {cs : List Char} {c : Char} (hc : c ∈ placesOf cs) :
    Text.isDecimalDigit c = true := by
  unfold placesOf at hc
  split at hc
  · exact List.mem_takeWhile_imp hc
  · exact absurd hc List.not_mem_nil

theorem blanks_append_trimLeft (cs : List Char) : cs.takeWhile Text.isBlank ++ Text.trimLeft cs = cs :=
  List.takeWhile_append_dropWhile

/-- **What is taken apart had been put together.** -/
theorem exists_spelling {cs : List Char} {q : Parts} (h : split? cs = some q) :
    ∃ p : Spelling, p.chars = cs ∧ p.toParts = q := by
  rw [split?_eq] at h
  dsimp only at h
  obtain ⟨hwhole, h⟩ := Option.ite_none_left_eq_some.mp h
  obtain ⟨hleft, h⟩ := Option.ite_none_right_eq_some.mp h
  obtain rfl := Option.some.inj h
  have hrest := List.takeWhile_append_dropWhile (p := Text.isDecimalDigit) (l := Text.trimLeft cs)
  generalize (Text.trimLeft cs).dropWhile Text.isDecimalDigit = rest at hleft hrest ⊢
  have hunit := List.takeWhile_append_dropWhile (p := isUnitLetter) (l := Text.trimLeft (behindPlaces rest))
  generalize (Text.trimLeft (behindPlaces rest)).dropWhile isUnitLetter = after at hleft hunit
  refine ⟨{ whole := (Text.trimLeft cs).takeWhile Text.isDecimalDigit
            places := placesOf rest
            unit := (Text.trimLeft (behindPlaces rest)).takeWhile isUnitLetter
            before := cs.takeWhile Text.isBlank
            between := (behindPlaces rest).takeWhile Text.isBlank
            after := after
            whole_ne_nil := by simpa using hwhole
            digit_whole := fun c hc => List.mem_takeWhile_imp hc
            digit_places := fun c hc => isDecimalDigit_of_mem_placesOf hc
            letter_unit := fun c hc => List.mem_takeWhile_imp hc
            blank_before := fun c hc => List.mem_takeWhile_imp hc
            blank_between := fun c hc => List.mem_takeWhile_imp hc
            blank_after := List.dropWhile_eq_nil_iff.mp (List.isEmpty_iff.mp hleft) }, ?_, rfl⟩
  -- from the inside out, every part is followed by what was left when it was taken
  unfold Spelling.chars Spelling.behind
  dsimp only
  rw [hunit, blanks_append_trimLeft, pointed_append_behindPlaces, hrest, blanks_append_trimLeft]

/-- **A text is taken apart just when it is put together by the grammar.** -/
theorem split?_eq_some {cs : List Char} {q : Parts} :
    split? cs = some q ↔ ∃ p : Spelling, p.chars = cs ∧ p.toParts = q := by
  constructor
  · exact exists_spelling
  · rintro ⟨p, rfl, rfl⟩
    exact p.split?_chars

theorem split?_eq_none {cs : List Char} : split? cs = none ↔ ∀ p : Spelling, p.chars ≠ cs := by
  rw [Option.eq_none_iff_forall_ne_some]
  constructor
  · rintro h p rfl
    exact h _ p.split?_chars
  · intro h q hq
    obtain ⟨p, hp, -⟩ := exists_spelling hq
    exact h p hp

example : split? " 1.5 h\n".toList = some ⟨['1'], ['5'], ['h']⟩ := by decide

example : split? "1. h".toList = none := by decide

/-! ## Units -/

/-- **The length of a unit** in milliseconds: that of its name in the table, however its letters are cased; without
    a unit a number counts milliseconds. -/
inductive UnitLength : List Char → Nat → Prop where
  | bare : UnitLength [] 1
  | named {letters : List Char} {names : List String} {name : String} {factor : Nat} :
      (names, factor) ∈ units → name ∈ names → letters.map Char.toLower = name.toList → UnitLength letters factor

/-- Every name in the table stands for one length. -/
theorem unitMillis?_of_mem {names : List String} {name : String} {factor : Nat}
    (hunits : (names, factor) ∈ units) (hname : name ∈ names) : unitMillis? name = some factor := by
  have hall : ∀ entry ∈ units, ∀ name ∈ entry.1, unitMillis? name = some entry.2 := by decide
  exact hall _ hunits _ hname

/-- The unit that is looked up is the one that is written. -/
theorem unitMillis?_unitName {p : Parts} {factor : Nat} :
    unitMillis? p.unitName = some factor ↔ UnitLength p.unit factor := by
  have hbare : unitMillis? "ms" = some 1 := by decide
  unfold Parts.unitName
  by_cases hunit : p.unit = []
  · have hempty : ∀ entry ∈ units, ∀ name ∈ entry.1, name.toList ≠ [] := by decide
    rw [hunit, List.isEmpty_nil, if_pos rfl, hbare]
    constructor
    · intro h
      obtain rfl := Option.some.inj h
      exact .bare
    · rintro (_ | ⟨hunits, hname, hletters⟩)
      · rfl
      · exact absurd hletters.symm (hempty _ hunits _ hname)
  · rw [if_neg (by simpa using hunit)]
    constructor
    · intro h
      obtain ⟨⟨names, factor⟩, hfind, rfl⟩ := Option.map_eq_some_iff.mp h
      have hname : String.ofList (p.unit.map Char.toLower) ∈ names := by simpa using List.find?_some hfind
      exact .named (List.mem_of_find?_eq_some hfind) hname String.toList_ofList.symm
    · intro h
      cases hletters : p.unit with
      | nil => exact absurd hletters hunit
      | cons letter letters =>
        rw [hletters] at h
        cases h with
        | named hunits hname hlower =>
          rw [hlower, String.ofList_toList]
          exact unitMillis?_of_mem hunits hname

/-! ## Lengths -/

section

variable {s : String} {p : Spelling}

/-- The digits of a spelling write a number. -/
theorem Spelling.exists_writes (p : Spelling) : ∃ n, Text.Writes (p.whole ++ p.places) n := by
  refine ⟨_, (p.whole ++ p.places).map fun c => (Text.digitValue? c).getD 0, ?_, rfl⟩
  rw [List.map_map]
  apply List.map_congr_left
  intro c hc
  have hdigit : Text.isDecimalDigit c = true := (List.mem_append.mp hc).elim (p.digit_whole c) (p.digit_places c)
  obtain ⟨d, hd⟩ := Option.isSome_iff_exists.mp hdigit
  simp [hd]

/-- What is spelled with a unit of the table has the length that is spelled. -/
theorem millisecondsOf_of_spelled {n factor : Nat} (hp : p.chars = s.toList)
    (hn : Text.Writes (p.whole ++ p.places) n) (hunit : UnitLength p.unit factor) :
    millisecondsOf (.text s) = .ok (Float.ofScientific n true p.places.length * Float.ofNat factor) := by
  show textMillis s = _
  rw [textMillis, ← hp, p.split?_chars]
  dsimp only
  rw [unitMillis?_unitName.mpr hunit, Parts.number, Text.ofDigits?_eq_some.mpr hn]
  rfl

/-- What is spelled with another unit is refused for that unit. -/
theorem millisecondsOf_of_unknown (hp : p.chars = s.toList) (hunit : ∀ factor, ¬ UnitLength p.unit factor) :
    millisecondsOf (.text s) = .error (.unknownUnit (String.ofList (p.unit.map Char.toLower)) s) := by
  have hlookup : unitMillis? p.unitName = none := by
    rw [Option.eq_none_iff_forall_ne_some]
    exact fun factor h => hunit factor (unitMillis?_unitName.mp h)
  have hname : p.unitName = String.ofList (p.unit.map Char.toLower) := by
    rw [Parts.unitName, if_neg]
    intro hempty
    rw [List.isEmpty_iff.mp hempty] at hunit
    exact hunit 1 .bare
  show textMillis s = _
  rw [textMillis, ← hp, p.split?_chars]
  dsimp only
  rw [hlookup, hname]

/-- What is not spelled is refused for its format. -/
theorem millisecondsOf_of_unspelled (h : ∀ p : Spelling, p.chars ≠ s.toList) :
    millisecondsOf (.text s) = .error (.badFormat s) := by
  show textMillis s = _
  rw [textMillis, split?_eq_none.mpr h]

/-- A text is spelled with a unit of the table, or with another unit, or not at all. -/
theorem spelled_or_not (s : String) :
    (∃ (p : Spelling) (n factor : Nat), p.chars = s.toList ∧ Text.Writes (p.whole ++ p.places) n
        ∧ UnitLength p.unit factor)
      ∨ (∃ p : Spelling, p.chars = s.toList ∧ ∀ factor, ¬ UnitLength p.unit factor)
      ∨ ∀ p : Spelling, p.chars ≠ s.toList := by
  by_cases hspelled : ∃ p : Spelling, p.chars = s.toList
  · obtain ⟨p, hp⟩ := hspelled
    obtain ⟨n, hn⟩ := p.exists_writes
    by_cases hunit : ∃ factor, UnitLength p.unit factor
    · obtain ⟨factor, hunit⟩ := hunit
      exact .inl ⟨p, n, factor, hp, hn, hunit⟩
    · exact .inr (.inl ⟨p, hp, not_exists.mp hunit⟩)
  · exact .inr (.inr (not_exists.mp hspelled))

/-- **A text is a length of time just when it is spelled as one.** Its length is the product of the number that its
    digits write, as a double, and the length of its unit. Every other text is refused as no duration: one that is
    not spelled by the grammar for its format, one with a unit that the table does not have for that unit. -/
theorem texts_measured (s : String) :
    (∀ ms, millisecondsOf (.text s) = .ok ms ↔
        ∃ (p : Spelling) (n factor : Nat), p.chars = s.toList ∧ Text.Writes (p.whole ++ p.places) n
          ∧ UnitLength p.unit factor ∧ ms = Float.ofScientific n true p.places.length * Float.ofNat factor)
      ∧ (∀ problem, millisecondsOf (.text s) = .error problem ↔
        (∀ p : Spelling, p.chars ≠ s.toList) ∧ problem = .badFormat s
          ∨ ∃ p : Spelling, p.chars = s.toList ∧ (∀ factor, ¬ UnitLength p.unit factor)
            ∧ problem = .unknownUnit (String.ofList (p.unit.map Char.toLower)) s)
      ∧ ((¬ ∃ (p : Spelling) (factor : Nat), p.chars = s.toList ∧ UnitLength p.unit factor) ↔
        ∃ problem, millisecondsOf (.text s) = .error problem
          ∧ (Fault.ofDuration problem).name = "InvalidDuration") := by
  refine ⟨fun ms => ⟨fun h => ?_, ?_⟩, fun problem => ⟨fun h => ?_, ?_⟩, fun h => ?_, ?_⟩
  · rcases spelled_or_not s with ⟨p, n, factor, hp, hn, hunit⟩ | ⟨p, hp, hunit⟩ | hnone
    · rw [millisecondsOf_of_spelled hp hn hunit] at h
      exact ⟨p, n, factor, hp, hn, hunit, (Except.ok.inj h).symm⟩
    · exact nomatch (millisecondsOf_of_unknown hp hunit).symm.trans h
    · exact nomatch (millisecondsOf_of_unspelled hnone).symm.trans h
  · rintro ⟨p, n, factor, hp, hn, hunit, rfl⟩
    exact millisecondsOf_of_spelled hp hn hunit
  · rcases spelled_or_not s with ⟨p, n, factor, hp, hn, hunit⟩ | ⟨p, hp, hunit⟩ | hnone
    · exact nomatch (millisecondsOf_of_spelled hp hn hunit).symm.trans h
    · rw [millisecondsOf_of_unknown hp hunit] at h
      exact .inr ⟨p, hp, hunit, (Except.error.inj h).symm⟩
    · rw [millisecondsOf_of_unspelled hnone] at h
      exact .inl ⟨hnone, (Except.error.inj h).symm⟩
  · rintro (⟨hnone, rfl⟩ | ⟨p, hp, hunit, rfl⟩)
    · exact millisecondsOf_of_unspelled hnone
    · exact millisecondsOf_of_unknown hp hunit
  · rcases spelled_or_not s with ⟨p, n, factor, hp, hn, hunit⟩ | ⟨p, hp, hunit⟩ | hnone
    · exact absurd ⟨p, factor, hp, hunit⟩ h
    · exact ⟨_, millisecondsOf_of_unknown hp hunit, rfl⟩
    · exact ⟨_, millisecondsOf_of_unspelled hnone, rfl⟩
  · rintro ⟨problem, h, -⟩ ⟨p, factor, hp, hunit⟩
    obtain ⟨n, hn⟩ := p.exists_writes
    exact nomatch (millisecondsOf_of_spelled hp hn hunit).symm.trans h

end

end Duration

end Runbook
