/-!
# `Text.Blank` — white space

The characters that separate words: the blanks and line ends of ASCII, the information
separators, and the space separators of Unicode.

## Contents
- **The property.** `isBlank`, a decidable class of characters.
- **Trimming.** `trimLeft`, `trimRight`, `trim` on lists of characters and `isBlankText` on strings.
-/

namespace Runbook.Text

/-- The ranges of code points that count as white space. -/
def blankRanges : List (Nat × Nat) :=
  [(0x9, 0xd), (0x1c, 0x20), (0x85, 0x85), (0xa0, 0xa0), (0x1680, 0x1680), (0x2000, 0x200a),
   (0x2028, 0x2029), (0x202f, 0x202f), (0x205f, 0x205f), (0x3000, 0x3000)]

/-- Whether a code point lies in one of the ranges. -/
def inRanges (ranges : List (Nat × Nat)) (code : Nat) : Bool :=
  ranges.any fun (low, high) => low ≤ code && code ≤ high

/-- White space. -/
def isBlank (c : Char) : Bool := inRanges blankRanges c.toNat

/-- Drops leading white space. -/
def trimLeft (cs : List Char) : List Char := cs.dropWhile isBlank

/-- Drops trailing white space. -/
def trimRight (cs : List Char) : List Char := (cs.reverse.dropWhile isBlank).reverse

/-- Drops white space at both ends. -/
def trim (cs : List Char) : List Char := trimRight (trimLeft cs)

/-- A text that is empty or holds white space only. -/
def isBlankText (s : String) : Bool := s.toList.all isBlank

/-- Everything core counts as white space is blank. -/
theorem isBlank_of_isWhitespace {c : Char} (h : c.isWhitespace = true) : isBlank c = true := by
  simp only [Char.isWhitespace, Bool.or_eq_true, decide_eq_true_eq] at h
  rcases h with ((h | h) | h) | h <;> subst h <;> decide

end Runbook.Text
