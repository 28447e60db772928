/-!
# `Proofs.Texts` — how texts begin

A text is looked at from its beginning: for a text that it must begin with, and for a run of characters of one
class. Both are told here by what follows.

## Contents
- **Beginnings.** `startsWith_iff`.
- **Runs.** `span_run`.
-/

namespace Runbook.Text

/-- A text begins with another if something can be put behind that. -/
theorem startsWith_iff {s start : String} : s.startsWith start = true ↔ ∃ rest, s = start ++ rest := by
  rw [String.startsWith_string_iff]
  constructor
  · rintro ⟨rest, hrest⟩
    refine ⟨String.ofList rest, String.toList_injective ?_⟩
    rw [String.toList_append, String.toList_ofList, hrest]
  · rintro ⟨rest, rfl⟩
    rw [String.toList_append]
    exact List.prefix_append _ _

/-- Where a run of characters of a class ends. -/
theorem span_run {inClass : Char → Bool} {run rest : List Char} (hrun : ∀ c ∈ run, inClass c = true)
    (hrest : ∀ c ∈ rest.head?, inClass c = false) :
    (run ++ rest).takeWhile inClass = run ∧ (run ++ rest).dropWhile inClass = rest := by
  rw [List.takeWhile_append_of_pos hrun, List.dropWhile_append_of_pos hrun]
  cases rest with
  | nil => simp
  | cons c rest => simp [hrest c rfl]

end Runbook.Text
