import Mathlib.Data.Finset.Card
import Runbook.Proofs.DistinctIds

/-!
# `Proofs.RepeatedIds` — every id that is given again is reported, and no other

The walk through a plan notes an id that it comes to for the first time and reports one that it has noted
before. So what has been noted and what has been reported make up, together, all ids of the steps that it has
come to, whatever else it has found on the way. Nothing is noted twice and nothing is reported that is not
noted: in the end each id has been reported once less than it is given.

## Contents
- **Names.** `Plan.names`, the ids that are not empty; `repeatedIds`, the ids that issues report.
- **The walk.** `Findings.Accounts`, the noted and the reported ids make up all of them; `Takes.accounts`.
- **Answers.** `validate_ok` and `not_oversized_of_ok`.
- **Plans.** `duplicates_reported`.
-/

namespace Runbook

/-! ## Names -/

/-- The ids in a plan that are not empty, as often as they are given. -/
def Plan.names (p : Plan) : List String := p.ids.filter (· ≠ "")

/-- The id that an issue reports as given again. -/
def Issue.repeatedId? (i : Issue) : Option String :=
  match i.defect with
  | .duplicateId id => some id
  | _ => none

/-- The ids that issues report as given again. -/
def repeatedIds (issues : List Issue) : List String := issues.filterMap Issue.repeatedId?

theorem code_eq_iff {i : Issue} : i.defect.code = "DUPLICATE_STEP_ID" ↔ i.repeatedId?.isSome = true := by
  unfold Issue.repeatedId?
  cases i.defect with
  | blankName kind => cases kind <;> simp [Defect.code]
  | _ => simp [Defect.code]

theorem countP_code (issues : List Issue) :
    (issues.countP fun i => i.defect.code = "DUPLICATE_STEP_ID") = (repeatedIds issues).length := by
  rw [repeatedIds, List.length_filterMap_eq_countP]
  exact List.countP_congr fun i _ => by simpa using code_eq_iff

namespace Validation

/-! ## The walk -/

/-- **What has been noted and what has been reported** make up the ids that the check has come to; what is reported
    is noted, and nothing is noted twice. -/
structure Findings.Accounts (ids : List String) (f f' : Findings) : Prop where
  perm : (f'.seen ++ repeatedIds f'.issues).Perm (f.seen ++ repeatedIds f.issues ++ ids.filter (· ≠ ""))
  seen_subset : f.seen ⊆ f'.seen
  reported_seen : repeatedIds f.issues ⊆ f.seen → repeatedIds f'.issues ⊆ f'.seen
  nodup : f.seen.Nodup → f'.seen.Nodup

namespace Findings.Takes

variable {ids : List String} {f f' : Findings}

theorem repeatedIds_add (f : Findings) (defect : Defect) (step : Option String) :
    repeatedIds (f.add defect step).issues = repeatedIds f.issues ++ (Issue.repeatedId? ⟨defect, step⟩).toList := by
  unfold repeatedIds Findings.add
  rw [List.filterMap_append]
  cases h : Issue.repeatedId? ⟨defect, step⟩ <;> simp [h]

/-- An issue of another kind reports no id, and comes from no id but an empty one. -/
theorem accounts_add (f : Findings) {defect : Defect} (step : Option String) (hids : ids.filter (· ≠ "") = [])
    (h : ∀ id, defect ≠ .duplicateId id) : Accounts ids f (f.add defect step) := by
  have hnone : Issue.repeatedId? ⟨defect, step⟩ = none := by
    cases defect with
    | duplicateId id => exact absurd rfl (h id)
    | _ => rfl
  have hsame : repeatedIds (f.add defect step).issues = repeatedIds f.issues := by
    rw [repeatedIds_add, hnone, Option.toList_none, List.append_nil]
  refine ⟨?_, fun _ h => h, fun h => hsame ▸ h, fun h => h⟩
  rw [hsame, hids, List.append_nil]
  exact .refl _

/-- **The check accounts for every id that it comes to.** -/
theorem accounts (h : Takes ids f f') : Accounts ids f f' := by
  induction h with
  | nothing f => exact ⟨by simp, fun _ h => h, fun h => h, fun h => h⟩
  | issue f step h => exact accounts_add f step rfl h
  | blank f step => exact accounts_add f step (by simp) (by simp)
  | @repeated f id hid hseen =>
    have hreported := repeatedIds_add f (.duplicateId id) (some id)
    refine ⟨?_, fun _ h => h, fun h => ?_, fun h => h⟩
    · rw [hreported]
      simp [Issue.repeatedId?, hid, Findings.add]
    · rw [hreported]
      exact List.append_subset.mpr ⟨h, List.cons_subset.mpr ⟨hseen, List.nil_subset _⟩⟩
  | @fresh f id hid hnew =>
    refine ⟨?_, List.subset_append_left _ _, fun h => List.subset_append_of_subset_left _ h, nodup_append_new hnew⟩
    simp only [ne_eq, hid, not_false_eq_true, decide_true, List.filter_cons_of_pos, List.filter_nil]
    rw [List.append_assoc, List.append_assoc]
    exact List.perm_append_comm.append_left f.seen
  | trans _ _ ih₁ ih₂ =>
    refine ⟨?_, List.Subset.trans ih₁.seen_subset ih₂.seen_subset, fun h => ih₂.reported_seen (ih₁.reported_seen h),
      fun h => ih₂.nodup (ih₁.nodup h)⟩
    rw [List.filter_append, ← List.append_assoc]
    exact ih₂.perm.trans (ih₁.perm.append_right _)
  | perm _ hids ih =>
    exact ⟨ih.perm.trans ((hids.filter _).append_left _), ih.seen_subset, ih.reported_seen, ih.nodup⟩

end Findings.Takes

/-! ## Answers -/

/-- A check without lengths of time that are too large has an answer. -/
theorem validate_ok {v : Value} (h : ¬ Oversized v) : ∃ issues, validate v = .ok issues := by
  have hanswer := validate_answers v
  generalize validate v = r at hanswer ⊢
  cases hanswer with
  | answer _ issues => exact ⟨issues, rfl⟩
  | failure hlong => exact absurd hlong h

theorem not_oversized_of_ok {v : Value} (h : (validate v).isOk = true) : ¬ Oversized v := by
  have hanswer := validate_answers v
  generalize validate v = r at hanswer h
  cases hanswer with
  | answer hsmall _ => exact hsmall
  | failure _ => exact nomatch h

end Validation

/-! ## Plans -/

/-- Of a list in which each of its items is taken away once, what is left counts one less of each. -/
theorem count_of_perm {names seen reported : List String} (h : (seen ++ reported).Perm names) (hseen : seen.Nodup)
    (hreported : reported ⊆ seen) (id : String) : reported.count id = names.count id - 1 := by
  rw [← h.count_eq, List.count_append]
  by_cases hid : id ∈ seen
  · rw [List.count_eq_one_of_mem hseen hid]
    omega
  · rw [List.count_eq_zero_of_not_mem hid, List.count_eq_zero_of_not_mem fun hmem => hid (hreported hmem)]

theorem card_of_perm {names seen reported : List String} (h : (seen ++ reported).Perm names)
    (hseen : seen.Nodup) (hreported : reported ⊆ seen) : names.toFinset.card = seen.length := by
  rw [← List.toFinset_card_of_nodup hseen]
  congr 1
  ext id
  rw [List.mem_toFinset, List.mem_toFinset, ← h.mem_iff, List.mem_append]
  exact or_iff_left_of_imp fun hid => hreported hid

theorem nodup_of_perm {names seen reported : List String} (h : (seen ++ reported).Perm names) (hseen : seen.Nodup)
    (hreported : reported ⊆ seen) : reported = [] ↔ names.Nodup := by
  rw [← h.nodup_iff]
  constructor
  · rintro rfl
    rwa [List.append_nil]
  · intro hnodup
    refine List.eq_nil_iff_forall_not_mem.mpr fun id hid => ?_
    exact (List.disjoint_of_nodup_append hnodup) (hreported hid) hid

theorem repeatedIds_eq_nil {issues : List Issue} :
    repeatedIds issues = [] ↔ ∀ i ∈ issues, i.defect.code ≠ "DUPLICATE_STEP_ID" := by
  rw [← List.length_eq_zero_iff, ← countP_code, List.countP_eq_zero]
  simp only [decide_eq_true_eq, ne_eq]

open Validation in
/-- **Ids that are given again are reported exactly.** The check of a plan, in which no length of time exceeds every
    double, reports each id that is not empty once less than it is given anywhere in the tree, so that there are as
    many reports as ids less different ids, and none just when the ids are pairwise different. -/
theorem duplicates_reported {p : Plan} (hsmall : ¬ Oversized p.toValue) :
    ∃ issues, validate p.toValue = .ok issues
      ∧ (issues.countP fun i => i.defect.code = "DUPLICATE_STEP_ID") = p.names.length - p.names.toFinset.card
      ∧ ((∀ i ∈ issues, i.defect.code ≠ "DUPLICATE_STEP_ID") ↔ p.names.Nodup)
      ∧ ∀ id, (repeatedIds issues).count id = p.names.count id - 1 := by
  obtain ⟨issues, hissues⟩ := validate_ok hsmall
  have hitems : member p.toValue "steps" = .list (stepValues p.steps) := member_of_get? rfl
  obtain ⟨f, htakes, rfl⟩ := validate_takes hitems (steps_show p.steps) hissues
  have hf := htakes.accounts
  have hperm : (f.seen ++ repeatedIds f.issues).Perm p.names := hf.perm
  have hnodup : f.seen.Nodup := hf.nodup List.nodup_nil
  have hreported : repeatedIds f.issues ⊆ f.seen := hf.reported_seen (List.nil_subset _)
  refine ⟨f.issues, hissues, ?_, ?_, count_of_perm hperm hnodup hreported⟩
  · rw [countP_code, card_of_perm hperm hnodup hreported, ← hperm.length_eq, List.length_append,
      Nat.add_sub_cancel_left]
  · rw [← repeatedIds_eq_nil, nodup_of_perm hperm hnodup hreported]

/-- A draft that is reviewed twice under one id, with two pauses of one id in the two lists of a condition. -/
def reviewedTwice : Plan where
  id := none
  steps :=
    [.agent ⟨some "review", .absent, none, false⟩ "reviewer",
     .condition none (.constant true)
      [.parallel none [.agent ⟨some "review", .absent, none, false⟩ "editor", .sleep (some "pause") (.text "1 min")]]
      (some [.sleep (some "pause") (.whole 500), .agent ⟨none, .absent, none, false⟩ "author"])]
  input := .object []
  messages := []
  continueOnError := false
  hookTimeout := none
  workerPoll := none
  workflowPoll := none

open Validation in
theorem reviewedTwice_not_oversized : ¬ Oversized reviewedTwice.toValue :=
  not_oversized_of_ok (by decide +kernel)

open Validation in
/-- The second review and the second pause are reported, and nothing else is given again. -/
theorem reviewedTwice_reported :
    ¬ Oversized reviewedTwice.toValue
      ∧ ∃ issues, validate reviewedTwice.toValue = .ok issues
        ∧ (issues.countP fun i => i.defect.code = "DUPLICATE_STEP_ID") = 2
        ∧ (repeatedIds issues).count "review" = 1 ∧ (repeatedIds issues).count "author" = 0 := by
  refine ⟨reviewedTwice_not_oversized, ?_⟩
  obtain ⟨issues, hissues, htotal, -, hcount⟩ := duplicates_reported reviewedTwice_not_oversized
  exact ⟨issues, hissues, htotal.trans (by decide), (hcount "review").trans (by decide),
    (hcount "author").trans (by decide)⟩

end Runbook
