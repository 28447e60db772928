import Runbook.Proofs.Lifecycle

/-!
# `Proofs.RecordedEnds` — what the record says when an attempt has ended

A run that returns is recorded as completed, with its result; one that fails is recorded as failed, with its
error. Nothing else is written then: the record keeps the error of an attempt that failed before, a result that
was stored before if the new one is null, and a token that an attempt has left which was stopped.

## Contents
- **Ends.** What an attempt that has lived leaves in the record, `standing_ended`.
- **Chains.** `Trial.EndRecorded`, and `ends_recorded`.
-/

namespace Runbook

open RunRecord

/-! ## Ends -/

/-- The results that deeds tell, in order. -/
def toldResults (id : String) (ds : List Deed) : List Value := (tidingsOf id ds).filterMap toldResult?

/-- The errors that deeds tell, in order. -/
def toldErrors (id : String) (ds : List Deed) : List ErrorInfo := (tidingsOf id ds).filterMap toldError?

section

variable {pace : Clock → Clock → Prop} {x : Execution} {w : World} {anew : Prop} {ds es : List Deed} {o : Outcome}
  {u : Clock} {d : Deed} {id : String}

@[simp] theorem toldResults_append : toldResults id (ds ++ es) = toldResults id ds ++ toldResults id es := by
  simp [toldResults]

@[simp] theorem toldErrors_append : toldErrors id (ds ++ es) = toldErrors id ds ++ toldErrors id es := by
  simp [toldErrors]

/-- A standing after deeds: what they have told last. -/
theorem Standing.afterAll_told {s : Standing} :
    s.afterAll (tidingsOf id ds)
      = ⟨(toldStatuses id ds).getLast?.getD s.status, (toldTokens id ds).getLast?.getD s.token,
          (toldResults id ds).getLast?.getD s.result, (toldErrors id ds).getLast?.or s.error⟩ := by
  rw [toldStatuses, toldTokens, toldResults, toldErrors, ← Standing.status_afterAll, ← Standing.token_afterAll,
    ← Standing.result_afterAll, ← Standing.error_afterAll]

theorem toldResults_eq_nil_iff : toldResults id ds = [] ↔ ∀ d ∈ ds, toldResult? (d.call.told id) = none := by
  simp [toldResults, tidingsOf, List.filterMap_eq_nil_iff]

theorem toldErrors_eq_nil_iff : toldErrors id ds = [] ↔ ∀ d ∈ ds, toldError? (d.call.told id) = none := by
  simp [toldErrors, tidingsOf, List.filterMap_eq_nil_iff]

/-- The result of a run that has lived is the latest output in its context. -/
theorem Execution.Lived.output_eq {fin : Finished} (h : x.Lived pace ds (.ok fin)) :
    fin.output = fin.context.previous := by
  generalize ho : (Except.ok fin : Outcome) = o at h
  cases h with
  | intro hds hd hopening hconcluded =>
  cases hconcluded with
  | @intro _ _ _ _ _ _ o₀ =>
    cases o₀ with
    | error f => exact absurd ho (by simp [concludedOutcome, Except.map])
    | ok fin₀ =>
      obtain rfl := Except.ok.inj ho
      rfl

/-- The result that is told at the end of an attempt, unless it is null. -/
def Outcome.results : Outcome → List Value
  | .ok fin => (Value.present? (some fin.output)).toList
  | .error _ => []

/-- The error that is told at the end of an attempt. -/
def Outcome.errors : Outcome → List ErrorInfo
  | .ok _ => []
  | .error f => [⟨f.describe, none⟩]

/-- **What an attempt tells of its end**: how it has ended, its result, and its error. -/
theorem Execution.Lived.told (h : x.Lived pace ds o) :
    (toldStatuses x.runId ds).getLast? = some (.ofEnd o) ∧ toldResults x.runId ds = Outcome.results o
      ∧ toldErrors x.runId ds = Outcome.errors o := by
  obtain ⟨es, d, rfl, hd, hmid⟩ := h.ends
  have htold : d.call.told x.runId = endUpdate o := by rw [hd, Call.told_updateRun]
  have hsingle {α : Type} (φ : Keyed Value → Option α) :
      (tidingsOf x.runId [d]).filterMap φ = (φ (endUpdate o)).toList := by
    rw [tidingsOf_cons, tidingsOf_nil, htold, List.filterMap_cons]
    cases φ (endUpdate o) <;> rfl
  refine ⟨?_, ?_, ?_⟩
  · rw [toldStatuses_append, toldStatuses, toldStatuses, hsingle, toldStatus?_end]
    simp
  · rw [toldResults_append, toldResults_eq_nil_iff.mpr fun e he => (hmid e he).2.1, toldResults, hsingle,
      List.nil_append]
    cases o with
    | error f => rfl
    | ok fin =>
      rw [Outcome.results, h.output_eq]
      rfl
  · rw [toldErrors_append, toldErrors_eq_nil_iff.mpr fun e he => (hmid e he).2.2, toldErrors, hsingle, List.nil_append]
    cases o <;> rfl

/-- What is said of a run that is not pending is in its record. -/
theorem World.record_of_standing (w : World) (id : String) (h : (w.standing id).status ≠ .pending) :
    ∃ record, w.recordOf id = .ok (some record) ∧ record.standing = w.standing id := by
  unfold World.standing at h ⊢
  split
  · next r hr => exact ⟨r, hr, rfl⟩
  · next hnone =>
    refine absurd ?_ h
    split
    · next r hr => exact absurd hr (hnone r)
    · rfl

end

/-! ## Chains -/

section

variable {pace : Clock → Clock → Prop} {source : PlanSource} {plan : Plan} {id : String} {a : Trial}
  {trials earlier later : List Trial} {o : Outcome} {u : Clock}

/-- **What the record says when an attempt has ended**, after earlier ones.
    - `returned`: when it returns, the run is completed. The result is the one that is returned, as the backend
      keeps it, unless that is null; then it is the one that was told last before. The error is the one that was
      told last before. There is no token, if the earlier attempts have ended, too.
    - `failed`: when it fails, the run has failed with its error; or else it was refused, and no attempt begun.
    - `errors`: no error is told but that of an attempt that fails. -/
structure Trial.EndRecorded (plan : Plan) (id : String) (earlier : List Trial) (a : Trial) : Prop where
  returned {fin : Finished} {t : Clock} (h : a.result = some (.ok fin, t)) :
    ∃ record, a.after.recordOf id = .ok (some record) ∧ record.status = .completed
      ∧ (fin.output ≠ .null → record.result = a.before.backend.keeps fin.output)
      ∧ (fin.output = .null → record.result
          = a.before.backend.keeps ((toldResults id (earlier.flatMap Trial.deeds)).getLast?.getD .null))
      ∧ record.error = (toldErrors id (earlier.flatMap Trial.deeds)).getLast?
      ∧ ((∀ b ∈ earlier, b.result ≠ none) → record.hookToken = none)
  failed {f : Fault} {t : Clock} (h : a.result = some (.error f, t)) :
    (⟨a.engine, plan, id⟩ : Execution).Refuses a.before f
      ∨ ∃ record, a.after.recordOf id = .ok (some record) ∧ record.status = .failed
        ∧ record.error = some ⟨f.describe, none⟩
  errors {o : Outcome} {t : Clock} (h : a.result = some (o, t)) :
    toldErrors id a.deeds = [] ∨ ∃ f, o = .error f ∧ toldErrors id a.deeds = [⟨f.describe, none⟩]

/-- What an attempt leaves in the record. -/
theorem Trial.Recorded.standing_after (h : a.Recorded pace plan id) (hserved : a.Served)
    (hheld : ∀ d ∈ a.deeds, d.Holdable a.before.backend id) :
    a.after.standing id
      = a.before.backend.keepsStanding ((a.before.standing id).afterAll (tidingsOf id a.deeds)) :=
  (h.working.admits h.admits h.informs hserved.timely).2.2.2 hheld

/-- Deeds that tell nothing leave every standing as it is. -/
theorem Standing.afterAll_inner {s : Standing} {ds : List Deed} (h : ∀ d ∈ ds, d.call.Inner) :
    s.afterAll (tidingsOf id ds) = s := by
  induction ds with
  | nil => rfl
  | cons d ds ih =>
    rw [tidingsOf_cons, (Call.Hushed.of_inner (h d List.mem_cons_self)).told, Standing.afterAll_cons,
      Standing.after_nil, ih fun e he => h e (.tail _ he)]

/-- **The step lemma for records of ends.** An attempt that comes to its end leaves in the record how it has
    ended; one that was refused, or has found the run completed, leaves the record as it was. -/
theorem Trial.Recorded.standing_ended (h : a.Recorded pace plan id) (hserved : a.Served)
    (hheld : ∀ d ∈ a.deeds, d.Holdable a.before.backend id) (hres : a.result = some (o, u)) :
    (a.after.standing id = a.before.standing id
        ∧ ((∃ f, o = .error f ∧ (⟨a.engine, plan, id⟩ : Execution).Refuses a.before f)
          ∨ ∃ record c, a.before.recordOf id = .ok (some record) ∧ record.status = .completed
            ∧ o = .ok ⟨c, record.result⟩))
      ∨ (a.after.standing id).status = .ofEnd o
        ∧ (a.after.standing id).result
          = a.before.backend.keeps ((Outcome.results o).getLast?.getD (a.before.standing id).result)
        ∧ (a.after.standing id).error = (Outcome.errors o).getLast?.or (a.before.standing id).error := by
  have hafter := h.standing_after hserved hheld
  obtain ⟨anew, htells⟩ := h.tells
  rw [hres] at htells
  rcases htells.ended with ⟨hds, -, hwhy⟩ | hlived
  · -- nothing was told, and a store that works has kept the record
    rw [Standing.afterAll_inner hds, h.working.keepsStanding] at hafter
    exact .inl ⟨hafter, hwhy⟩
  · obtain ⟨hstatus, hresults, herrors⟩ := hlived.told
    rw [Standing.afterAll_told, hstatus, hresults, herrors] at hafter
    rw [hafter]
    exact .inr ⟨rfl, rfl, rfl⟩

/-- A returned run is recorded as completed, with its result unless that is null. -/
theorem Trial.Recorded.standing_returned {fin : Finished} (h : a.Recorded pace plan id) (hserved : a.Served)
    (hheld : ∀ d ∈ a.deeds, d.Holdable a.before.backend id) (hres : a.result = some (.ok fin, u)) :
    (a.after.standing id).status = .completed
      ∧ (fin.output ≠ .null → (a.after.standing id).result = a.before.backend.keeps fin.output)
      ∧ (fin.output = .null → (a.after.standing id).result = (a.before.standing id).result)
      ∧ (a.after.standing id).error = (a.before.standing id).error := by
  have hkept : a.before.backend.keeps (a.before.standing id).result = (a.before.standing id).result :=
    congrArg Standing.result h.working.keepsStanding
  rcases h.standing_ended hserved hheld hres with ⟨hsame, ⟨f, hf, -⟩ | ⟨record, c, hrecord, hstatus, ho⟩⟩ | hended
  · exact absurd hf (by simp)
  · -- the run was completed before, and the result is the one in the record
    obtain rfl := Except.ok.inj ho
    have hstanding := World.standing_of_record hrecord
    rw [hsame]
    refine ⟨by rw [hstanding]; exact hstatus, fun _ => ?_, fun _ => rfl, rfl⟩
    rw [← hkept, hstanding]
    rfl
  · obtain ⟨hstatus, hresult, herror⟩ := hended
    refine ⟨hstatus, fun hnull => ?_, fun hnull => ?_, herror⟩
    · have hpresent : Value.present? (some fin.output) = some fin.output := by
        unfold Value.present?
        split
        · next heq => exact absurd (Option.some.inj heq) hnull
        · rfl
      rw [hresult, Outcome.results, hpresent]
      rfl
    · rw [hresult, Outcome.results, hnull]
      exact hkept

/-- A run that was told no result but null has none. -/
theorem Attempted.resultless {w : World} (h : Attempted pace source id w.stores.runs trials)
    (haccept : source.accept = .ok plan) (hid : id ≠ "") (hfresh : w.recordOf id = .ok none)
    (hserved : ∀ b ∈ trials, b.Served) (htrials : trials = earlier ++ a :: later)
    (hnone : ∀ b ∈ earlier, toldResults id b.deeds = []) : (a.before.standing id).result = .null := by
  have huntold : ∀ b ∈ earlier, ∀ d ∈ b.deeds, toldResult? (d.call.told id) = none := fun b hb =>
    toldResults_eq_nil_iff.mp (hnone b hb)
  have hnil : toldResults id (earlier.flatMap Trial.deeds) = [] := toldResults_eq_nil_iff.mpr fun d hd => by
    obtain ⟨b, hb, hd⟩ := List.mem_flatMap.mp hd
    exact huntold b hb d hd
  obtain ⟨-, -, -, hsaid⟩ := h.found haccept hid hfresh hserved htrials
  rw [hsaid fun b hb d hd _ v hv => absurd ((huntold b hb d hd).symm.trans hv) (by simp), Standing.afterAll_told, hnil]
  exact Backend.keeps_null _

/-- **The end of every attempt is recorded.** Take any plan that is accepted, and a run of it that is attempted
    again and again over one store that works and can hold what it is told, by `run` or by `resume`; attempts may
    be stopped at any moment. Then the record says of each attempt that comes to its end how it has ended. -/
theorem ends_recorded {w : World} (h : Attempted pace source id w.stores.runs trials)
    (haccept : source.accept = .ok plan) (hid : id ≠ "") (hfresh : w.recordOf id = .ok none)
    (hserved : ∀ a ∈ trials, a.Served) (hheld : ∀ a ∈ trials, ∀ d ∈ a.deeds, d.Holdable w.backend id)
    (htrials : trials = earlier ++ a :: later) : a.EndRecorded plan id earlier := by
  obtain ⟨ha, hbackend, htoken, hsaid⟩ := h.found haccept hid hfresh hserved htrials
  have hamem : a ∈ trials := htrials ▸ List.mem_append_right _ List.mem_cons_self
  have haserved := hserved a hamem
  have haheld : ∀ d ∈ a.deeds, d.Holdable a.before.backend id := hbackend ▸ hheld a hamem
  have hbefore := hsaid fun b hb => hheld b (htrials ▸ List.mem_append_left _ hb)
  -- the trial finds what the earlier ones have told last
  rw [Standing.afterAll_told, ← hbackend] at hbefore
  obtain ⟨anew, htells⟩ := ha.tells
  have hresult : (a.before.standing id).result
      = a.before.backend.keeps ((toldResults id (earlier.flatMap Trial.deeds)).getLast?.getD .null) := by
    rw [hbefore]
    rfl
  have herror : (a.before.standing id).error = (toldErrors id (earlier.flatMap Trial.deeds)).getLast? := by
    rw [hbefore]
    exact Option.or_none
  exact
    { returned := by
        intro fin t hres
        rw [hres] at htells
        have hnoToken (hends : ∀ b ∈ earlier, b.result ≠ none) : (a.after.standing id).token = none := by
          rw [ha.standing_after haserved haheld]
          exact htells.cleared.token
            (htoken.trans ((h.noToken haccept hid hfresh hserved htrials hends).token rfl))
        obtain ⟨hstatus, hkept, hstale, hsame⟩ := ha.standing_returned haserved haheld hres
        obtain ⟨record, hrecord, hstanding⟩ := World.record_of_standing a.after id
          (by rw [hstatus]; simp)
        rw [← hstanding] at hstatus hkept hstale hsame hnoToken
        exact ⟨record, hrecord, hstatus, hkept, fun h => (hstale h).trans hresult, hsame.trans herror, hnoToken⟩
      failed := by
        intro f t hres
        rcases ha.standing_ended haserved haheld hres with ⟨-, ⟨f', hf, hrefuses⟩ | ⟨record, c, -, -, ho⟩⟩ | hended
        · obtain rfl := Except.error.inj hf
          exact .inl hrefuses
        · exact absurd ho (by simp)
        · obtain ⟨hstatus, -, herror⟩ := hended
          have hstatus : (a.after.standing id).status = .failed := hstatus
          obtain ⟨record, hrecord, hstanding⟩ := World.record_of_standing a.after id
            (by rw [hstatus]; simp)
          rw [← hstanding] at hstatus herror
          exact .inr ⟨record, hrecord, hstatus, herror⟩
      errors := by
        intro o t hres
        rw [hres] at htells
        rcases htells.ended with ⟨hds, -⟩ | hlived
        · exact .inl (toldErrors_eq_nil_iff.mpr fun d hd => by rw [(Call.Hushed.of_inner (hds d hd)).told]; rfl)
        · cases o with
          | ok fin => exact .inl hlived.told.2.2
          | error f => exact .inr ⟨f, rfl, hlived.told.2.2⟩ }

end

/-- Both attempts have their ends recorded; and the error of the first is there after the second, which returns. -/
theorem signedReport_recorded : ∃ plan, signedReport.accept = .ok plan
    ∧ unsignedRun.EndRecorded plan "run" [] ∧ signedRun.EndRecorded plan "run" [unsignedRun]
    ∧ (signedRun.result.map fun r => r.1.isOk) = some true
    ∧ (signedRun.after.standing "run").status = .completed ∧ (signedRun.after.standing "run").error ≠ none := by
  obtain ⟨plan, haccept⟩ : ∃ plan, signedReport.accept = .ok plan := ⟨_, rfl⟩
  have hheld : ∀ a ∈ [unsignedRun, signedRun], ∀ d ∈ a.deeds, d.Holdable ({} : World).backend "run" :=
    fun a _ d _ hb => absurd rfl hb
  refine ⟨plan, haccept, ?_, ?_, by decide +kernel, by decide +kernel, ?_⟩
  · exact ends_recorded (w := {}) signedReport_attempted haccept (by decide) rfl signedReport_served hheld
      (show _ = [] ++ unsignedRun :: [signedRun] from rfl)
  · exact ends_recorded (w := {}) signedReport_attempted haccept (by decide) rfl signedReport_served hheld
      (show _ = [unsignedRun] ++ signedRun :: [] from rfl)
  · exact Option.ne_none_iff_isSome.mpr (by decide +kernel)

end Runbook
