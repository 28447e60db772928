import Runbook.Proofs.Lineage

/-!
# `Proofs.ExactOutputs` — the outputs of a run are those of its steps

With the end of an attempt its context holds one output for each leaf and each parallel step that has
succeeded, under the id of the step, and nothing else. A run may have taken several attempts to get there. Then
the steps at the beginning of the root list were carried to their ends by earlier attempts, each step in one of
them; its outputs have been saved since, and are there as the backend keeps them.

An attempt at a run that was completed before carries out nothing. It has the outputs of the checkpoint in the
record, and there are none where no checkpoint was kept.

## Contents
- **Carriers.** `Trial.Carries` and `Lineage`, which attempt each output has come from; its step lemma
  `Lineage.carriedOn`, and `Handed.lineage`, by induction on what was handed on.
- **Reports.** `Trial.Inherits.told`: an output that is replayed was reported by its step.
- **Attempts.** `Trial.ExactOutputs` and `outputs_exact`.
-/

namespace Runbook

/-! ## Carriers -/

/-- An attempt carries a step of the root list to its end: it begins the step, and then the position after
    it. -/
def Trial.Carries (a : Trial) (i : Nat) : Prop :=
  (∃ c, Enters a.deeds i c) ∧ ∃ c, Enters a.deeds (i + 1 : Nat) c

/-- **The attempts that outputs have come from.** The steps before a position of the root list were carried to
    their ends one after the other, each in one of some attempts. The outputs are those with which the steps
    inside them have ended there. Those of attempts before a certain one are as the backend keeps them. -/
structure Lineage (p : Plan) (b : Backend) (trials : List Trial) (own : Nat) (carrier : Nat → Nat) (k : Nat)
    (outputs : Keyed Value) : Prop where
  bound : k ≤ p.steps.length
  carried : ∀ i < k, carrier i ≤ own ∧ ∃ a, trials[carrier i]? = some a ∧ a.Carries i
  ordered : ∀ i j, i ≤ j → j < k → carrier i ≤ carrier j
  exact : ∀ key v, (key, v) ∈ outputs ↔ ∃ i < k, ∃ a v₀, trials[carrier i]? = some a
    ∧ IsEntry a.deeds (fun q s => p.Has q s ∧ q.rootIndex? = some (i : Int)) (key, v₀)
    ∧ v = if carrier i < own then b.keeps v₀ else v₀

section

variable {p : Plan} {b : Backend} {trials earlier later : List Trial} {a : Trial} {own k m n : Nat}
  {carrier : Nat → Nat} {outputs outputs' : Keyed Value} {ds : List Deed}

theorem Plan.mem_entriesFrom {entry : String × Value} :
    entry ∈ p.entriesFrom ds m n ↔ ∃ i, (m ≤ i ∧ i < m + n) ∧ entry ∈ p.entriesAt ds i := by
  rw [Plan.entriesFrom, List.mem_flatMap]
  simp only [List.mem_range'_1]

theorem Backend.mem_keepsFields {fields : Keyed Value} {key : String} {v : Value} :
    (key, v) ∈ b.keepsFields fields ↔ ∃ v₀, (key, v₀) ∈ fields ∧ v = b.keeps v₀ := by
  rw [Backend.keepsFields_eq_map, List.mem_map]
  constructor
  · rintro ⟨⟨_, v₀⟩, hmem, heq⟩
    obtain ⟨rfl, rfl⟩ := Prod.mk.inj heq
    exact ⟨v₀, hmem, rfl⟩
  · rintro ⟨v₀, hmem, rfl⟩
    exact ⟨_, hmem, rfl⟩

namespace Lineage

theorem nil : Lineage p b trials own carrier 0 [] where
  bound := Nat.zero_le _
  carried i hi := absurd hi (Nat.not_lt_zero i)
  ordered i j _ hj := absurd hj (Nat.not_lt_zero j)
  exact key v := by simp

/-- Later attempts do not matter. -/
theorem append (h : Lineage p b trials own carrier k outputs) (more : List Trial) :
    Lineage p b (trials ++ more) own carrier k outputs := by
  have hsame : ∀ i < k, (trials ++ more)[carrier i]? = trials[carrier i]? := fun i hi => by
    obtain ⟨-, a, ha, -⟩ := h.carried i hi
    exact List.getElem?_append_left (List.getElem?_eq_some_iff.mp ha).1
  refine ⟨h.bound, fun i hi => ?_, h.ordered, fun key v => (h.exact key v).trans ?_⟩
  · rw [hsame i hi]
    exact h.carried i hi
  · refine exists_congr fun i => and_congr_right fun hi => ?_
    rw [hsame i hi]

/-- **The step lemma.** An attempt that goes on with outputs of earlier ones carries the steps from there
    on itself. -/
theorem carriedOn (h : Lineage p b earlier earlier.length carrier m outputs)
    (hcarried : CarriedOn p a.deeds m outputs k outputs') :
    Lineage p b (earlier ++ a :: later) earlier.length (fun i => if i < m then carrier i else earlier.length)
      k outputs' := by
  -- positions before `m` were carried by earlier attempts, the others by this one
  have hold {i : Nat} (hi : i < m) : carrier i < earlier.length
      ∧ (earlier ++ a :: later)[carrier i]? = earlier[carrier i]? := by
    obtain ⟨-, a', ha', -⟩ := h.carried i hi
    have hlt := (List.getElem?_eq_some_iff.mp ha').1
    exact ⟨hlt, List.getElem?_append_left hlt⟩
  have hown : (earlier ++ a :: later)[earlier.length]? = some a := by simp
  refine ⟨hcarried.bound, fun i hi => ?_, fun i j hij hj => ?_, fun key v => ?_⟩
  · split
    · next hlt =>
      rw [(hold hlt).2]
      exact h.carried i hlt
    · next hge =>
      have hmi := Nat.le_of_not_lt hge
      exact ⟨Nat.le_refl _, a, hown, hcarried.entered i hmi (Nat.le_of_lt hi), hcarried.entered (i + 1) (by omega) hi⟩
  · by_cases hjm : j < m
    · rw [if_pos (Nat.lt_of_le_of_lt hij hjm), if_pos hjm]
      exact h.ordered i j hij hjm
    · rw [if_neg hjm]
      split
      · next him => exact Nat.le_of_lt (hold him).1
      · exact Nat.le_refl _
  · rw [hcarried.steps, List.mem_append, h.exact, Plan.mem_entriesFrom,
      Nat.add_sub_cancel' hcarried.le]
    constructor
    · rintro (⟨i, hi, a', v₀, ha', hentry, hv⟩ | ⟨i, ⟨hmi, hi⟩, hentry⟩)
      · refine ⟨i, Nat.lt_of_lt_of_le hi hcarried.le, a', v₀, ?_, hentry, ?_⟩
        · rw [if_pos hi, (hold hi).2, ha']
        · rwa [if_pos hi]
      · have hge := Nat.not_lt_of_le hmi
        refine ⟨i, hi, a, v, ?_, Plan.mem_entriesAt.mp hentry, ?_⟩
        · rw [if_neg hge, hown]
        · rw [if_neg hge, if_neg (Nat.lt_irrefl _)]
    · rintro ⟨i, hi, a', v₀, ha', hentry, hv⟩
      by_cases him : i < m
      · rw [if_pos him] at ha' hv
        rw [(hold him).2] at ha'
        exact .inl ⟨i, him, a', v₀, ha', hentry, hv⟩
      · rw [if_neg him] at ha' hv
        rw [if_neg (Nat.lt_irrefl _)] at hv
        obtain rfl := Option.some.inj (hown.symm.trans ha')
        exact .inr ⟨i, ⟨Nat.le_of_not_lt him, hi⟩, hv ▸ Plan.mem_entriesAt.mpr hentry⟩

/-- What the backend keeps of outputs has come from the same attempts. -/
theorem kept (h : Lineage p b trials own carrier k outputs) (hown : own < n) :
    Lineage p b trials n carrier k (b.keepsFields outputs) := by
  have hbefore : ∀ i < k, carrier i < n := fun i hi => Nat.lt_of_le_of_lt (h.carried i hi).1 hown
  refine ⟨h.bound, fun i hi => ⟨Nat.le_of_lt (hbefore i hi), (h.carried i hi).2⟩, h.ordered, fun key v => ?_⟩
  rw [Backend.mem_keepsFields]
  constructor
  · rintro ⟨v', hmem, rfl⟩
    obtain ⟨i, hi, a, v₀, ha, hentry, rfl⟩ := (h.exact key v').mp hmem
    refine ⟨i, hi, a, v₀, ha, hentry, ?_⟩
    rw [if_pos (hbefore i hi)]
    split
    · exact b.keeps_keeps v₀
    · rfl
  · rintro ⟨i, hi, a, v₀, ha, hentry, rfl⟩
    refine ⟨_, (h.exact key _).mpr ⟨i, hi, a, v₀, ha, hentry, rfl⟩, ?_⟩
    rw [if_pos (hbefore i hi)]
    split
    · exact (b.keeps_keeps v₀).symm
    · rfl

end Lineage

/-- **What was handed on has come from earlier attempts.** -/
theorem Handed.lineage (h : Handed p b trials k outputs) :
    ∃ carrier, Lineage p b trials trials.length carrier k outputs := by
  induction h with
  | fresh => exact ⟨fun _ => 0, .nil⟩
  | saved _ hcarried ih =>
    obtain ⟨carrier, hlineage⟩ := ih
    refine ⟨_, (hlineage.carriedOn hcarried).kept ?_⟩
    rw [List.length_append, List.length_cons]
    omega

end

/-! ## Reports -/

/-- **An output that a step has reported** in one of some attempts: it is that output, or what the backend
    keeps of it. -/
def ReportedIn (b : Backend) (trials : List Trial) (q : StepPath) (v : Value) : Prop :=
  ∃ a ∈ trials, ∃ r ∈ reports a.deeds, r.path = q ∧ ∃ v₀, r.outcome = .ok v₀ ∧ (v = v₀ ∨ v = b.keeps v₀)

section

variable {pace : Clock → Clock → Prop} {source : PlanSource} {plan : Plan} {id : String} {b : Backend}
  {earlier later trials : List Trial} {a : Trial} {q : StepPath} {s : Step} {v : Value}

/-- **The output with which a step has ended was reported by that step**, in the attempt itself, or in an
    earlier one if it was replayed. -/
theorem Trial.Inherits.told (h : a.Inherits pace plan id b earlier) (hhas : plan.Has q s)
    (hend : endOf q a.deeds = some (.ok v)) : ReportedIn b (earlier ++ [a]) q v := by
  have hcall : ∀ d ∈ deedsFor q a.deeds, d ∈ a.deeds ∧ Execution.TreeCall ⟨a.engine, plan, id⟩ q d.call :=
    fun d hd => ⟨(mem_deedsFor.mp hd).1, h.layout.treeCall (mem_deedsFor.mp hd).1 (mem_deedsFor.mp hd).2⟩
  rcases Option.or_eq_some_iff.mp hend with hreport | ⟨-, hreplay⟩
  · obtain ⟨r, hr, ho⟩ := Option.map_eq_some_iff.mp hreport
    obtain ⟨d, hd, hdr⟩ := mem_reports.mp (List.mem_of_mem_head? hr)
    obtain ⟨hmem, htree⟩ := hcall d hd
    rw [hdr] at htree
    cases htree with
    | serves hserves => cases hserves with | outside h => exact absurd h (by simp [Call.isOutside])
    | report => exact ⟨a, by simp, _, mem_reports.mpr ⟨d, hmem, hdr⟩, rfl, v, ho, .inl rfl⟩
  · obtain ⟨d, hd, hreplayed⟩ := Option.bind_eq_some_iff.mp hreplay
    obtain ⟨hmem, htree⟩ := hcall d (List.mem_of_mem_head? hd)
    unfold Deed.replayed? at hreplayed
    split at hreplayed
    · next step path found start stop =>
      have hpath : path = q.text := by
        cases htree with | serves hserves => ?_
        cases hserves
        · next h => exact absurd h (by simp [Call.isOutside])
        · rfl
      obtain ⟨a', ha', r, hr, hproper, htext, hv⟩ := h.reminded _ hmem _ _ _ _ _ rfl v hreplayed
      exact ⟨a', ha', r, hr, StepPath.text_injective hproper hhas.proper (htext.trans hpath), hv⟩
    · exact absurd hreplayed (by simp)

/-! ## Attempts -/

/-- **An attempt with exact outputs**, after earlier ones. Whatever it does for a step, no output is recorded
    under an id that is taken, and an output with which a step ends was reported by that step. If the
    attempt returns, then what it has had of outputs on the way is still there, no id twice, and the outputs
    have come from a line of attempts: for all steps of the root list; or up to the cursor of the
    checkpoint in the record, if it has found the run completed and has carried out nothing. -/
structure Trial.ExactOutputs (pace : Clock → Clock → Prop) (plan : Plan) (id : String) (earlier : List Trial)
    (a : Trial) : Prop where
  free : Execution.FindsFree pace ⟨a.engine, plan, id⟩ plan.Has a.deeds
  reported : ∀ q s v, plan.Has q s → endOf q a.deeds = some (.ok v) →
    ReportedIn a.before.backend (earlier ++ [a]) q v
  distinct : ∀ fin t, a.result = some (.ok fin, t) → fin.context.steps.keys.Nodup
  stays : ∀ fin t, a.result = some (.ok fin, t) → ∀ k c, Enters a.deeds k c → c.steps <+: fin.context.steps
  line : ∀ fin t, a.result = some (.ok fin, t) → ∃ k carrier,
    (k = plan.steps.length ∨ (∀ i c, ¬ Enters a.deeds i c) ∧ a.before.CompletedAt id k)
      ∧ (∀ i, a.Carries i → carrier i = earlier.length)
      ∧ Lineage plan a.before.backend (earlier ++ [a]) earlier.length carrier k fin.context.steps

/-- Outputs at an earlier position are still there at a later one. -/
theorem CarriedOn.isPrefix {ds : List Deed} {m k n : Nat} {outputs outputs' outputs'' : Keyed Value}
    (h : CarriedOn plan ds m outputs k outputs') (h' : CarriedOn plan ds m outputs n outputs'')
    (hkn : k ≤ n) : outputs' <+: outputs'' := by
  have hsplit : plan.entriesFrom ds m (n - m)
      = plan.entriesFrom ds m (k - m) ++ plan.entriesFrom ds k (n - k) := by
    have hn : n - m = (k - m) + (n - k) := by have := h.le; omega
    have hk : m + (k - m) = k := Nat.add_sub_cancel' h.le
    rw [Plan.entriesFrom, Plan.entriesFrom, Plan.entriesFrom, ← List.flatMap_append, hn,
      ← List.range'_append_1, hk]
  rw [h.steps, h'.steps, hsplit, ← List.append_assoc]
  exact List.prefix_append _ _

/-- An attempt with what it has of earlier ones. -/
theorem Trial.Inherits.exactOutputs (h : a.Inherits pace plan id b earlier) (hnodup : plan.ids.Nodup) :
    a.ExactOutputs pace plan id earlier := by
  obtain ⟨m, outputs, hhanded, hentered, hends⟩ := h.outputs
  have hfree := hhanded.leavesFree hnodup
  refine ⟨h.findsFree, fun q s v hhas hend => h.backend.symm ▸ h.told hhas hend, fun fin t hres => ?_,
    fun fin t hres k c hk => ?_, fun fin t hres => ?_⟩
  · rcases hends fin t hres with hcarried | ⟨-, k, -, hsaved⟩
    · exact (hcarried.leavesFree hnodup hfree).distinct
    · exact (hsaved.leavesFree hnodup).distinct
  · rcases hends fin t hres with hcarried | ⟨hnone, -⟩
    · obtain ⟨i, rfl, hi⟩ := hentered k c hk
      exact hi.isPrefix hcarried hi.bound
    · exact absurd hk (hnone k c)
  · rw [h.backend]
    rcases hends fin t hres with hcarried | ⟨hnone, k, hcompleted, hsaved⟩
    · obtain ⟨carrier, hlineage⟩ := hhanded.lineage
      refine ⟨_, _, .inl rfl, fun i hi => ?_, hlineage.carriedOn hcarried⟩
      obtain ⟨c, hc⟩ := hi.1
      obtain ⟨j, hj, hbegun⟩ := hentered i c hc
      obtain rfl := Int.natCast_inj.mp hj
      exact if_neg (Nat.not_lt_of_le hbegun.le)
    · obtain ⟨carrier, hlineage⟩ := hsaved.lineage
      refine ⟨k, carrier, .inr ⟨hnone, hcompleted⟩, fun i hi => ?_, hlineage.append [a]⟩
      obtain ⟨c, hc⟩ := hi.1
      exact absurd hc (hnone i c)

/-- **Outputs are exact.** Take any plan that is accepted, and a run of it that is attempted again and again
    over one store of run records, by `run` or by `resume`. The store may take any writes or none, and
    every attempt ends, or is stopped at any moment. Then each attempt has exact outputs. -/
theorem outputs_exact {w : World} (h : Attempted pace source id w.stores.runs trials)
    (hfresh : w.checkpointOf id = none) (hid : id ≠ "") (hgenuine : source.isGenuine = true)
    (haccept : source.accept = .ok plan) (htrials : trials = earlier ++ a :: later) :
    a.ExactOutputs pace plan id earlier := by
  have hnodup : plan.ids.Nodup := nodup_ids_of_accept hgenuine haccept
  have hwell : w.WellStored plan.steps.length id := fun data hdata =>
    absurd (hfresh.symm.trans hdata) (by simp)
  have hhands : w.HandsOn w.backend (Handed plan w.backend []) (Told w.backend []) id :=
    ⟨rfl, fun data hdata => absurd (hfresh.symm.trans hdata) (by simp)⟩
  have hinherits := h.inherits haccept hid hnodup rfl hwell hhands htrials
  rw [List.nil_append] at hinherits
  exact hinherits.exactOutputs hnodup

end

/-! ### Instances -/

/-- Two agents side by side, with ids. -/
def namedAgents : PlanSource :=
  .document (.object
    [("steps", .list
      [.object
        [("type", .text "parallel"), ("id", .text "both"),
         ("steps", .list
          [.object [("type", .text "agent"), ("agent", .text "first"), ("id", .text "one")],
           .object [("type", .text "agent"), ("agent", .text "second"), ("id", .text "two")]])]])])

/-- A run of them. -/
def namedRun (e : Engine) : Trial := .prompt e agentsDone {} (e.run namedAgents (some "run") none)

/-- The attempt to resume the run, which finds it completed. -/
def namedResumed (e : Engine) : Trial :=
  .prompt e agentsDone (namedRun e).after (e.resume namedAgents "run")

/-- The ids under which an attempt returns outputs. -/
def Trial.outputIds? (a : Trial) : Option (List String) :=
  a.result.bind fun r => r.1.toOption.map fun fin => fin.context.steps.keys

theorem named_attempted (e : Engine) :
    Attempted (· ≤ ·) namedAgents "run" ({} : World).stores.runs [namedRun e, namedResumed e] :=
  .cons rfl (.anew (.given rfl) (Trial.prompt_runs ..)) (.cons rfl (.again (Trial.prompt_runs ..)) .nil)

/-- Both attempts have exact outputs, and the second has them from the first. -/
theorem namedAgents_exact : ∃ plan, namedAgents.accept = .ok plan
    ∧ (namedResumed plainEngine).ExactOutputs (· ≤ ·) plan "run" [namedRun plainEngine]
    ∧ (namedResumed plainEngine).outputIds? = some ["one", "two", "both"] := by
  obtain ⟨plan, haccept⟩ : ∃ plan, namedAgents.accept = .ok plan := ⟨_, rfl⟩
  refine ⟨plan, haccept, ?_, by decide +kernel⟩
  exact outputs_exact (w := {}) (named_attempted plainEngine) rfl (by decide) rfl haccept
    (show _ = [namedRun plainEngine] ++ namedResumed plainEngine :: [] from rfl)

/-- **Outputs that are gone**: no checkpoints are kept, a step has succeeded, and the attempt to resume the
    completed run returns no outputs. -/
theorem outputs_forgotten :
    let e := { plainEngine with checkpoints := false }
    Attempted (· ≤ ·) namedAgents "run" ({} : World).stores.runs [namedRun e, namedResumed e]
      ∧ (∃ plan v, namedAgents.accept = .ok plan ∧ IsEntry (namedRun e).deeds plan.Has ("one", v))
      ∧ (namedRun e).outputIds? = some ["one", "two", "both"]
      ∧ (namedResumed e).outputIds? = some [] := by
  refine ⟨named_attempted _, ?_, by decide +kernel, by decide +kernel⟩
  obtain ⟨plan, one, two, haccept, hsteps, hkind, hrecords, hid⟩ : ∃ plan one two,
      namedAgents.accept = .ok plan ∧ plan.steps[0]? = some (.parallel (some "both") [one, two])
        ∧ one.kind = "agent" ∧ one.records = true ∧ one.id? = some "one" :=
    ⟨_, _, _, rfl, rfl, rfl, rfl, rfl⟩
  have hhas : plan.Has firstAgent one := by
    have hinside : (Step.parallel (some "both") [one, two]).Has [⟨some .parallel, 0, one.kind⟩] one :=
      .inside rfl .here
    rw [hkind] at hinside
    exact .root hsteps hinside
  exact ⟨plan, .text "done", haccept, firstAgent, one, hhas, hrecords, hid, rfl⟩

end Runbook
