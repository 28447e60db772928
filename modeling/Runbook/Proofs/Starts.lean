import Runbook.Proofs.Entries

/-!
# `Proofs.Starts` — the one start of a run elsewhere

A workflow step, and an agent whose reply nobody awaits, start a run elsewhere. No store knows of that run;
what keeps the step from starting it again is its journal entry alone, which names the run or says how the
step has ended. A step that has started a run writes such an entry and saves it before it does anything
else that could be stopped.

## Contents
- **Steps and entries.** `Step.startsRuns` and `Step.awaitsRun`; `Step.HeldBack`, an entry that keeps a
  step from starting a run.
- **Tallies.** `Tally`, the entry of a step with the runs that it has started; `Tallied`, what the
  tally of a leaf comes to.
- **Starts.** `startWorkflow_tally` and `nestedRun_tally`.
- **Leaves.** `carryOut_tally`.
-/

namespace Runbook

open JournalEntry

/-! ## Steps and entries -/

/-- Steps that start a run elsewhere: workflows, and agents whose reply is not awaited. -/
def Step.startsRuns : Step → Bool
  | .workflow _ _ => true
  | .agent call _ => !call.awaits true
  | _ => false

/-- Steps that wait for the end of the run that they have started. -/
def Step.awaitsRun : Step → Bool
  | .workflow call _ => call.awaits true
  | _ => false

/-- **An entry that holds a step back** from starting a run: it says how the step has ended, or names the
    run that the step waits for. -/
def Step.HeldBack (s : Step) (entry : Option Value) : Prop :=
  Ended entry ∨ s.awaitsRun = true ∧ ∃ runId, Names entry runId

/-- A step that is held back stays so. -/
theorem Step.HeldBack.goesOn {s : Step} {e e' : Option Value} (h : s.HeldBack e) (hgoes : GoesOn e e') :
    s.HeldBack e' := by
  rcases h with hended | ⟨hawaits, runId, hnames⟩
  · exact .inl (hgoes.ended hended ▸ hended)
  · exact (hgoes.names runId hnames).imp_right fun h => ⟨hawaits, runId, h⟩

/-! ## Tallies -/

/-- A response that names a run which was started. -/
def Response.namesRun (response : Response) : Bool :=
  response.isSuccess && (response.json.getD "runId").truthy
    && (!(response.json.getD "status").truthy || (response.json.getD "status").text?.isSome)

/-- **A request that starts a run**: it posts something, and the response names the run. -/
def Call.startsRun : (c : Call) → c.Answer → Bool
  | .request r, reply => r.method == "POST" && reply.response.toOption.any Response.namesRun
  | _, _ => false

/-- **The tally of a step**: its entry, how many runs it has started, and whether an entry that holds it
    back was saved. -/
structure Tally where
  entry : Option Value
  starts : Nat
  saved : Prop

/-- What a call makes of the tally of a step. -/
structure TallyStep (s : Step) (path : String) (a : Tally) (c : Call) (answer : c.Answer)
    (a' : Tally) : Prop where
  entry : EntryStep path a.entry c answer a'.entry
  starts : a'.starts = a.starts + (c.startsRun answer).toNat
  keeps : a.saved → a'.saved
  saves : (∃ runId, c = .saveCheckpoint runId) → s.HeldBack a.entry → a'.saved

/-- **What the tally of a leaf comes to**: no run was started; or one was, the step was not held back
    before, and the entry that holds it back now was saved. -/
def Tallied (s : Step) (a a' : Tally) : Prop :=
  a'.starts = a.starts ∨ a'.starts = a.starts + 1 ∧ ¬ s.HeldBack a.entry ∧ a'.saved

/-- **The tally along the deeds of a step.** Where an entry was saved, there is the deed that has saved
    it. -/
theorem Follows.tally {s : Step} {path : String} {e e' : Option Value} {ds : List Deed}
    (h : Follows (EntryStep path) e ds e') (n : Nat) (b : Prop) :
    ∃ b', Follows (TallyStep s path) ⟨e, n, b⟩ ds
        ⟨e', n + ds.countP fun d => d.call.startsRun d.answer, b'⟩
      ∧ (b' → b ∨ ∃ pre d post runId, ds = pre ++ d :: post ∧ d.call = .saveCheckpoint runId
          ∧ ∀ e₁, Follows (EntryStep path) e pre e₁ → s.HeldBack e₁) := by
  induction h generalizing n b with
  | nil => exact ⟨b, .nil, .inl⟩
  | @cons e e₁ e' d ds first _ ih =>
    obtain ⟨b', hfollows, hsaved⟩ := ih (n + (d.call.startsRun d.answer).toNat)
      (b ∨ (∃ runId, d.call = .saveCheckpoint runId) ∧ s.HeldBack e)
    refine ⟨b', ?_, fun hb' => ?_⟩
    · rw [add_countP_cons]
      exact .cons ⟨first, rfl, Or.inl, fun hcall hheld => Or.inr ⟨hcall, hheld⟩⟩ hfollows
    · rcases hsaved hb' with (hb | ⟨⟨runId, hcall⟩, hheld⟩) | ⟨pre, d', post, runId, rfl, hcall, hheld⟩
      · exact .inl hb
      · exact .inr ⟨[], d, ds, runId, rfl, hcall, fun e₁ h => h.eq_of_nil ▸ hheld⟩
      · refine .inr ⟨d :: pre, d', post, runId, rfl, hcall, fun e₂ h => ?_⟩
        obtain ⟨e₁', hfirst, hrest⟩ := h.of_cons
        obtain rfl : e₁' = e₁ := hfirst.after.trans first.after.symm
        exact hheld e₂ hrest

section

variable {x : Execution} {s : Step} {path : String} {a : Tally}

open Runbook.Action

/-- Calls that post nothing. -/
def Call.PostsNothing (c : Call) : Prop := ∀ r, c = .request r → r.method ≠ "POST"

theorem Call.PostsNothing.startsRun_eq {c : Call} (h : c.PostsNothing) (answer : c.Answer) :
    c.startsRun answer = false := by
  cases c with
  | request r => simp [Call.startsRun, h r rfl]
  | _ => rfl

theorem Call.postsNothing_get (url : String) : PostsNothing (.request ⟨"GET", url, none, []⟩) :=
  fun r h => by cases h; simp

theorem Call.postsNothing_hostSleep (seconds : Float) : PostsNothing (.hostSleep seconds) :=
  fun r h => absurd h (by simp)

/-- What posts nothing starts nothing. -/
theorem heeds_postsNothing {α : Type} {act : Action α} (h : Makes Call.PostsNothing act) :
    act.Heeds (TallyStep s path) (fun _ _ => True)
      (fun _ a' => a'.starts = a.starts ∧ (a.saved → a'.saved)) a := by
  refine heeds_of_makes (I := fun a' : Tally => a'.starts = a.starts ∧ (a.saved → a'.saved)) h
    (fun _ _ _ _ => trivial) ?_ ⟨rfl, fun h => h⟩
  rintro a₁ c answer a₂ hc ⟨hstarts, hsaved⟩ hstep
  refine ⟨?_, hstep.keeps ∘ hsaved⟩
  rw [hstep.starts, hc.startsRun_eq, hstarts]
  rfl

/-! ## Starts -/

/-- What a response makes of the request that was to start a run. -/
theorem startedRun_eq_ok (workflow url : String) {response : Response}
    (hruns : (response.json.getD "runId").truthy = true)
    (hstatus : (response.json.getD "status").truthy = true →
      ∃ word, response.json.getD "status" = .text word) :
    ∃ r : DispatchResult, r.id.isSome = true
      ∧ (Dispatch.startedRun workflow url response).outcome = .done (.ok r) := by
  unfold Dispatch.startedRun
  have hid : Dispatch.givenText? (response.json.getD "runId")
      = some (response.json.getD "runId").display := if_pos hruns
  rw [hid]
  dsimp only
  by_cases htruthy : (response.json.getD "status").truthy = true
  · obtain ⟨word, hword⟩ := hstatus htruthy
    rw [if_pos htruthy, hword]
    exact ⟨_, rfl, rfl⟩
  · rw [if_neg htruthy]
    exact ⟨_, rfl, rfl⟩

/-- **A response that names a run** is one of success that is made a result of, which names the run. -/
theorem startedRun_of_namesRun (workflow url what : String) {response : Response}
    (h : response.namesRun = true) :
    ∃ r : DispatchResult, r.id.isSome = true
      ∧ Dispatch.requireSuccess response url what = pure ()
      ∧ (Dispatch.startedRun workflow url response).outcome = .done (.ok r) := by
  simp only [Response.namesRun, Bool.and_eq_true, Bool.or_eq_true, Bool.not_eq_true'] at h
  obtain ⟨⟨hsuccess, hruns⟩, hstatus⟩ := h
  obtain ⟨r, hr, houtcome⟩ := startedRun_eq_ok workflow url hruns fun htruthy => by
    rcases hstatus with hfalse | htext
    · exact absurd (htruthy.symm.trans hfalse) (by simp)
    · obtain ⟨word, hword⟩ := Option.isSome_iff_exists.mp htext
      refine ⟨word, ?_⟩
      cases hv : response.json.getD "status" <;> rw [hv] at hword <;>
        simp only [Value.text?, Option.some.injEq, reduceCtorEq] at hword
      rw [hword]
  exact ⟨r, hr, by rw [Dispatch.requireSuccess, if_pos hsuccess], houtcome⟩

/-- **To start a workflow** is to send one request: what it starts is named in the result. -/
theorem startWorkflow_tally {settings : DispatchSettings} {workflow : String} {input : Value}
    {messages : List Value} {executionId : Option String} :
    (Dispatch.startWorkflow settings workflow input messages executionId).Heeds (TallyStep s path)
      (fun _ _ => True)
      (fun o a' => a'.entry = a.entry ∧ (a.saved → a'.saved) ∧ (a'.starts = a.starts
        ∨ a'.starts = a.starts + 1 ∧ ∃ r, o = .ok r ∧ r.id.isSome = true)) a := by
  unfold Dispatch.startWorkflow
  refine heeds_bind (Q := fun o a' => a'.entry = a.entry ∧ (a.saved → a'.saved)
    ∧ (∀ response, o = .ok response → a'.starts = a.starts + response.namesRun.toNat)
    ∧ ∀ f, o = .error f → a'.starts = a.starts) ?_ ?_ ?_
  · refine Dispatch.exchange_heeds (fun _ => ⟨rfl, fun h => h, by simp, fun _ _ => rfl⟩) trivial
      fun reply a' hstep => ?_
    have hentry : a'.entry = a.entry := hstep.entry.after.trans
      ((spared_of_isOutside (c := .request _) rfl).after_eq path a.entry)
    refine ⟨fun response hresponse => ⟨hentry, hstep.keeps, fun r hr => ?_, by simp⟩,
      fun reason hreason => ⟨hentry, hstep.keeps, by simp, fun _ _ => ?_⟩⟩
    · obtain rfl := Except.ok.inj hr
      rw [hstep.starts]
      simp [Call.startsRun, hresponse, Except.toOption]
    · rw [hstep.starts]
      simp [Call.startsRun, hreason, Except.toOption]
  · rintro response a' ⟨hentry, hsaved, hstarts, -⟩
    replace hstarts := hstarts response rfl
    -- what is left to do makes no calls
    have hends {o : Except Fault DispatchResult}
        (ho : response.namesRun = true → ∃ r, o = .ok r ∧ r.id.isSome = true) :
        a'.entry = a.entry ∧ (a.saved → a'.saved) ∧ (a'.starts = a.starts
          ∨ a'.starts = a.starts + 1 ∧ ∃ r, o = .ok r ∧ r.id.isSome = true) := by
      refine ⟨hentry, hsaved, ?_⟩
      cases hnames : response.namesRun with
      | false => exact .inl (by rw [hstarts, hnames]; rfl)
      | true => exact .inr ⟨by rw [hstarts, hnames]; rfl, ho hnames⟩
    by_cases hnames : response.namesRun = true
    · obtain ⟨r, hr, hsuccess, houtcome⟩ := startedRun_of_namesRun workflow
        (Address.workflowUrl settings workflow) ("Workflow " ++ workflow ++ " start") hnames
      rw [hsuccess]
      refine heeds_bind (Q := fun o a'' => a'' = a' ∧ o = .ok ()) ⟨rfl, rfl⟩ ?_ (by simp)
      rintro - _ ⟨rfl, -⟩
      unfold Action.Heeds
      rw [houtcome]
      exact hends fun _ => ⟨r, rfl, hr⟩
    · have hmakes : Makes (fun _ => False) (do
          Dispatch.requireSuccess response (Address.workflowUrl settings workflow)
            ("Workflow " ++ workflow ++ " start")
          Dispatch.startedRun workflow (Address.workflowUrl settings workflow) response) :=
        makes_bind (Dispatch.makes_requireSuccess ..) fun _ => Dispatch.makes_startedRun ..
      refine heeds_weaken (heeds_of_makes (I := fun a'' => a'' = a') hmakes (fun _ _ h => h.elim)
        (fun _ _ _ _ h => h.elim) rfl) ?_
      rintro o _ rfl
      exact hends fun h => absurd h hnames
  · rintro f a' ⟨hentry, hsaved, -, hstarts⟩
    exact ⟨hentry, hsaved, .inl (hstarts f rfl)⟩

theorem note_postsNothing {fields : Keyed Value} :
    Makes Call.PostsNothing (x.note path fields) := by
  refine makes_bind (makes_call nofun) fun _ => makes_bind (makes_ofExcept _) fun _ => ?_
  unfold Execution.saveCheckpoint
  split
  · exact makes_call nofun
  · exact makes_pure _

/-- A run that was noted is named. -/
theorem names_amend {entry : Option Value} (h : Mapping entry) (runId : String) :
    Names (JournalEntry.after path entry (.amend path [("runId", .text runId)])) runId := by
  cases entry with
  | none => simp [JournalEntry.after, Names, noted_object, Keyed.get?]
  | some v =>
    obtain ⟨fields, rfl⟩ := h v rfl
    simp [JournalEntry.after, Names, noted_object, Keyed.putAll]

/-- **A run that was started is noted**, and the note saved. -/
theorem note_tally {runId : String} (hawaits : s.awaitsRun = true) (hon : x.engine.checkpoints = true)
    (hmapping : Mapping a.entry) :
    (x.note path [("runId", .text runId)]).Heeds (TallyStep s path) (fun _ _ => True)
      (fun _ a' => a'.starts = a.starts ∧ a'.saved) a := by
  unfold Execution.note
  refine ⟨trivial, fun done a₁ hnoted => ?_⟩
  obtain rfl := hnoted.entry.amended _ _ rfl hmapping
  have hheld : s.HeldBack a₁.entry := by
    rw [hnoted.entry.after]
    exact .inr ⟨hawaits, runId, names_amend hmapping runId⟩
  have hsave : (x.saveCheckpoint).Heeds (TallyStep s path) (fun _ _ => True)
      (fun _ a' => a'.starts = a.starts ∧ a'.saved) a₁ := by
    unfold Execution.saveCheckpoint
    rw [if_pos hon]
    refine ⟨trivial, fun _ a₂ hstep => ⟨?_, hstep.saves ⟨_, rfl⟩ hheld⟩⟩
    rw [hstep.starts, hnoted.starts]
    rfl
  exact hsave

/-- **The run that a workflow step waits for** is started only if none is named. -/
theorem nestedRun_tally {workflow : String} {input : Value} (hawaits : s.awaitsRun = true)
    (hon : x.engine.checkpoints = true) (hopen : ¬ Ended a.entry) (hmapping : Mapping a.entry) :
    (x.nestedRun workflow input path).Heeds (TallyStep s path) (fun _ _ => True)
      (fun _ a' => Tallied s a a') a := by
  unfold Execution.nestedRun
  refine heeds_bind (Q := fun o a' => a'.entry = a.entry ∧ a'.starts = a.starts
    ∧ o = noted a.entry "runId") ?_ ?_ fun _ _ h => .inl h.2.1
  · refine ⟨trivial, fun found a' hstep => ?_⟩
    have htold : found = a.entry := hstep.entry.told found rfl
    exact ⟨hstep.entry.after, hstep.starts, by rw [htold]⟩
  rintro found a₁ ⟨hentry₁, hstarts₁, hfound⟩
  split
  · -- nothing is named yet, so nothing holds the step back
    have hfree : ¬ s.HeldBack a.entry := by
      rintro (hended | ⟨-, runId, hnames⟩)
      · exact hopen hended
      · rw [Names, ← hfound] at hnames
        simp at hnames
    refine heeds_bind startWorkflow_tally ?_ ?_
    · rintro r a₂ ⟨hentry₂, -, hstarts₂⟩
      replace hentry₂ : a₂.entry = a.entry := hentry₂.trans hentry₁
      rcases hstarts₂ with hnone | ⟨hone, _, hr, hid⟩
      · refine heeds_weaken (heeds_postsNothing (a := a₂) ?_) fun _ a' h => .inl ?_
        · exact makes_bind note_postsNothing fun _ => makes_pure _
        · rw [h.1, hnone, hstarts₁]
      · obtain rfl := Except.ok.inj hr
        obtain ⟨runId, hid⟩ := Option.isSome_iff_exists.mp hid
        rw [hid]
        refine heeds_bind (note_tally hawaits hon (hentry₂ ▸ hmapping)) ?_ ?_
        · exact fun _ a₃ h => .inr ⟨by rw [h.1, hone, hstarts₁], hfree, h.2⟩
        · exact fun _ a₃ h => .inr ⟨by rw [h.1, hone, hstarts₁], hfree, h.2⟩
    · rintro f a' ⟨-, -, hnone | ⟨-, _, hr, -⟩⟩
      · exact .inl (hnone.trans hstarts₁)
      · exact absurd hr (by simp)
  · exact .inl hstarts₁

/-! ## Leaves -/

/-- What posts nothing leaves the tally. -/
theorem heeds_tallied {α : Type} {act : Action α} {a₀ : Tally} (ha : Tallied s a₀ a)
    (h : Makes Call.PostsNothing act) :
    act.Heeds (TallyStep s path) (fun _ _ => True) (fun _ a' => Tallied s a₀ a') a := by
  refine heeds_weaken (heeds_postsNothing h) fun _ a' ⟨hstarts, hsaved⟩ => ?_
  rcases ha with hnone | ⟨hone, hfree, hheld⟩
  · exact .inl (hstarts.trans hnone)
  · exact .inr ⟨hstarts.trans hone, hfree, hsaved hheld⟩

/-- **What a step does on the way** to its output: it starts a run and waits for it, and then its entry
    holds it back; or it starts a run, and then it succeeds; or it starts none. -/
theorem handler_tally {c : Context} {body : String → Action Value} (hstarts : s.startsRuns = true)
    (hbody : x.handler? s c = some body) (hon : x.engine.checkpoints = true) (hopen : ¬ Ended a.entry)
    (hmapping : Mapping a.entry) :
    (body path).Heeds (TallyStep s path) (fun _ _ => True)
      (fun o a' => Tallied s a a' ∨ a'.starts = a.starts + 1 ∧ ¬ s.HeldBack a.entry ∧ ∃ v, o = .ok v)
      a := by
  -- to start a run without waiting for it
  have hstart {workflow : String} {input : Value} (hawaits : s.awaitsRun = false) :
      (Execution.startedOutput "runId" <$> x.start workflow input path).Heeds (TallyStep s path)
        (fun _ _ => True)
        (fun o a' => Tallied s a a'
          ∨ a'.starts = a.starts + 1 ∧ ¬ s.HeldBack a.entry ∧ ∃ v, o = .ok v) a := by
    refine heeds_map (heeds_weaken startWorkflow_tally ?_)
    rintro o a' ⟨-, -, hnone | ⟨hone, r, rfl, -⟩⟩
    · exact .inl (.inl hnone)
    · refine .inr ⟨hone, ?_, _, rfl⟩
      rintro (hended | ⟨h, -⟩)
      · exact hopen hended
      · exact absurd (h.symm.trans hawaits) (by simp)
  have hinput {α : Type} {r : Except Fault α} : (Action.ofExcept r).Heeds (TallyStep s path)
      (fun _ _ => True) (fun _ a' => a' = a) a := rfl
  cases s <;> simp only [Step.startsRuns, Execution.handler?, Option.some.injEq, Bool.false_eq_true,
    Bool.not_eq_true'] at hstarts hbody <;> subst hbody
  case agent call agent =>
    unfold Execution.runAgent
    refine heeds_bind hinput ?_ fun _ _ h => .inl (.inl (by rw [h]))
    rintro input _ rfl
    rw [if_neg (by simp [hstarts])]
    exact hstart rfl
  case workflow call workflow =>
    unfold Execution.runWorkflow
    refine heeds_bind hinput ?_ fun _ _ h => .inl (.inl (by rw [h]))
    rintro input _ rfl
    split
    · next hawaits =>
      refine heeds_bind (nestedRun_tally hawaits hon hopen hmapping) ?_ fun _ _ h => .inl h
      intro runId a₁ htallied
      refine heeds_weaken (heeds_tallied htallied ?_) fun _ _ h => .inl h
      refine makes_bind (makes_pollUntilDone ?_ (fun _ => makes_hostSleep (Call.postsNothing_hostSleep _))
        (fun r h => absurd h (by simp)) _) fun r => ?_
      · exact Dispatch.makes_lookAtRun Call.postsNothing_get ..
      · exact makes_bind (Execution.makes_requireCompletion ..) fun _ => makes_pure _
    · next hawaits => exact hstart (Bool.not_eq_true _ ▸ hawaits)

/-- How the end of a step is written down: an output holds the step back, and is saved. -/
theorem close_tally {q : StepPath} {o : Except Fault Value} (hon : x.engine.checkpoints = true) :
    (x.close q o).Heeds (TallyStep s q.text) (fun _ _ => True)
      (fun _ a' => a'.starts = a.starts ∧ (a.saved → a'.saved) ∧ ((∃ v, o = .ok v) → a'.saved)) a := by
  unfold Execution.close
  cases hentry : x.entry? o with
  | none =>
    refine ⟨rfl, fun h => h, ?_⟩
    rintro ⟨v, rfl⟩
    exact absurd hentry (by simp [Execution.entry?])
  | some fields =>
    refine ⟨trivial, fun _ a₁ hjournal => ?_⟩
    rw [if_pos hon]
    refine ⟨trivial, fun _ a₂ hsave => ⟨?_, hsave.keeps ∘ hjournal.keeps, fun _ => ?_⟩⟩
    · rw [hsave.starts, hjournal.starts]
      rfl
    · refine hsave.saves ⟨_, rfl⟩ (.inl ?_)
      rw [hjournal.entry.after, JournalEntry.after, if_pos rfl]
      exact ended_entry hentry

/-- **A leaf starts at most one run**, and none if its entry holds it back; and if it has started one, an
    entry that holds it back was saved. -/
theorem carryOut_tally {c c' : Context} {body : String → Action Value} {q : StepPath}
    {id : Option String} (hstarts : s.startsRuns = true) (hbody : x.handler? s c = some body)
    (hon : x.engine.checkpoints = true) (hmapping : Mapping a.entry) :
    (x.carryOut q id c' (body q.text)).outcome.Heeds (TallyStep s q.text) (fun _ _ => True)
      (fun _ a' => Tallied s a a') a := by
  rw [Execution.carryOut_eq]
  refine ⟨trivial, fun found a₁ hstep => ?_⟩
  obtain rfl : found = a.entry := hstep.entry.told found rfl
  have hentry₁ : a₁.entry = a.entry := hstep.entry.after
  have hstarts₁ : a₁.starts = a.starts := hstep.starts
  dsimp only
  cases hreplay : replay? a.entry with
  | some o => exact .inl hstarts₁
  | none =>
    have hopen : ¬ Ended a₁.entry := fun h => (hentry₁ ▸ h).replay?_ne_none hreplay
    dsimp only
    rw [Execution.carryOutNew_eq]
    refine Program.heeds_bind (handler_tally hstarts hbody hon hopen (hentry₁ ▸ hmapping)) ?_
    intro o a₂ hbody
    refine ⟨trivial, fun _ a₃ hreport => ?_⟩
    have hstarts₃ : a₃.starts = a₂.starts := hreport.starts
    refine Program.heeds_bind (close_tally hon) fun _ a₄ ⟨hstarts₄, hkept, hsaved⟩ => ?_
    replace hstarts₄ : a₄.starts = a₂.starts := hstarts₄.trans hstarts₃
    have hone {n : Nat} (h : n = a₁.starts + 1) : n = a.starts + 1 := h.trans (by rw [hstarts₁])
    rcases hbody with (hnone | ⟨hstart, hfree, hheld⟩) | ⟨hstart, hfree, hok⟩
    · exact .inl (hstarts₄.trans (hnone.trans hstarts₁))
    · exact .inr ⟨hstarts₄.trans (hone hstart), hentry₁ ▸ hfree, hkept (hreport.keeps hheld)⟩
    · exact .inr ⟨hstarts₄.trans (hone hstart), hentry₁ ▸ hfree, hsaved hok⟩

end

end Runbook
