import Runbook.Proofs.Pauses

/-!
# `Proofs.Lifecycle` — the statuses of a run

An attempt first says that the run goes on and last how it has ended; and that is said once. In between the run
is paused and goes on, and if no steps are carried out side by side, these follow one another; and the record
holds a token exactly while the run waits for the event.

## Contents
- **Attempts.** `Execution.Lived`, an attempt that came to its end; what it tells.
- **Trials.** `Trial.LetIn`, and that such a trial has lived; no trial that ended leaves a token.
- **Chains.** `Trial.Lifecycle`, and `attempts_live`.
-/

namespace Runbook

open RunRecord

/-! ## Attempts -/

/-- **An attempt that came to its end**: after what it looked up it says that the run goes on, the attempt
    begins, and it is concluded. -/
inductive Execution.Lived (pace : Clock → Clock → Prop) (x : Execution) : List Deed → Outcome → Prop where
  | intro {ds es : List Deed} {d : Deed} {a : Attempt} {keepJournal : Bool} {updates : Keyed Value} {o : Outcome}
      (hds : ∀ d ∈ ds, d.call.Inner) (hd : d.call = .updateRun x.runId updates) (hopening : Opening updates)
      (hconcluded : x.Concluded pace a keepJournal es o) : Lived pace x (ds ++ d :: es) o

section

variable {pace : Clock → Clock → Prop} {x : Execution} {w : World} {anew : Prop} {ds es : List Deed} {o : Outcome}
  {u : Clock} {d : Deed} {id : String}

namespace Execution.Lived

/-- **The end is told once, and last.** -/
theorem ends (h : x.Lived pace ds o) :
    ∃ es d, ds = es ++ [d] ∧ d.call = .updateRun x.runId (endUpdate o)
      ∧ ∀ e ∈ es, (∀ s ∈ toldStatus? (e.call.told x.runId), s = .paused ∨ s = .running)
        ∧ toldResult? (e.call.told x.runId) = none ∧ toldError? (e.call.told x.runId) = none := by
  cases h with
  | @intro ds _ d a keepJournal updates o hds hd hopening hconcluded =>
  cases hconcluded with
  | @intro b d' ws cs t u o hb hwalk hcs hmidway hd' =>
    -- deeds before the end are hushed, or on the way, but for the one that opens the attempt
    refine ⟨ds ++ d :: (b :: ws ++ cs), d', by simp, by rw [hd', endUpdate_concluded], ?_⟩
    have hhushed {e : Deed} (he : e.call.Hushed x.runId) :
        (∀ s ∈ toldStatus? (e.call.told x.runId), s = .paused ∨ s = .running)
          ∧ toldResult? (e.call.told x.runId) = none ∧ toldError? (e.call.told x.runId) = none := by
      rw [he.told]
      exact ⟨fun s hs => absurd hs (by simp [toldStatus?, Keyed.get?, RunStatus.ofValue, Value.text?,
        Checked.complain]), rfl, rfl⟩
    have hmid {e : Deed} (he : e.call.Midway x.runId) := And.intro he.toldStatus?_eq
      (And.intro he.toldResult?_eq he.toldError?_eq)
    intro e he
    rcases List.mem_append.mp he with he | he
    · exact hhushed (.of_inner (hds e he))
    rcases List.mem_cons.mp he with rfl | he
    · obtain ⟨hstatus, -, hresult, herror⟩ := hopening.told
      rw [hd, Call.told_updateRun, hstatus]
      refine ⟨?_, hresult, herror⟩
      rintro _ ⟨⟩
      exact .inr rfl
    rcases List.mem_append.mp he with he | he
    · rcases List.mem_cons.mp he with rfl | he
      · exact hhushed (hb ▸ .of_inner ⟨rfl, rfl⟩)
      · exact hmid (walkFrom_midway hwalk e he)
    · exact hmid (hmidway e he)

/-- **An attempt around its steps**: before them it says only that the run goes on, and after them only how it
    has ended. -/
theorem around (h : x.Lived pace ds o) :
    ∃ before ws behind a keepJournal t res, ds = before ++ (ws ++ behind)
      ∧ Fiber.Course pace t (x.walkFrom a keepJournal) ws (some res)
      ∧ (∀ d ∈ before, d.call.Tokenless x.runId) ∧ (∀ d ∈ behind, d.call.Tokenless x.runId)
      ∧ toldStatuses x.runId before = [.running] ∧ toldStatuses x.runId behind = [.ofEnd o] := by
  cases h with
  | @intro ds _ d a keepJournal updates o hds hd hopening hconcluded =>
  cases hconcluded with
  | @intro b d' ws cs t u o hb hwalk hcs hmidway hd' =>
  have hb' : b.call.Hushed x.runId := hb ▸ .of_inner ⟨rfl, rfl⟩
  have hquiet {es : List Deed} (hes : ∀ e ∈ es, e.call.Hushed x.runId) : toldStatuses x.runId es = [] := by
    refine List.filterMap_eq_nil_iff.mpr fun u hu => ?_
    obtain ⟨e, he, rfl⟩ := List.mem_map.mp hu
    rw [(hes e he).told]
    rfl
  refine ⟨ds ++ [d, b], ws, cs ++ [d'], a, keepJournal, t, (o, u), by simp, hwalk, fun e he => ?_, fun e he => ?_,
    ?_, ?_⟩
  · simp only [List.mem_append, List.mem_cons, List.not_mem_nil, or_false] at he
    rcases he with he | rfl | rfl
    · exact (Call.Hushed.of_inner (hds e he)).tokenless
    · exact .of_update hd hopening.told.2.1
    · exact hb'.tokenless
  · simp only [List.mem_append, List.mem_singleton] at he
    rcases he with he | rfl
    · exact (hcs e he).1.tokenless
    · exact .of_update hd' (toldToken?_end o)
  · rw [toldStatuses_append, hquiet fun e he => .of_inner (hds e he), toldStatuses_cons, toldStatuses_cons, hd,
      Call.told_updateRun, hopening.told.1, hb'.told]
    rfl
  · rw [toldStatuses_append, hquiet fun e he => (hcs e he).1, toldStatuses_cons, hd', Call.told_updateRun,
      toldStatus?_end, RunStatus.ofEnd, RunStatus.ofEnd]
    cases o <;> rfl

/-- **No token is left over.** -/
theorem cleared (h : x.Lived pace ds o) : Cleared x.runId ds := by
  obtain ⟨before, ws, behind, a, keepJournal, t, res, rfl, hwalk, hbefore, hbehind, -⟩ := h.around
  have hquiet {es : List Deed} (hes : ∀ e ∈ es, e.call.Tokenless x.runId) : Cleared x.runId es :=
    .of_tokenless hes
  exact (hquiet hbefore).append ((walkFrom_passedOn (passedOn_cleared _) (.inl trivial) hwalk).append (hquiet hbehind))

/-- **Without steps side by side** the pauses of an attempt follow one another. -/
theorem pauses (h : x.Lived pace ds o) (hplan : x.plan.Sequential) : Pauses x.runId (Call.Tokenless x.runId) ds := by
  obtain ⟨before, ws, behind, a, keepJournal, t, res, rfl, hwalk, hbefore, hbehind, -⟩ := h.around
  exact (Pauses.of_other hbefore).append
    (((walkFrom_passedOn (passedOn_pauses _) (.inr hplan) hwalk).mono fun _ hc => hc.tokenless).append
      (.of_other hbehind))

/-- **The statuses of an attempt** without steps side by side, on a host that finishes its sleeps. -/
theorem statuses (h : x.Lived pace ds o) (hplan : x.plan.Sequential) (hrested : ∀ d ∈ ds, d.Rested) :
    ∃ n, toldStatuses x.runId ds
      = .running :: ((List.replicate n [RunStatus.paused, .running]).flatten ++ [.ofEnd o]) := by
  obtain ⟨before, ws, behind, a, keepJournal, t, res, rfl, hwalk, -, -, hrunning, hended⟩ := h.around
  obtain ⟨n, hn⟩ := (walkFrom_passedOn (passedOn_pauses _) (.inr hplan) hwalk).statuses fun d hd =>
    hrested d (List.mem_append_right _ (List.mem_append_left _ hd))
  refine ⟨n, ?_⟩
  rw [toldStatuses_append, toldStatuses_append, hrunning, hn, hended]
  rfl

end Execution.Lived

/-- What a trial tells that comes to its end: it was refused, or has found the run completed, and tells
    nothing; or it has lived. -/
theorem Execution.Telling.ended (h : x.Telling pace w anew ds (some (o, u))) :
    ((∀ d ∈ ds, d.call.Inner) ∧ ¬ anew
        ∧ ((∃ f, o = .error f ∧ x.Refuses w f)
          ∨ ∃ record c, w.recordOf x.runId = .ok (some record) ∧ record.status = .completed
            ∧ o = .ok ⟨c, record.result⟩))
      ∨ x.Lived pace ds o := by
  cases h with
  | refused hanew hds hrefuses => exact .inl ⟨hds, hanew, .inl ⟨_, rfl, hrefuses⟩⟩
  | restored hanew hds hrecord hstatus => exact .inl ⟨hds, hanew, .inr ⟨_, _, hrecord, hstatus, rfl⟩⟩
  | told hds hd hopening hcourse => exact .inr (.intro hds hd hopening (carryOutFrom_ended hcourse))

/-- **Whoever has ended leaves no token.** -/
theorem Execution.Telling.cleared (h : x.Telling pace w anew ds (some (o, u))) : Cleared x.runId ds := by
  rcases h.ended with ⟨hds, -⟩ | hlived
  · exact .of_tokenless fun d hd => (Call.Hushed.of_inner (hds d hd)).tokenless
  · exact hlived.cleared

end

/-! ## Trials -/

/-- **A trial that is let in**: it runs anew, or it continues a run that was not completed; if that has to start
    over, what was read of the plan is accepted as it was before. -/
inductive Trial.LetIn (pace : Clock → Clock → Prop) (source : PlanSource) (plan : Plan) (id : String)
    (a : Trial) : Prop where
  | anew {given executionId : Option String} (hid : RunsAs given a.deeds id)
      (hruns : a.before.Runs pace (a.engine.run source given executionId) a.deeds a.result a.after)
  | again {record : RunRecord}
      (hruns : a.before.Runs pace (a.engine.resume source id) a.deeds a.result a.after)
      (hrecord : a.before.recordOf id = .ok (some record)) (hstatus : record.status ≠ .completed)
      (haccept : a.before.checkpointOf id = none → (PlanSource.parsed plan).accept = .ok plan)

section

variable {pace : Clock → Clock → Prop} {source : PlanSource} {plan : Plan} {id : String} {a : Trial}
  {trials earlier later : List Trial} {runs : RunStore} {o : Outcome} {u : Clock}

/-- **A trial that is let in** and comes to its end has lived. -/
theorem Trial.LetIn.lived (h : a.LetIn pace source plan id) (haccept : source.accept = .ok plan) (hid : id ≠ "")
    (hrecorded : a.Recorded pace plan id) (hended : a.result = some (o, u)) :
    (⟨a.engine, plan, id⟩ : Execution).Lived pace a.deeds o := by
  cases h with
  | anew hid hruns =>
    -- a run is never refused, and does not look whether it was completed before
    have htells : Execution.Telling pace ⟨a.engine, plan, id⟩ a.before True a.deeds a.result :=
      run_tells haccept hid a.before hruns.course
    rw [hended] at htells
    exact htells.ended.resolve_left fun h => h.2.1 trivial
  | again hruns hrecord hstatus haccept' =>
    have htells := resume_tells haccept hid hrecorded.working hrecorded.legible hruns.admits hruns.course
    rw [hended] at htells
    refine htells.ended.resolve_left ?_
    rintro ⟨-, -, ⟨f, -, hrefuses⟩ | ⟨record', c, hrecord', hcompleted, -⟩⟩
    · -- the record is known; and if the run has to start over, its plan is accepted
      cases hrefuses with
      | unknown h => exact absurd (hrecord.symm.trans h) (by simp)
      | again _ _ hnone hrefused => exact absurd ((haccept' hnone).symm.trans hrefused) (by simp)
    · obtain rfl : record' = _ := Option.some.inj (Except.ok.inj (hrecord'.symm.trans hrecord))
      exact hstatus hcompleted

/-- **The statuses of a trial** that ends, after earlier ones.
    - `ends`: how it ends is told once, and last.
    - `alternates`: without steps side by side, on a host that finishes its sleeps, it says that it goes on, then
      any number of times that it is paused and goes on, and then how it has ended.
    - `shows`: without steps side by side, at any moment within a wait the record says that the run is paused, and
      shows the token of the event; at any other moment it shows no token, or one that it showed before the trial,
      if the trial has not waited yet.
    - `awaits`: every event is waited for within a wait.
    - `begins`: when the earlier trials have ended, the record shows no token before the trial. -/
structure Trial.Lifecycle (plan : Plan) (id : String) (earlier : List Trial) (a : Trial) (o : Outcome) :
    Prop where
  ends : ∃ ds d, a.deeds = ds ++ [d] ∧ toldStatus? (d.call.told id) = some (if o.isOk then .completed else .failed)
    ∧ ∀ e ∈ ds, toldStatus? (e.call.told id) ≠ some .completed ∧ toldStatus? (e.call.told id) ≠ some .failed
  alternates : plan.Sequential → (∀ d ∈ a.deeds, d.Rested) →
    ∃ n, toldStatuses id a.deeds
      = .running :: ((List.replicate n [RunStatus.paused, .running]).flatten
        ++ [if o.isOk then .completed else .failed])
  shows : plan.Sequential → ∀ {pre post w}, a.deeds = pre ++ post → a.before.Admits pre w →
    (∀ token, Waiting id token pre post → (w.standing id).status = .paused ∧ (w.standing id).token = some token)
    ∧ ∀ token, (w.standing id).token = some token → Waiting id token pre post
      ∨ toldTokens id pre = [] ∧ (a.before.standing id).token = some token
  awaits : plan.Sequential → ∀ {pre e post token seconds}, a.deeds = pre ++ e :: post →
    e.call = .awaitEvent token seconds → Waiting id token pre (e :: post)
  begins : (∀ b ∈ earlier, b.result ≠ none) → (a.before.standing id).token = none

/-- The record of a trial of a run within the trial. -/
theorem Trial.Recorded.within (h : a.Recorded pace plan id) (hserved : a.Served) {pre post : List Deed} {w : World}
    (hcut : a.deeds = pre ++ post) (hpre : a.before.Admits pre w) :
    (w.standing id).token = ((toldTokens id pre).getLast?).getD (a.before.standing id).token
      ∧ ((∀ d ∈ pre, toldResult? (d.call.told id) = none) →
        (w.standing id).status = ((toldStatuses id pre).getLast?).getD (a.before.standing id).status) := by
  have hmem {d : Deed} (hd : d ∈ pre) : d ∈ a.deeds := hcut ▸ List.mem_append_left _ hd
  obtain ⟨-, -, htoken, hsaid⟩ := h.working.admits hpre (fun d hd => h.informs d (hmem hd))
    fun d hd => hserved.timely d (hmem hd)
  refine ⟨htoken.trans Standing.token_afterAll, fun hresults => ?_⟩
  rw [hsaid fun d hd _ v hv => absurd ((hresults d hd).symm.trans hv) (by simp)]
  exact Standing.status_afterAll

/-- **Within a trial that has lived** the record shows a token exactly during a wait. -/
theorem Trial.Recorded.shows (hrecorded : a.Recorded pace plan id) (hserved : a.Served)
    (hlived : (⟨a.engine, plan, id⟩ : Execution).Lived pace a.deeds o) (hplan : plan.Sequential)
    {pre post : List Deed} {w : World} (hcut : a.deeds = pre ++ post) (hpre : a.before.Admits pre w) :
    (∀ token, Waiting id token pre post → (w.standing id).status = .paused ∧ (w.standing id).token = some token)
      ∧ ∀ token, (w.standing id).token = some token → Waiting id token pre post
        ∨ toldTokens id pre = [] ∧ (a.before.standing id).token = some token := by
  obtain ⟨htoken, hstatus⟩ := hrecorded.within hserved hcut hpre
  refine ⟨fun token hwaiting => ?_, fun token hsome => ?_⟩
  · -- how the run has ended is told after every wait
    obtain ⟨ds, d, hds, -, hmid⟩ := hlived.ends
    have hpast : ∀ e ∈ pre, e ∈ ds := by
      rcases List.append_eq_append_iff.mp (hcut.symm.trans hds) with ⟨rest, rfl, -⟩ | ⟨rest, rfl, hlast⟩
      · exact fun e he => List.mem_append_left rest he
      · have hnil := (List.append_eq_singleton_iff.mp hlast.symm).resolve_right fun h => hwaiting.ne_nil h.2
        rw [hnil.1, List.append_nil]
        exact fun e he => he
    obtain ⟨hpaused, htold⟩ := hwaiting.told
    rw [hstatus fun e he => (hmid e (hpast e he)).2.1, htoken, hpaused, htold]
    exact ⟨rfl, rfl⟩
  · rw [htoken] at hsome
    cases hlast : (toldTokens id pre).getLast? with
    | none =>
      rw [hlast] at hsome
      exact .inr ⟨List.getLast?_eq_none_iff.mp hlast, hsome⟩
    | some t =>
      rw [hlast] at hsome
      obtain rfl : t = some token := hsome
      exact .inl ((hlived.pauses hplan).waiting (fun _ hc => hc) hcut hlast)

/-! ## Chains -/

theorem Cleared.flatMap {ts : List Trial} (h : ∀ b ∈ ts, Cleared id b.deeds) :
    Cleared id (ts.flatMap Trial.deeds) := by
  induction ts with
  | nil => exact fun t ht => absurd ht (by simp)
  | cons b ts ih =>
    rw [List.flatMap_cons]
    exact (h b List.mem_cons_self).append (ih fun c hc => h c (.tail _ hc))

theorem Cleared.token {ds : List Deed} (h : Cleared id ds) {s : Standing} (hs : s.token = none) :
    (s.afterAll (tidingsOf id ds)).token = none := by
  have htoken : (s.afterAll (tidingsOf id ds)).token = ((toldTokens id ds).getLast?).getD s.token :=
    Standing.token_afterAll
  rw [htoken, hs]
  cases hlast : (toldTokens id ds).getLast? with
  | none => rfl
  | some t => exact h t hlast

/-- What a trial of a run finds, if nothing was known of the run. -/
theorem Attempted.found {w : World} (h : Attempted pace source id w.stores.runs trials)
    (haccept : source.accept = .ok plan) (hid : id ≠ "") (hfresh : w.recordOf id = .ok none)
    (hserved : ∀ a ∈ trials, a.Served) (htrials : trials = earlier ++ a :: later) :
    a.Recorded pace plan id ∧ a.before.backend = w.backend
      ∧ (a.before.standing id).token
        = (({} : Standing).afterAll (tidingsOf id (earlier.flatMap Trial.deeds))).token
      ∧ ((∀ b ∈ earlier, ∀ d ∈ b.deeds, d.Holdable w.backend id) →
        a.before.standing id
          = w.backend.keepsStanding (({} : Standing).afterAll (tidingsOf id (earlier.flatMap Trial.deeds)))) := by
  have hlegible : w.Legible id := fun data hdata => absurd hdata (by simp [World.checkpointOf, hfresh])
  obtain ⟨hrecorded, hbackend, htoken, hsaid⟩ :=
    h.recorded haccept hid hserved htrials rfl (RunStore.keeps_none hfresh) hlegible
  have hstanding : w.standing id = {} := World.standing_of_existing hfresh w.stamp
  rw [hstanding] at htoken hsaid
  exact ⟨hrecorded, hbackend, htoken, fun hheld =>
    hsaid hheld (congrArg (fun v => ({ result := v } : Standing)) (Backend.keeps_null _))⟩

/-- **Trials that have ended leave no token.** -/
theorem Attempted.noToken {w : World} (h : Attempted pace source id w.stores.runs trials)
    (haccept : source.accept = .ok plan) (hid : id ≠ "") (hfresh : w.recordOf id = .ok none)
    (hserved : ∀ a ∈ trials, a.Served) (htrials : trials = earlier ++ later)
    (hended : ∀ b ∈ earlier, b.result ≠ none) : Cleared id (earlier.flatMap Trial.deeds) := by
  refine .flatMap fun b hb => ?_
  obtain ⟨first, second, rfl⟩ := List.append_of_mem hb
  have hcut : trials = first ++ b :: (second ++ later) := by rw [htrials, List.append_assoc, List.cons_append]
  obtain ⟨anew, htells⟩ := (h.found haccept hid hfresh hserved hcut).1.tells
  obtain ⟨⟨o, u⟩, hres⟩ := Option.ne_none_iff_exists'.mp (hended b hb)
  rw [hres] at htells
  exact htells.cleared

/-- **Every attempt lives from its first status to its last.** Take any plan that is accepted, and a run of it
    that is attempted again and again over one store that works, by `run` or by `resume`; attempts may be stopped
    at any moment. Then each attempt that is let in and comes to its end has the statuses of a trial. -/
theorem attempts_live {w : World} (h : Attempted pace source id w.stores.runs trials)
    (haccept : source.accept = .ok plan) (hid : id ≠ "") (hfresh : w.recordOf id = .ok none)
    (hserved : ∀ a ∈ trials, a.Served) (htrials : trials = earlier ++ a :: later)
    (hletin : a.LetIn pace source plan id) (hended : a.result = some (o, u)) :
    a.Lifecycle plan id earlier o := by
  obtain ⟨ha, -, htoken, -⟩ := h.found haccept hid hfresh hserved htrials
  have haserved := hserved a (htrials ▸ List.mem_append_right _ List.mem_cons_self)
  have hlived := hletin.lived haccept hid ha hended
  obtain ⟨ds, d, hds, hd, hmid⟩ := hlived.ends
  exact
    { ends := by
        refine ⟨ds, d, hds, by rw [hd, Call.told_updateRun, toldStatus?_end]; rfl, fun e he => ?_⟩
        constructor <;> intro hsome <;> rcases (hmid e he).1 _ hsome with h | h <;> exact absurd h (by simp)
      alternates := fun hplan hrested => hlived.statuses hplan hrested
      shows := fun hplan => ha.shows haserved hlived hplan
      awaits := by
        intro hplan pre e post token seconds hcut he
        exact (hlived.pauses hplan).awaited (fun _ hc => hc) he hcut
      begins := fun hends =>
        htoken.trans ((h.noToken haccept hid hfresh hserved htrials hends).token rfl) }

end

/-! ### Instances -/

/-- Leaves carry out no steps side by side. -/
theorem Plan.sequential_of_leaves {p : Plan} (h : ∀ s ∈ p.steps, s.isLeaf = true) : p.Sequential := by
  intro q id branches hhas
  cases hhas with
  | @root s _ i rest hi hhas =>
  have hleaf := h s (List.mem_of_getElem? hi)
  cases hhas with
  | here => exact absurd hleaf (by simp [Step.isLeaf])
  | inside hi _ =>
    cases s with
    | condition | parallel | foreign => exact absurd hleaf (by simp [Step.isLeaf])
    | _ => simp [Step.listOf] at hi

/-- An agent that reports after a sign-off. -/
def signedReport : PlanSource :=
  .document (.object
    [("steps", .list
      [.object [("type", .text "hook"), ("token", .text "sign-off")],
       .object [("type", .text "agent"), ("agent", .text "report")]])])

/-- Surroundings in which every event comes, and every agent is done at once. -/
def signedOff : Environment
  | _, .awaitEvent _ _ => some (.text "yes")
  | step, c => agentsDone step c

/-- A run of it that waits for the sign-off in vain. -/
def unsignedRun : Trial := .prompt plainEngine agentsDone {} (plainEngine.run signedReport (some "run") none)

/-- The attempt to resume the run, which gets the sign-off. -/
def signedRun : Trial := .prompt plainEngine signedOff unsignedRun.after (plainEngine.resume signedReport "run")

theorem signedReport_attempted :
    Attempted (· ≤ ·) signedReport "run" ({} : World).stores.runs [unsignedRun, signedRun] :=
  .cons rfl (.anew (.given rfl) (Trial.prompt_runs ..)) (.cons rfl (.again (Trial.prompt_runs ..)) .nil)

theorem signedReport_served : ∀ a ∈ [unsignedRun, signedRun], a.Served := by
  refine List.forall_mem_cons.mpr ⟨⟨rfl, rfl, fun d _ hb => absurd rfl hb⟩, ?_⟩
  exact List.forall_mem_singleton.mpr ⟨rfl, rfl, fun d _ hb => absurd rfl hb⟩

/-- Both attempts have the statuses of trials: each waits once, and the second is completed. -/
theorem signedReport_lives : ∃ plan, signedReport.accept = .ok plan ∧ plan.Sequential
    ∧ (∃ o, unsignedRun.Lifecycle plan "run" [] o) ∧ (∃ o, signedRun.Lifecycle plan "run" [unsignedRun] o)
    ∧ toldStatuses "run" unsignedRun.deeds = [.running, .paused, .running, .failed]
    ∧ toldStatuses "run" signedRun.deeds = [.running, .paused, .running, .completed] := by
  obtain ⟨plan, haccept, hagain, hleaves⟩ : ∃ plan, signedReport.accept = .ok plan
      ∧ (PlanSource.parsed plan).accept = .ok plan ∧ plan.steps.all Step.isLeaf = true := ⟨_, rfl, rfl, rfl⟩
  obtain ⟨record, hrecord, hstatus⟩ : ∃ record, signedRun.before.recordOf "run" = .ok (some record)
      ∧ record.status ≠ .completed := ⟨_, rfl, by decide +kernel⟩
  refine ⟨plan, haccept, Plan.sequential_of_leaves (List.all_eq_true.mp hleaves), ?first, ?second,
    by decide +kernel, by decide +kernel⟩
  case first =>
    exact ⟨_, attempts_live (w := {}) signedReport_attempted haccept (by decide) rfl signedReport_served
      (show _ = [] ++ unsignedRun :: [signedRun] from rfl) (.anew (.given rfl) (Trial.prompt_runs ..)) rfl⟩
  case second =>
    exact ⟨_, attempts_live (w := {}) signedReport_attempted haccept (by decide) rfl signedReport_served
      (show _ = [unsignedRun] ++ signedRun :: [] from rfl)
      (.again (Trial.prompt_runs ..) hrecord hstatus fun _ => hagain) rfl⟩

end Runbook
