import Runbook.Proofs.Tellings

/-!
# `Proofs.Pauses` — when a run is paused

A run is paused while one of its leaves sleeps or waits for an event, and goes on afterwards; the update that
says so also clears the token of the event. So whoever has come to the end of a step waits for nothing any
more, and if no steps are carried out side by side, pauses follow one another.

## Contents
- **Pauses.** `Pauses`, pauses that follow one another; `Waiting`, the moments within a wait for an event, and
  `Free`, those outside of all waits; `Pauses.moments`, that there are no others.
- **Tokens.** `Cleared`, when no token is left over; it is not lost when deeds are interleaved.
- **Steps.** `PassedOn`, what leaves pass on to trees; `walk_passedOn`, by induction on the tree of steps.
- **The root list.** `walkRoot_passedOn`.
-/

namespace Runbook

open RunRecord Execution

/-! ## Pauses -/

/-- **Pauses that follow one another**, with other calls between them. A sleep that the host does not finish
    leaves the run paused. -/
inductive Pauses (id : String) (other : Call → Prop) : List Deed → Prop where
  | nil : Pauses id other []
  | other {d : Deed} {ds : List Deed} (hd : other d.call) (rest : Pauses id other ds) : Pauses id other (d :: ds)
  | sleep {d f : Deed} {ds : List Deed} {step : Option StepPath} {seconds : Float} {start stop : Clock}
      (hd : d.call = .updateRun id (standsUpdate .paused none))
      (hf : f.call = .updateRun id (standsUpdate .running none)) (rest : Pauses id other ds) :
      Pauses id other (d :: ⟨step, .hostSleep seconds, .ok (), start, stop⟩ :: f :: ds)
  | broken {d : Deed} {ds : List Deed} {step : Option StepPath} {seconds : Float} {failure : Fault}
      {start stop : Clock} (hd : d.call = .updateRun id (standsUpdate .paused none))
      (rest : Pauses id other ds) :
      Pauses id other (d :: ⟨step, .hostSleep seconds, .error failure, start, stop⟩ :: ds)
  | hook {d n e f : Deed} {ds : List Deed} {token : String} {seconds : Float}
      (hd : d.call = .updateRun id (standsUpdate .paused (some (some token))))
      (hn : n.call = .note (.wait token (some seconds))) (he : e.call = .awaitEvent token (some seconds))
      (hf : f.call = .updateRun id (standsUpdate .running (some none))) (rest : Pauses id other ds) :
      Pauses id other (d :: n :: e :: f :: ds)

/-- **A moment within a wait for an event**: the run has said that it waits, and not yet that it goes on. -/
inductive Waiting (id token : String) : List Deed → List Deed → Prop where
  | intro {ds es fs gs : List Deed} {d n e f : Deed} {seconds : Float}
      (hd : d.call = .updateRun id (standsUpdate .paused (some (some token))))
      (hn : n.call = .note (.wait token (some seconds))) (he : e.call = .awaitEvent token (some seconds))
      (hf : f.call = .updateRun id (standsUpdate .running (some none))) (h : es ++ fs = [n, e]) :
      Waiting id token (ds ++ d :: es) (fs ++ f :: gs)

/-- A deed of a host that finishes its sleeps. -/
def Deed.Rested (d : Deed) : Prop :=
  ∀ step seconds answer start stop, d = ⟨step, .hostSleep seconds, answer, start, stop⟩ → answer = .ok ()

/-- The statuses that deeds tell, in order. -/
def toldStatuses (id : String) (ds : List Deed) : List RunStatus := (tidingsOf id ds).filterMap toldStatus?

/-- The tokens that deeds tell, in order; none where one is cleared. -/
def toldTokens (id : String) (ds : List Deed) : List (Option String) := (tidingsOf id ds).filterMap toldToken?

/-- Calls that tell no token, and wait for no event. -/
structure Call.Tokenless (id : String) (c : Call) : Prop where
  token : toldToken? (c.told id) = none
  awaits : ∀ token seconds, c ≠ .awaitEvent token seconds

/-- **No token is left over**: whoever has told a token has cleared it. -/
def Cleared (id : String) (ds : List Deed) : Prop := ∀ t ∈ (toldTokens id ds).getLast?, t = none

/-- **A moment outside of all waits**: no token is left over, and no event is awaited next. -/
structure Free (id : String) (pre post : List Deed) : Prop where
  cleared : Cleared id pre
  awaits : ∀ e ∈ post.head?, ∀ token seconds, e.call ≠ .awaitEvent token seconds

/-- Every moment of deeds is within a wait, or outside of all waits. -/
def Moments (id : String) (ds : List Deed) : Prop :=
  ∀ pre post, ds = pre ++ post → (∃ token, Waiting id token pre post) ∨ Free id pre post

section

variable {id token : String} {other other' : Call → Prop} {d : Deed} {ds es fs : List Deed}

@[simp] theorem toldStatuses_nil : toldStatuses id [] = [] := rfl

@[simp] theorem toldTokens_nil : toldTokens id [] = [] := rfl

@[simp] theorem toldStatuses_append : toldStatuses id (ds ++ es) = toldStatuses id ds ++ toldStatuses id es := by
  simp [toldStatuses]

@[simp] theorem toldTokens_append : toldTokens id (ds ++ es) = toldTokens id ds ++ toldTokens id es := by
  simp [toldTokens]

theorem toldStatuses_cons :
    toldStatuses id (d :: ds) = (toldStatus? (d.call.told id)).toList ++ toldStatuses id ds := by
  rw [toldStatuses, tidingsOf_cons, List.filterMap_cons]
  cases toldStatus? (d.call.told id) <;> rfl

theorem toldTokens_cons :
    toldTokens id (d :: ds) = (toldToken? (d.call.told id)).toList ++ toldTokens id ds := by
  rw [toldTokens, tidingsOf_cons, List.filterMap_cons]
  cases toldToken? (d.call.told id) <;> rfl

/-- What a deed tells that says how the run stands. -/
theorem told_of_stands {s : RunStatus} {t : Option (Option String)}
    (h : d.call = .updateRun id (standsUpdate s t)) :
    toldStatus? (d.call.told id) = some s ∧ toldToken? (d.call.told id) = t := by
  rw [h, Call.told_updateRun]
  exact ⟨toldStatus?_stands, toldToken?_stands⟩

namespace Pauses

theorem of_other (h : ∀ d ∈ ds, other d.call) : Pauses id other ds := by
  induction ds with
  | nil => exact .nil
  | cons d ds ih => exact .other (h d List.mem_cons_self) (ih fun e he => h e (.tail _ he))

theorem append (h : Pauses id other ds) (h' : Pauses id other es) : Pauses id other (ds ++ es) := by
  induction h with
  | nil => exact h'
  | other hd _ ih => exact .other hd ih
  | sleep hd hf _ ih => exact .sleep hd hf ih
  | broken hd _ ih => exact .broken hd ih
  | hook hd hn he hf _ ih => exact .hook hd hn he hf ih

theorem mono (h : Pauses id other ds) (hother : ∀ c, other c → other' c) : Pauses id other' ds := by
  induction h with
  | nil => exact .nil
  | other hd _ ih => exact .other (hother _ hd) ih
  | sleep hd hf _ ih => exact .sleep hd hf ih
  | broken hd _ ih => exact .broken hd ih
  | hook hd hn he hf _ ih => exact .hook hd hn he hf ih

/-- **The statuses of pauses** that are all finished alternate. -/
theorem statuses (h : Pauses id (Call.Hushed id) ds) (hrested : ∀ d ∈ ds, d.Rested) :
    ∃ n, toldStatuses id ds = (List.replicate n [RunStatus.paused, .running]).flatten := by
  induction h with
  | nil => exact ⟨0, rfl⟩
  | @other d ds hd _ ih =>
    obtain ⟨n, hn⟩ := ih fun e he => hrested e (.tail _ he)
    refine ⟨n, ?_⟩
    rw [toldStatuses_cons, hd.told, hn]
    rfl
  | @sleep d f ds step seconds start stop hd hf _ ih =>
    obtain ⟨n, hn⟩ := ih fun e he => hrested e (.tail _ (.tail _ (.tail _ he)))
    refine ⟨n + 1, ?_⟩
    rw [toldStatuses_cons, toldStatuses_cons, toldStatuses_cons, (told_of_stands hd).1, (told_of_stands hf).1,
      hn]
    rfl
  | @broken d ds step seconds failure start stop hd _ ih =>
    have hok := hrested _ (.tail _ List.mem_cons_self) step seconds (.error failure) start stop rfl
    exact absurd hok (by simp)
  | @hook d n e f ds token seconds hd hn he hf _ ih =>
    obtain ⟨k, hk⟩ := ih fun e he => hrested e (.tail _ (.tail _ (.tail _ (.tail _ he))))
    refine ⟨k + 1, ?_⟩
    rw [toldStatuses_cons, toldStatuses_cons, toldStatuses_cons, toldStatuses_cons, (told_of_stands hd).1,
      (told_of_stands hf).1, hn, he, hk]
    rfl

end Pauses

/-- A wait that begins here. -/
theorem Waiting.here {gs : List Deed} {n e f : Deed} {seconds : Float}
    (hd : d.call = .updateRun id (standsUpdate .paused (some (some token))))
    (hn : n.call = .note (.wait token (some seconds))) (he : e.call = .awaitEvent token (some seconds))
    (hf : f.call = .updateRun id (standsUpdate .running (some none))) (es fs : List Deed) (h : es ++ fs = [n, e]) :
    Waiting id token (d :: es) (fs ++ f :: gs) := by
  rw [← List.nil_append (d :: es)]
  exact .intro hd hn he hf h

theorem Waiting.after {pre post : List Deed} (h : Waiting id token pre post) (ds : List Deed) :
    Waiting id token (ds ++ pre) post := by
  cases h with
  | intro hd hn he hf h =>
    rw [← List.append_assoc]
    exact .intro hd hn he hf h

/-- Whatever follows, a run goes on after a wait. -/
theorem Waiting.ne_nil {pre post : List Deed} (h : Waiting id token pre post) : post ≠ [] := by
  cases h
  simp

/-- **Within a wait** the run has told last that it is paused, and the token. -/
theorem Waiting.told {pre post : List Deed} (h : Waiting id token pre post) :
    (toldStatuses id pre).getLast? = some .paused ∧ (toldTokens id pre).getLast? = some (some token) := by
  cases h with
  | @intro ds es fs gs d n e f seconds hd hn he hf h =>
    have hsilent : toldStatuses id es = [] ∧ toldTokens id es = [] := by
      have hes : ∀ a ∈ es, a.call.told id = [] := by
        intro a ha
        have hmem : a ∈ [n, e] := h ▸ List.mem_append_left fs ha
        rcases List.mem_pair.mp hmem with rfl | rfl
        · rw [hn]; rfl
        · rw [he]; rfl
      have htidings : ∀ u ∈ tidingsOf id es, u = [] := by simpa [tidingsOf] using hes
      exact ⟨List.filterMap_eq_nil_iff.mpr fun u hu => by rw [htidings u hu]; rfl,
        List.filterMap_eq_nil_iff.mpr fun u hu => by rw [htidings u hu]; rfl⟩
    rw [toldStatuses_append, toldTokens_append, toldStatuses_cons, toldTokens_cons, (told_of_stands hd).1,
      (told_of_stands hd).2, hsilent.1, hsilent.2]
    simp

/-- Within a wait no other event is awaited. -/
theorem Waiting.eq_of_awaits {pre post : List Deed} {e : Deed} {token' : String} {seconds : Option Float}
    (h : Waiting id token pre (e :: post)) (he : e.call = .awaitEvent token' seconds) : token = token' := by
  generalize hpost : e :: post = rest at h
  cases h with
  | @intro _ es fs _ _ n e' f _ _ hn he' hf h =>
    cases fs with
    | nil =>
      obtain ⟨rfl, -⟩ := List.cons.inj hpost
      exact absurd (hf.symm.trans he) (by simp)
    | cons _ fs =>
      obtain ⟨rfl, -⟩ := List.cons.inj hpost
      have hmem : e ∈ [n, e'] := h ▸ List.mem_append_right es List.mem_cons_self
      rcases List.mem_pair.mp hmem with rfl | rfl
      · exact absurd (hn.symm.trans he) (by simp)
      · exact (Call.awaitEvent.inj (he'.symm.trans he)).1

theorem Call.Hushed.tokenless {c : Call} (h : c.Hushed id) : c.Tokenless id :=
  ⟨by rw [h.told]; rfl, h.awaits⟩

theorem Call.Tokenless.of_update {updates : Keyed Value} (hd : d.call = .updateRun id updates)
    (h : toldToken? updates = none) : d.call.Tokenless id := by
  rw [hd]
  exact ⟨by rw [Call.told_updateRun, h], by simp⟩

theorem Cleared.of_tokenless (h : ∀ d ∈ ds, d.call.Tokenless id) : Cleared id ds := by
  intro t ht
  have hnone : toldTokens id ds = [] := by
    simpa [toldTokens, tidingsOf, List.filterMap_eq_nil_iff] using fun d hd => (h d hd).token
  rw [hnone] at ht
  exact absurd ht (by simp)

theorem Cleared.append (h : Cleared id ds) (h' : Cleared id es) : Cleared id (ds ++ es) := by
  intro t ht
  rw [toldTokens_append, List.getLast?_append] at ht
  exact (Option.or_eq_some_iff.mp ht).elim (h' t) fun ht => h t ht.2

namespace Moments

theorem nil : Moments id [] := by
  intro pre post hcut
  obtain ⟨rfl, rfl⟩ := List.append_eq_nil_iff.mp hcut.symm
  exact .inr ⟨.of_tokenless (by simp), by simp⟩

/-- Before the first deed no wait has begun. -/
theorem start (hd : ∀ token seconds, d.call ≠ .awaitEvent token seconds) : Free id [] (d :: ds) :=
  ⟨.of_tokenless (by simp), by simpa using hd⟩

/-- What happens after deeds that leave no token over. -/
theorem after (h : Moments id ds) (hes : Cleared id es) {pre post : List Deed} (hcut : ds = pre ++ post) :
    (∃ token, Waiting id token (es ++ pre) post) ∨ Free id (es ++ pre) post := by
  rcases h pre post hcut with ⟨token, hwaiting⟩ | hfree
  · exact .inl ⟨token, hwaiting.after es⟩
  · exact .inr ⟨hes.append hfree.cleared, hfree.awaits⟩

theorem cons (hd : d.call.Tokenless id) (h : Moments id ds) : Moments id (d :: ds) := by
  intro pre post hcut
  rcases pre with - | ⟨d', pre⟩
  · rw [List.nil_append] at hcut
    exact .inr (hcut ▸ start hd.awaits)
  · obtain ⟨rfl, hrest⟩ := List.cons.inj hcut
    have hcleared : Cleared id [d] := .of_tokenless (by simpa using hd)
    exact h.after hcleared hrest

end Moments

/-- **The moments of pauses** that follow one another. -/
theorem Pauses.moments (h : Pauses id other ds) (hother : ∀ c, other c → c.Tokenless id) : Moments id ds := by
  induction h with
  | nil => exact .nil
  | other hd _ ih => exact ih.cons (hother _ hd)
  | sleep hd hf _ ih =>
    exact ((ih.cons (.of_update hf toldToken?_stands)).cons ⟨rfl, by simp⟩).cons (.of_update hd toldToken?_stands)
  | broken hd _ ih => exact (ih.cons ⟨rfl, by simp⟩).cons (.of_update hd toldToken?_stands)
  | @hook d n e f ds token seconds hd hn he hf _ ih =>
    intro pre post hcut
    rcases pre with - | ⟨d', - | ⟨n', - | ⟨e', - | ⟨f', pre⟩⟩⟩⟩ <;>
      simp only [List.nil_append, List.cons_append, List.cons.injEq] at hcut
    · exact .inr (hcut ▸ Moments.start (by simp [hd]))
    · obtain ⟨rfl, rfl⟩ := hcut
      exact .inl ⟨token, .here hd hn he hf [] [n, e] rfl⟩
    · obtain ⟨rfl, rfl, rfl⟩ := hcut
      exact .inl ⟨token, .here hd hn he hf [n] [e] rfl⟩
    · obtain ⟨rfl, rfl, rfl, rfl⟩ := hcut
      exact .inl ⟨token, .here hd hn he hf [n, e] [] rfl⟩
    · obtain ⟨rfl, rfl, rfl, rfl, hrest⟩ := hcut
      -- the wait is over, and its token was cleared
      have hcleared : Cleared id [d, n, e, f] := by
        intro t ht
        rw [toldTokens_cons, toldTokens_cons, toldTokens_cons, toldTokens_cons, (told_of_stands hd).2, hn, he,
          (told_of_stands hf).2] at ht
        exact (Option.some.inj ht).symm
      exact ih.after hcleared hrest

section

variable {pre post : List Deed}

/-- **Outside of waits no token is left**: at any moment of pauses that follow one another, a token that was
    told last is that of the event that the run waits for. -/
theorem Pauses.waiting (h : Pauses id other ds) (hother : ∀ c, other c → c.Tokenless id) (hcut : ds = pre ++ post)
    (hlast : (toldTokens id pre).getLast? = some (some token)) : Waiting id token pre post := by
  rcases h.moments hother pre post hcut with ⟨token', hwaiting⟩ | hfree
  · obtain rfl : token' = token := Option.some.inj (Option.some.inj (hwaiting.told.2.symm.trans hlast))
    exact hwaiting
  · exact absurd (hfree.cleared _ hlast) (by simp)

/-- **Every wait for an event is told**: when its answer is awaited, the run is within a wait for it. -/
theorem Pauses.awaited (h : Pauses id other ds) (hother : ∀ c, other c → c.Tokenless id) {e : Deed}
    {seconds : Option Float} (he : e.call = .awaitEvent token seconds) (hcut : ds = pre ++ e :: post) :
    Waiting id token pre (e :: post) := by
  rcases h.moments hother pre (e :: post) hcut with ⟨token', hwaiting⟩ | hfree
  · obtain rfl := hwaiting.eq_of_awaits he
    exact hwaiting
  · exact absurd he (hfree.awaits e rfl token seconds)

end

/-! ## Tokens -/

theorem Pauses.cleared (h : Pauses id other ds) (hother : ∀ c, other c → c.Tokenless id) : Cleared id ds := by
  rcases h.moments hother ds [] (List.append_nil ds).symm with ⟨token, hwaiting⟩ | hfree
  · exact absurd rfl hwaiting.ne_nil
  · exact hfree.cleared

theorem Cleared.interleaved (hfs : Interleaved ds es fs) (h : Cleared id ds) (h' : Cleared id es) :
    Cleared id fs := by
  intro t ht
  have htokens {gs : List Deed} :
      toldTokens id gs = gs.filterMap fun d => toldToken? (d.call.told id) := List.filterMap_map ..
  rw [htokens] at ht
  rcases (hfs.filterMap fun d => toldToken? (d.call.told id)).getLast? with hlast | hlast
  · exact h t (by rw [htokens, ← hlast]; exact ht)
  · exact h' t (by rw [htokens, ← hlast]; exact ht)

end

/-! ## Steps -/

/-- **What leaves pass on to trees**: it holds of pauses that follow one another, of two parts in turn if it
    holds of both, and also of what is done side by side, as far as that is needed. -/
structure PassedOn (id : String) (P : List Deed → Prop) (sideBySide : Prop) : Prop where
  pauses {ds : List Deed} (h : Pauses id (Call.Hushed id) ds) : P ds
  append {ds es : List Deed} (h : P ds) (h' : P es) : P (ds ++ es)
  interleaved {ds es fs : List Deed} (hside : sideBySide) (hfs : Interleaved ds es fs) (h : P ds) (h' : P es) :
    P fs

theorem passedOn_cleared (id : String) : PassedOn id (Cleared id) True where
  pauses h := h.cleared fun _ hc => hc.tokenless
  append := Cleared.append
  interleaved _ := Cleared.interleaved

theorem passedOn_pauses (id : String) : PassedOn id (Pauses id (Call.Hushed id)) False where
  pauses h := h
  append := Pauses.append
  interleaved := False.elim

/-- A step that carries out no steps side by side. -/
def Step.Sequential (s : Step) : Prop := ∀ inner id branches, ¬ s.Has inner (.parallel id branches)

/-- A plan that carries out no steps side by side. -/
def Plan.Sequential (p : Plan) : Prop := ∀ q id branches, ¬ p.Has q (.parallel id branches)

theorem Step.Sequential.of_mem {s s' : Step} {b : Branch} (h : s.Sequential) (hs' : s' ∈ s.listOf b) :
    s'.Sequential := by
  intro inner id branches hhas
  obtain ⟨i, hi⟩ := List.mem_iff_getElem?.mp hs'
  exact h _ id branches (.inside hi hhas)

theorem Plan.Sequential.of_mem {p : Plan} {s : Step} (h : p.Sequential) (hs : s ∈ p.steps) : s.Sequential := by
  intro inner id branches hhas
  obtain ⟨i, hi⟩ := List.mem_iff_getElem?.mp hs
  exact h _ id branches (.root hi hhas)

section

variable {pace : Clock → Clock → Prop} {x : Execution} {ds : List Deed} {t : Clock}

/-- **A hook pauses the run** from before its wait until after it. -/
theorem runHook_pauses {step : Option StepPath} {h : Hook} {c : Context} {q : Except Fault Value × Clock}
    (hcourse : Program.Course pace step t (x.runHook h c).outcome ds (some q)) :
    Pauses x.runId (Call.Hushed x.runId) ds := by
  unfold Execution.runHook at hcourse
  cases htoken : h.resolveToken x.engine.functions c with
  | error f =>
    rw [htoken, Action.outcome_error_bind] at hcourse
    obtain ⟨rfl, -⟩ := hcourse.of_done
    exact .nil
  | ok token =>
  cases hseconds : (x.hookPatience h).seconds.mapError Fault.ofDuration with
  | error f =>
    rw [htoken, hseconds, Action.outcome_ok_bind, Action.outcome_error_bind] at hcourse
    obtain ⟨rfl, -⟩ := hcourse.of_done
    exact .nil
  | ok seconds =>
    rw [htoken, hseconds, Action.outcome_ok_bind, Action.outcome_ok_bind] at hcourse
    cases hcourse with
    | ask _ _ hnote =>
    cases hnote with
    | ask _ _ hwait =>
    cases hwait with
    | @ask _ _ _ _ _ event _ _ _ _ hheard =>
    cases hheard with
    | ask _ _ hend =>
      refine .hook rfl rfl rfl rfl (.of_other fun d hd => False.elim ?_)
      -- after the wait nothing is asked any more
      cases event with
      | none => exact absurd hd (by rw [Program.Course.of_done hend |>.1]; simp)
      | some payload =>
        exact (hend.makes (P := fun _ => False)
          (Action.makes_bind (Action.makes_ofExcept _) fun _ => Action.makes_pure _) d hd).2

theorem Call.hushed_request {id : String} (r : Request) : (Call.request r).Hushed id := ⟨rfl, by simp⟩

theorem Call.hushed_hostSleep {id : String} (seconds : Float) : (Call.hostSleep seconds).Hushed id := ⟨rfl, by simp⟩

theorem saveCheckpoint_hushed : Action.Makes (Call.Hushed x.runId) x.saveCheckpoint :=
  saveCheckpoint_makes .save

theorem note_hushed {path : String} {fields : Keyed Value} :
    Action.Makes (Call.Hushed x.runId) (x.note path fields) :=
  Action.makes_bind (Action.makes_call (.of_inner ⟨rfl, rfl⟩)) fun _ =>
    Action.makes_bind (Action.makes_ofExcept _) fun _ => saveCheckpoint_hushed

theorem noted_hushed {path key : String} : Action.Makes (Call.Hushed x.runId) (Execution.noted path key) :=
  Action.makes_bind (Action.makes_call (.of_inner ⟨rfl, rfl⟩)) fun _ => Action.makes_ofExcept _

theorem start_hushed {workflow : String} {input : Value} {path : String} :
    Action.Makes (Call.Hushed x.runId) (x.start workflow input path) :=
  Dispatch.makes_startWorkflow Call.hushed_request ..

theorem runAgent_hushed (call : Capability) (agent : String) (c : Context) (path : String) :
    Action.Makes (Call.Hushed x.runId) (x.runAgent call agent c path) := by
  unfold Execution.runAgent
  refine Action.makes_bind (Action.makes_ofExcept _) fun input => ?_
  split
  · exact Dispatch.makes_callAgent Call.hushed_request ..
  · exact Action.makes_map _ start_hushed

theorem runWorker_hushed (call : Capability) (worker : String) (poll : Option PollPolicy) (c : Context)
    (path : String) : Action.Makes (Call.Hushed x.runId) (x.runWorker call worker poll c path) := by
  unfold Execution.runWorker
  refine Action.makes_bind (Action.makes_ofExcept _) fun input => ?_
  refine Action.makes_bind (Dispatch.makes_triggerWorker (fun _ => Call.hushed_request _) (x.jobId_ne_empty path)
    (.of_inner ⟨rfl, rfl⟩) (.of_inner ⟨rfl, rfl⟩) fun _ => .of_inner ⟨rfl, rfl⟩) fun triggered => ?_
  split
  · refine Action.makes_bind (makes_pollUntilDone ?_
      (fun _ => Action.makes_hostSleep (Call.hushed_hostSleep _)) (.of_inner ⟨rfl, rfl⟩) _) fun r => ?_
    · exact Dispatch.makes_lookAtJob (fun _ => Call.hushed_request _) _ _ _ fun _ => .of_inner ⟨rfl, rfl⟩
    · exact Action.makes_bind (Execution.makes_requireCompletion ..) fun _ => Action.makes_pure _
  · exact Action.makes_pure _

theorem runWorkflow_hushed (call : Capability) (workflow : String) (c : Context) (path : String) :
    Action.Makes (Call.Hushed x.runId) (x.runWorkflow call workflow c path) := by
  have hnested {input : Value} : Action.Makes (Call.Hushed x.runId) (x.nestedRun workflow input path) := by
    unfold Execution.nestedRun
    refine Action.makes_bind noted_hushed fun found => ?_
    split
    · exact Action.makes_bind start_hushed fun _ => Action.makes_bind note_hushed fun _ => Action.makes_pure _
    · exact Action.makes_pure _
  unfold Execution.runWorkflow
  refine Action.makes_bind (Action.makes_ofExcept _) fun input => ?_
  split
  · refine Action.makes_bind hnested fun runId => ?_
    refine Action.makes_bind (makes_pollUntilDone ?_
      (fun _ => Action.makes_hostSleep (Call.hushed_hostSleep _)) (.of_inner ⟨rfl, rfl⟩) _) fun r => ?_
    · exact Dispatch.makes_lookAtRun (fun _ => Call.hushed_request _) ..
    · exact Action.makes_bind (Execution.makes_requireCompletion ..) fun _ => Action.makes_pure _
  · exact Action.makes_map _ start_hushed

theorem wakeTime_hushed (d : Duration) (path : String) :
    Action.Makes (Call.Hushed x.runId) (x.wakeTime d path) := by
  unfold Execution.wakeTime
  refine Action.makes_bind noted_hushed fun found => ?_
  split
  · refine Action.makes_bind (Action.makes_call (.of_inner ⟨rfl, rfl⟩)) fun now => ?_
    refine Action.makes_bind (Action.makes_ofExcept _) fun seconds => ?_
    exact Action.makes_bind note_hushed fun _ => Action.makes_pure _
  all_goals first | exact Action.makes_pure _ | exact Action.makes_throw _

/-- **A sleep pauses the run**, for good if the host does not finish it. -/
theorem runSleep_pauses {step : Option StepPath} {d : Duration} {path : String} {q : Except Fault Value × Clock}
    (hcourse : Program.Course pace step t (x.runSleep d path).outcome ds (some q)) :
    Pauses x.runId (Call.Hushed x.runId) ds := by
  unfold Execution.runSleep at hcourse
  -- when to wake up is looked up, or noted, before the run is paused
  cases hcourse.of_bind_action with
  | @both o u ds es _ hwake hrest =>
  have hwake : Pauses x.runId (Call.Hushed x.runId) ds :=
    .of_other fun d' hd' => (hwake.makes (wakeTime_hushed d path) d' hd').2
  refine hwake.append ?_
  cases o with
  | error f =>
    obtain ⟨rfl, -⟩ := hrest
    exact .nil
  | ok wakeAt =>
  cases hrest with
  | ask _ _ hclock =>
  cases hclock with
  | ask _ _ hpaused =>
  cases hpaused with
  | @ask _ _ _ _ _ slept _ _ _ _ hslept =>
  refine .other (.of_inner ⟨rfl, rfl⟩) ?_
  cases slept with
  | error f =>
    obtain ⟨rfl, -⟩ := Program.Course.of_done hslept
    exact .broken rfl .nil
  | ok _ =>
    cases hslept with
    | ask _ _ hend =>
      obtain ⟨rfl, -⟩ := Program.Course.of_done hend
      exact .sleep rfl rfl .nil

/-- **Whatever a leaf does** to its end is made of pauses that follow one another. -/
theorem handler_pauses {s : Step} {c : Context} {body : String → Action Value} {step : Option StepPath}
    {path : String} {q : Except Fault Value × Clock} (hbody : x.handler? s c = some body)
    (h : Program.Course pace step t (body path).outcome ds (some q)) :
    Pauses x.runId (Call.Hushed x.runId) ds := by
  have hhushed (hmakes : Action.Makes (Call.Hushed x.runId) (body path)) :
      Pauses x.runId (Call.Hushed x.runId) ds := .of_other fun d hd => (h.makes hmakes d hd).2
  cases s <;> simp only [Execution.handler?, Option.some.injEq, reduceCtorEq] at hbody <;> subst hbody
  case agent => exact hhushed (runAgent_hushed ..)
  case worker => exact hhushed (runWorker_hushed ..)
  case workflow => exact hhushed (runWorkflow_hushed ..)
  case hook => exact runHook_pauses h
  case sleep => exact runSleep_pauses h

theorem leaf_pauses {s : Step} {c c' : Context} {body : String → Action Value} {q : StepPath}
    {res : Outcome × Clock} (hbody : x.handler? s c' = some body)
    (h : LeafCourse pace x q s.id? c (body q.text) ds (some res)) : Pauses x.runId (Call.Hushed x.runId) ds := by
  cases h with
  | replayed => exact .other (.of_inner ⟨rfl, rfl⟩) .nil
  | reported _ hcourse hes =>
    refine .append (.other (.of_inner ⟨rfl, rfl⟩) (handler_pauses hbody hcourse))
      (.other (.of_inner ⟨rfl, rfl⟩) (.of_other fun d hd => ?_))
    cases hes d hd with
    | journal => exact .of_inner ⟨rfl, rfl⟩
    | save => exact .save

/-! ### Trees -/

variable {P : List Deed → Prop} {sideBySide : Prop}

/-- What leaves pass on holds of what is done for a step to its end. -/
def HasPassedOn (pace : Clock → Clock → Prop) (x : Execution) (P : List Deed → Prop) (s : Step) : Prop :=
  ∀ {path : StepPath} {c : Context} {t : Clock} {ds : List Deed} {res : Outcome × Clock},
    Fiber.Course pace t (x.walk s path c) ds (some res) → P ds

theorem PassedOn.of_concluded (hP : PassedOn x.runId P sideBySide) {path : StepPath} {id : Option String}
    {o : Outcome} {res : Outcome × Clock} (h : Fiber.Course pace t (concluded path id o) ds (some res)) : P ds := by
  rcases concluded_course h with ⟨-, h⟩ | ⟨answer, start, stop, rfl, -⟩
  · exact absurd h (by simp)
  · exact hP.pauses (.other (.of_inner ⟨rfl, rfl⟩) .nil)

/-- **What leaves pass on holds of trees**, by induction on the tree of steps. -/
theorem walk_passedOn (hP : PassedOn x.runId P sideBySide) (s : Step) (hs : sideBySide ∨ s.Sequential) :
    HasPassedOn pace x P s := by
  revert hs
  refine Step.treeInduction (P := fun s => sideBySide ∨ s.Sequential → HasPassedOn pace x P s)
    (Q := fun steps => (∀ s ∈ steps, sideBySide ∨ s.Sequential) →
      (∀ {path : StepPath} {b : Branch} {i : Nat} {c : Context} {t : Clock} {ds : List Deed}
        {res : Outcome × Clock},
        Fiber.Course pace t (x.walkList steps (path, b) i c) ds (some res) → P ds) ∧
      (sideBySide → ∀ {path : StepPath} {i : Nat} {c : Context} {t : Clock} {ds : List Deed}
        {res : List Outcome × Clock},
        Fiber.Courses pace t (x.walkBranches steps path i c) ds (some res) → P ds))
    ?leaf ?condition ?parallel ?foreign ?nil ?cons s
  case leaf =>
    intro s hleaf hs path c t ds res h
    obtain ⟨body, hbody, hcourse⟩ := walk_leaf_course hleaf h
    exact hP.pauses (leaf_pauses hbody hcourse)
  case condition =>
    intro id predicate whenTrue whenFalse ih hs path c t ds res h
    rcases walk_condition_course h with ⟨f, -, hend⟩ | ⟨b, -, hturn⟩
    · exact hP.of_concluded hend
    · -- only the steps of the branch that is taken are carried out
      have hsteps : ∀ s ∈ takenSteps b whenTrue whenFalse, sideBySide ∨ s.Sequential := fun s hmem =>
        hs.imp_right fun hs => hs.of_mem (b := takenBranch b) (by cases b <;> exact hmem)
      cases hturn with
      | both hlist hend => exact hP.append ((ih b hsteps).1 hlist) (hP.of_concluded hend)
  case parallel =>
    intro id branches ih hs path c t ds res h
    -- here, and nowhere else, deeds are interleaved
    have hside : sideBySide := hs.resolve_right fun hs => hs [] id branches .here
    cases walk_parallel_course h with
    | both inner rest => exact hP.append ((ih fun _ _ => .inl hside).2 hside inner) (hP.of_concluded rest)
  case foreign =>
    intro call agent hs path c t ds res h
    rw [walk_foreign] at h
    exact hP.of_concluded h
  case nil =>
    refine fun _ => ⟨fun h => ?_, fun _ {path i c t ds res} h => ?_⟩
    · rw [walkList_nil] at h
      rw [h.of_done.1]
      exact hP.pauses .nil
    · rw [walkBranches_nil] at h
      cases h
      exact hP.pauses .nil
  case cons =>
    intro s rest hs hrest hsteps
    have hs : HasPassedOn pace x P s := hs (hsteps s List.mem_cons_self)
    have hrest := hrest fun s' hs' => hsteps s' (.tail _ hs')
    refine ⟨fun h => ?_, fun hside {path i c t ds res} h => ?_⟩
    · cases walkList_course h with
      | failed hwalk => exact hs hwalk
      | goesOn hwalk _ hnext => exact hP.append (hs hwalk) (hrest.1 hnext)
    · rw [walkBranches_cons] at h
      obtain ⟨o, os, t₁, t₂, es, fs, -, -, first, others, hfs⟩ := h.of_cons
      exact hP.interleaved hside hfs (hs first) (hrest.2 hside others)

/-! ## The root list -/

/-- The steps from a position of the root list on are steps of the plan. -/
theorem mem_steps_of_stepsFrom {p : Plan} {k i : Int} {s : Step} {steps : List (Int × Step)}
    (h : p.stepsFrom k = .ok steps) (hs : (i, s) ∈ steps) : s ∈ p.steps := by
  have hmapped {φ : Nat → Int} {ss : List Step} (h : (i, s) ∈ ss.mapIdx fun j s => (φ j, s)) : s ∈ ss := by
    obtain ⟨j, hj, heq⟩ := List.mem_mapIdx.mp h
    exact (Prod.mk.inj heq).2 ▸ List.getElem_mem hj
  unfold Plan.stepsFrom at h
  dsimp only at h
  split at h
  · obtain rfl := Except.ok.inj h
    exact hmapped (List.mem_of_mem_drop hs)
  · split at h
    · exact absurd h (by simp)
    · obtain rfl := Except.ok.inj h
      rcases List.mem_append.mp hs with hs | hs
      · exact List.mem_of_mem_drop (hmapped hs)
      · exact hmapped hs

/-- **What leaves pass on holds of the root list** to its end, by induction on what is left of it. -/
theorem walkRoot_passedOn (hP : PassedOn x.runId P sideBySide) {steps : List (Int × Step)}
    (hsteps : ∀ entry ∈ steps, sideBySide ∨ entry.2.Sequential) :
    ∀ {keepJournal : Bool} {c : Context} {t : Clock} {ds : List Deed} {res : Outcome × Clock},
      Fiber.Course pace t (x.walkRoot steps keepJournal c) ds (some res) → P ds := by
  induction steps with
  | nil =>
    intro keepJournal c t ds res h
    rw [h.of_done.1]
    exact hP.pauses .nil
  | cons entry rest ih =>
    obtain ⟨i, s⟩ := entry
    intro keepJournal c t ds res h
    have hentered {k c ds q} (h : Program.Course pace none t (x.enter k keepJournal c).outcome ds q) : P ds :=
      hP.pauses (.of_other fun d hd => (h.makes (enter_makes (.of_inner ⟨rfl, rfl⟩) .save) d hd).2)
    cases walkRoot_course h with
    | both henter hbody =>
      refine hP.append (hentered henter) ?_
      have hstep {t ds res} (hwalk : Fiber.Course pace t (x.walk s (.root i s.kind) c) ds (some res)) : P ds :=
        walk_passedOn hP s (hsteps _ List.mem_cons_self) hwalk
      cases hbody with
      | failed hwalk => exact hstep hwalk
      | goesOn hwalk _ hnext =>
        exact hP.append (hstep hwalk) (ih (fun entry hentry => hsteps entry (.tail _ hentry)) hnext)

theorem walkFrom_passedOn (hP : PassedOn x.runId P sideBySide) (hplan : sideBySide ∨ x.plan.Sequential)
    {a : Attempt} {keepJournal : Bool} {res : Outcome × Clock}
    (h : Fiber.Course pace t (x.walkFrom a keepJournal) ds (some res)) : P ds := by
  unfold Execution.walkFrom at h
  split at h
  · next steps hsteps =>
    exact walkRoot_passedOn hP (fun entry hentry => hplan.imp_right fun hplan =>
      hplan.of_mem (mem_steps_of_stepsFrom hsteps hentry)) h
  · rw [h.of_done.1]
    exact hP.pauses .nil

end

end Runbook
