import Runbook.Proofs.Entries
import Runbook.Proofs.Footprint
import Runbook.Proofs.JobRecords

/-!
# `Proofs.Triggers` — the one trigger of a job

A worker step records its job before it triggers the worker, and looks for that record first. Once a
trigger has been accepted the record carries no flag any more, and nothing that the step does later sets
it again; so the job is spent, and stays so. A step that finds its job spent posts nothing.

## Contents
- **The view.** `JobView`, what a store knows of a job; `JobView.Spent`, and `JobStep`, what a call makes
  of a job.
- **Accounts.** `Call.accepted` and `Spends`: an accepted trigger uses up a job that was not spent.
- **Capabilities.** `triggerWorker_heeds` and `lookAtJob_heeds`.
- **Leaves.** `runWorker_spends` and `carryOut_spends`.
-/

namespace Runbook

/-! ## The view -/

/-- What a store knows of a job. -/
structure JobView where
  isOpen : Bool
  backend : Backend
  held : Option (Held JobRecord)

namespace JobView

/-- The record that is read. -/
def found (v : JobView) : Except Fault (Option JobRecord) :=
  match v.held with
  | some held => some <$> held.read
  | none => .ok none

/-- **A job that is spent**: its record does not ask for another trigger, or cannot be read. -/
def Spent (v : JobView) : Prop :=
  v.found ≠ .ok none ∧ ∀ r, v.found = .ok (some r) → ¬ JobRecord.Flagged r.metadata

/-- The flag of the job can be cleared. -/
def Clearable (v : JobView) : Prop :=
  v.isOpen = true ∧ ∃ r, v.found = .ok (some r) ∧ (v.backend = .memory ∨ r.Writable)

/-- The view after a record was kept. -/
def keep (v : JobView) (held : Held JobRecord) : JobView := { v with held := some held }

variable {v : JobView} {id : String} {updates : Keyed Value} {now : Stamp} {r : JobRecord}
  {held : Held JobRecord}

theorem found_keep (v : JobView) (held : Held JobRecord) : (v.keep held).found ≠ .ok none := by
  have hfound : (v.keep held).found = some <$> held.read := rfl
  rw [hfound]
  cases held.read <;> simp [Functor.map, Except.map]

/-- What becomes of the record of the job in an update that is taken. -/
theorem revision_eq_ok {found : Except Fault (Option JobRecord)} {b : Backend}
    (h : JobStore.revision found b id updates now = .ok (r, held)) :
    ∃ existing, found = .ok existing ∧ JobRecord.update existing id updates now = .ok r
      ∧ hold b r = .ok held := by
  obtain ⟨existing, hexisting, h⟩ := Fault.bind_eq_ok.mp h
  obtain ⟨r', hr, h⟩ := Fault.bind_eq_ok.mp h
  obtain ⟨held', hheld, h⟩ := Fault.bind_eq_ok.mp h
  obtain ⟨rfl, rfl⟩ := Prod.mk.inj (Except.ok.inj h)
  exact ⟨existing, hexisting, hr, hheld⟩

/-- A job is spent once a record without the flag is kept of it. -/
theorem spent_of_hold (hheld : hold v.backend r = .ok held) (hr : ¬ JobRecord.Flagged r.metadata) :
    (v.keep held).Spent := by
  have hfound : (v.keep held).found = some <$> held.read := rfl
  refine ⟨v.found_keep held, fun r'' h => ?_⟩
  rw [hfound] at h
  cases hread : held.read with
  | error f => simp [hread, Functor.map, Except.map] at h
  | ok r' =>
    rw [hread] at h
    obtain rfl := Option.some.inj (Except.ok.inj h)
    rw [(job_of_hold hheld hread).1]
    exact fun hflag => hr (JobRecord.flagged_of_keeps hflag)

/-- Updates that do not set the flag leave a spent job spent. -/
theorem Spent.keep (hv : v.Spent) (hupdates : JobRecord.SparesFlag updates)
    (h : JobStore.revision v.found v.backend id updates now = .ok (r, held)) :
    (v.keep held).Spent := by
  obtain ⟨existing, hexisting, hr, hheld⟩ := revision_eq_ok h
  refine spent_of_hold hheld (JobRecord.not_flagged_update hupdates (fun e he => ?_) hr)
  exact hv.2 e (by rw [hexisting, Option.mem_def.mp he])

/-- After any update that was taken, the job is spent or its flag can be cleared. -/
theorem spent_or_clearable (hopen : v.isOpen = true) (hheld : hold v.backend r = .ok held) :
    (v.keep held).Spent ∨ (v.keep held).Clearable := by
  have hfound : (v.keep held).found = some <$> held.read := rfl
  cases hread : held.read with
  | error f =>
    refine .inl ⟨v.found_keep held, fun r' h => ?_⟩
    simp [hfound, hread, Functor.map, Except.map] at h
  | ok r' =>
    refine .inr ⟨hopen, r', by rw [hfound, hread]; rfl, ?_⟩
    by_cases hb : v.backend = .memory
    · exact .inl hb
    · exact .inr ((job_of_hold hheld hread).2 hb)

end JobView

/-- The update with which the flag is cleared. -/
def clearedFlag : Keyed Value := [("metadata", .object [(JobRecord.flagKey, .bool false)])]

/-- Calls that operate on the stores. -/
def Call.usesStore : Call → Bool
  | .store _ => true
  | _ => false

theorem Call.usesStore_of_isOutside {c : Call} (h : c.isOutside = true) : c.usesStore = false := by
  cases c <;> simp only [Call.isOutside, Bool.false_eq_true] at h <;> rfl

/-- Apart from operations on the stores, only run records are written. -/
theorem Call.Performs.writes?_ne_jobs {c : Call} {op : StoreOp} (h : c.Performs op)
    (hc : c.usesStore = false ∨ ∃ runId, c = .store (.getRun runId)) : op.writes? ≠ some .jobs := by
  cases h with
  | store op =>
    obtain hc | ⟨runId, hc⟩ := hc
    · exact absurd hc (by simp [Call.usesStore])
    · cases hc
      exact nofun
  | update | save => exact nofun

/-- **What a call makes of a job**, and what it is answered. -/
inductive JobStep (id : String) (v : JobView) : (c : Call) → c.Answer → JobView → Prop where
  | looked {found : Option JobRecord} (hopen : v.isOpen = true) (h : v.found = .ok found) :
      JobStep id v (.store (.getJob id)) (.ok (.job found)) v
  | unseen {f : Fault} : JobStep id v (.store (.getJob id)) (.error f) v
  | kept {updates : Keyed Value} {now : Stamp} {r : JobRecord} {held : Held JobRecord}
      (hopen : v.isOpen = true)
      (h : JobStore.revision v.found v.backend id updates now = .ok (r, held)) :
      JobStep id v (.store (.setJob id updates)) (.ok (.job (some r))) (v.keep held)
  | refused {updates : Keyed Value} {f : Fault}
      (h : v.isOpen = true →
        ∃ now, JobStore.revision v.found v.backend id updates now = .error f) :
      JobStep id v (.store (.setJob id updates)) (.error f) v
  | other {c : Call} {answer : c.Answer} (h : c.usesStore = false) : JobStep id v c answer v

/-- Only operations on the stores change a job. -/
theorem JobStep.eq_of_not_usesStore {id : String} {v v' : JobView} {c : Call} {answer : c.Answer}
    (h : JobStep id v c answer v') (hc : c.usesStore = false) : v' = v := by
  cases h with
  | other => rfl
  | _ => exact absurd hc (by simp [Call.usesStore])

/-- **The flag is cleared** wherever it can be. -/
theorem JobStep.spent_of_cleared {id : String} {v v' : JobView} {answer : Except Fault StoreAnswer}
    (hv : v.Spent ∨ v.Clearable) (h : JobStep id v (.store (.setJob id clearedFlag)) answer v') :
    v'.Spent := by
  have hspares : JobRecord.SparesFlag clearedFlag := by
    intro fields hmem
    obtain rfl : fields = [(JobRecord.flagKey, .bool false)] := by simpa [clearedFlag] using hmem
    simp [JobRecord.LeavesFlag, Value.truthy]
  cases h with
  | other h => exact absurd h (by simp [Call.usesStore])
  | kept hopen hrevision =>
    rcases hv with hspent | ⟨-, e, he, -⟩
    · exact hspent.keep hspares hrevision
    · obtain ⟨existing, hexisting, hr, hheld⟩ := JobView.revision_eq_ok hrevision
      obtain rfl := Except.ok.inj (hexisting.symm.trans he)
      obtain ⟨r', hr', -, -, hmetadata⟩ := JobRecord.update_metadata e id
        [(JobRecord.flagKey, .bool false)] (by simp) _
      obtain rfl := Except.ok.inj (hr.symm.trans hr')
      refine JobView.spent_of_hold hheld ?_
      rw [hmetadata, JobRecord.Flagged, Keyed.putAll, List.foldl_cons, List.foldl_nil,
        Keyed.get?_put_self]
      simp [Value.truthy]
  | refused hwhy =>
    rcases hv with hspent | ⟨hopen, e, he, hwritable⟩
    · exact hspent
    · -- nothing can refuse to clear the flag of a record that can be written down
      obtain ⟨now, hrevision⟩ := hwhy hopen
      obtain ⟨r, hr, hinput, houtput, hmetadata⟩ := JobRecord.update_metadata e id
        [(JobRecord.flagKey, .bool false)] (by simp) now
      have hheld : ∃ held, hold v.backend r = .ok held := by
        rcases hwritable with hmemory | hwritable
        · rw [hmemory]
          exact ⟨_, rfl⟩
        · refine World.hold_eq_ok (JobRecord.writable_iff.mpr ⟨?_, ?_, ?_⟩)
          · rw [hinput]; exact hwritable.input
          · rw [houtput]; exact hwritable.output
          · rw [hmetadata]
            exact Value.unwritableField?_put hwritable.metadata rfl
      obtain ⟨held, hheld⟩ := hheld
      have hok : JobStore.revision v.found v.backend id clearedFlag now = .ok (r, held) := by
        unfold JobStore.revision
        rw [he]
        have hr' : JobRecord.update (some e) id clearedFlag now = .ok r := hr
        simp [bind, Except.bind, hr', hheld, pure, Except.pure]
      exact absurd (hok.symm.trans hrevision) (by simp)

/-! ## Accounts -/

/-- **A request that posts something** and is answered with success. -/
def Call.accepted : (c : Call) → c.Answer → Bool
  | .request r, reply => r.method == "POST" && reply.response.toOption.any Response.isSuccess
  | _, _ => false

/-- **Status replies that leave the flag alone**: their metadata do not name it. -/
def Call.leavesFlag : (c : Call) → c.Answer → Bool
  | .request r, reply =>
    r.method != "GET" || !reply.response.toOption.any fun response =>
      match response.json.getD "metadata" with
      | .object fields => Keyed.has fields JobRecord.flagKey
      | _ => false
  | _, _ => true

theorem Call.get?_of_leavesFlag {url : String} {reply : Reply} {response : Response}
    {fields : Keyed Value} (h : Call.leavesFlag (.request ⟨"GET", url, none, []⟩) reply = true)
    (hresponse : reply.response = .ok response) (hfields : response.json.getD "metadata" = .object fields) :
    Keyed.get? fields JobRecord.flagKey = none := by
  simp only [leavesFlag, bne_self_eq_false, Bool.false_or, hresponse, Except.toOption,
    Option.any_some, hfields, Bool.not_eq_eq_eq_not, Bool.not_true] at h
  simpa [Keyed.has] using h

/-- What deeds for a worker step do to its job, together with the number of accepted triggers. -/
abbrev TriggerStep (id : String) : JobView × Nat → (c : Call) → c.Answer → JobView × Nat → Prop :=
  Counting (JobStep id) (fun c answer => c.leavesFlag answer = true) Call.accepted

/-- **An account of a job**: no trigger was accepted and a spent job stayed spent; or one was, the job was
    not spent before, and is spent now. -/
def Spends (s s' : JobView × Nat) : Prop :=
  (s'.2 = s.2 ∧ (s.1.Spent → s'.1.Spent)) ∨ (s'.2 = s.2 + 1 ∧ ¬ s.1.Spent ∧ s'.1.Spent)

namespace Spends

variable {s s₁ s' : JobView × Nat}

theorem refl (s : JobView × Nat) : Spends s s := .inl ⟨rfl, fun h => h⟩

/-- Nothing was accepted, and the job had not been spent. -/
theorem idle (hcount : s'.2 = s.2) (hs : ¬ s.1.Spent) : Spends s s' := .inl ⟨hcount, fun h => absurd h hs⟩

/-- Accounts in turn. -/
theorem trans (h₁ : Spends s s₁) (h₂ : Spends s₁ s') : Spends s s' := by
  rcases h₁ with ⟨hcount₁, hspent₁⟩ | ⟨hcount₁, hs, hspent₁⟩
  · rcases h₂ with ⟨hcount₂, hspent₂⟩ | ⟨hcount₂, hs₁, hspent₂⟩
    · exact .inl ⟨hcount₂.trans hcount₁, hspent₂ ∘ hspent₁⟩
    · exact .inr ⟨by rw [hcount₂, hcount₁], fun hs => hs₁ (hspent₁ hs), hspent₂⟩
  · rcases h₂ with ⟨hcount₂, hspent₂⟩ | ⟨-, hs₁, -⟩
    · exact .inr ⟨by rw [hcount₂, hcount₁], hs, hspent₂ hspent₁⟩
    · exact absurd hspent₁ hs₁

end Spends

/-! ## Capabilities -/

section

variable {α : Type} {id : String} {s s' : JobView × Nat}

/-- Calls that neither touch a job nor post anything. -/
def Call.Idle (c : Call) : Prop := c.usesStore = false ∧ ∀ r, c = .request r → r.method ≠ "POST"

theorem Call.Idle.keeps {c : Call} {answer : c.Answer} (hc : c.Idle)
    (h : TriggerStep id s c answer s') : s' = s := by
  have hview : s'.1 = s.1 := h.view.eq_of_not_usesStore hc.1
  have hcount : Call.accepted c answer = false := by
    cases c with
    | request r => simp [Call.accepted, hc.2 r rfl]
    | _ => rfl
  refine Prod.ext hview ?_
  rw [h.count, hcount]
  rfl

theorem idle_of_get (url : String) : Call.Idle (.request ⟨"GET", url, none, []⟩) :=
  ⟨rfl, fun r h => by cases h; simp⟩

open Runbook.Action

/-- What does nothing to the job. -/
theorem heeds_idle {a : Action α} (h : Makes Call.Idle a) :
    a.Heeds (TriggerStep id) (fun _ _ => True) (fun _ s' => s' = s) s := by
  refine Action.heeds_of_makes (I := fun s' => s' = s) h (fun _ _ _ _ => trivial) ?_ rfl
  rintro s₁ c answer s₂ hc rfl hstep
  exact hc.keeps hstep

/-- A look at the job. -/
theorem getJob_heeds {P : JobView × Nat → Call → Prop}
    {Q : Except Fault (Option JobRecord) → JobView × Nat → Prop} (hcall : P s (.store (.getJob id)))
    (hseen : ∀ found, s.1.isOpen = true → s.1.found = .ok found → Q (.ok found) s)
    (hunseen : ∀ f, Q (.error f) s) : (Action.getJob id).Heeds (TriggerStep id) P Q s := by
  unfold Action.getJob Action.store
  refine ⟨hcall, fun answer s' hstep => ?_⟩
  have hcount : s'.2 = s.2 := hstep.count
  obtain ⟨v, n⟩ := s
  obtain ⟨v', n'⟩ := s'
  obtain rfl : n' = n := hcount
  have hview := hstep.view
  dsimp only at hview
  cases hview with
  | looked hopen hfound => exact hseen _ hopen hfound
  | unseen => exact hunseen _
  | other h => exact absurd h (by simp [Call.usesStore])

/-- An update of the job. -/
theorem setJob_heeds {P : JobView × Nat → Call → Prop} {updates : Keyed Value}
    {Q : Except Fault Unit → JobView × Nat → Prop} (hcall : P s (.store (.setJob id updates)))
    (hset : ∀ (answer : Except Fault StoreAnswer) v',
      JobStep id s.1 (.store (.setJob id updates)) answer v' → Q (answer.map fun _ => ()) (v', s.2)) :
    (Action.setJob id updates).Heeds (TriggerStep id) P Q s := by
  refine Action.heeds_map ⟨hcall, fun answer s' hstep => ?_⟩
  have hcount : s'.2 = s.2 := hstep.count
  obtain ⟨v', n'⟩ := s'
  obtain rfl : n' = s.2 := hcount
  exact hset answer v' hstep.view

/-- **A request that must succeed**: it is counted if the reply says success, and fails otherwise. -/
theorem post_heeds {P : JobView × Nat → Call → Prop} {url what : String} {body : Option Value}
    {headers : List (String × String)}
    (hpost : ∀ url body headers, P s (.request ⟨"POST", url, body, headers⟩)) :
    (do
        let response ← Dispatch.exchange "POST" url body headers
        Dispatch.requireSuccess response url what
        return response : Action Response).Heeds (TriggerStep id) P
      (fun o s' => (∀ response, o = .ok response → s' = (s.1, s.2 + 1))
        ∧ ∀ f, o = .error f → s'.2 = s.2) s := by
  refine Action.heeds_bind (Q := fun o s' => s'.1 = s.1 ∧ (∀ response, o = .ok response →
    s'.2 = s.2 + response.isSuccess.toNat) ∧ ∀ f, o = .error f → s'.2 = s.2) ?_ ?_ ?_
  · refine Dispatch.exchange_heeds (fun name => ⟨rfl, by simp, fun _ _ => rfl⟩) (hpost ..)
      fun reply s' hstep => ?_
    have hview : s'.1 = s.1 := hstep.view.eq_of_not_usesStore rfl
    have hcount : s'.2 = s.2 + (reply.response.toOption.any Response.isSuccess).toNat := by
      rw [hstep.count]
      simp [Call.accepted]
    refine ⟨fun response hresponse => ⟨hview, ?_, by simp⟩,
      fun reason hreason => ⟨hview, by simp, fun _ _ => ?_⟩⟩
    · rintro _ hok
      obtain rfl := Except.ok.inj hok
      rw [hcount, hresponse]
      rfl
    · rw [hcount, hreason]
      rfl
  · rintro response s' ⟨hview, hcount, -⟩
    have hcount := hcount response rfl
    unfold Dispatch.requireSuccess
    by_cases hsuccess : response.isSuccess = true
    · rw [if_pos hsuccess]
      rw [hsuccess] at hcount
      exact ⟨fun _ _ => Prod.ext hview hcount, by simp⟩
    · rw [if_neg hsuccess]
      rw [Bool.not_eq_true _ |>.mp hsuccess] at hcount
      exact ⟨by simp, fun _ _ => hcount⟩
  · rintro e s' ⟨hview, -, hcount⟩
    exact ⟨by simp, fun _ _ => hcount e rfl⟩

/-- **A trigger that is sent**: it is accepted, or it fails and nothing was accepted. -/
theorem sendTrigger_heeds {P : JobView × Nat → Call → Prop} {settings : DispatchSettings}
    {worker : String} {message : Value}
    (hpost : ∀ url body headers, P s (.request ⟨"POST", url, body, headers⟩))
    (hset : ∀ s updates, P s (.store (.setJob id updates))) :
    (Dispatch.sendTrigger settings worker id message).Heeds (TriggerStep id) P
      (fun o s' => (∀ response, o = .ok response → s' = (s.1, s.2 + 1))
        ∧ ∀ f, o = .error f → s'.2 = s.2) s := by
  unfold Dispatch.sendTrigger
  refine Action.heeds_bind (Q := fun found s' => ∃ o : Except Fault Response, found = .ok o
      ∧ (∀ response, o = .ok response → s' = (s.1, s.2 + 1)) ∧ ∀ f, o = .error f → s'.2 = s.2)
    (Action.heeds_lift ?_) ?_ fun e s' ⟨o, h, _⟩ => absurd h (by simp)
  · exact Program.heeds_weaken (post_heeds hpost) fun o _ ho => ⟨o, rfl, ho⟩
  · rintro found s' ⟨o, hfound, hok, hfail⟩
    obtain rfl := Except.ok.inj hfound
    split
    · next response => exact ⟨fun _ _ => hok response rfl, by simp⟩
    · next p =>
      -- the failure is noted with the job, which no request counts
      have hcount := hfail _ rfl
      refine Action.heeds_bind (Q := fun _ s'' => s''.2 = s.2)
        (setJob_heeds (hset ..) fun answer v' _ => hcount) ?_ fun _ _ h => ⟨by simp, fun _ _ => h⟩
      exact fun _ _ h => ⟨by simp, fun _ _ => h⟩
    · next f => exact ⟨by simp, fun _ _ => hfail _ rfl⟩

theorem sparesFlag_origin {worker : String} {input : Value} :
    JobRecord.SparesFlag [("worker_id", .text worker), ("status", .text "queued"), ("input", input),
      ("metadata", Dispatch.origin)] := by
  intro fields hmem
  obtain rfl : fields = [("source", .text "workflow-orchestration")] := by
    simpa [Dispatch.origin] using hmem
  simp [JobRecord.LeavesFlag, JobRecord.flagKey]

/-- A job that was looked at is spent if there is a record that does not ask for another trigger. -/
theorem JobView.spent_iff {v : JobView} {existing : Option JobRecord} (h : v.found = .ok existing) :
    v.Spent ↔ ∃ r, (existing.filter fun r => !Dispatch.isUntriggered r) = some r := by
  constructor
  · rintro ⟨hne, hflags⟩
    cases existing with
    | none => exact absurd h hne
    | some r =>
      have hflag := hflags r h
      rw [← JobRecord.isUntriggered_iff] at hflag
      exact ⟨r, Option.filter_eq_some_iff.mpr ⟨rfl, by simpa using hflag⟩⟩
  · rintro ⟨r, hr⟩
    obtain ⟨rfl, hflag⟩ := Option.filter_eq_some_iff.mp hr
    refine ⟨by rw [h]; simp, fun r' hr' => ?_⟩
    obtain rfl := Option.some.inj (Except.ok.inj (h.symm.trans hr'))
    simpa [← JobRecord.isUntriggered_iff] using hflag

/-- **A job that is written down** without the flag: it is spent if there was no record of it before, and in any
    case it is spent or its flag can be cleared. -/
theorem JobStep.recorded {v v' : JobView} {existing : Option JobRecord} {updates : Keyed Value}
    {answer : StoreAnswer} (hfound : v.found = .ok existing) (hspares : JobRecord.SparesFlag updates)
    (h : JobStep id v (.store (.setJob id updates)) (.ok answer) v') :
    (existing = none → v'.Spent) ∧ (v'.Spent ∨ v'.Clearable) ∧ v'.found ≠ .ok none := by
  cases h with
  | other h => exact absurd h (by simp [Call.usesStore])
  | @kept _ _ _ held hopen hrevision =>
    obtain ⟨existing', hexisting', hr, hheld⟩ := JobView.revision_eq_ok hrevision
    obtain rfl := Except.ok.inj (hexisting'.symm.trans hfound)
    refine ⟨?_, JobView.spent_or_clearable hopen hheld, v.found_keep held⟩
    rintro rfl
    exact JobView.spent_of_hold hheld (JobRecord.not_flagged_update hspares (by simp) hr)

/-- **What is so when a job is triggered**: a request posts something; the job was not spent before, is
    recorded by now, and no trigger was accepted meanwhile. -/
def Posts (s s' : JobView × Nat) (c : Call) : Prop :=
  ∀ r, c = .request r → r.method = "POST" ∧ ¬ s.1.Spent ∧ s'.1.found ≠ .ok none ∧ s'.2 = s.2

/-- **A worker is triggered at most once**, and when it has been, its job is spent. A spent job is left
    alone. -/
theorem triggerWorker_heeds {settings : DispatchSettings} {worker : String} {input context : Value}
    {awaits : Bool} (hid : id ≠ "") :
    (Dispatch.triggerWorker settings worker input (some id) awaits context).Heeds (TriggerStep id)
      (Posts s) (fun o s' => Spends s s' ∧ (s.1.Spent → s' = s) ∧ ∀ r, o = .ok r → s'.1.Spent) s := by
  unfold Dispatch.triggerWorker
  rw [nonEmpty?_of_ne hid]
  have hposts {s' : JobView × Nat} {c : Call} (hc : ∀ r, c ≠ .request r) : Posts s s' c :=
    fun r h => absurd h (hc r)
  refine Action.heeds_bind (Q := fun o s' => o = .ok id ∧ s' = s) ⟨rfl, rfl⟩ ?_
    fun e s' h => absurd h.1 (by simp)
  rintro jobId s ⟨hok, rfl⟩
  obtain rfl := Except.ok.inj hok
  refine Action.heeds_bind (Q := fun o s' => s' = s ∧ ∀ existing, o = .ok existing →
      s.1.isOpen = true ∧ s.1.found = .ok existing)
    (getJob_heeds (hposts (by simp)) (fun found hopen hfound => ⟨rfl, fun existing h => ?_⟩)
      fun f => ⟨rfl, fun existing h => absurd h (by simp)⟩) ?_ ?_
  · obtain rfl := Except.ok.inj h
    exact ⟨hopen, hfound⟩
  · rintro existing s ⟨rfl, hexisting⟩
    obtain ⟨hopen, hfound⟩ := hexisting existing rfl
    split
    · next r hr =>
      -- a record without the flag: nothing is posted
      exact ⟨.refl s, fun _ => rfl, fun _ _ => (JobView.spent_iff hfound).mpr ⟨r, hr⟩⟩
    · next hnone =>
      have hunspent : ¬ s.1.Spent := fun hspent => by
        obtain ⟨r, hr⟩ := (JobView.spent_iff hfound).mp hspent
        exact absurd (hnone.symm.trans hr) (by simp)
      have hfails {s' : JobView × Nat} {e : Fault} (hcount : s'.2 = s.2) :
          Spends s s' ∧ (s.1.Spent → s' = s)
            ∧ ∀ r : DispatchResult, Except.error e = .ok r → s'.1.Spent :=
        ⟨.idle hcount hunspent, fun h => absurd h hunspent, by simp⟩
      refine Action.heeds_bind (Q := fun o s' => s'.2 = s.2 ∧ ∀ u, o = .ok u →
          (existing = none → s'.1.Spent) ∧ (s'.1.Spent ∨ s'.1.Clearable) ∧ s'.1.found ≠ .ok none)
        (setJob_heeds (hposts (by simp)) fun answer v' hstep => ⟨rfl, fun u hu => ?_⟩) ?_
        fun e s' h => hfails h.1
      · cases answer with
        | error f => exact absurd hu (by simp [Except.map])
        | ok answer => exact hstep.recorded hfound sparesFlag_origin
      · rintro u s₁ ⟨hcount₁, hrecorded⟩
        obtain ⟨hnew, hclearable, hfound₁⟩ := hrecorded u rfl
        refine Action.heeds_bind (Q := fun _ s' => s' = s₁)
          (Action.heeds_map (Action.heeds_call (hposts (by simp)) fun time s' hstep => ?_)) ?_
          fun e s' h => hfails (by rw [h, hcount₁])
        · exact Call.Idle.keeps ⟨rfl, by simp⟩ hstep
        rintro time s₁ rfl
        have hpost (url : String) (body : Option Value) (headers : Keyed String) :
            Posts s s₁ (.request ⟨"POST", url, body, headers⟩) := by
          rintro r hr
          cases hr
          exact ⟨rfl, hunspent, hfound₁, hcount₁⟩
        refine Action.heeds_bind (sendTrigger_heeds hpost fun _ _ => hposts (by simp)) ?_
          fun e s' h => hfails ((h.2 e rfl).trans hcount₁)
        rintro response s₂ ⟨hsent, -⟩
        obtain rfl := hsent response rfl
        have hspends {v' : JobView} {o : Except Fault DispatchResult} (hv' : v'.Spent) :
            Spends s (v', s₁.2 + 1) ∧ (s.1.Spent → (v', s₁.2 + 1) = s) ∧ ∀ r, o = .ok r → v'.Spent :=
          ⟨.inr ⟨by rw [hcount₁], hunspent, hv'⟩, fun h => absurd h hunspent, fun _ _ => hv'⟩
        split
        · refine Action.heeds_bind (Q := fun _ s' => s'.1.Spent ∧ s'.2 = s₁.2 + 1)
            (setJob_heeds (hposts (by simp)) fun answer v' hstep =>
              ⟨JobStep.spent_of_cleared hclearable hstep, rfl⟩) ?_ ?_
          · rintro - ⟨v', n'⟩ ⟨hspent, rfl⟩
            exact hspends hspent
          · rintro e ⟨v', n'⟩ ⟨hspent, rfl⟩
            exact hspends hspent
        · next hsome => exact hspends (hnew (by simpa using hsome))
  · rintro e s ⟨rfl, -⟩
    exact ⟨.refl s, fun _ => rfl, by simp⟩

/-- What a status reply shows, its metadata do not name the flag. -/
theorem statusReply_heeds {url what : String} :
    (Dispatch.statusReply url what).Heeds (TriggerStep id) (fun _ _ => True)
      (fun o s' => s' = s ∧ ∀ data, o = .ok (some data) →
        ∀ fields, data.getD "metadata" = .object fields →
          Keyed.get? fields JobRecord.flagKey = none) s := by
  refine Action.heeds_weaken (Dispatch.statusReply_heeds (J := fun s' => s' = s)
    (G := fun data _ => ∀ fields, data.getD "metadata" = .object fields →
      Keyed.get? fields JobRecord.flagKey = none) rfl trivial fun reply s' hstep => ?_) fun _ _ h => h
  refine ⟨(idle_of_get url).keeps hstep, fun response hresponse _ fields => ?_⟩
  exact Call.get?_of_leavesFlag hstep.allowed hresponse

/-- What is observed of metadata that do not name the flag does not set it. -/
theorem leavesFlag_of_observe {status output error metadata : Value} {o : Observation}
    (hmetadata : ∀ fields, metadata = .object fields → Keyed.get? fields JobRecord.flagKey = none)
    (h : Fault.ofChecked Observation.structureName
      (Observation.ofFields
        [("status", status), ("output", output), ("error", error),
         ("metadata", if metadata.truthy then metadata else .object [])]) = .ok o) :
    JobRecord.LeavesFlag o.metadata := by
  obtain ⟨-, -, -, hread⟩ := Observation.ofFields_eq_ok (Fault.ofChecked_eq_ok.mp h)
  simp only [Decode.optional, Decode.FieldName.find?, Decode.FieldName.plain, Keyed.get?] at hread
  simp only [String.reduceEq, ↓reduceIte, Checked.under_eq_ok] at hread
  split at hread
  · cases metadata <;> simp only [Decode.dictionary, Checked.complain, Checked.ok.injEq,
      reduceCtorEq] at hread
    subst hread
    intro entry hentry hkey
    have hhas := (Keyed.mem_keys_iff o.metadata entry.1).mp (List.mem_map_of_mem hentry)
    rw [hkey, Keyed.has, hmetadata _ rfl] at hhas
    exact absurd hhas (by simp)
  · rw [← Checked.ok.inj hread]
    exact fun entry hentry => absurd hentry List.not_mem_nil

/-- **A look at a job** leaves a spent job spent. -/
theorem lookAtJob_heeds {settings : DispatchSettings} {worker : String} {n : Nat}
    (hs : s.1.Spent ∧ s.2 = n) :
    (Dispatch.lookAtJob settings worker id).Heeds (TriggerStep id) (fun _ _ => True)
      (fun _ s' => s'.1.Spent ∧ s'.2 = n) s := by
  unfold Dispatch.lookAtJob
  refine Action.heeds_bind statusReply_heeds ?_ fun e s' h => h.1 ▸ hs
  rintro reply s ⟨rfl, hreply⟩
  split
  · exact hs
  · next data =>
    have hnone := hreply data rfl
    refine Action.heeds_bind (Q := fun o s' => s' = s ∧ ∀ v, o = .ok v → JobRecord.LeavesFlag v.metadata)
      ⟨rfl, fun v hv => leavesFlag_of_observe hnone hv⟩ ?_ fun e s' h => h.1 ▸ hs
    rintro o s ⟨rfl, ho⟩
    have hleaves := ho o rfl
    have hspares : JobRecord.SparesFlag
        [("worker_id", .text worker), ("status", .ofText? o.status), ("output", o.output),
         ("error", o.error), ("metadata", .object o.metadata)] := by
      intro fields hmem
      obtain rfl : fields = o.metadata := by simpa using hmem
      exact hleaves
    refine Action.heeds_bind (Q := fun _ s' => s'.1.Spent ∧ s'.2 = n) (Action.heeds_map
      (Action.heeds_lift (setJob_heeds trivial fun answer v' hstep => ⟨?_, hs.2⟩))) ?_ fun _ _ h => h
    · cases hstep with
      | other h => exact absurd h (by simp [Call.usesStore])
      | refused => exact hs.1
      | kept hopen hrevision => exact hs.1.keep hspares hrevision
    · exact fun _ _ h => h

/-! ## Leaves -/

/-- **A worker step** triggers its worker at most once, and only while its job is not spent. -/
theorem runWorker_spends {x : Execution} {call : Capability} {worker path : String}
    {poll : Option PollPolicy} {c : Context} :
    (x.runWorker call worker poll c path).Heeds (TriggerStep (x.jobId path)) (fun _ _ => True)
      (fun _ s' => Spends s s') s := by
  unfold Execution.runWorker
  refine Action.heeds_bind (heeds_idle (makes_ofExcept _)) ?_ fun e s' h => h ▸ .refl s
  rintro input s rfl
  refine Action.heeds_bind (Action.heeds_forget (triggerWorker_heeds (x.jobId_ne_empty path))) ?_
    fun e s' h => h.1
  rintro triggered s₁ ⟨hspends, -, hspent⟩
  have hspent₁ := hspent triggered rfl
  split
  · -- the job is spent before it is looked at, and no look changes that
    have hclock : Call.Idle .clock := ⟨rfl, by simp⟩
    have hsleep (seconds : Float) : Call.Idle (.hostSleep seconds) := ⟨rfl, by simp⟩
    have hlater {s' : JobView × Nat} (h : s'.1.Spent ∧ s'.2 = s₁.2) : Spends s s' :=
      hspends.trans (.inl ⟨h.2, fun _ => h.1⟩)
    refine Action.heeds_bind (pollUntilDone_heeds (I := fun s' => s'.1.Spent ∧ s'.2 = s₁.2)
      (E := fun _ _ => True) (F := fun _ => True) (fun _ _ _ _ _ _ _ => trivial) (fun _ _ => trivial)
      ?_ ?_ (fun _ _ _ => trivial) ?_ ⟨hspent₁, rfl⟩) ?_ fun e s' h => hlater h.1
    · exact fun s now s' hs hstep => hclock.keeps hstep ▸ hs
    · exact fun s hs => Action.heeds_weaken (lookAtJob_heeds hs) fun o s' h => ⟨h, fun _ _ => trivial⟩
    · exact fun seconds s hs => Action.heeds_weaken
        (heeds_idle (makes_hostSleep (hsleep seconds))) fun _ _ h => ⟨h ▸ hs, fun _ _ => trivial⟩
    · rintro r s₂ ⟨hs₂, -⟩
      refine Action.heeds_weaken (heeds_idle (makes_bind (Execution.makes_requireCompletion ..)
        fun _ => makes_pure _)) fun o s' h => h ▸ hlater hs₂
  · exact hspends

/-- **A worker step that is carried out**, whatever its journal entry says. -/
theorem carryOut_spends {x : Execution} {call : Capability} {worker : String}
    {poll : Option PollPolicy} {c : Context} {q : StepPath} {stepId : Option String} :
    (x.carryOut q stepId c (x.runWorker call worker poll c q.text)).outcome.Heeds
      (TriggerStep (x.jobId q.text)) (fun _ _ => True) (fun _ s' => Spends s s') s := by
  have hidle {α : Type} {p : Program α} (h : p.Makes Call.Idle) {s₁ : JobView × Nat} (hs₁ : Spends s s₁) :
      p.Heeds (TriggerStep (x.jobId q.text)) (fun _ _ => True) (fun _ s' => Spends s s') s₁ := by
    refine Program.heeds_weaken (Program.heeds_of_makes (I := fun s' => s' = s₁) h
      (Program.ends_true p) (fun _ _ _ _ => trivial) ?_ rfl) fun _ s' h => h.2 ▸ hs₁
    rintro s₂ c answer s₃ hc rfl hstep
    exact hc.keeps hstep
  have hother {c : Call} (h : c.usesStore = false) (hr : ∀ r, c ≠ .request r) : c.Idle :=
    ⟨h, fun r hc => absurd hc (hr r)⟩
  rw [Execution.carryOut_eq]
  refine ⟨trivial, fun found s₁ hstep => ?_⟩
  obtain rfl : s₁ = s := Call.Idle.keeps (hother rfl (by simp)) hstep
  dsimp only
  cases JournalEntry.replay? found with
  | some o => exact Spends.refl s₁
  | none =>
    dsimp only
    rw [Execution.carryOutNew_eq]
    refine Program.heeds_bind runWorker_spends fun o s₂ hs₂ => ?_
    refine ⟨trivial, fun _ s₃ hstep => ?_⟩
    obtain rfl : s₃ = s₂ := Call.Idle.keeps (hother rfl (by simp)) hstep
    refine Program.heeds_bind (Q := fun _ s' => Spends s₁ s') (hidle ?_ hs₂) fun _ _ h => h
    unfold Execution.close
    cases x.entry? o with
    | none => trivial
    | some fields =>
      refine ⟨hother rfl (by simp), fun _ => ?_⟩
      split
      · exact ⟨hother rfl (by simp), fun _ => trivial⟩
      · trivial

end

/-! ## Worlds -/

section

variable {w w' : World} {d : Deed} {id : String} {x : Execution} {q : StepPath}

/-- What a world knows of a job. -/
def World.jobView (w : World) (id : String) : JobView :=
  ⟨w.stores.isOpen, w.stores.jobs.backend, w.stores.jobs.records.get? id⟩

theorem World.found_jobView (w : World) (id : String) :
    (w.jobView id).found = w.stores.jobs.get id := by
  unfold JobView.found JobStore.get Keyed.readHeld World.jobView
  cases w.stores.jobs.records.get? id <;> rfl

theorem World.Agree.jobView_eq (h : World.Agree (fun p => p = .job id) w w') :
    w'.jobView id = w.jobView id := by
  rw [World.jobView, h.stores.jobs id rfl, h.stores.backend, h.stores.isOpen, World.jobView]

/-- What is done to other parts leaves a job as it is. -/
theorem World.Answers.jobView_of_local (h : w.Answers d w') (hlocal : d.call.IsLocal)
    (hother : ∀ p ∈ d.call.part?, p ≠ .job id) : w'.jobView id = w.jobView id :=
  (World.Agree.of_answers h hlocal hother).jobView_eq

/-- **What is no operation on the stores**, or looks at a run, leaves all jobs alone. -/
theorem World.Answers.jobs_eq (h : w.Answers d w')
    (hd : d.call.usesStore = false ∨ ∃ runId, d.call = .store (.getRun runId)) :
    w'.stores.jobs = w.stores.jobs ∧ w'.stores.isOpen = w.stores.isOpen := by
  refine ⟨?_, h.fixed.isOpen⟩
  rcases h.stores_cases with hsame | ⟨op, hop, hstores⟩
  · rw [hsame]
  · rw [hstores]
    exact (w.stores.perform_touches _ op).jobs_eq (hop.writes?_ne_jobs hd)

/-- Nor does it change what a world knows of a job. -/
theorem World.Answers.jobView_eq (h : w.Answers d w')
    (hd : d.call.usesStore = false ∨ ∃ runId, d.call = .store (.getRun runId)) :
    w'.jobView id = w.jobView id := by
  obtain ⟨hjobs, hopen⟩ := h.jobs_eq hd
  rw [World.jobView, hjobs, hopen, World.jobView]

theorem World.Answers.jobStep_getJob {step : Option StepPath} {answer : Except Fault StoreAnswer}
    {start stop : Clock} (h : w.Answers ⟨step, .store (.getJob id), answer, start, stop⟩ w') :
    JobStep id (w.jobView id) (.store (.getJob id)) answer (w'.jobView id) := by
  obtain ⟨-, -, hstep⟩ := h.step_eq rfl
  simp only [World.step, World.useStores, Stores.perform_getJob, Progress.now.injEq] at hstep
  obtain ⟨rfl, rfl⟩ := hstep
  have hfound : (w.jobView id).found = w.stores.jobs.get id := w.found_jobView id
  change JobStep id (w.jobView id) _ _ (w.jobView id)
  split
  · next hopen =>
    cases hget : w.stores.jobs.get id with
    | error f => exact .unseen
    | ok found => exact .looked hopen (hfound.trans hget)
  · exact .unseen

theorem World.Answers.jobStep_setJob {step : Option StepPath} {updates : Keyed Value}
    {answer : Except Fault StoreAnswer} {start stop : Clock}
    (h : w.Answers ⟨step, .store (.setJob id updates), answer, start, stop⟩ w') :
    JobStep id (w.jobView id) (.store (.setJob id updates)) answer (w'.jobView id) := by
  obtain ⟨-, -, hstep⟩ := h.step_eq rfl
  simp only [World.step, World.useStores, Stores.perform_setJob, Progress.now.injEq] at hstep
  have hfound : (w.jobView id).found = w.stores.jobs.get id := w.found_jobView id
  obtain ⟨hanswer, hw'⟩ := hstep
  subst hw'
  by_cases hopen : w.stores.isOpen = true
  · rw [if_pos hopen] at hanswer ⊢
    cases hrevision : JobStore.revision (w.stores.jobs.get id) w.stores.jobs.backend id updates
        (World.stamp { w with clock := start }) with
    | ok p =>
      obtain ⟨r, held⟩ := p
      rw [hrevision] at hanswer
      subst hanswer
      have hkept : World.jobView { w with
            clock := start, stores := { w.stores with jobs := w.stores.jobs.after id r held } } id
          = (w.jobView id).keep held := by
        have hput : (w.stores.jobs.after id r held).records.get? id = some held :=
          Keyed.get?_put_self ..
        rw [World.jobView, hput]
        rfl
      rw [hkept]
      exact .kept hopen (hfound ▸ hrevision)
    | error f =>
      rw [hrevision] at hanswer
      subst hanswer
      exact .refused fun _ => ⟨_, hfound ▸ hrevision⟩
  · rw [if_neg hopen] at hanswer ⊢
    subst hanswer
    exact .refused fun h => absurd h hopen

/-- **What a call of a step makes of its job.** -/
theorem World.Answers.jobStep (h : w.Answers d w') (hcall : x.TreeCall q d.call) :
    JobStep (x.jobId q.text) (w.jobView (x.jobId q.text)) d.call d.answer
      (w'.jobView (x.jobId q.text)) := by
  obtain ⟨step, call, answer, start, stop⟩ := d
  have hother (hstore : call.usesStore = false) : JobStep (x.jobId q.text)
      (w.jobView (x.jobId q.text)) call answer (w'.jobView (x.jobId q.text)) := by
    rw [h.jobView_eq (.inl hstore)]
    exact .other hstore
  cases hcall with
  | journal => exact hother rfl
  | report => exact hother rfl
  | serves hserves =>
    cases hserves with
    | outside hc => exact hother (Call.usesStore_of_isOutside hc)
    | getJob => exact h.jobStep_getJob
    | setJob => exact h.jobStep_setJob
    | _ => exact hother rfl

end

end Runbook
