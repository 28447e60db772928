import Runbook.Proofs.Conduct
import Runbook.Proofs.Prompt
import Runbook.Proofs.Stopping

/-!
# `Proofs.Avoidance` — failures that only a plan can cause

Some failures say that a step cannot be carried out as it is written: a length of time that is none, a
condition that cannot be decided, a step that nobody knows. Requests, polls, events and stores never fail so;
what they fail with is their own. So whether a run meets such a failure is settled by the steps of its plan
alone: by the lengths of time that they name, by their predicates, and by the functions in their inputs and
tokens, which may raise what they like.

## Contents
- **Kinds of failures.** `Fault.isStructural` and `FaultKind`.
- **Results.** `Avoids`, and that what is computed from a context avoids a kind.
- **Stores.** `Stores.perform_avoids`, for the operations that steps use.
- **Answers.** `Call.Clear`, with `World.Answers.clear`; and `Action.Clear` for actions.
- **Steps.** `Execution.Prepared`, and `Execution.handler_clear` by kind of leaf.
- **Runs.** `Orderly.failure_own`, every failure is some step's own; `Settles.avoids`.
-/

namespace Runbook

/-! ## Kinds of failures -/

/-- **Failures of how a step is written**: a length of time that is none, a condition that cannot be decided,
    and a step that is not known. -/
def Fault.isStructural : Fault → Bool
  | .invalidDuration _ | .unknownStepType _ | .typeMismatch (.unsupportedCondition _) => true
  | _ => false

/-- **A kind of failures**, all of which are structural. -/
structure FaultKind where
  has : Fault → Bool
  structural : ∀ f, has f = true → f.isStructural = true

namespace FaultKind

/-- All structural failures. -/
def structures : FaultKind := ⟨Fault.isStructural, fun _ h => h⟩

/-- Those that stop a plan that goes on after errors. -/
def fatal : FaultKind where
  has := Execution.isFatal
  structural f h := by
    cases f with
    | unknownStepType kind => rfl
    | _ => exact absurd h (by simp [Execution.isFatal])

theorem lacks (K : FaultKind) {f : Fault} (h : f.isStructural = false) : K.has f = false := by
  cases hf : K.has f with
  | false => rfl
  | true => rw [K.structural f hf] at h; exact absurd h (by simp)

end FaultKind

variable {K : FaultKind}

/-! ## Results -/

/-- **A result avoids a kind of failures**: it is no failure of that kind. -/
structure Avoids (K : FaultKind) {α : Type} (o : Except Fault α) : Prop where
  notHas : ∀ f, o = .error f → K.has f = false

namespace Avoids

variable {α β : Type} {o : Except Fault α}

theorem ok (a : α) : Avoids K (.ok a : Except Fault α) := ⟨fun _ h => absurd h (by simp)⟩

theorem error {f : Fault} (h : K.has f = false) : Avoids K (.error f : Except Fault α) :=
  ⟨fun _ hf => Except.error.inj hf ▸ h⟩

/-- A failure that is not structural is of no kind. -/
theorem plain {f : Fault} (h : f.isStructural = false) : Avoids K (.error f : Except Fault α) :=
  .error (K.lacks h)

theorem bind {g : α → Except Fault β} (ho : Avoids K o) (hg : ∀ a, Avoids K (g a)) : Avoids K (o >>= g) := by
  cases o with
  | ok a => exact hg a
  | error f => exact .error (ho.notHas f rfl)

theorem map (g : α → β) (ho : Avoids K o) : Avoids K (g <$> o) := by
  cases o with
  | ok a => exact .ok _
  | error f => exact .error (ho.notHas f rfl)

theorem foldlM {g : β → α → Except Fault β} (hg : ∀ b a, Avoids K (g b a)) :
    ∀ (items : List α) (init : β), Avoids K (items.foldlM g init)
  | [], init => .ok init
  | a :: items, init => by
    rw [List.foldlM_cons]
    exact (hg init a).bind fun b => foldlM hg items b

theorem forIn {g : α → β → Except Fault (ForInStep β)} (hg : ∀ a b, Avoids K (g a b)) :
    ∀ (items : List α) (init : β), Avoids K (forIn items init g)
  | [], init => .ok init
  | a :: items, init => by
    rw [List.forIn_cons]
    refine (hg a init).bind fun step => ?_
    cases step with
    | done b => exact .ok b
    | yield b => exact forIn hg items b

theorem mapError {ε : Type} {g : ε → Fault} {o : Except ε α} (hg : ∀ e, (g e).isStructural = false) :
    Avoids K (o.mapError g) := by
  cases o with
  | ok a => exact .ok a
  | error e => exact .plain (hg e)

theorem ofChecked (name : String) (o : Checked α) : Avoids K (Fault.ofChecked name o) := by
  cases o with
  | ok a => exact .ok a
  | bad problems => exact .plain rfl

theorem reach (v : Value) (path : Option String) : Avoids K (v.reach path) := mapError fun _ => rfl

end Avoids

/-- **A value is clear of a kind of failures**: if it is a function, that does not raise them. -/
def Functions.Clear (fns : Functions) (K : FaultKind) (v : Value) : Prop :=
  ∀ ref, v = .function ref → ∀ c, Avoids K (fns.ofContext ref c)

/-! ### Inputs, tokens and predicates -/

theorem JoinDescriptor.gather_avoids (d : JoinDescriptor) (c : Context) : Avoids K (d.gather c) := by
  have htexts : Avoids K (d.texts c) := by
    unfold texts
    refine .foldlM (fun acc id => ?_) _ _
    split
    · exact .ok _
    · refine (Avoids.reach ..).bind fun v => ?_
      split <;> exact .ok _
  refine htexts.bind fun texts => ?_
  dsimp only
  split <;> exact .ok _

section

variable {fns : Functions}

theorem callOn_avoids {v : Value} (hv : fns.Clear K v) (c : Context) : Avoids K (callOn fns v c) := by
  unfold callOn
  split
  · exact hv _ rfl c
  · exact .plain rfl

theorem resolveValue_avoids {v : Value} (hv : fns.Clear K v) (c : Context) :
    Avoids K (resolveValue fns v c) := by
  unfold resolveValue
  split
  · exact hv _ rfl c
  · refine (Avoids.ofChecked ..).bind fun input => ?_
    split
    · exact JoinDescriptor.gather_avoids ..
    · exact .ok _
    · exact .ok _

theorem resolveInput_avoids {call : Capability} (hcall : ∀ v, call.input = .given v → fns.Clear K v)
    (c : Context) : Avoids K (call.resolveInput fns c) := by
  unfold Capability.resolveInput
  split
  · exact .ok _
  · split
    · exact JoinDescriptor.gather_avoids ..
    · next v hinput => exact resolveValue_avoids (hcall v hinput) c
    · exact .ok _

theorem resolveToken_avoids {h : Hook} (hhook : ∀ v, h.token = some (.computed v) → fns.Clear K v)
    (c : Context) : Avoids K (h.resolveToken fns c) := by
  have hfallback : Avoids K (if h.tokenIsFunction then .ok (defaultToken h.id c)
      else .error .hookTokenMissing : Except Fault String) := by
    split
    · exact .ok _
    · exact .plain rfl
  unfold Hook.resolveToken
  dsimp only
  split
  · next v htoken => exact (callOn_avoids (hhook v htoken) c).map _
  · split
    · exact hfallback
    · exact .ok _
  · exact hfallback

/-- **Predicates** that can be decided fail in no such way, unless a function raises it. -/
theorem holds_avoids {p : Predicate}
    (hp : ∀ v, p = .other v → fns.Clear K v
      ∧ (v.isCallable = false → K.has (.typeMismatch (.unsupportedCondition v)) = false))
    (c : Context) : Avoids K (p.holds fns c) := by
  unfold Predicate.holds
  split
  · exact .ok _
  · exact (Avoids.reach ..).bind fun _ => .ok _
  · next v =>
    split
    · exact (callOn_avoids (hp v rfl).1 c).map _
    · next hcallable => exact .error ((hp v rfl).2 (by simpa using hcallable))

end

theorem checkPayload_avoids (model payload : Value) : Avoids K (checkPayload model payload) := by
  unfold checkPayload
  split
  · exact .ok _
  · exact ((Avoids.ofChecked ..).map _).bind fun _ => .ok _
  · exact .plain rfl

theorem noted_avoids (found : Option Value) (key : String) : Avoids K (JournalEntry.noted found key) := by
  unfold JournalEntry.noted
  dsimp only
  split
  · exact .ok _
  · exact .plain rfl

/-! ## Stores -/

theorem hold_avoids {ρ : Type} [Recorded ρ] (b : Backend) (r : ρ) : Avoids K (hold b r) := by
  have hencode : Avoids K (encode r) := by
    unfold encode
    split
    · exact .plain rfl
    · exact .ok _
  unfold hold
  split
  · exact .ok _
  · exact hencode.map _

theorem readHeld_avoids {ρ : Type} [Recorded ρ] (entries : Keyed (Held ρ)) (key : String) :
    Avoids K (entries.readHeld key) := by
  unfold Keyed.readHeld
  split
  · next held _ =>
    cases held with
    | live r => exact .ok _
    | document d => exact (Avoids.ofChecked ..).map _
  · exact .ok _

theorem overlay_avoids (metadata : Keyed Value) (v : Value) : Avoids K (Update.overlay metadata v) := by
  unfold Update.overlay
  split
  · exact .ok _
  · split
    · exact .ok _
    · exact .plain rfl

theorem ErrorInfo.ofUpdate?_avoids (v : Value) : Avoids K (ofUpdate? v) := by
  unfold ofUpdate?
  split
  · exact .ok _
  · exact (Avoids.ofChecked ..).map _
  · exact .ok _

theorem InternalJob.itemsOfUpdate_avoids (v : Value) : Avoids K (itemsOfUpdate v) := by
  have hread (items : List Value) : Avoids K (do
      for item in items do
        if item.isObject then
          let _ ← Fault.ofChecked "InternalJobEntry" (ofValue item)
      return items) := by
    refine Avoids.bind (.forIn (fun item _ => ?_) items _) fun _ => .ok _
    split
    · exact (Avoids.ofChecked ..).bind fun _ => .ok _
    · exact .ok _
  unfold itemsOfUpdate
  split
  · exact hread []
  · split
    · exact hread _
    · exact hread _
    · exact hread _
    · exact .plain rfl

namespace JobRecord

theorem overlays_avoids (base : JobRecord) (updates : Keyed Value) : Avoids K (base.overlays updates) := by
  unfold overlays
  refine .foldlM (fun acc ⟨key, v⟩ => ?_) updates _
  dsimp only
  split
  · exact (overlay_avoids ..).bind fun _ => .ok _
  · split
    · exact .ok _
    · split
      · exact (ErrorInfo.ofUpdate?_avoids v).bind fun _ => .ok _
      · split
        · exact (InternalJob.itemsOfUpdate_avoids v).bind fun _ => .ok _
        · exact .ok _

theorem update_avoids (existing : Option JobRecord) (id : String) (updates : Keyed Value) (now : Stamp) :
    Avoids K (update existing id updates now) := by
  have hrevised (base : JobRecord) : Avoids K (base.revised updates now) :=
    (overlays_avoids ..).bind fun o => (Avoids.ofChecked ..).bind fun r => .ok _
  exact (hrevised _).bind fun r => .ok _

end JobRecord

theorem JobStore.set_avoids (s : JobStore) (id : String) (updates : Keyed Value) (now : Stamp) :
    Avoids K (s.set id updates now) := by
  have hkeep (r : JobRecord) : Avoids K (s.keep r) := (hold_avoids ..).bind fun held => .ok _
  refine (readHeld_avoids ..).bind fun existing => (JobRecord.update_avoids ..).bind fun r => ?_
  exact (hkeep r).bind fun after => .ok _

/-- **Stores** fail in no such way, open or closed. -/
theorem Stores.perform_avoids (s : Stores) (now : Stamp) {op : StoreOp}
    (hop : (∃ id, op = .getJob id) ∨ ∃ id updates, op = .setJob id updates) :
    Avoids K (s.perform now op).1 := by
  unfold perform
  split
  · obtain ⟨id, rfl⟩ | ⟨id, updates, rfl⟩ := hop
    · exact (readHeld_avoids ..).map _
    · have h := (JobStore.set_avoids (K := K) s.jobs id updates now).map
        fun a : JobRecord × JobStore => (a.1, { s with jobs := a.2 })
      simp only [performOpen, writing]
      split
      · exact .ok _
      · next f hf => exact .error (h.notHas f hf)
  · obtain ⟨id, rfl⟩ | ⟨id, updates, rfl⟩ := hop <;> exact .plain rfl

/-! ## Answers -/

/-- **Clear answers**: the calls of a step that can fail avoid a kind of failures. -/
def Call.Clear (K : FaultKind) : (c : Call) → c.Answer → Prop
  | .hostSleep _, o => Avoids K o
  | .store (.getJob _), o => Avoids K o
  | .store (.setJob ..), o => Avoids K o
  | .amend .., o => Avoids K o
  | _, _ => True

/-- **Waits on the host** avoid a kind of failures. -/
def Call.Wakens (K : FaultKind) : (c : Call) → c.Answer → Prop
  | .hostSleep _, o => Avoids K o
  | _, _ => True

/-- A world gives clear answers, if the host does. -/
theorem World.Answers.clear {w w' : World} {d : Deed} (h : w.Answers d w')
    (hhost : d.call.Wakens K d.answer) : d.call.Clear K d.answer := by
  cases h with
  | @inside step c answer start w' hc hstart hstep =>
    cases c with
    | hostSleep seconds => exact hhost
    | store op =>
      have hanswer : (Stores.perform w.stores (Stamp.ofMicros start) op).1 = answer := by
        simp only [World.step, Progress.now.injEq] at hstep
        exact hstep.1
      -- only what is answered about jobs has to be clear
      cases op with
      | getJob id => exact hanswer ▸ Stores.perform_avoids _ _ (.inl ⟨id, rfl⟩)
      | setJob id updates => exact hanswer ▸ Stores.perform_avoids _ _ (.inr ⟨id, updates, rfl⟩)
      | _ => trivial
    | amend path fields =>
      have hanswer : (World.amend { w with clock := start } path fields).1 = answer := by
        simp only [World.step, Progress.now.injEq] at hstep
        exact hstep.1
      rw [← hanswer]
      show Avoids K _
      unfold World.amend Attempt.withNote
      split
      · exact .ok _
      · next f hf =>
        split at hf
        · exact absurd hf (by simp)
        · exact absurd hf (by simp)
        · exact .plain (Except.error.inj hf ▸ rfl)
    | _ => trivial
  | @outside step c answer start stop w' hc =>
    cases c with
    | hostSleep seconds => exact hhost
    | store op => exact absurd hc (by simp [Call.isOutside])
    | amend path fields => exact absurd hc (by simp [Call.isOutside])
    | _ => trivial

/-- In prompt surroundings the host wakes up at once. -/
theorem World.Prompts.wakens {reply : Request → Reply} {w : World} {ds : List Deed}
    (h : w.Prompts (.replying reply) ds) : ∀ d ∈ ds, d.call.Wakens K d.answer := by
  induction ds generalizing w with
  | nil => simp
  | cons d ds ih =>
    intro e he
    rcases List.mem_cons.mp he with rfl | he
    · rw [h.1]
      cases hcall : e.call with
      | hostSleep seconds => exact .ok ()
      | _ => trivial
    · exact ih h.2 e he

/-- A call with a clear answer. -/
abbrev ClearStep (K : FaultKind) (_ : Unit) (c : Call) (answer : c.Answer) (_ : Unit) : Prop := c.Clear K answer

/-- **A clear action**: of answers that avoid a kind of failures it makes an outcome that does. -/
def Action.Clear (K : FaultKind) {α : Type} (a : Action α) : Prop :=
  a.Heeds (ClearStep K) (fun _ _ => True) (fun o _ => Avoids K o) ()

/-- What a course of a clear action ends with. -/
theorem Action.Clear.of_course {α : Type} {a : Action α} {pace : Clock → Clock → Prop}
    {step : Option StepPath} {t u : Clock} {ds : List Deed} {o : Except Fault α} (ha : a.Clear K)
    (h : Program.Course pace step t a.outcome ds (some (o, u)))
    (hds : ∀ d ∈ ds, d.call.Clear K d.answer) : Avoids K o := by
  have hfollows : Follows (ClearStep K) () ds () := by
    clear h
    induction ds with
    | nil => exact .nil
    | cons d ds ih => exact .cons (hds d List.mem_cons_self) (ih fun e he => hds e (.tail _ he))
  exact h.heeds ha hfollows _ rfl

theorem Program.heeds_trivial {σ α : Type} {R : σ → (c : Call) → c.Answer → σ → Prop} :
    ∀ (p : Program α) (s : σ), p.Heeds R (fun _ _ => True) (fun _ _ => True) s
  | .done _, _ => trivial
  | .ask _ next, _ => ⟨trivial, fun answer s' _ => heeds_trivial (next answer) s'⟩

namespace Action

variable {α β : Type} {a : Action α} {f : α → Action β}

theorem clear_bind (ha : a.Clear K) (hf : ∀ v, (f v).Clear K) : (a >>= f).Clear K :=
  heeds_bind ha (fun v _ _ => hf v) fun e _ h => .error (h.notHas e rfl)

theorem clear_pure (v : α) : Clear K (pure v : Action α) := Runbook.Avoids.ok v

theorem clear_throw {e : Fault} (h : K.has e = false) : Clear K (throw e : Action α) :=
  Runbook.Avoids.error h

theorem clear_ofExcept {o : Except Fault α} (h : Avoids K o) : (Action.ofExcept o).Clear K := h

theorem clear_map (g : α → β) (ha : a.Clear K) : Clear K (g <$> a) :=
  heeds_map (heeds_weaken ha fun o _ h => by cases o with
    | ok v => exact .ok _
    | error e => exact .error (h.notHas e rfl))

/-- Whatever a program does that cannot fail, it is clear. -/
theorem clear_lift (p : Program α) : Clear K (ExceptT.lift p : Action α) :=
  heeds_lift (Program.heeds_weaken (Program.heeds_trivial p ()) fun v _ _ => .ok v)

theorem clear_call (c : Call) : (call c).Clear K := clear_lift _

theorem clear_hostSleep (seconds : Float) : (hostSleep seconds).Clear K := ⟨trivial, fun _ _ h => h⟩

theorem clear_setJob (id : String) (updates : Keyed Value) : (setJob id updates).Clear K :=
  clear_map _ (a := store (.setJob id updates)) ⟨trivial, fun _ _ h => h⟩

theorem clear_getJob (id : String) : (getJob id).Clear K := by
  refine clear_bind (a := store (.getJob id)) ⟨trivial, fun _ _ h => h⟩ fun answer => ?_
  split <;> exact clear_pure _

end Action

open Runbook.Action

/-! ## Capabilities and leaves -/

namespace Dispatch

variable (settings : DispatchSettings)

theorem exchange_clear (method url : String) (body : Option Value) (headers : Keyed String) :
    (exchange method url body headers).Clear K := by
  unfold exchange
  split
  · exact clear_throw (K.lacks rfl)
  · refine clear_bind (clear_call _) fun reply => ?_
    split
    · exact clear_pure _
    · exact clear_throw (K.lacks rfl)

theorem requireSuccess_clear (r : Response) (url what : String) : (requireSuccess r url what).Clear K := by
  unfold requireSuccess
  split
  · exact clear_pure _
  · exact clear_throw (K.lacks rfl)

theorem callAgent_clear (agent : String) (input : Value) (messages : List Value) :
    (callAgent settings agent input messages).Clear K :=
  clear_bind (exchange_clear ..) fun _ => clear_bind (requireSuccess_clear ..) fun _ => clear_pure _

theorem startWorkflow_clear (workflow : String) (input : Value) (messages : List Value)
    (executionId : Option String) :
    (startWorkflow settings workflow input messages executionId).Clear K := by
  unfold startWorkflow startedRun
  refine clear_bind (exchange_clear ..) fun response => clear_bind (requireSuccess_clear ..) fun _ => ?_
  split
  · exact clear_throw (K.lacks rfl)
  · dsimp only
    split
    · exact clear_bind (clear_ofExcept (.ofChecked ..)) fun _ => clear_pure _
    · exact clear_bind (clear_pure _) fun _ => clear_pure _

theorem sendTrigger_clear (worker jobId : String) (message : Value) :
    (sendTrigger settings worker jobId message).Clear K := by
  have hattempt (url : String) (body : Value) : Action.Clear K (do
      let response ← exchange "POST" url (some body) (triggerHeaders settings)
      requireSuccess response url ("Worker " ++ worker ++ " trigger")
      return response) :=
    clear_bind (exchange_clear ..) fun _ => clear_bind (requireSuccess_clear ..) fun _ => clear_pure _
  unfold sendTrigger
  -- a failure that is not noted is that of the exchange
  refine heeds_bind (Q := fun o _ => ∃ p, o = .ok p ∧ Avoids K p) ?_ ?_ ?_
  · exact heeds_lift (Program.heeds_weaken (hattempt _ _) fun o _ ho => ⟨o, rfl, ho⟩)
  · rintro o _ ⟨_, ho, hclear⟩
    obtain rfl := Except.ok.inj ho
    split
    · exact clear_pure _
    · exact clear_bind (clear_setJob ..) fun _ => clear_throw (K.lacks rfl)
    · next f _ => exact clear_throw (hclear.notHas f rfl)
  · rintro e _ ⟨p, hp, -⟩
    exact absurd hp (by simp)

theorem triggerWorker_clear (worker : String) (input : Value) {jobId : String} (awaits : Bool)
    (context : Value) (hne : jobId ≠ "") :
    (triggerWorker settings worker input (some jobId) awaits context).Clear K := by
  unfold triggerWorker
  rw [nonEmpty?_of_ne hne]
  refine clear_bind (clear_pure _) fun jobId => clear_bind (clear_getJob _) fun existing => ?_
  split
  · exact clear_pure _
  · refine clear_bind (clear_setJob ..) fun _ => clear_bind (clear_map _ (clear_call _)) fun time => ?_
    refine clear_bind (sendTrigger_clear ..) fun response => ?_
    split
    · exact clear_bind (clear_setJob ..) fun _ => clear_pure _
    · exact clear_pure _

end Dispatch

theorem PollBounds.pause?_avoids (b : PollBounds) (elapsedMs : Float) :
    Avoids K (b.pause? elapsedMs) := by
  have hinterval : Avoids K b.interval := by
    unfold PollBounds.interval
    split
    · exact .plain rfl
    · exact .ok _
  have hremaining : Avoids K (b.remaining? elapsedMs) := by
    unfold PollBounds.remaining?
    split
    · exact .ok _
    · split
      · exact .plain rfl
      · exact .ok _
  unfold PollBounds.pause?
  refine hremaining.bind fun left => ?_
  split
  · exact hinterval.map _
  · split
    · exact .ok _
    · split
      · exact .ok _
      · exact hinterval.map _

theorem pollUntilDone_clear {look : Action Observation} {sleep : Float → Action Unit}
    (hsleep : ∀ s, (sleep s).Clear K) (b : PollBounds) : (pollUntilDone look sleep b).Clear K := by
  have helapsed (started : Clock) : (elapsedSince started).Clear K :=
    clear_bind (clear_call _) fun _ => clear_pure _
  -- by induction on the number of looks that are left; a look that fails is no failure of the poll
  have hloop (started : Clock) (left : Nat) : ∀ attempts,
      (pollLoop look sleep b started left attempts).Clear K := by
    induction left with
    | zero => exact fun _ => clear_bind (helapsed _) fun _ => clear_pure _
    | succ left ih =>
      intro attempts
      unfold pollLoop
      refine clear_bind (clear_lift _) fun o => clear_bind (helapsed _) fun elapsed => ?_
      split
      · exact clear_pure _
      · split
        · exact clear_pure _
        · refine clear_bind (clear_ofExcept (b.pause?_avoids _)) fun pause => ?_
          split
          · exact clear_pure _
          · refine clear_bind (hsleep _) fun _ => clear_bind (helapsed _) fun elapsed => ?_
            split
            · exact clear_pure _
            · exact ih _
  exact clear_bind (clear_call _) fun started => hloop started _ _

namespace Execution

variable {x : Execution}

theorem saveCheckpoint_clear : x.saveCheckpoint.Clear K := by
  unfold saveCheckpoint
  split
  · exact clear_call _
  · exact clear_pure _

theorem note_clear (path : String) (fields : Keyed Value) : (x.note path fields).Clear K := by
  unfold note
  refine heeds_bind (R := (ClearStep K)) (P := fun _ _ => True)
    (Q := fun o _ => ∃ answer, o = .ok answer ∧ Avoids K answer) ?_ ?_ ?_
  · exact ⟨trivial, fun answer _ h => ⟨answer, rfl, h⟩⟩
  · rintro answer _ ⟨_, ho, hclear⟩
    obtain rfl := Except.ok.inj ho
    exact clear_bind (clear_ofExcept hclear) fun _ => saveCheckpoint_clear
  · rintro e _ ⟨answer, h, -⟩
    exact absurd h (by simp)

theorem noted_clear (path key : String) : (noted path key).Clear K :=
  clear_bind (clear_call _) fun _ => clear_ofExcept (noted_avoids ..)

theorem requireCompletion_clear (r : PollResult) (what : String) : (requireCompletion r what).Clear K := by
  unfold requireCompletion
  split
  · exact clear_pure _
  · exact clear_throw (K.lacks rfl)
  · exact clear_throw (K.lacks rfl)

section

variable {call : Capability} (hcall : ∀ v, call.input = .given v → x.engine.functions.Clear K v)
include hcall

theorem runAgent_clear (agent : String) (c : Context) (path : String) :
    (x.runAgent call agent c path).Clear K := by
  unfold runAgent
  refine clear_bind (clear_ofExcept (resolveInput_avoids hcall _)) fun input => ?_
  split
  · exact Dispatch.callAgent_clear ..
  · exact clear_map _ (Dispatch.startWorkflow_clear ..)

theorem runWorker_clear (worker : String) (poll : Option PollPolicy) (c : Context)
    (path : String) : (x.runWorker call worker poll c path).Clear K := by
  unfold runWorker
  refine clear_bind (clear_ofExcept (resolveInput_avoids hcall _)) fun input => ?_
  refine clear_bind (Dispatch.triggerWorker_clear _ _ _ _ _ (x.jobId_ne_empty path)) fun triggered => ?_
  split
  · refine clear_bind (pollUntilDone_clear clear_hostSleep _) fun r => ?_
    exact clear_bind (requireCompletion_clear ..) fun _ => clear_pure _
  · exact clear_pure _

theorem runWorkflow_clear (workflow : String) (c : Context) (path : String) :
    (x.runWorkflow call workflow c path).Clear K := by
  have hnested (input : Value) : (x.nestedRun workflow input path).Clear K := by
    unfold nestedRun
    refine clear_bind (noted_clear ..) fun found => ?_
    split
    · refine clear_bind (Dispatch.startWorkflow_clear ..) fun r => ?_
      exact clear_bind (note_clear ..) fun _ => clear_pure _
    · exact clear_pure _
  unfold runWorkflow
  refine clear_bind (clear_ofExcept (resolveInput_avoids hcall _)) fun input => ?_
  split
  · refine clear_bind (hnested _) fun runId => ?_
    refine clear_bind (pollUntilDone_clear clear_hostSleep _) fun r => ?_
    exact clear_bind (requireCompletion_clear ..) fun _ => clear_pure _
  · exact clear_map _ (Dispatch.startWorkflow_clear ..)

end

theorem runHook_clear {h : Hook} (htoken : ∀ v, h.token = some (.computed v) → x.engine.functions.Clear K v)
    (hpatience : Avoids K ((x.hookPatience h).seconds.mapError Fault.ofDuration)) (c : Context) :
    (x.runHook h c).Clear K := by
  unfold runHook
  refine clear_bind (clear_ofExcept (resolveToken_avoids htoken c)) fun token => ?_
  refine clear_bind (clear_ofExcept hpatience) fun seconds => ?_
  refine clear_bind (clear_call _) fun _ => ?_
  refine clear_bind (clear_bind (clear_call _) fun _ => clear_call _) fun event => ?_
  refine clear_bind (clear_call _) fun _ => ?_
  split
  · exact clear_throw (K.lacks rfl)
  · exact clear_bind (clear_ofExcept (checkPayload_avoids ..)) fun _ => clear_pure _

theorem runSleep_clear {d : Duration} (hduration : Avoids K (d.seconds.mapError Fault.ofDuration))
    (path : String) : (x.runSleep d path).Clear K := by
  have hwake : (x.wakeTime d path).Clear K := by
    unfold wakeTime
    refine clear_bind (noted_clear ..) fun found => ?_
    split
    · refine clear_bind (clear_call _) fun now => ?_
      refine clear_bind (clear_ofExcept hduration) fun seconds => ?_
      exact clear_bind (note_clear ..) fun _ => clear_pure _
    all_goals first | exact clear_pure _ | exact clear_throw (K.lacks rfl)
  unfold runSleep
  refine clear_bind hwake fun wakeAt => clear_bind (clear_call _) fun now => ?_
  refine clear_bind (clear_call _) fun _ => clear_bind (clear_hostSleep _) fun _ => ?_
  exact clear_bind (clear_call _) fun _ => clear_pure _

/-- **A step that is prepared** as far as a kind of failures goes: the functions in it do not raise them, its
    lengths of time and its predicate do not cause them, and it does not fail so for being unknown. -/
def Prepared (K : FaultKind) (x : Execution) : Step → Prop
  | .agent call _ | .worker call _ _ | .workflow call _ =>
    ∀ v, call.input = .given v → x.engine.functions.Clear K v
  | .hook h =>
    (∀ v, h.token = some (.computed v) → x.engine.functions.Clear K v)
      ∧ Avoids K ((x.hookPatience h).seconds.mapError Fault.ofDuration)
  | .sleep _ d => Avoids K (d.seconds.mapError Fault.ofDuration)
  | .condition _ predicate _ _ => ∀ c, Avoids K (predicate.holds x.engine.functions c)
  | .parallel _ _ => True
  | .foreign _ _ => K.has (.unknownStepType "agent") = false

/-- **Leaves** that are prepared are clear. -/
theorem handler_clear {s : Step} {c : Context} {body : String → Action Value} (hs : Prepared K x s)
    (h : x.handler? s c = some body) (path : String) : (body path).Clear K := by
  cases s with
  | agent call agent =>
    obtain rfl := Option.some.inj h
    exact runAgent_clear hs ..
  | worker call worker poll =>
    obtain rfl := Option.some.inj h
    exact runWorker_clear hs ..
  | workflow call workflow =>
    obtain rfl := Option.some.inj h
    exact runWorkflow_clear hs ..
  | hook hook =>
    obtain rfl := Option.some.inj h
    exact runHook_clear hs.1 hs.2 _
  | sleep id duration =>
    obtain rfl := Option.some.inj h
    exact runSleep_clear hs _
  | condition _ _ _ _ => exact absurd h (by simp [handler?])
  | parallel _ _ => exact absurd h (by simp [handler?])
  | foreign _ _ => exact absurd h (by simp [handler?])

end Execution

/-! ## Runs -/

/-- **The failure of a leaf** that is prepared avoids what its answers have avoided. -/
theorem Layout.leaf_avoids {pace : Clock → Clock → Prop} {x : Execution} {ended : Prop} {ds : List Deed}
    {s : Step} {a : Report} (h : Layout pace x x.plan.Has ended ds) (hs : x.Prepared K s)
    (hclear : ∀ d ∈ ds, d.call.Clear K d.answer) (ha : a ∈ reports ds)
    (hsigned : ∀ d ∈ ds, ∀ r, d.call = .report r → d.step = some r.path) (hhas : x.plan.Has a.path s)
    (hleaf : s.isLeaf = true) : Avoids K a.outcome := by
  obtain ⟨d, hd, hcall⟩ := mem_reports.mp ha
  have hmem : d ∈ deedsFor a.path ds := mem_deedsFor.mpr ⟨hd, hsigned d hd a hcall⟩
  have hsub : deedsFor a.path ds ⊆ ds := fun e he => (mem_deedsFor.mp he).1
  have hdone := h a.path
  generalize deedsFor a.path ds = es at hmem hsub hdone
  cases hdone with
  | nothing => exact absurd hmem List.not_mem_nil
  | report hs' hnot => exact absurd (hs'.unique hhas ▸ hleaf) (by simp [hnot])
  | @leaf s' c _ _ _ hs' hleaf' hcourse =>
    obtain rfl := hs'.unique hhas
    obtain ⟨body, hbody, hcourse⟩ := Execution.walk_leaf_course hleaf' hcourse
    obtain ⟨t, u, fs, hfs, hcourse⟩ := hcourse.body_of_report hbody (mem_reports.mpr ⟨d, hmem, hcall⟩)
    exact (Execution.handler_clear hs hbody _).of_course hcourse fun e he => hclear e (hsub (hfs he))

/-- **Every failure is some step's own.** If a step has failed, then the failure is its own or that of a step
    inside it, which has failed with it. -/
theorem Orderly.failure_own {fns : Functions} {p : Plan} {S : Sites} {ds : List Deed}
    (h : Orderly fns p S ds) {a : Report} (ha : a ∈ reports ds) {f : Fault} (hf : a.outcome = .error f) :
    ∃ b ∈ reports ds, b.outcome = .error f ∧ ∃ s, S b.path s ∧ s.FailsItself fns f := by
  -- paths get longer on the way, and there is a longest one
  obtain ⟨longest, hlongest⟩ : ∃ n, ∀ b ∈ reports ds, b.path.length ≤ n :=
    ⟨_, fun b hb => List.le_max?_getD_of_mem (k := 0) (List.mem_map_of_mem (f := fun b => b.path.length) hb)⟩
  obtain ⟨left, hleft⟩ : ∃ left, longest - a.path.length = left := ⟨_, rfl⟩
  induction left using Nat.strongRecOn generalizing a with
  | _ left ih =>
    obtain ⟨s, hs, htells⟩ := h.tells a ha
    rcases htells.failure f hf with hown | ⟨b, hb, hinside, hne, hbf⟩
    · exact ⟨a, ha, hf, s, hs, hown⟩
    · have hlonger : a.path.length < b.path.length := by
        have hle := hinside.length_le
        have hlength : b.path.length ≠ a.path.length := fun heq =>
          hne (hinside.eq_of_length heq.symm).symm
        omega
      have hbound := hlongest b hb
      exact ih _ (by omega) hb hbf rfl

/-- **A run of a plan whose steps are all prepared** avoids what they avoid: each of its steps does, and so does
    the run itself. -/
theorem Settles.avoids {pace : Clock → Clock → Prop} {x : Execution} {ds : List Deed}
    {r : Option (Outcome × Clock)} (h : Settles pace x ds r)
    (hprepared : ∀ q s, x.plan.Has q s → x.Prepared K s)
    (hclear : ∀ d ∈ ds, d.call.Clear K d.answer) :
    (∀ a ∈ reports ds, Avoids K a.outcome) ∧ ∀ o t, r = some (o, t) → Avoids K o := by
  have hreports : ∀ a ∈ reports ds, Avoids K a.outcome := by
    refine fun a ha => ⟨fun f hf => ?_⟩
    obtain ⟨b, hb, hbf, s, hhas, hown⟩ := h.orderly.failure_own ha hf
    have hs := hprepared b.path s hhas
    cases hown with
    | leaf hleaf => exact (h.layout.leaf_avoids hs hclear hb h.orderly.signed hhas hleaf).notHas f hbf
    | unknown => exact hs
    | predicate hholds => exact (hs _).notHas f hholds
  refine ⟨hreports, fun o t hr => ⟨fun f hf => ?_⟩⟩
  -- the run fails with what a step has failed with
  subst hf
  obtain ⟨-, q, hfirst⟩ := h.first f t hr
  obtain ⟨a, ha, -, haf⟩ := hfirst.reported
  exact (hreports a ha).notHas f haf

end Runbook
