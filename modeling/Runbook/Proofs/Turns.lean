import Runbook.Proofs.Outputs
import Runbook.Proofs.QueueRecords
import Runbook.Queue

/-!
# `Proofs.Turns` — the workers of a queue take turns

What is known of a queue that is carried out are the exchanges so far and its record. Every exchange is for
some step, and comes after all earlier steps were seen completed; and the record tells which step was reached
and how it stands. Most of what a queue asks for leaves the record alone, and requests for the step that comes
next keep the account of the exchanges.

## Contents
- **Exchanges.** `Exchange`, and what one of them shows: `Reports`, `Triggers`.
- **Inputs.** `QueueStep.Receives`, what a step receives.
- **Accounts.** `QueueRun.Accounted`: every exchange is for a step, and in its turn.
- **The view.** `Seen` and `Seen.Step`; `Recounted` and `Kept`, what is known of a queue in a view, and what keeps
  them.
-/

namespace Runbook

/-! ## Exchanges -/

/-- A request, and what was replied to it. -/
abbrev Exchange := Request × Reply

/-- The request with which a job is looked at. -/
def Dispatch.lookRequest (settings : DispatchSettings) (worker job : String) : Request :=
  ⟨"GET", Address.workerStatusUrl settings worker job, none, []⟩

/-- What the message in the body of a request says. -/
def Request.says (r : Request) (key : String) : Value := ((r.body.getD .null).getD "body").getD key

/-- **The trigger of a job** with an input. -/
structure Request.Triggers (settings : DispatchSettings) (worker job : String) (input : Value)
    (r : Request) : Prop where
  method : r.method = "POST"
  url : r.url = Address.workerTriggerUrl settings
  toWorker : r.says "workerId" = .text worker
  ofJob : r.says "jobId" = .text job
  /-- Null is sent as an empty object. -/
  withInput : r.says "input" = if input.isNull then .object [] else input

/-- **A look that shows that a job has completed**, wholly or in part, and with which output. -/
structure Exchange.Reports (settings : DispatchSettings) (worker job : String) (output : Value)
    (x : Exchange) : Prop where
  looks : x.1 = Dispatch.lookRequest settings worker job
  shows : ∃ response, x.2.response = .ok response ∧ response.isSuccess = true
    ∧ (response.json.getD "status" = .text "completed" ∨ response.json.getD "status" = .text "partial")
    ∧ output = response.json.getD "output"

theorem Dispatch.triggerRequest_triggers (settings : DispatchSettings) (worker job : String)
    (input context : Value) (webhook : Option String) (time : Stamp) :
    (triggerRequest settings worker (triggerMessage worker job input context webhook time)).Triggers
      settings worker job input := by
  constructor <;> rfl

/-! ## Inputs -/

/-- **What a step receives**: what its function makes of the first input and all earlier outputs; or else
    the output of the step before it; or else the first input. -/
inductive QueueStep.Receives (s : QueueStep) (functions : Functions) (initial : Value)
    (outputs : List PreviousOutput) : Value → Prop where
  | mapped {ref : Nat} {v : Value} (hmap : s.mapInput = some (.function ref))
      (hv : functions.ofQueue ref initial outputs = .ok v) : Receives s functions initial outputs v
  | passedOn {earlier : List PreviousOutput} {p : PreviousOutput} (hmap : s.mapInput = none)
      (hp : outputs = earlier ++ [p]) : Receives s functions initial outputs p.output
  | first (hmap : s.mapInput = none) (hnone : outputs = []) : Receives s functions initial outputs initial

theorem QueueStep.receives_of_inputFrom {s : QueueStep} {functions : Functions} {initial v : Value}
    {outputs : List PreviousOutput} (h : s.inputFrom functions initial outputs = .ok v) :
    s.Receives functions initial outputs v := by
  unfold inputFrom at h
  split at h
  · next ref hmap => exact .mapped hmap h
  · exact absurd h (by simp)
  · next hmap =>
    obtain rfl := Except.ok.inj h
    rcases List.eq_nil_or_concat outputs with rfl | ⟨earlier, p, rfl⟩
    · exact .first hmap rfl
    · simpa using Receives.passedOn (p := p) hmap rfl

/-! ## Accounts -/

/-- What a list begins with it holds at the same position. -/
theorem getElem?_of_prefix {α : Type} {items items' : List α} {i : Nat} {a : α} (h : items <+: items')
    (ha : items[i]? = some a) : items'[i]? = some a := by
  obtain ⟨more, rfl⟩ := h
  rw [List.getElem?_append_left (List.getElem?_eq_some_iff.mp ha).1, ha]

namespace QueueRun

variable (q : QueueRun) (begun : List (String × String)) (outputs : List PreviousOutput)

/-- **A step that was seen completed**: one of the exchanges reports its output. -/
def Reported (xs : List Exchange) (i : Nat) : Prop :=
  ∃ worker job output, begun[i]? = some (worker, job) ∧ outputs[i]? = some ⟨i, worker, output⟩
    ∧ ∃ x ∈ xs, x.Reports q.settings worker job output

/-- **A request for a step**: a look at its job, or its trigger with what it receives. -/
def Concerns (i : Nat) (r : Request) : Prop :=
  ∃ step job, q.definition.steps[i]? = some step ∧ begun[i]? = some (step.workerId, job)
    ∧ (r = Dispatch.lookRequest q.settings step.workerId job
      ∨ ∃ input, step.Receives q.functions q.initial (outputs.take i) input
        ∧ r.Triggers q.settings step.workerId job input)

/-- **Exchanges in turn**: each is for a step, and all earlier steps had been seen completed before it. -/
def Accounted (xs : List Exchange) : Prop :=
  ∀ before x after, xs = before ++ x :: after →
    ∃ i, q.Concerns begun outputs i x.1 ∧ ∀ j < i, q.Reported begun outputs before j

variable {q begun outputs} {begun' : List (String × String)} {outputs' : List PreviousOutput}
  {xs ys : List Exchange} {i : Nat}

theorem Reported.lt_length (h : q.Reported begun outputs xs i) : i < outputs.length := by
  obtain ⟨_, _, _, -, houtput, -⟩ := h
  exact (List.getElem?_eq_some_iff.mp houtput).1

theorem Reported.mono (h : q.Reported begun outputs xs i) (hbegun : begun <+: begun')
    (houtputs : outputs <+: outputs') (hxs : xs ⊆ ys) : q.Reported begun' outputs' ys i := by
  obtain ⟨worker, job, output, hjob, houtput, x, hx, hreports⟩ := h
  refine ⟨worker, job, output, ?_, ?_, x, hxs hx, hreports⟩
  · exact getElem?_of_prefix hbegun hjob
  · exact getElem?_of_prefix houtputs houtput

theorem Accounted.mono (h : q.Accounted begun outputs xs) (hbegun : begun <+: begun')
    (houtputs : outputs <+: outputs') : q.Accounted begun' outputs' xs := by
  intro before x after hsplit
  obtain ⟨i, ⟨step, job, hstep, hjob, hrequest⟩, hreported⟩ := h before x after hsplit
  -- all steps before this one have outputs, so later outputs do not matter to what it receives
  have hlength : i ≤ outputs.length := by
    cases i with
    | zero => exact Nat.zero_le _
    | succ j => exact (hreported j (Nat.lt_succ_self j)).lt_length
  refine ⟨i, ⟨step, job, hstep, getElem?_of_prefix hbegun hjob, ?_⟩, fun j hj =>
    (hreported j hj).mono hbegun houtputs fun _ h => h⟩
  obtain ⟨more, rfl⟩ := houtputs
  rwa [List.take_append_of_le_length hlength]

theorem Accounted.nil : q.Accounted begun outputs [] := by
  intro before x after h
  exact absurd h (by simp)

/-- One exchange more, in its turn. -/
theorem Accounted.snoc (h : q.Accounted begun outputs xs) {x : Exchange} (hx : q.Concerns begun outputs i x.1)
    (hreported : ∀ j < i, q.Reported begun outputs xs j) : q.Accounted begun outputs (xs ++ [x]) := by
  intro before y after hsplit
  rcases List.eq_nil_or_concat after with rfl | ⟨after, z, rfl⟩
  · -- the cut is before the new exchange
    obtain ⟨rfl, hy⟩ := List.append_inj' hsplit rfl
    obtain rfl := List.singleton_inj.mp hy
    exact ⟨i, hx, hreported⟩
  · have hsplit' : xs ++ [x] = (before ++ y :: after) ++ [z] := by simpa using hsplit
    exact h before y after (List.append_inj' hsplit' rfl).1

end QueueRun

/-! ## The view -/

/-- What is known of a queue that is carried out: the world, and the exchanges so far. -/
structure Seen where
  world : World
  exchanges : List Exchange

/-- The exchange that a call is. -/
def Call.exchange? : (c : Call) → c.Answer → Option Exchange
  | .request r, reply => some (r, reply)
  | _, _ => none

/-- **A response that can be taken down**: it can be written where documents are kept, and an error that comes
    with a failure reads as one. -/
structure Response.Legible (b : Backend) (r : Response) : Prop where
  writable : b ≠ .memory → r.json.unwritable? = none
  error : r.json.getD "status" = .text "failed" → (r.json.getD "error").truthy = true →
    ∃ e, ErrorInfo.ofUpdate? (r.json.getD "error") = .ok e

/-- Looks that succeed have responses that can be taken down. -/
def Call.Legible (b : Backend) : (c : Call) → c.Answer → Prop
  | .request r, reply =>
    r.method = "GET" → ∀ response, reply.response = .ok response → response.isSuccess = true →
      response.Legible b
  | _, _ => True

/-- **What a call makes of what is known**. Where everything works, what is seen can be taken down, and the
    time can be written. -/
structure Seen.Step (works : Prop) (b : Backend) (s : Seen) (c : Call) (answer : c.Answer) (s' : Seen) :
    Prop where
  answers : ∃ step start stop, s.world.Answers ⟨step, c, answer, start, stop⟩ s'.world
  exchanges : s'.exchanges = s.exchanges ++ (c.exchange? answer).toList
  legible : works → c.Legible b answer
  timely : works → b ≠ .memory → s'.world.stamp.Proper

/-- **What the exchanges so far recount**: they were made in turn, and all steps with an output were seen
    completed. -/
structure Recounted (works : Prop) (b : Backend) (q : QueueRun) (begun : List (String × String))
    (outputs : List PreviousOutput) (s : Seen) : Prop where
  accounted : q.Accounted begun outputs s.exchanges
  reported : ∀ i < outputs.length, q.Reported begun outputs s.exchanges i
  writable : works → b ≠ .memory → ∀ p ∈ outputs, p.output.unwritable? = none

/-- **What is kept of a queue**: nothing else can be read of it, and where everything works it can be read. -/
structure Kept (works : Prop) (b : Backend) (o : QueueOutline) (w : World) : Prop where
  shows : w.stores.queues.Shows o
  offers : works → w.stores.isOpen = true ∧ w.stores.queues.backend = b ∧ w.stores.queues.Offers o

/-- **Between two steps** nothing is kept yet, or the steps that are done. -/
inductive Between (works : Prop) (b : Backend) (q : QueueRun) (done : List (String × String)) (w : World) :
    Prop where
  | fresh (hdone : done = []) (hopen : works → w.stores.isOpen = true ∧ w.stores.queues.backend = b
      ∧ ∀ id, w.stores.queues.Replaceable id)
  | later (hdone : done ≠ []) (hkept : Kept works b (.passed q.id q.definition.steps.length done) w)

section

variable {works : Prop} {b : Backend} {q : QueueRun} {begun begun' done : List (String × String)}
  {outputs : List PreviousOutput} {o o' : QueueOutline} {s s' : Seen} {c : Call} {answer : c.Answer}

theorem Seen.Step.exchanges_eq (h : s.Step works b c answer s') (hc : ∀ r, c ≠ .request r) :
    s'.exchanges = s.exchanges := by
  have hnone : c.exchange? answer = none := by
    cases c with
    | request r => exact absurd rfl (hc r)
    | _ => rfl
  rw [h.exchanges, hnone, Option.toList_none, List.append_nil]

/-- Requests for the step that comes next keep the account. -/
theorem Recounted.step (hs : Recounted works b q begun outputs s) (h : s.Step works b c answer s')
    (hc : ∀ r, c = .request r → q.Concerns begun outputs outputs.length r) :
    Recounted works b q begun outputs s' := by
  refine ⟨?_, fun i hi => ?_, hs.writable⟩
  · cases c with
    | request r =>
      rw [h.exchanges]
      exact hs.accounted.snoc (hc r rfl) hs.reported
    | _ =>
      rw [h.exchanges_eq (by simp)]
      exact hs.accounted
  · refine (hs.reported i hi).mono (List.prefix_refl _) (List.prefix_refl _) ?_
    rw [h.exchanges]
    exact List.subset_append_left _ _

/-- A step more that was begun. -/
theorem Recounted.begin (hs : Recounted works b q begun outputs s) (hbegun : begun <+: begun') :
    Recounted works b q begun' outputs s where
  accounted := hs.accounted.mono hbegun (List.prefix_refl _)
  reported := fun i hi => (hs.reported i hi).mono hbegun (List.prefix_refl _) fun _ h => h
  writable := hs.writable

/-- A step more that was seen completed. -/
theorem Recounted.complete {worker job : String} {output : Value} {x : Exchange}
    (hs : Recounted works b q (done ++ [(worker, job)]) outputs s) (hlength : outputs.length = done.length)
    (hx : x ∈ s.exchanges) (hreports : x.Reports q.settings worker job output)
    (houtput : works → b ≠ .memory → output.unwritable? = none) :
    Recounted works b q (done ++ [(worker, job)]) (outputs ++ [⟨outputs.length, worker, output⟩]) s := by
  have hmore : outputs <+: outputs ++ [⟨outputs.length, worker, output⟩] := List.prefix_append _ _
  refine ⟨hs.accounted.mono (List.prefix_refl _) hmore, fun i hi => ?_, fun hw hb p hp => ?_⟩
  · rw [List.length_append, List.length_singleton] at hi
    by_cases hlast : i = outputs.length
    · -- the step that the look was for
      subst hlast
      refine ⟨worker, job, output, ?_, ?_, x, hx, hreports⟩
      · rw [hlength]
        simp
      · simp
    · exact (hs.reported i (by omega)).mono (List.prefix_refl _) hmore fun _ h => h
  · rcases List.mem_append.mp hp with hp | hp
    · exact hs.writable hw hb p hp
    · obtain rfl := List.mem_singleton.mp hp
      exact houtput hw hb

/-- What does not write records of queues keeps what is kept. -/
theorem Kept.step (hs : Kept works b o s.world) (h : s.Step works b c answer s')
    (hc : c.sparesQueues = true) : Kept works b o s'.world := by
  obtain ⟨_, _, _, hanswers⟩ := h.answers
  obtain ⟨hqueues, hopen⟩ := hanswers.queues_eq hc
  refine ⟨hqueues ▸ hs.shows, fun hw => ?_⟩
  rw [hqueues, hopen]
  exact hs.offers hw

theorem Between.step (hs : Between works b q done s.world) (h : s.Step works b c answer s')
    (hc : c.sparesQueues = true) : Between works b q done s'.world := by
  cases hs with
  | fresh hdone hopen =>
    obtain ⟨_, _, _, hanswers⟩ := h.answers
    obtain ⟨hqueues, hopen'⟩ := hanswers.queues_eq hc
    exact .fresh hdone (by rw [hqueues, hopen']; exact hopen)
  | later hdone hkept => exact .later hdone (hkept.step h hc)

/-- **How a queue stands** at one of its steps: what the exchanges tell, and what is kept. -/
structure Stands (works : Prop) (b : Backend) (q : QueueRun) (begun : List (String × String))
    (outputs : List PreviousOutput) (o : QueueOutline) (s : Seen) : Prop where
  told : Recounted works b q begun outputs s
  kept : Kept works b o s.world

end

end Runbook
