import Runbook.Proofs.Calls
import Runbook.Proofs.Layout

/-!
# `Proofs.Conduct` — what programs do, given what they see

Much of what a step does depends on a small part of the world that belongs to it: its journal entry, or
the record of its job. A view is such a part. `Follows` says how a view changes along deeds, and
`Program.Heeds` what a program makes sure of at each of its calls and at its end, whatever answers the
view allows.

## Contents
- **Views.** `Follows`, and the view of a world along the deeds of one step; `Counting`, a view together
  with a count of deeds.
- **Programs.** `Program.Heeds`, and what it says of courses: `Course.heeds`, `Course.heeds_at`.
- **Composition.** `heeds_bind`, and `Action.Heeds` for actions.
- **Programs that make only some calls.** `heeds_of_makes`.
- **Exchanges and polls.** `exchange_heeds`; `pollLoop_heeds`, by induction on the looks that are left, and
  `pollUntilDone_heeds`.
-/

namespace Runbook

section

variable {σ α β : Type} {R : σ → (c : Call) → c.Answer → σ → Prop}

/-! ## Views -/

/-- A view changes deed by deed. -/
inductive Follows (R : σ → (c : Call) → c.Answer → σ → Prop) : σ → List Deed → σ → Prop where
  | nil {s : σ} : Follows R s [] s
  | cons {s s₁ s' : σ} {d : Deed} {ds : List Deed} (first : R s d.call d.answer s₁)
      (rest : Follows R s₁ ds s') : Follows R s (d :: ds) s'

namespace Follows

variable {s s₁ s' : σ} {ds es : List Deed} {d : Deed}

theorem append (h₁ : Follows R s ds s₁) (h₂ : Follows R s₁ es s') : Follows R s (ds ++ es) s' := by
  induction h₁ with
  | nil => exact h₂
  | cons first _ ih => exact .cons first (ih h₂)

theorem split (h : Follows R s (ds ++ es) s') : ∃ s₁, Follows R s ds s₁ ∧ Follows R s₁ es s' := by
  induction ds generalizing s with
  | nil => exact ⟨s, .nil, h⟩
  | cons d ds ih =>
    cases h with
    | cons first rest =>
      obtain ⟨s₁, h₁, h₂⟩ := ih rest
      exact ⟨s₁, .cons first h₁, h₂⟩

theorem eq_of_nil (h : Follows R s [] s') : s' = s := by
  cases h with
  | nil => rfl

theorem of_cons (h : Follows R s (d :: ds) s') :
    ∃ s₁, R s d.call d.answer s₁ ∧ Follows R s₁ ds s' := by
  cases h with
  | cons first rest => exact ⟨_, first, rest⟩

end Follows

/-- **The view of a world along the deeds of one step**, when the deeds of others do not change it. -/
theorem World.Admits.follows (view : World → σ) {q : StepPath} {w w' : World} {ds : List Deed}
    (h : w.Admits ds w')
    (hother : ∀ d ∈ ds, d.step ≠ some q → ∀ {u u'}, u.Answers d u' → view u' = view u)
    (hown : ∀ d ∈ ds, d.step = some q → ∀ {u u'}, u.Answers d u' →
      R (view u) d.call d.answer (view u')) :
    Follows R (view w) (deedsFor q ds) (view w') := by
  induction h with
  | nil => exact .nil
  | @cons w w₁ w' d ds first _ ih =>
    have hrest := ih (fun d hd => hother d (.tail _ hd)) fun d hd => hown d (.tail _ hd)
    by_cases hq : d.step = some q
    · rw [deedsFor_cons_of_eq hq]
      exact .cons (hown d List.mem_cons_self hq first) hrest
    · rw [deedsFor_cons_of_ne hq, ← hother d List.mem_cons_self hq first]
      exact hrest

/-- **A view together with a count** of the deeds of a kind, where every deed is one that is allowed. -/
structure Counting (R : σ → (c : Call) → c.Answer → σ → Prop) (N : (c : Call) → c.Answer → Prop)
    (φ : (c : Call) → c.Answer → Bool) (s : σ × Nat) (c : Call) (answer : c.Answer) (s' : σ × Nat) :
    Prop where
  view : R s.1 c answer s'.1
  allowed : N c answer
  count : s'.2 = s.2 + (φ c answer).toNat

/-- A count along deeds, carried over the first of them. -/
theorem add_countP_cons (f : Deed → Bool) (n : Nat) (d : Deed) (ds : List Deed) :
    n + (d :: ds).countP f = n + (f d).toNat + ds.countP f := by
  rw [List.countP_cons]
  cases f d with
  | true => simp only [if_true, Bool.toNat_true]; omega
  | false => simp only [Bool.false_eq_true, if_false, Bool.toNat_false]; omega

theorem Follows.counting {N : (c : Call) → c.Answer → Prop} {s s' : σ} {ds : List Deed}
    (φ : (c : Call) → c.Answer → Bool) (h : Follows R s ds s') (hN : ∀ d ∈ ds, N d.call d.answer)
    (n : Nat) :
    Follows (Counting R N φ) (s, n) ds (s', n + ds.countP fun d => φ d.call d.answer) := by
  induction h generalizing n with
  | nil => exact .nil
  | @cons s s₁ s' d ds first _ ih =>
    have hrest := ih (fun d hd => hN d (.tail _ hd)) (n + (φ d.call d.answer).toNat)
    rw [add_countP_cons]
    exact .cons ⟨first, hN d List.mem_cons_self, rfl⟩ hrest

/-! ## Programs -/

/-- **What a program heeds**: at each call, given the view, a statement about the call; and at its end one
    about its outcome. -/
def Program.Heeds (R : σ → (c : Call) → c.Answer → σ → Prop) (P : σ → Call → Prop)
    (Q : α → σ → Prop) : Program α → σ → Prop
  | .done a, s => Q a s
  | .ask c next, s => P s c ∧ ∀ answer s', R s c answer s' → (next answer).Heeds R P Q s'

variable {P : σ → Call → Prop} {Q : α → σ → Prop} {pace : Clock → Clock → Prop}
  {step : Option StepPath} {t : Clock} {p : Program α} {s s' : σ}

/-- What a program heeds holds at its end. -/
theorem Program.Course.heeds {ds : List Deed} {r : Option (α × Clock)}
    (h : Program.Course pace step t p ds r) (hp : p.Heeds R P Q s) (hs : Follows R s ds s') :
    ∀ res ∈ r, Q res.1 s' := by
  induction h generalizing s with
  | stopped => simp
  | done =>
    rw [hs.eq_of_nil]
    intro res hres
    exact Option.some.inj hres ▸ hp
  | ask _ _ _ ih =>
    obtain ⟨s₁, hfirst, hrest⟩ := hs.of_cons
    exact ih (hp.2 _ s₁ hfirst) hrest

/-- What a program heeds holds at each of its calls. -/
theorem Program.Course.heeds_at {pre post : List Deed} {d : Deed} {r : Option (α × Clock)}
    (h : Program.Course pace step t p (pre ++ d :: post) r) (hp : p.Heeds R P Q s)
    (hs : Follows R s pre s') : P s' d.call := by
  induction pre generalizing t p s with
  | nil =>
    rw [hs.eq_of_nil]
    cases h with
    | ask => exact hp.1
  | cons e pre ih =>
    obtain ⟨s₁, hfirst, hrest⟩ := hs.of_cons
    cases h with
    | ask _ _ rest => exact ih rest (hp.2 _ s₁ hfirst) hrest

/-! ## Composition -/

namespace Program

theorem heeds_weaken {Q' : α → σ → Prop} (hp : p.Heeds R P Q s) (hQ : ∀ a s', Q a s' → Q' a s') :
    p.Heeds R P Q' s := by
  induction p generalizing s with
  | done a => exact hQ a s hp
  | ask c next ih => exact ⟨hp.1, fun answer s' h => ih answer (hp.2 answer s' h)⟩

/-- What is said of the calls can be forgotten. -/
theorem heeds_forget (hp : p.Heeds R P Q s) : p.Heeds R (fun _ _ => True) Q s := by
  induction p generalizing s with
  | done a => exact hp
  | ask c next ih => exact ⟨trivial, fun answer s' h => ih answer (hp.2 answer s' h)⟩

theorem heeds_bind {f : α → Program β} {Q' : β → σ → Prop} (hp : p.Heeds R P Q s)
    (hf : ∀ a s', Q a s' → (f a).Heeds R P Q' s') : (p.bind f).Heeds R P Q' s := by
  induction p generalizing s with
  | done a => exact hf a s hp
  | ask c next ih => exact ⟨hp.1, fun answer s' h => ih answer (hp.2 answer s' h)⟩

/-! ## Programs that make only some calls -/

/-- What all calls of a kind keep, a program that makes no others keeps to its end. -/
theorem heeds_of_makes {C : Call → Prop} {E : α → Prop} {I : σ → Prop} (hmakes : p.Makes C)
    (hends : p.Ends E) (hP : ∀ s c, C c → I s → P s c)
    (hI : ∀ s c answer s', C c → I s → R s c answer s' → I s') (hs : I s) :
    p.Heeds R P (fun a s' => E a ∧ I s') s := by
  induction p generalizing s with
  | done a => exact ⟨hends, hs⟩
  | ask c next ih =>
    refine ⟨hP s c hmakes.1 hs, fun answer s' h => ?_⟩
    exact ih answer (hmakes.2 answer) (hends answer) (hI s c answer s' hmakes.1 hs h)

theorem ends_true : ∀ p : Program α, p.Ends fun _ => True
  | .done _ => trivial
  | .ask _ next => fun answer => ends_true (next answer)

theorem Makes.and {C C' : Call → Prop} (h : p.Makes C) (h' : p.Makes C') :
    p.Makes fun c => C c ∧ C' c := by
  induction p with
  | done a => trivial
  | ask c next ih => exact ⟨⟨h.1, h'.1⟩, fun answer => ih answer (h.2 answer) (h'.2 answer)⟩

end Program

/-- What an action heeds. -/
def Action.Heeds (R : σ → (c : Call) → c.Answer → σ → Prop) (P : σ → Call → Prop)
    (Q : Except Fault α → σ → Prop) (a : Action α) (s : σ) : Prop :=
  Program.Heeds R P Q a.outcome s

namespace Action

variable {a : Action α} {f : α → Action β} {Q : Except Fault α → σ → Prop}
  {Q' : Except Fault β → σ → Prop}

/-- One action after the other; the second is not begun when the first fails. -/
theorem heeds_bind (ha : a.Heeds R P Q s) (hf : ∀ v s', Q (.ok v) s' → (f v).Heeds R P Q' s')
    (hfail : ∀ e s', Q (.error e) s' → Q' (.error e) s') : (a >>= f).Heeds R P Q' s := by
  unfold Heeds
  rw [outcome_bind]
  refine Program.heeds_bind ha fun o s' ho => ?_
  cases o with
  | ok v => exact hf v s' ho
  | error e => exact hfail e s' ho

theorem heeds_map {g : α → β} (ha : a.Heeds R P (fun o s' => Q' (o.map g) s') s) :
    (g <$> a).Heeds R P Q' s := by
  refine Program.heeds_bind ha fun o s' ho => ?_
  cases o <;> exact ho

theorem heeds_weaken {Q' : Except Fault α → σ → Prop} (ha : a.Heeds R P Q s)
    (hQ : ∀ o s', Q o s' → Q' o s') : a.Heeds R P Q' s := Program.heeds_weaken ha hQ

theorem heeds_forget (ha : a.Heeds R P Q s) : a.Heeds R (fun _ _ => True) Q s :=
  Program.heeds_forget ha

theorem heeds_lift {p : Program α} (hp : p.Heeds R P (fun v s' => Q (.ok v) s') s) :
    (ExceptT.lift p : Action α).Heeds R P Q s := Program.heeds_bind hp fun _ _ h => h

/-- A single call. -/
theorem heeds_call {c : Call} {Q : Except Fault c.Answer → σ → Prop} (hP : P s c)
    (hQ : ∀ answer s', R s c answer s' → Q (.ok answer) s') : (call c).Heeds R P Q s :=
  ⟨hP, hQ⟩

/-- What all calls of a kind keep, an action that makes no others keeps to its end. -/
theorem heeds_of_makes {C : Call → Prop} {I : σ → Prop} (hmakes : a.Makes C)
    (hP : ∀ s c, C c → I s → P s c)
    (hI : ∀ s c answer s', C c → I s → R s c answer s' → I s') (hs : I s) :
    a.Heeds R P (fun _ s' => I s') s :=
  Program.heeds_weaken (Program.heeds_of_makes hmakes (Program.ends_true _) hP hI hs)
    fun _ _ h => h.2

end Action

/-! ## Exchanges and polls -/

/-- **An exchange**: it is refused before anything is sent, or a request is sent and answered. -/
theorem Dispatch.exchange_heeds {Q : Except Fault Response → σ → Prop} {method url : String}
    {body : Option Value} {headers : Keyed String}
    (hrefused : ∀ name, Q (.error (.typeMismatch (.notWritable name))) s)
    (hcall : P s (.request ⟨method, url, body, headers⟩))
    (hreply : ∀ (reply : Reply) s', R s (.request ⟨method, url, body, headers⟩) reply s' →
      (∀ response, reply.response = .ok response → Q (.ok response) s')
        ∧ ∀ reason, reply.response = .error reason →
          Q (.error (.dispatch (.unreachable method url reason))) s') :
    (exchange method url body headers).Heeds R P Q s := by
  unfold exchange
  split
  · exact hrefused _
  · refine Action.heeds_bind (Q := fun o s' => ∃ reply : Reply, o = .ok reply
      ∧ R s (.request ⟨method, url, body, headers⟩) reply s')
      (Action.heeds_call hcall fun reply s' h => ⟨reply, rfl, h⟩) ?_ ?_
    · rintro reply s' ⟨_, hreply', h⟩
      obtain rfl := Except.ok.inj hreply'
      split
      · next response hresponse => exact (hreply reply s' h).1 response hresponse
      · next reason hreason => exact (hreply reply s' h).2 reason hreason
    · rintro e s' ⟨reply, h, -⟩
      exact absurd h (by simp)

/-- **A status reply** that shows something came with success. -/
theorem Dispatch.statusReply_heeds {J : σ → Prop} {G : Value → σ → Prop} {url what : String} (hs : J s)
    (hcall : P s (.request ⟨"GET", url, none, []⟩))
    (hreply : ∀ (reply : Reply) s', R s (.request ⟨"GET", url, none, []⟩) reply s' →
      J s' ∧ ∀ response, reply.response = .ok response → response.isSuccess = true → G response.json s') :
    (statusReply url what).Heeds R P
      (fun o s' => J s' ∧ ∀ data, o = .ok (some data) → G data s') s := by
  unfold statusReply
  refine Action.heeds_bind (Q := fun o s' => J s' ∧ ∀ response, o = .ok response →
    response.isSuccess = true → G response.json s') ?_ ?_ fun e s' h => ⟨h.1, by simp⟩
  · refine exchange_heeds (fun name => ⟨hs, by simp⟩) hcall fun reply s' hstep => ?_
    obtain ⟨hJ, hG⟩ := hreply reply s' hstep
    refine ⟨fun response hresponse => ⟨hJ, fun r hr => ?_⟩, fun reason _ => ⟨hJ, by simp⟩⟩
    obtain rfl := Except.ok.inj hr
    exact hG response hresponse
  · rintro response s' ⟨hJ, hG⟩
    split
    · exact ⟨hJ, by simp⟩
    · by_cases hsuccess : response.isSuccess = true
      · rw [requireSuccess, if_pos hsuccess]
        show (if _ then _ else _ : Action (Option Value)).Heeds ..
        split
        · refine ⟨hJ, fun data hdata => ?_⟩
          obtain rfl := Option.some.inj (Except.ok.inj hdata)
          exact hG response rfl hsuccess
        · exact ⟨hJ, by simp⟩
      · rw [requireSuccess, if_neg hsuccess]
        exact ⟨hJ, by simp⟩

/-- What a look shows is read field by field. -/
theorem Observation.ofFields_eq_ok {fields : Keyed Value} {o : Observation}
    (h : ofFields fields = .ok o) :
    Decode.option fields "status" Decode.text = .ok o.status
      ∧ Decode.optional fields "output" Value.null Decode.anything = .ok o.output
      ∧ Decode.optional fields "error" Value.null Decode.anything = .ok o.error
      ∧ Decode.optional fields "metadata" [] Decode.dictionary = .ok o.metadata := by
  simp only [ofFields, Checked.seq_eq_ok, Checked.map_eq_ok] at h
  obtain ⟨_, _, ⟨_, _, ⟨_, _, ⟨_, hstatus, rfl⟩, houtput, rfl⟩, herror, rfl⟩, hmetadata, rfl⟩ := h
  exact ⟨hstatus, houtput, herror, hmetadata⟩

/-- A wait that observers see does not fail. -/
theorem Action.observedPause_heeds {I : σ → Prop} {seconds : Float}
    (hP : ∀ s, I s → P s (.note (.sleep seconds)) ∧ P s (.pause seconds))
    (hnote : ∀ s answer s', I s → R s (.note (.sleep seconds)) answer s' → I s')
    (hpause : ∀ s answer s', I s → R s (.pause seconds) answer s' → I s') (hs : I s) :
    (observedPause seconds).Heeds R P (fun o s' => I s' ∧ o = .ok ()) s := by
  refine heeds_bind (Q := fun o s' => I s' ∧ o = .ok ())
    (heeds_call (hP s hs).1 fun answer s' h => ⟨hnote s answer s' hs h, rfl⟩) ?_
    fun _ _ h => absurd h.2 (by simp)
  rintro - s' ⟨hs', -⟩
  exact heeds_call (hP s' hs').2 fun answer s'' h => ⟨hpause s' answer s'' hs' h, rfl⟩

/-- What every step of the view keeps is kept by a program. -/
theorem Program.heeds_stable {J : σ → Prop} (hJ : ∀ s c answer s', J s → R s c answer s' → J s')
    (hp : p.Heeds R P Q s) (hs : J s) : p.Heeds R P (fun a s' => Q a s' ∧ J s') s := by
  induction p generalizing s with
  | done a => exact ⟨hp, hs⟩
  | ask c next ih => exact ⟨hp.1, fun answer s' h => ih answer (hp.2 answer s' h) (hJ _ _ _ _ hs h)⟩

section

variable {I : σ → Prop} {E : Observation → σ → Prop} {F : Fault → Prop} {look : Action Observation}
  {sleep : Float → Action Unit}

/-- **What a result shows**, given what the looks have shown: the last look saw the end, or there was no
    more time to look. -/
inductive PollResult.Shows (E : Observation → Prop) : PollResult → Prop where
  | settled {o : Observation} {attempts : Nat} {elapsedMs : Float} (hdone : o.isDone = true) (ho : E o) :
      Shows E (.settled o attempts elapsedMs)
  | timedOut {last : Option Observation} {attempts : Nat} {elapsedMs : Float} (hlast : ∀ o ∈ last, E o) :
      Shows E (.timedOut last attempts elapsedMs)

/-- A result of success shows a look that saw it. -/
theorem PollResult.Shows.of_completed {E : Observation → Prop} {r : PollResult} (h : r.Shows E)
    (hr : r.outcome = .completed) :
    ∃ o, E o ∧ Observation.isSuccessful o.status = true ∧ r.output = o.output := by
  cases h with
  | @settled o _ _ hdone ho =>
    refine ⟨o, ho, ?_, rfl⟩
    by_contra hfailed
    simp [PollResult.settled, hfailed] at hr
  | timedOut => exact absurd hr (by simp [PollResult.timedOut])

/-- Any other result shows that time ran out, or a look that saw the failure. -/
theorem PollResult.Shows.of_not_completed {E : Observation → Prop} {r : PollResult} (h : r.Shows E)
    (hr : r.outcome ≠ .completed) :
    r.outcome = .timeout ∨ ∃ o, E o ∧ o.status = some "failed" ∧ r.error = o.error := by
  cases h with
  | @settled o _ _ hdone ho =>
    refine .inr ⟨o, ho, ?_, rfl⟩
    rcases Bool.or_eq_true_iff.mp hdone with hsuccess | hfailed
    · exact absurd (by simp [PollResult.settled, hsuccess]) hr
    · exact of_decide_eq_true hfailed
  | timedOut => exact .inl rfl

theorem elapsedSince_heeds {I : σ → Prop} {started : Clock} (hclock : ∀ s, I s → P s .clock)
    (hkeeps : ∀ s now s', I s → R s .clock now s' → I s') (hs : I s) :
    (elapsedSince started).Heeds R P (fun o s' => I s' ∧ ∃ elapsed, o = .ok elapsed) s := by
  unfold elapsedSince
  refine Action.heeds_bind (Q := fun o s' => I s' ∧ ∃ now, o = .ok now)
    (Action.heeds_call (hclock s hs) fun now s' h => ⟨hkeeps s now s' hs h, _, rfl⟩) ?_ ?_
  · exact fun _ _ h => ⟨h.1, _, rfl⟩
  · exact fun _ _ h => absurd h.2 (by simp)

/-! ### Polls -/

section

variable {b : PollBounds}
  (hstable : ∀ v s c answer s', E v s → R s c answer s' → E v s') (hclock : ∀ s, I s → P s .clock)
  (hkeeps : ∀ s now s', I s → R s .clock now s' → I s')

include hstable hclock hkeeps in
/-- Whatever was seen so far is kept in mind while the clock is read. -/
theorem elapsedSince_bears (started : Clock) {last : Option Observation} (hs : I s ∧ ∀ v ∈ last, E v s) :
    (elapsedSince started).Heeds R P
      (fun o s' => (I s' ∧ ∀ v ∈ last, E v s') ∧ ∃ elapsed, o = .ok elapsed) s :=
  elapsedSince_heeds (I := fun s => I s ∧ ∀ v ∈ last, E v s) (fun s h => hclock s h.1)
    (fun s now s' h hstep =>
      ⟨hkeeps s now s' h.1 hstep, fun v hv => hstable v s .clock now s' (h.2 v hv) hstep⟩) hs

variable (hlook : ∀ s, I s → look.Heeds R P (fun o s' => I s' ∧ ∀ v, o = .ok v → E v s') s)
  (hpause : ∀ elapsed f, b.pause? elapsed = .error f → F f)
  (hsleep : ∀ seconds s, I s → (sleep seconds).Heeds R P (fun o s' => I s' ∧ ∀ f, o = .error f → F f) s)

include hstable hclock hkeeps hlook hpause hsleep

/-- The rounds of a poll, by induction on the number of looks that are left. -/
theorem pollLoop_heeds (started : Clock) (left : Nat) : ∀ {attempts : Nat} {s : σ}, I s →
    (pollLoop look sleep b started left attempts).Heeds R P
      (fun o s' => I s' ∧ (∀ r, o = .ok r → r.Shows fun v => E v s') ∧ ∀ f, o = .error f → F f) s := by
  have helapsed {last : Option Observation} {s : σ} (hs : I s ∧ ∀ v ∈ last, E v s) :=
    elapsedSince_bears hstable hclock hkeeps started hs
  have htimedOut {last : Option Observation} {attempts : Nat} {elapsedMs : Float} {s : σ}
      (hs : I s ∧ ∀ v ∈ last, E v s) : I s
        ∧ (∀ r, (.ok (.timedOut last attempts elapsedMs) : Except Fault PollResult) = .ok r →
          r.Shows fun v => E v s)
        ∧ ∀ f, (.ok (.timedOut last attempts elapsedMs) : Except Fault PollResult) = .error f → F f :=
    ⟨hs.1, fun r hr => Except.ok.inj hr ▸ .timedOut hs.2, by simp⟩
  induction left with
  | zero =>
    intro attempts s hs
    have hnone : I s ∧ ∀ v ∈ (none : Option Observation), E v s := ⟨hs, by simp⟩
    refine Action.heeds_bind (helapsed hnone) ?_ fun _ _ h => absurd h.2 (by simp)
    exact fun _ s' hs' => htimedOut hs'.1
  | succ left ih =>
    intro attempts s hs
    unfold pollLoop
    refine Action.heeds_bind (Q := fun found s' => I s'
      ∧ ∃ o : Except Fault Observation, found = .ok o ∧ ∀ v ∈ o.toOption, E v s') ?_ ?_
      fun _ _ h => absurd h.2 (by simp)
    · refine Action.heeds_lift (Program.heeds_weaken (hlook s hs) fun o s' h => ⟨h.1, o, rfl, ?_⟩)
      intro v hv
      cases o with
      | error f => simp [Except.toOption] at hv
      | ok w => exact h.2 v (by rw [Option.some.inj hv])
    · rintro seen s' ⟨hs', o, hseen, ho⟩
      obtain rfl := Except.ok.inj hseen
      refine Action.heeds_bind (helapsed ⟨hs', ho⟩) ?_ fun _ _ h => absurd h.2 (by simp)
      rintro elapsed s₂ ⟨hs₂, -⟩
      split
      · next v hv =>
        obtain ⟨hseen, hdone⟩ := Option.filter_eq_some_iff.mp hv
        exact ⟨hs₂.1, fun r hr => Except.ok.inj hr ▸ .settled hdone (hs₂.2 v hseen), by simp⟩
      · split
        · exact htimedOut hs₂
        · refine Action.heeds_bind (Q := fun pause s' => (I s' ∧ ∀ v ∈ seen.toOption, E v s')
            ∧ pause = b.pause? elapsed) ⟨hs₂, rfl⟩ ?_
            fun e _ h => ⟨h.1.1, by simp, fun f hf => Except.error.inj hf ▸ hpause elapsed e h.2.symm⟩
          rintro pause s₃ ⟨hs₃, -⟩
          split
          · exact htimedOut hs₃
          · next seconds =>
            -- what was seen is kept in mind during the wait, too
            have hslept := Program.heeds_stable
              (fun s c answer s' (h : ∀ v ∈ seen.toOption, E v s) hstep v hv =>
                hstable v s c answer s' (h v hv) hstep) (hsleep seconds s₃ hs₃.1) hs₃.2
            refine Action.heeds_bind hslept ?_ fun _ _ h =>
              ⟨h.1.1, by simp, fun f hf => h.1.2 f (by rw [Except.error.inj hf])⟩
            rintro - s₄ ⟨⟨hs₄, -⟩, ho₄⟩
            refine Action.heeds_bind (helapsed ⟨hs₄, ho₄⟩) ?_ fun _ _ h => absurd h.2 (by simp)
            rintro elapsed s₅ ⟨hs₅, -⟩
            split
            · exact htimedOut hs₅
            · exact ih hs₅.1

/-- **What every look and every wait keeps, a poll keeps**; its result shows what the looks have shown. It
    fails only as its waits do. -/
theorem pollUntilDone_heeds (hs : I s) :
    (pollUntilDone look sleep b).Heeds R P
      (fun o s' => I s' ∧ (∀ r, o = .ok r → r.Shows fun v => E v s')
        ∧ ∀ f, o = .error f → F f) s := by
  refine Action.heeds_bind (Q := fun o s' => I s' ∧ ∃ now, o = .ok now)
    (Action.heeds_call (hclock s hs) fun now s' h => ⟨hkeeps s now s' hs h, _, rfl⟩) ?_
    fun _ _ h => absurd h.2 (by simp)
  exact fun started s' hs' => pollLoop_heeds hstable hclock hkeeps hlook hpause hsleep started _ hs'.1

end

end

end

end Runbook
