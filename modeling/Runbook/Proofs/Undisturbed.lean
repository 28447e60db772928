import Runbook.Proofs.JobWrites
import Runbook.Proofs.Settling

/-!
# `Proofs.Undisturbed` — programs that run while nobody else touches a job

While a program carries out a job, others act as well: they move the clock, answer requests and write records of
other jobs. All that is asked of them is to leave the record of this one alone. Then what the program finds of
the job is what it wrote itself, whatever the others do and whatever the remote side answers.

## Contents
- **Others.** `World.SameJob`, others acted but not on the job; `World.Amid`, a deed in the midst of others.
- **Passes.** `Program.Passes`, a program that comes to its end amid others, with `of_bind` and its like.
- **Writes of the job.** `Stores.Keeps.passes_setJob`, `passes_updateJob` and `passes_getJob`.
- **Programs that leave the job to others.** `Action.LeavesJob`, and `Passes.leaves`, by induction on the pass.
- **Runs alone.** `Program.passes_runAlone`: who is alone is not disturbed.
-/

namespace Runbook

section

variable {α β : Type} {id : String} {b : Backend} {found : Option JobRecord} {r : JobRecord} {w w₁ w' : World}

/-! ## Others -/

/-- **Others have acted, but not on the job**: the stores are as open as they were, and hold the same record of
    it. -/
structure World.SameJob (id : String) (w u : World) : Prop where
  isOpen : u.stores.isOpen = w.stores.isOpen
  backend : u.stores.jobs.backend = w.stores.jobs.backend
  sound : w.stores.jobs.Sound → u.stores.jobs.Sound
  get : u.stores.jobs.get id = w.stores.jobs.get id

theorem World.SameJob.refl (id : String) (w : World) : w.SameJob id w := ⟨rfl, rfl, fun h => h, rfl⟩

/-- What is kept of the job is kept while others act. -/
theorem Stores.Keeps.sameJob (h : w.stores.Keeps b id found) (hsame : World.SameJob id w w') :
    w'.stores.Keeps b id found where
  isOpen := hsame.isOpen.trans h.isOpen
  backend := hsame.backend.trans h.backend
  sound := hsame.sound h.sound
  get := hsame.get.trans h.get
  writable := h.writable

/-- **A number that is given out** names a new job, and not this one. -/
def Call.Fresh (id : String) : (c : Call) → c.Answer → Prop
  | .freshId, n => "job-" ++ Dispatch.hexId n ≠ id
  | _, _ => True

/-- **A deed in the midst of others**, who leave the job alone. It is done in time for a stamp to be made. -/
structure World.Amid (id : String) (w : World) (d : Deed) (w' : World) : Prop where
  answers : ∃ u, World.SameJob id w u ∧ u.Answers d w'
  fresh : d.call.Fresh id d.answer
  timely : w'.clock < Stamp.lastMicro

/-- What does not operate on the stores leaves what is kept of a job. -/
theorem Stores.Keeps.amid {d : Deed} (h : w.stores.Keeps b id found) (hd : World.Amid id w d w')
    (hcall : d.call.usesStore = false) : w'.stores.Keeps b id found := by
  obtain ⟨u, hsame, hanswers⟩ := hd.answers
  obtain ⟨hjobs, hopen⟩ := hanswers.jobs_eq (.inl hcall)
  exact (h.sameJob hsame).of_jobs_eq (hopen.trans (h.sameJob hsame).isOpen) hjobs

/-! ## Passes -/

/-- **A program comes to its end** in the midst of others, who leave a job alone: its deeds, its outcome, and the
    world then. -/
inductive Program.Passes (id : String) : Program α → World → List Deed → α → World → Prop where
  | done {a : α} {w : World} : Passes id (.done a) w [] a w
  | ask {c : Call} {next : c.Answer → Program α} {answer : c.Answer} {step : Option StepPath} {start stop : Clock}
      {a : α} {w w₁ w' : World} {ds : List Deed} (first : World.Amid id w ⟨step, c, answer, start, stop⟩ w₁)
      (rest : Passes id (next answer) w₁ ds a w') :
      Passes id (.ask c next) w (⟨step, c, answer, start, stop⟩ :: ds) a w'

/-- An action comes to its end in the midst of others. -/
def Action.Passes (id : String) (a : Action α) (w : World) (ds : List Deed) (o : Except Fault α) (w' : World) :
    Prop := Program.Passes id a.outcome w ds o w'

namespace Program.Passes

variable {p : Program α} {ds : List Deed} {a a' : α} {v : β}

theorem of_done (h : Program.Passes id (.done a) w ds a' w') : ds = [] ∧ a' = a ∧ w' = w := by
  cases h with
  | done => exact ⟨rfl, rfl, rfl⟩

/-- One program after the other. -/
theorem of_bind {f : α → Program β} (h : Program.Passes id (p.bind f) w ds v w') :
    ∃ a w₁ es fs, ds = es ++ fs ∧ Program.Passes id p w es a w₁ ∧ Program.Passes id (f a) w₁ fs v w' := by
  induction p generalizing w ds with
  | done a => exact ⟨a, w, [], ds, rfl, .done, h⟩
  | ask c next ih =>
    cases h with
    | ask first rest =>
      obtain ⟨a, w₁, es, fs, rfl, hes, hfs⟩ := ih _ rest
      exact ⟨a, w₁, _, fs, rfl, .ask first hes, hfs⟩

/-- A program that passes comes to one of its ends. -/
theorem ends {P : α → Prop} (h : Program.Passes id p w ds a w') (hp : p.Ends P) : P a := by
  induction h with
  | done => exact hp
  | ask _ _ ih => exact ih (hp _)

end Program.Passes

namespace Action.Passes

variable {a : Action α} {f : α → Action β} {ds : List Deed} {o : Except Fault α} {o' : Except Fault β}
  {op : StoreOp} {updates : Keyed Value}

theorem of_pure {v : α} (h : Action.Passes id (pure v) w ds o w') : ds = [] ∧ o = .ok v ∧ w' = w :=
  Program.Passes.of_done h

theorem of_throw {f : Fault} (h : Action.Passes id (throw f : Action α) w ds o w') :
    ds = [] ∧ o = .error f ∧ w' = w := Program.Passes.of_done h

theorem of_ofExcept {e : Except Fault α} (h : Action.Passes id (Action.ofExcept e) w ds o w') :
    ds = [] ∧ o = e ∧ w' = w := Program.Passes.of_done h

/-- **One action after the other**; the second is not begun when the first fails. -/
theorem of_bind (h : Action.Passes id (a >>= f) w ds o' w') :
    (∃ v w₁ es fs, ds = es ++ fs ∧ a.Passes id w es (.ok v) w₁ ∧ (f v).Passes id w₁ fs o' w')
      ∨ ∃ e, o' = .error e ∧ a.Passes id w ds (.error e) w' := by
  unfold Action.Passes at h
  rw [Action.outcome_bind] at h
  obtain ⟨o, w₁, es, fs, rfl, hes, hfs⟩ := Program.Passes.of_bind h
  cases o with
  | ok v => exact .inl ⟨v, w₁, es, fs, rfl, hes, hfs⟩
  | error e =>
    obtain ⟨rfl, rfl, rfl⟩ := Program.Passes.of_done hfs
    exact .inr ⟨e, rfl, by rwa [List.append_nil]⟩

theorem of_map {g : α → β} (h : Action.Passes id (g <$> a) w ds o' w') :
    ∃ o, a.Passes id w ds o w' ∧ o' = o.map g := by
  obtain ⟨o, w₁, es, fs, rfl, hes, hfs⟩ := Program.Passes.of_bind h
  refine ⟨o, ?_⟩
  cases o <;> obtain ⟨rfl, rfl, rfl⟩ := Program.Passes.of_done hfs <;> exact ⟨by rwa [List.append_nil], rfl⟩

/-- **One action after another that does not fail.** -/
theorem of_bind_ok (h : Action.Passes id (a >>= f) w ds o' w')
    (hok : ∀ {es : List Deed} {e : Fault} {w₁ : World}, ¬ a.Passes id w es (.error e) w₁) :
    ∃ v w₁ es fs, ds = es ++ fs ∧ a.Passes id w es (.ok v) w₁ ∧ (f v).Passes id w₁ fs o' w' := by
  rcases of_bind h with hboth | ⟨e, -, hfailed⟩
  · exact hboth
  · exact absurd hfailed hok

/-- What follows a program, which does not fail. -/
theorem of_lift_bind {γ : Type} {p : Program γ} {f : γ → Action β}
    (h : Action.Passes id (ExceptT.lift p >>= f) w ds o' w') :
    ∃ v w₁ es fs, ds = es ++ fs ∧ Program.Passes id p w es v w₁ ∧ (f v).Passes id w₁ fs o' w' := by
  unfold Action.Passes at h
  rw [Action.outcome_lift_bind] at h
  exact Program.Passes.of_bind h

/-- What follows a call. -/
theorem of_call_bind {c : Call} {f : c.Answer → Action β} (h : Action.Passes id (Action.call c >>= f) w ds o' w') :
    ∃ d answer w₁ fs, ds = d :: fs ∧ d.call = c ∧ World.Amid id w d w₁ ∧ (f answer).Passes id w₁ fs o' w' := by
  obtain ⟨answer, w₁, es, fs, rfl, hcall, hrest⟩ := of_lift_bind h
  cases hcall with
  | ask first rest =>
    obtain ⟨rfl, rfl, rfl⟩ := Program.Passes.of_done rest
    exact ⟨_, _, _, fs, rfl, rfl, first, hrest⟩

/-- A single operation on the stores is carried out on what others have left. -/
theorem of_store {o : Except Fault StoreAnswer} (h : Action.Passes id (Action.store op) w ds o w') :
    ∃ d u, ds = [d] ∧ d.call = .store op ∧ World.SameJob id w u ∧ w'.clock < Stamp.lastMicro
      ∧ u.stores.perform w'.stamp op = (o, w'.stores) := by
  cases h with
  | ask first rest =>
    obtain ⟨rfl, rfl, rfl⟩ := Program.Passes.of_done rest
    obtain ⟨u, hsame, hanswers⟩ := first.answers
    obtain ⟨hanswer, hstores⟩ := hanswers.store
    exact ⟨_, u, rfl, rfl, hsame, first.timely, Prod.ext hanswer.symm hstores.symm⟩

end Action.Passes

/-! ## Writes of the job -/

namespace Stores.Keeps

variable {updates : Keyed Value} {ds : List Deed} {e : JobRecord}

/-- **A job is set** amid others. -/
theorem passes_setJob {o : Except Fault Unit} (h : w.stores.Keeps b id found)
    (hpasses : (Action.setJob id updates).Passes id w ds o w')
    (hr : JobRecord.update found id updates w'.stamp = .ok r) (hwritable : b ≠ .memory → r.Writable) :
    o = .ok () ∧ ds.map Deed.call = [.store (.setJob id updates)]
      ∧ w'.stores.Keeps b id (some (b.keepsJob r)) := by
  obtain ⟨answer, hstore, rfl⟩ := Action.Passes.of_map hpasses
  obtain ⟨d, u, rfl, hcall, hsame, htimely, hperform⟩ := hstore.of_store
  obtain ⟨s, hset, hkeeps⟩ := (h.sameJob hsame).setJob htimely hr hwritable
  obtain ⟨rfl, rfl⟩ := Prod.mk.inj (hperform.symm.trans hset)
  exact ⟨rfl, by rw [List.map_singleton, hcall], hkeeps⟩

/-- **A job that exists is updated** amid others. -/
theorem passes_updateJob {o : Except Fault Unit} (h : w.stores.Keeps b id (some e))
    (hpasses : (Action.updateJob id updates).Passes id w ds o w')
    (hr : JobRecord.update (some e) id updates w'.stamp = .ok r) (hwritable : b ≠ .memory → r.Writable) :
    o = .ok () ∧ ds.map Deed.call = [.store (.updateJob id updates)]
      ∧ w'.stores.Keeps b id (some (b.keepsJob r)) := by
  obtain ⟨answer, hstore, rfl⟩ := Action.Passes.of_map hpasses
  obtain ⟨d, u, rfl, hcall, hsame, htimely, hperform⟩ := hstore.of_store
  obtain ⟨s, hset, hkeeps⟩ := (h.sameJob hsame).updateJob htimely hr hwritable
  obtain ⟨rfl, rfl⟩ := Prod.mk.inj (hperform.symm.trans hset)
  exact ⟨rfl, by rw [List.map_singleton, hcall], hkeeps⟩

/-- **A look at the job** finds what is kept of it. -/
theorem passes_getJob {o : Except Fault (Option JobRecord)} (h : w.stores.Keeps b id found)
    (hpasses : (Action.getJob id).Passes id w ds o w') :
    o = .ok found ∧ ds.map Deed.call = [.store (.getJob id)] ∧ w'.stores.Keeps b id found := by
  -- the stores answer with the record, and change nothing
  have hlook {es : List Deed} {answer : Except Fault StoreAnswer} {w₁ : World}
      (hstore : (Action.store (.getJob id)).Passes id w es answer w₁) :
      answer = .ok (.job found) ∧ es.map Deed.call = [.store (.getJob id)]
        ∧ w₁.stores.Keeps b id found := by
    obtain ⟨d, u, rfl, hcall, hsame, -, hperform⟩ := hstore.of_store
    have hkept := h.sameJob hsame
    rw [Stores.perform, if_pos hkept.isOpen, Stores.performOpen, Stores.reading, hkept.get] at hperform
    obtain ⟨rfl, hstores⟩ := Prod.mk.inj hperform
    exact ⟨rfl, by rw [List.map_singleton, hcall], hstores ▸ hkept⟩
  obtain ⟨answer, w₁, es, fs, rfl, hstore, hrest⟩ := Action.Passes.of_bind_ok hpasses fun hfailed =>
    absurd (hlook hfailed).1 (by simp)
  obtain ⟨hanswer, hcalls, hkept⟩ := hlook hstore
  obtain rfl := Except.ok.inj hanswer
  obtain ⟨rfl, rfl, rfl⟩ := Action.Passes.of_pure hrest
  exact ⟨rfl, by rw [List.append_nil, hcalls], hkept⟩

end Stores.Keeps

/-! ## Programs that leave the job to others -/

/-- Calls that leave it to others how a job ends. -/
def Call.LeavesOutcome (id : String) : Call → Prop
  | .store op => op.LeavesOutcome id
  | _ => True

/-- **An action that leaves it to others how a job ends**, whatever it is answered. -/
def Action.LeavesJob (id : String) (a : Action α) : Prop :=
  a.Heeds (fun (_ : Unit) c answer _ => c.Fresh id answer) (fun _ c => c.LeavesOutcome id)
    (fun _ _ => True) ()

/-- A deed that leaves the outcome alone leaves a record with the same outcome. -/
theorem Stores.Keeps.amid_leaves {d : Deed} (h : w.stores.Keeps b id (some r)) (hd : World.Amid id w d w')
    (hcall : d.call.LeavesOutcome id) : ∃ r', w'.stores.Keeps b id (some r') ∧ r.SameOutcome r' := by
  by_cases huses : d.call.usesStore = false
  · exact ⟨r, h.amid hd huses, .refl r⟩
  obtain ⟨u, hsame, hanswers⟩ := hd.answers
  obtain ⟨step, c, answer, start, stop⟩ := d
  cases c with
  | store op =>
    obtain ⟨-, hstores⟩ := hanswers.store
    rw [hstores]
    exact (h.sameJob hsame).leaves hcall hd.timely
  | _ => exact absurd rfl huses

/-- **Whoever leaves the job to others** leaves a record with the same outcome, by induction on the pass. -/
theorem Program.Passes.leaves {p : Program α} {ds : List Deed} {a : α} (hpasses : Program.Passes id p w ds a w')
    (hp : p.Heeds (fun (_ : Unit) c answer _ => c.Fresh id answer) (fun _ c => c.LeavesOutcome id)
      (fun _ _ => True) ())
    (h : w.stores.Keeps b id (some r)) : ∃ r', w'.stores.Keeps b id (some r') ∧ r.SameOutcome r' := by
  induction hpasses generalizing r with
  | done => exact ⟨r, h, .refl r⟩
  | ask first _ ih =>
    obtain ⟨r₁, hkeeps, hsame⟩ := h.amid_leaves first hp.1
    obtain ⟨r', hkeeps', hsame'⟩ := ih (hp.2 _ () first.fresh) hkeeps
    exact ⟨r', hkeeps', hsame.trans hsame'⟩

/-! ## Runs alone -/

/-- What a program does when it runs alone. -/
def Program.deedsAlone : Program α → World → List Deed
  | .done _, _ => []
  | .ask c next, w =>
    ⟨none, c, (w.alone c).1, (w.alone c).2.clock, (w.alone c).2.clock⟩
      :: (next (w.alone c).1).deedsAlone (w.alone c).2

/-- **Who is alone is not disturbed**: a program that runs alone passes, when there is time to its end and no
    number that is given out names the job. -/
theorem Program.passes_deedsAlone (p : Program α) (w : World) (hid : ∀ n, "job-" ++ Dispatch.hexId n ≠ id)
    (htime : (p.runAlone w).2.clock < Stamp.lastMicro) :
    Program.Passes id p w (p.deedsAlone w) (p.runAlone w).1 (p.runAlone w).2 := by
  induction p generalizing w with
  | done a => exact .done
  | ask c next ih =>
    rw [runAlone_ask] at htime ⊢
    refine .ask ⟨⟨w, .refl id w, w.answers_alone c⟩, ?_, ?_⟩ (ih _ _ htime)
    · cases c with
      | freshId => exact hid _
      | _ => trivial
    · -- the clock goes forward, so there is time now if there is at the end
      exact Nat.lt_of_le_of_lt (Program.le_clock_runAlone _ _) htime

theorem Program.passes_runAlone (p : Program α) (w : World) (hid : ∀ n, "job-" ++ Dispatch.hexId n ≠ id)
    (htime : (p.runAlone w).2.clock < Stamp.lastMicro) :
    ∃ ds, Program.Passes id p w ds (p.runAlone w).1 (p.runAlone w).2 :=
  ⟨_, p.passes_deedsAlone w hid htime⟩

end

end Runbook
