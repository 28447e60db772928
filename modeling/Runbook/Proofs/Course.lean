import Runbook.Program.World
import Runbook.Proofs.Interleaving

/-!
# `Proofs.Course` — what fibers can do

A fiber does one deed after the other: it makes a call and goes on with the answer. Which answers it
gets, and how long they take, is for the world to say; a course is what a fiber does given its
answers, up to its end or up to the moment when the process is stopped. Fibers side by side do their
deeds in any order.

## Contents
- **Deeds.** `Deed`, a call with its answer and its times.
- **Courses.** `Program.Course`, `Fiber.Course`, and `Fiber.Courses` for fibers side by side. A course
  without an outcome was stopped on the way. The pace says how long a fiber may take between two
  deeds.
- **Cuts.** `Fiber.Course.stop`: what a fiber does up to any moment is a course of it.
- **Composition.** The courses of `bind`, `toFiber`, `andThen` and `fork` are those of their parts, one
  after the other.
- **Actions.** The programs that actions are.
- **Calls and ends.** `Program.Makes`, the calls that a program can make, and `Program.Ends`, how it
  can end.
-/

namespace Runbook

/-- A call that was made on behalf of a step or of none, its answer, and the times of both. -/
structure Deed where
  step : Option StepPath
  call : Call
  answer : call.Answer
  start : Clock
  stop : Clock

/-! ## Courses -/

section

variable (pace : Clock → Clock → Prop)

/-- **What a program can do** from a moment on, its calls made on behalf of a step. -/
inductive Program.Course (step : Option StepPath) {α : Type} :
    Clock → Program α → List Deed → Option (α × Clock) → Prop where
  | stopped {t : Clock} {p : Program α} : Course step t p [] none
  | done {t : Clock} {a : α} : Course step t (.done a) [] (some (a, t))
  | ask {t start stop : Clock} {c : Call} {next : c.Answer → Program α} {answer : c.Answer}
      {ds : List Deed} {r : Option (α × Clock)} (hpace : pace t start) (hstop : start ≤ stop)
      (rest : Course step stop (next answer) ds r) :
      Course step t (.ask c next) (⟨step, c, answer, start, stop⟩ :: ds) r

/-- The outcomes of fibers side by side, once all have ended, and when the last one has. -/
def joined {ρ : Type} : Option (ρ × Clock) → Option (List ρ × Clock) → Option (List ρ × Clock)
  | some (o, t), some (os, u) => some (o :: os, max t u)
  | _, _ => none

mutual
/-- **What a fiber can do** from a moment on. -/
inductive Fiber.Course {ρ : Type} : Clock → Fiber ρ → List Deed → Option (ρ × Clock) → Prop where
  | stopped {t : Clock} {p : Fiber ρ} : Course t p [] none
  | done {t : Clock} {o : ρ} : Course t (.done o) [] (some (o, t))
  | ask {t start stop : Clock} {c : Call} {next : c.Answer → Fiber ρ} {step : Option StepPath}
      {answer : c.Answer} {ds : List Deed} {r : Option (ρ × Clock)} (hpace : pace t start)
      (hstop : start ≤ stop) (rest : Course stop (next answer) ds r) :
      Course t (.ask c next step) (⟨step, c, answer, start, stop⟩ :: ds) r
  | fork {t u : Clock} {branches : List (Fiber ρ)} {next : List ρ → Fiber ρ} {os : List ρ}
      {ds es : List Deed} {r : Option (ρ × Clock)} (inner : Courses t branches ds (some (os, u)))
      (rest : Course u (next os) es r) : Course t (.fork branches next) (ds ++ es) r
  | cut {t : Clock} {branches : List (Fiber ρ)} {next : List ρ → Fiber ρ} {ds : List Deed}
      (inner : Courses t branches ds none) : Course t (.fork branches next) ds none

/-- What fibers can do side by side. -/
inductive Fiber.Courses {ρ : Type} :
    Clock → List (Fiber ρ) → List Deed → Option (List ρ × Clock) → Prop where
  | stopped {t : Clock} {ps : List (Fiber ρ)} : Courses t ps [] none
  | nil {t : Clock} : Courses t [] [] (some ([], t))
  | cons {t : Clock} {p : Fiber ρ} {ps : List (Fiber ρ)} {ds es fs : List Deed}
      {r : Option (ρ × Clock)} {rs : Option (List ρ × Clock)} (first : Course t p ds r)
      (others : Courses t ps es rs) (hfs : Interleaved ds es fs) :
      Courses t (p :: ps) fs (joined r rs)
end

end

variable {pace : Clock → Clock → Prop} {α β ρ : Type} {step : Option StepPath}

/-! ## Cuts -/

theorem joined_none_left (rs : Option (List ρ × Clock)) : joined none rs = none := by
  cases rs <;> rfl

theorem joined_eq_some {r : Option (ρ × Clock)} {rs : Option (List ρ × Clock)} {os : List ρ}
    {t : Clock} (h : joined r rs = some (os, t)) :
    ∃ o os' t₁ t₂, r = some (o, t₁) ∧ rs = some (os', t₂) ∧ os = o :: os' ∧ t = max t₁ t₂ := by
  cases r with
  | none => simp [joined_none_left] at h
  | some first =>
    cases rs with
    | none => simp [joined] at h
    | some others =>
      simp only [joined, Option.some.injEq, Prod.mk.injEq] at h
      exact ⟨_, _, _, _, rfl, rfl, h.1.symm, h.2.symm⟩

mutual
/-- What a fiber does up to any moment is a course of it. -/
theorem Fiber.Course.stop {t : Clock} {p : Fiber ρ} {ds : List Deed} {r : Option (ρ × Clock)} :
    Fiber.Course pace t p ds r → ∀ {es fs : List Deed}, ds = es ++ fs →
    Fiber.Course pace t p es none
  | .stopped, es, fs, h => by
    obtain ⟨rfl, -⟩ := List.append_eq_nil_iff.mp h.symm
    exact .stopped
  | .done, es, fs, h => by
    obtain ⟨rfl, -⟩ := List.append_eq_nil_iff.mp h.symm
    exact .stopped
  | .ask hpace hstop rest, es, fs, h => by
    cases es with
    | nil => exact .stopped
    | cons e es =>
      obtain ⟨rfl, hrest⟩ := List.cons.inj (h.trans (List.cons_append ..))
      exact .ask hpace hstop (rest.stop hrest)
  | .fork inner rest, es, fs, h => by
    rcases List.append_eq_append_iff.mp h with ⟨as, rfl, has⟩ | ⟨bs, hbs, -⟩
    · exact .fork inner (rest.stop has)
    · exact .cut (inner.stop hbs)
  | .cut inner, es, fs, h => .cut (inner.stop h)

/-- What fibers side by side do up to any moment is a course of them. -/
theorem Fiber.Courses.stop {t : Clock} {ps : List (Fiber ρ)} {ds : List Deed}
    {r : Option (List ρ × Clock)} :
    Fiber.Courses pace t ps ds r → ∀ {es fs : List Deed}, ds = es ++ fs →
    Fiber.Courses pace t ps es none
  | .stopped, es, fs, h => by
    obtain ⟨rfl, -⟩ := List.append_eq_nil_iff.mp h.symm
    exact .stopped
  | .nil, es, fs, h => by
    obtain ⟨rfl, -⟩ := List.append_eq_nil_iff.mp h.symm
    exact .stopped
  | .cons first others hfs, es, fs, h => by
    obtain ⟨as₁, as₂, bs₁, bs₂, ha, hb, hi⟩ := hfs.split h
    have := Fiber.Courses.cons (first.stop ha) (others.stop hb) hi
    rwa [joined_none_left] at this
end

/-! ## Composition -/

/-- **One after the other.** A course of two parts: one of the first part that was stopped, or one of
    the first part to its end and one of the second part with its outcome. -/
inductive InTurn {α β : Type} (first : List Deed → Option (α × Clock) → Prop)
    (second : α → Clock → List Deed → Option (β × Clock) → Prop) :
    List Deed → Option (β × Clock) → Prop where
  | first {ds : List Deed} (h : first ds none) : InTurn first second ds none
  | both {a : α} {u : Clock} {ds es : List Deed} {r : Option (β × Clock)}
      (h₁ : first ds (some (a, u))) (h₂ : second a u es r) : InTurn first second (ds ++ es) r

/-- A first part without deeds. -/
theorem InTurn.skip {first : List Deed → Option (α × Clock) → Prop}
    {second : α → Clock → List Deed → Option (β × Clock) → Prop} {a : α} {u : Clock}
    {ds : List Deed} {r : Option (β × Clock)} (h₁ : first [] (some (a, u))) (h₂ : second a u ds r) :
    InTurn first second ds r := .both h₁ h₂

/-- A deed more at the beginning of the first part. -/
theorem InTurn.cons {first first' : List Deed → Option (α × Clock) → Prop}
    {second : α → Clock → List Deed → Option (β × Clock) → Prop} {ds : List Deed} {d : Deed}
    {r : Option (β × Clock)} (h : InTurn first second ds r)
    (hd : ∀ {ds r}, first ds r → first' (d :: ds) r) : InTurn first' second (d :: ds) r := by
  cases h with
  | first h => exact .first (hd h)
  | both h₁ h₂ => exact .both (hd h₁) h₂

theorem Program.Course.of_bind {p : Program α} {f : α → Program β} :
    ∀ {t : Clock} {ds : List Deed} {r : Option (β × Clock)},
    Program.Course pace step t (p.bind f) ds r →
    InTurn (Program.Course pace step t p) (fun a u => Program.Course pace step u (f a)) ds r := by
  induction p with
  | done a => intro t ds r h; exact .skip .done h
  | ask c next ih =>
    intro t ds r h
    cases h with
    | stopped => exact .first .stopped
    | ask hpace hstop rest => exact (ih _ rest).cons (.ask hpace hstop)

theorem Fiber.Course.of_toFiber {p : Program α} {f : α → Fiber ρ} :
    ∀ {t : Clock} {ds : List Deed} {r : Option (ρ × Clock)},
    Fiber.Course pace t (p.toFiber step f) ds r →
    InTurn (Program.Course pace step t p) (fun a u => Fiber.Course pace u (f a)) ds r := by
  induction p with
  | done a => intro t ds r h; exact .skip .done h
  | ask c next ih =>
    intro t ds r h
    cases h with
    | stopped => exact .first .stopped
    | ask hpace hstop rest => exact (ih _ rest).cons (.ask hpace hstop)

/-- A fiber that ends with the outcome of a program. -/
theorem Fiber.Course.of_toFiber_done {p : Program ρ} :
    ∀ {t : Clock} {ds : List Deed} {r : Option (ρ × Clock)},
    Fiber.Course pace t (p.toFiber step .done) ds r → Program.Course pace step t p ds r := by
  induction p with
  | done a =>
    intro t ds r h
    cases h with
    | stopped => exact .stopped
    | done => exact .done
  | ask c next ih =>
    intro t ds r h
    cases h with
    | stopped => exact .stopped
    | ask hpace hstop rest => exact .ask hpace hstop (ih _ rest)

theorem Fiber.Course.of_andThen {p : Fiber ρ} {f : ρ → Fiber ρ} :
    ∀ {t : Clock} {ds : List Deed} {r : Option (ρ × Clock)},
    Fiber.Course pace t (p.andThen f) ds r →
    InTurn (Fiber.Course pace t p) (fun o u => Fiber.Course pace u (f o)) ds r := by
  induction p using Fiber.rec (motive_2 := fun _ => True) with
  | done o => intro t ds r h; exact .skip .done h
  | ask c next step ih =>
    intro t ds r h
    cases h with
    | stopped => exact .first .stopped
    | ask hpace hstop rest => exact (ih _ rest).cons (.ask hpace hstop)
  | fork branches next _ ih =>
    intro t ds r h
    cases h with
    | stopped => exact .first .stopped
    | cut inner => exact .first (.cut inner)
    | fork inner rest =>
      cases ih _ rest with
      | first h => exact .first (.fork inner h)
      | both h₁ h₂ => rw [← List.append_assoc]; exact .both (.fork inner h₁) h₂
  | nil => trivial
  | cons => trivial

/-- Fibers side by side, and what follows when all of them have ended. -/
theorem Fiber.Course.of_fork {branches : List (Fiber ρ)} {next : List ρ → Fiber ρ} {t : Clock}
    {ds : List Deed} {r : Option (ρ × Clock)} (h : Fiber.Course pace t (.fork branches next) ds r) :
    InTurn (Fiber.Courses pace t branches) (fun os u => Fiber.Course pace u (next os)) ds r := by
  cases h with
  | stopped => exact .first .stopped
  | cut inner => exact .first inner
  | fork inner rest => exact .both inner rest

/-- Fibers side by side that have all ended. -/
theorem Fiber.Courses.of_cons {p : Fiber ρ} {ps : List (Fiber ρ)} {t u : Clock} {ds : List Deed}
    {os : List ρ} (h : Fiber.Courses pace t (p :: ps) ds (some (os, u))) :
    ∃ o os' t₁ t₂ es fs, os = o :: os' ∧ u = max t₁ t₂ ∧ Fiber.Course pace t p es (some (o, t₁))
      ∧ Fiber.Courses pace t ps fs (some (os', t₂)) ∧ Interleaved es fs ds := by
  generalize hr : some (os, u) = r at h
  cases h with
  | stopped => exact absurd hr (by simp)
  | cons first others hfs =>
    obtain ⟨o, os', t₁, t₂, rfl, rfl, hos, hu⟩ := joined_eq_some hr.symm
    exact ⟨o, os', t₁, t₂, _, _, hos, hu, first, others, hfs⟩

/-- The courses of a fiber that has ended. -/
theorem Fiber.Course.of_done {t : Clock} {o : ρ} {ds : List Deed} {r : Option (ρ × Clock)}
    (h : Fiber.Course pace t (.done o) ds r) : ds = [] ∧ ∀ res ∈ r, res = (o, t) := by
  cases h with
  | stopped => exact ⟨rfl, by simp⟩
  | done => exact ⟨rfl, by simp⟩

/-- The courses of a program that has ended. -/
theorem Program.Course.of_done {t : Clock} {a : α} {ds : List Deed} {r : Option (α × Clock)}
    (h : Program.Course pace step t (.done a) ds r) : ds = [] ∧ ∀ res ∈ r, res = (a, t) := by
  cases h with
  | stopped => exact ⟨rfl, by simp⟩
  | done => exact ⟨rfl, by simp⟩

/-- Two actions in turn: the second is not begun when the first fails. -/
theorem Program.Course.of_bind_action {a : Action α} {f : α → Action β} {t : Clock} {ds : List Deed}
    {r : Option (Except Fault β × Clock)} (h : Program.Course pace step t (a >>= f).outcome ds r) :
    InTurn (Program.Course pace step t a.outcome)
      (fun o u es r => match o with
        | .ok v => Program.Course pace step u (f v).outcome es r
        | .error e => es = [] ∧ ∀ res ∈ r, res = (.error e, u)) ds r := by
  have h' : InTurn (Program.Course pace step t a.outcome) _ ds r := Program.Course.of_bind h
  cases h' with
  | first h₁ => exact .first h₁
  | @both o u ds es r h₁ h₂ =>
    refine .both h₁ ?_
    cases o with
    | ok v => exact h₂
    | error e => exact h₂.of_done

/-! ## Actions as programs -/

namespace Action

@[simp] theorem outcome_pure (v : α) : (pure v : Action α).outcome = .done (.ok v) := rfl

@[simp] theorem outcome_throw (f : Fault) : (throw f : Action α).outcome = .done (.error f) := rfl

@[simp] theorem outcome_ofExcept (o : Except Fault α) : (Action.ofExcept o).outcome = .done o := rfl

@[simp] theorem outcome_call (c : Call) :
    (Action.call c).outcome = .ask c fun answer => .done (.ok answer) := rfl

@[simp] theorem outcome_pure_bind (v : α) (f : α → Action β) :
    (pure v >>= f : Action β).outcome = (f v).outcome := rfl

@[simp] theorem outcome_call_bind (c : Call) (f : c.Answer → Action β) :
    (Action.call c >>= f).outcome = .ask c fun answer => (f answer).outcome := rfl

@[simp] theorem outcome_ok_bind (v : α) (f : α → Action β) :
    (Action.ofExcept (.ok v) >>= f).outcome = (f v).outcome := rfl

@[simp] theorem outcome_error_bind (e : Fault) (f : α → Action β) :
    (Action.ofExcept (.error e) >>= f).outcome = .done (.error e) := rfl

@[simp] theorem outcome_lift_bind (p : Program α) (f : α → Action β) :
    (ExceptT.lift p >>= f : Action β).outcome = p.bind fun a => (f a).outcome :=
  Program.bind_assoc ..

theorem outcome_bind (a : Action α) (f : α → Action β) :
    (a >>= f).outcome = a.outcome.bind fun
      | .ok v => (f v).outcome
      | .error e => .done (.error e) := by
  change Program.bind a.outcome _ = _
  congr 1
  funext o
  cases o <;> rfl

end Action

@[simp] theorem Program.done_bind (a : α) (f : α → Program β) : (Program.done a).bind f = f a := rfl

@[simp] theorem Program.ask_bind (c : Call) (next : c.Answer → Program α) (f : α → Program β) :
    (Program.ask c next).bind f = .ask c fun answer => (next answer).bind f := rfl

/-! ## Calls and ends -/

/-- All calls that a program can make are of a kind. -/
def Program.Makes (P : Call → Prop) : Program α → Prop
  | .done _ => True
  | .ask c next => P c ∧ ∀ answer, (next answer).Makes P

theorem Program.Makes.mono {P Q : Call → Prop} {p : Program α} (h : p.Makes P) (hPQ : ∀ c, P c → Q c) :
    p.Makes Q := by
  induction p with
  | done a => trivial
  | ask c next ih => exact ⟨hPQ c h.1, fun answer => ih answer (h.2 answer)⟩

theorem Program.Course.makes {P : Call → Prop} {t : Clock} {p : Program α} {ds : List Deed}
    {r : Option (α × Clock)} (h : Program.Course pace step t p ds r) (hp : p.Makes P) :
    ∀ d ∈ ds, d.step = step ∧ P d.call := by
  induction h with
  | stopped => intro d hd; exact absurd hd List.not_mem_nil
  | done => intro d hd; exact absurd hd List.not_mem_nil
  | ask _ _ _ ih =>
    intro d hd
    rcases List.mem_cons.mp hd with rfl | hd
    · exact ⟨rfl, hp.1⟩
    · exact ih (hp.2 _) d hd

/-- All ends that a program can come to are of a kind. -/
def Program.Ends (P : α → Prop) : Program α → Prop
  | .done a => P a
  | .ask _ next => ∀ answer, (next answer).Ends P

theorem Program.Course.ends {P : α → Prop} {t : Clock} {p : Program α} {ds : List Deed}
    {r : Option (α × Clock)} (h : Program.Course pace step t p ds r) (hp : p.Ends P) :
    ∀ res ∈ r, P res.1 := by
  induction h with
  | stopped => simp
  | done => exact fun _ hres => Option.some.inj hres ▸ hp
  | ask _ _ _ ih => exact ih (hp _)

theorem Program.Ends.mono {P Q : α → Prop} {p : Program α} (h : p.Ends P) (hPQ : ∀ a, P a → Q a) :
    p.Ends Q := by
  induction p with
  | done a => exact hPQ a h
  | ask c next ih => exact fun answer => ih answer (h answer)

theorem Program.ends_bind {P : β → Prop} {Q : α → Prop} {p : Program α} {f : α → Program β}
    (hp : p.Ends Q) (hf : ∀ a, Q a → (f a).Ends P) : (p.bind f).Ends P := by
  induction p with
  | done a => exact hf a hp
  | ask c next ih => exact fun answer => ih answer (hp answer)

/-- The deeds of a program are done for one step. -/
theorem Program.Course.step_eq {t : Clock} {p : Program α} {ds : List Deed}
    {r : Option (α × Clock)} (h : Program.Course pace step t p ds r) : ∀ d ∈ ds, d.step = step := by
  induction h with
  | stopped => intro d hd; exact absurd hd List.not_mem_nil
  | done => intro d hd; exact absurd hd List.not_mem_nil
  | ask _ _ _ ih =>
    intro d hd
    rcases List.mem_cons.mp hd with rfl | hd
    · rfl
    · exact ih d hd

end Runbook
