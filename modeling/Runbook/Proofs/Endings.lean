import Runbook.Proofs.Prompt

/-!
# `Proofs.Endings` — no fiber ever gets stuck

Whatever a fiber has done, it can go on to its end as soon as those whom it asks answer: nothing in it
waits for something else. So a run that was stopped is an initial part of one that ends.

## Contents
- **Sooner ends.** `Sooner`, and that a course may as well begin earlier, `Fiber.Course.begun`.
- **Endings.** `Fiber.Course.finish`.
- **Runs.** `World.Runs.finish`.
-/

namespace Runbook

/-! ## Sooner ends -/

/-- The same end, or none, but no later. -/
inductive Sooner {ρ : Type} : Option (ρ × Clock) → Option (ρ × Clock) → Prop where
  | none : Sooner none none
  | some {o : ρ} {u v : Clock} (h : u ≤ v) : Sooner (some (o, u)) (some (o, v))

theorem Sooner.refl {ρ : Type} (r : Option (ρ × Clock)) : Sooner r r := by
  cases r with
  | none => exact .none
  | some res => exact .some (Nat.le_refl _)

theorem Sooner.joined {ρ : Type} {r r' : Option (ρ × Clock)} {rs rs' : Option (List ρ × Clock)}
    (h : Sooner r r') (hs : Sooner rs rs') : Sooner (joined r rs) (joined r' rs') := by
  cases h with
  | none => simp only [joined_none_left]; exact .none
  | some h =>
    cases hs with
    | none => exact .none
    | some hs => exact .some (Nat.max_le.mpr
        ⟨Nat.le_trans h (Nat.le_max_left ..), Nat.le_trans hs (Nat.le_max_right ..)⟩)

section

variable {ρ : Type}

mutual
/-- What a fiber can do that begins late, it can do as well if it begins early. -/
theorem Fiber.Course.begun {u : Clock} {p : Fiber ρ} {ds : List Deed} {r : Option (ρ × Clock)} :
    Fiber.Course (· ≤ ·) u p ds r → ∀ {t : Clock}, t ≤ u →
    ∃ r', Sooner r' r ∧ Fiber.Course (· ≤ ·) t p ds r'
  | .stopped, t, _ => ⟨none, .none, .stopped⟩
  | .done, t, htu => ⟨_, .some htu, .done⟩
  | .ask hstart hstop rest, t, htu =>
    ⟨_, .refl _, .ask (Nat.le_trans htu hstart) hstop rest⟩
  | .fork inner rest, t, htu => by
    obtain ⟨_, hsooner, hinner⟩ := inner.begun htu
    cases hsooner with
    | some h =>
      obtain ⟨r', hr', hrest⟩ := rest.begun h
      exact ⟨r', hr', .fork hinner hrest⟩
  | .cut inner, t, htu => by
    obtain ⟨_, hsooner, hinner⟩ := inner.begun htu
    cases hsooner
    exact ⟨none, .none, .cut hinner⟩

theorem Fiber.Courses.begun {u : Clock} {ps : List (Fiber ρ)} {ds : List Deed}
    {r : Option (List ρ × Clock)} :
    Fiber.Courses (· ≤ ·) u ps ds r → ∀ {t : Clock}, t ≤ u →
    ∃ r', Sooner r' r ∧ Fiber.Courses (· ≤ ·) t ps ds r'
  | .stopped, t, _ => ⟨none, .none, .stopped⟩
  | .nil, t, htu => ⟨_, .some htu, .nil⟩
  | .cons first others hfs, t, htu => by
    obtain ⟨r', hr', hfirst⟩ := first.begun htu
    obtain ⟨rs', hrs', hothers⟩ := others.begun htu
    exact ⟨joined r' rs', hr'.joined hrs', .cons hfirst hothers hfs⟩
end

/-! ## Endings -/

/-- All that was done has ended by a time. -/
def EndedBy (t : Clock) (ds : List Deed) : Prop := ∀ d ∈ ds, d.stop ≤ t

theorem EndedBy.of_append {t : Clock} {ds es : List Deed} (h : EndedBy t (ds ++ es)) :
    EndedBy t ds ∧ EndedBy t es :=
  ⟨fun d hd => h d (List.mem_append_left _ hd), fun d hd => h d (List.mem_append_right _ hd)⟩

theorem EndedBy.of_interleaved {t : Clock} {ds es fs : List Deed} (h : EndedBy t fs)
    (hfs : Interleaved ds es fs) : EndedBy t ds ∧ EndedBy t es :=
  ⟨fun d hd => h d (hfs.mem_iff.mpr (.inl hd)), fun d hd => h d (hfs.mem_iff.mpr (.inr hd))⟩

theorem joined_le {T : Clock} {r : Option (ρ × Clock)} {rs : Option (List ρ × Clock)}
    (h : ∀ res ∈ r, res.2 ≤ T) (hs : ∀ res ∈ rs, res.2 ≤ T) : ∀ res ∈ joined r rs, res.2 ≤ T := by
  cases r with
  | none => simp [joined_none_left]
  | some res =>
    cases rs with
    | none => simp [joined]
    | some ress =>
      intro res' hres'
      rw [← Option.some.inj hres']
      exact Nat.max_le.mpr ⟨h _ rfl, hs _ rfl⟩

mutual
/-- A fiber has ended when its deeds have. -/
theorem Fiber.Course.end_le {pace : Clock → Clock → Prop} {T t : Clock} {p : Fiber ρ}
    {ds : List Deed} {r : Option (ρ × Clock)} :
    Fiber.Course pace t p ds r → t ≤ T → EndedBy T ds → ∀ res ∈ r, res.2 ≤ T
  | .stopped, _, _ => by simp
  | .done, ht, _ => by simpa using ht
  | .ask _ _ rest, _, hds =>
    rest.end_le (hds _ List.mem_cons_self) fun d hd => hds d (.tail _ hd)
  | .fork inner rest, ht, hds =>
    rest.end_le (inner.end_le ht hds.of_append.1 _ rfl) hds.of_append.2
  | .cut _, _, _ => by simp

theorem Fiber.Courses.end_le {pace : Clock → Clock → Prop} {T t : Clock} {ps : List (Fiber ρ)}
    {ds : List Deed} {r : Option (List ρ × Clock)} :
    Fiber.Courses pace t ps ds r → t ≤ T → EndedBy T ds → ∀ res ∈ r, res.2 ≤ T
  | .stopped, _, _ => by simp
  | .nil, ht, _ => by simpa using ht
  | .cons first others hfs, ht, hds =>
    joined_le (first.end_le ht (hds.of_interleaved hfs).1)
      (others.end_le ht (hds.of_interleaved hfs).2)
end

mutual
/-- **A fiber can go on to its end**, from whatever it has done, in any surroundings. -/
theorem Fiber.Course.finish (env : Environment) {t : Clock} {p : Fiber ρ} {ds : List Deed}
    {r : Option (ρ × Clock)} :
    Fiber.Course (· ≤ ·) t p ds r → ∀ {w : World}, t ≤ w.clock → EndedBy w.clock ds →
    ∃ es res, res.2 ≤ w.clock ∧ Fiber.Course (· ≤ ·) t p (ds ++ es) (some res) ∧ w.Prompts env es
      ∧ (w.follow env es).clock = w.clock
  | .stopped, w, ht, _ => by
    obtain ⟨hcourse, hsound⟩ := Fiber.promptly_course env Nat.le_refl p w
    obtain ⟨_, hsooner, hcourse⟩ := hcourse.begun ht
    cases hsooner with
    | some h => exact ⟨_, _, h, hcourse, hsound.prompts, hsound.world ▸ hsound.clock⟩
  | .done, w, ht, _ => ⟨[], _, ht, .done, trivial, rfl⟩
  | .ask hstart hstop rest, w, _, hds => by
    obtain ⟨es, res, hres, hcourse, hprompts⟩ :=
      rest.finish env (hds _ List.mem_cons_self) fun d hd => hds d (.tail _ hd)
    exact ⟨es, res, hres, .ask hstart hstop hcourse, hprompts⟩
  | .fork inner rest, w, ht, hds => by
    obtain ⟨es, res, hres, hcourse, hprompts⟩ :=
      rest.finish env (inner.end_le ht hds.of_append.1 _ rfl) hds.of_append.2
    exact ⟨es, res, hres, by rw [List.append_assoc]; exact .fork inner hcourse, hprompts⟩
  | @Fiber.Course.cut _ _ _ _ next _ inner, w, ht, hds => by
    obtain ⟨es, ⟨os, u⟩, hu, hcourses, hprompts, hclock⟩ := inner.finish env ht hds
    obtain ⟨hcourse, hsound⟩ := Fiber.promptly_course env Nat.le_refl (next os) (w.follow env es)
    obtain ⟨_, hsooner, hcourse⟩ := hcourse.begun (t := u) (hclock ▸ hu)
    cases hsooner with
    | some h =>
      rw [hclock] at h
      have hwhole := Fiber.Course.fork hcourses hcourse
      rw [List.append_assoc] at hwhole
      refine ⟨_, _, h, hwhole, hprompts.append hsound.prompts, ?_⟩
      rw [World.follow_append, ← hsound.world, hsound.clock, hclock]

theorem Fiber.Courses.finish (env : Environment) {t : Clock} {ps : List (Fiber ρ)}
    {ds : List Deed} {r : Option (List ρ × Clock)} :
    Fiber.Courses (· ≤ ·) t ps ds r → ∀ {w : World}, t ≤ w.clock → EndedBy w.clock ds →
    ∃ es res, res.2 ≤ w.clock ∧ Fiber.Courses (· ≤ ·) t ps (ds ++ es) (some res)
      ∧ w.Prompts env es ∧ (w.follow env es).clock = w.clock
  | .stopped, w, ht, _ => by
    obtain ⟨hcourse, hsound⟩ := Fiber.promptlyAll_course env Nat.le_refl ps w
    obtain ⟨_, hsooner, hcourse⟩ := hcourse.begun ht
    cases hsooner with
    | some h => exact ⟨_, _, h, hcourse, hsound.prompts, hsound.world ▸ hsound.clock⟩
  | .nil, w, ht, _ => ⟨[], _, ht, .nil, trivial, rfl⟩
  | .cons first others hfs, w, ht, hds => by
    obtain ⟨es₁, res₁, hres₁, hfirst, hprompts₁, hclock₁⟩ :=
      first.finish env ht (hds.of_interleaved hfs).1
    obtain ⟨es₂, res₂, hres₂, hothers, hprompts₂, hclock₂⟩ :=
      others.finish env (w := w.follow env es₁) (hclock₁ ▸ ht)
        (hclock₁ ▸ (hds.of_interleaved hfs).2)
    refine ⟨es₁ ++ es₂, _, ?_, .cons hfirst hothers (hfs.concat (.append es₁ es₂)),
      hprompts₁.append hprompts₂, ?_⟩
    · exact Nat.max_le.mpr ⟨hres₁, hclock₁ ▸ hres₂⟩
    · rw [World.follow_append, hclock₂, hclock₁]
end

end

/-! ## Runs -/

theorem exists_endedBy (t : Clock) (ds : List Deed) : ∃ T, t ≤ T ∧ EndedBy T ds := by
  induction ds with
  | nil => exact ⟨t, Nat.le_refl t, fun d hd => absurd hd List.not_mem_nil⟩
  | cons d ds ih =>
    obtain ⟨T, ht, hds⟩ := ih
    refine ⟨max T d.stop, Nat.le_trans ht (Nat.le_max_left ..), fun e he => ?_⟩
    rcases List.mem_cons.mp he with rfl | he
    · exact Nat.le_max_right ..
    · exact Nat.le_trans (hds e he) (Nat.le_max_left ..)

/-- What a world goes along with later, it goes along with. -/
theorem World.Answers.of_later {w w' : World} {T : Clock} {d : Deed} (hT : w.clock ≤ T)
    (h : ({ w with clock := T } : World).Answers d w') : w.Answers d w' := by
  cases h with
  | inside hc hstart hstep => exact .inside hc (Nat.le_trans hT hstart) hstep
  | outside hc hstart hclock hattempt hstores hids =>
    exact .outside hc (Nat.le_trans hT hstart) hclock hattempt hstores hids

/-- **A run that was stopped is the beginning of one that ends**, in any surroundings. Those who were
    asked before that answer first. -/
theorem World.Runs.finish {ρ : Type} {w w' : World} {p : Fiber ρ} {ds : List Deed}
    {r : Option (ρ × Clock)} (env : Environment) (h : w.Runs (· ≤ ·) p ds r w') :
    ∃ T es res w'', ({ w' with clock := T } : World).Prompts env es
      ∧ w.Runs (· ≤ ·) p (ds ++ es) (some res) w'' := by
  obtain ⟨hcourse, hadmits⟩ := h
  obtain ⟨T, hT, hds⟩ := exists_endedBy (max w.clock w'.clock) ds
  obtain ⟨es, res, -, hcourse, hprompts, -⟩ := hcourse.finish env (w := { w' with clock := T })
    (Nat.le_trans (Nat.le_max_left ..) hT) hds
  have hrest := hprompts.admits
  cases es with
  | nil => exact ⟨T, [], res, w', hprompts, hcourse, by rwa [List.append_nil]⟩
  | cons d es =>
    obtain ⟨w₁, hd, hrest⟩ := hrest.of_cons
    exact ⟨T, d :: es, res, _, hprompts, hcourse, hadmits.append
      (.cons (hd.of_later (Nat.le_trans (Nat.le_max_right ..) hT)) hrest)⟩

end Runbook
