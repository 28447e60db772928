import Runbook.Proofs.Journal

/-!
# `Proofs.Reports` — what a run tells of its steps

Every step that is carried out reports its outcome once. A leaf asks the journal before anything of it
is written there, so in a run that begins with an empty journal no leaf finds that it has ended.

## Contents
- **Reports.** `reports`, the reports among deeds.
- **Places.** The deeds of a list of steps are done at the places of the list.
- **Order.** `AsksFirst`: nothing is asked of the journal about a step after its outcome was written.
- **Open steps.** `AllOpen`, and that an open journal leaves them open.
-/

namespace Runbook

/-! ## Reports -/

/-- The report that a call makes. -/
def Call.report? : Call → Option Report
  | .report r => some r
  | _ => none

/-- The reports among deeds, in the order in which they were made. -/
def reports (ds : List Deed) : List Report := ds.filterMap fun d => d.call.report?

@[simp] theorem reports_nil : reports [] = [] := rfl

@[simp] theorem reports_cons (d : Deed) (ds : List Deed) :
    reports (d :: ds) = d.call.report?.toList ++ reports ds := by
  unfold reports
  rw [List.filterMap_cons]
  cases d.call.report? <;> rfl

@[simp] theorem reports_append (ds es : List Deed) : reports (ds ++ es) = reports ds ++ reports es :=
  List.filterMap_append ..

theorem reports_eq_nil {ds : List Deed} (h : ∀ d ∈ ds, d.call.report? = none) : reports ds = [] :=
  List.filterMap_eq_nil_iff.mpr h

theorem Call.report?_eq_some {c : Call} {r : Report} : c.report? = some r ↔ c = .report r := by
  cases c <;> simp [report?]

theorem mem_reports {ds : List Deed} {r : Report} : r ∈ reports ds ↔ ∃ d ∈ ds, d.call = .report r := by
  simp only [reports, List.mem_filterMap, Call.report?_eq_some]

theorem Interleaved.reports {ds es fs : List Deed} (h : Interleaved ds es fs) :
    (reports fs).Perm (Runbook.reports ds ++ Runbook.reports es) := by
  have := h.perm_append.filterMap fun d : Deed => d.call.report?
  rwa [List.filterMap_append] at this

namespace Execution

variable {x : Execution} {pace : Clock → Clock → Prop} {path : StepPath}

/-! ## Places -/

/-- A deed that is done for a step at or below a place of a list, from an index on. -/
def AtPlace (x : Execution) (path : StepPath) (b : Branch) (i : Nat) (d : Deed) : Prop :=
  ∃ (j : Nat) (kind : String) (q : StepPath), i ≤ j ∧ path.child b j kind <+: q ∧ q.Proper
    ∧ d.step = some q ∧ TreeCall x q d.call

theorem AtPlace.mono {b : Branch} {i j : Nat} {d : Deed} (h : x.AtPlace path b j d) (hij : i ≤ j) :
    x.AtPlace path b i d := by
  obtain ⟨k, kind, q, hk, hq⟩ := h
  exact ⟨k, kind, q, Nat.le_trans hij hk, hq⟩

theorem atPlace_of_walk {s : Step} {b : Branch} {i : Nat} {c : Context} {t : Clock} {ds : List Deed}
    {r : Option (Outcome × Clock)} (hproper : path.Proper)
    (h : Fiber.Course pace t (x.walk s (path.child b i s.kind) c) ds r) :
    ∀ d ∈ ds, x.AtPlace path b i d := by
  intro d hd
  obtain ⟨q, hq, hproper, hstep, hcall⟩ :=
    (x.walk_parts s (hproper.child b i s) (StepPath.kind?_child ..) h d hd).treeCall
  exact ⟨i, s.kind, q, Nat.le_refl _, hq, hproper, hstep, hcall⟩

theorem atPlace_of_walkList {b : Branch} (hproper : path.Proper) {steps : List Step} :
    ∀ {i : Nat} {c : Context} {t : Clock} {ds : List Deed} {r : Option (Outcome × Clock)},
      Fiber.Course pace t (x.walkList steps (path, b) i c) ds r → ∀ d ∈ ds, x.AtPlace path b i d := by
  induction steps with
  | nil =>
    intro i c t ds r h d hd
    rw [walkList_nil] at h
    rw [h.of_done.1] at hd
    exact absurd hd List.not_mem_nil
  | cons s rest ih =>
    intro i c t ds r h
    cases walkList_course h with
    | stopped hwalk => exact atPlace_of_walk hproper hwalk
    | failed hwalk => exact atPlace_of_walk hproper hwalk
    | goesOn hwalk _ hnext =>
      intro d hd
      rcases List.mem_append.mp hd with hd | hd
      · exact atPlace_of_walk hproper hwalk d hd
      · exact (ih hnext d hd).mono (Nat.le_succ i)

theorem atPlace_of_walkBranches (hproper : path.Proper) {steps : List Step} :
    ∀ {i : Nat} {c : Context} {t : Clock} {ds : List Deed} {r : Option (List Outcome × Clock)},
      Fiber.Courses pace t (x.walkBranches steps path i c) ds r →
      ∀ d ∈ ds, x.AtPlace path .parallel i d := by
  induction steps with
  | nil =>
    intro i c t ds r h d hd
    rw [walkBranches_nil] at h
    cases h <;> exact absurd hd List.not_mem_nil
  | cons s rest ih =>
    intro i c t ds r h d hd
    rw [walkBranches_cons] at h
    cases h with
    | stopped => exact absurd hd List.not_mem_nil
    | cons first others hfs =>
      rcases hfs.mem_iff.mp hd with hd | hd
      · exact atPlace_of_walk hproper first d hd
      · exact (ih others d hd).mono (Nat.le_succ i)

/-- Different places of a list have no step in common. -/
theorem AtPlace.ne {b : Branch} {i j : Nat} {kind : String} {q : StepPath} {d : Deed}
    (h : x.AtPlace path b j d) (hij : i < j) (hq : path.child b i kind <+: q) : d.step ≠ some q := by
  obtain ⟨k, kind', q', hk, hq', -, hstep, -⟩ := h
  rw [hstep]
  intro heq
  obtain rfl := Option.some.inj heq
  exact StepPath.ne_of_index_ne hq hq' (by simp; omega) rfl

/-! ## Order -/

/-- Of two deeds, the second does not ask the journal about what the first has written. -/
def AsksFirst (a b : Deed) : Prop := ∀ key entry, a.call = .journal key entry → b.call ≠ .recall key

theorem AsksFirst.of_left {a : Deed} (h : ∀ key entry, a.call ≠ .journal key entry) (b : Deed) :
    AsksFirst a b := fun key entry ha => absurd ha (h key entry)

theorem AsksFirst.of_right {b : Deed} (h : ∀ key, b.call ≠ .recall key) (a : Deed) :
    AsksFirst a b := fun key _ _ => h key

/-- What is done for different steps. -/
theorem AsksFirst.of_ne {a b : Deed} {p q : StepPath} (hp : p.Proper) (hq : q.Proper) (hne : p ≠ q)
    (ha : TreeCall x p a.call) (hb : TreeCall x q b.call) : AsksFirst a b := by
  intro key entry hjournal hrecall
  rw [hjournal] at ha
  rw [hrecall] at hb
  have hp' : key = p.text := by
    cases ha with
    | journal => rfl
    | serves h => cases h with | outside h => simp [Call.isOutside] at h
  have hq' : key = q.text := by
    cases hb with
    | serves h =>
      cases h with
      | «recall» => rfl
      | outside h => simp [Call.isOutside] at h
  exact hne (StepPath.text_injective hp hq (hp'.symm.trans hq'))

/-- What is done at different places of a list. -/
theorem AsksFirst.of_places {b : Branch} {i : Nat} {s : Step} {d e : Deed} {c : Context} {t : Clock}
    {ds : List Deed} {r : Option (Outcome × Clock)} (hproper : path.Proper)
    (h : Fiber.Course pace t (x.walk s (path.child b i s.kind) c) ds r) (hd : d ∈ ds)
    (he : x.AtPlace path b (i + 1) e) : AsksFirst d e ∧ AsksFirst e d := by
  obtain ⟨p, hp, hpp, hstep, hcall⟩ :=
    (x.walk_parts s (hproper.child b i s) (StepPath.kind?_child ..) h d hd).treeCall
  have hne := he.ne (Nat.lt_succ_self i) hp
  obtain ⟨_, _, q, _, _, hqp, hstep', hcall'⟩ := he
  have hpq : p ≠ q := fun heq => hne (heq ▸ hstep')
  exact ⟨.of_ne hpp hqp hpq hcall hcall', .of_ne hqp hpp hpq.symm hcall' hcall⟩

theorem LeafCourse.asksFirst {id : Option String} {c : Context} {s : Step} {c' : Context}
    {body : String → Action Value} {ds : List Deed} {r : Option (Outcome × Clock)}
    (h : LeafCourse pace x path id c (body path.text) ds r) (hbody : x.handler? s c' = some body) :
    ds.Pairwise AsksFirst := by
  have hserves {t ds r} (hc : Program.Course pace (some path) t (body path.text).outcome ds r) :
      ∀ d ∈ ds, ∀ key entry, d.call ≠ .journal key entry := by
    intro d hd key entry hcall
    have h := (hc.makes (makes_handler hbody) d hd).2
    rw [hcall] at h
    cases h with
    | outside h => simp [Call.isOutside] at h
  have hfirst {ds : List Deed} (h : ∀ d ∈ ds, ∀ key entry, d.call ≠ .journal key entry)
      {found : Option Value} {start stop : Clock} :
      (⟨some path, .recall path.text, found, start, stop⟩ :: ds).Pairwise AsksFirst := by
    refine List.pairwise_cons.mpr ⟨fun b _ => .of_left (by simp) b, ?_⟩
    exact List.pairwise_of_forall_mem_list fun a ha b _ => .of_left (h a ha) b
  cases h with
  | unbegun => exact .nil
  | replayed => exact List.pairwise_singleton ..
  | worked _ hcourse => exact hfirst (hserves hcourse)
  | reported _ hcourse hes _ =>
    have hclosing {o : Except Fault Value} {d : Deed} (hd : Closing x path o d) (key : String) : d.call ≠ .recall key := by
      cases hd <;> simp
    refine List.pairwise_append.mpr ⟨hfirst (hserves hcourse), ?_, ?_⟩
    · refine List.pairwise_cons.mpr ⟨fun b _ => .of_left (by simp) b, ?_⟩
      exact List.pairwise_of_forall_mem_list fun a _ b hb => .of_right (hclosing (hes b hb)) a
    · intro a ha b hb
      rcases List.mem_cons.mp hb with rfl | hb
      · exact .of_right (by simp) a
      · exact .of_right (hclosing (hes b hb)) a

theorem concluded_asksFirst {id : Option String} {o : Outcome} {t : Clock} {ds : List Deed}
    {r : Option (Outcome × Clock)} (h : Fiber.Course pace t (concluded path id o) ds r) :
    ∀ d ∈ ds, ∀ a, AsksFirst a d ∧ AsksFirst d a := by
  rcases concluded_course h with ⟨rfl, -⟩ | ⟨answer, start, stop, rfl, -⟩
  · simp
  · intro d hd a
    rw [List.mem_singleton.mp hd]
    exact ⟨.of_right (by simp) a, .of_left (by simp) a⟩

/-- What is done for a step asks first. -/
def HasOrder (pace : Clock → Clock → Prop) (x : Execution) (s : Step) : Prop :=
  ∀ {path : StepPath} {c : Context} {t : Clock} {ds : List Deed} {r : Option (Outcome × Clock)},
    path.Proper → path.kind? = some s.kind → Fiber.Course pace t (x.walk s path c) ds r →
    ds.Pairwise AsksFirst

/-- Two parts in turn, of which the second only reports. -/
theorem asksFirst_inTurn {α : Type} {first : List Deed → Option (α × Clock) → Prop}
    {id : Option String} {f : α → Outcome} {ds : List Deed} {r : Option (Outcome × Clock)}
    (h : InTurn first (fun a u => Fiber.Course pace u (concluded path id (f a))) ds r)
    (h₁ : ∀ {es r}, first es r → es.Pairwise AsksFirst) : ds.Pairwise AsksFirst := by
  cases h with
  | first hf => exact h₁ hf
  | both hf hs =>
    have hlast := concluded_asksFirst hs
    refine List.pairwise_append.mpr ⟨h₁ hf, ?_, fun a _ b hb => (hlast b hb a).1⟩
    exact List.pairwise_of_forall_mem_list fun a _ b hb => (hlast b hb a).1

/-- **Leaves ask the journal before they write.** -/
theorem walk_asksFirst (s : Step) : HasOrder pace x s := by
  refine Step.treeInduction (P := HasOrder pace x)
    (Q := fun steps =>
      (∀ {path : StepPath} {b : Branch} {i : Nat} {c : Context} {t : Clock} {ds : List Deed}
        {r : Option (Outcome × Clock)}, path.Proper →
        Fiber.Course pace t (x.walkList steps (path, b) i c) ds r → ds.Pairwise AsksFirst) ∧
      ∀ {path : StepPath} {i : Nat} {c : Context} {t : Clock} {ds : List Deed}
        {r : Option (List Outcome × Clock)}, path.Proper →
        Fiber.Courses pace t (x.walkBranches steps path i c) ds r → ds.Pairwise AsksFirst)
    ?leaf ?condition ?parallel ?foreign ?nil ?cons s
  case leaf =>
    intro s hs path c t ds r _ _ h
    obtain ⟨body, hbody, hcourse⟩ := walk_leaf_course hs h
    exact hcourse.asksFirst hbody
  case condition =>
    intro id predicate whenTrue whenFalse ih path c t ds r hproper hkind h
    rcases walk_condition_course h with ⟨f, -, hend⟩ | ⟨b, -, hturn⟩
    · have hlast := concluded_asksFirst hend
      exact List.pairwise_of_forall_mem_list fun a _ b hb => (hlast b hb a).1
    · exact asksFirst_inTurn hturn ((ih b).1 hproper)
  case parallel =>
    intro id branches ih path c t ds r hproper hkind h
    exact asksFirst_inTurn (walk_parallel_course h) (ih.2 hproper)
  case foreign =>
    intro call agent path c t ds r _ _ h
    rw [walk_foreign] at h
    have hlast := concluded_asksFirst h
    exact List.pairwise_of_forall_mem_list fun a _ b hb => (hlast b hb a).1
  case nil =>
    refine ⟨fun _ h => ?_, fun _ h => ?_⟩
    · rw [walkList_nil] at h
      rw [h.of_done.1]
      exact .nil
    · rw [walkBranches_nil] at h
      cases h <;> exact .nil
  case cons =>
    intro s rest hs hrest
    refine ⟨fun {path b i c t ds r} hproper h => ?_, fun {path i c t ds r} hproper h => ?_⟩
    · have hfirst {ds r} (h : Fiber.Course pace t (x.walk s (path.child b i s.kind) c) ds r) :=
        hs (hproper.child b i s) (StepPath.kind?_child ..) h
      cases walkList_course h with
      | stopped hwalk => exact hfirst hwalk
      | failed hwalk => exact hfirst hwalk
      | goesOn hwalk _ hnext =>
        -- steps of one list stand at different places, so they ask for different entries
        refine List.pairwise_append.mpr ⟨hfirst hwalk, hrest.1 hproper hnext, fun a ha e he => ?_⟩
        exact (AsksFirst.of_places hproper hwalk ha (atPlace_of_walkList hproper hnext e he)).1
    · rw [walkBranches_cons] at h
      cases h with
      | stopped => exact .nil
      | cons first others hfs =>
        refine hfs.pairwise (hs (hproper.child .parallel i s) (StepPath.kind?_child ..) first)
          (hrest.2 hproper others) fun a ha e he => ?_
        exact AsksFirst.of_places hproper first ha (atPlace_of_walkBranches hproper others e he)

/-! ## Open steps -/

/-- Whatever the journal was asked for was open. -/
def AllOpen (ds : List Deed) : Prop :=
  ∀ d ∈ ds, ∀ step key found start stop, d = ⟨step, .recall key, found, start, stop⟩ →
    JournalEntry.replay? found = none

theorem AllOpen.of_append {ds es : List Deed} (h : AllOpen (ds ++ es)) : AllOpen ds ∧ AllOpen es :=
  ⟨fun d hd => h d (List.mem_append_left _ hd), fun d hd => h d (List.mem_append_right _ hd)⟩

theorem AllOpen.of_interleaved {ds es fs : List Deed} (h : AllOpen fs) (hfs : Interleaved ds es fs) :
    AllOpen ds ∧ AllOpen es :=
  ⟨fun d hd => h d (hfs.mem_iff.mpr (.inl hd)), fun d hd => h d (hfs.mem_iff.mpr (.inr hd))⟩

/-- The body of a leaf reports nothing. -/
theorem reports_of_handler {s : Step} {c : Context} {body : String → Action Value} {t : Clock}
    {ds : List Deed} {r : Option (Except Fault Value × Clock)} (hbody : x.handler? s c = some body)
    (h : Program.Course pace (some path) t (body path.text).outcome ds r) : reports ds = [] := by
  refine reports_eq_nil fun d hd => ?_
  have h := (h.makes (makes_handler hbody) d hd).2
  cases hcall : d.call <;> rw [hcall] at h <;> try rfl
  cases h with
  | outside h => simp [Call.isOutside] at h

/-- **What a leaf reports**: its outcome, if it has one that was not known before. -/
theorem LeafCourse.reports_cases {id : Option String} {c c' : Context} {s : Step}
    {body : String → Action Value} {ds : List Deed} {r : Option (Outcome × Clock)}
    (h : LeafCourse pace x path id c (body path.text) ds r) (hbody : x.handler? s c' = some body) :
    (reports ds = [] ∧ (AllOpen ds → r = none))
      ∨ ∃ o, reports ds = [⟨path, id, o⟩] ∧ ∀ res ∈ r, res.1 = leafOutcome id c o := by
  cases h with
  | unbegun => exact .inl ⟨rfl, fun _ => rfl⟩
  | replayed hfound =>
    refine .inl ⟨rfl, fun hopen => ?_⟩
    rw [hopen _ List.mem_cons_self _ _ _ _ _ rfl] at hfound
    exact absurd hfound (by simp)
  | worked _ hcourse => exact .inl ⟨by simp [reports_of_handler hbody hcourse, Call.report?], fun _ => rfl⟩
  | @reported _ _ _ _ _ _ _ _ _ es o _ _ hcourse hes hr =>
    have hclosing : reports es = [] := reports_eq_nil fun d hd => by cases hes d hd <;> rfl
    exact .inr ⟨o, by simp [reports_of_handler hbody hcourse, hclosing, Call.report?], hr⟩

/-- What a leaf reports is what its body has ended with. -/
theorem LeafCourse.body_of_report {id : Option String} {c c' : Context} {s : Step}
    {body : String → Action Value} {ds : List Deed} {r : Option (Outcome × Clock)} {a : Report}
    (h : LeafCourse pace x path id c (body path.text) ds r) (hbody : x.handler? s c' = some body)
    (ha : a ∈ reports ds) : ∃ t u es, es ⊆ ds
      ∧ Program.Course pace (some path) t (body path.text).outcome es (some (a.outcome, u)) := by
  cases h with
  | unbegun => exact absurd ha List.not_mem_nil
  | replayed => exact absurd ha (by simp [Call.report?])
  | worked _ hcourse => exact absurd ha (by simp [reports_of_handler hbody hcourse, Call.report?])
  | @reported _ _ _ _ _ _ _ _ _ es _ _ _ hcourse hes =>
    have hclosing : reports es = [] := reports_eq_nil fun d hd => by cases hes d hd <;> rfl
    simp only [List.cons_append, reports_cons, reports_append, Call.report?, Option.toList_none,
      Option.toList_some, List.nil_append, reports_of_handler hbody hcourse, hclosing,
      List.append_nil, List.mem_singleton] at ha
    subst ha
    exact ⟨_, _, _, fun d hd => List.mem_append_left _ (List.mem_cons_of_mem _ hd), hcourse⟩

/-- **What a leaf writes down** is the outcome that it has reported. -/
theorem LeafCourse.reported_of_journal {id : Option String} {c c' : Context} {s : Step}
    {body : String → Action Value} {ds : List Deed} {r : Option (Outcome × Clock)} {d : Deed}
    {key : String} {entry : Keyed Value}
    (h : LeafCourse pace x path id c (body path.text) ds r) (hbody : x.handler? s c' = some body)
    (hd : d ∈ ds) (hcall : d.call = .journal key entry) :
    key = path.text ∧ ∃ o, ⟨path, id, o⟩ ∈ reports ds ∧ x.entry? o = some entry := by
  have hserves {t ds r} (hc : Program.Course pace (some path) t (body path.text).outcome ds r) :
      d ∉ ds := fun hd => by
    have h := (hc.makes (makes_handler hbody) d hd).2
    rw [hcall] at h
    cases h with
    | outside h => simp [Call.isOutside] at h
  cases h with
  | unbegun => exact absurd hd List.not_mem_nil
  | replayed => rw [List.mem_singleton.mp hd] at hcall; simp at hcall
  | worked _ hwork =>
    rcases List.mem_cons.mp hd with rfl | hd
    · simp at hcall
    · exact absurd hd (hserves hwork)
  | @reported _ _ _ _ _ _ _ _ _ es o _ _ hwork hes _ =>
    rcases List.mem_cons.mp hd with rfl | hd
    · simp at hcall
    · rcases List.mem_append.mp hd with hd | hd
      · exact absurd hd (hserves hwork)
      · rcases List.mem_cons.mp hd with rfl | hd
        · simp at hcall
        · cases hes d hd with
          | save => simp at hcall
          | journal hentry =>
            obtain ⟨rfl, rfl⟩ := Call.journal.inj hcall
            exact ⟨rfl, o, mem_reports.mpr ⟨_, List.mem_append_right _ List.mem_cons_self, rfl⟩, hentry⟩

/-- **A journal in which all is open stays so for whoever asks first.** -/
theorem allOpen_of_admits {ds : List Deed} (hcalls : ∀ d ∈ ds, ∃ q, TreeCall x q d.call)
    (horder : ds.Pairwise AsksFirst) : ∀ {w w' : World}, w.Admits ds w' →
    (∀ d ∈ ds, ∀ key, d.call = .recall key → JournalEntry.Open (w.attempt.journal.get? key)) →
    AllOpen ds := by
  induction ds with
  | nil => intro _ _ _ _ d hd; exact absurd hd List.not_mem_nil
  | cons d ds ih =>
    intro w w' hadmits hopen e he step key found start stop hcall
    obtain ⟨w₁, hd, hrest⟩ := hadmits.of_cons
    obtain ⟨hfirst, horder⟩ := List.pairwise_cons.mp horder
    rcases List.mem_cons.mp he with rfl | he
    · subst hcall
      have := hopen _ he key rfl
      rw [← hd.recall_eq] at this
      exact this.replay?_eq_none
    · refine ih (fun d hd => hcalls d (.tail _ hd)) horder hrest (fun d' hd' key' hcall' => ?_) e he
        step key found start stop hcall
      obtain ⟨q, hq⟩ := hcalls d List.mem_cons_self
      rw [hd.attempt_eq]
      refine hq.open_after _ (fun entry hentry => hfirst d' hd' key' entry hentry hcall') ?_
      exact hopen d' (.tail _ hd') key' hcall'

/-- With an empty journal every leaf is open. -/
theorem allOpen_of_walk {s : Step} {path : StepPath} {c : Context} {t : Clock} {ds : List Deed}
    {r : Option (Outcome × Clock)} {w w' : World} (hproper : path.Proper) (hkind : path.kind? = some s.kind)
    (hjournal : w.attempt.journal = []) (hadmits : w.Admits ds w')
    (h : Fiber.Course pace t (x.walk s path c) ds r) : AllOpen ds := by
  refine allOpen_of_admits (x := x) (fun d hd => ?_) (walk_asksFirst s hproper hkind h) hadmits
    fun d _ key _ => ?_
  · obtain ⟨q, -, -, -, hcall⟩ := (x.walk_parts s hproper hkind h d hd).treeCall
    exact ⟨q, hcall⟩
  · rw [hjournal]
    exact JournalEntry.open_none

end Execution

end Runbook
