import Runbook.Proofs.StepOutputs

/-!
# `Proofs.DataFlow` — which outputs come to a step

A context has one output at hand, the latest: what a step is given that has no input. Every leaf replaces it,
a fork takes it along, a merge brings none of those of the branches, and a failure leaves it. So it is handed on
along the tree of steps, and where the steps stand says which ones can hand it to which: `StepPath.Feeds`. What
a step finds at hand is the last output of those that feed it, in structural order.

## Contents
- **Places.** `StepPath.Open`, `StepPath.Feeds`, and how feeding goes with lists and with `Before`.
- **Outputs.** `Ends`, `Gives`, and `LastOutput`, the last output of the steps at some places.
- **What a step leaves.** `Execution.LeavesLast` and `walk_leavesLast`, by induction on the tree of steps.
- **What a step finds.** `Execution.FindsLast` and `walk_findsLast`, by the same induction.
-/

namespace Runbook

/-! ## Places -/

namespace StepPath

/-- A way that leads into no branch of a parallel step. -/
def Open (way : StepPath) : Prop := ∀ place ∈ way, place.branch ≠ some .parallel

/-- A step is open to whatever comes after another one if it is that step, or inside it and inside no further
    parallel step. -/
def OpenFrom (path q : StepPath) : Prop := ∃ way, q = path ++ way ∧ way.Open

/-- **A step feeds another one** if it stands before it in one of the lists around it, or inside a condition that
    does; and the list is not that of the branches of a parallel step. -/
def Feeds : StepPath → StepPath → Prop
  | a :: p, b :: q =>
    if a = b then Feeds p q
    else a.branch = b.branch ∧ b.branch ≠ some .parallel ∧ a.index < b.index ∧ Open p
  | _, _ => False

variable {p q path : StepPath} {b b' : Branch} {i j : Nat} {k k' : String}

theorem feeds_append (base p q : StepPath) : (base ++ p).Feeds (base ++ q) ↔ p.Feeds q := by
  induction base with
  | nil => rfl
  | cons a base ih => simpa [Feeds] using ih

/-- Nothing feeds a step that it is inside of. -/
theorem not_feeds_of_prefix (h : q <+: p) : ¬ p.Feeds q := by
  obtain ⟨way, rfl⟩ := h
  have hnil : ¬ Feeds way [] := by cases way <;> simp [Feeds]
  rwa [← feeds_append q way [], List.append_nil] at hnil

/-- A step feeds nothing inside it. -/
theorem not_feeds_inside (h : p <+: q) : ¬ p.Feeds q := by
  obtain ⟨way, rfl⟩ := h
  have hnil : ¬ Feeds [] way := by simp [Feeds]
  rwa [← feeds_append p [] way, List.append_nil] at hnil

/-- What feeds a step comes before it. -/
theorem Feeds.before (h : p.Feeds q) : p.Before q := by
  induction p generalizing q with
  | nil => exact absurd h (by simp [Feeds])
  | cons a p ih =>
    cases q with
    | nil => trivial
    | cons b q =>
      unfold Feeds at h
      unfold Before
      split at h
      · next hab => rw [if_pos hab]; exact ih h
      · next hab => rw [if_neg hab]; exact h.2.2.1

/-- Of two steps only one comes first. -/
theorem not_before_of_before (h : p.Before q) : ¬ q.Before p := by
  induction p generalizing q with
  | nil => exact absurd h id
  | cons a p ih =>
    cases q with
    | nil => exact id
    | cons b q =>
      unfold Before at h ⊢
      split at h
      · next hab => subst hab; rw [if_pos rfl]; exact ih h
      · next hab => rw [if_neg (Ne.symm hab)]; omega

/-- Where two places of one list are told apart by their indices, feeding is a matter of the list, the order, and
    the way from the first place on. -/
theorem feeds_of_index_ne {base : StepPath} {a c : Place} (hac : a.index ≠ c.index) :
    (base ++ a :: p).Feeds (base ++ c :: q)
      ↔ a.branch = c.branch ∧ c.branch ≠ some .parallel ∧ a.index < c.index ∧ p.Open := by
  have hne : a ≠ c := fun h => hac (congrArg Place.index h)
  rw [feeds_append, Feeds, if_neg hne]

end StepPath

section

variable {path q q' : StepPath} {b b' : Branch} {i i' : Nat} {s s₁ s₂ : Step} {rest steps steps' : List Step}

/-- The steps in the lists of a step are inside it. -/
theorem listSites_below (h : listSites path b i steps q s) : path <+: q := by
  obtain ⟨j, s₀, -, way, rfl, -⟩ := h
  exact (StepPath.prefix_child ..).trans (List.prefix_append ..)

/-- The steps of a list come in its order. -/
theorem listSites_before (h₁ : s.Inside (path.child b i s.kind) q s₁) (h₂ : listSites path b (i + 1) rest q' s₂) :
    q.Before q' := by
  obtain ⟨way, hq, -⟩ := h₁
  obtain ⟨j, s₀, -, way', hq', -⟩ := h₂
  have hp : path ++ [⟨some b, i, s.kind⟩] <+: q := ⟨way, hq.symm⟩
  have hp' : path ++ [⟨some b, (i + 1 + j : Nat), s₀.kind⟩] <+: q' := ⟨way', hq'.symm⟩
  exact StepPath.before_of_index_lt hp hp' (by dsimp only; omega)

/-- **What feeds a later step of a list**: all that is open from the steps before it, unless the list is that of
    the branches of a parallel step. -/
theorem listSites_feeds (h₁ : s.Inside (path.child b i s.kind) q s₁) (h₂ : listSites path b (i + 1) rest q' s₂) :
    q.Feeds q' ↔ b ≠ .parallel ∧ (path.child b i s.kind).OpenFrom q := by
  obtain ⟨way, rfl, -⟩ := h₁
  obtain ⟨j, s₀, -, way', rfl, -⟩ := h₂
  rw [StepPath.child, StepPath.child, List.append_assoc, List.append_assoc, List.singleton_append,
    List.singleton_append, StepPath.feeds_of_index_ne (by dsimp only; omega)]
  constructor
  · rintro ⟨-, hb, -, hopen⟩
    exact ⟨fun h => hb (congrArg some h), way, by rw [List.append_assoc, List.singleton_append], hopen⟩
  · rintro ⟨hb, way₀, hway, hopen⟩
    rw [List.append_assoc, List.singleton_append] at hway
    obtain ⟨-, rfl⟩ := List.cons.inj (List.append_cancel_left hway)
    exact ⟨rfl, fun h => hb (Option.some.inj h), by dsimp only; omega, hopen⟩

/-- A later step of a list feeds no earlier one. -/
theorem not_feeds_of_later (h₁ : s.Inside (path.child b i s.kind) q s₁)
    (h₂ : listSites path b (i + 1) rest q' s₂) : ¬ q'.Feeds q := by
  obtain ⟨way, rfl, -⟩ := h₁
  obtain ⟨j, s₀, -, way', rfl, -⟩ := h₂
  rw [StepPath.child, StepPath.child, List.append_assoc, List.append_assoc, List.singleton_append,
    List.singleton_append, StepPath.feeds_of_index_ne (by dsimp only; omega)]
  rintro ⟨-, -, hlt, -⟩
  dsimp only at hlt
  omega

/-- The lists of a condition do not feed each other. -/
theorem not_feeds_of_branch_ne (h₁ : listSites path b i steps q s₁) (h₂ : listSites path b' i' steps' q' s₂)
    (hb : b ≠ b') : ¬ q.Feeds q' := by
  obtain ⟨j, s₀, -, way, rfl, -⟩ := h₁
  obtain ⟨j', s₀', -, way', rfl, -⟩ := h₂
  have hne : (⟨some b, ((i + j : Nat) : Int), s₀.kind⟩ : Place) ≠ ⟨some b', ((i' + j' : Nat) : Int), s₀'.kind⟩ := by
    simp [hb]
  rw [StepPath.child, StepPath.child, List.append_assoc, List.append_assoc, List.singleton_append,
    List.singleton_append, StepPath.feeds_append, StepPath.Feeds, if_neg hne]
  rintro ⟨hbranch, -⟩
  exact hb (Option.some.inj hbranch)

/-- What is open from a step in a list, and what is open from the step that has the list. -/
theorem openFrom_child_iff (hb : b ≠ .parallel) (h : s.Inside (path.child b i s.kind) q s₁) :
    path.OpenFrom q ↔ (path.child b i s.kind).OpenFrom q := by
  obtain ⟨way, rfl, -⟩ := h
  have hplace : (⟨some b, (i : Int), s.kind⟩ : Place).branch ≠ some .parallel := by simpa using hb
  constructor
  · rintro ⟨way₀, hway, hopen⟩
    rw [StepPath.child, List.append_assoc, List.singleton_append] at hway
    obtain rfl := List.append_cancel_left hway
    exact ⟨way, rfl, fun place hplace => hopen place (.tail _ hplace)⟩
  · rintro ⟨way₀, hway, hopen⟩
    obtain rfl := List.append_cancel_left hway
    refine ⟨⟨some b, i, s.kind⟩ :: way, by rw [StepPath.child, List.append_assoc, List.singleton_append], ?_⟩
    exact List.forall_mem_cons.mpr ⟨hplace, hopen⟩

/-- No branch of a parallel step is open from it. -/
theorem not_openFrom_of_parallel (h : listSites path .parallel i steps q s) : ¬ path.OpenFrom q := by
  obtain ⟨j, s₀, -, way, rfl, -⟩ := h
  rintro ⟨way₀, hway, hopen⟩
  rw [StepPath.child, List.append_assoc, List.singleton_append] at hway
  obtain rfl := List.append_cancel_left hway
  exact hopen _ List.mem_cons_self rfl

theorem openFrom_self (path : StepPath) : path.OpenFrom path := ⟨[], (List.append_nil path).symm, nofun⟩

end

/-! ## Outputs -/

/-- How steps have ended. -/
abbrev Ends := StepPath → Option (Except Fault Value)

/-- **A step gives an output** that stands at one of some places, records its outputs, and has succeeded. -/
def Gives (ends : Ends) (S : Sites) (q : StepPath) (v : Value) : Prop :=
  ∃ s, S q s ∧ s.records = true ∧ ends q = some (.ok v)

/-- The steps at some places that are open from a path on. -/
def OpenSites (path : StepPath) (S : Sites) : Sites := fun q s => S q s ∧ path.OpenFrom q

/-- **The last output** that steps at some places have given, in structural order; or what was there before, if
    they have given none. -/
inductive LastOutput (ends : Ends) (S : Sites) (v₀ : Value) : Value → Prop where
  | none (h : ∀ q v, ¬ Gives ends S q v) : LastOutput ends S v₀ v₀
  | some {q : StepPath} {v : Value} (h : Gives ends S q v)
      (hlast : ∀ q' v', Gives ends S q' v' → q' = q ∨ q'.Before q) : LastOutput ends S v₀ v

namespace LastOutput

variable {ends ends' : Ends} {S T U : Sites} {v₀ v₁ v v' : Value}

theorem congr (h : LastOutput ends S v₀ v) (hgives : ∀ q v, Gives ends' T q v ↔ Gives ends S q v) :
    LastOutput ends' T v₀ v := by
  cases h with
  | none hnone => exact .none fun q v hq => hnone q v ((hgives q v).mp hq)
  | some hq hlast => exact .some ((hgives _ _).mpr hq) fun q' v' hq' => hlast q' v' ((hgives q' v').mp hq')

/-- It depends on how the steps at the places have ended, and on nothing else. -/
theorem congr_sites (h : LastOutput ends S v₀ v) (hST : ∀ q s, T q s ↔ S q s)
    (hends : ∀ q s, S q s → ends' q = ends q) : LastOutput ends' T v₀ v := by
  refine h.congr fun q v => exists_congr fun s => ?_
  rw [hST]
  exact and_congr_right fun hs => by rw [hends q s hs]

/-- **First some steps, and then others** that come after them. -/
theorem append (h₁ : LastOutput ends S v₀ v₁) (h₂ : LastOutput ends T v₁ v)
    (hU : ∀ q s, U q s ↔ S q s ∨ T q s) (hbefore : ∀ q s q' s', S q s → T q' s' → q.Before q') :
    LastOutput ends U v₀ v := by
  have hgives (q : StepPath) (v : Value) : Gives ends U q v ↔ Gives ends S q v ∨ Gives ends T q v := by
    unfold Gives
    simp only [hU, or_and_right, exists_or]
  cases h₂ with
  | none hnone => exact h₁.congr fun q v => (hgives q v).trans (or_iff_left (hnone q v))
  | @some q v hq hlast =>
    refine .some ((hgives q v).mpr (.inr hq)) fun q' v' hq' => ?_
    rcases (hgives q' v').mp hq' with ⟨s', hs', -⟩ | hq'
    · obtain ⟨s, hs, -⟩ := hq
      exact .inr (hbefore q' s' q s hs' hs)
    · exact hlast q' v' hq'

/-- One step alone. -/
theorem single {q : StepPath} (h : Gives ends S q v) (hS : ∀ q' s, S q' s → s.records = true → q' = q) :
    LastOutput ends S v₀ v :=
  .some h fun q' _ ⟨s, hs, hrecords, _⟩ => .inl (hS q' s hs hrecords)

/-- There is one at most. -/
theorem unique (h : LastOutput ends S v₀ v) (h' : LastOutput ends S v₀ v') : v = v' := by
  cases h with
  | none hnone =>
    cases h' with
    | none => rfl
    | some hq => exact absurd hq (hnone _ _)
  | @some q _ hq hlast =>
    cases h' with
    | none hnone => exact absurd hq (hnone _ _)
    | @some q' _ hq' hlast' =>
      have hsame : q = q' := by
        rcases hlast q' _ hq' with rfl | hbefore
        · rfl
        · rcases hlast' q _ hq with rfl | hbefore'
          · rfl
          · exact absurd hbefore' (StepPath.not_before_of_before hbefore)
      subst hsame
      obtain ⟨_, -, -, hend⟩ := hq
      obtain ⟨_, -, -, hend'⟩ := hq'
      exact Except.ok.inj (Option.some.inj (hend.symm.trans hend'))

/-- The same after all outputs were changed in one way. -/
theorem map (f : Value → Value) (h : LastOutput ends S v₀ v) :
    LastOutput (fun q => (ends q).map (Except.map f)) S (f v₀) (f v) := by
  have hgives {q : StepPath} {v : Value} (hq : Gives (fun q => (ends q).map (Except.map f)) S q v) :
      ∃ v', Gives ends S q v' := by
    obtain ⟨s, hs, hrecords, hend⟩ := hq
    obtain ⟨o, ho, hmap⟩ := Option.map_eq_some_iff.mp hend
    cases o with
    | error g => exact absurd hmap (by simp [Except.map])
    | ok v' => exact ⟨v', s, hs, hrecords, ho⟩
  cases h with
  | none hnone => exact .none fun q v hq => (hgives hq).elim fun v' h => hnone q v' h
  | @some q v hq hlast =>
    refine .some (q := q) ?_ fun q' v' hq' => (hgives hq').elim fun v'' h => hlast q' v'' h
    obtain ⟨s, hs, hrecords, hend⟩ := hq
    exact ⟨s, hs, hrecords, congrArg (Option.map (Except.map f)) hend⟩

end LastOutput

/-! ## What a step leaves -/

namespace Execution

variable {pace : Clock → Clock → Prop} {x : Execution} {path : StepPath} {c : Context} {ds es fs : List Deed}
  {t u : Clock} {o : Outcome} {s : Step} {S T U : Sites}

/-- **The output that a step leaves at hand**: the last one of those inside it that are open to what comes after
    it. A step that fails, and after which the plan goes on, has none. -/
structure LeavesLast (x : Execution) (ends : Ends) (S : Sites) (c : Context) (o : Outcome) : Prop where
  ok : ∀ fin, o = .ok fin → LastOutput ends S c.previous fin.context.previous
  failed : ∀ f, o = .error f → x.plan.stopsOn f = false → LastOutput ends S c.previous c.previous

/-- A step of a list, after which the list goes on. -/
theorem LeavesLast.guarded {ends : Ends} {i : Int} {r : Finished} (h : x.LeavesLast ends S c o)
    (hguarded : x.guarded s i c o = .ok r) : LastOutput ends S c.previous r.context.previous := by
  cases o with
  | ok fin =>
    obtain rfl : fin = r := Except.ok.inj hguarded
    exact h.ok fin rfl
  | error f =>
    rw [guarded_error] at hguarded
    split at hguarded
    · exact absurd hguarded (by simp)
    · next hf =>
      rw [← Except.ok.inj hguarded]
      exact h.failed f rfl (by simpa using hf)

/-- A step that has failed so that the plan does not go on. -/
theorem LeavesLast.of_stopsOn {ends : Ends} {f : Fault} (hf : x.plan.stopsOn f = true) :
    x.LeavesLast ends S c (.error f) :=
  ⟨fun _ h => absurd h (by simp), fun g h hg => absurd (hf.symm.trans (Except.error.inj h ▸ hg)) (by simp)⟩

/-- What a step leaves at hand. -/
def HasLast (pace : Clock → Clock → Prop) (x : Execution) (s : Step) : Prop :=
  ∀ {path : StepPath} {c : Context} {t u : Clock} {ds : List Deed} {o : Outcome},
    Fiber.Course pace t (x.walk s path c) ds (some (o, u)) →
      x.LeavesLast (endOf · ds) (OpenSites path (s.Inside path)) c o

/-- What steps in a row leave at hand. -/
def HaveLast (pace : Clock → Clock → Prop) (x : Execution) (steps : List Step) : Prop :=
  ∀ {path : StepPath} {b : Branch} {i : Nat} {c : Context} {t u : Clock} {ds : List Deed} {o : Outcome},
    b ≠ .parallel → Fiber.Course pace t (x.walkList steps (path, b) i c) ds (some (o, u)) →
    x.LeavesLast (endOf · ds) (OpenSites path (listSites path b i steps)) c o

/-- A step that is open to nothing but itself: it leaves its own output. -/
theorem leavesLast_own (hs : s.records = true) (hown : ∀ q s', OpenSites path (s.Inside path) q s' → q = path)
    (hend : endOf path ds = some (o.map Finished.output))
    (hprevious : ∀ fin, o = .ok fin → fin.context.previous = fin.output) :
    x.LeavesLast (endOf · ds) (OpenSites path (s.Inside path)) c o := by
  have hhere : OpenSites path (s.Inside path) path s := ⟨Step.inside_iff.mpr (.inl ⟨rfl, rfl⟩), openFrom_self path⟩
  refine ⟨fun fin ho => ?_, fun f ho _ => .none ?_⟩
  · subst ho
    rw [hprevious fin rfl]
    exact .single ⟨s, hhere, hs, hend⟩ fun q s' hq _ => hown q s' hq
  · rintro q v ⟨s', hs', -, hv⟩
    subst ho
    obtain rfl := hown q s' hs'
    exact absurd (hend.symm.trans hv) (by simp [Except.map])

theorem leaf_last (hs : s.isLeaf = true) : HasLast pace x s := by
  intro path c t u ds o h
  refine leavesLast_own (Step.records_of_isLeaf hs) (fun q s' hq => ?_) (endOf_leaf hs h) fun fin ho => ?_
  · exact ((Step.inside_of_isLeaf hs).mp hq.1).1
  · subst ho
    rw [leaf_finished hs h]
    rfl

/-- A parallel step leaves its own output, whatever has been done in its branches. -/
theorem parallel_last {id : Option String} {branches : List Step} :
    HasLast pace x (.parallel id branches) := by
  intro path c t u ds o h
  have hown : ∀ q s', OpenSites path ((Step.parallel id branches).Inside path) q s' → q = path := by
    rintro q s' ⟨hinside, hopen⟩
    rcases Step.inside_iff.mp hinside with ⟨rfl, -⟩ | ⟨b, hlist⟩
    · rfl
    · cases b with
      | parallel => exact absurd hopen (not_openFrom_of_parallel hlist)
      | whenTrue | whenFalse =>
        obtain ⟨j, s₀, hj, -⟩ := hlist
        simp [Step.listOf] at hj
  cases walk_parallel_course h with
  | @both os _ ds₁ ds₂ _ inner hend =>
    have hends := endOf_concluded
      (((steps_layout branches).2 inner).deedsFor_eq_nil fun s hs => listSites_ne hs rfl) hend
    obtain ⟨rfl, -, -⟩ := concluded_ended hend
    refine leavesLast_own (s := .parallel id branches) rfl hown hends fun fin ho => ?_
    unfold gather at ho
    split at ho
    · exact absurd ho (by simp)
    · rw [← Except.ok.inj ho]
      rfl

/-- **A condition gives what its chosen list has given**: nothing is done in the other one, and the condition
    itself records no output. -/
theorem gives_condition (id : Option String) (predicate : Predicate) {whenTrue : List Step}
    {whenFalse : Option (List Step)} {b : Bool} {ended : Prop}
    (hlayout : Layout pace x (listSites path (takenBranch b) 0 (takenSteps b whenTrue whenFalse)) ended ds)
    (hes : ∀ d ∈ es, d.step = some path) (q : StepPath) (v : Value) :
    Gives (endOf · (ds ++ es)) (OpenSites path ((Step.condition id predicate whenTrue whenFalse).Inside path)) q v
      ↔ Gives (endOf · ds)
          (OpenSites path (listSites path (takenBranch b) 0 (takenSteps b whenTrue whenFalse))) q v := by
  have hlist := Step.listOf_takenBranch id predicate whenTrue whenFalse b
  have hends (hq : q ≠ path) : endOf q (ds ++ es) = endOf q ds :=
    endOf_append_left (deedsFor_eq_nil fun d hd hstep =>
      hq (Option.some.inj (hstep.symm.trans (hes d hd))))
  constructor
  · rintro ⟨s', ⟨hinside, hopen⟩, hrecords, hv⟩
    rcases Step.inside_iff.mp hinside with ⟨-, rfl⟩ | ⟨b', hlist'⟩
    · exact absurd hrecords (by simp [Step.records, Step.isLeaf])
    · have hv : endOf q ds = some (.ok v) := (hends (listSites_ne hlist')).symm.trans hv
      by_cases hbranch : takenBranch b = b'
      · rw [← hbranch, hlist] at hlist'
        exact ⟨s', ⟨hlist', hopen⟩, hrecords, hv⟩
      · have hnone : endOf q ds = none := endOf_eq_none <|
          hlayout.deedsFor_eq_nil fun _ hs => hbranch (listSites_branch hs hlist')
        exact absurd (hnone.symm.trans hv) (by simp)
  · rintro ⟨s', ⟨hsite, hopen⟩, hrecords, hv⟩
    refine ⟨s', ⟨listSites_inside (b := takenBranch b) (hlist ▸ hsite), hopen⟩, hrecords, ?_⟩
    exact (hends (listSites_ne hsite)).trans hv

/-- A condition leaves what the list leaves that it has chosen. -/
theorem condition_last {id : Option String} {predicate : Predicate} {whenTrue : List Step}
    {whenFalse : Option (List Step)} (ih : ∀ b, HaveLast pace x (takenSteps b whenTrue whenFalse)) :
    HasLast pace x (.condition id predicate whenTrue whenFalse) := by
  intro path c t u ds o h
  rcases walk_condition_course h with ⟨f, -, hend⟩ | ⟨b, -, hturn⟩
  · obtain ⟨rfl, -, hsteps⟩ := concluded_ended hend
    refine ⟨fun _ h => absurd h (by simp), fun _ _ _ => .none ?_⟩
    -- a condition records no output, and nothing has been done inside
    rintro q v ⟨s', ⟨hinside, -⟩, hrecords, hv⟩
    rcases Step.inside_iff.mp hinside with ⟨-, rfl⟩ | ⟨b, hlist⟩
    · exact absurd hrecords (by simp [Step.records, Step.isLeaf])
    · have hnone : deedsFor q ds = [] := deedsFor_eq_nil fun d hd hq =>
        listSites_ne hlist (Option.some.inj (hq.symm.trans (hsteps d hd)))
      exact absurd ((endOf_eq_none hnone).symm.trans hv) (by simp)
  · cases hturn with
    | @both o₁ u₁ ds₁ ds₂ _ hlist hend =>
      obtain ⟨rfl, -, hsteps⟩ := concluded_ended hend
      have htaken := ih b (takenBranch_ne_parallel b) hlist
      have hgives := gives_condition id predicate ((steps_layout _).1 hlist) hsteps
      refine ⟨fun fin ho => ?_, fun f ho hf => ?_⟩
      · cases o₁ with
        | error f => exact absurd ho (by simp [chosen])
        | ok r =>
          rw [← Except.ok.inj ho]
          exact (htaken.ok r rfl).congr hgives
      · cases o₁ with
        | error f' => exact (htaken.failed f' rfl (Except.error.inj ho ▸ hf)).congr hgives
        | ok r => exact absurd ho (by simp [chosen])

theorem haveLast_nil : HaveLast pace x [] := by
  intro path b i c t u ds o _ h
  rw [walkList_nil] at h
  obtain ⟨rfl, -⟩ := Prod.mk.inj (h.of_done.2 _ rfl)
  refine ⟨fun fin ho => ?_, fun f ho _ => absurd ho (by simp)⟩
  rw [← Except.ok.inj ho]
  refine .none ?_
  rintro q v ⟨s', ⟨⟨j, s₀, hj, -⟩, -⟩, -⟩
  simp at hj

theorem haveLast_cons {rest : List Step} (hs : HasLast pace x s) (hrest : HaveLast pace x rest) :
    HaveLast pace x (s :: rest) := by
  intro path b i c t u ds o hb h
  cases walkList_course h with
  | failed _ hguarded hr =>
    obtain ⟨rfl, -⟩ := Prod.mk.inj (hr _ rfl)
    exact .of_stopsOn (guarded_eq_error hguarded).2
  | @goesOn _ r _ ds₁ ds₂ _ hwalk hguarded hnext =>
    have hhead := (hs hwalk).guarded hguarded
    have htail := hrest hb hnext
    have hfirst : LastOutput (endOf · (ds₁ ++ ds₂)) _ c.previous r.context.previous :=
      hhead.congr_sites (fun _ _ => .rfl) fun q s' hq => endOf_append_left <|
        ((steps_layout rest).1 hnext).deedsFor_eq_nil fun _ hs' => listSites_disjoint hq.1 hs'
    refine ⟨fun fin ho => ?_, fun f ho hf => ?_⟩
    · have hlater : LastOutput (endOf · (ds₁ ++ ds₂)) _ r.context.previous fin.context.previous :=
        (htail.ok fin ho).congr_sites (fun _ _ => .rfl) fun q s' hq => endOf_append_right <|
          (walk_layout s hwalk).deedsFor_eq_nil fun _ hs' => listSites_disjoint hs' hq.1
      refine hfirst.append hlater (fun q s' => ?_) fun q s₁ q' s₂ h₁ h₂ => listSites_before h₁.1 h₂.1
      constructor
      · rintro ⟨hsite, hopen⟩
        refine (listSites_cons.mp hsite).imp (fun h => ⟨h, ?_⟩) fun h => ⟨h, hopen⟩
        exact (openFrom_child_iff hb h).mp hopen
      · rintro (⟨hsite, hopen⟩ | ⟨hsite, hopen⟩)
        · exact ⟨listSites_head hsite, (openFrom_child_iff hb hsite).mpr hopen⟩
        · exact ⟨listSites_tail hsite, hopen⟩
    · exact absurd (hf.symm.trans (walkList_stops (ho ▸ hnext))) (by simp)

/-- **What a step leaves at hand**, whatever the step is. -/
theorem walk_leavesLast (s : Step) : HasLast pace x s := by
  refine Step.treeInduction (P := HasLast pace x) (Q := HaveLast pace x)
    (fun _ => leaf_last) (fun _ _ _ _ => condition_last) (fun _ _ _ => parallel_last) ?foreign
    haveLast_nil (fun _ _ => haveLast_cons) s
  intro call agent path c t u ds o h
  rw [walk_foreign] at h
  obtain ⟨rfl, -⟩ := concluded_ended h
  exact .of_stopsOn (Plan.stopsOn_of_isFatal rfl)

/-! ## What a step finds -/

/-- The steps at some places that feed a step. -/
def Feeders (S : Sites) (q : StepPath) : Sites := fun q' s => S q' s ∧ q'.Feeds q

/-- **Steps that find the last output** at hand. Whatever is done for a step that stands at one of some places is
    done in carrying it out with a context of the same run input as a given one; and what that has for its latest
    output is the last one of those of the places that feed the step, or else what the given one has. -/
def FindsLast (pace : Clock → Clock → Prop) (x : Execution) (S : Sites) (c : Context) (ds : List Deed) : Prop :=
  ∀ q, deedsFor q ds ≠ [] → ∃ s c' t es r, S q s ∧ Fiber.Course pace t (x.walk s q c') es r
    ∧ deedsFor q ds = deedsFor q es ∧ c'.input = c.input
    ∧ LastOutput (endOf · ds) (Feeders S q) c.previous c'.previous

namespace FindsLast

variable {c₁ : Context}

theorem of_none (h : ∀ d ∈ ds, d.step = none) : FindsLast pace x S c ds := fun q hq =>
  absurd (deedsFor_of_none h q) hq

/-- Only the deeds of the steps matter. -/
theorem congr (h : FindsLast pace x S c es) (hdeeds : ∀ q, deedsFor q ds = deedsFor q es) :
    FindsLast pace x S c ds := by
  intro q hq
  rw [hdeeds] at hq ⊢
  obtain ⟨s, c', t, fs, r, hs, hcourse, hown, hinput, hlast⟩ := h q hq
  exact ⟨s, c', t, fs, r, hs, hcourse, hown, hinput,
    hlast.congr_sites (fun _ _ => .rfl) fun q' _ _ => endOf_congr (hdeeds q')⟩

/-- What is done for no step does not matter. -/
theorem after_none (h : FindsLast pace x S c es) (hds : ∀ d ∈ ds, d.step = none) :
    FindsLast pace x S c (ds ++ es) := h.congr (deedsFor_after_none hds es)

theorem before_none (h : FindsLast pace x S c ds) (hes : ∀ d ∈ es, d.step = none) :
    FindsLast pace x S c (ds ++ es) := h.congr (deedsFor_before_none ds hes)

/-- More places, of which none of the further ones feeds a step at the others. -/
theorem widen (h : FindsLast pace x S c ds) (hST : ∀ q s, S q s → T q s)
    (hfeeds : ∀ q s q' s', S q s → T q' s' → q'.Feeds q → S q' s') : FindsLast pace x T c ds := by
  intro q hq
  obtain ⟨s, c', t, es, r, hs, hcourse, hown, hinput, hlast⟩ := h q hq
  refine ⟨s, c', t, es, r, hST q s hs, hcourse, hown, hinput, hlast.congr_sites (fun q' s' => ?_) fun _ _ _ => rfl⟩
  exact ⟨fun ⟨hs', hq'⟩ => ⟨hfeeds q s q' s' hs hs' hq', hq'⟩, fun ⟨hs', hq'⟩ => ⟨hST q' s' hs', hq'⟩⟩

/-- **The step lemma for lists and branches**: what is done at some places, and what is done at others that come
    after them, beginning with what those that feed them have left. -/
theorem join (h₁ : FindsLast pace x S c ds) (h₂ : FindsLast pace x T c₁ es) (hfs : Interleaved ds es fs)
    (hdisjoint : ∀ q s₁ s₂, S q s₁ → T q s₂ → False) (hU : ∀ q s, U q s ↔ S q s ∨ T q s)
    (hbefore : ∀ q s q' s', S q s → T q' s' → q.Before q' ∧ ¬ q'.Feeds q)
    (hinput : c₁.input = c.input)
    (hleft : ∀ q s, T q s → LastOutput (endOf · ds) (Feeders S q) c.previous c₁.previous) :
    FindsLast pace x U c fs := by
  have hnoneT {q : StepPath} {s : Step} (hs : S q s) : deedsFor q es = [] := by
    by_contra hq
    obtain ⟨s₂, _, _, _, _, hs₂, -⟩ := h₂ q hq
    exact hdisjoint q s s₂ hs hs₂
  have hnoneS {q : StepPath} {s : Step} (hs : T q s) : deedsFor q ds = [] := by
    by_contra hq
    obtain ⟨s₁, _, _, _, _, hs₁, -⟩ := h₁ q hq
    exact hdisjoint q s₁ s hs₁ hs
  have hends₁ {q : StepPath} {s : Step} (hs : S q s) : endOf q fs = endOf q ds :=
    endOf_interleaved_left hfs (hnoneT hs)
  have hends₂ {q : StepPath} {s : Step} (hs : T q s) : endOf q fs = endOf q es :=
    endOf_interleaved_left hfs.symm (hnoneS hs)
  intro q hq
  have hdeeds : Interleaved (deedsFor q ds) (deedsFor q es) (deedsFor q fs) := hfs.filter _
  -- whatever is done for one place is done on one side
  by_cases hds : deedsFor q ds = []
  · rw [hds] at hdeeds
    rw [hdeeds.symm.eq_of_nil_right] at hq ⊢
    obtain ⟨s, c', t, gs, r, hs, hcourse, hown, hinput', hlast⟩ := h₂ q hq
    refine ⟨s, c', t, gs, r, (hU q s).mpr (.inr hs), hcourse, hown, hinput'.trans hinput, ?_⟩
    have hfirst := (hleft q s hs).congr_sites (fun _ _ => .rfl) fun q' s' hs' => hends₁ hs'.1
    have hlater := hlast.congr_sites (fun _ _ => .rfl) fun q' s' hs' => hends₂ hs'.1
    refine hfirst.append hlater (fun q' s' => ?_) fun q₁ s₁ q₂ s₂ hs₁ hs₂ => (hbefore q₁ s₁ q₂ s₂ hs₁.1 hs₂.1).1
    unfold Feeders
    rw [hU, or_and_right]
  · obtain ⟨s, c', t, gs, r, hs, hcourse, hown, hinput', hlast⟩ := h₁ q hds
    rw [hnoneT hs] at hdeeds
    rw [hdeeds.eq_of_nil_right]
    refine ⟨s, c', t, gs, r, (hU q s).mpr (.inl hs), hcourse, hown, hinput', ?_⟩
    refine hlast.congr_sites (fun q' s' => ?_) fun q' s' hs' => hends₁ hs'.1
    constructor
    · rintro ⟨hs', hfeeds⟩
      exact ⟨((hU q' s').mp hs').resolve_right fun hs' => (hbefore q s q' s' hs hs').2 hfeeds, hfeeds⟩
    · rintro ⟨hs', hfeeds⟩
      exact ⟨(hU q' s').mpr (.inl hs'), hfeeds⟩

/-- A step that is carried out with the given context, and the steps in one of its lists. -/
theorem of_inside {r : Option (Outcome × Clock)} {b : Branch} (h : Fiber.Course pace t (x.walk s path c) ds r)
    (hinside : FindsLast pace x (listSites path b 0 (s.listOf b)) c es)
    (hdeeds : ∀ q, q ≠ path → deedsFor q ds = deedsFor q es) : FindsLast pace x (s.Inside path) c ds := by
  intro q hq
  by_cases hpath : q = path
  · subst hpath
    refine ⟨s, c, t, ds, r, Step.inside_iff.mpr (.inl ⟨rfl, rfl⟩), h, rfl, rfl, .none ?_⟩
    rintro q' v ⟨s', ⟨⟨way, rfl, -⟩, hfeeds⟩, -⟩
    exact StepPath.not_feeds_of_prefix (List.prefix_append ..) hfeeds
  · rw [hdeeds q hpath] at hq ⊢
    obtain ⟨s', c', t', fs, r', hs', hcourse, hown, hinput, hlast⟩ := hinside q hq
    refine ⟨s', c', t', fs, r', listSites_inside hs', hcourse, hown, hinput, ?_⟩
    refine hlast.congr_sites (fun q' s₁ => ?_) fun q' s₁ hs₁ => endOf_congr (hdeeds q' (listSites_ne hs₁.1))
    constructor
    · rintro ⟨hs₁, hfeeds⟩
      refine ⟨?_, hfeeds⟩
      rcases Step.inside_iff.mp hs₁ with ⟨rfl, rfl⟩ | ⟨b', hlist⟩
      · exact absurd hfeeds (StepPath.not_feeds_inside (listSites_below hs'))
      · by_cases hb : b' = b
        · exact hb ▸ hlist
        · exact absurd hfeeds (not_feeds_of_branch_ne hlist hs' hb)
    · exact fun ⟨hs₁, hfeeds⟩ => ⟨listSites_inside hs₁, hfeeds⟩

/-- A step for which nothing is done but what it does itself. -/
theorem of_own {r : Option (Outcome × Clock)} (h : Fiber.Course pace t (x.walk s path c) ds r)
    (hds : ∀ d ∈ ds, d.step = some path) : FindsLast pace x (s.Inside path) c ds := by
  have hnothing : FindsLast pace x (listSites path .parallel 0 (s.listOf .parallel)) c [] := .of_none (by simp)
  refine .of_inside h hnothing fun q hq => ?_
  exact deedsFor_eq_nil fun d hd hstep => hq (Option.some.inj (hstep.symm.trans (hds d hd)))

/-- A list of a step, and then its report. -/
theorem of_list {α : Type} {first : List Deed → Option (α × Clock) → Prop} {b : Branch} {id : Option String}
    {f : α → Outcome} {r : Option (Outcome × Clock)} (h : Fiber.Course pace t (x.walk s path c) ds r)
    (hturn : InTurn first (fun a u => Fiber.Course pace u (concluded path id (f a))) ds r)
    (h₁ : ∀ {es r}, first es r → FindsLast pace x (listSites path b 0 (s.listOf b)) c es) :
    FindsLast pace x (s.Inside path) c ds := by
  cases hturn with
  | first hf => exact of_inside h (h₁ hf) fun _ _ => rfl
  | @both _ _ ds₁ ds₂ _ hf hend =>
    refine of_inside h (h₁ hf) fun q hq => ?_
    have hnone : deedsFor q ds₂ = [] := deedsFor_eq_nil fun d hd hstep =>
      hq (Option.some.inj (hstep.symm.trans (concluded_own hend d hd)))
    rw [deedsFor_append, hnone, List.append_nil]

end FindsLast

/-- The run input stays as it is. -/
theorem inputRule (v : Value) : ContextRule (fun _ => True) (·.input = v) (·.input = v) where
  output _ _ h _ := h
  fault _ _ h := h
  fork h := h
  gathered _ _ h _ _ := Context.extends_mergeBranches.input.trans h

/-- A step leaves the run input that it has found. -/
theorem walk_input {i : Int} {r : Finished} (h : Fiber.Course pace t (x.walk s path c) ds (some (o, u)))
    (hguarded : x.guarded s i c o = .ok r) : r.context.input = c.input := by
  have hgood : OutputRule fun _ => True := ⟨trivial, fun _ => trivial, fun _ _ => trivial⟩
  refine (guarded_keepsContext hgood (inputRule c.input) rfl ?_ hguarded).1
  rintro fin rfl
  exact walk_keepsContext hgood (inputRule c.input) LeavesYield.trivial s (inputRule c.input) (List.Subset.refl ds)
    rfl h

/-- What the steps inside a step find. -/
def HasFound (pace : Clock → Clock → Prop) (x : Execution) (s : Step) : Prop :=
  ∀ {path : StepPath} {c : Context} {t : Clock} {ds : List Deed} {r : Option (Outcome × Clock)},
    Fiber.Course pace t (x.walk s path c) ds r → FindsLast pace x (s.Inside path) c ds

/-- The same of steps in a row, and of branches. -/
def HaveFound (pace : Clock → Clock → Prop) (x : Execution) (steps : List Step) : Prop :=
  (∀ {path : StepPath} {b : Branch} {i : Nat} {c : Context} {t : Clock} {ds : List Deed}
    {r : Option (Outcome × Clock)}, b ≠ .parallel → Fiber.Course pace t (x.walkList steps (path, b) i c) ds r →
    FindsLast pace x (listSites path b i steps) c ds) ∧
  ∀ {path : StepPath} {i : Nat} {c : Context} {t : Clock} {ds : List Deed} {r : Option (List Outcome × Clock)},
    Fiber.Courses pace t (x.walkBranches steps path i c) ds r →
    FindsLast pace x (listSites path .parallel i steps) c ds

theorem haveFound_nil : HaveFound pace x [] := by
  refine ⟨fun _ h => ?_, fun h => ?_⟩
  · rw [walkList_nil] at h
    rw [h.of_done.1]
    exact .of_none (by simp)
  · rw [walkBranches_nil] at h
    cases h <;> exact .of_none (by simp)

theorem haveFound_cons {rest : List Step} (hs : HasFound pace x s) (hrest : HaveFound pace x rest) :
    HaveFound pace x (s :: rest) := by
  -- what comes later in a list feeds nothing before it
  have honly {path : StepPath} {b : Branch} {i : Nat} {q q' : StepPath} {s₁ s₂ : Step}
      (h₁ : s.Inside (path.child b i s.kind) q s₁) (h₂ : listSites path b i (s :: rest) q' s₂)
      (hfeeds : q'.Feeds q) : s.Inside (path.child b i s.kind) q' s₂ :=
    (listSites_cons.mp h₂).resolve_right fun h₂ => not_feeds_of_later h₁ h₂ hfeeds
  constructor
  · intro path b i c t ds r hb h
    cases walkList_course h with
    | stopped hwalk | failed hwalk => exact (hs hwalk).widen (fun _ _ => listSites_head) fun _ _ _ _ => honly
    | @goesOn _ _ _ ds₁ ds₂ _ hwalk hguarded hnext =>
      refine (hs hwalk).join (hrest.1 hb hnext) (.append ds₁ ds₂) (fun _ _ _ => listSites_disjoint)
        (fun _ _ => listSites_cons) (fun _ _ _ _ h₁ h₂ => ⟨listSites_before h₁ h₂, not_feeds_of_later h₁ h₂⟩)
        (walk_input hwalk hguarded) fun q s' hq => ?_
      refine ((walk_leavesLast s hwalk).guarded hguarded).congr_sites (fun q' s₁ => ?_) fun _ _ _ => rfl
      exact and_congr_right fun hs₁ => (listSites_feeds hs₁ hq).trans (and_iff_right hb)
  · intro path i c t ds r h
    rw [walkBranches_cons] at h
    cases h with
    | stopped => exact .of_none (by simp)
    | cons first others hfs =>
      refine (hs first).join (hrest.2 others) hfs (fun _ _ _ => listSites_disjoint) (fun _ _ => listSites_cons)
        (fun _ _ _ _ h₁ h₂ => ⟨listSites_before h₁ h₂, not_feeds_of_later h₁ h₂⟩) rfl fun q s' hq => .none ?_
      rintro q' v ⟨s₁, ⟨hs₁, hfeeds⟩, -⟩
      exact ((listSites_feeds hs₁ hq).mp hfeeds).1 rfl

/-- **Every step finds the last output of those that feed it.** -/
theorem walk_findsLast (s : Step) : HasFound pace x s := by
  refine Step.treeInduction (P := HasFound pace x) (Q := HaveFound pace x)
    ?leaf ?condition ?parallel ?foreign haveFound_nil (fun _ _ => haveFound_cons) s
  case leaf =>
    intro s hs path c t ds r h
    obtain ⟨body, hbody, hcourse⟩ := walk_leaf_course hs h
    exact .of_own h fun d hd => (hcourse.treeCall hbody d hd).1
  case condition =>
    intro id predicate whenTrue whenFalse ih path c t ds r h
    rcases walk_condition_course h with ⟨f, -, hend⟩ | ⟨b, -, hturn⟩
    · exact .of_own h (concluded_own hend)
    · refine .of_list (b := takenBranch b) h hturn fun hwalk => ?_
      rw [Step.listOf_takenBranch]
      exact (ih b).1 (takenBranch_ne_parallel b) hwalk
  case parallel =>
    intro id branches ih path c t ds r h
    refine .of_list (b := .parallel) h (walk_parallel_course h) fun {es _} inner => ?_
    -- a fork has the run input and the latest output of the context
    have hfork : FindsLast pace x (listSites path .parallel 0 branches) c.fork es := ih.2 inner
    exact hfork
  case foreign =>
    intro call agent path c t ds r h
    have hend := h
    rw [walk_foreign] at hend
    exact .of_own h (concluded_own hend)

end Execution

end Runbook
