import Runbook.Proofs.Progress
import Runbook.Proofs.StepOutputs

/-!
# `Proofs.RootOutputs` — outputs along the root list

An attempt goes along the root list of its plan. With each step that it has carried out the outputs in its
context have grown by the entries of that step, so what they are at any position is known: what they were
where the attempt began, and then the entries of the steps from there on.

## Contents
- **Entries.** `Plan.entriesAt`, the entries of a step of the root list, and `Plan.entriesFrom`, those of
  steps in a row.
- **Positions.** `Enters`, and `CarriedOn`, how far deeds have come and with which outputs.
- **The root list.** `onward_carriedOn` and `onward_findsFree`, by induction on what is left of it.
-/

namespace Runbook

/-! ## Entries -/

/-- **The entries of a step of the root list**, as far as deeds tell. -/
def Plan.entriesAt (p : Plan) (ds : List Deed) (k : Nat) : Keyed Value :=
  match p.steps[k]? with
  | some s => s.entries ds (.root k s.kind)
  | none => []

/-- The entries of some steps of the root list in a row, from one of them on. -/
def Plan.entriesFrom (p : Plan) (ds : List Deed) (m n : Nat) : Keyed Value :=
  (List.range' m n).flatMap (p.entriesAt ds)

namespace Plan

variable {p : Plan} {ds es : List Deed} {k m n : Nat} {s : Step} {q : StepPath}

/-- Where the steps inside a step of the root list stand. -/
theorem has_and_rootIndex_iff :
    p.Has q s ∧ q.rootIndex? = some (k : Int)
      ↔ ∃ s₀, p.steps[k]? = some s₀ ∧ s₀.Inside (.root k s₀.kind) q s := by
  constructor
  · rintro ⟨hhas, hroot⟩
    cases hhas with
    | @root s₀ _ i rest hi h =>
      obtain rfl : i = k := Int.natCast_inj.mp (Option.some.inj hroot)
      exact ⟨s₀, hi, rest, rfl, h⟩
  · rintro ⟨s₀, hs₀, hinside⟩
    exact has_of_inside hs₀ hinside

/-- **Which entries a step of the root list has.** -/
theorem mem_entriesAt {entry : String × Value} :
    entry ∈ p.entriesAt ds k ↔ IsEntry ds (fun q s => p.Has q s ∧ q.rootIndex? = some (k : Int)) entry := by
  unfold entriesAt
  cases hs : p.steps[k]? with
  | none =>
    refine ⟨fun h => absurd h List.not_mem_nil, ?_⟩
    rintro ⟨q, s, hplace, -⟩
    obtain ⟨s₀, hs₀, -⟩ := has_and_rootIndex_iff.mp hplace
    exact absurd (hs.symm.trans hs₀) (by simp)
  | some s₀ =>
    dsimp only
    rw [mem_entries]
    constructor
    · exact fun h => h.mono fun q s hs' => has_and_rootIndex_iff.mpr ⟨s₀, hs, hs'⟩
    · refine fun h => h.mono fun q s hplace => ?_
      obtain ⟨s₁, hs₁, hinside⟩ := has_and_rootIndex_iff.mp hplace
      obtain rfl := Option.some.inj (hs.symm.trans hs₁)
      exact hinside

theorem entriesAt_eq (hs : p.steps[k]? = some s) : p.entriesAt ds k = s.entries ds (.root k s.kind) := by
  rw [entriesAt, hs]

/-- Entries depend only on what is done inside the step. -/
theorem entriesAt_congr (h : ∀ q : StepPath, q.rootIndex? = some (k : Int) → deedsFor q ds = deedsFor q es) :
    p.entriesAt ds k = p.entriesAt es k := by
  cases hs : p.steps[k]? with
  | none => rw [entriesAt, entriesAt, hs]
  | some s =>
    rw [entriesAt_eq hs, entriesAt_eq hs]
    exact entries_congr s _ fun q s' hinside => endOf_congr (h q (has_of_inside hs hinside).2)

theorem entriesFrom_congr
    (h : ∀ k, m ≤ k → ∀ q : StepPath, q.rootIndex? = some (k : Int) → deedsFor q ds = deedsFor q es) :
    p.entriesFrom ds m n = p.entriesFrom es m n := by
  unfold entriesFrom
  refine List.flatMap_congr fun k hk => entriesAt_congr (h k ?_)
  exact (List.mem_range'_1.mp hk).1

@[simp] theorem entriesFrom_zero : p.entriesFrom ds m 0 = [] := rfl

theorem entriesFrom_succ : p.entriesFrom ds m (n + 1) = p.entriesAt ds m ++ p.entriesFrom ds (m + 1) n := rfl

/-- What is left of the ids. -/
theorem stepIds_drop (hs : p.steps[k]? = some s) :
    stepIds (p.steps.drop k) = s.ids ++ stepIds (p.steps.drop (k + 1)) := by
  obtain ⟨hlt, rfl⟩ := List.getElem?_eq_some_iff.mp hs
  rw [List.drop_eq_getElem_cons hlt, stepIds_cons]

theorem stepIds_drop_of_none (hs : p.steps[k]? = none) : stepIds (p.steps.drop k) = [] := by
  rw [List.drop_eq_nil_of_le (List.getElem?_eq_none_iff.mp hs), stepIds_nil]

theorem stepIds_drop_succ_sublist (p : Plan) (k : Nat) :
    (stepIds (p.steps.drop (k + 1))).Sublist (stepIds (p.steps.drop k)) := by
  cases hs : p.steps[k]? with
  | none =>
    have hnone : p.steps[k + 1]? = none :=
      List.getElem?_eq_none_iff.mpr (Nat.le_succ_of_le (List.getElem?_eq_none_iff.mp hs))
    rw [stepIds_drop_of_none hnone]
    exact List.nil_sublist _
  | some s =>
    rw [stepIds_drop hs]
    exact List.sublist_append_right _ _

theorem stepIds_drop_sublist (p : Plan) (k : Nat) : (stepIds (p.steps.drop k)).Sublist p.ids := by
  induction k with
  | zero => rw [List.drop_zero, ids]
  | succ k ih => exact (p.stepIds_drop_succ_sublist k).trans ih

end Plan

/-- **Outputs that leave ids free**: they stand under different ids, and none of these belongs to a step
    from some position of the root list on. -/
structure LeavesFree (p : Plan) (k : Nat) (outputs : Keyed Value) : Prop where
  distinct : outputs.keys.Nodup
  free : ∀ id ∈ stepIds (p.steps.drop k), id ∉ outputs.keys

namespace LeavesFree

variable {p : Plan} {ds : List Deed} {k m n : Nat} {outputs : Keyed Value}

theorem nil : LeavesFree p 0 [] := ⟨List.nodup_nil, fun _ _ => List.not_mem_nil⟩

/-- The entries of the next step leave the ids of the steps after it free. -/
theorem entriesAt (hnodup : p.ids.Nodup) (h : LeavesFree p k outputs) (ds : List Deed) :
    LeavesFree p (k + 1) (outputs ++ p.entriesAt ds k) := by
  cases hs : p.steps[k]? with
  | none =>
    rw [Plan.entriesAt, hs, List.append_nil]
    exact ⟨h.distinct, fun id hid => h.free id ((p.stepIds_drop_succ_sublist k).subset hid)⟩
  | some s =>
    have hids := hnodup.sublist (p.stepIds_drop_sublist k)
    have hfree := h.free
    rw [Plan.stepIds_drop hs] at hids hfree
    obtain ⟨hhead, -, hdisjoint⟩ := List.nodup_append.mp hids
    have hkeys : (p.entriesAt ds k).keys.Sublist s.ids := by
      rw [Plan.entriesAt_eq hs]
      exact keys_entries s
    constructor
    · rw [Keyed.keys_append]
      refine List.nodup_append.mpr ⟨h.distinct, hhead.sublist hkeys, ?_⟩
      rintro key hold _ hnew rfl
      exact hfree key (List.mem_append_left _ (hkeys.subset hnew)) hold
    · intro id hid hmem
      rw [Keyed.keys_append, List.mem_append] at hmem
      rcases hmem with hold | hnew
      · exact hfree id (List.mem_append_right _ hid) hold
      · exact hdisjoint id (hkeys.subset hnew) id hid rfl

theorem entriesFrom (hnodup : p.ids.Nodup) (h : LeavesFree p m outputs) (ds : List Deed) (n : Nat) :
    LeavesFree p (m + n) (outputs ++ p.entriesFrom ds m n) := by
  induction n generalizing m outputs with
  | zero => rwa [Plan.entriesFrom_zero, List.append_nil]
  | succ n ih =>
    rw [Plan.entriesFrom_succ, ← List.append_assoc, show m + (n + 1) = m + 1 + n by omega]
    exact ih (h.entriesAt hnodup ds)

/-- What a backend keeps stands under the same ids. -/
theorem keepsFields (h : LeavesFree p k outputs) (b : Backend) : LeavesFree p k (b.keepsFields outputs) := by
  have hkeys : (b.keepsFields outputs).keys = outputs.keys := by
    rw [Backend.keepsFields_eq_map, Keyed.keys, Keyed.keys, List.map_map]
    rfl
  exact ⟨hkeys ▸ h.distinct, hkeys ▸ h.free⟩

end LeavesFree

/-! ## Positions -/

/-- A step of the root list is begun with a context. -/
def Enters (ds : List Deed) (k : Int) (c : Context) : Prop :=
  ∃ d ∈ ds, ∃ keepJournal, d.call = .enterStep k c keepJournal

section

variable {ds es fs : List Deed} {k : Int} {c : Context}

theorem enters_append : Enters (ds ++ es) k c ↔ Enters ds k c ∨ Enters es k c := by
  constructor
  · rintro ⟨d, hd, hcall⟩
    exact (List.mem_append.mp hd).imp (fun hd => ⟨d, hd, hcall⟩) fun hd => ⟨d, hd, hcall⟩
  · rintro (⟨d, hd, hcall⟩ | ⟨d, hd, hcall⟩)
    · exact ⟨d, List.mem_append_left _ hd, hcall⟩
    · exact ⟨d, List.mem_append_right _ hd, hcall⟩

theorem not_enters (h : ∀ d ∈ ds, ∀ k c keepJournal, d.call ≠ .enterStep k c keepJournal) :
    ¬ Enters ds k c := fun ⟨d, hd, keepJournal, hcall⟩ => h d hd k c keepJournal hcall

end

/-- **How far deeds have come** along the root list from a position on, where certain outputs were there: to
    a later position, and there are the entries of the steps between in addition. -/
structure CarriedOn (p : Plan) (ds : List Deed) (m : Nat) (outputs : Keyed Value) (k : Nat)
    (outputs' : Keyed Value) : Prop where
  le : m ≤ k
  bound : k ≤ p.steps.length
  entered : ∀ i : Nat, m ≤ i → i ≤ k → ∃ c, Enters ds i c
  steps : outputs' = outputs ++ p.entriesFrom ds m (k - m)

namespace CarriedOn

variable {p : Plan} {ds es fs : List Deed} {m k : Nat} {outputs outputs' : Keyed Value} {c : Context}
  {s : Step}

/-- At the position where the deeds begin. -/
theorem refl (hm : m ≤ p.steps.length) (h : Enters ds m c) : CarriedOn p ds m outputs m outputs where
  le := Nat.le_refl m
  bound := hm
  entered i hmi him := by
    obtain rfl := Nat.le_antisymm him hmi
    exact ⟨c, h⟩
  steps := by rw [Nat.sub_self, Plan.entriesFrom_zero, List.append_nil]

/-- From one position to the next, and on from there. -/
theorem succ (h : CarriedOn p es (m + 1) (outputs ++ p.entriesAt ds m) k outputs') (henters : Enters ds m c)
    (hes : ∀ k c, Enters es k c → Enters ds k c)
    (hsame : p.entriesFrom ds (m + 1) (k - (m + 1)) = p.entriesFrom es (m + 1) (k - (m + 1))) :
    CarriedOn p ds m outputs k outputs' where
  le := Nat.le_of_succ_le h.le
  bound := h.bound
  entered i hmi hik := by
    rcases Nat.eq_or_lt_of_le hmi with rfl | hlt
    · exact ⟨c, henters⟩
    · exact (h.entered i hlt hik).imp fun c => hes i c
  steps := by
    have hle := h.le
    rw [show k - m = k - (m + 1) + 1 by omega, Plan.entriesFrom_succ, hsame, h.steps, List.append_assoc]

end CarriedOn

/-- The ids of the steps that are left stay free. -/
theorem CarriedOn.leavesFree {p : Plan} {ds : List Deed} {m k : Nat} {outputs outputs' : Keyed Value}
    (h : CarriedOn p ds m outputs k outputs') (hnodup : p.ids.Nodup) (hfree : LeavesFree p m outputs) :
    LeavesFree p k outputs' := by
  have hall := hfree.entriesFrom hnodup ds (k - m)
  rwa [← h.steps, Nat.add_sub_cancel' h.le] at hall

/-! ## The root list -/

section

variable {pace : Clock → Clock → Prop} {x : Execution} {m : Nat} {c : Context} {t u : Clock}
  {keepJournal : Bool} {ds es : List Deed} {r : Option (Outcome × Clock)} {s : Step}

/-- A step asks for nothing at the root list. -/
theorem Execution.TreeCall.ne_enterStep {q : StepPath} {call : Call} (h : x.TreeCall q call) (k : Int)
    (c : Context) (keepJournal : Bool) : call ≠ .enterStep k c keepJournal := by
  rintro rfl
  cases h with
  | serves h =>
    cases h with
    | outside h => exact absurd h (by simp [Call.isOutside])

/-- What is done for a step of the root list is done inside it. -/
theorem walk_rootIndex (h : Fiber.Course pace t (x.walk s (.root m s.kind) c) ds r) :
    ∀ d ∈ ds, ∃ q : StepPath, d.step = some q ∧ q.rootIndex? = some (m : Int) ∧ x.TreeCall q d.call := by
  intro d hd
  obtain ⟨q, hq, -, hstep, hcall⟩ := (x.walk_parts s (StepPath.proper_root m s) rfl h d hd).treeCall
  refine ⟨q, hstep, ?_, hcall⟩
  rw [StepPath.rootIndex?_of_prefix hq (by simp [StepPath.root]), StepPath.rootIndex?_root]

/-- What is left of the root list is done from its position on. -/
theorem onward_rootIndex (h : Fiber.Course pace t (x.onward m keepJournal c) ds r) {d : Deed} (hd : d ∈ ds)
    {q : StepPath} (hstep : d.step = some q) : ∃ i : Nat, m ≤ i ∧ q.rootIndex? = some (i : Int) := by
  have hroot {es : List Deed} {r : Option (Outcome × Clock)}
      (h : Fiber.Course pace t (x.walkRoot (numbered m (x.plan.steps.drop m)) keepJournal c) es r)
      (hd : d ∈ es) : ∃ i : Nat, m ≤ i ∧ q.rootIndex? = some (i : Int) := by
    obtain ⟨s, k, s₀, hmem, inner, rfl, -⟩ :=
      (Execution.walkRoot_layout (nodup_numbered m _) h).site hd hstep
    obtain ⟨j, rfl, -⟩ := mem_numbered.mp hmem
    exact ⟨m + j, Nat.le_add_right m j, rfl⟩
  unfold Execution.onward at h
  cases h.of_andThen with
  | first hwalk => exact hroot hwalk hd
  | both hwalk hend =>
    rcases List.mem_append.mp hd with hd | hd
    · exact hroot hwalk hd
    · exact absurd (hstep.symm.trans (hend.of_toFiber_done.step_eq d hd)) (by simp)

/-- With what a position is entered. -/
theorem enters_of_enter {q : Option (Except Fault Unit × Clock)}
    (h : Program.Course pace none t (x.enter m keepJournal c).outcome ds q) :
    (∀ k c', Enters ds k c' → k = m ∧ c' = c) ∧ (q ≠ none → Enters ds m c) ∧ ∀ d ∈ ds, d.step = none := by
  rcases enter_course h with ⟨rfl, rfl⟩ | ⟨d, rest, rfl, hstep, hcall, hrest⟩
  · exact ⟨fun k c' ⟨d, hd, _⟩ => absurd hd List.not_mem_nil, by simp, by simp⟩
  · refine ⟨fun k c' ⟨e, he, keepJournal', hcall'⟩ => ?_, fun _ => ⟨d, List.mem_cons_self, _, hcall⟩, ?_⟩
    · rcases List.mem_cons.mp he with rfl | he
      · obtain ⟨rfl, rfl, -⟩ := Call.enterStep.inj (hcall'.symm.trans hcall)
        exact ⟨rfl, rfl⟩
      · exact absurd (hcall'.symm.trans (hrest e he).2.1) (by simp)
    · exact List.forall_mem_cons.mpr ⟨hstep, fun e he => (hrest e he).1⟩

/-- What is done for a step of the root list begins no position. -/
theorem walk_ne_enterStep (h : Fiber.Course pace t (x.walk s (.root m s.kind) c) ds r) :
    ∀ d ∈ ds, ∀ k c keepJournal, d.call ≠ .enterStep k c keepJournal := by
  intro d hd
  obtain ⟨_, -, -, hcall⟩ := walk_rootIndex h d hd
  exact hcall.ne_enterStep

/-- What is done at one position and what is done from the next one on have no step in common. -/
theorem deedsFor_apart {ws fs : List Deed} {r' : Option (Outcome × Clock)} {c₁ : Context}
    (hes : ∀ d ∈ es, d.step = none) (hwalk : Fiber.Course pace t (x.walk s (.root m s.kind) c) ws r)
    (hnext : Fiber.Course pace u (x.onward (m + 1) keepJournal c₁) fs r') :
    (∀ q : StepPath, q.rootIndex? = some (m : Int) → deedsFor q (es ++ (ws ++ fs)) = deedsFor q ws)
      ∧ ∀ (q : StepPath) (i : Nat), m < i → q.rootIndex? = some (i : Int) →
          deedsFor q (es ++ (ws ++ fs)) = deedsFor q fs := by
  constructor
  · intro q hq
    have hlater : deedsFor q fs = [] := deedsFor_eq_nil fun d hd hstep => by
      obtain ⟨i, hi, hroot⟩ := onward_rootIndex hnext hd hstep
      have := Int.natCast_inj.mp (Option.some.inj (hq.symm.trans hroot))
      omega
    rw [deedsFor_after_none hes, deedsFor_append, hlater, List.append_nil]
  · intro q i hi hq
    have hearlier : deedsFor q ws = [] := deedsFor_eq_nil fun d hd hstep => by
      obtain ⟨q', hq', hroot, -⟩ := walk_rootIndex hwalk d hd
      obtain rfl := Option.some.inj (hstep.symm.trans hq')
      have := Int.natCast_inj.mp (Option.some.inj (hq.symm.trans hroot))
      omega
    rw [deedsFor_after_none hes, deedsFor_append, hearlier, List.nil_append]

/-- The ids of a step of the root list are new where it is begun. -/
theorem LeavesFree.lacks (hnodup : x.plan.ids.Nodup) (hfree : LeavesFree x.plan m c.steps)
    (hs : x.plan.steps[m]? = some s) : s.ids.Nodup ∧ c.Lacks s.ids := by
  have hids := hnodup.sublist (x.plan.stepIds_drop_sublist m)
  have hnew : c.Lacks (stepIds (x.plan.steps.drop m)) := hfree.free
  rw [Plan.stepIds_drop hs] at hids hnew
  exact ⟨hids.sublist (List.sublist_append_left _ _), hnew.mono (List.subset_append_left _ _)⟩

/-- **What a step of the root list adds to the outputs**, if the list goes on after it. -/
theorem walk_entriesAt {o : Outcome} {fin : Finished} (hnodup : x.plan.ids.Nodup)
    (hfree : LeavesFree x.plan m c.steps) (hs : x.plan.steps[m]? = some s)
    (hwalk : Fiber.Course pace t (x.walk s (.root m s.kind) c) ds (some (o, u)))
    (hguarded : x.guarded s m c o = .ok fin) :
    fin.context.steps = c.steps ++ x.plan.entriesAt ds m := by
  obtain ⟨hids, hnew⟩ := hfree.lacks hnodup hs
  rw [Plan.entriesAt_eq hs]
  exact (Execution.walk_entries s hids hnew hwalk).guarded hguarded

/-- **The outputs along the root list**, if all ids are different and those of the steps that are left are
    new: at each position that is begun, and at the end, they are known. -/
theorem onward_carriedOn (hnodup : x.plan.ids.Nodup) (hm : m ≤ x.plan.steps.length)
    (hfree : LeavesFree x.plan m c.steps)
    (h : Fiber.Course pace t (x.onward m keepJournal c) ds r) :
    (∀ k c', Enters ds k c' → ∃ i : Nat, k = i ∧ CarriedOn x.plan ds m c.steps i c'.steps)
      ∧ ∀ fin v, r = some (.ok fin, v) →
          CarriedOn x.plan ds m c.steps x.plan.steps.length fin.context.steps := by
  -- by induction on the number of steps that are left
  obtain ⟨left, hleft⟩ : ∃ left, m + left = x.plan.steps.length := ⟨_, Nat.add_sub_cancel' hm⟩
  induction left using Nat.strongRecOn generalizing m keepJournal c ds t r with | _ left ih
  have hhere {ds es : List Deed} {q : Option (Except Fault Unit × Clock)} {keepJournal : Bool}
      (henter : Program.Course pace none t (x.enter m keepJournal c).outcome ds q)
      (hes : ∀ d ∈ es, ∀ k c keepJournal, d.call ≠ .enterStep k c keepJournal) :
      ∀ k c', Enters (ds ++ es) k c' → ∃ i : Nat, k = i
        ∧ CarriedOn x.plan (ds ++ es) m c.steps i c'.steps := by
    intro k c' hk
    obtain ⟨rfl, rfl⟩ := (enters_of_enter henter).1 k c' ((enters_append.mp hk).resolve_right (not_enters hes))
    exact ⟨m, rfl, .refl hm hk⟩
  cases onward_course hm h with
  | entering henter =>
    have hnone : ∀ d ∈ ([] : List Deed), ∀ k c keepJournal, d.call ≠ .enterStep k c keepJournal := by simp
    have hall := hhere henter hnone
    rw [List.append_nil] at hall
    exact ⟨hall, by simp⟩
  | @entered v es₀ es _ henter hrest =>
    have hbegun : Enters es₀ m c := (enters_of_enter henter).2.1 (by simp)
    cases hrest with
    | inside hs hwalk => exact ⟨hhere henter (walk_ne_enterStep hwalk), by simp⟩
    | @failed s _ _ ws _ _ f _ hs hwalk hguarded hes hr =>
      refine ⟨hhere henter fun d hd => ?_, fun fin v hres => absurd (hr _ hres) (by simp)⟩
      rcases List.mem_append.mp hd with hd | hd
      · exact walk_ne_enterStep hwalk d hd
      · exact fun k c keepJournal => by rw [(hes d hd).2]; simp
    | last hend hes hr =>
      refine ⟨hhere henter fun d hd k c keepJournal => by rw [(hes d hd).2]; simp, fun fin v hres => ?_⟩
      obtain rfl := Except.ok.inj (hr _ hres)
      rw [← hend]
      exact .refl hm (enters_append.mpr (.inl hbegun))
    | @on s _ u ws fs o fin _ hs hwalk hguarded hnext =>
      have hlt : m < x.plan.steps.length := (List.getElem?_eq_some_iff.mp hs).1
      obtain ⟨hdone, hlater⟩ := deedsFor_apart (enters_of_enter henter).2.2 hwalk hnext
      have hthis : x.plan.entriesAt (es₀ ++ (ws ++ fs)) m = x.plan.entriesAt ws m := Plan.entriesAt_congr hdone
      have hmore : fin.context.steps = c.steps ++ x.plan.entriesAt (es₀ ++ (ws ++ fs)) m := by
        rw [hthis]
        exact walk_entriesAt hnodup hfree hs hwalk hguarded
      obtain ⟨hall, hlast⟩ := ih (left - 1) (by omega) hlt (hmore ▸ hfree.entriesAt hnodup _) hnext (by omega)
      have hrest (n : Nat) : x.plan.entriesFrom (es₀ ++ (ws ++ fs)) (m + 1) n
          = x.plan.entriesFrom fs (m + 1) n :=
        Plan.entriesFrom_congr fun k hk q hq => hlater q k hk hq
      have hsucc {k : Nat} {outputs : Keyed Value}
          (h : CarriedOn x.plan fs (m + 1) fin.context.steps k outputs) :
          CarriedOn x.plan (es₀ ++ (ws ++ fs)) m c.steps k outputs := by
        rw [hmore] at h
        refine h.succ (enters_append.mpr (.inl hbegun)) (fun k c hk => ?_) (hrest _)
        exact enters_append.mpr (.inr (enters_append.mpr (.inr hk)))
      refine ⟨fun k c' hk => ?_, fun fin' v hres => hsucc (hlast fin' v hres)⟩
      rcases enters_append.mp hk with hk | hk
      · obtain ⟨rfl, rfl⟩ := (enters_of_enter henter).1 k c' hk
        exact ⟨m, rfl, .refl hm (enters_append.mpr (.inl hbegun))⟩
      · have hk := (enters_append.mp hk).resolve_left (not_enters (walk_ne_enterStep hwalk))
        obtain ⟨i, rfl, hcarried⟩ := hall k c' hk
        exact ⟨i, rfl, hsucc hcarried⟩

/-- **Along the root list every step finds its id free**, if all ids are different and those of the steps
    that are left are new. -/
theorem onward_findsFree (hnodup : x.plan.ids.Nodup) (hm : m ≤ x.plan.steps.length)
    (hfree : LeavesFree x.plan m c.steps)
    (h : Fiber.Course pace t (x.onward m keepJournal c) ds r) :
    x.FindsFree pace (fun q s => x.plan.Has q s ∧ ∃ i : Nat, m ≤ i ∧ q.rootIndex? = some (i : Int)) ds := by
  -- by induction on the number of steps that are left
  obtain ⟨left, hleft⟩ : ∃ left, m + left = x.plan.steps.length := ⟨_, Nat.add_sub_cancel' hm⟩
  induction left using Nat.strongRecOn generalizing m keepJournal c ds t r with | _ left ih
  have hwalked {s : Step} {t : Clock} {ds : List Deed} {q : Option (Outcome × Clock)}
      (hs : x.plan.steps[m]? = some s)
      (hwalk : Fiber.Course pace t (x.walk s (.root m s.kind) c) ds q) :
      x.FindsFree pace (fun q s' => x.plan.Has q s' ∧ q.rootIndex? = some (m : Int)) ds := by
    obtain ⟨hids, hnew⟩ := hfree.lacks hnodup hs
    exact (Execution.walk_findsFree s hids hnew hwalk).mono fun q s' hinside =>
      Plan.has_and_rootIndex_iff.mpr ⟨s, hs, hinside⟩
  have hhere : ∀ q s', x.plan.Has q s' ∧ q.rootIndex? = some (m : Int) →
      x.plan.Has q s' ∧ ∃ i : Nat, m ≤ i ∧ q.rootIndex? = some (i : Int) :=
    fun q s' h => ⟨h.1, m, Nat.le_refl m, h.2⟩
  cases onward_course hm h with
  | entering henter => exact .of_none (enters_of_enter henter).2.2
  | entered henter hrest =>
    refine Execution.FindsFree.after_none ?_ (enters_of_enter henter).2.2
    cases hrest with
    | inside hs hwalk => exact (hwalked hs hwalk).mono hhere
    | failed hs hwalk hguarded hes hr =>
      exact ((hwalked hs hwalk).mono hhere).before_none fun d hd => (hes d hd).1
    | last hend hes hr => exact .of_none fun d hd => (hes d hd).1
    | @on s _ u ws fs o fin _ hs hwalk hguarded hnext =>
      have hlt : m < x.plan.steps.length := (List.getElem?_eq_some_iff.mp hs).1
      have hlater : LeavesFree x.plan (m + 1) fin.context.steps := by
        rw [walk_entriesAt hnodup hfree hs hwalk hguarded]
        exact hfree.entriesAt hnodup ws
      refine (hwalked hs hwalk).join (ih (left - 1) (by omega) hlt hlater hnext (by omega)) (.append ws fs)
        ?_ hhere ?_
      · rintro q s₁ s₂ ⟨-, hq⟩ ⟨-, i, hi, hq'⟩
        have := Int.natCast_inj.mp (Option.some.inj (hq.symm.trans hq'))
        omega
      · rintro q s' ⟨hhas, i, hi, hq⟩
        exact ⟨hhas, i, Nat.le_of_succ_le hi, hq⟩

end

end Runbook
