import Runbook.Proofs.DataFlow
import Runbook.Proofs.RootOutputs

/-!
# `Proofs.RootFlow` — outputs handed on along the root list

An attempt begins at a position of the root list, with a context that earlier attempts may have brought there.
From there on each step finds what those before it have left. So at every position the latest output is the
last one of the open steps since the beginning, or else the one that was there; and every step below a position
finds the last output of those that feed it.

## Contents
- **Positions.** `Plan.Between`, the steps between two positions, and `Plan.OpenBetween`; what feeds what.
- **The root list.** `ArrivesAt` and `onward_arrivesAt`; `onward_findsLast`; both by induction on what is left.
-/

namespace Runbook

/-! ## Positions -/

/-- The steps inside those of the root list from one position up to another. -/
def Plan.Between (p : Plan) (m k : Nat) : Sites :=
  fun q s => p.Has q s ∧ ∃ i : Nat, m ≤ i ∧ i < k ∧ q.rootIndex? = some (i : Int)

/-- The open ones among them. -/
def Plan.OpenBetween (p : Plan) (m k : Nat) : Sites := fun q s => p.Between m k q s ∧ q.Open

section

variable {p : Plan} {m k n : Nat} {q q' : StepPath} {s s' s₀ : Step} {ds : List Deed}

theorem Plan.not_between_self : ¬ p.Between m m q s := by
  rintro ⟨-, i, hmi, him, -⟩
  omega

/-- From one position to another, and on to a third one. -/
theorem Plan.between_split (hmk : m ≤ k) (hkn : k ≤ n) :
    p.Between m n q s ↔ p.Between m k q s ∨ p.Between k n q s := by
  constructor
  · rintro ⟨hhas, i, hmi, hin, hq⟩
    rcases Nat.lt_or_ge i k with hik | hki
    · exact .inl ⟨hhas, i, hmi, hik, hq⟩
    · exact .inr ⟨hhas, i, hki, hin, hq⟩
  · rintro (⟨hhas, i, hmi, hik, hq⟩ | ⟨hhas, i, hki, hin, hq⟩)
    · exact ⟨hhas, i, hmi, Nat.lt_of_lt_of_le hik hkn, hq⟩
    · exact ⟨hhas, i, Nat.le_trans hmk hki, hin, hq⟩

theorem Plan.openBetween_split (hmk : m ≤ k) (hkn : k ≤ n) :
    p.OpenBetween m n q s ↔ p.OpenBetween m k q s ∨ p.OpenBetween k n q s := by
  rw [OpenBetween, between_split hmk hkn, or_and_right]
  rfl

/-- The steps at one position. -/
theorem Plan.between_succ_iff : p.Between m (m + 1) q s ↔ p.Has q s ∧ q.rootIndex? = some (m : Int) := by
  constructor
  · rintro ⟨hhas, i, hmi, him, hq⟩
    obtain rfl : i = m := by omega
    exact ⟨hhas, hq⟩
  · rintro ⟨hhas, hq⟩
    exact ⟨hhas, m, Nat.le_refl m, Nat.lt_succ_self m, hq⟩

/-- The steps inside one step of the root list. -/
theorem Plan.between_succ (hs : p.steps[m]? = some s₀) :
    p.Between m (m + 1) q s ↔ s₀.Inside (.root m s₀.kind) q s := by
  rw [between_succ_iff, has_and_rootIndex_iff]
  constructor
  · rintro ⟨s₁, hs₁, hinside⟩
    obtain rfl := Option.some.inj (hs.symm.trans hs₁)
    exact hinside
  · exact fun hinside => ⟨s₀, hs, hinside⟩

/-- What is open inside a step of the root list. -/
theorem Plan.openBetween_succ (hs : p.steps[m]? = some s₀) :
    p.OpenBetween m (m + 1) q s
      ↔ OpenSites (.root m s₀.kind) (s₀.Inside (.root m s₀.kind)) q s := by
  unfold OpenBetween OpenSites
  rw [between_succ hs]
  refine and_congr_right ?_
  rintro ⟨way, rfl, -⟩
  constructor
  · exact fun hopen => ⟨way, rfl, fun place hplace => hopen place (List.mem_append_right _ hplace)⟩
  · rintro ⟨way', hway, hopen⟩
    obtain rfl := List.append_cancel_left hway
    exact List.forall_mem_append.mpr ⟨List.forall_mem_singleton.mpr (by simp), hopen⟩

/-- Steps at different positions: how their places begin. -/
theorem Plan.between_places (h : p.Between m k q s) (h' : p.Between k n q' s') :
    ∃ i j kind kind' way way', i < j ∧ q = ⟨none, i, kind⟩ :: way ∧ q' = ⟨none, j, kind'⟩ :: way' := by
  obtain ⟨hhas, i, -, hik, hq⟩ := h
  obtain ⟨hhas', j, hkj, -, hq'⟩ := h'
  cases hhas with
  | root hi hinside =>
    cases hhas' with
    | root hj hinside' =>
      have hi := Option.some.inj hq
      have hj := Option.some.inj hq'
      dsimp only at hi hj
      exact ⟨_, _, _, _, _, _, by omega, rfl, rfl⟩

/-- Steps at an earlier position come before those at a later one. -/
theorem Plan.Between.before (h : p.Between m k q s) (h' : p.Between k n q' s') : q.Before q' := by
  obtain ⟨i, j, kind, kind', way, way', hij, rfl, rfl⟩ := p.between_places h h'
  have hne : (⟨none, i, kind⟩ : Place) ≠ ⟨none, j, kind'⟩ := by simp [Int.ne_of_lt hij]
  rw [StepPath.Before, if_neg hne]
  exact hij

/-- **What feeds a step at a later position**: all that is open. -/
theorem Plan.Between.feeds_iff (h : p.Between m k q s) (h' : p.Between k n q' s') : q.Feeds q' ↔ q.Open := by
  obtain ⟨i, j, kind, kind', way, way', hij, rfl, rfl⟩ := p.between_places h h'
  have hne : (⟨none, i, kind⟩ : Place) ≠ ⟨none, j, kind'⟩ := by simp [Int.ne_of_lt hij]
  rw [StepPath.Feeds, if_neg hne]
  unfold StepPath.Open
  simp [hij]

/-- A step at a later position feeds none at an earlier one. -/
theorem Plan.Between.not_feeds (h : p.Between m k q s) (h' : p.Between k n q' s') : ¬ q'.Feeds q :=
  fun hfeeds => StepPath.not_before_of_before (h.before h') hfeeds.before

/-- Steps at different positions are not the same. -/
theorem Plan.Between.disjoint (h : p.Between m k q s) (h' : p.Between k n q s') : False := by
  obtain ⟨-, i, -, hik, hq⟩ := h
  obtain ⟨-, j, hkj, -, hq'⟩ := h'
  have := Int.natCast_inj.mp (Option.some.inj (hq.symm.trans hq'))
  omega

end

/-! ## The root list -/

/-- **Where deeds arrive along the root list**, from a position on with a context: they begin that position with
    it; or they begin a later one, with the same run input, and with the last output that the open steps between
    the two have given. -/
structure ArrivesAt (p : Plan) (ds : List Deed) (m : Nat) (c : Context) (k : Nat) (c' : Context) : Prop where
  le : m ≤ k
  bound : k ≤ p.steps.length
  here : k = m → c' = c
  input : c'.input = c.input
  last : LastOutput (endOf · ds) (p.OpenBetween m k) c.previous c'.previous

theorem ArrivesAt.refl {p : Plan} {ds : List Deed} {m : Nat} {c : Context} (hm : m ≤ p.steps.length) :
    ArrivesAt p ds m c m c :=
  ⟨Nat.le_refl m, hm, fun _ => rfl, rfl, .none fun _ _ ⟨_, hs, _⟩ => Plan.not_between_self hs.1⟩

section

open Execution

variable {pace : Clock → Clock → Prop} {x : Execution} {m : Nat} {c : Context} {t u : Clock}
  {keepJournal : Bool} {ds es fs ws : List Deed} {r : Option (Outcome × Clock)} {s : Step}

/-- What a step of the root list leaves at hand, if the list goes on after it. -/
theorem walk_lastBetween {o : Outcome} {fin : Finished} (hs : x.plan.steps[m]? = some s)
    (hwalk : Fiber.Course pace t (x.walk s (.root m s.kind) c) ws (some (o, u)))
    (hguarded : x.guarded s m c o = .ok fin) :
    LastOutput (endOf · ws) (x.plan.OpenBetween m (m + 1)) c.previous fin.context.previous :=
  ((walk_leavesLast s hwalk).guarded hguarded).congr_sites (fun _ _ => Plan.openBetween_succ hs)
    fun _ _ _ => rfl

/-- **The latest output along the root list.** -/
theorem onward_arrivesAt (hm : m ≤ x.plan.steps.length) (h : Fiber.Course pace t (x.onward m keepJournal c) ds r) :
    ∀ k c', Enters ds k c' → ∃ i : Nat, k = i ∧ ArrivesAt x.plan ds m c i c' := by
  -- by induction on the number of steps that are left
  obtain ⟨left, hleft⟩ : ∃ left, m + left = x.plan.steps.length := ⟨_, Nat.add_sub_cancel' hm⟩
  induction left using Nat.strongRecOn generalizing m keepJournal c ds t r with | _ left ih
  have hhere {ds es : List Deed} {q : Option (Except Fault Unit × Clock)} {keepJournal : Bool}
      (henter : Program.Course pace none t (x.enter m keepJournal c).outcome ds q)
      (hes : ∀ d ∈ es, ∀ k c keepJournal, d.call ≠ .enterStep k c keepJournal) :
      ∀ k c', Enters (ds ++ es) k c' → ∃ i : Nat, k = i ∧ ArrivesAt x.plan (ds ++ es) m c i c' := by
    intro k c' hk
    obtain ⟨rfl, rfl⟩ := (enters_of_enter henter).1 k c' ((enters_append.mp hk).resolve_right (not_enters hes))
    exact ⟨m, rfl, .refl hm⟩
  cases onward_course hm h with
  | entering henter =>
    have hnone : ∀ d ∈ ([] : List Deed), ∀ k c keepJournal, d.call ≠ .enterStep k c keepJournal := by simp
    have hall := hhere henter hnone
    rwa [List.append_nil] at hall
  | @entered v es₀ es _ henter hrest =>
    cases hrest with
    | inside hs hwalk => exact hhere henter (walk_ne_enterStep hwalk)
    | failed hs hwalk hguarded hes hr =>
      refine hhere henter fun d hd => ?_
      rcases List.mem_append.mp hd with hd | hd
      · exact walk_ne_enterStep hwalk d hd
      · exact fun k c keepJournal => by rw [(hes d hd).2]; simp
    | last hend hes hr => exact hhere henter fun d hd k c keepJournal => by rw [(hes d hd).2]; simp
    | @on s _ u ws fs o fin _ hs hwalk hguarded hnext =>
      have hlt : m < x.plan.steps.length := (List.getElem?_eq_some_iff.mp hs).1
      intro k c' hk
      rcases enters_append.mp hk with hk | hk
      · obtain ⟨rfl, rfl⟩ := (enters_of_enter henter).1 k c' hk
        exact ⟨m, rfl, .refl hm⟩
      · have hk := (enters_append.mp hk).resolve_left (not_enters (walk_ne_enterStep hwalk))
        obtain ⟨i, rfl, harrives⟩ := ih (left - 1) (by omega) hlt hnext (by omega) k c' hk
        obtain ⟨hthis, hrest⟩ := deedsFor_apart (enters_of_enter henter).2.2 hwalk hnext
        have hfirst := (walk_lastBetween hs hwalk hguarded).congr_sites (fun _ _ => .rfl)
          fun q s' hs' => endOf_congr (hthis q (Plan.between_succ_iff.mp hs'.1).2)
        have hlater : LastOutput (endOf · (es₀ ++ (ws ++ fs))) (x.plan.OpenBetween (m + 1) i)
            fin.context.previous c'.previous := by
          refine harrives.last.congr_sites (fun _ _ => .rfl) ?_
          rintro q s' ⟨⟨-, j, hmj, -, hq⟩, -⟩
          exact endOf_congr (hrest q j hmj hq)
        have hne : i ≠ m := Nat.ne_of_gt harrives.le
        refine ⟨i, rfl, Nat.le_of_succ_le harrives.le, harrives.bound, fun hi => absurd hi hne,
          harrives.input.trans (walk_input hwalk hguarded), ?_⟩
        exact hfirst.append hlater (fun q s' => Plan.openBetween_split (Nat.le_succ m) harrives.le)
          fun q s₁ q' s₂ h₁ h₂ => h₁.1.before h₂.1

/-- **Along the root list every step finds the last output of those that feed it**, from the position on where
    the list is begun. -/
theorem onward_findsLast (hm : m ≤ x.plan.steps.length) (h : Fiber.Course pace t (x.onward m keepJournal c) ds r) :
    FindsLast pace x (x.plan.Between m x.plan.steps.length) c ds := by
  -- by induction on the number of steps that are left
  obtain ⟨left, hleft⟩ : ∃ left, m + left = x.plan.steps.length := ⟨_, Nat.add_sub_cancel' hm⟩
  induction left using Nat.strongRecOn generalizing m keepJournal c ds t r with | _ left ih
  have hwalked {s : Step} {t : Clock} {ds : List Deed} {q : Option (Outcome × Clock)}
      (hs : x.plan.steps[m]? = some s) (hwalk : Fiber.Course pace t (x.walk s (.root m s.kind) c) ds q) :
      FindsLast pace x (x.plan.Between m (m + 1)) c ds :=
    (walk_findsLast s hwalk).widen (fun _ _ h => (Plan.between_succ hs).mpr h)
      fun _ _ _ _ _ h _ => (Plan.between_succ hs).mp h
  have hhere {s : Step} {ds : List Deed} (hs : x.plan.steps[m]? = some s)
      (h : FindsLast pace x (x.plan.Between m (m + 1)) c ds) :
      FindsLast pace x (x.plan.Between m x.plan.steps.length) c ds := by
    have hlt : m < x.plan.steps.length := (List.getElem?_eq_some_iff.mp hs).1
    refine h.widen (fun _ _ hq => (Plan.between_split (Nat.le_succ m) hlt).mpr (.inl hq)) ?_
    intro q s₁ q' s₂ h₁ h₂ hfeeds
    exact ((Plan.between_split (Nat.le_succ m) hlt).mp h₂).resolve_right fun h₂ => h₁.not_feeds h₂ hfeeds
  cases onward_course hm h with
  | entering henter => exact .of_none (enters_of_enter henter).2.2
  | entered henter hrest =>
    refine .after_none ?_ (enters_of_enter henter).2.2
    cases hrest with
    | inside hs hwalk => exact hhere hs (hwalked hs hwalk)
    | failed hs hwalk hguarded hes hr =>
      exact (hhere hs (hwalked hs hwalk)).before_none fun d hd => (hes d hd).1
    | last hend hes hr => exact .of_none fun d hd => (hes d hd).1
    | @on s _ u ws fs o fin _ hs hwalk hguarded hnext =>
      have hlt : m < x.plan.steps.length := (List.getElem?_eq_some_iff.mp hs).1
      refine (hwalked hs hwalk).join (ih (left - 1) (by omega) hlt hnext (by omega)) (.append ws fs)
        (fun _ _ _ => Plan.Between.disjoint) (fun _ _ => Plan.between_split (Nat.le_succ m) hlt)
        (fun _ _ _ _ h₁ h₂ => ⟨h₁.before h₂, h₁.not_feeds h₂⟩) (walk_input hwalk hguarded) fun q s' hq => ?_
      exact (walk_lastBetween hs hwalk hguarded).congr_sites
        (fun q' s₁ => and_congr_right fun hs₁ => hs₁.feeds_iff hq) fun _ _ _ => rfl

/-- What is left of the root list is begun first of all. -/
theorem onward_begins (hm : m ≤ x.plan.steps.length) (h : Fiber.Course pace t (x.onward m keepJournal c) ds r) :
    ds = [] ∨ ∃ d rest keep, ds = d :: rest ∧ d.call = .enterStep m c keep := by
  cases onward_course hm h with
  | entering henter =>
    rcases enter_course henter with ⟨rfl, -⟩ | ⟨d, rest, rfl, -, hcall, -⟩
    · exact .inl rfl
    · exact .inr ⟨d, rest, _, rfl, hcall⟩
  | entered henter =>
    rcases enter_course henter with ⟨-, hstop⟩ | ⟨d, rest, rfl, -, hcall, -⟩
    · exact absurd hstop (by simp)
    · exact .inr ⟨d, _, _, rfl, hcall⟩

end

end Runbook
