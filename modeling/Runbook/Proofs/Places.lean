import Mathlib.Data.List.Nodup
import Runbook.Proofs.StepOutputs

/-!
# `Proofs.Places` — the steps of a plan, listed with their places

A walk through a plan comes to a step before it comes to the steps inside, and to each step once. `Plan.sites`
lists the steps in that order, each with its path. All steps of the plan are in the list, each at its place
(`mem_sites`), and no place occurs twice (`nodup_sites`), since paths differ where the walk branches off.

## Contents
- **Lists.** `Step.sites`, `sitesIn` and `Plan.sites`.
- **Members.** `Step.mem_sites`, by induction on the tree, and `Plan.mem_sites`.
- **No repetitions.** `StepPath.eq_of_prefix`, `Step.nodup_sites` and `Plan.nodup_sites`.
-/

namespace Runbook

/-! ## Lists -/

mutual
/-- A step at a path and the steps inside it, in the order of a walk. -/
def Step.sites (path : StepPath) : Step → List (StepPath × Step)
  | .condition id predicate whenTrue whenFalse =>
    (path, .condition id predicate whenTrue whenFalse)
      :: (sitesIn (some (path, .whenTrue)) 0 whenTrue
        ++ (match whenFalse with
          | some steps => sitesIn (some (path, .whenFalse)) 0 steps
          | none => []))
  | .parallel id branches => (path, .parallel id branches) :: sitesIn (some (path, .parallel)) 0 branches
  | .agent call agent => [(path, .agent call agent)]
  | .worker call worker poll => [(path, .worker call worker poll)]
  | .workflow call workflow => [(path, .workflow call workflow)]
  | .hook h => [(path, .hook h)]
  | .sleep id d => [(path, .sleep id d)]
  | .foreign call agent => [(path, .foreign call agent)]

/-- The steps of a list and those inside them; the first step of the list stands at an index. -/
def sitesIn (parent : Option (StepPath × Branch)) : Nat → List Step → List (StepPath × Step)
  | _, [] => []
  | i, s :: rest => s.sites (.within parent i s.kind) ++ sitesIn parent (i + 1) rest
end

/-- **The steps of a plan with their places**, in the order of a walk. -/
def Plan.sites (p : Plan) : List (StepPath × Step) := sitesIn none 0 p.steps

variable {path q : StepPath} {s t : Step} {parent : Option (StepPath × Branch)} {i : Nat} {steps rest : List Step}

theorem Step.sites_condition {id : Option String} {predicate : Predicate} {whenTrue : List Step}
    {whenFalse : Option (List Step)} :
    (condition id predicate whenTrue whenFalse).sites path
      = (path, condition id predicate whenTrue whenFalse)
        :: (sitesIn (some (path, .whenTrue)) 0 whenTrue
          ++ sitesIn (some (path, .whenFalse)) 0 (whenFalse.getD [])) := by
  cases whenFalse with
  | none => simp [sites, sitesIn]
  | some steps => rw [sites, Option.getD_some]

/-- A step without steps inside is alone. -/
theorem Step.sites_of_not_holdsSteps (h : s.holdsSteps = false) : s.sites path = [(path, s)] := by
  cases s with
  | condition | parallel => exact absurd h (by simp [holdsSteps])
  | _ => rw [sites]

/-! ## Members -/

/-- The steps in a list and inside them; the first step of the list stands at an index. -/
def InList (parent : Option (StepPath × Branch)) (i : Nat) (steps : List Step) : Sites :=
  fun q t => ∃ (j : Nat) (s : Step), steps[j]? = some s ∧ s.Inside (.within parent (i + j) s.kind) q t

theorem inList_nil : ¬ InList parent i [] q t := by
  rintro ⟨j, s, hj, -⟩
  exact absurd hj (by simp)

theorem not_listSites_nil {b : Branch} : ¬ listSites path b i [] q t :=
  show ¬ InList (some (path, b)) i [] q t from inList_nil

theorem inList_cons :
    InList parent i (s :: rest) q t
      ↔ s.Inside (.within parent i s.kind) q t ∨ InList parent (i + 1) rest q t := by
  constructor
  · rintro ⟨j, s₀, hj, hinside⟩
    cases j with
    | zero =>
      obtain rfl := Option.some.inj hj
      exact .inl hinside
    | succ j => exact .inr ⟨j, s₀, hj, by rwa [show i + 1 + j = i + (j + 1) by omega]⟩
  · rintro (hinside | ⟨j, s₀, hj, hinside⟩)
    · exact ⟨0, s, rfl, hinside⟩
    · exact ⟨j + 1, s₀, hj, by rwa [show i + (j + 1) = i + 1 + j by omega]⟩

/-- The members of a list, if those of its steps are known. -/
theorem mem_sitesIn_of (h : ∀ s ∈ steps, ∀ path, (q, t) ∈ s.sites path ↔ s.Inside path q t) (i : Nat) :
    (q, t) ∈ sitesIn parent i steps ↔ InList parent i steps q t := by
  induction steps generalizing i with
  | nil => simp [sitesIn, inList_nil]
  | cons s rest ih =>
    rw [sitesIn, List.mem_append, inList_cons, h s List.mem_cons_self,
      ih fun s' hs' => h s' (List.mem_cons_of_mem s hs')]

/-- **A step is listed with the steps inside it**, each at its place. -/
theorem Step.mem_sites (s : Step) : ∀ path, (q, t) ∈ s.sites path ↔ s.Inside path q t := by
  refine Step.treeInduction (P := fun s => ∀ path, (q, t) ∈ s.sites path ↔ s.Inside path q t)
    (Q := fun steps => ∀ s ∈ steps, ∀ path, (q, t) ∈ s.sites path ↔ s.Inside path q t)
    ?leaf ?condition ?parallel ?foreign ?nil ?cons s
  case leaf =>
    intro s hleaf path
    rw [sites_of_not_holdsSteps (holdsSteps_of_isLeaf hleaf), inside_of_isLeaf hleaf, List.mem_singleton,
      Prod.mk.injEq]
  -- a step has its own place, and those of the lists of each branch
  case condition =>
    intro id predicate whenTrue whenFalse ih path
    have htrue : (q, t) ∈ sitesIn (some (path, .whenTrue)) 0 whenTrue
        ↔ listSites path .whenTrue 0 whenTrue q t := mem_sitesIn_of (ih true) 0
    have hfalse : (q, t) ∈ sitesIn (some (path, .whenFalse)) 0 (whenFalse.getD [])
        ↔ listSites path .whenFalse 0 (whenFalse.getD []) q t := mem_sitesIn_of (ih false) 0
    rw [sites_condition, List.mem_cons, List.mem_append, Prod.mk.injEq, inside_iff]
    refine or_congr Iff.rfl ⟨?_, ?_⟩
    · rintro (h | h)
      · exact ⟨.whenTrue, htrue.mp h⟩
      · exact ⟨.whenFalse, hfalse.mp h⟩
    · rintro ⟨b, h⟩
      cases b with
      | whenTrue => exact .inl (htrue.mpr h)
      | whenFalse => exact .inr (hfalse.mpr h)
      | parallel => exact (not_listSites_nil h).elim
  case parallel =>
    intro id branches ih path
    have hin : (q, t) ∈ sitesIn (some (path, .parallel)) 0 branches
        ↔ listSites path .parallel 0 branches q t := mem_sitesIn_of ih 0
    rw [sites, List.mem_cons, Prod.mk.injEq, inside_iff, hin]
    refine or_congr Iff.rfl ⟨fun h => ⟨.parallel, h⟩, ?_⟩
    rintro ⟨b, h⟩
    cases b with
    | parallel => exact h
    | whenTrue | whenFalse => exact (not_listSites_nil h).elim
  case foreign =>
    intro call agent path
    rw [sites_of_not_holdsSteps rfl, List.mem_singleton, Prod.mk.injEq, inside_iff]
    refine (or_iff_left ?_).symm
    rintro ⟨b, h⟩
    cases b <;> exact not_listSites_nil h
  case nil => exact fun s hs => absurd hs List.not_mem_nil
  case cons =>
    intro s rest hs hrest
    exact List.forall_mem_cons.mpr ⟨hs, hrest⟩

theorem mem_sitesIn : (q, t) ∈ sitesIn parent i steps ↔ InList parent i steps q t :=
  mem_sitesIn_of (fun s _ => Step.mem_sites s) i

/-- **All steps of a plan are listed**, each at its place. -/
theorem Plan.mem_sites {p : Plan} : (q, t) ∈ p.sites ↔ p.Has q t := by
  rw [sites, mem_sitesIn]
  constructor
  · rintro ⟨j, s, hj, inner, rfl, hhas⟩
    rw [Nat.zero_add]
    exact .root hj hhas
  · intro hhas
    cases hhas with
    | @root s₀ _ j inner hj hinside => exact ⟨j, s₀, hj, inner, by rw [Nat.zero_add]; rfl, hinside⟩

/-! ## No repetitions -/

/-- Two ways that lead on to one place are the same way, if they are equally long. -/
theorem StepPath.eq_of_prefix {a b : StepPath} (ha : a <+: q) (hb : b <+: q) (hlength : a.length = b.length) :
    a = b :=
  (List.prefix_of_prefix_length_le ha hb (Nat.le_of_eq hlength)).eq_of_length hlength

theorem StepPath.length_within {j : Nat} {k k' : String} :
    (within parent i k).length = (within parent j k').length := by
  cases parent with
  | none => rfl
  | some b => simp [within, child]

theorem StepPath.within_injective {j : Nat} {k k' : String} (h : within parent i k = within parent j k') : i = j := by
  cases parent with
  | none =>
    simp only [within, root, List.cons.injEq, Place.mk.injEq, Int.natCast_inj] at h
    exact h.1.2.1
  | some b =>
    simp only [within, child, List.append_cancel_left_eq, List.cons.injEq, Place.mk.injEq, Int.natCast_inj] at h
    exact h.1.2.1

/-- Whatever stands in a list stands at or inside a step of the list. -/
theorem InList.isPrefix (h : InList parent i steps q t) : ∃ j k, i ≤ j ∧ StepPath.within parent j k <+: q := by
  obtain ⟨j, s, -, inner, rfl, -⟩ := h
  exact ⟨i + j, s.kind, Nat.le_add_right i j, inner, rfl⟩

theorem prefix_of_mem_sites (h : q ∈ (s.sites path).map Prod.fst) : path <+: q := by
  obtain ⟨⟨q', t⟩, hmem, rfl⟩ := List.mem_map.mp h
  obtain ⟨inner, rfl, -⟩ := (Step.mem_sites s path).mp hmem
  exact ⟨inner, rfl⟩

theorem prefix_of_mem_sitesIn (h : q ∈ (sitesIn parent i steps).map Prod.fst) :
    ∃ j k, i ≤ j ∧ StepPath.within parent j k <+: q := by
  obtain ⟨⟨q', t⟩, hmem, rfl⟩ := List.mem_map.mp h
  exact (mem_sitesIn.mp hmem).isPrefix

/-- Different lists of a step have no place in common, and neither has that of the step. -/
theorem disjoint_sitesIn {b b' : Branch} {steps' : List Step} (hb : b ≠ b')
    (h : q ∈ (sitesIn (some (path, b)) 0 steps).map Prod.fst)
    (h' : q ∈ (sitesIn (some (path, b')) 0 steps').map Prod.fst) : False := by
  obtain ⟨j, k, -, hprefix⟩ := prefix_of_mem_sitesIn h
  obtain ⟨j', k', -, hprefix'⟩ := prefix_of_mem_sitesIn h'
  have heq := StepPath.eq_of_prefix hprefix hprefix' (by simp [StepPath.within, StepPath.child])
  simp only [StepPath.within, StepPath.child, List.append_cancel_left_eq, List.cons.injEq, Place.mk.injEq,
    Option.some.injEq] at heq
  exact hb heq.1.1

theorem not_mem_sitesIn_self {b : Branch} : path ∉ (sitesIn (some (path, b)) i steps).map Prod.fst := by
  intro h
  obtain ⟨j, k, -, hprefix⟩ := prefix_of_mem_sitesIn h
  have hlength := hprefix.length_le
  simp only [StepPath.within, StepPath.child, List.length_append, List.length_singleton] at hlength
  omega

/-- No place occurs twice in a list, if none does in its steps. -/
theorem nodup_sitesIn_of (h : ∀ s ∈ steps, ∀ path, ((s.sites path).map Prod.fst).Nodup) (i : Nat) :
    ((sitesIn parent i steps).map Prod.fst).Nodup := by
  induction steps generalizing i with
  | nil => simp [sitesIn]
  | cons s rest ih =>
    rw [sitesIn, List.map_append]
    apply List.Nodup.append
    · exact h s List.mem_cons_self _
    · apply ih
      intro s' hs'
      exact h s' (List.mem_cons_of_mem s hs')
    -- what is inside this step begins with its place, what comes later with a later one
    intro q hq hq'
    obtain ⟨j, k, hj, hprefix⟩ := prefix_of_mem_sitesIn hq'
    have heq := StepPath.eq_of_prefix (prefix_of_mem_sites hq) hprefix StepPath.length_within
    have hindex := StepPath.within_injective heq
    omega

/-- **A walk through a step comes to no place twice.** -/
theorem Step.nodup_sites (s : Step) : ∀ path, ((s.sites path).map Prod.fst).Nodup := by
  refine Step.treeInduction (P := fun s => ∀ path, ((s.sites path).map Prod.fst).Nodup)
    (Q := fun steps => ∀ s ∈ steps, ∀ path, ((s.sites path).map Prod.fst).Nodup)
    ?leaf ?condition ?parallel ?foreign ?nil ?cons s
  case leaf =>
    intro s hleaf path
    rw [sites_of_not_holdsSteps (holdsSteps_of_isLeaf hleaf)]
    exact List.nodup_singleton path
  case condition =>
    intro id predicate whenTrue whenFalse ih path
    rw [sites_condition, List.map_cons, List.map_append, List.nodup_cons]
    constructor
    · rw [List.mem_append]
      rintro (h | h) <;> exact not_mem_sitesIn_self h
    · apply List.Nodup.append
      · exact nodup_sitesIn_of (ih true) 0
      · exact nodup_sitesIn_of (ih false) 0
      -- the two lists lie in different branches
      · intro q hq hq'
        exact disjoint_sitesIn (by simp) hq hq'
  case parallel =>
    intro id branches ih path
    rw [sites, List.map_cons, List.nodup_cons]
    exact ⟨not_mem_sitesIn_self, nodup_sitesIn_of ih 0⟩
  case foreign =>
    intro call agent path
    rw [sites_of_not_holdsSteps rfl]
    exact List.nodup_singleton path
  case nil => exact fun s hs => absurd hs List.not_mem_nil
  case cons =>
    intro s rest hs hrest
    exact List.forall_mem_cons.mpr ⟨hs, hrest⟩

/-- **A walk through a plan comes to no place twice.** -/
theorem Plan.nodup_sites (p : Plan) : (p.sites.map Prod.fst).Nodup :=
  nodup_sitesIn_of (fun s _ => s.nodup_sites) 0

end Runbook
