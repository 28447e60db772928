import Mathlib.Data.List.Basic
import Runbook.Plan.Path
import Runbook.Plan.Step
import Std.Data.String.ToInt

/-!
# `Proofs.StepPath` — paths name steps, and order them

Journals and jobs know a step by the text of its path only. The text says everything:
`text_injective`. The steps of a plan stand in an order, too: the order in which a plan without
parallel branches would end them. `Before` reads it off the paths.

Paths in general may hold any kind of step; the statements are about `Proper` paths, those whose kinds
are kinds of steps.
-/

namespace Runbook

/-! ## The text of a path -/

/-- The parts of the text of a position, which dots separate. -/
def Place.tokens (p : Place) : List String :=
  (p.branch.map Branch.word).toList ++ [toString p.index ++ "-" ++ p.kind]

/-- **Proper paths** lead to a step, and are made of kinds that steps have. -/
structure StepPath.Proper (path : StepPath) : Prop where
  nonempty : path ≠ []
  kinds : ∀ place ∈ path, place.kind ∈ Step.kinds

theorem Step.kind_mem_kinds (s : Step) : s.kind ∈ Step.kinds := by
  cases s <;> simp [Step.kind, Step.kinds]

theorem StepPath.proper_root (i : Int) (s : Step) : (StepPath.root i s.kind).Proper :=
  ⟨by simp [root], by simpa [root] using s.kind_mem_kinds⟩

theorem StepPath.Proper.child {path : StepPath} (h : path.Proper) (b : Branch) (i : Nat) (s : Step) :
    (path.child b i s.kind).Proper := by
  refine ⟨by simp [StepPath.child], ?_⟩
  intro place hp
  rcases List.mem_append.mp hp with hp | hp
  · exact h.kinds place hp
  · rw [List.mem_singleton.mp hp]; exact s.kind_mem_kinds

theorem dash_not_mem_kind {k : String} (h : k ∈ Step.kinds) : '-' ∉ k.toList := by
  revert h; revert k; decide

theorem dot_not_mem_kind {k : String} (h : k ∈ Step.kinds) : '.' ∉ k.toList := by
  revert h; revert k; decide

theorem dash_not_mem_word (b : Branch) : '-' ∉ b.word.toList := by cases b <;> decide

theorem dot_not_mem_word (b : Branch) : '.' ∉ b.word.toList := by cases b <;> decide

/-- A numeral is made of digits and a sign. -/
theorem mem_numeral {n : Int} {c : Char} (hc : c ∈ (toString n).toList) : c.isDigit = true ∨ c = '-' := by
  have digits {m : Nat} (hm : c ∈ m.repr.toList) : c.isDigit = true :=
    Nat.isDigit_of_mem_toDigits (b := 10) (n := m) (by omega) (by omega) (by simpa [Nat.repr] using hm)
  cases n with
  | ofNat m => exact .inl (digits hc)
  | negSucc m =>
    have hc' : c ∈ ("-" ++ (m + 1).repr).toList := hc
    rw [String.toList_append, List.mem_append] at hc'
    rcases hc' with hc' | hc'
    · exact .inr (by simpa using hc')
    · exact .inl (digits hc')

theorem dot_not_mem_numeral (n : Int) : '.' ∉ (toString n).toList := by
  intro h
  rcases mem_numeral h with h | h <;> exact absurd h (by decide)

theorem text_eq_intercalate_tokens (path : StepPath) :
    path.text = String.intercalate "." (path.flatMap Place.tokens) := by
  induction path with
  | nil => rfl
  | cons p rest ih =>
    have hp : p.text = String.intercalate "." p.tokens := by
      unfold Place.text Place.tokens
      cases p.branch with
      | none => simp
      | some b => simp [String.intercalate_cons_cons]
    have hne : p.tokens ≠ [] := by simp [Place.tokens]
    unfold StepPath.text at ih ⊢
    rw [List.map_cons, List.flatMap_cons]
    cases rest with
    | nil => simpa using hp
    | cons q more =>
      have hrest : (q :: more).flatMap Place.tokens ≠ [] := by simp [Place.tokens]
      rw [String.intercalate_append_of_ne_nil hne hrest, ← ih, ← hp, List.map_cons,
        String.intercalate_cons_cons]

theorem dot_not_mem_token {p : Place} (h : p.kind ∈ Step.kinds) {t : String} (ht : t ∈ p.tokens) :
    '.' ∉ t.toList := by
  unfold Place.tokens at ht
  rcases List.mem_append.mp ht with ht | ht
  · cases hb : p.branch with
    | none => simp [hb] at ht
    | some b =>
      simp only [hb, Option.map_some, Option.toList_some, List.mem_singleton] at ht
      rw [ht]; exact dot_not_mem_word b
  · rw [List.mem_singleton.mp ht]
    simp only [String.toList_append, List.mem_append, not_or]
    exact ⟨⟨dot_not_mem_numeral _, by decide⟩, dot_not_mem_kind h⟩

theorem StepPath.text_root (i : Nat) (k : String) : (root i k).text = toString i ++ "-" ++ k := by
  have hnumeral : toString (i : Int) = toString i := rfl
  simp [root, text, Place.text, hnumeral]

/-- A path goes on with the word for a list and the step in it. -/
theorem StepPath.text_child {path : StepPath} (h : path ≠ []) (b : Branch) (i : Nat) (k : String) :
    (path.child b i k).text = path.text ++ "." ++ b.word ++ "." ++ (toString i ++ "-" ++ k) := by
  have hpath : path.map Place.text ≠ [] := by simpa using h
  unfold child text
  rw [List.map_append, String.intercalate_append_of_ne_nil hpath (by simp)]
  have hnumeral : toString (i : Int) = toString i := rfl
  simp [Place.text, hnumeral, String.append_assoc]

/-- The characters that paths are made of. -/
def StepPath.isLetter (c : Char) : Bool := c.isDigit || c.isLower || c == '-' || c == '.'

theorem isLetter_of_mem_place {p : Place} (h : p.kind ∈ Step.kinds) {c : Char} (hc : c ∈ p.text.toList) :
    StepPath.isLetter c = true := by
  have hkind : ∀ k ∈ Step.kinds, k.toList.all StepPath.isLetter = true := by decide
  have hword (b : Branch) : b.word.toList.all StepPath.isLetter = true := by cases b <;> decide
  have hstep (hc : c ∈ (toString p.index ++ "-" ++ p.kind).toList) : StepPath.isLetter c = true := by
    simp only [String.toList_append, List.mem_append] at hc
    rcases hc with (hc | hc) | hc
    · rcases mem_numeral hc with hdigit | rfl
      · simp [StepPath.isLetter, hdigit]
      · rfl
    · rw [show c = '-' by simpa using hc]
      rfl
    · exact List.all_eq_true.mp (hkind _ h) c hc
  unfold Place.text at hc
  cases hb : p.branch with
  | none =>
    rw [hb] at hc
    exact hstep hc
  | some b =>
    rw [hb] at hc
    dsimp only at hc
    rw [String.toList_append, String.toList_append, List.mem_append, List.mem_append] at hc
    rcases hc with (hc | hc) | hc
    · exact List.all_eq_true.mp (hword b) c hc
    · rw [show c = '.' by simpa using hc]
      rfl
    · exact hstep hc

/-- **The text of a path** holds letters of paths only. -/
theorem StepPath.isLetter_of_mem_text {path : StepPath} (h : ∀ place ∈ path, place.kind ∈ Step.kinds)
    {c : Char} (hc : c ∈ path.text.toList) : isLetter c = true := by
  unfold text at hc
  induction path with
  | nil => exact absurd hc (by simp)
  | cons p rest ih =>
    have hp := h p List.mem_cons_self
    have ih := ih fun place hplace => h place (List.mem_cons_of_mem p hplace)
    cases rest with
    | nil => exact isLetter_of_mem_place hp (by simpa using hc)
    | cons q more =>
      rw [List.map_cons, List.map_cons, String.intercalate_cons_cons, String.toList_append, String.toList_append,
        List.mem_append, List.mem_append] at hc
      rcases hc with (hc | hc) | hc
      · exact isLetter_of_mem_place hp hc
      · rw [show c = '.' by simpa using hc]
        rfl
      · exact ih hc

/-- A token that names a step is told from the word for a list by its dash. -/
theorem dash_mem_step (n : Int) (k : String) : '-' ∈ (toString n ++ "-" ++ k).toList := by
  simp [String.toList_append]

theorem word_ne_step (b : Branch) (n : Int) (k : String) : b.word ≠ toString n ++ "-" ++ k := by
  intro h
  exact dash_not_mem_word b (h ▸ dash_mem_step n k)

theorem Branch.word_injective {a b : Branch} (h : a.word = b.word) : a = b := by
  cases a <;> cases b <;> simp_all [Branch.word]

/-- **The last separator divides a text**, whatever stands before it. -/
theorem eq_of_last_separator {c : Char} {a b p q : String} (hp : c ∉ p.toList) (hq : c ∉ q.toList)
    (h : a ++ String.singleton c ++ p = b ++ String.singleton c ++ q) : a = b ∧ p = q := by
  have hl : a.toList ++ c :: p.toList = b.toList ++ c :: q.toList := by
    have := congrArg String.toList h
    simpa [String.toList_append] using this
  have key : a.toList = b.toList ∧ p.toList = q.toList := by
    rcases List.append_eq_append_iff.mp hl with ⟨as, h1, h2⟩ | ⟨bs, h1, h2⟩
    · cases as with
      | nil => exact ⟨by simpa using h1.symm, by simpa using h2⟩
      | cons a as =>
        simp only [List.cons_append, List.cons.injEq] at h2
        exact absurd (h2.2 ▸ by simp) hp
    · cases bs with
      | nil => exact ⟨by simpa using h1, by simpa using h2.symm⟩
      | cons b bs =>
        simp only [List.cons_append, List.cons.injEq] at h2
        exact absurd (h2.2 ▸ by simp) hq
  exact ⟨String.toList_injective key.1, String.toList_injective key.2⟩

/-- The last dash ends the index: kinds hold none. -/
theorem step_token_injective {m n : Int} {j k : String} (hj : j ∈ Step.kinds) (hk : k ∈ Step.kinds)
    (h : toString m ++ "-" ++ j = toString n ++ "-" ++ k) : m = n ∧ j = k := by
  obtain ⟨hindex, hkind⟩ :=
    eq_of_last_separator (c := '-') (dash_not_mem_kind hj) (dash_not_mem_kind hk) h
  exact ⟨Int.repr_injective hindex, hkind⟩

theorem tokens_injective : ∀ {p q : StepPath}, (∀ place ∈ p, place.kind ∈ Step.kinds) →
    (∀ place ∈ q, place.kind ∈ Step.kinds) →
    p.flatMap Place.tokens = q.flatMap Place.tokens → p = q
  | [], [], _, _, _ => rfl
  | [], b :: q, _, _, h => by simp [Place.tokens] at h
  | a :: p, [], _, _, h => by simp [Place.tokens] at h
  | ⟨ba, ia, ka⟩ :: p, ⟨bb, ib, kb⟩ :: q, hp, hq, h => by
    have hka : ka ∈ Step.kinds := hp _ List.mem_cons_self
    have hkb : kb ∈ Step.kinds := hq _ List.mem_cons_self
    have hrest := tokens_injective (p := p) (q := q)
      (fun x hx => hp x (List.mem_cons_of_mem _ hx)) (fun x hx => hq x (List.mem_cons_of_mem _ hx))
    cases ba with
    | none =>
      cases bb with
      | none =>
        simp only [Place.tokens, List.flatMap_cons, Option.map_none, Option.toList_none,
          List.nil_append, List.singleton_append, List.cons.injEq] at h
        obtain ⟨rfl, rfl⟩ := step_token_injective hka hkb h.1
        rw [hrest h.2]
      | some b =>
        simp only [Place.tokens, List.flatMap_cons, Option.map_none, Option.toList_none,
          Option.map_some, Option.toList_some, List.nil_append, List.cons_append,
          List.cons.injEq] at h
        exact absurd h.1.symm (word_ne_step b ia ka)
    | some a =>
      cases bb with
      | none =>
        simp only [Place.tokens, List.flatMap_cons, Option.map_none, Option.toList_none,
          Option.map_some, Option.toList_some, List.nil_append, List.cons_append,
          List.cons.injEq] at h
        exact absurd h.1 (word_ne_step a ib kb)
      | some b =>
        simp only [Place.tokens, List.flatMap_cons, Option.map_some, Option.toList_some,
          List.cons_append, List.nil_append, List.cons.injEq] at h
        obtain ⟨rfl, rfl⟩ := step_token_injective hka hkb h.2.1
        rw [Branch.word_injective h.1, hrest h.2.2]

/-- **A step is known by the text of its path.** -/
theorem StepPath.text_injective {p q : StepPath} (hp : p.Proper) (hq : q.Proper)
    (h : p.text = q.text) : p = q := by
  rw [text_eq_intercalate_tokens, text_eq_intercalate_tokens] at h
  have hl := congrArg String.toList h
  rw [String.toList_intercalate, String.toList_intercalate] at hl
  have split {r : StepPath} (hr : r.Proper) :
      (['.'].intercalate ((r.flatMap Place.tokens).map String.toList)).splitOn '.'
        = (r.flatMap Place.tokens).map String.toList := by
    apply List.splitOn_intercalate
    · intro l hl
      obtain ⟨t, ht, rfl⟩ := List.mem_map.mp hl
      obtain ⟨place, hplace, ht⟩ := List.mem_flatMap.mp ht
      exact dot_not_mem_token (hr.kinds place hplace) ht
    · obtain ⟨a, rest, rfl⟩ := List.exists_cons_of_ne_nil hr.nonempty
      simp [Place.tokens]
  have htokens := congrArg (List.splitOn '.') hl
  rw [show String.toList "." = ['.'] from rfl, split hp, split hq] at htokens
  exact tokens_injective hp.kinds hq.kinds
    (List.map_injective_iff.mpr (fun _ _ h => String.toList_injective h) htokens)

/-! ## The places of a plan -/

namespace StepPath

/-- The position of the step of the root list that a path begins with. -/
def rootIndex? (path : StepPath) : Option Int := path.head?.map Place.index

theorem rootIndex?_of_prefix {p q : StepPath} (h : p <+: q) (hp : p ≠ []) :
    q.rootIndex? = p.rootIndex? := by
  obtain ⟨rest, rfl⟩ := h
  cases p with
  | nil => exact absurd rfl hp
  | cons a p => rfl

@[simp] theorem rootIndex?_root (i : Int) (k : String) : (root i k).rootIndex? = some i := rfl

/-- The kind of the step that a path leads to. -/
def kind? (path : StepPath) : Option String := path.getLast?.map Place.kind

@[simp] theorem kind?_root (i : Int) (k : String) : (root i k).kind? = some k := rfl

theorem kind?_child (path : StepPath) (b : Branch) (i : Nat) (k : String) :
    (path.child b i k).kind? = some k := by
  simp [kind?, child]

theorem prefix_child (path : StepPath) (b : Branch) (i : Nat) (k : String) :
    path <+: path.child b i k := List.prefix_append ..

/-- **Structural order.** Of two steps in one list the one with the smaller index comes first,
    together with all that is inside it; a step comes after the steps inside it. -/
def Before : StepPath → StepPath → Prop
  | [], _ => False
  | _ :: _, [] => True
  | a :: p, b :: q => if a = b then Before p q else a.index < b.index

theorem not_before_self (p : StepPath) : ¬ p.Before p := by
  induction p with
  | nil => simp [Before]
  | cons a p ih => simpa [Before] using ih

theorem before_append (base p q : StepPath) : (base ++ p).Before (base ++ q) ↔ p.Before q := by
  induction base with
  | nil => rfl
  | cons a base ih => simpa [Before] using ih

/-- What is inside a step comes before it. -/
theorem before_of_inside {base p : StepPath} (h : base <+: p) (hne : p ≠ base) : p.Before base := by
  obtain ⟨rest, rfl⟩ := h
  cases rest with
  | nil => exact absurd (List.append_nil base) hne
  | cons a rest =>
    have := (before_append base (a :: rest) []).mpr trivial
    rwa [List.append_nil] at this

/-- The steps of a list come in the order of their indices, with all that is inside them. -/
theorem before_of_index_lt {base p q : StepPath} {a b : Place} (hp : base ++ [a] <+: p)
    (hq : base ++ [b] <+: q) (h : a.index < b.index) : p.Before q := by
  obtain ⟨p', rfl⟩ := hp
  obtain ⟨q', rfl⟩ := hq
  have hab : a ≠ b := fun e => absurd h (by rw [e]; omega)
  rw [List.append_assoc, List.append_assoc, before_append]
  simpa [Before, hab] using h

/-- What is inside two steps of a list has nothing in common. -/
theorem ne_of_index_ne {base p q : StepPath} {a b : Place} (hp : base ++ [a] <+: p)
    (hq : base ++ [b] <+: q) (h : a.index ≠ b.index) : p ≠ q := by
  rintro rfl
  obtain ⟨p', hp⟩ := hp
  obtain ⟨q', hq⟩ := hq
  rw [← hp, List.append_assoc, List.append_assoc] at hq
  have := List.append_cancel_left hq
  simp only [List.cons_append, List.nil_append, List.cons.injEq] at this
  exact h (by rw [this.1])

end StepPath

end Runbook
