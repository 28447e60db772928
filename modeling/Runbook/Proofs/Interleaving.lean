import Mathlib.Data.List.Basic

/-!
# `Proofs.Interleaving` — two lists in one

What two fibers do side by side is a list in which the deeds of both stand, each fiber's in their
order. Nothing is lost and nothing added (`perm_append`), an initial part of the whole is made of
initial parts (`split`), what is picked out of it interleaves what is picked out of both (`filterMap`),
and what holds of every pair on either side and across holds of the whole (`pairwise`).
-/

namespace Runbook

/-- **Interleaving.** The third list holds the items of the other two, in their orders. -/
inductive Interleaved {α : Type} : List α → List α → List α → Prop where
  | nil : Interleaved [] [] []
  | left {a : α} {as bs cs : List α} : Interleaved as bs cs → Interleaved (a :: as) bs (a :: cs)
  | right {b : α} {as bs cs : List α} : Interleaved as bs cs → Interleaved as (b :: bs) (b :: cs)

namespace Interleaved

variable {α : Type} {as bs cs : List α}

theorem refl_left (as : List α) : Interleaved as [] as := by
  induction as with
  | nil => exact .nil
  | cons a as ih => exact .left ih

theorem refl_right (bs : List α) : Interleaved [] bs bs := by
  induction bs with
  | nil => exact .nil
  | cons b bs ih => exact .right ih

/-- One list after the other. -/
theorem append (as bs : List α) : Interleaved as bs (as ++ bs) := by
  induction as with
  | nil => exact refl_right bs
  | cons a as ih => exact .left ih

/-- One interleaving after the other. -/
theorem concat {as' bs' cs' : List α} (h : Interleaved as bs cs) (h' : Interleaved as' bs' cs') :
    Interleaved (as ++ as') (bs ++ bs') (cs ++ cs') := by
  induction h with
  | nil => exact h'
  | left _ ih => exact .left ih
  | right _ ih => exact .right ih

theorem symm (h : Interleaved as bs cs) : Interleaved bs as cs := by
  induction h with
  | nil => exact .nil
  | left _ ih => exact .right ih
  | right _ ih => exact .left ih

/-- Nothing is lost, and nothing added. -/
theorem perm_append (h : Interleaved as bs cs) : cs.Perm (as ++ bs) := by
  induction h with
  | nil => exact .refl []
  | left _ ih => exact ih.cons _
  | right _ ih => exact (ih.cons _).trans List.perm_middle.symm

theorem mem_iff (h : Interleaved as bs cs) {x : α} : x ∈ cs ↔ x ∈ as ∨ x ∈ bs := by
  rw [h.perm_append.mem_iff, List.mem_append]

theorem sublist_left (h : Interleaved as bs cs) : as.Sublist cs := by
  induction h with
  | nil => exact .slnil
  | left _ ih => exact ih.cons_cons _
  | right _ ih => exact ih.cons _

theorem sublist_right (h : Interleaved as bs cs) : bs.Sublist cs := h.symm.sublist_left

/-- An initial part of the whole is made of initial parts. -/
theorem split (h : Interleaved as bs cs) : ∀ {cs₁ cs₂ : List α}, cs = cs₁ ++ cs₂ →
    ∃ as₁ as₂ bs₁ bs₂, as = as₁ ++ as₂ ∧ bs = bs₁ ++ bs₂ ∧ Interleaved as₁ bs₁ cs₁ := by
  induction h with
  | nil =>
    intro cs₁ cs₂ h
    obtain ⟨rfl, rfl⟩ := List.append_eq_nil_iff.mp h.symm
    exact ⟨[], [], [], [], rfl, rfl, .nil⟩
  | @left a as bs cs _ ih =>
    intro cs₁ cs₂ h
    cases cs₁ with
    | nil => exact ⟨[], a :: as, [], bs, rfl, rfl, .nil⟩
    | cons c cs₁ =>
      obtain ⟨rfl, hrest⟩ := List.cons.inj (h.trans (List.cons_append ..))
      obtain ⟨as₁, as₂, bs₁, bs₂, rfl, rfl, hi⟩ := ih hrest
      exact ⟨a :: as₁, as₂, bs₁, bs₂, rfl, rfl, .left hi⟩
  | @right b as bs cs _ ih =>
    intro cs₁ cs₂ h
    cases cs₁ with
    | nil => exact ⟨[], as, [], b :: bs, rfl, rfl, .nil⟩
    | cons c cs₁ =>
      obtain ⟨rfl, hrest⟩ := List.cons.inj (h.trans (List.cons_append ..))
      obtain ⟨as₁, as₂, bs₁, bs₂, rfl, rfl, hi⟩ := ih hrest
      exact ⟨as₁, as₂, b :: bs₁, bs₂, rfl, rfl, .right hi⟩

/-- What holds of every pair in order, on either side and across, holds of the whole. -/
theorem pairwise {R : α → α → Prop} (h : Interleaved as bs cs) (ha : as.Pairwise R)
    (hb : bs.Pairwise R) (hab : ∀ a ∈ as, ∀ b ∈ bs, R a b ∧ R b a) : cs.Pairwise R := by
  induction h with
  | nil => exact .nil
  | @left a as bs cs h ih =>
    obtain ⟨ha₁, ha₂⟩ := List.pairwise_cons.mp ha
    refine List.pairwise_cons.mpr ⟨fun c hc => ?_, ih ha₂ hb fun x hx => hab x (.tail _ hx)⟩
    rcases h.mem_iff.mp hc with hc | hc
    · exact ha₁ c hc
    · exact (hab a List.mem_cons_self c hc).1
  | @right b as bs cs h ih =>
    obtain ⟨hb₁, hb₂⟩ := List.pairwise_cons.mp hb
    refine List.pairwise_cons.mpr ⟨fun c hc => ?_, ih ha hb₂ fun x hx y hy => hab x hx y (.tail _ hy)⟩
    rcases h.mem_iff.mp hc with hc | hc
    · exact (hab c hc b List.mem_cons_self).2
    · exact hb₁ c hc

/-- Without what the other side consists of, the whole is as one side is without it. -/
theorem filter_eq (h : Interleaved as bs cs) {φ : α → Bool} (hb : ∀ b ∈ bs, φ b = false) :
    cs.filter φ = as.filter φ := by
  induction h with
  | nil => rfl
  | left _ ih => rw [List.filter_cons, List.filter_cons, ih hb]
  | right _ ih =>
    rw [List.filter_cons_of_neg (by simp [hb])]
    exact ih fun b hb' => hb b (.tail _ hb')

/-- What is picked out of the whole is what is picked out of the sides. -/
theorem filterMap {β : Type} (h : Interleaved as bs cs) (φ : α → Option β) :
    Interleaved (as.filterMap φ) (bs.filterMap φ) (cs.filterMap φ) := by
  induction h with
  | nil => exact .nil
  | @left a _ _ _ _ ih =>
    rw [List.filterMap_cons, List.filterMap_cons]
    cases φ a with
    | none => exact ih
    | some b => exact ih.left
  | @right b _ _ _ _ ih =>
    rw [List.filterMap_cons, List.filterMap_cons]
    cases φ b with
    | none => exact ih
    | some b' => exact ih.right

theorem filter (h : Interleaved as bs cs) (φ : α → Bool) :
    Interleaved (as.filter φ) (bs.filter φ) (cs.filter φ) := by
  simpa only [List.filterMap_eq_filter] using h.filterMap (Option.guard φ)

theorem eq_of_nil_right (h : Interleaved as [] cs) : cs = as := by
  generalize hbs : ([] : List α) = bs at h
  induction h with
  | nil => rfl
  | left _ ih => rw [ih hbs]
  | right => exact absurd hbs (by simp)

/-- What stands last in the whole stands last on one of the sides. -/
theorem getLast? (h : Interleaved as bs cs) : cs.getLast? = as.getLast? ∨ cs.getLast? = bs.getLast? := by
  -- the first element is the last one only if the whole rest, and so its own side, is empty
  have hcons {a : α} {as bs cs : List α} (h : Interleaved as bs cs)
      (ih : cs.getLast? = as.getLast? ∨ cs.getLast? = bs.getLast?) :
      (a :: cs).getLast? = (a :: as).getLast? ∨ (a :: cs).getLast? = bs.getLast? := by
    rw [List.getLast?_cons, List.getLast?_cons]
    rcases ih with ih | ih
    · exact .inl (by rw [ih])
    · cases hbs : bs.getLast? with
      | some b => exact .inr (by rw [ih, hbs]; rfl)
      | none =>
        obtain rfl := List.getLast?_eq_none_iff.mp hbs
        exact .inl (by rw [h.eq_of_nil_right])
  induction h with
  | nil => exact .inl rfl
  | left h ih => exact hcons h ih
  | right h ih => exact (hcons h.symm ih.symm).symm

/-- Lists in order have an interleaving in order. -/
theorem exists_inOrder (key : α → Nat) : ∀ {as bs : List α},
    as.Pairwise (fun a b => key a ≤ key b) → bs.Pairwise (fun a b => key a ≤ key b) →
    ∃ cs, Interleaved as bs cs ∧ cs.Pairwise fun a b => key a ≤ key b
  | [], bs, _, hbs => ⟨bs, .refl_right bs, hbs⟩
  | a :: as, [], has, _ => ⟨a :: as, .refl_left _, has⟩
  | a :: as, b :: bs, has, hbs => by
    obtain ⟨ha, has'⟩ := List.pairwise_cons.mp has
    obtain ⟨hb, hbs'⟩ := List.pairwise_cons.mp hbs
    rcases Nat.le_total (key a) (key b) with hab | hba
    · obtain ⟨cs, hcs, horder⟩ := exists_inOrder key has' hbs
      refine ⟨a :: cs, .left hcs, List.pairwise_cons.mpr ⟨fun c hc => ?_, horder⟩⟩
      rcases hcs.mem_iff.mp hc with hc | hc
      · exact ha c hc
      · rcases List.mem_cons.mp hc with rfl | hc
        · exact hab
        · exact Nat.le_trans hab (hb c hc)
    · obtain ⟨cs, hcs, horder⟩ := exists_inOrder key has hbs'
      refine ⟨b :: cs, .right hcs, List.pairwise_cons.mpr ⟨fun c hc => ?_, horder⟩⟩
      rcases hcs.mem_iff.mp hc with hc | hc
      · rcases List.mem_cons.mp hc with rfl | hc
        · exact hba
        · exact Nat.le_trans hba (ha c hc)
      · exact hb c hc
termination_by as bs => as.length + bs.length

end Interleaved

/-! ## Many lists -/

/-- **Shuffles.** The list holds the items of all the lists, in their orders. -/
inductive Shuffled {α : Type} : List (List α) → List α → Prop where
  | nil : Shuffled [] []
  | cons {as bs cs : List α} {rest : List (List α)} (hrest : Shuffled rest bs)
      (h : Interleaved as bs cs) : Shuffled (as :: rest) cs

namespace Shuffled

variable {α : Type} {lists : List (List α)} {cs : List α}

theorem mem_iff (h : Shuffled lists cs) {x : α} : x ∈ cs ↔ ∃ as ∈ lists, x ∈ as := by
  induction h with
  | nil => simp
  | cons _ h ih => rw [h.mem_iff, ih]; simp

/-- Lists in order have a shuffle in order. -/
theorem exists_inOrder (key : α → Nat)
    (h : ∀ as ∈ lists, as.Pairwise fun a b => key a ≤ key b) :
    ∃ cs, Shuffled lists cs ∧ cs.Pairwise fun a b => key a ≤ key b := by
  induction lists with
  | nil => exact ⟨[], .nil, .nil⟩
  | cons as rest ih =>
    obtain ⟨bs, hbs, horder⟩ := ih fun as has => h as (.tail _ has)
    obtain ⟨cs, hcs, horder⟩ := Interleaved.exists_inOrder key (h as List.mem_cons_self) horder
    exact ⟨cs, .cons hbs hcs, horder⟩

end Shuffled

end Runbook
