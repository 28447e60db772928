import Runbook.Proofs.Footprint

/-!
# `Proofs.Company` — those whom the branches of a step deal with

The branches of a parallel step deal with others: they send requests, sleep, and wait for events.
When what a branch is answered depends on what that branch has done before, and the event that a wait
ends with on the waits for the same token, then branches that share no token cannot tell from their
answers whether there are other branches at all.

## Contents
- **Places.** `Deed.place`, the branch that a deed belongs to.
- **Company.** `Company`, and `Surrounds`, deeds that are answered by it.
- **Apart.** `Apart`, lists of deeds that have nothing in common.
- **Shuffles.** `Company.surrounds_shuffled` and `World.admits_shuffled`: a shuffle of such lists is
  answered by the company, and admitted by a world, if and only if each of them is.
-/

namespace Runbook

/-! ## Places -/

/-- The place below a step that a deed was done at. -/
def Deed.place (path : StepPath) (d : Deed) : Option Place := d.step.bind fun q => q[path.length]?

/-- The token that a call waits for. -/
def Call.token? : Call → Option String
  | .awaitEvent token _ => some token
  | _ => none

/-! ## Company -/

/-- **Those whom branches deal with.** -/
structure Company where
  /-- The answer to a call from a place and when it comes, given what was done at that place before. -/
  reply : Option Place → List Deed → (c : Call) → Clock → c.Answer × Clock
  /-- What a wait for a token ends with and when, given the waits for that token before. -/
  event : String → List Deed → (c : Call) → Clock → c.Answer × Clock

namespace Company

variable {k : Company} {path : StepPath}

/-- The answer to a call from a place, given all that was done before. -/
def answer (k : Company) (path : StepPath) (past : List Deed) (place : Option Place) (c : Call)
    (start : Clock) : c.Answer × Clock :=
  match c.token? with
  | some token => k.event token (past.filter fun d => d.call.token? = some token) c start
  | none => k.reply place (past.filter fun d => d.place path = place) c start

/-- **Deeds that are answered by the company**, given those before. -/
def Surrounds (k : Company) (path : StepPath) : List Deed → List Deed → Prop
  | _, [] => True
  | past, d :: ds =>
    (d.call.isOutside = true →
      (d.answer, d.stop) = k.answer path past (d.place path) d.call d.start)
    ∧ Surrounds k path (past ++ [d]) ds

theorem surrounds_append {past ds es : List Deed} :
    k.Surrounds path past (ds ++ es)
      ↔ k.Surrounds path past ds ∧ k.Surrounds path (past ++ ds) es := by
  induction ds generalizing past with
  | nil => simp [Surrounds]
  | cons d ds ih => simp [Surrounds, ih, and_assoc]

/-- Others who answer at once, whatever was done before. -/
def prompt (env : Environment) : Company where
  reply _ _ c t := (env none c, t)
  event _ _ c t := (env none c, t)

theorem surrounds_prompt {env : Environment} (henv : ∀ step c, env step c = env none c) :
    ∀ {ds past : List Deed} {w : World}, w.Prompts env ds → (prompt env).Surrounds path past ds
  | [], _, _, _ => trivial
  | d :: ds, past, w, ⟨hd, hds⟩ => by
    refine ⟨fun hc => ?_, surrounds_prompt henv hds⟩
    have hanswer : (prompt env).answer path past (d.place path) d.call d.start
        = (env none d.call, d.start) := by
      unfold answer
      split <;> rfl
    rw [hanswer, ← henv d.step]
    revert hc
    rw [hd]
    intro hc
    simp only [World.promptDeed] at hc ⊢
    simp [World.answer, hc]

end Company

/-! ## Apart -/

/-- **Deeds that have nothing in common**: neither their places, nor a token, nor a part of what is
    shared. -/
structure Deed.Apart (path : StepPath) (d e : Deed) : Prop where
  place : d.place path ≠ e.place path
  token : ∀ token ∈ d.call.token?, token ∉ e.call.token?
  part : ∀ p ∈ d.call.part?, p ∉ e.call.part?

/-- Lists of deeds that have nothing in common. -/
def Apart (path : StepPath) (ds es : List Deed) : Prop := ∀ d ∈ ds, ∀ e ∈ es, d.Apart path e

theorem Deed.Apart.symm {path : StepPath} {d e : Deed} (h : d.Apart path e) : e.Apart path d :=
  ⟨h.place.symm, fun token he hd => h.token token hd he, fun p he hd => h.part p hd he⟩

theorem Apart.symm {path : StepPath} {ds es : List Deed} (h : Apart path ds es) : Apart path es ds :=
  fun e he d hd => (h d hd e he).symm

/-- **Branches that keep apart**: no two of them wait for the same token, or have a job under the same
    id. -/
def KeepApart (path : StepPath) (ds : List Deed) : Prop :=
  ∀ d ∈ ds, ∀ e ∈ ds, d.place path ≠ e.place path →
    (∀ token ∈ d.call.token?, token ∉ e.call.token?)
      ∧ ∀ id : String, Part.job id ∈ d.call.part? → Part.job id ∉ e.call.part?

theorem KeepApart.mono {path : StepPath} {ds es : List Deed} (h : KeepApart path es) (hds : ds ⊆ es) :
    KeepApart path ds := fun d hd e he => h d (hds hd) e (hds he)

/-! ## Shuffles -/

namespace Company

variable {k : Company} {path : StepPath} {ds es fs : List Deed}

/-- What is answered does not depend on what others have done. -/
theorem answer_interleaved {past other whole : List Deed} (h : Interleaved past other whole) {d : Deed}
    (hd : ∀ e ∈ other, d.Apart path e) :
    k.answer path whole (d.place path) d.call d.start
      = k.answer path past (d.place path) d.call d.start := by
  unfold answer
  split
  · next token htoken =>
    have hother (e) (he : e ∈ other) : decide (e.call.token? = some token) = false :=
      decide_eq_false ((hd e he).token token htoken)
    rw [h.filter_eq hother]
  · rw [h.filter_eq fun e he => decide_eq_false (hd e he).place.symm]

theorem surrounds_interleaved (h : Interleaved ds es fs) : ∀ {past other whole : List Deed},
    Interleaved past other whole → Apart path (past ++ ds) (other ++ es) →
    (k.Surrounds path whole fs ↔ k.Surrounds path past ds ∧ k.Surrounds path other es) := by
  induction h with
  | nil => intro past other whole _ _; simp [Surrounds]
  | @left d ds es fs _ ih =>
    intro past other whole hpast hapart
    have hnext : Interleaved (past ++ [d]) other (whole ++ [d]) := by
      simpa using hpast.concat (.left .nil)
    have hd (e) (he : e ∈ other) : d.Apart path e :=
      hapart d (by simp) e (List.mem_append_left _ he)
    rw [Surrounds, Surrounds, answer_interleaved hpast hd, ih hnext (by simpa using hapart), and_assoc]
  | @right e ds es fs _ ih =>
    intro past other whole hpast hapart
    have hnext : Interleaved past (other ++ [e]) (whole ++ [e]) := by
      simpa using hpast.concat (.right .nil)
    have he (d) (hd : d ∈ past) : e.Apart path d :=
      (hapart d (List.mem_append_left _ hd) e (by simp)).symm
    rw [Surrounds, Surrounds, answer_interleaved hpast.symm he, ih hnext (by simpa using hapart)]
    exact and_left_comm

/-- **A shuffle of lists that have nothing in common** is answered as each of them is. -/
theorem surrounds_shuffled {lists : List (List Deed)} (h : Shuffled lists fs)
    (hapart : lists.Pairwise (Apart path)) :
    k.Surrounds path [] fs ↔ ∀ ds ∈ lists, k.Surrounds path [] ds := by
  induction h with
  | nil => simp [Surrounds]
  | cons hrest hfs ih =>
    obtain ⟨hfirst, hapart⟩ := List.pairwise_cons.mp hapart
    rw [surrounds_interleaved hfs .nil, ih hapart, List.forall_mem_cons]
    intro d hd e he
    obtain ⟨es, hes, he⟩ := hrest.mem_iff.mp he
    exact hfirst es hes d hd e he

end Company

/-- The parts that deeds touch. -/
def Touched (ds : List Deed) (p : Part) : Prop := ∃ d ∈ ds, p ∈ d.call.part?

theorem within_touched {ds : List Deed} (h : ∀ d ∈ ds, d.call.IsLocal) : Within (Touched ds) ds :=
  fun d hd => ⟨h d hd, fun _ hp => ⟨d, hd, hp⟩⟩

theorem Apart.within {path : StepPath} {ds es : List Deed} (h : Apart path ds es)
    (hes : ∀ e ∈ es, e.call.IsLocal) : Within (fun p => ¬ Touched ds p) es :=
  fun e he => ⟨hes e he, fun p hp ⟨d, hd, hpd⟩ => (h d hd e he).part p hpd hp⟩

/-- **A world goes along with a shuffle** of lists that have nothing in common, if it is in the order
    of time, just when it goes along with each of them. -/
theorem World.admits_shuffled {path : StepPath} {lists : List (List Deed)} {fs : List Deed} {w : World}
    (h : Shuffled lists fs) (hapart : lists.Pairwise (Apart path))
    (hlocal : ∀ ds ∈ lists, ∀ d ∈ ds, d.call.IsLocal) :
    (∃ w', w.Admits fs w') ↔ InOrder fs ∧ ∀ ds ∈ lists, ∃ w', w.Admits ds w' := by
  induction h with
  | nil => exact ⟨fun _ => ⟨.nil, by simp⟩, fun _ => ⟨w, .nil⟩⟩
  | @cons ds es fs rest hrest hfs ih =>
    obtain ⟨hfirst, hapart⟩ := List.pairwise_cons.mp hapart
    obtain ⟨hds, hlocal⟩ := List.forall_mem_cons.mp hlocal
    have hes (e) (he : e ∈ es) : e.call.IsLocal := by
      obtain ⟨es', hes', he⟩ := hrest.mem_iff.mp he
      exact hlocal es' hes' e he
    have hboth : Apart path ds es := by
      intro d hd e he
      obtain ⟨es', hes', he⟩ := hrest.mem_iff.mp he
      exact hfirst es' hes' d hd e he
    rw [List.forall_mem_cons]
    refine ⟨fun ⟨w', hw'⟩ => ?_, fun ⟨horder, ⟨v, hv⟩, hadmits⟩ => ?_⟩
    · have hleft := Admits.of_interleaved hfs (within_touched hds) (hboth.within hes) (.refl _ w)
        (Nat.le_refl _) hw'
      have hright := Admits.of_interleaved hfs.symm (within_touched hes) (hboth.symm.within hds)
        (.refl _ w) (Nat.le_refl _) hw'
      exact ⟨hw'.inOrder.1, hleft, ((ih hapart hlocal).mp hright).2⟩
    · obtain ⟨u, hu⟩ := (ih hapart hlocal).mpr ⟨horder.sublist hfs.sublist_right, hadmits⟩
      refine Admits.interleaved hfs (within_touched hds) (hboth.symm.within hds) (within_touched hes)
        (hboth.within hes) horder (.refl _ w) (.refl _ w) (fun d hd => ?_) hv hu
      rcases hfs.mem_iff.mp hd with hd | hd
      · exact hv.inOrder.2 d hd
      · exact hu.inOrder.2 d hd

end Runbook
