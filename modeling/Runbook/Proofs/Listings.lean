import Mathlib.Data.List.Nodup
import Runbook.Proofs.RunRecords
import Runbook.Store.Queues

/-!
# `Proofs.Listings` — lists of records

A store lists records by reading, one by one, the ids that it finds in the rows of a table or in an index.
When the ids are distinct and every record stands under its own id, each of the records is listed once, in the
order of the ids.

## Contents
- **Orders.** What `newestFirst`, `lastTextFirst` and `ranked` make of a list.
- **Keys.** The keys of entries that were selected or sorted: `Keyed.mem_keys_of_perm`, `Keyed.pairwise_keys`.
- **Records.** `Lists`, the records of a store that are meant, each once; `lists_filterMap`.
- **Readings.** `Keyed.Readable`, a store whose records can all be read, and `Keyed.Readable.readMany_eq`.
-/

namespace Runbook

/-! ## Orders -/

section

variable {α : Type}

theorem pairwise_mergeSort_decide {R : α → α → Prop} [DecidableRel R] (htrans : ∀ a b c, R a b → R b c → R a c)
    (htotal : ∀ a b, R a b ∨ R b a) (items : List α) : (items.mergeSort fun a b => decide (R a b)).Pairwise R := by
  have hle (a b c : α) (hab : decide (R a b) = true) (hbc : decide (R b c) = true) : decide (R a c) = true :=
    decide_eq_true (htrans a b c (of_decide_eq_true hab) (of_decide_eq_true hbc))
  have hor (a b : α) : (decide (R a b) || decide (R b a)) = true := by
    rw [Bool.or_eq_true, decide_eq_true_iff, decide_eq_true_iff]
    exact htotal a b
  exact (List.pairwise_mergeSort hle hor items).imp of_decide_eq_true

theorem perm_newestFirst (key : α → Int) (items : List α) : (newestFirst key items).Perm items :=
  List.mergeSort_perm ..

theorem pairwise_newestFirst (key : α → Int) (items : List α) :
    (newestFirst key items).Pairwise fun a b => key b ≤ key a := by
  refine pairwise_mergeSort_decide (fun a b c hab hbc => ?_) (fun a b => ?_) items
  · exact Int.le_trans hbc hab
  · exact Int.le_total _ _

theorem perm_lastTextFirst (key : α → String) (items : List α) : (lastTextFirst key items).Perm items :=
  List.mergeSort_perm ..

theorem pairwise_lastTextFirst (key : α → String) (items : List α) :
    (lastTextFirst key items).Pairwise fun a b => key b ≤ key a := by
  refine pairwise_mergeSort_decide (fun a b c hab hbc => ?_) (fun a b => ?_) items
  · exact String.le_trans hbc hab
  · exact String.le_total _ _

end

/-! ## Keys -/

namespace Keyed

variable {α : Type} {entries selected : Keyed α}

/-- The keys of entries that were selected are those of the entries that fit. -/
theorem mem_keys_of_perm {fits : String × α → Bool} (hdistinct : entries.keys.Nodup)
    (hperm : selected.Perm (entries.filter fits)) (key : String) :
    key ∈ selected.keys ↔ ∃ value, entries.get? key = some value ∧ fits (key, value) = true := by
  rw [keys, List.mem_map]
  constructor
  · rintro ⟨⟨k, value⟩, hmem, rfl⟩
    obtain ⟨hentry, hfits⟩ := List.mem_filter.mp (hperm.mem_iff.mp hmem)
    exact ⟨value, get?_of_mem hdistinct hentry, hfits⟩
  · rintro ⟨value, hvalue, hfits⟩
    exact ⟨(key, value), hperm.mem_iff.mpr (List.mem_filter.mpr ⟨mem_of_get? hvalue, hfits⟩), rfl⟩

theorem nodup_keys_of_perm {fits : String × α → Bool} (hdistinct : entries.keys.Nodup)
    (hperm : selected.Perm (entries.filter fits)) : selected.keys.Nodup :=
  (hperm.map _).nodup_iff.mpr (hdistinct.sublist (List.filter_sublist.map _))

/-- Keys are in the order of the entries that stand under them. -/
theorem pairwise_keys {R : α → α → Prop} (hdistinct : entries.keys.Nodup) (hsub : ∀ e ∈ selected, e ∈ entries)
    (h : selected.Pairwise fun e e' => R e.2 e'.2) : selected.keys.Pairwise fun key key' =>
      ∀ value value', entries.get? key = some value → entries.get? key' = some value' → R value value' := by
  rw [keys, List.pairwise_map]
  refine h.imp_of_mem fun {e e'} he he' hR value value' hvalue hvalue' => ?_
  obtain rfl := Option.some.inj ((get?_of_mem hdistinct (hsub e he)).symm.trans hvalue)
  obtain rfl := Option.some.inj ((get?_of_mem hdistinct (hsub e' he')).symm.trans hvalue')
  exact hR

end Keyed

/-! ### Indexes -/

variable {scores : Keyed Stamp}

theorem perm_ranked (scores : Keyed Stamp) : (ranked scores).Perm scores.keys :=
  ((perm_newestFirst ..).trans (perm_lastTextFirst ..)).map _

/-- The members of an index are in the order of their scores. -/
theorem pairwise_ranked (hdistinct : scores.keys.Nodup) : (ranked scores).Pairwise fun key key' =>
    ∀ s t, scores.get? key = some s → scores.get? key' = some t → t.score ≤ s.score := by
  refine Keyed.pairwise_keys hdistinct (fun e he => ?_)
    (pairwise_newestFirst (fun e : String × Stamp => e.2.score) (lastTextFirst (·.1) scores))
  exact (perm_lastTextFirst _ scores).mem_iff.mp ((perm_newestFirst _ _).mem_iff.mp he)

/-! ## Records -/

section

variable {ρ : Type} {key : ρ → String} {known : String → Option ρ} {Meant Meant' : ρ → Prop} {rs rs' : List ρ}
  {ids : List String}

/-- **The records that are meant are listed**, each once. -/
structure Lists (key : ρ → String) (known : String → Option ρ) (Meant : ρ → Prop) (rs : List ρ) : Prop where
  distinct : (rs.map key).Nodup
  mem : ∀ r, r ∈ rs ↔ known (key r) = some r ∧ Meant r

/-- The records under distinct ids. -/
theorem lists_filterMap (hids : ids.Nodup) (hkey : ∀ id r, known id = some r → key r = id) :
    Lists key known (fun r => key r ∈ ids) (ids.filterMap known) where
  distinct := by
    rw [List.Nodup, List.pairwise_map]
    refine List.Pairwise.filterMap known (fun id id' hne r hr r' hr' hsame => hne ?_) hids
    rw [← hkey id r hr, ← hkey id' r' hr', hsame]
  mem r := by
    rw [List.mem_filterMap]
    constructor
    · rintro ⟨id, hid, hr⟩
      obtain rfl := hkey id r hr
      exact ⟨hr, hid⟩
    · exact fun ⟨hr, hid⟩ => ⟨key r, hid, hr⟩

/-- The first of the records under ids are those under the first ids, when there is one under each. -/
theorem filterMap_take (hknown : ∀ id ∈ ids, ∃ r, known id = some r) (n : Nat) :
    (ids.take n).filterMap known = (ids.filterMap known).take n := by
  induction ids generalizing n with
  | nil => rw [List.take_nil, List.filterMap_nil, List.take_nil]
  | cons id rest ih =>
    obtain ⟨⟨r, hr⟩, hrest⟩ := List.forall_mem_cons.mp hknown
    cases n with
    | zero => rfl
    | succ n =>
      rw [List.take_succ_cons, List.filterMap_cons_some hr, List.filterMap_cons_some hr, List.take_succ_cons,
        ih hrest]

theorem Lists.perm (h : Lists key known Meant rs) (hperm : rs'.Perm rs) : Lists key known Meant rs' where
  distinct := (hperm.map key).nodup_iff.mpr h.distinct
  mem r := hperm.mem_iff.trans (h.mem r)

theorem Lists.filter (h : Lists key known Meant rs) (fits : ρ → Bool) :
    Lists key known (fun r => Meant r ∧ fits r = true) (rs.filter fits) where
  distinct := h.distinct.sublist (List.filter_sublist.map _)
  mem r := by rw [List.mem_filter, h.mem, and_assoc]

theorem Lists.congr (h : Lists key known Meant rs) (hsame : ∀ r, known (key r) = some r → (Meant r ↔ Meant' r)) :
    Lists key known Meant' rs where
  distinct := h.distinct
  mem r := (h.mem r).trans (and_congr_right (hsame r))

/-- Records under ids are in the order of the ids. -/
theorem pairwise_filterMap {R : String → String → Prop} (h : ids.Pairwise R)
    (hkey : ∀ id r, known id = some r → key r = id) :
    (ids.filterMap known).Pairwise fun r r' => known (key r) = some r ∧ known (key r') = some r' ∧ R (key r) (key r') := by
  refine List.Pairwise.filterMap known (fun id id' hR r hr r' hr' => ?_) h
  obtain rfl := hkey id r hr
  obtain rfl := hkey id' r' hr'
  exact ⟨hr, hr', hR⟩

end

/-! ### Readings -/

namespace Keyed

variable {ρ : Type} [Recorded ρ] {entries : Keyed (Held ρ)} {ids : List String} {id : String} {r : ρ}

/-- What is known of the record under a key. -/
def known (entries : Keyed (Held ρ)) (id : String) : Option ρ := (entries.readHeld id).toOption.join

/-- **Every record can be read.** -/
def Readable (entries : Keyed (Held ρ)) : Prop := ∀ id, ∃ found, entries.readHeld id = .ok found

theorem Readable.readHeld_eq (h : entries.Readable) (id : String) : entries.readHeld id = .ok (entries.known id) := by
  obtain ⟨found, hfound⟩ := h id
  rw [known, hfound]
  rfl

theorem Readable.known_iff (h : entries.Readable) :
    entries.known id = some r ↔ entries.readHeld id = .ok (some r) := by
  rw [h.readHeld_eq, Except.ok.injEq]

theorem readable_of_forall (h : ∀ e ∈ entries, e.2.read.toOption.isSome = true) : entries.Readable := by
  intro id
  unfold readHeld
  cases hheld : entries.get? id with
  | none => exact ⟨none, rfl⟩
  | some held =>
    have hsome := h _ (mem_of_get? hheld)
    cases hread : held.read with
    | error f => simp [hread, Except.toOption] at hsome
    | ok r => exact ⟨some r, congrArg (some <$> ·) hread⟩

/-- A record that is read stands under a key. -/
theorem mem_keys_of_read (h : entries.readHeld id = .ok (some r)) : id ∈ entries.keys := by
  rw [mem_keys_iff, has]
  unfold readHeld at h
  cases hheld : entries.get? id with
  | none => simp [hheld] at h
  | some held => rfl

/-- Under a key there is a record. -/
theorem Readable.known_of_mem (h : entries.Readable) (hid : id ∈ entries.keys) : ∃ r, entries.known id = some r := by
  have hread := h.readHeld_eq id
  obtain ⟨held, hheld⟩ := Option.isSome_iff_exists.mp ((mem_keys_iff _ _).mp hid)
  unfold readHeld at hread
  rw [hheld] at hread
  obtain ⟨r, -, hr⟩ := Fault.map_eq_ok.mp hread
  exact ⟨r, hr.symm⟩

/-- **Records are read under ids** as they are known. -/
theorem Readable.readMany_eq (h : entries.Readable) (ids : List String) :
    entries.readMany ids = .ok (ids.filterMap entries.known) := by
  unfold readMany
  induction ids with
  | nil => rfl
  | cons id rest ih =>
    have hid := h.readHeld_eq id
    unfold readHeld at hid
    cases hheld : entries.get? id with
    | none =>
      rw [hheld] at hid
      rw [List.filterMap_cons_none hheld, List.filterMap_cons_none (Except.ok.inj hid).symm]
      exact ih
    | some held =>
      rw [hheld] at hid
      obtain ⟨r, hr, hsome⟩ := Fault.map_eq_ok.mp hid
      rw [List.filterMap_cons_some hheld, List.filterMap_cons_some hsome.symm, List.mapM_cons, hr, ih]
      rfl

end Keyed

end Runbook
