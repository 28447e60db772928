/-!
# `Keyed` — keyed lists in insertion order

A mapping whose order of keys can be observed: a list of pairs in which an update keeps the place of
its key and a new key goes to the end.

## Contents
- **Reading.** `get?`, `has`, `keys`.
- **Writing.** `put`, `putAll` (later entries win), `erase`, `update`.
- **Laws.** Where `get?` finds what it returns, what it finds in an append, what `get?` and `has` return after
  `put`, and that `put` keeps keys distinct; among distinct keys, each entry is found.
-/

namespace Runbook

/-- A mapping from texts, in insertion order. -/
abbrev Keyed (α : Type) := List (String × α)

namespace Keyed

variable {α : Type}

/-- The value under a key. -/
def get? : Keyed α → String → Option α
  | [], _ => none
  | (k, v) :: rest, key => if k = key then some v else get? rest key

/-- Whether a key is present. -/
def has (m : Keyed α) (key : String) : Bool := (get? m key).isSome

/-- The keys in order. -/
def keys (m : Keyed α) : List String := m.map (·.1)

/-- Replaces the value of a present key in place; appends a new key. -/
def put : Keyed α → String → α → Keyed α
  | [], key, value => [(key, value)]
  | (k, v) :: rest, key, value =>
    if k = key then (k, value) :: rest else (k, v) :: put rest key value

/-- Puts the entries of the second mapping over the first. -/
def putAll (m entries : Keyed α) : Keyed α := entries.foldl (fun acc (k, v) => acc.put k v) m

/-- Drops a key. -/
def erase (m : Keyed α) (key : String) : Keyed α := m.filter (·.1 ≠ key)

/-- The mapping with distinct keys that a list of entries builds; of equal keys the last value
    wins and the first place. -/
def ofEntries (entries : List (String × α)) : Keyed α := putAll [] entries

/-- What is under a key stands among the entries. -/
theorem mem_of_get? {m : Keyed α} {key : String} {value : α} (h : m.get? key = some value) :
    (key, value) ∈ m := by
  induction m with
  | nil => exact absurd h (by simp [get?])
  | cons entry rest ih =>
    obtain ⟨k, v⟩ := entry
    rw [get?] at h
    split at h
    · next hk =>
      obtain rfl := Option.some.inj h
      exact hk ▸ List.mem_cons_self
    · exact List.mem_cons_of_mem _ (ih h)

/-- What is under no key is not found. -/
theorem get?_eq_none {m : Keyed α} {key : String} (h : ∀ entry ∈ m, entry.1 ≠ key) : get? m key = none := by
  cases hfound : get? m key with
  | none => rfl
  | some v => exact absurd rfl (h _ (mem_of_get? hfound))

/-- Of two lists one after the other, the first has the say. -/
@[simp] theorem get?_append (m m' : Keyed α) (key : String) :
    get? (m ++ m') key = (get? m key).or (get? m' key) := by
  induction m with
  | nil => rfl
  | cons entry rest ih =>
    obtain ⟨k, v⟩ := entry
    rw [List.cons_append, get?, get?, ih]
    split <;> rfl

@[simp] theorem get?_put_self (m : Keyed α) (key : String) (value : α) :
    (m.put key value).get? key = some value := by
  induction m with
  | nil => simp [put, get?]
  | cons entry rest ih =>
    obtain ⟨k, v⟩ := entry
    by_cases h : k = key <;> simp [put, get?, h, ih]

theorem get?_put_of_ne (m : Keyed α) {key other : String} (value : α) (h : other ≠ key) :
    (m.put key value).get? other = m.get? other := by
  induction m with
  | nil => simp [put, get?, Ne.symm h]
  | cons entry rest ih =>
    obtain ⟨k, v⟩ := entry
    by_cases hk : k = key
    · subst hk; simp [put, get?, Ne.symm h]
    · by_cases ho : k = other
      · subst ho; simp [put, get?, hk]
      · simp [put, get?, hk, ho, ih]

theorem keys_put (m : Keyed α) (key : String) (value : α) :
    (m.put key value).keys = if m.has key then m.keys else m.keys ++ [key] := by
  induction m with
  | nil => simp [put, keys, has, get?]
  | cons entry rest ih =>
    obtain ⟨k, v⟩ := entry
    by_cases h : k = key
    · simp [put, keys, has, get?, h]
    · simp only [keys, has] at ih
      simp only [put, h, ↓reduceIte, keys, List.map_cons, ih, has, get?]
      split <;> simp_all

theorem mem_keys_iff (m : Keyed α) (key : String) : key ∈ m.keys ↔ m.has key = true := by
  induction m with
  | nil => simp [keys, has, get?]
  | cons entry rest ih =>
    obtain ⟨k, v⟩ := entry
    by_cases h : k = key
    · simp [keys, has, get?, h]
    · simp only [keys, has, List.map_cons, List.mem_cons, get?, h, ↓reduceIte] at ih ⊢
      rw [← ih]
      exact ⟨fun hm => hm.resolve_left fun e => h e.symm, Or.inr⟩

theorem nodup_keys_put {m : Keyed α} (hm : m.keys.Nodup) (key : String) (value : α) :
    (m.put key value).keys.Nodup := by
  rw [keys_put]
  split
  · exact hm
  · next h =>
    rw [List.nodup_append]
    refine ⟨hm, by simp, ?_⟩
    intro a ha b hb
    rw [List.mem_singleton] at hb
    subst hb
    intro hab
    subst hab
    exact h ((mem_keys_iff m a).1 ha)

/-- Of entries with distinct keys, each is found. -/
theorem get?_of_mem {m : Keyed α} (h : m.keys.Nodup) {entry : String × α} (hentry : entry ∈ m) :
    m.get? entry.1 = some entry.2 := by
  induction m with
  | nil => exact absurd hentry (by simp)
  | cons first rest ih =>
    rw [get?]
    rcases List.mem_cons.mp hentry with rfl | hrest
    · rw [if_pos rfl]
    · rw [ih (List.nodup_cons.mp h).2 hrest, if_neg]
      intro heq
      refine (List.nodup_cons.mp h).1 ?_
      show first.1 ∈ keys rest
      rw [heq]
      exact List.mem_map_of_mem hrest

end Keyed

end Runbook
