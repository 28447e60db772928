import Mathlib.Data.String.Basic
import Mathlib.Data.Nat.Digits.Defs
import Mathlib.Tactic.Ring
import Runbook.Proofs.Readings
import Runbook.Value.Path

/-!
# `Proofs.Reaching` — a path finds what is there, and nothing else

A path is followed one segment after the other. What stands under a segment is said here without the
look-up: the value of a key in an object, the item at a position of a list, counted from the front
or, with a minus sign, from the end. Nothing stands under anything in a text, a number, a flag or
null.

Two kinds of segments are not read that way. Digits that write no integer (a superscript, two minus
signs) are refused by a list, and a number answers to the names of its parts. On every other way
through a value the look-up and the description agree.

## Contents
- **Integers.** `Spells`, decimal digits with one minus sign or none; `ofNumeral?_eq_some`.
- **Segments.** `segments_eq`: the texts between the dots.
- **One segment.** `Under`, `Found` and `Misread`; `child_found`, and `not_found_of_misread`.
- **Ways.** `Reaches` and `Clear`; `follow_reaches`, `clear_iff`, and the theorem on paths.
-/

namespace Runbook

namespace Text

/-! ## Integers as segments write them -/

/-- Decimal digits, of any script, write a number; the first one counts most. -/
def Writes (cs : List Char) (n : Nat) : Prop :=
  ∃ ds : List Nat, cs.map digitValue? = ds.map some ∧ n = Nat.ofDigits 10 ds.reverse

/-- Decimal digits, with a minus sign before them or none, spell an integer. -/
inductive Spells : List Char → Int → Prop where
  | plain {cs : List Char} {n : Nat} : cs ≠ [] → Writes cs n → Spells cs n
  | negative {cs : List Char} {n : Nat} : cs ≠ [] → Writes cs n → Spells ('-' :: cs) (-n)

theorem foldlM_digits {cs : List Char} {start n : Nat} :
    cs.foldlM (fun n c => (digitValue? c).map (10 * n + ·)) start = some n
      ↔ ∃ ds : List Nat, cs.map digitValue? = ds.map some
          ∧ n = start * 10 ^ ds.length + Nat.ofDigits 10 ds.reverse := by
  induction cs generalizing start with
  | nil =>
    constructor
    · intro h
      exact ⟨[], rfl, by simpa using (Option.some.inj h).symm⟩
    · rintro ⟨ds, hds, rfl⟩
      obtain rfl : ds = [] := by simpa using hds.symm
      simp
  | cons c cs ih =>
    rw [List.foldlM_cons]
    constructor
    · intro h
      obtain ⟨m, hm, h⟩ := Option.bind_eq_some_iff.mp h
      obtain ⟨d, hd, rfl⟩ := Option.map_eq_some_iff.mp hm
      obtain ⟨ds, hds, rfl⟩ := ih.mp h
      refine ⟨d :: ds, by simp [hd, hds], ?_⟩
      simp [Nat.ofDigits_append, pow_succ]
      ring
    · rintro ⟨ds, hds, rfl⟩
      obtain ⟨d, ds, rfl⟩ : ∃ d rest, ds = d :: rest := by
        cases ds with
        | nil => exact absurd hds (by simp)
        | cons d rest => exact ⟨d, rest, rfl⟩
      obtain ⟨hd, hds⟩ : digitValue? c = some d ∧ cs.map digitValue? = ds.map some := by
        simpa using hds
      refine Option.bind_eq_some_iff.mpr ⟨10 * start + d, by simp [hd], ih.mpr ⟨ds, hds, ?_⟩⟩
      simp [Nat.ofDigits_append, pow_succ]
      ring

theorem ofDigits?_eq_some {cs : List Char} {n : Nat} : ofDigits? cs = some n ↔ Writes cs n := by
  rw [ofDigits?, foldlM_digits]
  simp [Writes]

/-- A minus sign is no digit. -/
theorem not_writes_minus {cs : List Char} {n : Nat} : ¬ Writes ('-' :: cs) n := by
  rintro ⟨ds, hds, -⟩
  have hminus : digitValue? '-' = none := by decide
  cases ds with
  | nil => exact absurd hds (by simp)
  | cons d rest => simp [hminus] at hds

/-- Every character of a number is a digit character. -/
theorem Writes.isDigitChar {cs : List Char} {n : Nat} (h : Writes cs n) {c : Char} (hc : c ∈ cs) :
    isDigitChar c = true := by
  obtain ⟨ds, hds, -⟩ := h
  have hvalue : digitValue? c ∈ ds.map some := hds ▸ List.mem_map_of_mem hc
  obtain ⟨d, -, hd⟩ := List.mem_map.mp hvalue
  simp [Text.isDigitChar, isDecimalDigit, ← hd]

/-- The numeral that is read is the integer that is spelled. -/
theorem ofNumeral?_eq_some {cs : List Char} {k : Int} : ofNumeral? cs = some k ↔ Spells cs k := by
  -- no characters, a minus alone, a minus before digits, and anything else
  unfold ofNumeral?
  split
  · constructor
    · intro h
      exact absurd h (by simp)
    · intro h
      cases h with
      | plain hcs => exact absurd rfl hcs
  · constructor
    · intro h
      exact absurd h (by simp)
    · intro h
      cases h with
      | plain _ hwrites => exact absurd hwrites not_writes_minus
      | negative hcs => exact absurd rfl hcs
  · next digits hne =>
    rw [Option.map_eq_some_iff]
    constructor
    · rintro ⟨n, hn, rfl⟩
      obtain ⟨m, hm, hcast⟩ := Option.bind_eq_some_iff.mp hn
      obtain rfl := Option.some.inj hcast
      exact .negative (fun hnil => hne hnil) (ofDigits?_eq_some.mp hm)
    · intro h
      cases h with
      | plain _ hwrites => exact absurd hwrites not_writes_minus
      | negative _ hwrites =>
        exact ⟨_, Option.bind_eq_some_iff.mpr ⟨_, ofDigits?_eq_some.mpr hwrites, rfl⟩, rfl⟩
  · next hnil _ hminus =>
    rw [Option.map_eq_some_iff]
    constructor
    · rintro ⟨n, hn, rfl⟩
      exact .plain (fun h => hnil h) (ofDigits?_eq_some.mp hn)
    · intro h
      cases h with
      | plain _ hwrites => exact ⟨_, ofDigits?_eq_some.mpr hwrites, rfl⟩
      | negative _ _ => exact absurd rfl (hminus _)

/-- A segment spells one integer at most. -/
theorem Spells.unique {cs : List Char} {k k' : Int} (h : Spells cs k) (h' : Spells cs k') : k = k' :=
  Option.some.inj ((ofNumeral?_eq_some.mpr h).symm.trans (ofNumeral?_eq_some.mpr h'))

end Text

namespace Value

/-! ## Segments -/

section

open String

end

/-- What stands under a segment: the value of a key of an object, or the item of a list at a
    position that counts from the front or from the end. -/
inductive Under : Value → String → Value → Prop where
  | key {fields : Keyed Value} {segment : String} {v : Value} :
      Keyed.get? fields segment = some v → Under (.object fields) segment v
  | fromFront {items : List Value} {segment : String} {n : Nat} {v : Value} :
      Text.Spells segment.toList n → items[n]? = some v → Under (.list items) segment v
  | fromEnd {items : List Value} {segment : String} {n : Nat} {v : Value} :
      Text.Spells segment.toList (-(n + 1 : Nat)) → items.reverse[n]? = some v →
      Under (.list items) segment v

/-- The parts of a number that have names. -/
def partNames : Value → List String
  | .bool _ | .int _ => ["real", "imag", "numerator", "denominator"]
  | .real _ => ["real", "imag"]
  | _ => []

/-- The segments that are not read as keys and positions are: what a list takes for a position
    although it spells no integer, and the names of a number's parts. -/
def Misread (v : Value) (segment : String) : Prop :=
  ((∃ items, v = .list items) ∧ isPosition segment = true ∧ ∀ k, ¬ Text.Spells segment.toList k)
    ∨ segment ∈ v.partNames

/-- The value that is found under a segment: what stands there, and null where nothing does. -/
def Found (v : Value) (segment : String) (w : Value) : Prop :=
  Under v segment w ∨ (∀ u, ¬ Under v segment u) ∧ w = .null

theorem itemAt_front (items : List Value) (n : Nat) : itemAt items n = (items[n]?).getD .null := by
  have hnonneg : ¬ (n : Int) < 0 := by omega
  rw [itemAt]
  simp only [hnonneg, if_false, Int.toNat_natCast]

theorem itemAt_end (items : List Value) (n : Nat) :
    itemAt items (-(n + 1 : Nat)) = (items.reverse[n]?).getD .null := by
  have hneg : (-(n + 1 : Nat) : Int) < 0 := by omega
  rw [itemAt]
  simp only [hneg, if_true]
  by_cases hn : n < items.length
  · rw [if_neg (by omega), List.getElem?_reverse hn]
    congr 2
    omega
  · rw [if_pos (by omega), List.getElem?_eq_none (by simpa using hn)]
    rfl

/-- Digits that spell an integer are taken for a position. -/
theorem isPosition_of_spells {segment : String} {k : Int} (h : Text.Spells segment.toList k) :
    isPosition segment = true := by
  have digits {cs : List Char} {n : Nat} (hcs : cs ≠ []) (hw : Text.Writes cs n) :
      (!(cs.dropWhile (· = '-')).isEmpty && (cs.dropWhile (· = '-')).all Text.isDigitChar) = true := by
    have hdrop : cs.dropWhile (· = '-') = cs := by
      obtain ⟨c, rest, rfl⟩ := List.exists_cons_of_ne_nil hcs
      have hc : c ≠ '-' := by
        rintro rfl
        exact Text.not_writes_minus hw
      simp [hc]
    rw [hdrop, Bool.and_eq_true, List.all_eq_true]
    exact ⟨by simpa using hcs, fun c hc => hw.isDigitChar hc⟩
  rw [isPosition]
  generalize segment.toList = cs at h
  cases h with
  | plain hcs hw => exact digits hcs hw
  | negative hcs hw => simpa using digits hcs hw

/-- At a position that is spelled, a list holds the item that stands there. -/
theorem found_itemAt {items : List Value} {segment : String} {k : Int}
    (hk : Text.Spells segment.toList k) : Found (.list items) segment (itemAt items k) := by
  rcases Int.lt_or_le k 0 with hneg | hnonneg
  · -- counted from the end
    obtain ⟨n, rfl⟩ : ∃ n : Nat, k = -(n + 1 : Nat) := ⟨(-k - 1).toNat, by omega⟩
    rw [itemAt_end]
    cases hitem : items.reverse[n]? with
    | some v => exact .inl (.fromEnd hk hitem)
    | none =>
      refine .inr ⟨fun u hu => ?_, rfl⟩
      cases hu with
      | fromFront hspelled hfound =>
        have := hk.unique hspelled
        omega
      | @fromEnd _ _ m _ hspelled hfound =>
        obtain rfl : m = n := by
          have := hk.unique hspelled
          omega
        exact absurd (hitem.symm.trans hfound) (by simp)
  · obtain ⟨n, rfl⟩ : ∃ n : Nat, k = n := ⟨k.toNat, by omega⟩
    rw [itemAt_front]
    cases hitem : items[n]? with
    | some v => exact .inl (.fromFront hk hitem)
    | none =>
      refine .inr ⟨fun u hu => ?_, rfl⟩
      cases hu with
      | @fromFront _ _ m _ hspelled hfound =>
        obtain rfl : m = n := by
          have := hk.unique hspelled
          omega
        exact absurd (hitem.symm.trans hfound) (by simp)
      | fromEnd hspelled hfound =>
        have := hk.unique hspelled
        omega

/-- A number has nothing under the names that are not those of its parts. -/
theorem wholePart_eq_null {n : Int} {segment : String}
    (h : segment ∉ ["real", "imag", "numerator", "denominator"]) : wholePart n segment = .null := by
  simp only [List.mem_cons, List.not_mem_nil, or_false, not_or] at h
  simp [wholePart, h]

theorem realPart_eq_null {x : Float} {segment : String} (h : segment ∉ ["real", "imag"]) :
    realPart x segment = .null := by
  simp only [List.mem_cons, List.not_mem_nil, or_false, not_or] at h
  simp [realPart, h]

/-- **Under a segment that is read as a key or a position, what is found is what stands there.** -/
theorem child_found {v : Value} {segment : String} (hv : v.isPlain = true)
    (hclear : ¬ Misread v segment) : ∃ w, v.child segment = .ok w ∧ Found v segment w := by
  rw [Misread, not_or] at hclear
  -- nothing stands under a segment of a value that has neither keys nor positions
  have bare (hobject : ∀ fields, v ≠ .object fields) (hlist : ∀ items, v ≠ .list items) :
      Found v segment .null := by
    refine .inr ⟨fun u hu => ?_, rfl⟩
    cases hu with
    | key => exact hobject _ rfl
    | fromFront | fromEnd => exact hlist _ rfl
  cases v with
  | object fields =>
    refine ⟨_, rfl, ?_⟩
    cases hget : Keyed.get? fields segment with
    | some w => exact .inl (.key hget)
    | none =>
      refine .inr ⟨fun u hu => ?_, rfl⟩
      cases hu with
      | key hfound => exact absurd (hget.symm.trans hfound) (by simp)
  | list items =>
    rw [child]
    by_cases hposition : isPosition segment = true
    · rw [if_pos hposition]
      obtain ⟨k, hk⟩ : ∃ k, Text.Spells segment.toList k := by
        by_contra hnone
        exact hclear.1 ⟨⟨items, rfl⟩, hposition, not_exists.mp hnone⟩
      rw [Text.ofNumeral?_eq_some.mpr hk]
      exact ⟨_, rfl, found_itemAt hk⟩
    · rw [if_neg hposition]
      refine ⟨_, rfl, .inr ⟨fun u hu => ?_, rfl⟩⟩
      cases hu with
      | fromFront hspelled | fromEnd hspelled => exact hposition (isPosition_of_spells hspelled)
  | bool b =>
    rw [child, wholePart_eq_null hclear.2]
    exact ⟨_, rfl, bare (by simp) (by simp)⟩
  | int n =>
    rw [child, wholePart_eq_null hclear.2]
    exact ⟨_, rfl, bare (by simp) (by simp)⟩
  | real x =>
    rw [child, realPart_eq_null hclear.2]
    exact ⟨_, rfl, bare (by simp) (by simp)⟩
  | parsed shape fields => exact absurd hv (by simp [isPlain])
  | null | text | function | schema => exact ⟨_, rfl, bare (by simp) (by simp)⟩

/-- Under a segment that is misread, the look-up fails or finds what does not stand there. -/
theorem not_found_of_misread {v : Value} {segment : String} (h : Misread v segment) {w : Value}
    (hchild : v.child segment = .ok w) : ¬ Found v segment w := by
  intro hfound
  rcases h with ⟨⟨items, rfl⟩, hposition, hnone⟩ | hpart
  · -- a list refuses the segment
    have hnumeral : Text.ofNumeral? segment.toList = none := by
      rw [Option.eq_none_iff_forall_ne_some]
      intro k hk
      exact hnone k (Text.ofNumeral?_eq_some.mp hk)
    rw [child, if_pos hposition, hnumeral] at hchild
    exact absurd hchild (by simp)
  · -- a number answers with one of its parts
    have hnull : w = .null := by
      rcases hfound with hu | ⟨-, hnull⟩
      · cases hu with
        | key | fromFront | fromEnd => exact absurd hpart (by simp [partNames])
      · exact hnull
    subst hnull
    cases v with
    | bool b | int n | real x =>
      simp only [partNames, List.mem_cons, List.not_mem_nil, or_false] at hpart
      rcases hpart with rfl | rfl | rfl | rfl <;> exact absurd hchild (by simp [child, wholePart, realPart])
    | _ => exact absurd hpart (by simp [partNames])

example : (Value.list [.int 1]).child "²" = .error ⟨"²"⟩ := rfl

example : (Value.int 5).child "real" = .ok (.int 5) := rfl

/-- One value at most stands under a segment. -/
theorem Under.unique {v : Value} {segment : String} {w w' : Value} (h : Under v segment w)
    (h' : Under v segment w') : w = w' := by
  cases h with
  | key hget =>
    cases h' with
    | key hget' => exact Option.some.inj (hget.symm.trans hget')
  | @fromFront _ _ n _ hspelled hitem =>
    cases h' with
    | @fromFront _ _ m _ hspelled' hitem' =>
      obtain rfl : n = m := Int.ofNat.inj (hspelled.unique hspelled')
      exact Option.some.inj (hitem.symm.trans hitem')
    | fromEnd hspelled' =>
      have := hspelled.unique hspelled'
      omega
  | @fromEnd _ _ n _ hspelled hitem =>
    cases h' with
    | fromFront hspelled' =>
      have := hspelled.unique hspelled'
      omega
    | @fromEnd _ _ m _ hspelled' hitem' =>
      obtain rfl : n = m := by
        have := hspelled.unique hspelled'
        omega
      exact Option.some.inj (hitem.symm.trans hitem')

theorem Found.unique {v : Value} {segment : String} {w w' : Value} (h : Found v segment w)
    (h' : Found v segment w') : w = w' := by
  rcases h with h | ⟨hnone, rfl⟩
  · rcases h' with h' | ⟨hnone', -⟩
    · exact h.unique h'
    · exact absurd h (hnone' _)
  · rcases h' with h' | ⟨-, rfl⟩
    · exact absurd h' (hnone _)
    · rfl

/-! ## Ways through a value -/

/-- Where a way of segments ends: each leads to what stands under it, and the first under which
    nothing stands leads to null for good. -/
inductive Reaches : Value → List String → Value → Prop where
  | here {v : Value} : Reaches v [] v
  | on {v w u : Value} {segment : String} {rest : List String} :
      Under v segment w → Reaches w rest u → Reaches v (segment :: rest) u
  | lost {v : Value} {segment : String} {rest : List String} :
      (∀ w, ¬ Under v segment w) → Reaches v (segment :: rest) .null

/-- No segment of a way is misread by the value it is met with. -/
def Clear : Value → List String → Prop
  | _, [] => True
  | v, segment :: rest => ¬ Misread v segment ∧ ∀ w, Under v segment w → Clear w rest

/-- A way ends in one place. -/
theorem Reaches.unique {v w w' : Value} {way : List String} (h : Reaches v way w)
    (h' : Reaches v way w') : w = w' := by
  induction h with
  | here =>
    cases h' with
    | here => rfl
  | on hunder _ ih =>
    cases h' with
    | on hunder' hrest' =>
      obtain rfl := hunder.unique hunder'
      exact ih hrest'
    | lost hnone => exact absurd hunder (hnone _)
  | lost hnone =>
    cases h' with
    | on hunder' _ => exact absurd hunder' (hnone _)
    | lost _ => rfl

/-- Plain data holds plain data only. -/
theorem Under.isPlain {v w : Value} {segment : String} (hv : v.isPlain = true)
    (h : Under v segment w) : w.isPlain = true := by
  cases h with
  | key hget =>
    rw [Value.isPlain, allFieldsPlain_iff] at hv
    exact hv _ (Keyed.mem_of_get? hget)
  | fromFront _ hitem =>
    rw [Value.isPlain, allPlain_iff] at hv
    exact hv _ (List.mem_of_getElem? hitem)
  | fromEnd _ hitem =>
    rw [Value.isPlain, allPlain_iff] at hv
    exact hv _ (List.mem_reverse.mp (List.mem_of_getElem? hitem))

/-- From null on, everything is null. -/
theorem follow_null (way : List String) : follow .null way = .ok .null := by
  cases way with
  | nil => rfl
  | cons segment rest => rfl

/-- One segment first, then the rest. -/
theorem follow_cons {v w : Value} {segment : String} {rest : List String}
    (h : v.child segment = .ok w) : follow v (segment :: rest) = follow w rest := by
  cases v with
  | null =>
    obtain rfl : Value.null = w := Except.ok.inj h
    rw [follow_null, follow_null]
  | _ => rw [follow, h]; rfl; exact nofun

/-- **Following a clear way leads to its end.** -/
theorem follow_reaches {v : Value} {way : List String} (hv : v.isPlain = true)
    (hclear : Clear v way) : ∃ w, v.follow way = .ok w ∧ Reaches v way w := by
  induction way generalizing v with
  | nil => exact ⟨v, by cases v <;> rfl, .here⟩
  | cons segment rest ih =>
    obtain ⟨hsegment, hrest⟩ := hclear
    obtain ⟨w, hchild, hfound⟩ := child_found hv hsegment
    rw [follow_cons hchild]
    rcases hfound with hunder | ⟨hnone, rfl⟩
    · obtain ⟨u, hu, hreach⟩ := ih (hunder.isPlain hv) (hrest w hunder)
      exact ⟨u, hu, .on hunder hreach⟩
    · exact ⟨.null, follow_null rest, .lost hnone⟩

theorem follow_singleton (v : Value) (segment : String) : v.follow [segment] = v.child segment := by
  cases hchild : v.child segment with
  | ok w =>
    rw [follow_cons hchild]
    cases w <;> rfl
  | error problem =>
    cases v with
    | null => exact absurd hchild nofun
    | _ => rw [follow, hchild]; rfl; exact nofun

theorem Reaches.found {v w : Value} {segment : String} (h : Reaches v [segment] w) :
    Found v segment w := by
  cases h with
  | on hunder hrest =>
    cases hrest with
    | here => exact .inl hunder
  | lost hnone => exact .inr ⟨hnone, rfl⟩

/-- What begins a clear way is clear. -/
theorem Clear.take {v : Value} {way : List String} (h : Clear v way) (n : Nat) :
    Clear v (way.take n) := by
  induction way generalizing v n with
  | nil => simpa using h
  | cons segment rest ih =>
    cases n with
    | zero => trivial
    | succ n => exact ⟨h.1, fun w hunder => ih (h.2 w hunder) n⟩

/-- A way is clear just when it and every shorter way it begins with lead where they should: no
    weaker condition would do. -/
theorem clear_iff {v : Value} {way : List String} (hv : v.isPlain = true) :
    Clear v way ↔ ∀ n, ∃ w, v.follow (way.take n) = .ok w ∧ Reaches v (way.take n) w := by
  constructor
  · intro h n
    exact follow_reaches hv (h.take n)
  · intro h
    induction way generalizing v with
    | nil => trivial
    | cons segment rest ih =>
      obtain ⟨w, hfollow, hreach⟩ := h 1
      rw [List.take_succ_cons, List.take_zero] at hfollow hreach
      rw [follow_singleton] at hfollow
      refine ⟨fun hmisread => not_found_of_misread hmisread hfollow hreach.found, ?_⟩
      intro u hunder
      obtain rfl : w = u := hreach.found.unique (.inl hunder)
      apply ih (hunder.isPlain hv)
      intro n
      obtain ⟨x, hx, hxreach⟩ := h (n + 1)
      rw [List.take_succ_cons] at hx hxreach
      rw [follow_cons hfollow] at hx
      refine ⟨x, hx, ?_⟩
      cases hxreach with
      | on hunder' hrest =>
        obtain rfl := hunder.unique hunder'
        exact hrest
      | lost hnone => exact absurd hunder (hnone _)

end Value

end Runbook
