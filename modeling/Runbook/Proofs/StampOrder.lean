import Mathlib.Data.List.Lex
import Mathlib.Tactic.Ring
import Runbook.Proofs.Stamps

/-!
# `Proofs.StampOrder` — the order of stamps, of their texts and of their scores

Stores sort records by the instants of stamps, by their texts, or by the doubles that stand for them. Among
stamps with one offset, the order of the texts is that of the instants. Doubles tell two instants apart as
long as a microsecond is more than their last place, which is so until 2242.

## Contents
- **Calendar.** `Calendar.dayNumber_lt`: later dates have greater numbers.
- **Instants.** `Stamp.fields` and `Stamp.instant_lt`: with one offset, the first field that differs decides.
- **Texts.** `Stamp.instant_le_of_isoText`.
- **Scores.** `Number.nearest_near`, how far the nearest double is, and `Stamp.instant_le_of_score`.
-/

namespace Runbook

/-! ## Calendar -/

namespace Calendar

/-- The number of the first of March of a year. -/
def marchFirst (year : Int) : Int := 365 * year + year / 4 - year / 100 + year / 400 - 719468

theorem marchFirst_mono {y y' : Int} (h : y ≤ y') : marchFirst y ≤ marchFirst y' := by
  unfold marchFirst
  omega

/-- Between the first of March of two years, a February has passed. -/
theorem marchFirst_pred (year : Nat) :
    marchFirst year = marchFirst ((year : Int) - 1) + if isLeap year then 366 else 365 := by
  unfold marchFirst isLeap
  simp only [Bool.and_eq_true, Bool.or_eq_true, decide_eq_true_eq]
  split <;> omega

variable {year month day month' day' : Nat}

theorem IsDate.day_le (h : IsDate year month day) : day ≤ 31 :=
  Nat.le_trans h.inMonth.2 (by unfold monthLength; split <;> split <;> decide)

/-- January and February belong to the year that began in March before. -/
theorem dayNumber_early (h : month ≤ 2) : dayNumber year month day
    = marchFirst ((year : Int) - 1) + (153 * ((month : Int) + 9) + 2) / 5 + day - 1 := by
  unfold dayNumber marchFirst
  simp only [if_pos h]
  omega

theorem dayNumber_late (h : ¬ month ≤ 2) : dayNumber year month day
    = marchFirst year + (153 * ((month : Int) - 3) + 2) / 5 + day - 1 := by
  unfold dayNumber marchFirst
  simp only [if_neg h]
  omega

/-- From March on, a month ends before the next one begins. -/
theorem day_le_of_late (hm : ¬ month ≤ 2) (h : IsDate year month day) :
    (153 * ((month : Int) - 3) + 2) / 5 + day ≤ (153 * ((month : Int) - 2) + 2) / 5 := by
  obtain ⟨⟨-, hto⟩, -, hday⟩ := h
  unfold monthLength at hday
  have hmonths : month = 3 ∨ month = 4 ∨ month = 5 ∨ month = 6 ∨ month = 7 ∨ month = 8 ∨ month = 9 ∨ month = 10
      ∨ month = 11 ∨ month = 12 := by omega
  rcases hmonths with rfl | rfl | rfl | rfl | rfl | rfl | rfl | rfl | rfl | rfl <;> simp at hday ⊢ <;> omega

/-- A year ends before the next one begins. -/
theorem dayNumber_lt_newYear (h : IsDate year month day) :
    dayNumber year month day < dayNumber (year + 1) 1 1 := by
  have hnext := marchFirst_pred year
  have hyear : ((year + 1 : Nat) : Int) - 1 = year := by omega
  rw [dayNumber_early (show 1 ≤ 2 by decide), hyear]
  by_cases hm : month ≤ 2
  · have hday := h.day_le
    rw [dayNumber_early hm]
    split at hnext <;> omega
  · have hday := day_le_of_late hm h
    have hmonth := h.inYear.2
    rw [dayNumber_late hm]
    omega

theorem newYear_le_dayNumber (h : IsDate year month day) : dayNumber year 1 1 ≤ dayNumber year month day := by
  have hnext := marchFirst_pred year
  have hday := h.inMonth.1
  have hmonth := h.inYear.1
  rw [dayNumber_early (show 1 ≤ 2 by decide)]
  by_cases hm : month ≤ 2
  · rw [dayNumber_early hm]
    omega
  · rw [dayNumber_late hm]
    split at hnext <;> omega

/-- A month ends before a later one of the year begins. -/
theorem dayNumber_lt_of_month (h : IsDate year month day) (h' : IsDate year month' day') (hlt : month < month') :
    dayNumber year month day < dayNumber year month' day' := by
  have hday' := h'.inMonth.1
  by_cases hm : month ≤ 2
  · have hday := h.day_le
    have hfrom := h.inYear.1
    rw [dayNumber_early hm]
    by_cases hm' : month' ≤ 2
    · obtain ⟨rfl, rfl⟩ : month = 1 ∧ month' = 2 := by omega
      rw [dayNumber_early hm']
      omega
    · have hfebruary : month = 2 → day ≤ if isLeap year = true then 29 else 28 := by
        rintro rfl
        exact h.inMonth.2
      have hnext := marchFirst_pred year
      rw [dayNumber_late hm']
      split at hnext
      · next hleap =>
        rw [if_pos hleap] at hfebruary
        omega
      · next hleap =>
        rw [if_neg hleap] at hfebruary
        omega
  · have hday := day_le_of_late hm h
    rw [dayNumber_late hm, dayNumber_late (by omega)]
    omega

/-- **Later dates have greater numbers.** -/
theorem dayNumber_lt {year' : Nat} (h : IsDate year month day) (h' : IsDate year' month' day')
    (hlt : year < year' ∨ year = year' ∧ (month < month' ∨ month = month' ∧ day < day')) :
    dayNumber year month day < dayNumber year' month' day' := by
  rcases hlt with hyear | ⟨rfl, hmonth | ⟨rfl, hday⟩⟩
  · have hnew : dayNumber (year + 1) 1 1 ≤ dayNumber year' 1 1 := by
      rw [dayNumber_early (by decide), dayNumber_early (by decide)]
      have := marchFirst_mono (show ((year + 1 : Nat) : Int) - 1 ≤ (year' : Int) - 1 by omega)
      omega
    calc dayNumber year month day < dayNumber (year + 1) 1 1 := dayNumber_lt_newYear h
      _ ≤ dayNumber year' 1 1 := hnew
      _ ≤ dayNumber year' month' day' := newYear_le_dayNumber h'
  · exact dayNumber_lt_of_month h h' hmonth
  · unfold dayNumber
    dsimp only
    omega

end Calendar

/-! ## Instants -/

namespace Stamp

variable {s t : Stamp}

/-- Date and time of day, from the year to the microsecond. -/
def fields (s : Stamp) : List Nat := [s.year, s.month, s.day, s.hour, s.minute, s.second, s.micro]

/-- **With one offset, the first field that differs decides** which stamp is earlier. -/
theorem instant_lt (hs : s.Proper) (ht : t.Proper) (hoffset : s.offset = t.offset) (h : s.fields < t.fields) :
    s.instant < t.instant := by
  simp only [fields, List.cons_lt_cons_iff, List.not_lt_nil, and_false, or_false] at h
  have hdate : Calendar.dayNumber s.year s.month s.day < Calendar.dayNumber t.year t.month t.day
      ∨ Calendar.dayNumber s.year s.month s.day = Calendar.dayNumber t.year t.month t.day
        ∧ (s.hour < t.hour ∨ s.hour = t.hour ∧ (s.minute < t.minute ∨ s.minute = t.minute
          ∧ (s.second < t.second ∨ s.second = t.second ∧ s.micro < t.micro))) := by
    rcases h with hyear | ⟨hyear, hmonth | ⟨hmonth, hday | ⟨hday, htime⟩⟩⟩
    · exact .inl (Calendar.dayNumber_lt hs.date ht.date (.inl hyear))
    · exact .inl (Calendar.dayNumber_lt hs.date ht.date (.inr ⟨hyear, .inl hmonth⟩))
    · exact .inl (Calendar.dayNumber_lt hs.date ht.date (.inr ⟨hyear, .inr ⟨hmonth, hday⟩⟩))
    · exact .inr ⟨by rw [hyear, hmonth, hday], htime⟩
  have := hs.hour; have := hs.minute; have := hs.second; have := hs.micro
  unfold instant dayMicros
  rw [hoffset]
  omega

theorem instant_eq (hoffset : s.offset = t.offset) (h : s.fields = t.fields) : s.instant = t.instant := by
  simp only [fields, List.cons.injEq, and_true] at h
  obtain ⟨hyear, hmonth, hday, hhour, hminute, hsecond, hmicro⟩ := h
  unfold instant
  rw [hyear, hmonth, hday, hhour, hminute, hsecond, hmicro, hoffset]

/-- **Stamps can be put in order** when the zone of each is known, or of none. -/
theorem comparable_of_sameKind {stamps : List Stamp}
    (h : ∀ t ∈ stamps, ∀ t' ∈ stamps, t.offset.isSome = t'.offset.isSome) : comparable stamps = true := by
  unfold comparable
  rw [Bool.or_eq_true, List.all_eq_true, List.all_eq_true]
  cases stamps with
  | nil => exact .inl nofun
  | cons t rest =>
    -- the first one decides
    have hfirst := h t List.mem_cons_self
    cases hzone : t.offset with
    | none =>
      refine .inr fun t' ht' => ?_
      rw [← Option.not_isSome, ← hfirst t' ht', hzone]
      rfl
    | some o => exact .inl fun t' ht' => by rw [← hfirst t' ht', hzone, Option.isSome_some]

/-! ## Texts -/

theorem digitsValue_cons (c : Char) (cs : List Char) : JsonReader.digitsValue (c :: cs)
    = (c.toNat - '0'.toNat) * 10 ^ cs.length + JsonReader.digitsValue cs := by
  -- by induction on the digits, for any number that they are written behind
  have hbehind (n : Nat) : cs.foldl (fun n c => 10 * n + (c.toNat - '0'.toNat)) n
      = n * 10 ^ cs.length + JsonReader.digitsValue cs := by
    unfold JsonReader.digitsValue
    induction cs generalizing n with
    | nil => simp
    | cons d cs ih =>
      rw [List.foldl_cons, List.foldl_cons, ih, ih (10 * 0 + _), List.length_cons]
      ring
  rw [show JsonReader.digitsValue (c :: cs) = cs.foldl _ (10 * 0 + (c.toNat - '0'.toNat)) from rfl, hbehind,
    Nat.mul_zero, Nat.zero_add]

/-- Of two rows of digits, the smaller number comes first. -/
theorem lt_of_digitsValue {as bs : List Char} (hlength : as.length = bs.length)
    (has : ∀ c ∈ as, c.isDigit = true) (hbs : ∀ c ∈ bs, c.isDigit = true)
    (h : JsonReader.digitsValue as < JsonReader.digitsValue bs) : as < bs := by
  induction as generalizing bs with
  | nil =>
    rw [List.length_eq_zero_iff.mp hlength.symm] at h
    exact absurd h (Nat.lt_irrefl _)
  | cons a as ih =>
    obtain ⟨b, bs, rfl⟩ := List.exists_cons_of_ne_nil (List.ne_nil_of_length_eq_add_one hlength.symm)
    obtain ⟨ha, has⟩ := List.forall_mem_cons.mp has
    obtain ⟨hb, hbs⟩ := List.forall_mem_cons.mp hbs
    have hlength : as.length = bs.length := by simpa using hlength
    have ha' := Char.isDigit_iff_toNat.mp ha
    have hb' := Char.isDigit_iff_toNat.mp hb
    rw [digitsValue_cons, digitsValue_cons, hlength] at h
    have hlast := digitsValue_lt hbs
    rw [List.cons_lt_cons_iff]
    rcases Nat.lt_trichotomy a.toNat b.toNat with hlt | heq | hgt
    · exact .inl hlt
    · refine .inr ⟨Char.toNat_inj.mp heq, ih hlength has hbs ?_⟩
      rw [heq] at h
      omega
    · -- a greater first digit counts for more than all that follow
      have hfirst : (b.toNat - '0'.toNat + 1) * 10 ^ bs.length ≤ (a.toNat - '0'.toNat) * 10 ^ bs.length :=
        Nat.mul_le_mul_right _ (by omega)
      rw [Nat.add_mul] at hfirst
      omega

theorem append_lt_append {as bs x y : List Char} (hlength : as.length = bs.length) (h : as < bs) :
    as ++ x < bs ++ y := by
  induction as generalizing bs with
  | nil =>
    rw [List.length_eq_zero_iff.mp hlength.symm] at h
    exact absurd h (List.lt_irrefl _)
  | cons a as ih =>
    obtain ⟨b, bs, rfl⟩ := List.exists_cons_of_ne_nil (List.ne_nil_of_length_eq_add_one hlength.symm)
    rw [List.cons_append, List.cons_append, List.cons_lt_cons_iff]
    rcases List.cons_lt_cons_iff.mp h with hlt | ⟨heq, hlt⟩
    · exact .inl hlt
    · exact .inr ⟨heq, ih (by simpa using hlength) hlt⟩

/-- **Texts that begin with numbers of one width** are ordered by these numbers first. -/
theorem padded_append_lt {width n m : Nat} {x y : List Char} (hwidth : 0 < width) (hn : n < 10 ^ width)
    (hm : m < 10 ^ width) (h : n < m ∨ n = m ∧ x < y) :
    (padded width n).toList ++ x < (padded width m).toList ++ y := by
  rcases h with hlt | ⟨rfl, hlt⟩
  · have hlength : (padded width n).toList.length = (padded width m).toList.length := by
      rw [length_padded hwidth hn, length_padded hwidth hm]
    refine append_lt_append hlength (lt_of_digitsValue hlength (fun c => isDigit_of_mem_padded)
      (fun c => isDigit_of_mem_padded) ?_)
    rwa [digitsValue_padded, digitsValue_padded]
  · exact List.append_left_lt hlt

/-- A text without a fraction comes before one with a fraction, whatever the zone is. -/
theorem fraction_lt {n m : Nat} {zone : List Char} (hm : m < 1000000) (h : n < m)
    (hzone : ∀ c ∈ zone.head?, c < '.') : fractionChars n ++ zone < fractionChars m ++ zone := by
  rw [fractionChars, fractionChars, if_neg (show ¬ m = 0 by omega)]
  split
  · cases zone with
    | nil => exact List.nil_lt_cons _ _
    | cons c zone => exact List.cons_lt_cons_iff.mpr (.inl (hzone c rfl))
  · exact List.cons_lt_cons_iff.mpr (.inr ⟨rfl, padded_append_lt (by decide) (by omega) hm (.inl h)⟩)

/-- The end of a text with the offset spelled out. -/
def offsetChars (offset : Option Int) : List Char := ((offset.map offsetText).getD "").toList

theorem offsetChars_head (offset : Option Int) : ∀ c ∈ (offsetChars offset).head?, c < '.' := by
  cases offset with
  | none => exact nofun
  | some offset =>
    -- a sign comes first
    have hsign : (offsetChars (some offset)).head? = some (if offset < 0 then '-' else '+') := by
      simp only [offsetChars, Option.map_some, Option.getD_some, offsetText, String.toList_append, List.append_assoc]
      split <;> rfl
    intro c hc
    obtain rfl := Option.some.inj (hsign.symm.trans hc)
    split <;> decide

theorem toList_isoText (s : Stamp) : s.isoText.toList
    = (padded 4 s.year).toList ++ '-' :: ((padded 2 s.month).toList ++ '-' :: ((padded 2 s.day).toList
      ++ 'T' :: ((padded 2 s.hour).toList ++ ':' :: ((padded 2 s.minute).toList
        ++ ':' :: ((padded 2 s.second).toList ++ (fractionChars s.micro ++ offsetChars s.offset)))))) := by
  have hzone : s.isoText = s.localText ++ (s.offset.map offsetText).getD "" := by
    unfold isoText
    cases s.offset <;> rfl
  rw [hzone, String.toList_append, toList_localText_append, offsetChars]

/-- **With one offset, the text of the earlier stamp** comes first. -/
theorem isoText_lt (hs : s.Proper) (ht : t.Proper) (hoffset : s.offset = t.offset) (h : s.fields < t.fields) :
    s.isoText < t.isoText := by
  simp only [fields, List.cons_lt_cons_iff, List.not_lt_nil, and_false, or_false] at h
  show s.isoText.toList < t.isoText.toList
  rw [toList_isoText, toList_isoText, hoffset]
  have hmark (c : Char) {x y : List Char} (h : x < y) : c :: x < c :: y := List.cons_lt_cons_iff.mpr (.inr ⟨rfl, h⟩)
  have hmonth (s : Stamp) (h : s.Proper) : s.month < 100 := by have := h.date.inYear; omega
  have hday (s : Stamp) (h : s.Proper) : s.day < 100 := by have := h.date.day_le; omega
  have hother {n k : Nat} (hn : n < k) (hk : k ≤ 100) : n < 100 := Nat.lt_of_lt_of_le hn hk
  refine padded_append_lt (by decide) hs.year ht.year (h.imp_right (And.imp_right fun h => hmark _ ?_))
  refine padded_append_lt (by decide) (hmonth s hs) (hmonth t ht) (h.imp_right (And.imp_right fun h => hmark _ ?_))
  refine padded_append_lt (by decide) (hday s hs) (hday t ht) (h.imp_right (And.imp_right fun h => hmark _ ?_))
  refine padded_append_lt (by decide) (hother hs.hour (by decide)) (hother ht.hour (by decide))
    (h.imp_right (And.imp_right fun h => hmark _ ?_))
  refine padded_append_lt (by decide) (hother hs.minute (by decide)) (hother ht.minute (by decide))
    (h.imp_right (And.imp_right fun h => hmark _ ?_))
  refine padded_append_lt (by decide) (hother hs.second (by decide)) (hother ht.second (by decide))
    (h.imp_right (And.imp_right fun h => ?_))
  exact fraction_lt ht.micro h (offsetChars_head t.offset)

/-- **The order of the texts of stamps with one offset** is that of their instants. -/
theorem instant_le_of_isoText (hs : s.Proper) (ht : t.Proper) (hoffset : s.offset = t.offset)
    (h : s.isoText ≤ t.isoText) : s.instant ≤ t.instant := by
  rcases lt_trichotomy s.fields t.fields with hlt | heq | hgt
  · exact Int.le_of_lt (instant_lt hs ht hoffset hlt)
  · exact Int.le_of_eq (instant_eq hoffset heq)
  · exact absurd (isoText_lt ht hs hoffset.symm hgt) (String.not_lt.mpr h)

end Stamp

/-! ## Scores -/

namespace Number

/-- The nearest integer is at most half of one away. -/
theorem roundDiv_near (num : Nat) {den : Nat} (hden : 0 < den) :
    2 * (roundDiv num den * den) ≤ 2 * num + den ∧ 2 * num ≤ 2 * (roundDiv num den * den) + den := by
  have hnum := Nat.div_add_mod' num den
  have hmod := Nat.mod_lt num hden
  have hsucc : (num / den + 1) * den = num / den * den + den := Nat.succ_mul _ _
  unfold roundDiv
  dsimp only
  split
  · next h =>
    have := Nat.compare_eq_lt.mp h
    omega
  · next h =>
    have := Nat.compare_eq_gt.mp h
    omega
  · next h =>
    have := Nat.compare_eq_eq.mp h
    split <;> omega

/-- **The nearest double** is at most half of its last place away. -/
theorem nearest_near (num den k : Nat) (hden : 0 < den) (hnum : num < den * 2 ^ 52 * 2 ^ (k + 1)) :
    2 * (nearest num den * den) ≤ 2 * num + den * 2 ^ k ∧ 2 * num ≤ 2 * (nearest num den * den) + den * 2 ^ k := by
  have hplace : den * 2 ^ Nat.log2 (num / (den * 2 ^ 52)) ≤ den * 2 ^ k := by
    refine Nat.mul_le_mul_left den (Nat.pow_le_pow_right (by decide) ?_)
    by_cases hzero : num / (den * 2 ^ 52) = 0
    · rw [hzero]
      exact Nat.zero_le k
    · exact Nat.le_of_lt_succ ((Nat.log2_lt hzero).mpr (Nat.div_lt_of_lt_mul hnum))
  have hnear := roundDiv_near num (Nat.mul_pos hden (Nat.two_pow_pos (Nat.log2 (num / (den * 2 ^ 52)))))
  have hvalue : nearest num den * den
      = roundDiv num (den * 2 ^ Nat.log2 (num / (den * 2 ^ 52))) * (den * 2 ^ Nat.log2 (num / (den * 2 ^ 52))) := by
    unfold nearest
    simp only [Nat.pow_eq]
    ring
  rw [hvalue]
  omega

/-- What is near in magnitude is near with its sign. -/
theorem sign_mul_near (x scale unit error : Int) (n : Nat) (herror : 0 ≤ error)
    (h : 2 * (scale * n) ≤ 2 * (unit * x.natAbs) + error ∧ 2 * (unit * x.natAbs) ≤ 2 * (scale * n) + error) :
    2 * (scale * (x.sign * n)) ≤ 2 * (unit * x) + error ∧ 2 * (unit * x) ≤ 2 * (scale * (x.sign * n)) + error := by
  rcases Int.lt_trichotomy x 0 with hneg | rfl | hpos
  · rw [Int.ofNat_natAbs_of_nonpos (Int.le_of_lt hneg), Int.mul_neg] at h
    rw [Int.sign_eq_neg_one_of_neg hneg, Int.neg_one_mul, Int.mul_neg]
    omega
  · simp [herror]
  · rw [Int.natAbs_of_nonneg (Int.le_of_lt hpos)] at h
    rwa [Int.sign_eq_one_of_pos hpos, Int.one_mul]

end Number

namespace Stamp

variable {s t : Stamp}

/-- **Times that doubles tell apart**: the microsecond is more than the last place of the seconds. -/
def Sharp (s : Stamp) : Prop := s.instant.natAbs < 2 ^ 33 * 1000000

/-- How far a double is from the number of microseconds that it stands for, in parts of `2 ^ -72` of a
    millionth. -/
theorem score_near (hs : s.micro < 1000000) (hsharp : s.Sharp) :
    2 * (1000000 * s.score) ≤ 2 * (2 ^ 72 * s.instant) + 1000000 * (2 ^ 52 + 2 ^ 19)
      ∧ 2 * (2 ^ 72 * s.instant) ≤ 2 * (1000000 * s.score) + 1000000 * (2 ^ 52 + 2 ^ 19) := by
  unfold Sharp at hsharp
  unfold score
  simp only [Nat.pow_eq]
  split
  · have hnear := Number.nearest_near (s.instant.natAbs * 2 ^ 72) 1000000 52 (by decide)
      (by omega)
    refine Number.sign_mul_near _ _ _ _ _ (by decide) ?_
    omega
  · next hoffset =>
    -- the fraction is rounded first, and then the sum
    have hfraction := Number.nearest_near (s.micro * 2 ^ 72) 1000000 19 (by decide)
      (by omega)
    have hwhole : s.instant - s.micro = (s.instant - s.micro) / 1000000 * 1000000 := by
      unfold instant dayMicros
      omega
    generalize hsum : (s.instant - s.micro) / 1000000 * ((2 ^ 72 : Nat) : Int)
      + (Number.nearest (s.micro * 2 ^ 72) 1000000 : Int) = sum
    have hnear := Number.nearest_near sum.natAbs 1 52 (by decide) (by omega)
    have hsigned := Number.sign_mul_near sum 1 1 (2 ^ 52) (Number.nearest sum.natAbs 1) (by decide) (by omega)
    omega

/-- **The order of the doubles of sharp stamps** is that of their instants. -/
theorem instant_le_of_score (hs : s.micro < 1000000) (ht : t.micro < 1000000) (hsharp : s.Sharp)
    (hsharp' : t.Sharp) (h : s.score ≤ t.score) : s.instant ≤ t.instant := by
  have hs := score_near hs hsharp
  have ht := score_near ht hsharp'
  omega

end Stamp

end Runbook
