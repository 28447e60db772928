import Mathlib.Algebra.Group.Nat.Defs
import Runbook.Time.Stamp

/-!
# `Proofs.Stamps` — what is written of a point in time is read again

The documents of records hold stamps as texts. A stamp with the date of a calendar day, a time of day and
the offset of a zone is read from its text as it was; and all stamps that clocks show or texts give are of
that kind.

## Contents
- **Calendar.** `Calendar.IsDate`, and that the days since 1970 have dates: `isDate_ofDayNumber`.
- **Proper stamps.** `Stamp.Proper`, and `Stamp.proper_ofMicros`.
- **Digits.** Reading a padded number: `Stamp.digits?_padded`.
- **Texts.** `Stamp.ofText_text`, the parts of a text being read one after the other.
- **Readings.** `Decode.stamp_toValue`, and `Decode.proper_of_stamp`: every stamp that is read is proper.
-/

namespace Runbook

/-! ## Calendar -/

namespace Calendar

/-- The days of an era before one of its years, which begin in March. -/
def daysBefore (year : Nat) : Nat := 365 * year + year / 4 - year / 100

/-- The days of an era without its leap days, as far as they have passed. -/
def commonDays (d : Nat) : Nat := d - d / 1460 + d / 36524 - d / 146096

theorem commonDays_mono {a b : Nat} (h : a ≤ b) : commonDays a ≤ commonDays b := by
  have hera (d : Nat) : d / 146096 = d / 36524 / 4 := (Nat.div_div_eq_div_mul d 36524 4).symm
  unfold commonDays
  rw [hera, hera]
  omega

/-- Where one year of an era ends and the next begins. -/
theorem commonDays_turn : ∀ y < 399, commonDays (daysBefore (y + 1) - 1) < 365 * (y + 1)
    ∧ 365 * (y + 1) ≤ commonDays (daysBefore (y + 1)) := by
  decide +kernel

/-- **The year of a day of an era** has begun by then, and has not ended; the last year ends with the
    era. -/
theorem year_of_day {d : Nat} (hd : d < 146097) :
    commonDays d / 365 < 400 ∧ daysBefore (commonDays d / 365) ≤ d
      ∧ (d < daysBefore (commonDays d / 365 + 1) ∨ commonDays d / 365 = 399) := by
  have hlast : commonDays 146096 = 145999 := by decide
  have hmono : commonDays d ≤ commonDays 146096 := commonDays_mono (by omega)
  refine ⟨by omega, Nat.le_of_not_lt fun hlt => ?_, ?_⟩
  · obtain ⟨y, hy⟩ : ∃ y, commonDays d / 365 = y + 1 := by
      refine Nat.exists_eq_succ_of_ne_zero fun h => ?_
      rw [h] at hlt
      exact Nat.not_lt_zero d hlt
    rw [hy] at hlt
    have hturn := (commonDays_turn y (by omega)).1
    have := commonDays_mono (show d ≤ daysBefore (y + 1) - 1 by omega)
    omega
  · by_cases hy : commonDays d / 365 < 399
    · refine .inl (Nat.lt_of_not_le fun hle => ?_)
      have hturn := (commonDays_turn _ hy).2
      have := commonDays_mono hle
      omega
    · exact .inr (by omega)

/-- **Dates** are those of the calendar. -/
structure IsDate (year month day : Nat) : Prop where
  inYear : 1 ≤ month ∧ month ≤ 12
  inMonth : 1 ≤ day ∧ day ≤ monthLength year month

/-- Only a year before a leap day has 366 days. -/
theorem isLeap_of_daysBefore {y : Nat} (era : Nat) (h : daysBefore y + 366 ≤ daysBefore (y + 1)) :
    isLeap (y + era * 400 + 1) = true := by
  have h4 : (y + 1) % 4 = 0 ∨ (y + 1) / 4 = y / 4 := by omega
  have h100 : y / 100 ≤ (y + 1) / 100 := by omega
  have h100' : (y + 1) % 100 ≠ 0 ∨ (y + 1) / 100 = y / 100 + 1 := by omega
  have hle : y / 100 ≤ y / 4 := by omega
  unfold daysBefore at h
  have hyear : (y + era * 400 + 1) % 4 = (y + 1) % 4 ∧ (y + era * 400 + 1) % 100 = (y + 1) % 100 := by omega
  simp only [isLeap, Bool.and_eq_true, Bool.or_eq_true, decide_eq_true_eq, hyear]
  omega

/-- The date of a day of a year that begins in March. -/
theorem isDate_of_month {year k : Nat} (hk : k < 366) (hleap : k = 365 → isLeap (year + 1) = true) :
    let m := (5 * k + 2) / 153
    let month := if m < 10 then m + 3 else m - 9
    IsDate (if month ≤ 2 then year + 1 else year) month (k - (153 * m + 2) / 5 + 1) := by
  intro m
  have hm : m < 12 := by omega
  have hbegin : (153 * m + 2) / 5 ≤ k := by omega
  have hend : m < 11 → k < (153 * (m + 1) + 2) / 5 := by omega
  clear_value m
  by_cases hfebruary : m = 11
  · subst hfebruary
    refine ⟨by decide, by omega, ?_⟩
    by_cases h365 : k = 365
    · simp [monthLength, hleap h365, h365]
    · have h28 : 28 ≤ monthLength (year + 1) 2 := by
        simp only [monthLength, if_true]
        split <;> omega
      exact Nat.le_trans (by omega) h28
  · have hothers : m = 0 ∨ m = 1 ∨ m = 2 ∨ m = 3 ∨ m = 4 ∨ m = 5 ∨ m = 6 ∨ m = 7 ∨ m = 8 ∨ m = 9
        ∨ m = 10 := by omega
    rcases hothers with rfl | rfl | rfl | rfl | rfl | rfl | rfl | rfl | rfl | rfl | rfl
    all_goals exact ⟨by decide, by simp [monthLength]; omega⟩

theorem isDate_ofDayNumber (days : Nat) :
    IsDate (ofDayNumber days).1 (ofDayNumber days).2.1 (ofDayNumber days).2.2 := by
  obtain ⟨-, hfrom, hto⟩ := year_of_day (Nat.mod_lt (days + 719468) (show 0 < 146097 by decide))
  have hlt : (days + 719468) % 146097 < 146097 := Nat.mod_lt _ (by decide)
  unfold ofDayNumber
  dsimp only
  rw [← commonDays]
  generalize (days + 719468) / 146097 = era
  generalize (days + 719468) % 146097 = d at *
  generalize commonDays d / 365 = y at *
  rw [← daysBefore]
  have hk : d - daysBefore y < 366 := by
    have : daysBefore (y + 1) ≤ daysBefore y + 366 := by unfold daysBefore; omega
    rcases hto with hto | rfl
    · omega
    · have : daysBefore 399 = 145731 := rfl
      omega
  refine isDate_of_month hk fun h365 => ?_
  rcases hto with hto | rfl
  · exact isLeap_of_daysBefore era (by omega)
  · simp only [isLeap, Bool.and_eq_true, Bool.or_eq_true, decide_eq_true_eq]
    omega

/-- The days up to the end of the year 9999. -/
def lastDay : Nat := 2932897

theorem year_ofDayNumber {days : Nat} (h : days < lastDay) : (ofDayNumber days).1 < 10000 := by
  obtain ⟨hyear, hfrom, -⟩ := year_of_day (Nat.mod_lt (days + 719468) (show 0 < 146097 by decide))
  have hera : (days + 719468) / 146097 < 24
      ∨ (days + 719468) / 146097 = 24 ∧ (days + 719468) % 146097 < 146037 := by
    unfold lastDay at h
    omega
  unfold ofDayNumber
  dsimp only
  rw [← commonDays]
  generalize (days + 719468) / 146097 = era at *
  generalize (days + 719468) % 146097 = d at *
  generalize commonDays d / 365 = y at *
  rw [← daysBefore]
  generalize hk : d - daysBefore y = k
  have hle (month : Nat) : (if month ≤ 2 then y + era * 400 + 1 else y + era * 400) ≤ y + era * 400 + 1 := by
    split <;> omega
  by_cases hlast : y + era * 400 = 9999
  · -- of the last year, only the days before January come
    have hy : y = 399 ∧ era = 24 := by omega
    have h399 : daysBefore 399 = 145731 := rfl
    have hm : (5 * k + 2) / 153 < 10 := by
      rw [hy.1, h399] at hk
      omega
    rw [if_pos hm, if_neg (by omega), hlast]
    decide
  · refine Nat.lt_of_le_of_lt (hle _) ?_
    omega

end Calendar

namespace Stamp

/-! ## Proper stamps -/

/-- **A proper offset**: whole minutes, less than a day. -/
def ProperOffset (offset : Int) : Prop := ∃ minutes : Nat, minutes < 1440
  ∧ (offset = (minutes * 60 : Nat) ∨ offset = -(minutes * 60 : Nat))

/-- **A proper stamp**: a date and a time of day, with the offset of a zone if there is one. -/
structure Proper (s : Stamp) : Prop where
  year : s.year < 10000
  date : Calendar.IsDate s.year s.month s.day
  hour : s.hour < 24
  minute : s.minute < 60
  second : s.second < 60
  micro : s.micro < 1000000
  offset : ∀ o ∈ s.offset, ProperOffset o

/-- The readings of a clock up to the end of the year 9999. -/
def lastMicro : Nat := 253402300800000000

theorem proper_ofMicros {us : Nat} (h : us < lastMicro) : (ofMicros us).Proper where
  year := Calendar.year_ofDayNumber (Nat.div_lt_of_lt_mul (by unfold dayMicros Calendar.lastDay; exact h))
  date := Calendar.isDate_ofDayNumber _
  hour := by
    have := Nat.mod_lt us (show 0 < dayMicros by decide)
    exact Nat.div_lt_of_lt_mul this
  minute := Nat.mod_lt _ (by decide)
  second := Nat.mod_lt _ (by decide)
  micro := Nat.mod_lt _ (by decide)
  offset o ho := by
    obtain rfl : (0 : Int) = o := Option.some.inj ho
    exact ⟨0, by decide, .inl rfl⟩

/-! ## Digits -/

/-- The digits of a number with zeros in front. -/
theorem toList_padded (width n : Nat) : (padded width n).toList
    = List.replicate (width - (Nat.toDigits 10 n).length) '0' ++ Nat.toDigits 10 n := by
  simp only [padded, String.toList_append, Nat.toString_eq_ofList_toDigits, String.toList_ofList,
    String.length_ofList]

theorem isDigit_of_mem_padded {width n : Nat} {c : Char} (h : c ∈ (padded width n).toList) :
    c.isDigit = true := by
  rw [toList_padded, List.mem_append] at h
  rcases h with h | h
  · rw [List.eq_of_mem_replicate h]
    rfl
  · exact Nat.isDigit_of_mem_toDigits (by decide) (by decide) h

theorem length_padded {width n : Nat} (hwidth : 0 < width) (h : n < 10 ^ width) :
    (padded width n).toList.length = width := by
  have := (Nat.length_toDigits_le_iff (b := 10) (by decide) hwidth).mpr h
  rw [toList_padded, List.length_append, List.length_replicate]
  omega

theorem digitsValue_padded (width n : Nat) : JsonReader.digitsValue (padded width n).toList = n := by
  have hvalue (cs : List Char) : JsonReader.digitsValue cs = Nat.ofDigitChars 10 cs 0 :=
    Nat.ofDigitChars_eq_foldl.symm
  rw [hvalue, toList_padded, Nat.ofDigitChars_append, Nat.ofDigitChars_replicate_zero, Nat.mul_zero,
    Nat.ofDigitChars_ten_toDigits]

/-- **A padded number** is read as it was. -/
theorem digits?_padded {width n : Nat} (hwidth : 0 < width) (h : n < 10 ^ width) (rest : List Char) :
    digits? width ((padded width n).toList ++ rest) = some (n, rest) := by
  have hlength := length_padded hwidth h
  have htake : ((padded width n).toList ++ rest).take width = (padded width n).toList := by
    rw [List.take_append_of_le_length (by omega), List.take_of_length_le (by omega)]
  have hdigits : (padded width n).toList.all Char.isDigit = true :=
    List.all_eq_true.mpr fun _ hc => isDigit_of_mem_padded hc
  unfold digits?
  simp only [htake, List.drop_left' hlength, hdigits, digitsValue_padded, hlength, decide_true,
    Bool.and_self, if_true]

theorem digitsValue_lt {cs : List Char} (h : ∀ c ∈ cs, c.isDigit = true) :
    JsonReader.digitsValue cs < 10 ^ cs.length := by
  -- by induction on the digits, for any number that they are written behind
  have hbehind (n : Nat) :
      cs.foldl (fun n c => 10 * n + (c.toNat - '0'.toNat)) n < 10 ^ cs.length * (n + 1) := by
    induction cs generalizing n with
    | nil => simp
    | cons c cs ih =>
      have hc := h c List.mem_cons_self
      have hdigit : c.toNat - '0'.toNat < 10 := by
        have hnine : '9'.toNat = '0'.toNat + 9 := rfl
        have := Char.isDigit_iff_toNat.mp hc
        omega
      refine Nat.lt_of_lt_of_le (ih (fun c hc => h c (.tail _ hc)) _) ?_
      rw [List.length_cons, Nat.pow_succ, Nat.mul_assoc]
      exact Nat.mul_le_mul_left _ (by dsimp only; omega)
  have h0 := hbehind 0
  rwa [Nat.mul_one] at h0

/-- What a fixed number of digits stands for. -/
theorem lt_of_digits? {width n : Nat} {cs rest : List Char} (h : digits? width cs = some (n, rest)) :
    n < 10 ^ width := by
  unfold digits? at h
  dsimp only at h
  split at h
  · next hfront =>
    simp only [Bool.and_eq_true, decide_eq_true_eq, List.all_eq_true] at hfront
    obtain ⟨rfl, -⟩ := Prod.mk.inj (Option.some.inj h)
    have hlt := digitsValue_lt hfront.2
    rwa [hfront.1] at hlt
  · exact absurd h (by simp)

/-! ## Texts -/

/-- The digits of a fraction, if there is one. -/
def fractionChars (micro : Nat) : List Char := if micro = 0 then [] else '.' :: (padded 6 micro).toList

/-- The end of a text, which tells the zone. -/
def zoneText : Option Int → String
  | some 0 => "Z"
  | some offset => offsetText offset
  | none => ""

/-- A date and a time of day, with what is written after them. -/
theorem toList_localText_append (s : Stamp) (zone : List Char) : s.localText.toList ++ zone
    = (padded 4 s.year).toList ++ '-' :: ((padded 2 s.month).toList ++ '-' :: ((padded 2 s.day).toList
      ++ 'T' :: ((padded 2 s.hour).toList ++ ':' :: ((padded 2 s.minute).toList
      ++ ':' :: ((padded 2 s.second).toList ++ (fractionChars s.micro ++ zone)))))) := by
  have hfraction : (if s.micro = 0 then "" else "." ++ padded 6 s.micro).toList = fractionChars s.micro := by
    unfold fractionChars
    split
    · rfl
    · rw [String.toList_append]
      rfl
  have hdash : "-".toList = ['-'] := rfl
  have hcolon : ":".toList = [':'] := rfl
  have hmark : "T".toList = ['T'] := rfl
  simp only [localText, String.toList_append, hfraction, hdash, hcolon, hmark, List.append_assoc,
    List.cons_append, List.nil_append]

theorem toList_text (s : Stamp) : s.text.toList
    = (padded 4 s.year).toList ++ '-' :: ((padded 2 s.month).toList ++ '-' :: ((padded 2 s.day).toList
      ++ 'T' :: ((padded 2 s.hour).toList ++ ':' :: ((padded 2 s.minute).toList
      ++ ':' :: ((padded 2 s.second).toList ++ (fractionChars s.micro ++ (zoneText s.offset).toList)))))) := by
  have hzone : s.text = s.localText ++ zoneText s.offset := rfl
  rw [hzone, String.toList_append, toList_localText_append]

theorem readDate_padded {year month day : Nat} (hyear : year < 10000)
    (h : Calendar.IsDate year month day) (rest : List Char) :
    readDate ((padded 4 year).toList ++ '-' :: ((padded 2 month).toList ++ '-' :: ((padded 2 day).toList
      ++ rest))) = .ok ((year, month, day), rest) := by
  obtain ⟨hm₁, hm₂⟩ := h.inYear
  obtain ⟨hd₁, hd₂⟩ := h.inMonth
  have hday : day < 100 := by
    have : Calendar.monthLength year month ≤ 31 := by
      unfold Calendar.monthLength
      repeat' split
      all_goals decide
    omega
  have h4 (cs : List Char) := digits?_padded (n := year) (show 0 < 4 by decide) hyear cs
  have h2 {n : Nat} (hn : n < 100) (cs : List Char) := digits?_padded (show 0 < 2 by decide) hn cs
  have hlong : ¬ ((padded 4 year).toList ++ '-' :: ((padded 2 month).toList ++ '-' :: ((padded 2 day).toList
      ++ rest))).length < 10 := by
    have hlength {n : Nat} (hn : n < 100) : (padded 2 n).toList.length = 2 := length_padded (by decide) hn
    rw [List.length_append, List.length_cons, List.length_append, List.length_cons, List.length_append,
      length_padded (n := year) (by decide) hyear, hlength (show month < 100 by omega), hlength hday]
    omega
  unfold readDate
  rw [if_neg hlong, h4]
  simp only [need, mark?, h2 (show month < 100 by omega), h2 hday, bind, Except.bind, decide_true, if_true,
    if_neg (show ¬ (month < 1 ∨ 12 < month) by omega),
    if_neg (show ¬ (day < 1 ∨ Calendar.monthLength year month < day) by omega)]
  rfl

/-- What tells the zone begins with neither a point nor a digit. -/
theorem zoneText_head (offset : Option Int) :
    ∀ c ∈ (zoneText offset).toList.head?, c ≠ '.' ∧ c.isDigit = false := by
  have hoffset (o : Int) : ∀ c ∈ (offsetText o).toList.head?, c ≠ '.' ∧ c.isDigit = false := by
    unfold offsetText
    dsimp only
    split <;> simp [String.toList_append]
  unfold zoneText
  split
  · simp
  · exact hoffset _
  · simp

theorem readSeconds?_padded {second micro : Nat} (hsecond : second < 60) (hmicro : micro < 1000000)
    {zone : List Char} (hzone : ∀ c ∈ zone.head?, c ≠ '.' ∧ c.isDigit = false) :
    readSeconds? (':' :: ((padded 2 second).toList ++ (fractionChars micro ++ zone)))
      = some ((second, micro), zone) := by
  have h2 (cs : List Char) := digits?_padded (n := second) (show 0 < 2 by decide) (by omega) cs
  have h6 : (padded 6 micro).toList.length = 6 := length_padded (by decide) hmicro
  have hplaces : ((padded 6 micro).toList ++ zone).takeWhile Char.isDigit = (padded 6 micro).toList := by
    have hend : zone.takeWhile Char.isDigit = [] := by
      cases zone with
      | nil => rfl
      | cons c rest => exact List.takeWhile_cons_of_neg (by simp [(hzone c rfl).2])
    rw [List.takeWhile_append_of_pos fun _ hc => isDigit_of_mem_padded hc, hend, List.append_nil]
  simp only [readSeconds?, h2, Option.bind_eq_bind, Option.bind_some]
  by_cases h0 : micro = 0
  · have hnone : fractionChars micro ++ zone = zone := by simp [fractionChars, h0]
    rw [hnone]
    split
    · exact absurd rfl (hzone '.' rfl).1
    · rw [h0]
      rfl
  · have hsome : fractionChars micro ++ zone = '.' :: ((padded 6 micro).toList ++ zone) := by
      simp [fractionChars, h0]
    have hne : (padded 6 micro).toList.isEmpty = false := by
      cases hchars : (padded 6 micro).toList with
      | nil => rw [hchars] at h6; exact absurd h6 (by decide)
      | cons c rest => rfl
    have hsix : ((padded 6 micro).toList ++ List.replicate 6 '0').take 6 = (padded 6 micro).toList :=
      List.take_left' h6
    simp only [hsome, hplaces, hne, Bool.false_eq_true, if_false, hsix,
      digitsValue_padded, List.drop_left]
    rfl

/-- Sign, hours and minutes of an offset. -/
theorem readOffset?_sign {sign : Char} (hs : sign = '+' ∨ sign = '-') {minutes : Nat}
    (hminutes : minutes < 1440) :
    readOffset? (sign :: ((padded 2 (minutes / 60)).toList ++ ':' :: ((padded 2 (minutes % 60)).toList ++ [])))
      = some (some (if sign = '-' then -((minutes * 60 : Nat) : Int) else ((minutes * 60 : Nat) : Int))) := by
  have h2 {n : Nat} (hn : n < 100) (cs : List Char) := digits?_padded (show 0 < 2 by decide) hn cs
  have hne (c : Char) (hc : c ≠ '+' ∧ c ≠ '-') : sign ≠ c := by
    rcases hs with rfl | rfl
    · exact fun h => hc.1 h.symm
    · exact fun h => hc.2 h.symm
  unfold readOffset?
  split
  · next hnil => exact absurd hnil (by simp)
  · next hz => exact absurd (List.cons.inj hz).1 (hne 'Z' (by decide))
  · next hz => exact absurd (List.cons.inj hz).1 (hne 'z' (by decide))
  · next hcons =>
    obtain ⟨rfl, rfl⟩ := List.cons.inj hcons
    have hseconds : ((minutes / 60 : Nat) * 60 + (minutes % 60 : Nat)) * 60 = ((minutes * 60 : Nat) : Int) := by
      omega
    simp only [if_pos hs, h2 (show minutes / 60 < 100 by omega), h2 (show minutes % 60 < 100 by omega),
      Option.bind_eq_bind, Option.bind_some, mark?, decide_true, if_true, Option.getD_some, hseconds,
      List.isEmpty_nil, true_and, if_pos (show minutes % 60 < 60 ∧ minutes / 60 < 24 by omega)]
    rfl

theorem readOffset?_zoneText {offset : Option Int} (h : ∀ o ∈ offset, ProperOffset o) :
    readOffset? (zoneText offset).toList = some offset := by
  unfold zoneText
  split
  · rfl
  · next o ho =>
    obtain ⟨minutes, hminutes, hsign⟩ := h o rfl
    have hzero : o ≠ 0 := fun h0 => ho (by rw [h0])
    have htext : (offsetText o).toList = (if o < 0 then '-' else '+')
        :: ((padded 2 (minutes / 60)).toList ++ ':' :: ((padded 2 (minutes % 60)).toList ++ [])) := by
      have hcolon : ":".toList = [':'] := rfl
      unfold offsetText
      dsimp only
      rw [show o.natAbs / 60 = minutes by omega]
      split <;> simp [String.toList_append, hcolon]
    rw [htext, readOffset?_sign (by split <;> simp) hminutes]
    split
    · rw [if_pos rfl]
      congr 2
      omega
    · rw [if_neg (by decide)]
      congr 2
      omega
  · rfl

/-- **A stamp is read from its text** as it was. -/
theorem ofText_text {s : Stamp} (h : s.Proper) : ofText s.text = .ok s := by
  have h2 {n : Nat} (hn : n < 100) (cs : List Char) := digits?_padded (show 0 < 2 by decide) hn cs
  obtain ⟨hyear, hdate, hhour, hminute, hsecond, hmicro, hoffset⟩ := h
  have htime : readTime? (s.year, s.month, s.day) ('T' :: ((padded 2 s.hour).toList
      ++ ':' :: ((padded 2 s.minute).toList ++ ':' :: ((padded 2 s.second).toList
      ++ (fractionChars s.micro ++ (zoneText s.offset).toList))))) = some s := by
    unfold readTime?
    simp only [mark?, decide_true, Bool.true_or, if_true, Option.bind_eq_bind, Option.bind_some,
      h2 (show s.hour < 100 by omega), h2 (show s.minute < 100 by omega),
      readSeconds?_padded hsecond hmicro (zoneText_head _), readOffset?_zoneText hoffset,
      if_pos (And.intro hhour (And.intro hminute hsecond))]
    rfl
  have hnumeral : ofNumeral? s.text.toList = none := by
    have hdash : '-' ∈ s.text.toList.drop 1 := by
      have h4 : (padded 4 s.year).toList.length = 4 := length_padded (by decide) hyear
      rw [toList_text, List.drop_append_of_le_length (by omega)]
      simp
    have hno {cs : List Char} (h : '-' ∈ cs) : cs.all (fun c => c.isDigit || c = '.') = false :=
      List.all_eq_false.mpr ⟨'-', h, by decide⟩
    unfold ofNumeral?
    dsimp only
    split
    · rw [hno hdash, Bool.and_false]
      rfl
    · rw [hno (List.mem_of_mem_drop hdash), Bool.and_false]
      rfl
  unfold ofText
  rw [hnumeral, toList_text, readDate_padded hyear hdate]
  dsimp only
  rw [htime]

end Stamp

/-! ## Readings -/

theorem Decode.stamp_toValue {s : Stamp} (h : s.Proper) : Decode.stamp s.toValue = .ok s := by
  simp only [Stamp.toValue, Decode.stamp, Stamp.ofText_text h]

namespace Stamp

theorem proper_ofSeconds? {seconds : Float} {s : Stamp} (h : ofSeconds? seconds = some s) : s.Proper := by
  unfold ofSeconds? at h
  dsimp only at h
  generalize Number.roundHalfEven _ = us at h
  split at h
  · next hrange =>
    obtain rfl := Option.some.inj h
    refine proper_ofMicros ?_
    unfold lastMicro
    omega
  · exact absurd h (by simp)

theorem need_bind_eq_ok {α β : Type} {p : DateProblem} {o : Option α} {f : α → Except DateProblem β}
    {b : β} : need p o >>= f = .ok b ↔ ∃ a, o = some a ∧ f a = .ok b := by
  cases o <;> simp [need, bind, Except.bind]

theorem readDate_eq_ok {cs rest : List Char} {date : Nat × Nat × Nat} (h : readDate cs = .ok (date, rest)) :
    date.1 < 10000 ∧ Calendar.IsDate date.1 date.2.1 date.2.2 := by
  unfold readDate at h
  split at h
  · exact absurd h (by simp [bind, Except.bind])
  · dsimp only at h
    simp only [need_bind_eq_ok] at h
    obtain ⟨⟨year, cs₁⟩, hyear, cs₂, -, ⟨month, cs₃⟩, -, cs₄, -, ⟨day, cs₅⟩, -, h⟩ := h
    dsimp only at h
    split at h
    · exact absurd h (by simp [bind, Except.bind])
    · next hmonth =>
      split at h
      · exact absurd h (by simp [bind, Except.bind])
      · next hday =>
        obtain ⟨rfl, -⟩ := Prod.mk.inj (Except.ok.inj h)
        have hdate : Calendar.IsDate year month day := ⟨by omega, by omega⟩
        exact ⟨lt_of_digits? hyear, hdate⟩

theorem readSeconds?_eq_some {cs rest : List Char} {second micro : Nat}
    (h : readSeconds? cs = some ((second, micro), rest)) : micro < 1000000 := by
  unfold readSeconds? at h
  split at h
  · simp only [Option.bind_eq_bind, Option.bind_eq_some_iff] at h
    obtain ⟨⟨second', rest'⟩, -, h⟩ := h
    dsimp only at h
    split at h
    · next more =>
      split at h
      · exact absurd h (by simp)
      · have hmicro := (Prod.mk.inj (Prod.mk.inj (Option.some.inj h)).1).2
        rw [← hmicro]
        refine Nat.lt_of_lt_of_le (digitsValue_lt fun c hc => ?_) (Nat.pow_le_pow_right (by decide)
          (List.length_take_le 6 _))
        rcases List.mem_append.mp (List.mem_of_mem_take hc) with hc | hc
        · exact List.all_eq_true.mp List.all_takeWhile c hc
        · rw [List.eq_of_mem_replicate hc]
          rfl
    · have hmicro := (Prod.mk.inj (Prod.mk.inj (Option.some.inj h)).1).2
      omega
  · have hmicro := (Prod.mk.inj (Prod.mk.inj (Option.some.inj h)).1).2
    omega

theorem properOffset_of_read {cs : List Char} {offset : Option Int} (h : readOffset? cs = some offset) :
    ∀ o ∈ offset, ProperOffset o := by
  have hutc : ∀ o ∈ some (0 : Int), ProperOffset o := fun o ho => by
    obtain rfl : (0 : Int) = o := Option.some.inj ho
    exact ⟨0, by decide, .inl rfl⟩
  unfold readOffset? at h
  split at h
  · obtain rfl := Option.some.inj h
    simp
  · obtain rfl := Option.some.inj h
    exact hutc
  · obtain rfl := Option.some.inj h
    exact hutc
  · next sign rest =>
    split at h
    · simp only [Option.bind_eq_bind, Option.bind_eq_some_iff] at h
      obtain ⟨⟨hours, rest₁⟩, -, ⟨minutes, rest₂⟩, -, h⟩ := h
      dsimp only at h
      split at h
      · next hlt =>
        obtain rfl := Option.some.inj h
        intro o ho
        refine ⟨hours * 60 + minutes, by omega, ?_⟩
        rw [← Option.some.inj ho]
        split
        · right; push_cast; rfl
        · left; push_cast; rfl
      · exact absurd h (by simp)
    · exact absurd h (by simp)

theorem readTime?_eq_some {date : Nat × Nat × Nat} {cs : List Char} {s : Stamp} (hyear : date.1 < 10000)
    (hdate : Calendar.IsDate date.1 date.2.1 date.2.2) (h : readTime? date cs = some s) : s.Proper := by
  unfold readTime? at h
  simp only [Option.bind_eq_bind, Option.bind_eq_some_iff] at h
  obtain ⟨cs₁, -, ⟨hour, cs₂⟩, -, cs₃, -, ⟨minute, cs₄⟩, -, ⟨⟨second, micro⟩, cs₅⟩, hseconds, offset,
    hoffset, h⟩ := h
  split at h
  · next hlt =>
    obtain rfl := Option.some.inj h
    exact ⟨hyear, hdate, hlt.1, hlt.2.1, hlt.2.2, readSeconds?_eq_some hseconds,
      properOffset_of_read hoffset⟩
  · exact absurd h (by simp)

theorem proper_of_text {text : String} {s : Stamp} (h : ofText text = .ok s) : s.Proper := by
  unfold ofText at h
  split at h
  · next hnumeral =>
    obtain rfl := Except.ok.inj h
    unfold ofNumeral? at hnumeral
    dsimp only at hnumeral
    generalize (if text.toList.head? = some '-' ∨ text.toList.head? = some '+' then text.toList.drop 1
      else text.toList) = body at hnumeral
    split at hnumeral
    · obtain ⟨seconds, -, hseconds⟩ := Option.bind_eq_some_iff.mp hnumeral
      exact proper_ofSeconds? hseconds
    · exact absurd hnumeral (by simp)
  · split at h
    · exact absurd h (by simp)
    · next hdate =>
      obtain rfl := Except.ok.inj h
      obtain ⟨hyear, hdate⟩ := readDate_eq_ok hdate
      exact ⟨hyear, hdate, by simp, by simp, by simp, by simp, by simp⟩
    · next hdate =>
      obtain ⟨hyear, hdate⟩ := readDate_eq_ok hdate
      split at h
      · next htime =>
        obtain rfl := Except.ok.inj h
        exact readTime?_eq_some hyear hdate htime
      · exact absurd h (by simp)

end Stamp

/-- **Every stamp that is read is proper.** -/
theorem Decode.proper_of_stamp {v : Value} {s : Stamp} (h : Decode.stamp v = .ok s) : s.Proper := by
  unfold Decode.stamp at h
  split at h
  · split at h
    · next htext => 
      obtain rfl := Checked.ok.inj h
      exact Stamp.proper_of_text htext
    · exact absurd h (by simp [Checked.complain])
    · exact absurd h (by simp [Checked.complain])
  · split at h
    · next hseconds =>
      obtain rfl := Checked.ok.inj h
      exact Stamp.proper_ofSeconds? hseconds
    · exact absurd h (by simp [Checked.complain])
  · split at h
    · next hseconds =>
      obtain rfl := Checked.ok.inj h
      exact Stamp.proper_ofSeconds? hseconds
    · exact absurd h (by simp [Checked.complain])
  · exact absurd h (by simp [Checked.complain])

end Runbook
