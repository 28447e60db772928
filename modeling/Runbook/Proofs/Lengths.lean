import Runbook.Duration

/-!
# `Proofs.Lengths` — lengths of time are numbers

A length of time is compared with zero, and what is not at most zero is taken to be positive. That is right
as long as it is a number at all, for NaN is not at most zero either. A duration that is a text is the product
of two numbers that are none, and neither of them is infinite times zero; so is one that is an integer.

## Contents
- **Doubles.** `Number.IsNumber`, kept by products and quotients with what is finite and not zero;
  `isNumber_ofScientific`, and `pos_of_not_le_zero`.
- **Durations.** `Duration.IsPositive`, with `isNumber_milliseconds` and `isPositive_of_not_le_zero`.
-/

namespace Runbook

/-! ## Doubles -/

namespace Number

open Float.Model UnpackedFloat

/-- **A number**, perhaps an infinite one: anything but NaN. -/
def IsNumber (x : Float) : Prop := x.isNaN = false

/-- **A finite number that is not zero.** -/
def isProper (x : Float) : Bool :=
  match x.toModel.unpack with
  | .finite .. => true
  | _ => false

theorem unpack_of_isProper {x : Float} (h : isProper x = true) :
    ∃ s m e hm, x.toModel.unpack = .finite s m e hm := by
  unfold isProper at h
  cases hx : x.toModel.unpack with
  | finite s m e hm => exact ⟨s, m, e, hm, rfl⟩
  | _ => rw [hx] at h; exact nomatch h

/-- One of two numbers is a number. -/
theorem isNaN_ite {c : Prop} [Decidable c] {u v : UnpackedFloat} (hu : u.isNaN = false) (hv : v.isNaN = false) :
    (if c then u else v).isNaN = false := by
  split
  · exact hu
  · exact hv

theorem isNaN_dite {c : Prop} [Decidable c] {u : c → UnpackedFloat} {v : ¬ c → UnpackedFloat}
    (hu : ∀ h, (u h).isNaN = false) (hv : ∀ h, (v h).isNaN = false) :
    (if h : c then u h else v h).isNaN = false := by
  by_cases h : c
  · rw [dif_pos h]
    exact hu h
  · rw [dif_neg h]
    exact hv h

/-- NaN has all bits of the exponent set, and some of the mantissa. -/
theorem isNaN_packComponents {spec : Format} (s : Sign) {e : BitVec spec.exponentBits}
    {m : BitVec spec.mantissaBitsWithoutImplicit} (h : e ≠ -1#_ ∨ m = 0#_) :
    (UnpackedFloat.unpack spec (packComponents spec s e m)).isNaN = false := by
  unfold UnpackedFloat.unpack
  dsimp only
  rw [unpackExponent_packComponents]
  by_cases he : e = -1#_
  · rw [if_pos he, unpackMantissa_packComponents, if_pos (h.resolve_left fun hne => hne he)]
    rfl
  · rw [if_neg he]
    exact isNaN_ite (isNaN_dite (fun _ => rfl) fun _ => rfl) rfl

/-- What is packed is a number, if it was one before. -/
theorem isNaN_pack {spec : Format} {u : UnpackedFloat} (h : u.isNaN = false) :
    (UnpackedFloat.unpack spec (UnpackedFloat.pack spec u)).isNaN = false := by
  cases u with
  | notANumber => exact nomatch h
  | infinity s => exact isNaN_packComponents s (.inr rfl)
  | zero s => exact isNaN_packComponents s (.inr rfl)
  | finite s m e hm =>
    unfold UnpackedFloat.pack
    dsimp only
    split
    · exact isNaN_packComponents s (.inr rfl)
    · next hsmall =>
      -- the exponent is not the largest one
      split
      · refine isNaN_packComponents s (.inl fun heq => hsmall ?_)
        have hnat := congrArg BitVec.toNat heq
        rw [BitVec.toNat_ofNat, Nat.mod_eq_of_lt (by omega), BitVec.neg_one_eq_allOnes,
          BitVec.toNat_allOnes] at hnat
        omega
      · refine isNaN_packComponents s (.inl fun heq => ?_)
        have hnat := congrArg BitVec.toNat heq
        have hpow := Nat.pow_le_pow_right (Nat.two_pos) spec.he
        rw [BitVec.neg_one_eq_allOnes, BitVec.toNat_allOnes, BitVec.toNat_zero] at hnat
        omega

theorem isNumber_ofModel {u : UnpackedFloat} (h : u.isNaN = false) : IsNumber (.ofModel (pack u)) :=
  isNaN_pack h

theorem isNaN_roundWithAccuracy (spec : Format) (s : Sign) (m : Nat) (e : Int) (a : UnpackedFloat.Accuracy) :
    (UnpackedFloat.roundWithAccuracy spec s m e a).isNaN = false := by
  unfold UnpackedFloat.roundWithAccuracy
  exact isNaN_dite (fun _ => rfl) fun _ => rfl

variable {x y : Float}

theorem isNumber_mul (hx : IsNumber x) (hy : isProper y = true) : IsNumber (x * y) := by
  obtain ⟨s, m, e, hm, hy⟩ := unpack_of_isProper hy
  apply isNumber_ofModel
  rw [hy]
  have hx : x.toModel.unpack.isNaN = false := hx
  cases hx' : x.toModel.unpack with
  | notANumber => rw [hx'] at hx; exact nomatch hx
  | infinity s' => rfl
  | zero s' => rfl
  | finite s' m' e' hm' => exact isNaN_roundWithAccuracy ..

theorem isNumber_div (hx : IsNumber x) (hy : isProper y = true) : IsNumber (x / y) := by
  obtain ⟨s, m, e, hm, hy⟩ := unpack_of_isProper hy
  apply isNumber_ofModel
  rw [hy]
  have hx : x.toModel.unpack.isNaN = false := hx
  cases hx' : x.toModel.unpack with
  | notANumber => rw [hx'] at hx; exact nomatch hx
  | infinity s' => rfl
  | zero s' => rfl
  | finite s' m' e' hm' => exact isNaN_roundWithAccuracy ..

theorem isNumber_toFloat (n : UInt64) : IsNumber n.toFloat := by
  apply isNumber_ofModel
  show (UnpackedFloat.normalize Format.binary64 (n.toNat : Int) 0 .positive).isNaN = false
  unfold UnpackedFloat.normalize
  split
  · exact isNaN_roundWithAccuracy ..
  · rfl
  · exact isNaN_roundWithAccuracy ..

theorem isProper_powersOfTen : ∀ i : Fin Float.exactlyRepresentablePowersOfTen.size,
    isProper Float.exactlyRepresentablePowersOfTen[i] = true := by decide +kernel

/-- **Numerals are numbers**, however long they are. -/
theorem isNumber_ofScientific (m : Nat) (negative : Bool) (e : Nat) :
    IsNumber (Float.ofScientific m negative e) := by
  have hpower {i : Nat} (hi : i < Float.exactlyRepresentablePowersOfTen.size) :
      isProper Float.exactlyRepresentablePowersOfTen[i] = true := isProper_powersOfTen ⟨i, hi⟩
  unfold Float.ofScientific
  split
  · dsimp only
    split
    · exact isNumber_div (isNumber_toFloat _) (hpower _)
    · exact isNumber_mul (isNumber_toFloat _) (hpower _)
  · apply isNumber_ofModel
    generalize (if negative = true then Int.negOfNat e else Int.ofNat e) = exponent
    unfold UnpackedFloat.ofScientific
    refine isNaN_dite (fun _ => rfl) fun _ => isNaN_ite rfl (isNaN_ite rfl (isNaN_ite ?_ ?_))
    · exact isNaN_roundWithAccuracy ..
    · exact isNaN_roundWithAccuracy ..

/-- **A number that is not at most zero is positive.** -/
theorem pos_of_not_le_zero (hx : IsNumber x) (h : ¬ x ≤ 0.0) : 0.0 < x := by
  have hzero : (0.0 : Float).toModel.unpack = .zero .positive := by rfl
  have hle : ¬ x.toModel.unpack.le (.zero .positive) = true := by
    rw [← hzero]
    exact fun hle => h (decide_eq_true hle)
  suffices hlt : (UnpackedFloat.zero .positive).lt x.toModel.unpack = true by
    rw [← hzero] at hlt
    exact decide_eq_true hlt
  have hx : x.toModel.unpack.isNaN = false := hx
  generalize x.toModel.unpack = u at hle hx ⊢
  cases u with
  | notANumber => exact nomatch hx
  | zero s => exact absurd rfl hle
  | infinity s =>
    cases s with
    | positive => rfl
    | negative => exact absurd rfl hle
  | finite s m e hm =>
    cases s with
    | positive => rfl
    | negative => exact absurd rfl hle

end Number

/-! ## Durations -/

namespace Duration

open Number

/-- **A duration that is not NaN.** -/
def IsNumber : Duration → Prop
  | .real x => Number.IsNumber x
  | .text _ | .whole _ => True

/-- **A positive length of time.** -/
def IsPositive (d : Duration) : Prop := ∃ ms, d.milliseconds = .ok ms ∧ 0.0 < ms

theorem isProper_unitMillis {unit : String} {factor : Nat} (h : unitMillis? unit = some factor) :
    isProper (Float.ofNat factor) = true := by
  obtain ⟨entry, hentry, rfl⟩ := Option.map_eq_some_iff.mp h
  have hall : (units.all fun entry => isProper (Float.ofNat entry.2)) = true := by decide +kernel
  exact List.all_eq_true.mp hall entry (List.mem_of_find?_eq_some hentry)

/-- **The length of a duration is a number**, unless it is written as none. -/
theorem isNumber_milliseconds {d : Duration} (hd : d.IsNumber) {ms : Float} (h : d.milliseconds = .ok ms) :
    Number.IsNumber ms := by
  cases d with
  | text s =>
    rw [milliseconds, textMillis] at h
    split at h
    · exact absurd h (by simp)
    · split at h
      · exact absurd h (by simp)
      · next factor hfactor =>
        obtain rfl := Except.ok.inj h
        exact isNumber_mul (isNumber_ofScientific ..) (isProper_unitMillis hfactor)
  | whole n =>
    rw [milliseconds] at h
    split at h
    · exact absurd h (by simp)
    · next hnonneg =>
      dsimp only at h
      split at h
      · obtain rfl := Except.ok.inj h
        obtain ⟨m, rfl⟩ := Int.eq_ofNat_of_zero_le (Int.not_lt.mp hnonneg)
        exact isNumber_ofScientific ..
      · exact absurd h (by simp)
  | real x =>
    rw [milliseconds] at h
    split at h
    · exact absurd h (by simp)
    · obtain rfl := Except.ok.inj h
      exact hd

theorem isPositive_of_not_le_zero {d : Duration} (hd : d.IsNumber) {ms : Float}
    (h : d.milliseconds = .ok ms) (hms : ¬ ms ≤ 0.0) : d.IsPositive :=
  ⟨ms, h, pos_of_not_le_zero (isNumber_milliseconds hd h) hms⟩

end Duration

end Runbook
