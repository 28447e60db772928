import Runbook.Proofs.Lengths

/-!
# `Proofs.Magnitudes` — numbers and integers are comparable

A double is compared with an integer by its bits: sign, exponent and mantissa say which integer it lies
next to. NaN alone is not comparable. Here the bits are read as the doubles themselves define them, so
that what is known of sums and products carries over to comparisons.

## Contents
- **Bits.** `exponent_bits`, `mantissa_bits`; `unpack_of_isFinite`.
- **Numbers.** `isNumber_of_isFinite`, `isNumber_ofInt`, and `isNumber_sub`, for what is less a finite
  double.
- **Comparisons.** `exists_compareInt?`: whatever is a number is comparable.
-/

namespace Runbook.Number

open Float.Model UnpackedFloat

variable {x y : Float}

/-! ## Bits -/

theorem exponent_bits (x : Float) :
    (@unpackExponent Format.binary64 x.toModel.toBits.toBitVec).toNat
      = x.toBits.toNat / Nat.pow 2 52 % Nat.pow 2 11 := by
  rw [unpackExponent, BitVec.toNat_cast, BitVec.extractLsb_toNat, Nat.shiftRight_eq_div_pow]
  rfl

theorem mantissa_bits (x : Float) :
    (@unpackMantissa Format.binary64 x.toModel.toBits.toBitVec).toNat
      = x.toBits.toNat % Nat.pow 2 52 := by
  rw [unpackMantissa, BitVec.toNat_cast, BitVec.extractLsb_toNat, Nat.shiftRight_zero]
  rfl

/-- Of a finite double, not all bits of the exponent are set: it is neither NaN nor an infinity. -/
theorem unpack_of_isFinite (h : isFinite x = true) :
    x.toModel.unpack.isNaN = false ∧ ∀ s, x.toModel.unpack ≠ .infinity s := by
  have he : ¬ x.toBits.toNat / Nat.pow 2 52 % Nat.pow 2 11 = 2047 := by
    intro he
    unfold isFinite Parts.ofFloat at h
    dsimp only at h
    rw [if_pos he] at h
    split at h
    · next hparts => split at hparts <;> cases hparts
    · cases h
  have hexponent : ¬ @unpackExponent Format.binary64 x.toModel.toBits.toBitVec = -1#_ := by
    intro hall
    apply he
    rw [← exponent_bits, hall]
    rfl
  unfold Float.Model.unpack UnpackedFloat.unpack
  dsimp only
  rw [if_neg hexponent]
  by_cases hzero : @unpackExponent Format.binary64 x.toModel.toBits.toBitVec = 0#_
  · rw [if_pos hzero]
    by_cases hm : @unpackMantissa Format.binary64 x.toModel.toBits.toBitVec = 0#_
    · rw [dif_pos hm]
      exact ⟨rfl, fun s h => by cases h⟩
    · rw [dif_neg hm]
      exact ⟨rfl, fun s h => by cases h⟩
  · rw [if_neg hzero]
    exact ⟨rfl, fun s h => by cases h⟩

/-! ## Numbers -/

theorem isNumber_of_isFinite (h : isFinite x = true) : IsNumber x := (unpack_of_isFinite h).1

theorem isNumber_ofInt (n : Int) : IsNumber (Float.ofInt n) := by
  cases n with
  | ofNat n => exact isNumber_ofScientific ..
  | negSucc n =>
    -- the sign is turned, nothing else
    have hn : (Float.ofNat (n + 1)).toModel.unpack.isNaN = false := isNumber_ofScientific ..
    apply isNumber_ofModel
    cases hunpack : (Float.ofNat (n + 1)).toModel.unpack with
    | notANumber => rw [hunpack] at hn; cases hn
    | _ => rfl

theorem isNaN_normalize (spec : Format) (m e : Int) (s : Sign) :
    (UnpackedFloat.normalize spec m e s).isNaN = false := by
  unfold UnpackedFloat.normalize
  split
  · exact isNaN_roundWithAccuracy ..
  · rfl
  · exact isNaN_roundWithAccuracy ..

/-- **A number less a finite one is a number**: only infinities can cancel out. -/
theorem isNumber_sub (hx : IsNumber x) (hy : isFinite y = true) : IsNumber (x - y) := by
  apply isNumber_ofModel
  have hx : x.toModel.unpack.isNaN = false := hx
  obtain ⟨hy, hfinite⟩ := unpack_of_isFinite hy
  generalize x.toModel.unpack = u at hx ⊢
  generalize y.toModel.unpack = v at hy hfinite ⊢
  cases v with
  | notANumber => cases hy
  | infinity s => exact absurd rfl (hfinite s)
  | zero s =>
    cases u with
    | notANumber => cases hx
    | zero s' => exact isNaN_ite (c := _ = true) rfl rfl
    | infinity | finite => rfl
  | finite s m e hm =>
    cases u with
    | notANumber => cases hx
    | infinity | zero => rfl
    | finite s' m' e' hm' => exact isNaN_normalize ..

/-! ## Comparisons -/

/-- What is a number is not taken for NaN. -/
theorem parts_of_isNumber (h : IsNumber x) : Parts.ofFloat x ≠ .notANumber := by
  have hx : x.toModel.unpack.isNaN = false := h
  unfold Float.Model.unpack UnpackedFloat.unpack at hx
  unfold Parts.ofFloat
  dsimp only at hx ⊢
  split
  · next he =>
    split
    · exact fun h => by cases h
    · next hm =>
      exfalso
      rw [if_pos, if_neg] at hx
      · cases hx
      · intro hzero
        apply hm
        rw [← mantissa_bits, hzero]
        rfl
      · apply BitVec.eq_of_toNat_eq
        rw [exponent_bits, he]
        rfl
  · split <;> exact fun h => by cases h

/-- **Whatever is a number is comparable** with every integer. -/
theorem exists_compareInt? (h : IsNumber x) (n : Int) : ∃ order, compareInt? x n = some order := by
  unfold compareInt?
  split
  · next hparts => exact absurd hparts (parts_of_isNumber h)
  · exact ⟨_, rfl⟩
  · exact ⟨_, rfl⟩
  · exact ⟨_, rfl⟩

end Runbook.Number
