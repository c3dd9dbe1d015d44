/-
Formula.Proofs.Number.Magnitude — signs and patterns of binary64 numbers.

The spelling of a number looks at its bits, and a formula looks at numbers
through `Float.abs`, `Float.isFinite` and `==`. The two views are joined
here: the number with a pattern and no sign bit is the absolute value
(`ofPattern_pattern`), and the finite numbers are those whose pattern is
below that of infinity (`isFinite_iff`).
-/
import Formula.Number.ReadBack
import Formula.Number.Spelling
import Mathlib

namespace Formula.Number.Binary64

open Float.Model Float.Model.UnpackedFloat

/-! ## 1. The parts of the bits -/

/-- The exponent field of sixty-four bits. -/
theorem toNat_unpackExponent (b : BitVec 64) :
    (@unpackExponent Format.binary64 b).toNat = b.toNat / 2 ^ 52 % 2 ^ 11 := by
  rw [unpackExponent_def]
  simp [BitVec.extractLsb'_toNat, Nat.shiftRight_eq_div_pow]

/-- The fraction field of sixty-four bits. -/
theorem toNat_unpackMantissa (b : BitVec 64) :
    (@unpackMantissa Format.binary64 b).toNat = b.toNat % 2 ^ 52 := by
  rw [unpackMantissa_def]
  simp [BitVec.extractLsb'_toNat]

/-- The sign bit of sixty-four bits. -/
theorem toNat_unpackSign (b : BitVec 64) :
    (@unpackSign Format.binary64 b).toNat = b.toNat / 2 ^ 63 % 2 := by
  rw [unpackSign_def]
  simp [BitVec.extractLsb'_toNat, Nat.shiftRight_eq_div_pow]

theorem unpackExponent_eq_iff (b : BitVec 64) :
    @unpackExponent Format.binary64 b = -1#_ ↔ infinity ≤ b.toNat % 2 ^ 63 := by
  have hb := b.isLt
  rw [← BitVec.toNat_inj, toNat_unpackExponent]
  simp only [infinity]
  constructor
  · intro h
    have h : b.toNat / 2 ^ 52 % 2 ^ 11 = 2047 := h
    omega
  · intro h
    show b.toNat / 2 ^ 52 % 2 ^ 11 = 2047
    omega

theorem isNaNBits_iff (b : BitVec 64) :
    @isNaNBits Format.binary64 b = true ↔ infinity < b.toNat % 2 ^ 63 := by
  have hb := b.isLt
  unfold isNaNBits
  rw [decide_eq_true_iff, unpackExponent_eq_iff, ne_eq, ← BitVec.toNat_inj, toNat_unpackMantissa]
  simp only [infinity, BitVec.toNat_zero]
  omega

/-! ## 2. Numbers from patterns -/

/-- Bits that are not those of a NaN are kept by the number that they
make. -/
theorem toBits_ofBits {u : UInt64} (h : u.toNat % 2 ^ 63 ≤ infinity) :
    (Float.ofBits u).toBits = u := by
  have hnan : ¬ @isNaNBits Format.binary64 u.toBitVec = true := by
    rw [isNaNBits_iff]
    exact Nat.not_lt.mpr h
  have hpack := @pack_unpack Format.binary64 u.toBitVec (by decide)
  rw [if_neg hnan] at hpack
  exact congrArg UInt64.ofBitVec hpack

theorem toNat_toBits_ofPattern {p : Nat} (h : p ≤ infinity) : (ofPattern p).toBits.toNat = p := by
  have hp : (UInt64.ofNat p).toNat = p := by
    rw [UInt64.toNat_ofNat']
    exact Nat.mod_eq_of_lt (Nat.lt_of_le_of_lt h (by decide))
  have hmod : p % 2 ^ 63 = p := Nat.mod_eq_of_lt (Nat.lt_of_le_of_lt h (by decide))
  rw [ofPattern, toBits_ofBits (by rw [hp, hmod]; exact h), hp]

theorem pattern_ofPattern {p : Nat} (h : p ≤ infinity) : pattern (ofPattern p) = p := by
  rw [pattern, toNat_toBits_ofPattern h]
  exact Nat.mod_eq_of_lt (Nat.lt_of_le_of_lt h (by decide))

theorem isNegative_ofPattern {p : Nat} (h : p ≤ infinity) : isNegative (ofPattern p) = false := by
  rw [isNegative, toNat_toBits_ofPattern h, decide_eq_false_iff_not]
  exact Nat.not_le.mpr (Nat.lt_of_le_of_lt h (by decide))

/-! ## 3. Finite numbers -/

theorem isFinite_iff {x : Float} : x.isFinite = true ↔ pattern x < infinity := by
  have hexponent := unpackExponent_eq_iff x.toBits.toBitVec
  show (unpack Format.binary64 x.toBits.toBitVec).isFinite = true ↔
    x.toBits.toBitVec.toNat % 2 ^ 63 < infinity
  by_cases h : @unpackExponent Format.binary64 x.toBits.toBitVec = -1#_
  · have hle := hexponent.mp h
    have hfinite : (unpack Format.binary64 x.toBits.toBitVec).isFinite = false := by
      unfold UnpackedFloat.unpack
      simp only [h, if_true]
      split <;> rfl
    rw [hfinite]
    simp only [Bool.false_eq_true, false_iff]
    omega
  · have hlt : ¬ infinity ≤ x.toBits.toBitVec.toNat % 2 ^ 63 := fun hle => h (hexponent.mpr hle)
    have hfinite : (unpack Format.binary64 x.toBits.toBitVec).isFinite = true := by
      unfold UnpackedFloat.unpack
      simp only [h, if_false]
      split
      · split <;> rfl
      · rfl
    rw [hfinite]
    simp only [true_iff]
    omega

/-- Bits without their sign. -/
theorem toNat_packComponents_positive (b : BitVec 64) :
    (packComponents Format.binary64 .positive (unpackExponent b) (unpackMantissa b)).toNat =
      b.toNat % 2 ^ 63 := by
  have hsign := toNat_unpackSign
    (packComponents Format.binary64 .positive (unpackExponent b) (unpackMantissa b))
  have hexponent := toNat_unpackExponent
    (packComponents Format.binary64 .positive (unpackExponent b) (unpackMantissa b))
  have hmantissa := toNat_unpackMantissa
    (packComponents Format.binary64 .positive (unpackExponent b) (unpackMantissa b))
  rw [unpackSign_packComponents] at hsign
  rw [unpackExponent_packComponents, toNat_unpackExponent] at hexponent
  rw [unpackMantissa_packComponents, toNat_unpackMantissa] at hmantissa
  have hlt :=
    (packComponents Format.binary64 .positive (unpackExponent b) (unpackMantissa b)).isLt
  have hzero : (Float.Model.UnpackedFloat.Sign.positive).toBitVec.toNat = 0 := rfl
  rw [hzero] at hsign
  have hlt : (packComponents Format.binary64 .positive (unpackExponent b)
    (unpackMantissa b)).toNat < 2 ^ 64 := hlt
  generalize (packComponents Format.binary64 .positive (unpackExponent b)
    (unpackMantissa b)).toNat = n at *
  omega

theorem abs_unpack (b : BitVec 64) :
    (UnpackedFloat.unpack Format.binary64 b).abs =
      UnpackedFloat.unpack Format.binary64
        (packComponents Format.binary64 .positive (unpackExponent b) (unpackMantissa b)) := by
  unfold UnpackedFloat.unpack
  simp only [unpackExponent_packComponents, unpackMantissa_packComponents,
    unpackSign_packComponents, Sign.ofBitVec_toBitVec]
  split
  · split <;> rfl
  · split
    · split <;> rfl
    · rfl

/-- The number with the pattern of a number and no sign is its absolute
value. -/
theorem ofPattern_pattern {x : Float} (h : pattern x ≤ infinity) :
    ofPattern (pattern x) = x.abs := by
  have hclear := toNat_packComponents_positive x.toBits.toBitVec
  have hnan : ¬ isNaNBits (packComponents Format.binary64 .positive
      (unpackExponent x.toBits.toBitVec) (unpackMantissa x.toBits.toBitVec)) = true := by
    rw [isNaNBits_iff, hclear, Nat.mod_mod]
    exact Nat.not_lt.mpr h
  have hpack := @pack_unpack Format.binary64 (packComponents Format.binary64 .positive
    (unpackExponent x.toBits.toBitVec) (unpackMantissa x.toBits.toBitVec)) (by decide)
  rw [if_neg hnan, ← abs_unpack] at hpack
  rw [← Float.toBits_inj, ← UInt64.toNat_inj, toNat_toBits_ofPattern h, pattern]
  exact hclear.symm.trans (congrArg BitVec.toNat hpack.symm)

/-- A number without a sign is its own absolute value. -/
theorem abs_eq_self {x : Float} (hx : pattern x ≤ infinity) (h : isNegative x = false) :
    x.abs = x := by
  rw [← ofPattern_pattern hx, ← Float.toBits_inj, ← UInt64.toNat_inj, toNat_toBits_ofPattern hx,
    pattern]
  rw [isNegative, decide_eq_false_iff_not] at h
  exact Nat.mod_eq_of_lt (Nat.lt_of_not_le h)

/-- A number that is no NaN equals itself. -/
theorem beq_self_of_isNaN {x : Float} (h : x.isNaN = false) : (x == x) = true := by
  rw [Float.isNaN_eq_decide_eq_nan, decide_eq_false_iff_not] at h
  exact Float.beq_self_iff.mpr h

/-- A finite number is no NaN. -/
theorem isNaN_eq_false_of_isFinite {x : Float} (h : x.isFinite = true) : x.isNaN = false := by
  have hnan : Float.nan.isFinite = false := by decide
  rw [Float.isNaN_eq_decide_eq_nan, decide_eq_false_iff_not]
  rintro rfl
  rw [hnan] at h
  cases h

/-! ## 4. Spellings -/

theorem nearest_le_infinity (d : Decimal) : nearest d ≤ infinity := by
  unfold nearest
  exact Nat.min_le_right _ _

/-- A numeral spells no NaN and nothing with a sign. -/
theorem isNegative_ofNumeral (cs : List Char) : isNegative (ofNumeral cs) = false :=
  isNegative_ofPattern (nearest_le_infinity _)

/-- The absolute value of a finite number has its pattern and no sign. -/
theorem abs_of_isFinite {x : Float} (hx : x.isFinite = true) :
    pattern x.abs = pattern x ∧ isNegative x.abs = false := by
  have hle : pattern x ≤ infinity := Nat.le_of_lt (isFinite_iff.mp hx)
  rw [← ofPattern_pattern hle]
  exact ⟨pattern_ofPattern hle, isNegative_ofPattern hle⟩

theorem isFinite_abs {x : Float} (hx : x.isFinite = true) : x.abs.isFinite = true := by
  rw [isFinite_iff, (abs_of_isFinite hx).1]
  exact isFinite_iff.mp hx

/-- The digits of a finite number without a sign read back as the
number. -/
theorem ofNumeral_plainDigits {x : Float} (hx : x.isFinite = true) (h : isNegative x = false) :
    ofNumeral (plainDigits (pattern x)) = x := by
  have hlt := isFinite_iff.mp hx
  have hle : pattern x ≤ infinity := Nat.le_of_lt hlt
  rw [ofNumeral, nearest_plainDigits hlt, ofPattern_pattern hle, abs_eq_self hle h]

/-- A finite number without a sign is spelled by its digits. -/
theorem text_eq_digits {x : Float} (hx : x.isFinite = true) (h : isNegative x = false) :
    text x = String.ofList (plainDigits (pattern x)) := by
  have hlt := isFinite_iff.mp hx
  have hnan : ¬ infinity < pattern x := by omega
  have hinfinite : ¬ pattern x = infinity := by omega
  simp only [text, signed, h, hnan, hinfinite, if_false, Bool.false_eq_true]

/-- A finite number with a sign is spelled by a minus and its absolute
value. -/
theorem text_eq_minus {x : Float} (hx : x.isFinite = true) (h : isNegative x = true) :
    text x = "-" ++ text x.abs := by
  obtain ⟨hpattern, hsign⟩ := abs_of_isFinite hx
  have hlt := isFinite_iff.mp hx
  rw [text_eq_digits (isFinite_abs hx) hsign, hpattern]
  have hnan : ¬ infinity < pattern x := by omega
  have hinfinite : ¬ pattern x = infinity := by omega
  simp only [text, signed, h, hnan, hinfinite, if_false, if_true]
  exact String.ofList_cons

end Formula.Number.Binary64
