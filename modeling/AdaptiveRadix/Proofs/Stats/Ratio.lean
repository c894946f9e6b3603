import AdaptiveRadix.Stats.Basic
import Mathlib

namespace AdaptiveRadix

open Float.Model Float.Model.UnpackedFloat

/-!
# Ratios as doubles

A ratio of counts is rounded three times: each count becomes a double, and so does their
quotient.  A part of a count is still no more than the whole after the first two roundings,
since rounding moves a number by at most one half of the last place that is kept and so never
passes another.  The third takes a number below one to at most one, and leaves one as it is.

The arithmetic is that of the library's model of doubles, whose numbers have a mantissa of 53
bits and an exponent to the base two.
-/

/-- A positive double whose mantissa has all of its bits. -/
structure Double where
  mantissa : Nat
  exponent : Int
  full : mantissa.log2 = 52
  low : -1074 ≤ exponent
  high : exponent ≤ 971

namespace Double

section Packing

variable (double : Double)

theorem positive : 0 < double.mantissa := by
  apply Nat.pos_of_ne_zero
  intro zero
  have full := double.full
  rw [zero] at full
  cases full

theorem bounds : 2 ^ 52 ≤ double.mantissa ∧ double.mantissa < 2 ^ 53 :=
  (Nat.log2_eq_iff double.positive.ne').mp double.full

/-- The double as the model computes with it. -/
def unpacked : UnpackedFloat :=
  .finite .positive double.mantissa double.exponent double.positive

/-- Nothing is lost in the bits of a double. -/
theorem unpack_pack : (Float.Model.pack double.unpacked).unpack = double.unpacked := by
  rcases double.bounds with ⟨least, most⟩
  have low := double.low
  have high := double.high
  -- The exponent is stored with a bias, the mantissa without its first bit.
  have biased : (BitVec.ofNat 11 (double.exponent + 1075).toNat).toNat =
      (double.exponent + 1075).toNat := by
    rw [BitVec.toNat_ofNat]
    omega
  have stored : (1#1 ++ BitVec.ofNat 52 double.mantissa).toNat = double.mantissa := by
    rw [BitVec.toNat_append, ← Nat.shiftLeft_add_eq_or_of_lt (BitVec.isLt _)]
    simp only [BitVec.toNat_ofNat, Nat.shiftLeft_eq]
    omega
  have differs (pattern : BitVec 11) (apart : pattern.toNat ≠ (double.exponent + 1075).toNat) :
      BitVec.ofNat 11 (double.exponent + 1075).toNat ≠ pattern := by
    intro same
    exact apart (same ▸ biased)
  have offset : double.exponent + (Format.binary64.exponentBias : Nat) +
      (Format.binary64.mantissaBitsWithoutImplicit : Nat) = double.exponent + 1075 := by
    change double.exponent + 1023 + 52 = _
    omega
  have packed : UnpackedFloat.pack Format.binary64 double.unpacked =
      packComponents Format.binary64 .positive (BitVec.ofNat 11 (double.exponent + 1075).toNat)
        (BitVec.ofNat 52 double.mantissa) := by
    unfold UnpackedFloat.pack unpacked
    simp only
    rw [offset, if_neg, if_pos]
    · rw [double.full]
      rfl
    · change ¬ 2048 ≤ _
      omega
  unfold Float.Model.unpack Float.Model.pack
  simp only [packed]
  unfold UnpackedFloat.unpack
  simp only [unpackExponent_packComponents, unpackMantissa_packComponents,
    unpackSign_packComponents, Sign.ofBitVec_toBitVec]
  rw [if_neg (differs (-1#11) (by change 2047 ≠ _; omega)),
    if_neg (differs 0#11 (by change 0 ≠ _; omega))]
  unfold unpacked
  congr 1
  rw [biased]
  change _ - (1023 + 52 : Int) = _
  omega

end Packing

/-! ## Rounding -/

/-- A number cut off after some places, with what its last two bits say of what is cut. -/
structure CutOff (number places : Nat) (cut : ExtendedMantissa) : Prop where
  mantissa : cut.mantissa = number / 2 ^ places
  /-- At least one half is cut. -/
  half : cut.roundBit = true ↔ 2 ^ places ≤ 2 * (number % 2 ^ places)
  /-- Neither nothing nor one half is cut. -/
  sticky : cut.stickyBit = true ↔
    number % 2 ^ places ≠ 0 ∧ 2 * (number % 2 ^ places) ≠ 2 ^ places

theorem CutOff.step {number places : Nat} {cut : ExtendedMantissa}
    (cutOff : CutOff number places cut) : CutOff number (places + 1) cut.shiftRightOne := by
  rcases cutOff with ⟨mantissa, half, sticky⟩
  have rest : number % 2 ^ (places + 1) =
      number % 2 ^ places + 2 ^ places * (number / 2 ^ places % 2) := by
    rw [Nat.pow_succ, Nat.mod_mul]
  have inside := Nat.mod_lt number (Nat.two_pow_pos places)
  have twice : 2 ^ (places + 1) = 2 ^ places * 2 := pow_succ 2 places
  unfold ExtendedMantissa.shiftRightOne
  constructor
  · change cut.mantissa / 2 = _
    rw [mantissa, Nat.div_div_eq_div_mul, twice]
  · change (cut.mantissa % 2 != 0) = true ↔ _
    rw [bne_iff_ne, mantissa, rest]
    rcases Nat.mod_two_eq_zero_or_one (number / 2 ^ places) with last | last <;> rw [last] <;> omega
  · change (cut.roundBit || cut.stickyBit) = true ↔ _
    rw [Bool.or_eq_true, half, sticky, rest]
    rcases Nat.mod_two_eq_zero_or_one (number / 2 ^ places) with last | last <;> rw [last] <;> omega

theorem cutOff (number places : Nat) :
    CutOff number places (ExtendedMantissa.ofMantissaAndAccuracy number .exact >>> places) := by
  induction places with
  | zero =>
      refine ⟨(Nat.div_one number).symm, ?_, ?_⟩
      · rw [Nat.pow_zero, Nat.mod_one]
        exact iff_of_false Bool.false_ne_true (by decide)
      · rw [Nat.pow_zero, Nat.mod_one]
        exact iff_of_false Bool.false_ne_true (by decide)
  | succ places inductionHypothesis => exact inductionHypothesis.step

/-- Rounding moves a number by at most one half of the last place that is kept. -/
theorem CutOff.nearest {number places : Nat} {cut : ExtendedMantissa}
    (cutOff : CutOff number places cut) :
    2 * (cut.roundedMantissa * 2 ^ places) ≤ 2 * number + 2 ^ places ∧
      2 * number ≤ 2 * (cut.roundedMantissa * 2 ^ places) + 2 ^ places := by
  rcases cutOff with ⟨mantissa, half, sticky⟩
  have whole := Nat.div_add_mod number (2 ^ places)
  have inside := Nat.mod_lt number (Nat.two_pow_pos places)
  rcases cut with ⟨quotient, roundBit, stickyBit⟩
  simp only at mantissa half sticky
  rw [← mantissa, Nat.mul_comm] at whole
  have same : (quotient + 0) * 2 ^ places = quotient * 2 ^ places := rfl
  have upper : (quotient + 1) * 2 ^ places = quotient * 2 ^ places + 2 ^ places := Nat.succ_mul _ _
  cases roundBit <;> cases stickyBit <;>
    simp only [Bool.false_eq_true, true_iff, false_iff] at half sticky
  · change 2 * (quotient * 2 ^ places) ≤ _ ∧ _ ≤ 2 * (quotient * 2 ^ places) + _
    omega
  · change 2 * (quotient * 2 ^ places) ≤ _ ∧ _ ≤ 2 * (quotient * 2 ^ places) + _
    omega
  -- One half is rounded to the even neighbour.
  · change 2 * ((quotient + quotient % 2) * 2 ^ places) ≤ _ ∧
      _ ≤ 2 * ((quotient + quotient % 2) * 2 ^ places) + _
    rcases Nat.mod_two_eq_zero_or_one quotient with last | last <;> rw [last] <;> omega
  · change 2 * ((quotient + 1) * 2 ^ places) ≤ _ ∧ _ ≤ 2 * ((quotient + 1) * 2 ^ places) + _
    omega

theorem mantissa_shiftRight (number places : Nat) (accuracy : Accuracy) :
    (ExtendedMantissa.ofMantissaAndAccuracy number accuracy >>> places).mantissa =
      number / 2 ^ places := by
  induction places with
  | zero =>
      rw [Nat.pow_zero, Nat.div_one]
      rcases accuracy with _ | order
      · rfl
      · cases order <;> rfl
  | succ places inductionHypothesis =>
      change (ExtendedMantissa.ofMantissaAndAccuracy number accuracy >>> places).mantissa / 2 = _
      rw [inductionHypothesis, Nat.div_div_eq_div_mul, Nat.pow_succ]

theorem roundedMantissa_bounds (cut : ExtendedMantissa) :
    cut.mantissa ≤ cut.roundedMantissa ∧ cut.roundedMantissa ≤ cut.mantissa + 1 := by
  rcases cut with ⟨mantissa, roundBit, stickyBit⟩
  have last := Nat.mod_lt mantissa two_pos
  cases roundBit <;> cases stickyBit <;>
    simp only [ExtendedMantissa.roundedMantissa, ExtendedMantissa.accuracy,
      Accuracy.roundToNearestEven] <;>
    omega

/-- What a number with 53 bits or more is rounded to, in units of the last place that is kept. -/
def rounded (number : Nat) (accuracy : Accuracy) : Nat :=
  (ExtendedMantissa.ofMantissaAndAccuracy number accuracy >>> (number.log2 - 52)).roundedMantissa

/-- A number of more bits than a mantissa lies between two powers of two. -/
theorem bounds_of_log2 {number : Nat} (long : 52 ≤ number.log2) :
    2 ^ (52 + (number.log2 - 52)) ≤ number ∧ number < 2 ^ (53 + (number.log2 - 52)) := by
  have positive : number ≠ 0 := by
    intro zero
    rw [zero] at long
    cases long
  rw [show 52 + (number.log2 - 52) = number.log2 by omega,
    show 53 + (number.log2 - 52) = number.log2 + 1 by omega]
  exact ⟨Nat.log2_self_le positive, Nat.lt_log2_self⟩

theorem rounded_bounds {number : Nat} (long : 52 ≤ number.log2) (accuracy : Accuracy) :
    2 ^ 52 ≤ rounded number accuracy ∧ rounded number accuracy ≤ 2 ^ 53 := by
  have bounds := roundedMantissa_bounds
    (ExtendedMantissa.ofMantissaAndAccuracy number accuracy >>> (number.log2 - 52))
  rcases bounds_of_log2 long with ⟨least, most⟩
  rw [mantissa_shiftRight] at bounds
  rw [pow_add] at least most
  have leastKept := (Nat.le_div_iff_mul_le (Nat.two_pow_pos (number.log2 - 52))).mpr least
  have mostKept := (Nat.div_lt_iff_lt_mul (Nat.two_pow_pos (number.log2 - 52))).mpr most
  exact ⟨leastKept.trans bounds.1, bounds.2.trans mostKept⟩

theorem shiftToTargetExponent_eq {number : Nat} (long : 52 ≤ number.log2) {exponent : Int}
    (low : -1074 ≤ exponent) (accuracy : Accuracy) :
    shiftToTargetExponent Format.binary64 number exponent accuracy =
      (ExtendedMantissa.ofMantissaAndAccuracy number accuracy >>> (number.log2 - 52),
        exponent + (number.log2 - 52 : Nat)) := by
  have target : Format.binary64.targetExponent (totalExponent number exponent) =
      exponent + (number.log2 - 52 : Nat) := by
    change max (number.log2 + 1 + exponent - 53) (-1074 : Int) = _
    omega
  have places : (exponent + (number.log2 - 52 : Nat) - exponent).toNat = number.log2 - 52 := by
    omega
  unfold shiftToTargetExponent shiftToExponent
  simp only [target, places]

/-- A rounded number is a double.  Its mantissa is what the number is rounded to, unless that
needs one bit more, which then goes into the exponent. -/
theorem exists_rounded {number : Nat} (long : 52 ≤ number.log2) {exponent : Int}
    (low : -1074 ≤ exponent) (high : exponent + number.log2 ≤ 1000) (accuracy : Accuracy) :
    ∃ double : Double,
      roundWithAccuracy Format.binary64 .positive number exponent accuracy = double.unpacked ∧
      (double.mantissa = rounded number accuracy ∧
          double.exponent = exponent + (number.log2 - 52 : Nat) ∨
        double.mantissa = 2 ^ 52 ∧ rounded number accuracy = 2 ^ 53 ∧
          double.exponent = exponent + (number.log2 - 52 : Nat) + 1) := by
  rcases rounded_bounds long accuracy with ⟨least, most⟩
  have positive : rounded number accuracy ≠ 0 := ((Nat.two_pow_pos 52).trans_le least).ne'
  have longToo : 52 ≤ (rounded number accuracy).log2 := (Nat.le_log2 positive).mpr least
  have lowToo : -1074 ≤ exponent + (number.log2 - 52 : Nat) := by omega
  have result : roundWithAccuracy Format.binary64 .positive number exponent accuracy =
      if zero : rounded number accuracy / 2 ^ ((rounded number accuracy).log2 - 52) = 0 then
        .zero .positive
      else .finite .positive (rounded number accuracy / 2 ^ ((rounded number accuracy).log2 - 52))
        (exponent + (number.log2 - 52 : Nat) + ((rounded number accuracy).log2 - 52 : Nat))
        (Nat.pos_of_ne_zero zero) := by
    have second := shiftToTargetExponent_eq longToo lowToo .exact
    unfold rounded at second
    unfold roundWithAccuracy
    simp only [shiftToTargetExponent_eq long low, second, mantissa_shiftRight]
    rfl
  rw [result]
  rcases Nat.lt_or_eq_of_le most with short | exceeds
  · have full : (rounded number accuracy).log2 = 52 := (Nat.log2_eq_iff positive).mpr ⟨least, short⟩
    refine ⟨⟨rounded number accuracy, exponent + (number.log2 - 52 : Nat), full, lowToo, by omega⟩,
      ?_, Or.inl ⟨rfl, rfl⟩⟩
    simp only [full, Nat.sub_self, Nat.pow_zero, Nat.div_one, dif_neg positive]
    unfold unpacked
    congr 1
    exact Int.add_zero _
  · refine ⟨⟨2 ^ 52, exponent + (number.log2 - 52 : Nat) + 1, Nat.log2_two_pow, by omega, by omega⟩,
      ?_, Or.inr ⟨rfl, exceeds, rfl⟩⟩
    simp only [exceeds, Nat.log2_two_pow]
    rfl

/-- A double is rounded to itself. -/
theorem roundWithAccuracy_unpacked (double : Double) (bounded : double.exponent ≤ 900) :
    roundWithAccuracy Format.binary64 .positive double.mantissa double.exponent .exact =
      double.unpacked := by
  have full := double.full
  have same : rounded double.mantissa .exact = double.mantissa := by
    unfold rounded
    rw [full]
    rfl
  rcases exists_rounded full.ge double.low (by omega) .exact with ⟨other, result, kept⟩
  rw [result]
  rcases kept with ⟨mantissa, exponent⟩ | ⟨_, exceeds, _⟩
  · unfold unpacked
    congr 1
    · rw [mantissa, same]
    · omega
  · exact absurd (same.symm.trans exceeds) double.bounds.2.ne

/-! ## Nearest doubles -/

/-- A double in units of `2 ^ (-104)`. -/
def scaled (double : Double) : Nat :=
  double.mantissa * 2 ^ (double.exponent + 104).toNat

/-- A value to which a number can be rounded.  The places that are not kept are as many as the
number has beyond 53. -/
def Nearest (number value : Nat) : Prop :=
  ∃ places, 2 ^ (52 + places) ≤ number ∧ number < 2 ^ (53 + places) ∧
    2 ^ (52 + places) ≤ value ∧ value ≤ 2 ^ (53 + places) ∧ 2 ^ places ∣ value ∧
    2 * value ≤ 2 * number + 2 ^ places ∧ 2 * number ≤ 2 * value + 2 ^ places

/-- Rounding keeps the order of numbers. -/
theorem Nearest.mono {first second value other : Nat} (nearest : Nearest first value)
    (nearestToo : Nearest second other) (less : first < second) : value ≤ other := by
  rcases nearest with ⟨places, least, most, leastValue, mostValue, whole, upper, lower⟩
  rcases nearestToo with
    ⟨placesToo, leastToo, mostToo, leastOther, mostOther, wholeToo, upperToo, lowerToo⟩
  have order : places ≤ placesToo := by
    by_contra shorter
    have crossed : 2 ^ (53 + placesToo) ≤ 2 ^ (52 + places) := Nat.pow_le_pow_right two_pos (by omega)
    omega
  rcases Nat.lt_or_eq_of_le order with longer | rfl
  -- There is a power of two between them.
  · have crossed : 2 ^ (53 + places) ≤ 2 ^ (52 + placesToo) := Nat.pow_le_pow_right two_pos (by omega)
    omega
  -- The values are multiples of one unit, so if they were swapped they would be a unit apart.
  · by_contra passed
    have gap : other + 2 ^ places ≤ value := by
      rcases whole with ⟨units, rfl⟩
      rcases wholeToo with ⟨unitsToo, rfl⟩
      rw [← Nat.mul_succ]
      apply Nat.mul_le_mul_left
      by_contra few
      exact passed (Nat.mul_le_mul_left _ (by omega))
    omega

theorem Nearest.mul_two_pow {number value : Nat} (nearest : Nearest number value) (more : Nat) :
    Nearest (number * 2 ^ more) (value * 2 ^ more) := by
  rcases nearest with ⟨places, least, most, leastValue, mostValue, whole, upper, lower⟩
  refine ⟨places + more, ?_⟩
  rw [← Nat.add_assoc, ← Nat.add_assoc, pow_add _ _ more, pow_add _ _ more, pow_add _ _ more,
    ← Nat.mul_assoc, ← Nat.mul_assoc, ← Nat.add_mul, ← Nat.add_mul]
  exact ⟨Nat.mul_le_mul_right _ least, Nat.mul_lt_mul_of_pos_right most (Nat.two_pow_pos more),
    Nat.mul_le_mul_right _ leastValue, Nat.mul_le_mul_right _ mostValue,
    Nat.mul_dvd_mul_right whole _, Nat.mul_le_mul_right _ upper, Nat.mul_le_mul_right _ lower⟩

theorem nearest_rounded {number : Nat} (long : 52 ≤ number.log2) :
    Nearest number (rounded number .exact * 2 ^ (number.log2 - 52)) := by
  rcases rounded_bounds long .exact with ⟨least, most⟩
  rcases bounds_of_log2 long with ⟨lower, upper⟩
  refine ⟨number.log2 - 52, lower, upper, ?_, ?_, Nat.dvd_mul_left _ _, (cutOff number _).nearest⟩
  · rw [pow_add]
    exact Nat.mul_le_mul_right _ least
  · rw [pow_add]
    exact Nat.mul_le_mul_right _ most

theorem exists_nearest {number : Nat} (long : 52 ≤ number.log2) {exponent : Int}
    (low : -104 ≤ exponent) (high : exponent + number.log2 ≤ 1000) :
    ∃ double : Double,
      roundWithAccuracy Format.binary64 .positive number exponent .exact = double.unpacked ∧
      Nearest (number * 2 ^ (exponent + 104).toNat) double.scaled ∧
      exponent + number.log2 ≤ double.exponent + 52 ∧
      double.exponent + 51 ≤ exponent + number.log2 := by
  rcases exists_rounded long (by omega) high .exact with ⟨double, result, kept⟩
  have nearest := (nearest_rounded long).mul_two_pow (exponent + 104).toNat
  have value : rounded number .exact * 2 ^ (number.log2 - 52) * 2 ^ (exponent + 104).toNat =
      double.scaled := by
    unfold scaled
    rw [Nat.mul_assoc, ← pow_add]
    rcases kept with ⟨mantissa, exponent⟩ | ⟨mantissa, exceeds, exponent⟩
    · rw [mantissa, exponent]
      congr 2
      omega
    · rw [mantissa, exceeds, exponent, ← pow_add, ← pow_add]
      congr 1
      omega
  exact ⟨double, result, value ▸ nearest, by omega, by omega⟩

/-! ## Counts -/

theorem log2_mul_two_pow {number : Nat} (positive : 0 < number) (places : Nat) :
    (number * 2 ^ places).log2 = number.log2 + places := by
  apply (Nat.log2_eq_iff (Nat.mul_pos positive (Nat.two_pow_pos places)).ne').mpr
  rw [show number.log2 + places + 1 = number.log2 + 1 + places by omega, pow_add, pow_add]
  exact ⟨Nat.mul_le_mul_right _ (Nat.log2_self_le positive.ne'),
    Nat.mul_lt_mul_of_pos_right Nat.lt_log2_self (Nat.two_pow_pos places)⟩

/-- A count of at most 53 bits is a double as it is. -/
def ofSmall (count : Nat) (positive : 0 < count) (small : count < 2 ^ 53) : Double where
  mantissa := count * 2 ^ (52 - count.log2)
  exponent := count.log2 - 52
  full := by
    have short := (Nat.log2_lt positive.ne').mpr small
    rw [log2_mul_two_pow positive]
    omega
  low := by omega
  high := by
    have short := (Nat.log2_lt positive.ne').mpr small
    omega

theorem unpacked_ofNat {count : Nat} (positive : 0 < count) (small : count < 2 ^ 53) :
    UnpackedFloat.ofNat Format.binary64 count = (ofSmall count positive small).unpacked := by
  have short := (Nat.log2_lt positive.ne').mpr small
  have target : Format.binary64.targetExponent (totalExponent count 0) = (count.log2 : Int) - 52 := by
    change max ((count.log2 : Int) + 1 + 0 - 53) (-1074) = _
    omega
  have places : (0 - ((count.log2 : Int) - 52)).toNat = 52 - count.log2 := by omega
  have raised : (0 : Int) - (52 - count.log2 : Nat) = (count.log2 : Int) - 52 := by omega
  have bounded : (ofSmall count positive small).exponent ≤ 900 := by
    change (count.log2 : Int) - 52 ≤ 900
    omega
  unfold UnpackedFloat.ofNat UnpackedFloat.ofInt UnpackedFloat.normalize
  rw [Int.compare_eq_gt.mpr (by omega)]
  unfold UnpackedFloat.round decreaseExponent
  simp only [Int.toNat_natCast, target, places, raised, Nat.shiftLeft_eq]
  exact (ofSmall count positive small).roundWithAccuracy_unpacked bounded

/-- A count that is a double is read through a product with one. -/
theorem unpack_toFloat_of_small {count : Nat} (positive : 0 < count) (small : count < 2 ^ 53) :
    count.toFloat.toModel.unpack = (Float.Model.pack (roundWithAccuracy Format.binary64 .positive
      (count * 2 ^ (52 - count.log2) * 2 ^ 52) ((count.log2 : Int) - 52 + -52) .exact)).unpack := by
  have one : Float.exactlyRepresentablePowersOfTen[0].toModel.unpack =
      .finite .positive (2 ^ 52) (-52) (Nat.two_pow_pos 52) := rfl
  have fits : count.toUInt64.toNat = count := by
    change count % 2 ^ 64 = count
    omega
  unfold Nat.toFloat Float.ofNat
  change (Float.ofScientific count false 0).toModel.unpack = _
  unfold Float.ofScientific
  rw [dif_pos ⟨small, by decide⟩]
  change (Float.Model.pack (UnpackedFloat.mul Format.binary64
    (Float.Model.pack (UnpackedFloat.ofNat Format.binary64 count.toUInt64.toNat)).unpack
    Float.exactlyRepresentablePowersOfTen[0].toModel.unpack)).unpack = _
  rw [one, fits, unpacked_ofNat positive small, unpack_pack]
  rfl

/-- A count that may not be one is rounded with more bits than it needs. -/
theorem unpack_toFloat_of_large {count : Nat} (large : 2 ^ 53 ≤ count) :
    count.toFloat.toModel.unpack = (Float.Model.pack (roundWithAccuracy Format.binary64 .positive
      (count * 2 ^ 53) (-53) .exact)).unpack := by
  have positive : count ≠ 0 := by omega
  have small : ¬ (0 : Int) < -(2 ^ 11 + count.log2) := by omega
  have product : UnpackedFloat.ofScientific Format.binary64 count 0 =
      roundWithAccuracy Format.binary64 .positive (count <<< 53 * 1) (-53 + 0) .exact := by
    unfold UnpackedFloat.ofScientific
    rw [dif_neg positive, if_neg, if_neg small, if_pos (Int.le_refl 0)]
    · rfl
    · change ¬ (2 ^ 11 : Int) < 0
      omega
  unfold Nat.toFloat Float.ofNat
  change (Float.ofScientific count false 0).toModel.unpack = _
  unfold Float.ofScientific
  rw [dif_neg fun small => small.1.not_ge large]
  change (Float.Model.pack (UnpackedFloat.ofScientific Format.binary64 count 0)).unpack = _
  rw [product, Nat.mul_one, Nat.shiftLeft_eq, Int.add_zero]

/-- A count becomes a double next to it. -/
theorem exists_toFloat {count : Nat} (positive : 0 < count) (fits : count ≤ 2 ^ 64) :
    ∃ double : Double, count.toFloat.toModel.unpack = double.unpacked ∧
      Nearest (count * 2 ^ 104) double.scaled ∧ -52 ≤ double.exponent ∧ double.exponent ≤ 13 := by
  have short : count.log2 < 65 := (Nat.log2_lt positive.ne').mpr (by omega)
  by_cases small : count < 2 ^ 53
  · have brief := (Nat.log2_lt positive.ne').mpr small
    have length : (count * 2 ^ (52 - count.log2) * 2 ^ 52).log2 = 104 := by
      rw [Nat.mul_assoc, ← pow_add, log2_mul_two_pow positive]
      omega
    have value : count * 2 ^ (52 - count.log2) * 2 ^ 52 *
        2 ^ ((count.log2 : Int) - 52 + -52 + 104).toNat = count * 2 ^ 104 := by
      rw [Nat.mul_assoc, Nat.mul_assoc, ← pow_add, ← pow_add]
      congr 2
      omega
    have long : 52 ≤ (count * 2 ^ (52 - count.log2) * 2 ^ 52).log2 := by omega
    rcases exists_nearest long (by omega : -104 ≤ (count.log2 : Int) - 52 + -52) (by omega) with
      ⟨double, result, nearest, least, most⟩
    rw [length] at least most
    refine ⟨double, ?_, value ▸ nearest, by omega, by omega⟩
    rw [unpack_toFloat_of_small positive small, result, unpack_pack]
  · have length : (count * 2 ^ 53).log2 = count.log2 + 53 := log2_mul_two_pow positive 53
    have value : count * 2 ^ 53 * 2 ^ ((-53 : Int) + 104).toNat = count * 2 ^ 104 := by
      rw [Nat.mul_assoc, ← pow_add]
      rfl
    have long : 52 ≤ (count * 2 ^ 53).log2 := by omega
    rcases exists_nearest long (by decide : (-104 : Int) ≤ -53) (by omega) with
      ⟨double, result, nearest, least, most⟩
    rw [length] at least most
    refine ⟨double, ?_, value ▸ nearest, by omega, by omega⟩
    rw [unpack_toFloat_of_large (Nat.not_lt.mp small), result, unpack_pack]

/-! ## Order -/

/-- One double is no larger than another. -/
def AtMost (first second : Double) : Prop :=
  first.exponent < second.exponent ∨
    first.exponent = second.exponent ∧ first.mantissa ≤ second.mantissa

theorem atMost_of_scaled {first second : Double} (low : -104 ≤ first.exponent)
    (lowToo : -104 ≤ second.exponent) (scaled : first.scaled ≤ second.scaled) :
    first.AtMost second := by
  rcases Int.lt_trichotomy first.exponent second.exponent with less | same | more
  · exact Or.inl less
  · refine Or.inr ⟨same, ?_⟩
    unfold Double.scaled at scaled
    rw [same] at scaled
    exact Nat.le_of_mul_le_mul_right scaled (Nat.two_pow_pos _)
  · have crossed : second.scaled < first.scaled :=
      calc second.mantissa * 2 ^ (second.exponent + 104).toNat
        _ < 2 ^ 53 * 2 ^ (second.exponent + 104).toNat :=
          Nat.mul_lt_mul_of_pos_right second.bounds.2 (Nat.two_pow_pos _)
        _ = 2 ^ 52 * 2 ^ ((second.exponent + 104).toNat + 1) := by rw [pow_succ]; omega
        _ ≤ 2 ^ 52 * 2 ^ (first.exponent + 104).toNat :=
          Nat.mul_le_mul_left _ (Nat.pow_le_pow_right two_pos (by omega))
        _ ≤ first.mantissa * 2 ^ (first.exponent + 104).toNat :=
          Nat.mul_le_mul_right _ first.bounds.1
    exact absurd scaled crossed.not_ge

/-- A double that is at most one. -/
def AtMostOne (double : Double) : Prop :=
  double.exponent < -52 ∨ double.exponent = -52 ∧ double.mantissa ≤ 2 ^ 52

theorem zero_lt {number : Float} {double : Double}
    (reads : number.toModel.unpack = double.unpacked) : 0 < number := by
  have less : UnpackedFloat.lt (0 : Float).toModel.unpack number.toModel.unpack = true := by
    rw [reads]
    rfl
  exact decide_eq_true less

theorem le_one {number : Float} {double : Double} (reads : number.toModel.unpack = double.unpacked)
    (atMost : double.AtMostOne) : number ≤ 1 := by
  have order :
      ((compare double.exponent (-52)).then (compare double.mantissa (2 ^ 52))).isLE = true := by
    rw [Ordering.isLE_then_iff_or, Int.compare_eq_lt, Int.compare_eq_eq, Nat.isLE_compare]
    exact atMost
  have ordered : UnpackedFloat.le number.toModel.unpack (1 : Float).toModel.unpack = true := by
    rw [reads]
    exact order
  exact decide_eq_true ordered

/-! ## Quotients -/

/-- A number below one is rounded to at most one. -/
theorem exists_atMostOne {number : Nat} (long : 52 ≤ number.log2) {exponent : Int}
    (low : -1074 ≤ exponent) (small : exponent + number.log2 < 0) (accuracy : Accuracy) :
    ∃ double : Double,
      roundWithAccuracy Format.binary64 .positive number exponent accuracy = double.unpacked ∧
      double.AtMostOne := by
  rcases exists_rounded long low (by omega) accuracy with ⟨double, result, kept⟩
  refine ⟨double, result, ?_⟩
  unfold AtMostOne
  rcases kept with ⟨_, exponent⟩ | ⟨mantissa, _, exponent⟩
  · exact Or.inl (by omega)
  · rw [mantissa]
    omega

theorem div_unpacked {part whole : Double} (low : -52 ≤ part.exponent)
    (high : whole.exponent ≤ 13) :
    UnpackedFloat.div Format.binary64 part.unpacked whole.unpacked =
      roundWithAccuracy Format.binary64 .positive (part.mantissa * 2 ^ 53 / whole.mantissa)
        (part.exponent - whole.exponent - 53)
        (accuracyOfFraction (part.mantissa * 2 ^ 53 % whole.mantissa) whole.mantissa) := by
  have target : min (part.exponent - whole.exponent) (Format.binary64.targetExponent
      (totalExponent part.mantissa part.exponent - totalExponent whole.mantissa whole.exponent)) =
      part.exponent - whole.exponent - 53 := by
    unfold totalExponent
    rw [part.full, whole.full]
    change min _ (max ((52 + 1 + part.exponent - (52 + 1 + whole.exponent) : Int) - 53) (-1074)) = _
    omega
  have places :
      (part.exponent - whole.exponent - (part.exponent - whole.exponent - 53)).toNat = 53 := by
    omega
  have divided : divCore Format.binary64 part.mantissa part.exponent whole.mantissa whole.exponent =
      (part.mantissa * 2 ^ 53 / whole.mantissa, part.exponent - whole.exponent - 53,
        accuracyOfFraction (part.mantissa * 2 ^ 53 % whole.mantissa) whole.mantissa) := by
    unfold divCore
    simp only [target, places, Nat.shiftLeft_eq]
  unfold UnpackedFloat.div unpacked
  simp only [divided]
  rfl

/-- A double divided by one that is no smaller gives at most one. -/
theorem exists_quotient {part whole : Double} (atMost : part.AtMost whole)
    (low : -52 ≤ part.exponent) (high : whole.exponent ≤ 13) :
    ∃ double : Double,
      UnpackedFloat.div Format.binary64 part.unpacked whole.unpacked = double.unpacked ∧
      double.AtMostOne := by
  rcases part.bounds with ⟨leastPart, mostPart⟩
  rcases whole.bounds with ⟨leastWhole, mostWhole⟩
  rw [div_unpacked low high]
  have least : 2 ^ 52 ≤ part.mantissa * 2 ^ 53 / whole.mantissa := by
    apply (Nat.le_div_iff_mul_le whole.positive).mpr
    calc 2 ^ 52 * whole.mantissa
      _ ≤ 2 ^ 52 * 2 ^ 53 := Nat.mul_le_mul_left _ mostWhole.le
      _ ≤ part.mantissa * 2 ^ 53 := Nat.mul_le_mul_right _ leastPart
  have positive : part.mantissa * 2 ^ 53 / whole.mantissa ≠ 0 := by omega
  have long : 52 ≤ (part.mantissa * 2 ^ 53 / whole.mantissa).log2 := (Nat.le_log2 positive).mpr least
  have short (bits : Nat) (bounded : part.mantissa * 2 ^ 53 < 2 ^ bits * whole.mantissa) :
      (part.mantissa * 2 ^ 53 / whole.mantissa).log2 < bits :=
    (Nat.log2_lt positive).mpr ((Nat.div_lt_iff_lt_mul whole.positive).mpr bounded)
  rcases atMost with less | ⟨same, mantissa⟩
  · have bits := short 54 (by omega)
    exact exists_atMostOne long (by omega) (by omega) _
  · rcases Nat.lt_or_eq_of_le mantissa with less | equal
    · have bits := short 53 (by omega)
      exact exists_atMostOne long (by omega) (by omega) _
    -- Equal doubles have the quotient one, which needs no rounding.
    · have nothing : accuracyOfFraction 0 whole.mantissa = .exact := if_pos rfl
      rw [same, equal, Nat.mul_div_cancel_left _ whole.positive, Nat.mul_mod_right, Int.sub_self,
        nothing]
      exact ⟨⟨2 ^ 52, -52, Nat.log2_two_pow, by decide, by decide⟩, rfl, Or.inr ⟨rfl, Nat.le_refl _⟩⟩

end Double

/-- The ratio of a part of a count to the whole lies between zero and one as a double too. -/
theorem ratio_pos_le_one {part whole : Nat} (positive : 0 < part) (most : part ≤ whole)
    (fits : whole ≤ 2 ^ 64) : 0 < ratio part whole ∧ ratio part whole ≤ 1 := by
  have wholePositive := positive.trans_le most
  rcases Double.exists_toFloat positive (most.trans fits) with ⟨first, reads, nearest, low, _⟩
  rcases Double.exists_toFloat wholePositive fits with ⟨second, readsToo, nearestToo, lowToo, high⟩
  have atMost : first.AtMost second := by
    apply Double.atMost_of_scaled (by omega) (by omega)
    rcases Nat.lt_or_eq_of_le most with less | rfl
    · exact nearest.mono nearestToo (Nat.mul_lt_mul_of_pos_right less (Nat.two_pow_pos 104))
    · rcases UnpackedFloat.finite.inj (reads.symm.trans readsToo) with ⟨_, mantissa, exponent⟩
      unfold Double.scaled
      rw [mantissa, exponent]
  rcases Double.exists_quotient atMost low high with ⟨quotient, divided, atMostOne⟩
  have result : (ratio part whole).toModel.unpack = quotient.unpacked := by
    unfold ratio
    rw [if_neg wholePositive.ne']
    change (Float.Model.pack (UnpackedFloat.div Format.binary64 part.toFloat.toModel.unpack
      whole.toFloat.toModel.unpack)).unpack = _
    rw [reads, readsToo, divided, Double.unpack_pack]
  exact ⟨Double.zero_lt result, Double.le_one result atMostOne⟩

end AdaptiveRadix
