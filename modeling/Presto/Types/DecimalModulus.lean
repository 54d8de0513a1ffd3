import Presto.Types.DecimalOperators

/-!
# Modulus of SQL decimals

The remainder is what a division of the operands at the larger scale leaves.  The
division also packs and checks the quotient, which nobody asked for.
-/

namespace Presto.Types

open Support Int

namespace UnscaledDecimal128

/-! ## The operator -/

def isZero (decimal : UnscaledDecimal128) : Bool :=
  decimal.lowLong == 0 && decimal.highLong == 0

/-- The long of a decimal that fits one. -/
def unscaledDecimalToUnscaledLong (decimal : UnscaledDecimal128) : Result Int64 :=
  if decimal.highLong ≠ 0 ∨
      (decimal.lowLong ≠ 2 ^ 63 ∨ ¬decimal.isNegative) ∧ 2 ^ 63 ≤ decimal.lowLong then
    .error overflowException
  else .ok decimal.unscaledDecimalToUnscaledLongUnsafe

def remainder (dividend : Operand) (dividendScaleFactor : ℕ) (divisor : Operand)
    (divisorScaleFactor : ℕ) : Result UnscaledDecimal128 := do
  let result ← divide dividend.raw dividendScaleFactor divisor.raw divisorScaleFactor
  pure result.2

end UnscaledDecimal128

namespace DecimalOperators

open UnscaledDecimal128 DecimalToDecimalCasts

/-- `divisor == 0` for a long, `isZero(divisor)` for a slice. -/
def isZeroDivisor : Operand → Bool
  | .long value => value == 0
  | .slice decimal => decimal.isZero

variable (a b : DecimalType)

/-- The type that the operator declares for its result. -/
def modulusResultType : DecimalType where
  precision := min (b.precision - b.scale) (a.precision - a.scale) + max a.scale b.scale
  scale := max a.scale b.scale
  precision_pos := by
    have ha := a.precision_pos
    have hb := b.precision_pos
    omega
  precision_le := by
    have ha := a.precision_le
    have hb := b.precision_le
    have hascale := a.scale_le
    have hbscale := b.scale_le
    omega
  scale_le := Nat.le_add_left _ _

def modulusRescaleParameters : ℕ × ℕ :=
  (rescaleFactor a.scale b.scale, rescaleFactor b.scale a.scale)

/-- The six methods `modulusShortShortShort` to `modulusLongLongLong`, which differ in the
kinds of their operands and of their result. -/
def modulus (shortResult : Bool) (dividend divisor : Operand)
    (dividendRescaleFactor divisorRescaleFactor : ℕ) : Result Operand :=
  if isZeroDivisor divisor then .error (.prestoException .divisionByZero "Division by zero")
  else catchArithmetic do
    let result ← remainder dividend dividendRescaleFactor divisor divisorRescaleFactor
    if shortResult then
      let value ← result.unscaledDecimalToUnscaledLong
      pure (.long value)
    else pure (.slice result)

/-- The method for the types, with its extra parameters. -/
def decimalModulusOperator (dividend divisor : Operand) : Result Operand :=
  let (dividendRescaleFactor, divisorRescaleFactor) := modulusRescaleParameters a b
  modulus (modulusResultType a b).isShort dividend divisor dividendRescaleFactor
    divisorRescaleFactor

/-! ## The contract -/

/-- The operator returns the truncated remainder at the scale of the result, which has the
sign of the dividend and is smaller than the divisor. -/
def ModulusExact (dividend divisor : Operand) : Prop :=
  let x := dividend.value * 10 ^ ((modulusResultType a b).scale - a.scale)
  let y := divisor.value * 10 ^ ((modulusResultType a b).scale - b.scale)
  ∃ result, decimalModulusOperator a b dividend divisor = .ok result ∧
    result.value = x.tmod y ∧ (x.tmod y).natAbs < y.natAbs ∧ 0 ≤ x * x.tmod y

/-- Neither operand is scaled by `10 ^ 38`, and the quotient has at most 38 digits. -/
def DividesInRange (dividend divisor : ℤ) : Prop :=
  b.scale - a.scale < 38 ∧ a.scale - b.scale < 38 ∧
    dividend.natAbs * 10 ^ (b.scale - a.scale) / (divisor.natAbs * 10 ^ (a.scale - b.scale)) <
      10 ^ 38

/-! ## Remainders -/

theorem isZeroDivisor_iff (operand : Operand) :
    isZeroDivisor operand = true ↔ operand.value = 0 := by
  cases operand with
  | long value =>
      rw [isZeroDivisor, beq_iff_eq, ← Int64.toInt_inj]
      rfl
  | slice decimal =>
      rw [isZeroDivisor, isZero, Operand.value, ← natAbs_eq_zero, natAbs_toBigInteger,
        magnitude, Bool.and_eq_true, beq_iff_eq, beq_iff_eq]
      omega

theorem tmod_natCast (n : ℕ) (y : ℤ) : (n : ℤ).tmod y = (n % y.natAbs : ℕ) := by
  rw [tmod_eq_emod_of_nonneg (natCast_nonneg n), ← emod_abs,
    ← natCast_natAbs, natCast_mod]

theorem mul_tmod_nonneg (x y : ℤ) : 0 ≤ x * x.tmod y := by
  obtain ⟨n, rfl | rfl⟩ := Int.eq_nat_or_neg x
  · rw [tmod_natCast]
    positivity
  · rw [neg_tmod, tmod_natCast, neg_mul_neg]
    positivity

/-- The remainder of the magnitudes with the sign of the dividend is the truncated one. -/
theorem toBigInteger_eq_tmod {dividend result : UnscaledDecimal128} {y : ℤ} {k : ℕ}
    (h : Signed (dividend.magnitude * 10 ^ k % y.natAbs) dividend.isNegative result) :
    result.toBigInteger = (dividend.toBigInteger * 10 ^ k).tmod y := by
  have hmod : ((dividend.magnitude : ℤ) * 10 ^ k).tmod y =
      (dividend.magnitude * 10 ^ k % y.natAbs : ℕ) := by
    rw [← tmod_natCast]
    rfl
  rw [toBigInteger, toBigInteger, h.1, h.2]
  cases dividend.isNegative with
  | true => rw [if_pos rfl, if_pos rfl, neg_mul, neg_tmod, hmod]
  | false => rw [if_neg (by simp), if_neg (by simp), hmod]

theorem unscaledDecimalToUnscaledLong_spec
    {decimal : UnscaledDecimal128} (h : decimal.magnitude < 10 ^ 18) :
    ∃ value, decimal.unscaledDecimalToUnscaledLong = .ok value ∧
      value.toInt = decimal.toBigInteger := by
  refine ⟨_, if_neg ?_, toInt_unscaledLongUnsafe ?_⟩
  · rw [magnitude] at h
    omega
  · rw [abs_eq_natAbs, natAbs_toBigInteger]
    omega

section Operator

variable {a b : DecimalType}

/-- The remainder has the digits of the result type. -/
theorem mod_lt_modulusResultType
    {x y : ℕ} (hx : x < 10 ^ a.precision) (hy : y < 10 ^ b.precision) (hpos : 0 < y) :
    x * 10 ^ (b.scale - a.scale) % (y * 10 ^ (a.scale - b.scale)) <
      10 ^ (modulusResultType a b).precision := by
  have hprecision : (modulusResultType a b).precision =
      min (a.precision + (b.scale - a.scale)) (b.precision + (a.scale - b.scale)) := by
    have ha := a.scale_le
    have hb := b.scale_le
    change min _ _ + max _ _ = _
    omega
  rw [hprecision, (pow_right_mono₀ (by norm_num)).map_min, lt_min_iff, pow_add, pow_add]
  constructor
  · exact (Nat.mod_le _ _).trans_lt (Nat.mul_lt_mul_of_pos_right hx (by positivity))
  · exact (Nat.mod_lt _ (by positivity)).trans_le (Nat.mul_le_mul_right _ hy.le)

variable {dividend divisor : Operand} (hne : divisor.value ≠ 0)
include hne

theorem decimalModulusOperator_eq :
    decimalModulusOperator a b dividend divisor = catchArithmetic (do
      let result ← remainder dividend (b.scale - a.scale) divisor (a.scale - b.scale)
      if (modulusResultType a b).isShort then
        let value ← result.unscaledDecimalToUnscaledLong
        pure (.long value)
      else pure (.slice result)) :=
  if_neg (mt (isZeroDivisor_iff divisor).mp hne)

theorem not_modulusExact
    (h : divide dividend.raw (b.scale - a.scale) divisor.raw (a.scale - b.scale) =
      .error overflowException) : ¬ModulusExact a b dividend divisor := by
  rintro ⟨result, hresult, -⟩
  rw [decimalModulusOperator_eq hne, remainder, h] at hresult
  cases hresult

theorem exists_modulus {result : UnscaledDecimal128 × UnscaledDecimal128}
    (h : divide dividend.raw (b.scale - a.scale) divisor.raw (a.scale - b.scale) = .ok result)
    (hlt : result.2.magnitude < 10 ^ (modulusResultType a b).precision) :
    ∃ modulus, decimalModulusOperator a b dividend divisor = .ok modulus ∧
      modulus.value = result.2.toBigInteger := by
  have hremainder : remainder dividend (b.scale - a.scale) divisor (a.scale - b.scale) =
      .ok result.2 := by
    rw [remainder, h]
    rfl
  rw [decimalModulusOperator_eq hne, hremainder, Result.bind_ok]
  by_cases hshort : (modulusResultType a b).isShort = true
  · have hle := Nat.pow_le_pow_right (n := 10) (by norm_num) (of_decide_eq_true hshort)
    obtain ⟨value, hvalue, hlong⟩ := unscaledDecimalToUnscaledLong_spec (hlt.trans_le hle)
    rw [if_pos hshort, hvalue]
    exact ⟨.long value, rfl, hlong⟩
  · rw [if_neg hshort]
    exact ⟨.slice result.2, rfl, rfl⟩

omit hne in
/-- The modulus of SQL decimals returns the truncated remainder exactly when neither operand
is scaled by `10 ^ 38` and the quotient has at most 38 digits. -/
theorem modulus_exact_iff
    (a b : DecimalType) (dividend divisor : Operand)
    (hdividend : dividend.value.natAbs < 10 ^ a.precision)
    (hdivisor : divisor.value.natAbs < 10 ^ b.precision) (hne : divisor.value ≠ 0) :
    ModulusExact a b dividend divisor ↔
      DividesInRange a b dividend.value divisor.value := by
  have hu := natAbs_toBigInteger dividend.raw
  have hv := natAbs_toBigInteger divisor.raw
  rw [Operand.toBigInteger_raw] at hu hv
  by_cases hscales : b.scale - a.scale < 38 ∧ a.scale - b.scale < 38
  · have hpos : 0 < divisor.value.natAbs := Int.natAbs_pos.mpr hne
    have hmod := mod_lt_modulusResultType hdividend hdivisor hpos
    have hmax : (10 : ℕ) ^ (modulusResultType a b).precision ≤ 10 ^ 38 :=
      Nat.pow_le_pow_right (by norm_num) (modulusResultType a b).precision_le
    have hdivide := divide_spec dividend.raw divisor.raw hscales.1 hscales.2 (hv ▸ hpos) rfl rfl
    rw [← hu, ← hv, SucceedsBelow] at hdivide
    split at hdivide
    next hlt =>
      obtain ⟨result, hresult, -, hremainder⟩ := hdivide
      refine iff_of_true ?_ ⟨hscales.1, hscales.2, (le_max_left _ _).trans_lt hlt⟩
      obtain ⟨modulus, hmodulus, hvalue⟩ :=
        exists_modulus hne hresult (hremainder.1.trans_lt hmod)
      rw [hu, ← natAbs_mul_ten_pow] at hremainder
      rw [toBigInteger_eq_tmod hremainder, Operand.toBigInteger_raw] at hvalue
      have hscale : (modulusResultType a b).scale = max a.scale b.scale := rfl
      refine ⟨modulus, hmodulus, ?_, ?_, mul_tmod_nonneg _ _⟩
      · rw [hvalue]
        congr 3 <;> omega
      · rw [Int.natAbs_tmod, natAbs_mul_ten_pow divisor.value]
        exact Nat.mod_lt _ (Nat.mul_pos hpos (by positivity))
    next hge =>
      refine iff_of_false (not_modulusExact hne hdivide) fun hrange => hge ?_
      exact max_lt hrange.2.2 (hmod.trans_le hmax)
  · refine iff_of_false (not_modulusExact hne ?_) fun hrange => hscales ⟨hrange.1, hrange.2.1⟩
    have hzero : ¬UnscaledDecimal128.compare divisor.raw zero = .eq := by
      rw [compare_zero_iff, ← hv]
      exact Int.natAbs_ne_zero.mpr hne
    rw [divide, if_neg hzero]
    by_cases hdividendScale : b.scale - a.scale < 38
    · rw [if_neg (by omega), if_pos (by omega)]
    · rw [if_pos (by omega)]

end Operator

theorem modulus_twoDigits_exact_iff :
    let a : DecimalType := ⟨2, 1, by decide, by decide, by decide⟩
    ModulusExact a a (.long 25) (.long 3) ↔ DividesInRange a a 25 3 :=
  modulus_exact_iff _ _ (.long 25) (.long 3) (by decide) (by decide) (by decide)

/-- The remainder of `1e37` by `0.1` is zero, and the operator overflows. -/
theorem modulus_tenTo37_not_exact :
    ¬ModulusExact ⟨38, 0, by decide, by decide, by decide⟩ ⟨1, 1, by decide, by decide, by decide⟩
      (.slice (powerOfTen 37)) (.long 1) := by
  rintro ⟨result, hresult, -⟩
  have hthrows : (decimalModulusOperator ⟨38, 0, by decide, by decide, by decide⟩
      ⟨1, 1, by decide, by decide, by decide⟩ (.slice (powerOfTen 37)) (.long 1)).toBool =
      false := by
    decide +kernel
  rw [hresult] at hthrows
  cases hthrows

end DecimalOperators
end Presto.Types
