import Presto.Types.DecimalAddition
import Presto.Types.DecimalProducts
import Presto.Types.DecimalToDecimalCasts

/-!
# Operators of SQL decimals

Addition and subtraction bring both operands to the larger scale.  Between short types with a
short result all operators compute with longs, otherwise one operand is rescaled as a slice
and the sum or difference is checked against `10 ^ 38`.
-/

namespace Presto.Types

open Support

namespace DecimalOperators

open UnscaledDecimal128 DecimalToDecimalCasts

/-! ## The operators -/

/-- `max(0, toScale - fromScale)`. -/
def rescaleFactor (fromScale toScale : ℕ) : ℕ := toScale - fromScale

/-- The type that both operators declare for their result. -/
def resultType (a b : DecimalType) : DecimalType where
  precision := min 38
    (max (a.precision - a.scale) (b.precision - b.scale) + max a.scale b.scale + 1)
  scale := max a.scale b.scale
  precision_pos := by omega
  precision_le := by omega
  scale_le := by
    have ha := a.scale_le.trans a.precision_le
    have hb := b.scale_le.trans b.precision_le
    omega

def calculateShortRescaleParameters (a b : DecimalType) : Result (Int64 × Int64) := do
  let aRescale ← Decimals.longTenToNth (rescaleFactor a.scale b.scale)
  let bRescale ← Decimals.longTenToNth (rescaleFactor b.scale a.scale)
  pure (aRescale, bRescale)

def calculateLongRescaleParameters (a b : DecimalType) : Result (ℕ × Bool) :=
  let aRescale := rescaleFactor a.scale b.scale
  let bRescale := rescaleFactor b.scale a.scale
  if aRescale = 0 then .ok (bRescale, false)
  else if bRescale = 0 then .ok (aRescale, true)
  else .error (.illegalState "")

def addShortShortShort (a b aRescale bRescale : Int64) : Int64 := a * aRescale + b * bRescale

def subtractShortShortShort (a b aRescale bRescale : Int64) : Int64 :=
  a * aRescale - b * bRescale

/-- One operand is rescaled and combined with the other one. -/
def combineRescaled (decimal : UnscaledDecimal128) (rescale : ℕ)
    (combine : UnscaledDecimal128 → Result UnscaledDecimal128) : Result UnscaledDecimal128 :=
  catchArithmetic do
    let rescaled ← decimal.rescale rescale
    let result ← combine rescaled
    result.throwIfOverflows
    pure result

def internalAddLongLongLong (a b : UnscaledDecimal128) (rescale : ℕ) (rescaleLeft : Bool) :
    Result UnscaledDecimal128 :=
  if rescaleLeft then combineRescaled a rescale fun left => add left b
  else combineRescaled b rescale fun left => add left a

def internalSubtractLongLongLong (a b : UnscaledDecimal128) (rescale : ℕ)
    (rescaleLeft : Bool) : Result UnscaledDecimal128 :=
  if rescaleLeft then combineRescaled a rescale fun tmp => subtract tmp b
  else combineRescaled b rescale fun tmp => subtract a tmp

/-- The implementations of an operator, for longs and for slices. -/
structure Implementations where
  shortShortShort : Int64 → Int64 → Int64 → Int64 → Int64
  internalLongLongLong :
    UnscaledDecimal128 → UnscaledDecimal128 → ℕ → Bool → Result UnscaledDecimal128

def decimalAddOperator : Implementations := ⟨addShortShortShort, internalAddLongLongLong⟩

def decimalSubtractOperator : Implementations :=
  ⟨subtractShortShortShort, internalSubtractLongLongLong⟩

/-- The slice that the methods for short operands pass on. -/
def toSlice : Operand → UnscaledDecimal128
  | .long value => ofLong value
  | .slice decimal => decimal

/-- The implementation for the operands and the result, with its extra parameters. -/
def Implementations.apply (operator : Implementations) (a b : DecimalType)
    (left right : Operand) : Result Operand :=
  match left, right, (resultType a b).isShort with
  | .long x, .long y, true => do
      let (aRescale, bRescale) ← calculateShortRescaleParameters a b
      pure (.long (operator.shortShortShort x y aRescale bRescale))
  | _, _, _ => do
      let (rescale, rescaleLeft) ← calculateLongRescaleParameters a b
      .slice <$> operator.internalLongLongLong (toSlice left) (toSlice right) rescale rescaleLeft

/-! ## The contract -/

/-- An operand at the scale of the result, or the result, has more than 38 digits. -/
def TooLarge (x y result : ℤ) : Prop :=
  10 ^ 38 ≤ x.natAbs ∨ 10 ^ 38 ≤ y.natAbs ∨ 10 ^ 38 ≤ result.natAbs

/-- The exact value is returned, or a number is too large. -/
def ExactOrTooLarge (x y exact : ℤ) : Result Operand → Prop
  | .ok result => result.value = exact
  | .error _ => TooLarge x y exact

/-- The operator computes the function of the operands at the scale of the result. -/
def Implementations.Exact (operator : Implementations) (exact : ℤ → ℤ → ℤ)
    (a b : DecimalType) (left right : Operand) : Prop :=
  let x := left.value * 10 ^ ((resultType a b).scale - a.scale)
  let y := right.value * 10 ^ ((resultType a b).scale - b.scale)
  ExactOrTooLarge x y (exact x y) (operator.apply a b left right)

/-! ## Slices -/

/-- The outcome is the value, or the power of ten is not in the table, or a number has more
than 38 digits. -/
def Combines (k : ℕ) (rescaled value : ℤ) (outcome : Result UnscaledDecimal128) : Prop :=
  (k < 38 ∧ ∃ result, outcome = .ok result ∧ result.toBigInteger = value) ∨
    (38 ≤ k ∨ 10 ^ 38 ≤ rescaled.natAbs ∨ 10 ^ 38 ≤ value.natAbs) ∧ ∃ e, outcome = .error e

theorem combineRescaled_combines
    (combine : UnscaledDecimal128 → Result UnscaledDecimal128) (exact : ℤ → ℤ)
    (hcombine : ∀ d : UnscaledDecimal128,
      ReturnsBelow (2 ^ 127) (exact d.toBigInteger) overflowException (combine d))
    (decimal : UnscaledDecimal128) (k : ℕ) :
    Combines k (decimal.toBigInteger * 10 ^ k) (exact (decimal.toBigInteger * 10 ^ k))
      (combineRescaled decimal k combine) := by
  rw [combineRescaled, rescale]
  rcases lt_or_ge k 38 with hk | hk
  · have hrescale := rescaleWith_returns scaleDownRoundUp decimal hk
    unfold ReturnsBelow at hrescale
    split at hrescale
    next =>
      obtain ⟨rescaled, hrescaled, hvalue⟩ := hrescale
      have hreturns := catchArithmetic_returns (hcombine rescaled)
      rw [hvalue, ReturnsBelow] at hreturns
      rw [hrescaled]
      split at hreturns
      next => exact Or.inl ⟨hk, hreturns⟩
      next hlarge => exact Or.inr ⟨Or.inr (Or.inr (not_lt.mp hlarge)), _, hreturns⟩
    next hlarge =>
      rw [hrescale]
      exact Or.inr ⟨Or.inr (Or.inl (by omega)), _, rfl⟩
  · rw [rescaleWith, if_neg (by omega), if_pos (by omega), if_pos (by omega)]
    exact Or.inr ⟨Or.inl hk, _, rfl⟩

theorem Combines.exactOrTooLarge_iff {k : ℕ} {d x y value : ℤ} {outcome : Result UnscaledDecimal128}
    (h : Combines k (d * 10 ^ k) value outcome) (hk : k ≤ 38)
    (hrescaled : 10 ^ 38 ≤ (d * 10 ^ k).natAbs → TooLarge x y value)
    (hzero : d = 0 → ¬TooLarge x y value) :
    ExactOrTooLarge x y value (.slice <$> outcome) ↔ ¬(k = 38 ∧ d = 0) := by
  rcases h with ⟨hlt, result, rfl, hvalue⟩ | ⟨hlarge, e, rfl⟩
  · exact iff_of_true hvalue fun hmax => by omega
  · refine ⟨fun htoo hmax => hzero hmax.2 htoo, fun hnot => ?_⟩
    rcases hlarge with hmax | hlarge | hlarge
    · obtain rfl : k = 38 := le_antisymm hk hmax
      exact hrescaled (by omega)
    · exact hrescaled hlarge
    · exact Or.inr (Or.inr hlarge)

/-! ## Both operators -/

/-- The function that an operator computes with longs and with slices. -/
structure Implementations.Computes
    (operator : Implementations) (exact : ℤ → ℤ → ℤ) : Prop where
  short : ∀ x y p q : Int64, (x * p).toInt.natAbs < 10 ^ 18 → (y * q).toInt.natAbs < 10 ^ 18 →
    (operator.shortShortShort x y p q).toInt = exact (x * p).toInt (y * q).toInt
  rescaleLeft : ∀ (x y : UnscaledDecimal128) (k : ℕ),
    Combines k (x.toBigInteger * 10 ^ k) (exact (x.toBigInteger * 10 ^ k) y.toBigInteger)
      (operator.internalLongLongLong x y k true)
  rescaleRight : ∀ (x y : UnscaledDecimal128) (k : ℕ),
    Combines k (y.toBigInteger * 10 ^ k) (exact x.toBigInteger (y.toBigInteger * 10 ^ k))
      (operator.internalLongLongLong x y k false)
  zero : ∀ n, (exact 0 n).natAbs = n.natAbs ∧ (exact n 0).natAbs = n.natAbs

theorem decimalAddOperator_computes : decimalAddOperator.Computes (· + ·) where
  short x y p q hx hy :=
    (Int64.toInt_add _ _).trans (bmod_eq_self (by omega) (by omega))
  rescaleLeft x y k := combineRescaled_combines _ (· + _) (fun d => add_returns d y) x k
  rescaleRight x y k := by
    have h := combineRescaled_combines _ (· + _) (fun d => add_returns d x) y k
    rwa [add_comm] at h
  zero n := by simp

theorem decimalSubtractOperator_computes : decimalSubtractOperator.Computes (· - ·) where
  short x y p q hx hy :=
    (Int64.toInt_sub _ _).trans (bmod_eq_self (by omega) (by omega))
  rescaleLeft x y k :=
    combineRescaled_combines _ (· - _) (fun d => subtract_returns d y) x k
  rescaleRight x y k :=
    combineRescaled_combines _ (_ - ·) (fun d => subtract_returns x d) y k
  zero n := by simp

theorem toBigInteger_toSlice (operand : Operand) :
    (toSlice operand).toBigInteger = operand.value := by
  cases operand with
  | long value => exact toBigInteger_ofLong value
  | slice decimal => rfl

section Operator

variable {operator : Implementations} {exact : ℤ → ℤ → ℤ} (h : operator.Computes exact)
  {a b : DecimalType} {left right : Operand} (hleft : left.value.natAbs < 10 ^ a.precision)
  (hright : right.value.natAbs < 10 ^ b.precision)

include h hleft hright

/-- The operator on slices is exact but for zero operands that are scaled by `10 ^ 38`. -/
theorem slices_exactOrTooLarge_iff :
    ExactOrTooLarge (left.value * 10 ^ (b.scale - a.scale))
        (right.value * 10 ^ (a.scale - b.scale))
        (exact (left.value * 10 ^ (b.scale - a.scale)) (right.value * 10 ^ (a.scale - b.scale)))
        (do
          let (rescale, rescaleLeft) ← calculateLongRescaleParameters a b
          .slice <$> operator.internalLongLongLong (toSlice left) (toSlice right) rescale
            rescaleLeft) ↔
      ¬(ScalesZeroByTenTo38 a b left.value ∨ ScalesZeroByTenTo38 b a right.value) := by
  have ha := a.scale_le.trans a.precision_le
  have hb := b.scale_le.trans b.precision_le
  have hlt := hleft.trans_le (Nat.pow_le_pow_right (by norm_num) a.precision_le)
  have hrt := hright.trans_le (Nat.pow_le_pow_right (by norm_num) b.precision_le)
  unfold ScalesZeroByTenTo38
  rcases le_or_gt b.scale a.scale with hscale | hscale
  · have hparameters : calculateLongRescaleParameters a b =
        .ok (a.scale - b.scale, false) := by
      rw [calculateLongRescaleParameters, rescaleFactor, if_pos (by omega)]
      rfl
    have hcombines := h.rescaleRight (toSlice left) (toSlice right) (a.scale - b.scale)
    rw [toBigInteger_toSlice, toBigInteger_toSlice] at hcombines
    rw [hparameters, Result.bind_ok, Nat.sub_eq_zero_of_le hscale, pow_zero, mul_one,
      hcombines.exactOrTooLarge_iff (by omega) (fun hlarge => Or.inr (Or.inl hlarge))]
    · omega
    · intro hzero
      rw [TooLarge, hzero, zero_mul, (h.zero _).2]
      omega
  · have hparameters : calculateLongRescaleParameters a b = .ok (b.scale - a.scale, true) := by
      rw [calculateLongRescaleParameters, rescaleFactor, rescaleFactor, if_neg (by omega),
        if_pos (by omega)]
    have hcombines := h.rescaleLeft (toSlice left) (toSlice right) (b.scale - a.scale)
    rw [toBigInteger_toSlice, toBigInteger_toSlice] at hcombines
    rw [hparameters, Result.bind_ok, Nat.sub_eq_zero_of_le hscale.le, pow_zero, mul_one,
      hcombines.exactOrTooLarge_iff (by omega) Or.inl]
    · omega
    · intro hzero
      rw [TooLarge, hzero, zero_mul, (h.zero _).1]
      omega

omit h hleft hright

theorem natAbs_mul_ten_pow (x : ℤ) (k : ℕ) : (x * 10 ^ k).natAbs = x.natAbs * 10 ^ k := by
  rw [Int.natAbs_mul]
  rfl

theorem mul_lt_ten_pow {m n p q r : ℕ} (hm : m < 10 ^ p) (hn : n ≤ 10 ^ q) (hr : p + q ≤ r) :
    m * n < 10 ^ r :=
  calc m * n ≤ m * 10 ^ q := Nat.mul_le_mul_left m hn
    _ < 10 ^ p * 10 ^ q := Nat.mul_lt_mul_of_pos_right hm (by positivity)
    _ = 10 ^ (p + q) := (pow_add ..).symm
    _ ≤ 10 ^ r := Nat.pow_le_pow_right (by norm_num) hr

/-- A rescaled operand of a short result is far from the ends of a long. -/
theorem toInt_rescaled {x power : Int64} {k precision : ℕ} (hx : x.toInt.natAbs < 10 ^ precision)
    (hk : precision + k ≤ 17) (hpower : power.toInt = 10 ^ k) :
    (x * power).toInt = x.toInt * 10 ^ k ∧ (x * power).toInt.natAbs < 10 ^ 18 := by
  have hlt : (x.toInt * 10 ^ k).natAbs < 10 ^ 17 := by
    rw [natAbs_mul_ten_pow]
    exact mul_lt_ten_pow hx le_rfl hk
  rw [Int64.toInt_mul, hpower, bmod_eq_self (by omega) (by omega)]
  exact ⟨rfl, by omega⟩

/-- Both operands at the scale of a short result. -/
theorem shortRescale_exact {x y : Int64} (hx : x.toInt.natAbs < 10 ^ a.precision)
    (hy : y.toInt.natAbs < 10 ^ b.precision) (hshort : (resultType a b).precision ≤ 18) :
    ∃ p q, calculateShortRescaleParameters a b = .ok (p, q) ∧
      ((x * p).toInt = x.toInt * 10 ^ (b.scale - a.scale) ∧ (x * p).toInt.natAbs < 10 ^ 18) ∧
      (y * q).toInt = y.toInt * 10 ^ (a.scale - b.scale) ∧ (y * q).toInt.natAbs < 10 ^ 18 := by
  change min 38 _ ≤ 18 at hshort
  have hb := b.scale_le
  obtain ⟨p, hp, hpower⟩ := longTenToNth_eq (by omega : b.scale - a.scale < 19)
  obtain ⟨q, hq, hpower'⟩ := longTenToNth_eq (by omega : a.scale - b.scale < 19)
  refine ⟨p, q, ?_, toInt_rescaled hx (by omega) hpower, toInt_rescaled hy (by omega) hpower'⟩
  rw [calculateShortRescaleParameters, rescaleFactor, rescaleFactor, hp, hq]
  rfl

include h hleft hright in
theorem exact_iff :
    operator.Exact exact a b left right ↔
      ¬(ScalesZeroByTenTo38 a b left.value ∨ ScalesZeroByTenTo38 b a right.value) := by
  have hscales : (resultType a b).scale - a.scale = b.scale - a.scale ∧
      (resultType a b).scale - b.scale = a.scale - b.scale := by
    change max a.scale b.scale - a.scale = _ ∧ max a.scale b.scale - b.scale = _
    omega
  unfold Implementations.Exact Implementations.apply
  rw [hscales.1, hscales.2]
  split
  next x y hshort =>
    have hprecision : (resultType a b).precision ≤ 18 := of_decide_eq_true hshort
    obtain ⟨p, q, hparameters, ⟨hx, hxlt⟩, hy, hylt⟩ := shortRescale_exact hleft hright hprecision
    change min 38 _ ≤ 18 at hprecision
    rw [hparameters]
    refine iff_of_true ?_ ?_
    · change (operator.shortShortShort x y p q).toInt = _
      rw [h.short x y p q hxlt hylt, hx, hy]
      rfl
    · unfold ScalesZeroByTenTo38
      omega
  next => exact slices_exactOrTooLarge_iff h hleft hright

end Operator

/-- Decimal addition and subtraction return the exact result at its scale, or fail for a
number of more than 38 digits, exactly when no zero operand is scaled by `10 ^ 38`. -/
theorem add_subtract_exact_iff
    (a b : DecimalType) (left right : Operand)
    (hleft : left.value.natAbs < 10 ^ a.precision)
    (hright : right.value.natAbs < 10 ^ b.precision) :
    decimalAddOperator.Exact (· + ·) a b left right ∧
        decimalSubtractOperator.Exact (· - ·) a b left right ↔
      ¬(ScalesZeroByTenTo38 a b left.value ∨ ScalesZeroByTenTo38 b a right.value) := by
  rw [exact_iff decimalAddOperator_computes hleft hright,
    exact_iff decimalSubtractOperator_computes hleft hright, and_self]

theorem add_subtract_twoDigits_exact_iff :
    let a : DecimalType := ⟨2, 1, by decide, by decide, by decide⟩
    (decimalAddOperator.Exact (· + ·) a a (.long 25) (.long 3) ∧
        decimalSubtractOperator.Exact (· - ·) a a (.long 25) (.long 3)) ↔
      ¬(ScalesZeroByTenTo38 a a 25 ∨ ScalesZeroByTenTo38 a a 3) :=
  add_subtract_exact_iff _ _ (.long 25) (.long 3) (by decide) (by decide)

/-- The sum of `0` and `1e-38` overflows. -/
theorem add_zero_tenTo38_not_exact :
    ¬decimalAddOperator.Exact (· + ·) ⟨1, 0, by decide, by decide, by decide⟩
      ⟨38, 38, by decide, by decide, by decide⟩ (.long 0) (.slice (ofLong 1)) := by
  rintro (h | h | h) <;> revert h <;> decide +kernel

/-! ## Short results -/

def multiplyShortShortShort (a b : Int64) : Int64 := a * b

def divideRescaleFactor (a b : DecimalType) : ℕ := max a.scale b.scale - a.scale + b.scale

/-- The longs that a division goes through before it rounds. -/
structure ShortDivision where
  rescaledUnsignedDividend : Int64
  quotient : Int64
  product : Int64
  remainder : Int64

def shortDivision (unsignedDividend unsignedDivisor power : Int64) : ShortDivision :=
  let rescaledUnsignedDividend := unsignedDividend * power
  let quotient := rescaledUnsignedDividend / unsignedDivisor
  let product := quotient * unsignedDivisor
  ⟨rescaledUnsignedDividend, quotient, product, rescaledUnsignedDividend - product⟩

/-- The quotient, one more if twice the remainder reaches the divisor. -/
def ShortDivision.roundUp (steps : ShortDivision) (unsignedDivisor : Int64) : Int64 :=
  if unsignedDivisor.toUInt64 ≤ (steps.remainder * 2).toUInt64 then steps.quotient + 1
  else steps.quotient

def divideShortShortShort (dividend divisor : Int64) (rescaleFactor : ℕ) : Result Int64 :=
  if divisor = 0 then .error (.prestoException .divisionByZero "Division by zero")
  else if dividend = 0 then .ok 0
  else do
    let resultSignum := dividend.toInt.sign * divisor.toInt.sign
    let power ← Decimals.longTenToNth rescaleFactor
    let steps := shortDivision (Decimals.abs dividend) (Decimals.abs divisor) power
    pure (Int64.ofInt (resultSignum * (steps.roundUp (Decimals.abs divisor)).toInt))

/-- The longs are the numbers of the division of `n` by `d`, none of them wrapped. -/
structure ShortDivision.Exact (steps : ShortDivision) (n d : ℕ) : Prop where
  rescaledUnsignedDividend : steps.rescaledUnsignedDividend.toInt = n
  quotient : steps.quotient.toInt = (n / d : ℕ)
  product : steps.product.toInt = (n / d * d : ℕ)
  remainder : steps.remainder.toInt = (n % d : ℕ)
  doubled : (steps.remainder * 2).toInt = (n % d * 2 : ℕ)
  rounded : (steps.quotient + 1).toInt = (n / d + 1 : ℕ)

theorem toInt_abs_of_lt {x : Int64} (h : x.toInt.natAbs < 10 ^ 18) :
    (Decimals.abs x).toInt = x.toInt.natAbs := by
  rw [toInt_abs, if_neg (by omega), Int.abs_eq_natAbs]

theorem toInt_mul_of_lt
    {x y : Int64} {m n : ℕ} (hx : x.toInt = m) (hy : y.toInt = n) (h : m * n < 2 ^ 63) :
    (x * y).toInt = (m * n : ℕ) := by
  rw [Int64.toInt_mul, hx, hy]
  exact bmod_eq_self (by omega) (by omega)

theorem shortDivision_exact {x y power : Int64} {m t d : ℕ} (hx : x.toInt = m) (hy : y.toInt = d)
    (hpower : power.toInt = t) (_ : 0 < d) (hfits : m * t < 10 ^ 18) (_ : d < 10 ^ 18) :
    (shortDivision x y power).Exact (m * t) d := by
  have hrescaled := toInt_mul_of_lt hx hpower (by omega)
  have hquotient : (x * power / y).toInt = (m * t / d : ℕ) := by
    rw [toInt_div_eq hy (by omega), hrescaled, if_neg (by omega), Int.natAbs_natCast]
  have hsplit := Nat.div_add_mod' (m * t) d
  have hle := Nat.div_le_self (m * t) d
  have hproduct := toInt_mul_of_lt hquotient hy (by omega)
  have hremainder : (x * power - x * power / y * y).toInt = (m * t % d : ℕ) := by
    rw [toInt_sub_of_lt] <;> rw [hrescaled, hproduct] <;> omega
  refine ⟨hrescaled, hquotient, hproduct, hremainder, ?_, ?_⟩
  · exact toInt_mul_of_lt hremainder rfl (by omega)
  · refine (Int64.toInt_add _ _).trans ?_
    have hone : (1 : Int64).toInt = 1 := rfl
    rw [shortDivision, hquotient]
    generalize m * t / d = q at hle ⊢
    exact bmod_eq_self (by omega) (by omega)

theorem ShortDivision.Exact.toInt_roundUp {steps : ShortDivision} {y : Int64} {n : ℕ}
    (h : steps.Exact n y.toInt.natAbs) (hy : 0 < y.toInt.natAbs) :
    (steps.roundUp (Decimals.abs y)).toInt = roundedQuotient n y.toInt.natAbs := by
  have hnonneg : ¬steps.remainder * 2 < 0 := by
    rw [Int64.lt_iff_toInt_lt, h.doubled]
    exact not_lt.mpr (Int.natCast_nonneg _)
  have hdoubled := toNat_toUInt64_abs (steps.remainder * 2)
  rw [h.doubled, if_neg hnonneg, Int.natAbs_natCast, Nat.mul_comm] at hdoubled
  have hdivisor : (Decimals.abs y).toUInt64.toNat = y.toInt.natAbs := toNat_toUInt64_abs y
  rw [roundUp, roundedQuotient_eq hy, apply_ite Int64.toInt, h.rounded, h.quotient,
    if_congr UInt64.le_iff_toNat_le rfl rfl, hdoubled, hdivisor]
  split_ifs <;> rfl

/-- Where the declared precision of the result is at most 18, the implementations with longs
overflow at no step and are exact, the division after rounding. -/
theorem short_operators_exact
    (a b : DecimalType) (x y : Int64) (hx : x.toInt.natAbs < 10 ^ a.precision)
    (hy : y.toInt.natAbs < 10 ^ b.precision) :
    ((resultType a b).precision ≤ 18 →
      ∃ p q, calculateShortRescaleParameters a b = .ok (p, q) ∧
        (x * p).toInt = x.toInt * 10 ^ (b.scale - a.scale) ∧
        (y * q).toInt = y.toInt * 10 ^ (a.scale - b.scale) ∧
        (addShortShortShort x y p q).toInt = (x * p).toInt + (y * q).toInt ∧
        (subtractShortShortShort x y p q).toInt = (x * p).toInt - (y * q).toInt) ∧
    (min 38 (a.precision + b.precision) ≤ 18 →
      (multiplyShortShortShort x y).toInt = x.toInt * y.toInt) ∧
    (min 38 (a.precision + b.scale + (b.scale - a.scale)) ≤ 18 → b.precision ≤ 18 →
      y.toInt ≠ 0 → ∃ power result,
        Decimals.longTenToNth (divideRescaleFactor a b) = .ok power ∧
        (shortDivision (Decimals.abs x) (Decimals.abs y) power).Exact
          (x.toInt.natAbs * 10 ^ divideRescaleFactor a b) y.toInt.natAbs ∧
        divideShortShortShort x y (divideRescaleFactor a b) = .ok result ∧
        result.toInt = roundHalfUp (x.toInt * 10 ^ divideRescaleFactor a b / y.toInt)) := by
  refine ⟨?_, ?_, ?_⟩
  · intro hshort
    obtain ⟨p, q, hparameters, ⟨hp, hplt⟩, hq, hqlt⟩ := shortRescale_exact hx hy hshort
    exact ⟨p, q, hparameters, hp, hq, decimalAddOperator_computes.short x y p q hplt hqlt,
      decimalSubtractOperator_computes.short x y p q hplt hqlt⟩
  · intro hshort
    have hlt : (x.toInt * y.toInt).natAbs < 10 ^ 18 := by
      rw [Int.natAbs_mul]
      exact mul_lt_ten_pow hx hy.le (by omega)
    rw [multiplyShortShortShort, Int64.toInt_mul, bmod_eq_self (by omega) (by omega)]
  · intro hshort hb hne
    have hfactor : a.precision + divideRescaleFactor a b ≤ 18 := by
      rw [divideRescaleFactor]
      omega
    have hxlt := mul_lt_ten_pow hx le_rfl hfactor
    have hylt := hy.trans_le (Nat.pow_le_pow_right (by norm_num) hb)
    generalize divideRescaleFactor a b = k at *
    obtain ⟨power, hpower, hvalue⟩ := longTenToNth_eq (by omega : k < 19)
    have hd := Int.natAbs_pos.mpr hne
    have hdividend := toInt_abs_of_lt
      ((Nat.le_mul_of_pos_right _ (Nat.pow_pos (by norm_num : 0 < 10))).trans_lt hxlt)
    have hsteps := shortDivision_exact hdividend (toInt_abs_of_lt hylt)
      (hvalue.trans (by push_cast; rfl)) hd hxlt hylt
    have hrounded := roundHalfUp_quotient x.toInt y.toInt k hne
    have habs := natAbs_roundHalfUp hd (abs_signedQuotient x.toInt y.toInt k)
    have hle := Nat.div_le_self (x.toInt.natAbs * 10 ^ k) y.toInt.natAbs
    rw [roundedQuotient_eq hd] at habs
    rw [divideShortShortShort, if_neg (fun h => hne (by rw [h]; rfl)), hpower]
    by_cases hzero : x = 0
    · rw [if_pos hzero]
      exact ⟨power, 0, rfl, hsteps, rfl, by rw [hrounded, hzero]; simp⟩
    · rw [if_neg hzero]
      refine ⟨power, _, rfl, hsteps, rfl, ?_⟩
      rw [hsteps.toInt_roundUp hd, ← hrounded]
      split_ifs at habs <;> exact Int64.toInt_ofInt_of_le (by omega) (by omega)

/-- `2.5 / 0.3` is rounded to one digit. -/
theorem short_operators_exact_twoDigits :
    ∃ result, divideShortShortShort 25 3 1 = .ok result ∧
      result.toInt = roundHalfUp ((25 : Int64).toInt * 10 ^ 1 / (3 : Int64).toInt) := by
  let type : DecimalType := ⟨2, 1, by decide, by decide, by decide⟩
  obtain ⟨-, -, hdivide⟩ := short_operators_exact type type 25 3 (by decide) (by decide)
  obtain ⟨-, result, -, -, hresult⟩ := hdivide (by decide) (by decide) (by decide)
  exact ⟨result, hresult⟩

end DecimalOperators
end Presto.Types
