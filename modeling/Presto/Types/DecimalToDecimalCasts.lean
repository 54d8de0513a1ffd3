import Presto.Types.DecimalRescale

/-!
# Casts between decimal types

A decimal of at most 18 digits is a long and a longer one is a slice.  The cast
between two short types multiplies or divides longs; the other three go through
`rescale`.  Each cast checks the precision of the target afterwards.
-/

namespace Presto.Types

open Support

open Int64 hiding mul_one

/-- A decimal type, with the checks of its constructor. -/
structure DecimalType where
  precision : ℕ
  scale : ℕ
  precision_pos : 0 < precision
  precision_le : precision ≤ 38
  scale_le : scale ≤ precision

namespace DecimalType

def isShort (type : DecimalType) : Bool := decide (type.precision ≤ 18)

end DecimalType

namespace Decimals

/-- The table of powers of ten that fit a long. -/
def longTenToNth (n : ℕ) : Result Int64 :=
  if n < 19 then .ok (Int64.ofInt (10 ^ n)) else .error .indexOutOfBounds

/-- `Math.abs`, which keeps the least long. -/
def abs (value : Int64) : Int64 := if value < 0 then -value else value

def overflows (value : Int64) (precision : ℕ) : Result Bool :=
  if 18 < precision then
    .error (.illegalArgument "expected precision to be less than 18")
  else do
    let bound ← longTenToNth precision
    pure (decide (bound ≤ abs value))

/-- The digits with the decimal point put in. -/
def toStringDigits (digits : List Char) (scale : ℕ) : List Char :=
  let integral :=
    if digits.length ≤ scale then ['0'] else digits.take (digits.length - scale)
  let fractional :=
    if scale = 0 then []
    else if digits.length < scale then
      '.' :: (List.replicate (scale - digits.length) '0' ++ digits)
    else '.' :: digits.drop (digits.length - scale)
  integral ++ fractional

def toString (unscaledValue : ℤ) (scale : ℕ) : String :=
  match (ToString.toString unscaledValue).toList with
  | '-' :: digits => String.ofList ('-' :: toStringDigits digits scale)
  | digits => String.ofList (toStringDigits digits scale)

end Decimals

namespace UnscaledDecimal128

def overflows (value : UnscaledDecimal128) (precision : ℕ) : Bool :=
  if precision = 38 then value.exceedsOrEqualTenToThirtyEight
  else decide (precision < 38) && (compareAbsolute value (powerOfTen precision)).isGE

def unscaledDecimalToUnscaledLongUnsafe (decimal : UnscaledDecimal128) : Int64 :=
  let low := Int64.ofInt decimal.lowLong
  if decimal.isNegative then -low else low

end UnscaledDecimal128

namespace DecimalToDecimalCasts

open UnscaledDecimal128

def castException (value : ℤ) (sourceScale resultPrecision resultScale : ℕ) : Throwable :=
  .prestoException .invalidCastArgument
    ("Cannot cast DECIMAL '" ++ Decimals.toString value sourceScale ++ "' to DECIMAL(" ++
      ToString.toString resultPrecision ++ ", " ++ ToString.toString resultScale ++ ")")

/-- The value of `shortToShortCast` before the precision check. -/
def scaleShort (value : Int64) (sourceScale resultScale : ℕ)
    (scalingFactor halfOfScalingFactor : Int64) : Int64 :=
  if sourceScale ≤ resultScale then value * scalingFactor
  else
    let returnValue := value / scalingFactor
    if 0 ≤ value then
      if halfOfScalingFactor ≤ value % scalingFactor then returnValue + 1 else returnValue
    else
      if value % scalingFactor ≤ -halfOfScalingFactor then returnValue - 1 else returnValue

def shortToShortCast (value : Int64) (sourceScale resultPrecision resultScale : ℕ)
    (scalingFactor halfOfScalingFactor : Int64) : Result Int64 := do
  let returnValue :=
    scaleShort value sourceScale resultScale scalingFactor halfOfScalingFactor
  let overflows ← Decimals.overflows returnValue resultPrecision
  if overflows then .error (castException value.toInt sourceScale resultPrecision resultScale)
  else .ok returnValue

def longToLongCast (value : UnscaledDecimal128)
    (sourceScale resultPrecision resultScale : ℕ) : Result UnscaledDecimal128 :=
  let failure :=
    castException value.toBigInteger sourceScale resultPrecision resultScale
  match value.rescale (resultScale - sourceScale) with
  | .ok result => if result.overflows resultPrecision then .error failure else .ok result
  | .error (.arithmetic _) => .error failure
  | .error e => .error e

def shortToLongCast (value : Int64) (sourceScale resultPrecision resultScale : ℕ) :
    Result UnscaledDecimal128 :=
  longToLongCast (ofLong value) sourceScale resultPrecision resultScale

def longToShortCast (value : UnscaledDecimal128)
    (sourceScale resultPrecision resultScale : ℕ) : Result Int64 := do
  let result ← longToLongCast value sourceScale resultPrecision resultScale
  pure result.unscaledDecimalToUnscaledLongUnsafe

/-- `shortToShortCast` with the extra parameters it is registered with. -/
def castShortToShort (source target : DecimalType) (value : Int64) : Result Int64 := do
  let rescale ← Decimals.longTenToNth (target.scale - source.scale : ℤ).natAbs
  shortToShortCast value source.scale target.precision target.scale rescale (rescale / 2)

/-! ## The contract -/

variable (source target : DecimalType) (value : ℤ)

/-- The value in the scale of the target, rounded half away from zero. -/
def rescaled : ℤ :=
  roundHalfUp (value * 10 ^ target.scale / 10 ^ source.scale)

/-- The rescaled value, or the failure of the cast if it has too many digits. -/
def exactCast : Result ℤ :=
  if |rescaled source target value| < 10 ^ target.precision then
    .ok (rescaled source target value)
  else .error (castException value source.scale target.precision target.scale)

/-- Every cast that applies to the two types is exact on every representation of the
value. -/
def CastsExactly : Prop :=
  (∀ x : Int64, x.toInt = value → source.isShort → target.isShort →
    (castShortToShort source target x).map Int64.toInt = exactCast source target value) ∧
  (∀ x : Int64, x.toInt = value → source.isShort →
    (shortToLongCast x source.scale target.precision target.scale).map toBigInteger =
      exactCast source target value) ∧
  (∀ x : UnscaledDecimal128, x.toBigInteger = value → target.isShort →
    (longToShortCast x source.scale target.precision target.scale).map Int64.toInt =
      exactCast source target value) ∧
  (∀ x : UnscaledDecimal128, x.toBigInteger = value →
    (longToLongCast x source.scale target.precision target.scale).map toBigInteger =
      exactCast source target value)

/-- The scaled value of a cast between short types is not in the range of the target, but
some other number that has the same low 64 bits is, or is the least long. -/
def WrapsIntoRange : Prop :=
  source.isShort ∧ target.isShort ∧ source.scale ≤ target.scale ∧
    ((∃ m : ℤ, m ≠ 0 ∧
      |value * 10 ^ (target.scale - source.scale) - m * 2 ^ 64| < 10 ^ target.precision) ∨
    ∃ m : ℤ, value * 10 ^ (target.scale - source.scale) = m * 2 ^ 64 + 2 ^ 63)

/-- Rounding carries into the high long, in a division by tens, to a number that the
target can hold. -/
def CarriesIntoRange : Prop :=
  target.scale < source.scale ∧ prefersFive (source.scale - target.scale) = false ∧
    CarriesIntoHighLong (value / 10 ^ (source.scale - target.scale)) ∧
    |rescaled source target value| < 10 ^ target.precision

/-- Zero is scaled by the power of ten that the table leaves out. -/
def ScalesZeroByTenTo38 : Prop :=
  target.scale = source.scale + 38 ∧ value = 0

/-! ## The rescaled value -/

variable {target : DecimalType} {source : DecimalType}

theorem rescaled_up (h : source.scale ≤ target.scale) (value : ℤ) :
    rescaled source target value = value * 10 ^ (target.scale - source.scale) := by
  have hsplit : (10 : ℚ) ^ target.scale =
      10 ^ (target.scale - source.scale) * 10 ^ source.scale := by
    rw [← pow_add, Nat.sub_add_cancel h]
  have hcast : (value : ℚ) * 10 ^ target.scale / 10 ^ source.scale =
      ((value * 10 ^ (target.scale - source.scale) : ℤ) : ℚ) := by
    rw [hsplit, ← mul_assoc, mul_div_assoc, div_self (by positivity), mul_one]
    push_cast
    rfl
  rw [rescaled, hcast, roundHalfUp_intCast]

theorem rescaled_down (h : target.scale < source.scale) (value : ℤ) :
    rescaled source target value = roundHalfUp (value / 10 ^ (source.scale - target.scale)) := by
  have hsplit : (10 : ℚ) ^ source.scale =
      10 ^ (source.scale - target.scale) * 10 ^ target.scale := by
    rw [← pow_add, Nat.sub_add_cancel h.le]
  rw [rescaled, hsplit, mul_div_mul_right _ _ (by positivity)]

/-! ## Long results -/

variable {precision : ℕ}

theorem overflows_iff (decimal : UnscaledDecimal128) (h : precision ≤ 38) :
    decimal.overflows precision = true ↔ 10 ^ precision ≤ |decimal.toBigInteger| := by
  have habs : (10 ^ precision ≤ |decimal.toBigInteger|) ↔
      10 ^ precision ≤ decimal.magnitude := by
    rw [Int.abs_eq_natAbs, natAbs_toBigInteger]
    exact_mod_cast Iff.rfl
  rw [habs, overflows]
  by_cases hmax : precision = 38
  · rw [if_pos hmax, exceedsOrEqualTenToThirtyEight_iff, hmax]
  · have hlt : precision < 38 := by omega
    rw [if_neg hmax, compareAbsolute_eq, (powerOfTen_spec hlt).1, decide_eq_true hlt,
      Bool.true_and, Nat.isGE_compare]

section LongToLong

variable {source target : DecimalType} (x : UnscaledDecimal128)

/-- A rescaled decimal passes the precision check as the exact value does, or is wrong. -/
theorem longToLongCast_of_ok {result : UnscaledDecimal128}
    (hrescale : x.rescale (target.scale - source.scale) = .ok result) :
    (longToLongCast x source.scale target.precision target.scale).map toBigInteger =
        exactCast source target x.toBigInteger ↔
      result.toBigInteger = rescaled source target x.toBigInteger ∨
        10 ^ target.precision ≤ |result.toBigInteger| ∧
          10 ^ target.precision ≤ |rescaled source target x.toBigInteger| := by
  have hoverflows := overflows_iff result target.precision_le
  rw [longToLongCast, hrescale, exactCast]
  dsimp only
  generalize rescaled source target x.toBigInteger = exact
  by_cases hfits : 10 ^ target.precision ≤ |result.toBigInteger|
  · rw [if_pos (hoverflows.mpr hfits)]
    split
    next hlt =>
      refine iff_of_false (by simp [Except.map]) ?_
      rintro (rfl | ⟨-, hge⟩)
      · exact hlt.not_ge hfits
      · exact hlt.not_ge hge
    next hge => exact iff_of_true rfl (Or.inr ⟨hfits, not_lt.mp hge⟩)
  · rw [if_neg (mt hoverflows.mp hfits)]
    split
    next => simp [Except.map, hfits]
    next hge =>
      refine iff_of_false (by simp [Except.map]) ?_
      rintro (rfl | hboth)
      · exact hge (not_le.mp hfits)
      · exact hfits hboth.1

theorem longToLongCast_of_arithmetic {message : String}
    (hrescale : x.rescale (target.scale - source.scale) = .error (.arithmetic message)) :
    (longToLongCast x source.scale target.precision target.scale).map toBigInteger =
        exactCast source target x.toBigInteger ↔
      10 ^ target.precision ≤ |rescaled source target x.toBigInteger| := by
  rw [longToLongCast, hrescale, exactCast]
  dsimp only
  split
  next hlt => exact iff_of_false (by simp [Except.map]) (not_le.mpr hlt)
  next hge => exact iff_of_true rfl (not_lt.mp hge)

variable {scale : ℕ}

/-- Scaling down returns a number at least as large as the rounded one. -/
theorem scaleDownRoundUp_le (hpos : 0 < scale) (hscale : scale < 64) :
    ∃ result, x.scaleDownRoundUp scale = .ok result ∧
      |roundHalfUp (x.toBigInteger / 10 ^ scale)| ≤ |result.toBigInteger| := by
  have hten : 0 < 10 ^ scale := by positivity
  have hrounded := natAbs_roundHalfUp hten (abs_scaledDown x scale)
  have hle : roundedQuotient x.magnitude (10 ^ scale) ≤
      roundedMagnitude x.magnitude (10 ^ scale) := by
    rw [roundedQuotient_eq hten, roundedMagnitude, incremented]
    split_ifs <;> omega
  have hexists : ∃ result, x.scaleDownRoundUp scale = .ok result ∧
      roundedQuotient x.magnitude (10 ^ scale) ≤ result.magnitude := by
    rw [scaleDownRoundUp]
    split_ifs with hsmall hfive
    · exact ⟨_, rfl, (scaleDownLongRoundUp_spec hpos hsmall).1.ge⟩
    · obtain ⟨result, hresult, hmagnitude, -⟩ :=
        x.scaleDownFiveAndShift_spec hpos hscale true
      exact ⟨result, hresult, hmagnitude.ge⟩
    · obtain ⟨result, hresult, hmagnitude, -⟩ := x.scaleDownTenRoundUp_spec hpos
      exact ⟨result, hresult, hmagnitude ▸ hle⟩
  obtain ⟨result, hresult, hmagnitude⟩ := hexists
  refine ⟨result, hresult, ?_⟩
  rw [Int.abs_eq_natAbs, Int.abs_eq_natAbs, natAbs_toBigInteger, hrounded]
  exact_mod_cast hmagnitude

theorem longToLongCast_down_iff (h : target.scale < source.scale) :
    (longToLongCast x source.scale target.precision target.scale).map toBigInteger =
        exactCast source target x.toBigInteger ↔
      ¬CarriesIntoRange source target x.toBigInteger := by
  have hsource := source.scale_le.trans source.precision_le
  have hpos : 0 < source.scale - target.scale := by omega
  have hneg : (target.scale - source.scale : ℤ) < 0 := by omega
  have hscale : (-(target.scale - source.scale : ℤ)).toNat = source.scale - target.scale := by
    omega
  have hrescale : x.rescale (target.scale - source.scale) =
      x.scaleDownRoundUp (source.scale - target.scale) := by
    rw [rescale, rescaleWith_down _ x hneg, hscale]
  obtain ⟨result, hresult, hle⟩ := scaleDownRoundUp_le x hpos (by omega)
  have hrounds := scaleDownRoundUp_rounds_iff x hpos (by omega)
  have hequal : result.toBigInteger = rescaled source target x.toBigInteger ↔
      ¬(prefersFive (source.scale - target.scale) = false ∧
        CarriesIntoHighLong (x.toBigInteger / 10 ^ (source.scale - target.scale))) := by
    rw [← hrounds, hresult, rescaled_down h]
    simp [Except.map]
  rw [← rescaled_down h] at hle
  -- the wrong number is larger, so it fails the check with the right one
  rw [longToLongCast_of_ok x (hrescale.trans hresult),
    and_iff_right_of_imp fun hge => hge.trans hle, ← not_lt, CarriesIntoRange]
  tauto

theorem longToLongCast_up_iff (h : source.scale ≤ target.scale) :
    (longToLongCast x source.scale target.precision target.scale).map toBigInteger =
        exactCast source target x.toBigInteger ↔
      ¬ScalesZeroByTenTo38 source target x.toBigInteger := by
  have htarget := target.scale_le
  have hprecision := target.precision_le
  have hrescaled := rescaled_up h x.toBigInteger
  by_cases hmax : target.scale = source.scale + 38
  · have hfactor : (target.scale - source.scale : ℤ) = 38 := by omega
    have herror : x.rescale (target.scale - source.scale) =
        .error (.arithmetic "Decimal overflow") := by
      rw [hfactor]
      rfl
    have hprecision38 : target.precision = 38 := by omega
    rw [longToLongCast_of_arithmetic x herror, hrescaled, hmax, Nat.add_sub_cancel_left,
      hprecision38, ScalesZeroByTenTo38, not_and]
    constructor
    · intro hge _ hzero
      rw [hzero] at hge
      norm_num at hge
    · intro hne
      have hpos : 1 ≤ |x.toBigInteger| := Int.one_le_abs (hne hmax)
      rw [abs_mul]
      exact le_mul_of_one_le_left (by positivity) hpos
  · have hzero : ¬ScalesZeroByTenTo38 source target x.toBigInteger := fun hz => hmax hz.1
    have hreturns := rescaleWith_returns scaleDownRoundUp x
      (by omega : target.scale - source.scale < 38)
    rw [← hrescaled, Nat.cast_sub h, ReturnsBelow] at hreturns
    refine iff_of_true ?_ hzero
    split at hreturns
    next =>
      obtain ⟨result, hresult, hvalue⟩ := hreturns
      exact (longToLongCast_of_ok x hresult).mpr (Or.inl hvalue)
    next hlarge =>
      have hpow : (10 : ℤ) ^ target.precision ≤ 10 ^ 38 :=
        pow_le_pow_right₀ (by norm_num) hprecision
      rw [← abs_lt_two_pow_iff, not_lt] at hlarge
      exact (longToLongCast_of_arithmetic x hreturns).mpr
        ((hpow.trans (by norm_num)).trans hlarge)

/-- The casts through `rescale` are exact except where rounding carries and where zero is
scaled too far. -/
theorem longToLongCast_exact_iff :
    (longToLongCast x source.scale target.precision target.scale).map toBigInteger =
        exactCast source target x.toBigInteger ↔
      ¬CarriesIntoRange source target x.toBigInteger ∧
        ¬ScalesZeroByTenTo38 source target x.toBigInteger := by
  rcases lt_or_ge target.scale source.scale with h | h
  · rw [longToLongCast_down_iff x h]
    refine (and_iff_left ?_).symm
    rintro ⟨hscale, -⟩
    omega
  · rw [longToLongCast_up_iff x h]
    refine (and_iff_right ?_).symm
    rintro ⟨hscale, -⟩
    omega

end LongToLong

/-! ## Short results -/

/-- A decimal below `2 ^ 63` keeps its value as a long. -/
theorem toInt_unscaledLongUnsafe
    {decimal : UnscaledDecimal128} (h : |decimal.toBigInteger| < 2 ^ 63) :
    decimal.unscaledDecimalToUnscaledLongUnsafe.toInt = decimal.toBigInteger := by
  have hmagnitude : decimal.magnitude < 2 ^ 63 := by
    rw [Int.abs_eq_natAbs, natAbs_toBigInteger] at h
    exact_mod_cast h
  have hlow : decimal.lowLong = decimal.magnitude := by
    rw [magnitude] at hmagnitude ⊢
    omega
  have hlong : (ofInt decimal.lowLong).toInt = decimal.magnitude := by
    rw [hlow]
    exact toInt_ofInt_of_le (by omega) (by exact_mod_cast hmagnitude)
  rw [unscaledDecimalToUnscaledLongUnsafe, toBigInteger]
  split
  · rw [toInt_neg, hlong]
    exact bmod_eq_self (by norm_num; omega) (by norm_num; omega)
  · exact hlong

theorem ten_pow_lt_of_isShort {type : DecimalType} (h : type.isShort = true) :
    (10 : ℤ) ^ type.precision < 2 ^ 63 := by
  have hle : (10 : ℤ) ^ type.precision ≤ 10 ^ 18 :=
    pow_le_pow_right₀ (by norm_num) (of_decide_eq_true h)
  exact hle.trans_lt (by norm_num)

/-- The cast to a short type returns the long result as a long. -/
theorem longToShortCast_map (h : target.isShort = true) (x : UnscaledDecimal128) (sourceScale : ℕ) :
    (longToShortCast x sourceScale target.precision target.scale).map toInt =
      (longToLongCast x sourceScale target.precision target.scale).map toBigInteger := by
  rw [longToShortCast]
  cases houtcome : longToLongCast x sourceScale target.precision target.scale with
  | error e => rfl
  | ok result =>
      have hfits : |result.toBigInteger| < 10 ^ target.precision := by
        rw [longToLongCast] at houtcome
        split at houtcome
        next rescaled _ =>
          split at houtcome
          next => simp at houtcome
          next hoverflows =>
            obtain rfl : rescaled = result := Except.ok.inj houtcome
            rw [overflows_iff _ target.precision_le] at hoverflows
            exact not_le.mp hoverflows
        next => simp at houtcome
        next => simp at houtcome
      have hlt := hfits.trans (ten_pow_lt_of_isShort h)
      exact congrArg Except.ok (toInt_unscaledLongUnsafe hlt)

/-! ## Short to short -/

theorem longTenToNth_eq {n : ℕ} (h : n < 19) :
    ∃ power, Decimals.longTenToNth n = .ok power ∧ power.toInt = 10 ^ n := by
  have hle : (10 : ℤ) ^ n ≤ 10 ^ 18 := pow_le_pow_right₀ (by norm_num) (by omega)
  have hpos : (0 : ℤ) < 10 ^ n := by positivity
  refine ⟨ofInt (10 ^ n), by rw [Decimals.longTenToNth, if_pos h], ?_⟩
  exact toInt_ofInt_of_le (by omega) (by omega)

theorem toInt_abs (x : Int64) :
    (Decimals.abs x).toInt = if x.toInt = -2 ^ 63 then -2 ^ 63 else |x.toInt| := by
  have hlow := x.le_toInt
  rw [Decimals.abs]
  by_cases hneg : x.toInt < 0
  · rw [if_pos (lt_iff_toInt_lt.mpr hneg), toInt_neg, abs_of_neg hneg]
    split
    next hmin =>
      rw [hmin]
      decide
    next hmin => exact bmod_eq_self (by norm_num; omega) (by norm_num; omega)
  · rw [if_neg (mt lt_iff_toInt_lt.mp hneg), if_neg (by omega),
      abs_of_nonneg (not_lt.mp hneg)]

/-- The check lets the least long through, whatever the precision. -/
theorem overflows_eq (h : precision ≤ 18) (x : Int64) :
    Decimals.overflows x precision =
      .ok (decide (x.toInt ≠ -2 ^ 63 ∧ 10 ^ precision ≤ |x.toInt|)) := by
  obtain ⟨power, hpower, hvalue⟩ := longTenToNth_eq (by omega : precision < 19)
  have hpos : (0 : ℤ) < 10 ^ precision := by positivity
  rw [Decimals.overflows, if_neg (by omega), hpower]
  refine congrArg Except.ok (decide_eq_decide.mpr ?_)
  rw [le_iff_toInt_le, hvalue, toInt_abs]
  split
  next hmin => exact iff_of_false (by omega) fun hne => hne.1 hmin
  next hmin => exact (and_iff_right hmin).symm

section ShortToShort

variable {source target : DecimalType} (x : Int64) {power : Int64}

/-- The contract of a cast between short types, in terms of the scaled long. -/
theorem castShortToShort_iff (htarget : target.isShort = true)
    (hpower : Decimals.longTenToNth (target.scale - source.scale : ℤ).natAbs = .ok power) :
    (castShortToShort source target x).map toInt = exactCast source target x.toInt ↔
      if |rescaled source target x.toInt| < 10 ^ target.precision then
        (scaleShort x source.scale target.scale power (power / 2)).toInt =
          rescaled source target x.toInt
      else
        (scaleShort x source.scale target.scale power (power / 2)).toInt ≠ -2 ^ 63 ∧
          10 ^ target.precision ≤
            |(scaleShort x source.scale target.scale power (power / 2)).toInt| := by
  have hprecision : target.precision ≤ 18 := of_decide_eq_true htarget
  rw [castShortToShort, hpower, Result.bind_ok, shortToShortCast, overflows_eq hprecision,
    Result.bind_ok, exactCast]
  generalize scaleShort x source.scale target.scale power (power / 2) = scaled
  generalize rescaled source target x.toInt = r
  by_cases hoverflows : scaled.toInt ≠ -2 ^ 63 ∧ 10 ^ target.precision ≤ |scaled.toInt|
  · rw [decide_eq_true hoverflows, if_pos rfl]
    split
    next hlt =>
      refine iff_of_false (by simp [Except.map]) ?_
      rintro rfl
      exact absurd hlt (not_lt.mpr hoverflows.2)
    next => exact iff_of_true rfl hoverflows
  · rw [decide_eq_false hoverflows, if_neg Bool.false_ne_true]
    split
    next => simp [Except.map]
    next => exact iff_of_false (by simp [Except.map]) hoverflows

/-- Multiplying longs goes wrong exactly where the product wraps into the range. -/
theorem castShortToShort_up_iff (hsource : source.isShort = true) (htarget : target.isShort = true)
    (h : source.scale ≤ target.scale) :
    (castShortToShort source target x).map toInt = exactCast source target x.toInt ↔
      ¬WrapsIntoRange source target x.toInt := by
  have hprecision : target.precision ≤ 18 := of_decide_eq_true htarget
  have htargetScale := target.scale_le
  have hscale : (target.scale - source.scale : ℤ).natAbs = target.scale - source.scale := by
    omega
  obtain ⟨power, hpower, hvalue⟩ :=
    longTenToNth_eq (by omega : target.scale - source.scale < 19)
  have hscaled : (scaleShort x source.scale target.scale power (power / 2)).toInt =
      (x.toInt * 10 ^ (target.scale - source.scale)).bmod (2 ^ 64) := by
    rw [scaleShort, if_pos h, toInt_mul, hvalue]
  rw [castShortToShort_iff x htarget (by rw [hscale]; exact hpower), hscaled,
    rescaled_up h, WrapsIntoRange]
  have hmax := ten_pow_lt_of_isShort htarget
  generalize x.toInt * 10 ^ (target.scale - source.scale) = product
  obtain ⟨m, hm⟩ : ∃ m : ℤ, product = product.bmod (2 ^ 64) + m * 2 ^ 64 :=
    ⟨product.bdiv (2 ^ 64), by rw [mul_comm]; exact (Int.bmod_add_bdiv _ _).symm⟩
  have hlow : -2 ^ 63 ≤ product.bmod (2 ^ 64) := Int.le_bmod (by norm_num)
  have hhigh : product.bmod (2 ^ 64) < 2 ^ 63 := Int.bmod_lt (by norm_num)
  simp only [hsource, htarget, h, true_and, abs_lt, le_abs, not_or, not_exists]
  split
  next hlt =>
    constructor
    · intro _
      refine ⟨fun n hn => ?_, fun n hn => ?_⟩ <;> omega
    · intro _
      omega
  next hge =>
    constructor
    · rintro ⟨hmin, hfar⟩
      refine ⟨fun n hn => ?_, fun n hn => ?_⟩ <;> omega
    · rintro ⟨hfar, hmin⟩
      have hm' := hfar m
      have hmin' := hmin (m - 1)
      omega

/-- Dividing longs rounds half away from zero. -/
theorem scaleShort_down (h : target.scale < source.scale) (hpos : 0 < scale)
    (hvalue : power.toInt = 10 ^ scale) (hx : |x.toInt| < 2 ^ 63) :
    (scaleShort x source.scale target.scale power (power / 2)).toInt =
      roundHalfUp (x.toInt / 10 ^ scale) := by
  have hten : 0 < 10 ^ scale := by positivity
  obtain ⟨half, hhalf⟩ : Even (10 ^ scale) := Nat.even_pow.mpr ⟨by decide, hpos.ne'⟩
  have hpower : power.toInt = ((10 ^ scale : ℕ) : ℤ) := by exact_mod_cast hvalue
  have hmax := power.toInt_lt
  have hxn : x.toInt.natAbs < 2 ^ 63 := by
    rw [Int.abs_eq_natAbs] at hx
    exact_mod_cast hx
  have htwo : (power / 2).toInt = half := by
    rw [toInt_div_eq (show (2 : Int64).toInt = (2 : ℕ) from rfl) (by omega),
      if_neg (by omega)]
    omega
  have hquotient : x.toInt.natAbs / 10 ^ scale ≤ x.toInt.natAbs / 2 :=
    Nat.div_le_div_left (by omega) (by norm_num)
  have hdiv := toInt_div_eq hpower hxn
  have hmod : (x % power).toInt = _ := toInt_mod_eq hpower
  have hround : (10 ^ scale ≤ 2 * (x.toInt.natAbs % 10 ^ scale)) ↔
      (half : ℤ) ≤ (x.toInt.natAbs % 10 ^ scale : ℕ) := by
    omega
  rw [roundHalfUp_eq hten (abs_div_ten_pow _ _), if_congr (div_ten_pow_neg_iff _ _) rfl rfl,
    roundedQuotient_eq hten, if_congr hround rfl rfl, scaleShort, if_neg (not_le.mpr h)]
  generalize x.toInt.natAbs / 10 ^ scale = q at *
  generalize x.toInt.natAbs % 10 ^ scale = r at *
  by_cases hneg : x.toInt < 0
  · rw [if_pos hneg] at hdiv hmod ⊢
    have hnonneg : ¬0 ≤ x := by
      rw [le_iff_toInt_le]
      exact not_le.mpr hneg
    have hcheck : x % power ≤ -(power / 2) ↔ (half : ℤ) ≤ r := by
      rw [le_iff_toInt_le, toInt_neg, htwo,
        bmod_eq_self (by norm_num; omega) (by norm_num; omega)]
      omega
    rw [if_neg hnonneg]
    by_cases hr : (half : ℤ) ≤ r
    · rw [if_pos (hcheck.mpr hr), if_pos hr, toInt_sub, hdiv,
        show (1 : Int64).toInt = 1 from rfl,
        bmod_eq_self (by norm_num; omega) (by norm_num; omega)]
      push_cast
      ring
    · rw [if_neg (mt hcheck.mp hr), if_neg hr, hdiv, Nat.add_zero]
  · rw [if_neg hneg] at hdiv hmod ⊢
    have hnonneg : 0 ≤ x := by
      rw [le_iff_toInt_le]
      exact not_lt.mp hneg
    have hcheck : power / 2 ≤ x % power ↔ (half : ℤ) ≤ r := by
      rw [le_iff_toInt_le, htwo, hmod]
    rw [if_pos hnonneg]
    by_cases hr : (half : ℤ) ≤ r
    · rw [if_pos (hcheck.mpr hr), if_pos hr, toInt_add, hdiv,
        show (1 : Int64).toInt = 1 from rfl,
        bmod_eq_self (by norm_num; omega) (by norm_num; omega)]
      rfl
    · rw [if_neg (mt hcheck.mp hr), if_neg hr, hdiv, Nat.add_zero]

theorem castShortToShort_down (hsource : source.isShort = true) (htarget : target.isShort = true)
    (h : target.scale < source.scale) (hx : |x.toInt| < 10 ^ source.precision) :
    (castShortToShort source target x).map toInt = exactCast source target x.toInt := by
  have hprecision : source.precision ≤ 18 := of_decide_eq_true hsource
  have hsourceScale := source.scale_le
  have hscale : (target.scale - source.scale : ℤ).natAbs = source.scale - target.scale := by
    omega
  have hpos : 0 < source.scale - target.scale := by omega
  have hlt := hx.trans (ten_pow_lt_of_isShort hsource)
  obtain ⟨power, hpower, hvalue⟩ :=
    longTenToNth_eq (by omega : source.scale - target.scale < 19)
  have hscaled := scaleShort_down x h hpos hvalue hlt
  rw [castShortToShort_iff x htarget (by rw [hscale]; exact hpower), hscaled, rescaled_down h]
  split
  next => rfl
  next hge =>
    refine ⟨?_, not_lt.mp hge⟩
    intro hmin
    -- the quotient by a power of ten is far from the least long
    have hten : 0 < 10 ^ (source.scale - target.scale) := by positivity
    have htwo : 2 ≤ 10 ^ (source.scale - target.scale) :=
      le_trans (by norm_num) (Nat.pow_le_pow_right (by norm_num) hpos)
    have hrounded := natAbs_roundHalfUp hten (abs_div_ten_pow x.toInt _)
    have hquotient : x.toInt.natAbs / 10 ^ (source.scale - target.scale) ≤
        x.toInt.natAbs / 2 :=
      Nat.div_le_div_left htwo (by norm_num)
    rw [roundedQuotient_eq hten] at hrounded
    rw [Int.abs_eq_natAbs] at hlt
    split at hrounded <;> omega

end ShortToShort

/-! ## All casts -/

theorem exists_toBigInteger_eq {value : ℤ} (h : |value| < 2 ^ 127) :
    ∃ x : UnscaledDecimal128, x.toBigInteger = value := by
  have hn : value.natAbs < 2 ^ 127 := by
    rw [Int.abs_eq_natAbs] at h
    exact_mod_cast h
  obtain ⟨hmagnitude, hnegative⟩ := pack_split (decide (value < 0)) hn
  refine ⟨pack (value.natAbs % 2 ^ 64) (value.natAbs / 2 ^ 64) (decide (value < 0)), ?_⟩
  rw [toBigInteger, hnegative]
  simp only [decide_eq_true_eq]
  split <;> omega

/-- The casts between two decimal types are exact on a value of the source type exactly
when no product of longs wraps into the range of the target, no rounding carries into the
high long, and zero is not scaled by `10 ^ 38`. -/
theorem castsExactly_iff
    (source target : DecimalType) (value : ℤ) (hvalue : |value| < 10 ^ source.precision) :
    CastsExactly source target value ↔
      ¬(WrapsIntoRange source target value ∨ CarriesIntoRange source target value ∨
        ScalesZeroByTenTo38 source target value) := by
  constructor
  · rintro ⟨hshort, -, -, hlong⟩ (hwraps | hlost)
    · have hsource := hwraps.1
      have htarget := hwraps.2.1
      have hscale := hwraps.2.2.1
      have hlt := hvalue.trans (ten_pow_lt_of_isShort hsource)
      rw [abs_lt] at hlt
      obtain ⟨x, rfl⟩ : ∃ x : Int64, x.toInt = value :=
        ⟨Int64.ofInt value, Int64.toInt_ofInt_of_le hlt.1.le hlt.2⟩
      have hexact := hshort x rfl hsource htarget
      rw [castShortToShort_up_iff x hsource htarget hscale] at hexact
      exact hexact hwraps
    · have hpow : (10 : ℤ) ^ source.precision ≤ 10 ^ 38 :=
        pow_le_pow_right₀ (by norm_num) source.precision_le
      obtain ⟨x, rfl⟩ := exists_toBigInteger_eq
        ((hvalue.trans_le hpow).trans (by norm_num : (10 : ℤ) ^ 38 < 2 ^ 127))
      have hexact := hlong x rfl
      rw [longToLongCast_exact_iff] at hexact
      exact hlost.elim hexact.1 hexact.2
  · intro hnot
    obtain ⟨hwraps, hcarries, hzero⟩ :
        ¬WrapsIntoRange source target value ∧ ¬CarriesIntoRange source target value ∧
          ¬ScalesZeroByTenTo38 source target value := by
      tauto
    have hlong : ∀ x : UnscaledDecimal128, x.toBigInteger = value →
        (longToLongCast x source.scale target.precision target.scale).map toBigInteger =
          exactCast source target value := by
      rintro x rfl
      exact (longToLongCast_exact_iff x).mpr ⟨hcarries, hzero⟩
    refine ⟨?_, ?_, ?_, hlong⟩
    · rintro x rfl hsource htarget
      rcases lt_or_ge target.scale source.scale with hscale | hscale
      · exact castShortToShort_down x hsource htarget hscale hvalue
      · exact (castShortToShort_up_iff x hsource htarget hscale).mpr hwraps
    · rintro x hx -
      exact hlong (ofLong x) ((toBigInteger_ofLong x).trans hx)
    · intro x hx htarget
      rw [longToShortCast_map htarget]
      exact hlong x hx

theorem castsExactly_twoDigits_iff :
    let source : DecimalType := ⟨3, 1, by decide, by decide, by decide⟩
    let target : DecimalType := ⟨2, 0, by decide, by decide, by decide⟩
    |(255 : ℤ)| < 10 ^ source.precision ∧
      (CastsExactly source target 255 ↔
        ¬(WrapsIntoRange source target 255 ∨ CarriesIntoRange source target 255 ∨
          ScalesZeroByTenTo38 source target 255)) :=
  ⟨by decide, castsExactly_iff _ _ 255 (by decide)⟩

/-- The product of `2 ^ 46` and `10 ^ 18` is a multiple of `2 ^ 64`, so the cast of the
former from `DECIMAL(18, 0)` to `DECIMAL(18, 18)` returns zero. -/
theorem cast_multipleOfTwoTo64_not_exact :
    ¬CastsExactly ⟨18, 0, by decide, by decide, by decide⟩
      ⟨18, 18, by decide, by decide, by decide⟩ (2 ^ 46) := by
  intro h
  have hshort := h.1 (Int64.ofInt (2 ^ 46)) (by decide +kernel) rfl rfl
  have houtcome : (castShortToShort ⟨18, 0, by decide, by decide, by decide⟩
      ⟨18, 18, by decide, by decide, by decide⟩ (Int64.ofInt (2 ^ 46))).map Int64.toInt =
        .ok 0 := by
    decide +kernel
  rw [exactCast, rescaled_up (by decide)] at hshort
  cases hshort

end DecimalToDecimalCasts
end Presto.Types
