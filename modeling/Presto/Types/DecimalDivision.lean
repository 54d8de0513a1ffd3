import Presto.Support.Rounding
import Presto.Types.LongDivision

/-!
# Rounding division of decimals

`divideRoundUp` scales the dividend, divides, and increments the quotient when
twice the remainder reaches the divisor.  The increment is `incrementUnsafe`, so
the result is the rounded quotient except when rounding carries into the high
long.
-/

namespace Presto.Types.UnscaledDecimal128

open Support Nat

/-! ## The code -/

def isStrictlyNegative (decimal : UnscaledDecimal128) : Bool :=
  decimal.isNegative && (decimal.lowLong != 0 || decimal.highLong != 0)

protected def compare (left right : UnscaledDecimal128) : Ordering :=
  if left.isStrictlyNegative ≠ right.isStrictlyNegative then
    if left.isStrictlyNegative then .lt else .gt
  else if left.isStrictlyNegative then (compareAbsolute left right).swap
  else compareAbsolute left right

/-- `POWERS_OF_FIVE[k]`. -/
def powerOfFive (k : ℕ) : UnscaledDecimal128 :=
  pack (5 ^ k % 2 ^ 64) (5 ^ k / 2 ^ 64) false

/-- The scaling of the first four ints of an array by a power of ten: by a power
of five and then of two. -/
def scaleUp (number : List ℕ) (scaleFactor : ℕ) : Result (List ℕ) :=
  if scaleFactor = 0 then .ok number
  else
    shiftLeftMultiPrecision
      (multiply256 (powerOfFive scaleFactor).getInts (number.take 4) ++ number.drop 8) 8
      scaleFactor

def packUnsigned (digits : List ℕ) : Result UnscaledDecimal128 :=
  if 4 < digitsInIntegerBase digits then .error overflowException
  else if 2 ^ 31 ≤ digits.getD 3 0 then .error overflowException
  else packInts (digits.getD 0 0) (digits.getD 1 0) (digits.getD 2 0) (digits.getD 3 0) false

/-- The quotient and the remainder of two scaled decimals. -/
def divide (dividend : UnscaledDecimal128) (dividendScaleFactor : ℕ)
    (divisor : UnscaledDecimal128) (divisorScaleFactor : ℕ) :
    Result (UnscaledDecimal128 × UnscaledDecimal128) :=
  if UnscaledDecimal128.compare divisor zero = .eq then .error divisionByZeroException
  else if 38 ≤ dividendScaleFactor then .error overflowException
  else if 38 ≤ divisorScaleFactor then .error overflowException
  else do
    let dividendInts ← scaleUp (dividend.getInts ++ List.replicate 5 0) dividendScaleFactor
    let divisorInts ← scaleUp (divisor.getInts ++ List.replicate 4 0) divisorScaleFactor
    let result ← divideUnsignedMultiPrecision dividendInts divisorInts
    let quotient ← packUnsigned result.1
    let remainder ← packUnsigned result.2
    let quotient := quotient.setNegative (dividend.isNegative != divisor.isNegative)
    let remainder := remainder.setNegative dividend.isNegative
    throwIfOverflows quotient
    throwIfOverflows remainder
    pure (quotient, remainder)

def shiftLeftDestructive (decimal : UnscaledDecimal128) (leftShifts : ℕ) :
    Result UnscaledDecimal128 :=
  let wordShifts := leftShifts / 64
  let bitShiftsInWord := leftShifts % 64
  let shiftRestore := 64 - bitShiftsInWord
  let lost := if wordShifts = 0 then decimal.highLong else decimal.lowLong
  if leftShifts = 0 then .ok decimal
  else if bitShiftsInWord ≠ 0 ∧ lost / 2 ^ shiftRestore ≠ 0 then .error overflowException
  else if wordShifts = 1 ∧ decimal.highLong ≠ 0 then .error overflowException
  else if 1 < wordShifts then .error (.illegalArgument "")
  else
    let low := if wordShifts = 0 then decimal.lowLong else 0
    let high := if wordShifts = 0 then decimal.highLong else decimal.lowLong
    if 0 < bitShiftsInWord then
      .ok (pack (low * 2 ^ bitShiftsInWord % 2 ^ 64)
        ((high * 2 ^ bitShiftsInWord % 2 ^ 64) ||| (low / 2 ^ shiftRestore))
        decimal.isNegative)
    else .ok (pack low high decimal.isNegative)

/-- The increment of the quotient, if the remainder asks for it. -/
def roundQuotient (quotient : UnscaledDecimal128) (round : Bool) :
    Result UnscaledDecimal128 :=
  if round then do
    throwIfOverflows quotient.incrementUnsafe
    pure quotient.incrementUnsafe
  else .ok quotient

/-- `divideRoundUp` of raw longs. -/
def divideRoundUpRaw (dividend : UnscaledDecimal128) (dividendScaleFactor : ℕ)
    (divisor : UnscaledDecimal128) : Result UnscaledDecimal128 := do
  let result ← divide dividend dividendScaleFactor divisor 0
  let quotientIsNegative := result.1.isNegative
  let remainder ← shiftLeftDestructive (result.2.setNegative false) 1
  let quotient ← roundQuotient (result.1.setNegative false)
    (compareUnsigned remainder.rawLow remainder.rawHigh divisor.rawLow
      (unpackUnsignedLong divisor.rawHigh) != .lt)
  pure (quotient.setNegative quotientIsNegative)

/-- An operand of `divideRoundUp`, which has an overload for each combination of
longs and slices. -/
inductive Operand
  | long (value : Int64)
  | slice (decimal : UnscaledDecimal128)

namespace Operand

/-- The raw longs that an overload passes on: a long by its absolute value and a
sign mask. -/
def raw : Operand → UnscaledDecimal128
  | long value =>
      ofRawLongs (if value < 0 then -value else value).toUInt64.toNat
        (if value < 0 then 2 ^ 63 else 0)
  | slice decimal => decimal

/-- The integer that an operand stands for. -/
def value : Operand → ℤ
  | long value => value.toInt
  | slice decimal => decimal.toBigInteger

end Operand

def divideRoundUp (dividend : Operand) (dividendScaleFactor : ℕ) (divisor : Operand) :
    Result UnscaledDecimal128 :=
  divideRoundUpRaw dividend.raw dividendScaleFactor divisor.raw

/-! ## Scaled division -/

variable (decimal : UnscaledDecimal128)

theorem isStrictlyNegative_eq : decimal.isStrictlyNegative = decide (decimal.toBigInteger < 0) := by
  rw [isStrictlyNegative, toBigInteger, magnitude]
  cases decimal.isNegative with
  | false =>
      rw [if_neg (by simp), Bool.false_and, eq_comm, decide_eq_false_iff_not]
      omega
  | true =>
      rw [if_pos rfl, Bool.true_and, Bool.eq_iff_iff, Bool.or_eq_true, bne_iff_ne, bne_iff_ne,
        decide_eq_true_eq]
      omega

theorem compare_eq_iff (left right : UnscaledDecimal128) :
    UnscaledDecimal128.compare left right = .eq ↔ left.toBigInteger = right.toBigInteger := by
  rw [UnscaledDecimal128.compare, compareAbsolute_eq, isStrictlyNegative_eq,
    isStrictlyNegative_eq, ← natAbs_toBigInteger left, ← natAbs_toBigInteger right]
  generalize left.toBigInteger = x
  generalize right.toBigInteger = y
  by_cases hx : x < 0 <;> by_cases hy : y < 0 <;> simp [hx, hy] <;> omega

theorem compare_zero_iff :
    UnscaledDecimal128.compare decimal zero = .eq ↔ decimal.magnitude = 0 := by
  rw [compare_eq_iff, ← natAbs_toBigInteger, Int.natAbs_eq_zero]
  rfl

variable {k : ℕ}

theorem powerOfFive_magnitude (hk : k < 38) : (powerOfFive k).magnitude = 5 ^ k := by
  refine (pack_split false ?_).1
  exact lt_of_le_of_lt (Nat.pow_le_pow_right (by norm_num) (by omega : k ≤ 37)) (by norm_num)

variable {n : ℕ}

/-- The scaled magnitude has at most 250 bits. -/
theorem scaleUp_spec (hn : 4 ≤ n) (hk : k < 38) :
    ∃ number, scaleUp (decimal.getInts ++ List.replicate n 0) k = .ok number ∧
      Ints number (4 + n) (decimal.magnitude * 10 ^ k) ∧
      decimal.magnitude * 10 ^ k < (2 ^ 32) ^ 8 := by
  have hten : decimal.magnitude * 10 ^ k < (2 ^ 32) ^ 8 := by
    calc decimal.magnitude * 10 ^ k ≤ 2 ^ 127 * 10 ^ 37 :=
          Nat.mul_le_mul decimal.magnitude_lt.le
            (Nat.pow_le_pow_right (by norm_num) (by omega))
      _ < (2 ^ 32) ^ 8 := by norm_num
  by_cases hzero : k = 0
  · have hints := decimal.ints_getInts.append (.zeros (by norm_num) n)
    exact ⟨_, by rw [scaleUp, if_pos hzero], hints.congr rfl (by rw [hzero]; ring), hten⟩
  have htake : (decimal.getInts ++ List.replicate n 0).take 4 = decimal.getInts :=
    List.take_left' rfl
  have hdrop : (decimal.getInts ++ List.replicate n 0).drop 8 =
      List.replicate (n - 4) 0 := by
    simp [getInts]
  have hpower := (powerOfFive k).ints_getInts
  rw [powerOfFive_magnitude hk] at hpower
  have hproduct := (multiply256_spec hpower decimal.ints_getInts).append
    (.zeros (by norm_num) (n - 4))
  have hfive : (5 ^ k * decimal.magnitude) * 2 ^ k = decimal.magnitude * 10 ^ k := by
    rw [show (10 : ℕ) = 5 * 2 by norm_num, mul_pow]
    ring
  obtain ⟨number, hshift, hnumber⟩ :=
    shiftLeftMultiPrecision_spec (by omega : 8 ≤ 4 + 4 + (n - 4)) (by norm_num)
      (by omega : k / 32 ≤ 8) hproduct (by rwa [mul_zero, add_zero, hfive])
  exact ⟨number, by rw [scaleUp, if_neg hzero, htake, hdrop, hshift],
    hnumber.congr (by omega) (by rw [mul_zero, add_zero, hfive]), hten⟩

theorem packUnsigned_spec {digits : List ℕ} (hk : 4 ≤ k) (h : Ints digits k n) :
    SucceedsBelow (2 ^ 127) n (Signed n false) (packUnsigned digits) := by
  have htake : digits.take 4 =
      [digits.getD 0 0, digits.getD 1 0, digits.getD 2 0, digits.getD 3 0] := by
    match digits, h.length.symm ▸ hk with
    | _ :: _ :: _ :: _ :: _, _ => rfl
  rw [packUnsigned]
  by_cases hlong : 4 < digitsInIntegerBase digits
  · have hpow : (2 ^ 32) ^ 4 ≤ n :=
      not_lt.mp (mt h.significantLength_le_iff.mpr (not_le.mpr hlong))
    rw [if_pos hlong, SucceedsBelow, if_neg (by omega)]
  · have hints := h.take_of_lt hk (h.significantLength_le_iff.mp (not_lt.mp hlong))
    rw [htake] at hints
    have hpack : (if 2 ^ 31 ≤ digits.getD 3 0 then .error overflowException
        else packInts (digits.getD 0 0) (digits.getD 1 0) (digits.getD 2 0)
          (digits.getD 3 0) false) =
        packInts (digits.getD 0 0) (digits.getD 1 0) (digits.getD 2 0)
          (digits.getD 3 0) false := by
      rw [packInts]
      split <;> rfl
    rw [if_neg hlong, hpack]
    exact packInts_spec false hints

/-- The quotient and the remainder of the scaled magnitudes, with their signs. -/
theorem divide_spec (dividend divisor : UnscaledDecimal128) {j u v : ℕ} (hk : k < 38) (hj : j < 38)
    (hpos : 0 < divisor.magnitude) (hu : dividend.magnitude * 10 ^ k = u)
    (hv : divisor.magnitude * 10 ^ j = v) :
    SucceedsBelow (10 ^ 38) (max (u / v) (u % v))
      (fun result => Signed (u / v) (dividend.isNegative != divisor.isNegative) result.1 ∧
        Signed (u % v) dividend.isNegative result.2)
      (divide dividend k divisor j) := by
  obtain ⟨dividendInts, hscale, hdividend, hfits⟩ :=
    dividend.scaleUp_spec (n := 5) (by norm_num) hk
  obtain ⟨divisorInts, hscale', hdivisor, -⟩ := divisor.scaleUp_spec (n := 4) le_rfl hj
  obtain ⟨quotientInts, remainderInts, hdivide, hquotient, hremainder⟩ :=
    divideUnsignedMultiPrecision_spec hdividend hfits hdivisor
      (mul_pos hpos (by positivity))
  rw [divide, if_neg (by rw [compare_zero_iff]; omega), if_neg (by omega), if_neg (by omega),
    hscale, Result.bind_ok, hscale', Result.bind_ok, hdivide]
  rw [hu, hv] at hquotient hremainder
  refine (packUnsigned_spec (by norm_num) hquotient).bind (by omega) fun quotient hq _ => ?_
  refine (packUnsigned_spec (by norm_num) hremainder).bind (by omega) fun remainder hr _ => ?_
  have hq' := hq.setNegative (dividend.isNegative != divisor.isNegative)
  have hr' := hr.setNegative dividend.isNegative
  refine (throwIfOverflows_spec hq'.1).bind (by omega) fun _ _ hqlt => ?_
  refine (throwIfOverflows_spec hr'.1).bind (by omega) fun _ _ hrlt => ?_
  exact .of_ok rfl ⟨hq', hr'⟩ (max_lt hqlt hrlt)

/-- The division splits the scaled dividend into a multiple of the scaled divisor and a smaller
remainder; it throws just when one of the two has more than 38 digits. -/
theorem divide_exact
    (dividend divisor : UnscaledDecimal128) (a b : ℕ) (ha : a < 38) (hb : b < 38)
    (hdivisor : divisor.magnitude ≠ 0) :
    ∃ q r, dividend.magnitude * 10 ^ a = q * (divisor.magnitude * 10 ^ b) + r ∧
      r < divisor.magnitude * 10 ^ b ∧
      if q < 10 ^ 38 ∧ r < 10 ^ 38 then
        ∃ result, divide dividend a divisor b = .ok result ∧
          Signed q (dividend.isNegative != divisor.isNegative) result.1 ∧
          Signed r dividend.isNegative result.2
      else divide dividend a divisor b = .error overflowException := by
  have hpos := Nat.pos_of_ne_zero hdivisor
  have hspec := divide_spec dividend divisor ha hb hpos rfl rfl
  rw [SucceedsBelow, if_congr max_lt_iff rfl rfl] at hspec
  exact ⟨_, _, (Nat.div_add_mod' _ _).symm, Nat.mod_lt _ (by positivity), hspec⟩

theorem divide_exact_sevenHalves :
    ∃ result, divide (ofLong 7) 0 (ofLong 2) 0 = .ok result ∧ Signed 3 false result.1 ∧
      Signed 1 false result.2 := by
  obtain ⟨q, r, hsplit, hlt, hresult⟩ :=
    divide_exact (ofLong 7) (ofLong 2) 0 0 (by decide) (by decide) (by decide)
  have hseven : (ofLong 7).magnitude = 7 := by decide
  have htwo : (ofLong 2).magnitude = 2 := by decide
  rw [htwo] at hsplit hlt
  obtain ⟨rfl, rfl⟩ : q = 3 ∧ r = 1 := by omega
  exact hresult

/-! ## Rounding -/

/-- The raw longs of a shift by one hold twice the magnitude, the sign bit included. -/
theorem shiftLeftDestructive_one (decimal : UnscaledDecimal128) :
    ∃ doubled, shiftLeftDestructive (decimal.setNegative false) 1 = .ok doubled ∧
      doubled.rawLow + 2 ^ 64 * doubled.rawHigh = 2 * decimal.magnitude := by
  have hlow := decimal.rawLow_lt
  have hhigh := decimal.highLong_lt
  have hlowLong : (decimal.setNegative false).lowLong = decimal.rawLow :=
    pack_rawLow _ _ hlow
  have hhighLong : (decimal.setNegative false).highLong = decimal.highLong := by
    have hmagnitude := magnitude_setNegative decimal false
    rw [magnitude, magnitude, hlowLong, lowLong] at hmagnitude
    omega
  have hor : decimal.highLong * 2 ||| decimal.rawLow / 2 ^ 63 =
      decimal.highLong * 2 + decimal.rawLow / 2 ^ 63 := by
    have h := two_pow_add_eq_or_of_lt (b := decimal.rawLow / 2 ^ 63) (i := 1) (by omega)
      decimal.highLong
    rw [mul_comm] at h
    exact h.symm
  have hshift : shiftLeftDestructive (decimal.setNegative false) 1 =
      .ok (pack (decimal.rawLow * 2 % 2 ^ 64) (decimal.highLong * 2 + decimal.rawLow / 2 ^ 63)
        false) := by
    have hlost : decimal.highLong / 2 ^ 63 = 0 := div_eq_of_lt hhigh
    have hmod : decimal.highLong * 2 % 2 ^ 64 = decimal.highLong * 2 :=
      mod_eq_of_lt (by omega)
    simp only [shiftLeftDestructive, reduceDiv, reduceMod, pow_one, if_true, hlowLong,
      hhighLong, hlost, hmod, hor, isNegative_setNegative, ne_eq, not_true_eq_false, and_false,
      one_ne_zero, zero_ne_one, false_and, if_false, not_lt_zero, zero_lt_one]
  refine ⟨_, hshift, ?_⟩
  simp only [pack, withSign, ofRawLongs, magnitude, lowLong, Bool.false_eq_true, if_false]
  omega

/-- What `incrementUnsafe` makes of a magnitude. -/
def incremented (n : ℕ) : ℕ := if n % 2 ^ 64 = 2 ^ 64 - 1 then n + 2 ^ 64 else n + 1

variable {decimal : UnscaledDecimal128}

theorem incrementUnsafe_spec (h : decimal.magnitude < 10 ^ 38) :
    Signed (incremented decimal.magnitude) decimal.isNegative decimal.incrementUnsafe := by
  have hlow := decimal.rawLow_lt
  have hmod : decimal.magnitude % 2 ^ 64 = decimal.lowLong := by
    rw [magnitude, lowLong]
    omega
  rw [incremented, hmod]
  split
  · rename_i heq
    rw [incrementUnsafe, if_neg (not_not.mpr heq)]
    rw [magnitude] at h
    refine signed_pack _ hlow (by omega) ?_
    rw [magnitude, lowLong] at *
    omega
  · rename_i hne
    exact incrementUnsafe_of_ne hne

/-- The magnitude that a rounding by `incrementUnsafe` gives for a fraction. -/
def roundedMagnitude (n d : ℕ) : ℕ :=
  if d ≤ 2 * (n % d) then incremented (n / d) else n / d

theorem le_roundedMagnitude (n d : ℕ) : n / d ≤ roundedMagnitude n d := by
  unfold roundedMagnitude incremented
  split_ifs <;> omega

variable {d : ℕ}

theorem roundedMagnitude_eq_zero_iff (hd : 0 < d) : roundedMagnitude n d = 0 ↔ 2 * n < d := by
  have hne : incremented (n / d) ≠ 0 := by
    unfold incremented
    split <;> exact succ_ne_zero _
  rw [← roundedQuotient_eq_zero_iff hd, roundedQuotient_eq hd, roundedMagnitude]
  split
  next => exact iff_of_false hne (succ_ne_zero _)
  next => rfl

theorem roundedMagnitude_zero (hd : 0 < d) : roundedMagnitude 0 d = 0 :=
  (roundedMagnitude_eq_zero_iff hd).mpr hd

theorem roundQuotient_spec {quotient : UnscaledDecimal128} (hmagnitude : quotient.magnitude = n / d)
    (hlt : n / d < 10 ^ 38) :
    SucceedsBelow (10 ^ 38) (roundedMagnitude n d) (magnitude · = roundedMagnitude n d)
      (roundQuotient quotient (decide (d ≤ 2 * (n % d)))) := by
  rw [roundQuotient, roundedMagnitude]
  by_cases hround : d ≤ 2 * (n % d)
  · have hincrement := (incrementUnsafe_spec (hmagnitude ▸ hlt)).1
    rw [hmagnitude] at hincrement
    rw [if_pos hround, if_pos (decide_eq_true hround)]
    exact (throwIfOverflows_spec hincrement).bind id fun _ _ => .of_ok rfl hincrement
  · rw [if_neg hround, if_neg (by simpa using hround)]
    exact .of_ok rfl hmagnitude hlt

theorem divideRoundUpRaw_spec (dividend divisor : UnscaledDecimal128) {u v : ℕ} (hk : k < 38)
    (hpos : 0 < v) (hu : dividend.magnitude * 10 ^ k = u) (hv : divisor.magnitude = v) :
    SucceedsBelow (10 ^ 38) (max (roundedMagnitude u v) (u % v))
      (Signed (roundedMagnitude u v) (dividend.isNegative != divisor.isNegative))
      (divideRoundUpRaw dividend k divisor) := by
  have hle := le_roundedMagnitude u v
  have hdivide := divide_spec dividend divisor (j := 0) hk (by norm_num) (hv ▸ hpos) hu
    ((mul_one _).trans hv)
  refine hdivide.bind (by omega) fun result hresult hmax => ?_
  obtain ⟨hquotient, hremainder⟩ := hresult
  obtain ⟨doubled, hshift, hdoubled⟩ := shiftLeftDestructive_one result.2
  have hround : (compareUnsigned doubled.rawLow doubled.rawHigh divisor.rawLow
      (unpackUnsignedLong divisor.rawHigh) != .lt) = decide (v ≤ 2 * (u % v)) := by
    rw [compareUnsigned_eq _ _ doubled.rawLow_lt divisor.rawLow_lt, hdoubled, hremainder.1,
      Bool.eq_iff_iff, bne_iff_ne, decide_eq_true_eq, ne_eq, Nat.compare_eq_lt, not_lt, ← hv]
    rfl
  rw [hshift, Result.bind_ok, hround]
  refine (roundQuotient_spec (hquotient.setNegative false).1 (by omega)).bind (by omega)
    fun rounded hrounded hlt => .of_ok rfl ⟨?_, ?_⟩ (by omega)
  · rw [magnitude_setNegative, hrounded]
  · rw [isNegative_setNegative, hquotient.2]

/-! ## Operands -/

theorem Operand.raw_long (x : Int64) : (Operand.long x).raw = ofLong x := by
  rw [raw, ofLong]
  split <;> rfl

/-- Both kinds of operand pass on the integer they stand for. -/
theorem Operand.toBigInteger_raw (operand : Operand) :
    operand.raw.toBigInteger = operand.value := by
  cases operand with
  | slice decimal => rfl
  | long x => rw [raw_long, toBigInteger_ofLong, value]

theorem sign_toBigInteger (h : decimal.magnitude ≠ 0) :
    decimal.toBigInteger.sign = if decimal.isNegative then -1 else 1 := by
  have hpos : (0 : ℤ) < decimal.magnitude := by omega
  rw [toBigInteger]
  split
  · exact Int.sign_eq_neg_one_of_neg (neg_neg_of_pos hpos)
  · exact Int.sign_eq_one_of_pos hpos

/-- The integer that `divideRoundUp` returns depends on the integers it divides only. -/
theorem divideRoundUp_toBigInteger (dividend divisor : Operand) (hk : k < 38)
    (hne : divisor.value ≠ 0) (hdivisor : divisor.value.natAbs < 10 ^ 38) :
    (divideRoundUp dividend k divisor).map toBigInteger =
      if 10 ^ 38 ≤ roundedMagnitude (dividend.value.natAbs * 10 ^ k) divisor.value.natAbs then
        .error overflowException
      else .ok (dividend.value.sign * divisor.value.sign *
        roundedMagnitude (dividend.value.natAbs * 10 ^ k) divisor.value.natAbs) := by
  have hvalue := dividend.toBigInteger_raw
  have hvalue' := divisor.toBigInteger_raw
  rw [← hvalue'] at hne hdivisor ⊢
  rw [← hvalue]
  rw [natAbs_toBigInteger] at hdivisor
  have hpos : 0 < divisor.raw.magnitude := by
    rw [← natAbs_toBigInteger]
    exact Int.natAbs_pos.mpr hne
  rw [natAbs_toBigInteger, natAbs_toBigInteger]
  have hspec := divideRoundUpRaw_spec dividend.raw divisor.raw hk hpos rfl rfl
  have hmod := mod_lt (dividend.raw.magnitude * 10 ^ k) hpos
  rw [SucceedsBelow] at hspec
  split
  · rw [if_neg (by omega)] at hspec
    rw [divideRoundUp, hspec]
    rfl
  · rw [if_pos (by omega)] at hspec
    obtain ⟨quotient, hquotient, hmagnitude, hnegative⟩ := hspec
    rw [divideRoundUp, hquotient]
    refine congrArg Except.ok ?_
    rw [toBigInteger, hnegative, hmagnitude]
    by_cases hzero : dividend.raw.magnitude = 0
    · rw [hzero, zero_mul, roundedMagnitude_zero hpos]
      simp
    · rw [sign_toBigInteger hzero, sign_toBigInteger hpos.ne']
      cases dividend.raw.isNegative <;> cases divisor.raw.isNegative <;> simp

/-! ## Rounding of the exact quotient -/

/-- The quotients that round up to a multiple of `2 ^ 64`. -/
def CarriesIntoHighLong (x : ℚ) : Prop :=
  ∃ m : ℕ, m * 2 ^ 64 < 10 ^ 38 ∧ m * 2 ^ 64 - 1 / 2 ≤ |x| ∧ |x| < m * 2 ^ 64

/-- `divideRoundUp` returns the quotient rounded to the nearest integer, or throws because
that is too large. -/
def DividesRoundingUp (dividend : Operand) (k : ℕ) (divisor : Operand) : Prop :=
  (∃ quotient, divideRoundUp dividend k divisor = .ok quotient ∧
    quotient.toBigInteger = roundHalfUp (dividend.value * 10 ^ k / divisor.value)) ∨
  (∃ message, divideRoundUp dividend k divisor = .error (.arithmetic message) ∧
    10 ^ 38 ≤ |roundHalfUp (dividend.value * 10 ^ k / divisor.value)|)

/-- Operands for the same integers, of either kind, have the same outcome. -/
def OverloadsAgree (dividend : Operand) (k : ℕ) (divisor : Operand) : Prop :=
  ∀ dividend' divisor' : Operand,
    dividend'.value = dividend.value → divisor'.value = divisor.value →
    (divideRoundUp dividend' k divisor').map toBigInteger =
      (divideRoundUp dividend k divisor).map toBigInteger

theorem abs_signedQuotient (a b : ℤ) (k : ℕ) :
    |(a : ℚ) * 10 ^ k / b| = ((a.natAbs * 10 ^ k : ℕ) : ℚ) / (b.natAbs : ℕ) := by
  rw [abs_div, abs_mul, abs_of_pos (by positivity : (0 : ℚ) < 10 ^ k)]
  push_cast [cast_natAbs]
  rfl

theorem carriesIntoHighLong_iff {x : ℚ} (hd : 0 < d) (hx : |x| = (n : ℚ) / d) :
    CarriesIntoHighLong x ↔
      d ≤ 2 * (n % d) ∧ n / d % 2 ^ 64 = 2 ^ 64 - 1 ∧ n / d + 1 < 10 ^ 38 := by
  have hcarry : ∀ m : ℕ, (m * 2 ^ 64 - 1 / 2 ≤ |x| ∧ |x| < m * 2 ^ 64) ↔
      n / d + 1 = m * 2 ^ 64 ∧ d ≤ 2 * (n % d) := by
    intro m
    rw [hx, ← sub_half_le_div_and_lt_iff (m * 2 ^ 64) hd]
    push_cast
    rfl
  constructor
  · rintro ⟨m, hm, hbelow⟩
    obtain ⟨hsucc, hround⟩ := (hcarry m).mp hbelow
    exact ⟨hround, by omega, by omega⟩
  · rintro ⟨hround, hmod, hlt⟩
    have hsucc : n / d + 1 = (n / d + 1) / 2 ^ 64 * 2 ^ 64 := by omega
    exact ⟨(n / d + 1) / 2 ^ 64, hsucc ▸ hlt, (hcarry _).mpr ⟨hsucc, hround⟩⟩

/-- The computed magnitude is the rounded one unless rounding carries. -/
theorem roundedMagnitude_eq_iff (hd : 0 < d) :
    roundedMagnitude n d = roundedQuotient n d ↔
      ¬(d ≤ 2 * (n % d) ∧ n / d % 2 ^ 64 = 2 ^ 64 - 1) := by
  rw [roundedQuotient_eq hd, roundedMagnitude, incremented]
  split_ifs <;> omega

theorem roundHalfUp_quotient (a b : ℤ) (k : ℕ) (hb : b ≠ 0) :
    roundHalfUp (a * 10 ^ k / b) =
      a.sign * b.sign * roundedQuotient (a.natAbs * 10 ^ k) b.natAbs := by
  have hd : 0 < b.natAbs := Int.natAbs_pos.mpr hb
  have hneg : (a : ℚ) * 10 ^ k / b < 0 ↔ a * b < 0 := by
    have hscaled : (a : ℚ) * 10 ^ k / b = (a * b : ℤ) / (b ^ 2 / 10 ^ k) := by
      push_cast
      field_simp
    rw [hscaled, div_lt_iff₀ (by positivity), zero_mul, Int.cast_lt_zero]
  rw [roundHalfUp_eq hd (abs_signedQuotient a b k), if_congr hneg rfl rfl, ← Int.sign_mul]
  rcases lt_trichotomy (a * b) 0 with hlt | hzero | hgt
  · rw [if_pos hlt, Int.sign_eq_neg_one_of_neg hlt, neg_one_mul]
  · obtain rfl : a = 0 := (mul_eq_zero.mp hzero).resolve_right hb
    simp [roundedQuotient_zero hd]
  · rw [if_neg hgt.not_gt, Int.sign_eq_one_of_pos hgt, one_mul]

/-- The outcomes that are allowed, in terms of the integer returned. -/
theorem dividesRoundingUp_iff {dividend divisor : Operand} {x : ℤ}
    (hx : roundHalfUp (dividend.value * 10 ^ k / divisor.value) = x) :
    DividesRoundingUp dividend k divisor ↔
      (divideRoundUp dividend k divisor).map toBigInteger = .ok x ∨
      ∃ message, (divideRoundUp dividend k divisor).map toBigInteger =
        .error (.arithmetic message) ∧ 10 ^ 38 ≤ |x| := by
  rw [DividesRoundingUp, hx]
  cases divideRoundUp dividend k divisor with
  | ok _ | error _ => simp [Except.map]

/-- The outcome for a computed magnitude is an allowed one unless rounding carries. -/
theorem signedOutcome_iff {s : ℤ} {outcome : Result ℤ} (hd : 0 < d)
    (houtcome : outcome = if 10 ^ 38 ≤ roundedMagnitude n d then .error overflowException
      else .ok (s * roundedMagnitude n d))
    (habs : (s * roundedQuotient n d).natAbs = roundedQuotient n d) :
    (outcome = .ok (s * roundedQuotient n d) ∨
      ∃ message, outcome = .error (.arithmetic message) ∧
        10 ^ 38 ≤ |s * roundedQuotient n d|) ↔
      ¬(d ≤ 2 * (n % d) ∧ n / d % 2 ^ 64 = 2 ^ 64 - 1 ∧ n / d + 1 < 10 ^ 38) := by
  rw [Int.abs_eq_natAbs, habs, houtcome]
  by_cases hcarry : d ≤ 2 * (n % d) ∧ n / d % 2 ^ 64 = 2 ^ 64 - 1
  · have hmagnitude : roundedMagnitude n d = n / d + 2 ^ 64 := by
      rw [roundedMagnitude, if_pos hcarry.1, incremented, if_pos hcarry.2]
    have hrounded : roundedQuotient n d = n / d + 1 := by
      rw [roundedQuotient_eq hd, if_pos hcarry.1]
    have hs : s ≠ 0 := by
      rintro rfl
      rw [Int.zero_mul, hrounded] at habs
      exact absurd habs.symm (succ_ne_zero _)
    have hne : s * (roundedMagnitude n d : ℤ) ≠ s * roundedQuotient n d := by
      rw [ne_eq, mul_right_inj' hs]
      omega
    split
    · simp only [overflowException, reduceCtorEq, Except.error.injEq,
        Throwable.arithmetic.injEq, exists_eq_left', false_or, hcarry, true_and, not_lt,
        hrounded]
      exact_mod_cast Iff.rfl
    · refine iff_of_false ?_ (not_not.mpr ⟨hcarry.1, hcarry.2, ?_⟩)
      · simp [hne]
      · omega
  · have hequal := (roundedMagnitude_eq_iff hd).mpr hcarry
    rw [hequal]
    have hright : ¬(d ≤ 2 * (n % d) ∧ n / d % 2 ^ 64 = 2 ^ 64 - 1 ∧ n / d + 1 < 10 ^ 38) :=
      fun h => hcarry ⟨h.1, h.2.1⟩
    refine iff_of_true ?_ hright
    split
    · exact Or.inr ⟨_, rfl, by omega⟩
    · exact Or.inl rfl

/-- The division rounds to the nearest integer, by all overloads alike, exactly when
rounding does not carry into the high long. -/
theorem divideRoundUp_rounds_iff
    (dividend divisor : Operand) (k : ℕ) (hk : k < 38)
    (hne : divisor.value ≠ 0) (hdivisor : |divisor.value| < 10 ^ 38) :
    DividesRoundingUp dividend k divisor ∧ OverloadsAgree dividend k divisor ↔
      ¬CarriesIntoHighLong (dividend.value * 10 ^ k / divisor.value) := by
  have hdivisor' : divisor.value.natAbs < 10 ^ 38 := by
    rw [Int.abs_eq_natAbs] at hdivisor
    omega
  have hd : 0 < divisor.value.natAbs := Int.natAbs_pos.mpr hne
  have hrounded := roundHalfUp_quotient dividend.value divisor.value k hne
  have habs := natAbs_roundHalfUp hd (abs_signedQuotient dividend.value divisor.value k)
  have hagree : OverloadsAgree dividend k divisor := by
    intro dividend' divisor' hdividend hvalue
    rw [divideRoundUp_toBigInteger dividend divisor hk hne hdivisor', ← hvalue, ← hdividend]
    rw [← hvalue] at hne hdivisor'
    exact divideRoundUp_toBigInteger dividend' divisor' hk hne hdivisor'
  rw [and_iff_left hagree,
    dividesRoundingUp_iff hrounded, carriesIntoHighLong_iff hd (abs_signedQuotient _ _ k)]
  rw [hrounded] at habs
  exact signedOutcome_iff hd
    (divideRoundUp_toBigInteger dividend divisor hk hne hdivisor') habs

theorem divideRoundUp_sevenHalves_rounds_iff :
    ((Operand.long 2).value ≠ 0 ∧ |(Operand.long 2).value| < 10 ^ 38) ∧
    (DividesRoundingUp (.long 7) 0 (.long 2) ∧ OverloadsAgree (.long 7) 0 (.long 2) ↔
      ¬CarriesIntoHighLong ((Operand.long 7).value * 10 ^ 0 / (Operand.long 2).value)) :=
  ⟨⟨by decide, by decide⟩,
    divideRoundUp_rounds_iff (.long 7) (.long 2) 0 (by decide) (by decide) (by decide)⟩

/-- Half of `2 ^ 65 - 1` is rounded up to `2 ^ 64`, and `2 ^ 65 - 1` is returned. -/
theorem divideRoundUp_carry_not_rounded :
    ¬DividesRoundingUp (.slice (ofRawLongs (2 ^ 64 - 1) 1)) 0 (.long 2) := by
  have houtcome : (divideRoundUp (.slice (ofRawLongs (2 ^ 64 - 1) 1)) 0 (.long 2)).map
      toBigInteger = .ok (2 ^ 65 - 1) := by
    decide +kernel
  have hrounded : roundHalfUp ((Operand.slice (ofRawLongs (2 ^ 64 - 1) 1)).value * 10 ^ 0 /
      (Operand.long 2).value) = 2 ^ 64 := by
    decide +kernel
  rw [dividesRoundingUp_iff hrounded, houtcome]
  simp

end Presto.Types.UnscaledDecimal128
