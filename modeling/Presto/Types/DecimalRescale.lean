import Presto.Types.DecimalDivision

/-!
# Rescaling of decimals

A decimal is scaled up by a product that must fit 127 bits, and down by one of
three paths: a division of longs, staged divisions by powers of ten, or staged
divisions by powers of five followed by a shift.  The paths compute the same
quotients; the rounding increment of the second one is `incrementUnsafe`.
-/

namespace Presto.Types.UnscaledDecimal128

open Support Nat

/-! ## The code -/

/-- `POWERS_OF_TEN[k]`. -/
def powerOfTen (k : ℕ) : UnscaledDecimal128 :=
  pack (10 ^ k % 2 ^ 64) (10 ^ k / 2 ^ 64) false

/-- The ints of a row of the product, if there is no carry out of it. -/
def checkCarry (row : List ℕ) : Result (List ℕ) :=
  if row.getLastD 0 ≠ 0 then .error overflowException else .ok row.dropLast

/-- The row for one int of the left operand; a row of zero is skipped. -/
def fittingRow (li : ℕ) (r z : List ℕ) : Result (List ℕ) :=
  if li ≠ 0 then checkCarry (multiplyRow li r z 0) else .ok z

/-- The rows of a product that must fit the ints of the operands: the row for an
int of the left operand leaves out the ints of the right one that would be
multiplied beyond the last place. -/
def multiplyFittingRows : (r l z : List ℕ) → Result (List ℕ)
  | _, [], z => .ok z
  | r, li :: l, z => do
      let row ← fittingRow li r z
      match row with
      | [] => .ok []
      | z0 :: z => do
          let rest ← multiplyFittingRows r.dropLast l z
          pure (z0 :: rest)

/-- The combinations of ints that definitely result in an overflow. -/
def definitelyOverflows (left right : UnscaledDecimal128) : Bool :=
  (right.getInt 3 != 0 && (left.getInt 3 ||| left.getInt 2 ||| left.getInt 1) != 0) ||
  (right.getInt 2 != 0 && (left.getInt 3 ||| left.getInt 2) != 0) ||
  (right.getInt 1 != 0 && left.getInt 3 != 0)

def multiply (left right : UnscaledDecimal128) : Result UnscaledDecimal128 :=
  if definitelyOverflows left right then .error overflowException
  else do
    let z ← multiplyFittingRows right.getInts left.getInts [0, 0, 0, 0]
    packInts (z.getD 0 0) (z.getD 1 0) (z.getD 2 0) (z.getD 3 0)
      (left.isNegative != right.isNegative)

variable (decimal : UnscaledDecimal128)

/-- `divide` by a positive int: the quotient and the remainder. -/
def divideInt (divisor : ℕ) : Result (UnscaledDecimal128 × ℕ) :=
  if divisor = 0 then .error divisionByZeroException
  else
    let high := decimal.highLong / divisor
    let remainder := wrapLong (decimal.getInt 1 + decimal.highLong % divisor * 2 ^ 32)
    let z1 := remainder / divisor % 2 ^ 32
    let remainder := wrapLong (decimal.getInt 0 + remainder % divisor * 2 ^ 32)
    let z0 := remainder / divisor % 2 ^ 32
    .ok (pack (z0 + 2 ^ 32 * z1) high decimal.isNegative, remainder % divisor)

/-- `divideCheckRound`: the quotient, and whether the remainder is at least half
of the divisor. -/
def divideCheckRound (divisor : ℕ) : Result (UnscaledDecimal128 × Bool) := do
  let result ← divideInt decimal divisor
  pure (result.1, decide (divisor / 2 ≤ result.2))

/-- The loop that divides by a power of `base`, at most `maxPower` digits at a time:
the quotient, and the rounding decision of the last division. -/
def scaleDownBy (base maxPower : ℕ) [NeZero maxPower] (decimal : UnscaledDecimal128)
    (scale : ℕ) : Result (UnscaledDecimal128 × Bool) := do
  let power := min scale maxPower
  let result ← divideCheckRound decimal (base ^ power)
  if _h : scale - power = 0 then pure result
  else scaleDownBy base maxPower result.1 (scale - power)
termination_by scale
decreasing_by
  have hpos := NeZero.pos maxPower
  omega

/-- `MAX_POWER_OF_FIVE_INT` digits are divided at a time. -/
def scaleDownFive (fiveScale : ℕ) : Result UnscaledDecimal128 := do
  let result ← scaleDownBy 5 13 decimal fiveScale
  pure result.1

/-- `MAX_POWER_OF_TEN_INT` digits are divided at a time. -/
def scaleDownTenTruncate (tenScale : ℕ) : Result UnscaledDecimal128 := do
  let result ← scaleDownBy 10 9 decimal tenScale
  pure result.1

def scaleDownTenRoundUp (tenScale : ℕ) : Result UnscaledDecimal128 := do
  let result ← scaleDownBy 10 9 decimal tenScale
  pure (if result.2 then result.1.incrementUnsafe else result.1)

/-- `getLong`. -/
def getLong : ℕ → ℕ
  | 0 => decimal.lowLong
  | _ => decimal.highLong

/-- The bit below the last one that a shift keeps. -/
def roundCarry (wordShifts bitShiftsInWord : ℕ) : Bool :=
  if bitShiftsInWord = 0 then decide (2 ^ 63 ≤ decimal.getLong (wordShifts - 1))
  else decimal.getLong wordShifts / 2 ^ (bitShiftsInWord - 1) % 2 != 0

def shiftRight (rightShifts : ℕ) (roundUp : Bool) : Result UnscaledDecimal128 :=
  let wordShifts := rightShifts / 64
  let bitShiftsInWord := rightShifts % 64
  let shiftRestore := 64 - bitShiftsInWord
  if rightShifts = 0 then .ok decimal
  else if 1 < wordShifts then .error (.illegalArgument "")
  else
    let low := if wordShifts = 0 then decimal.lowLong else decimal.highLong
    let high := if wordShifts = 0 then decimal.highLong else 0
    let shiftedLow :=
      if 0 < bitShiftsInWord then
        low / 2 ^ bitShiftsInWord ||| high * 2 ^ shiftRestore % 2 ^ 64
      else low
    let shiftedHigh := if 0 < bitShiftsInWord then high / 2 ^ bitShiftsInWord else high
    if roundUp && decimal.roundCarry wordShifts bitShiftsInWord then
      if shiftedLow ≠ 2 ^ 64 - 1 then
        .ok (pack (shiftedLow + 1) shiftedHigh decimal.isNegative)
      else .ok (pack 0 (shiftedHigh + 1) decimal.isNegative)
    else .ok (pack shiftedLow shiftedHigh decimal.isNegative)

/-- The values of the optimized path: those that are positive longs. -/
def isSmall (scaleFactor : ℕ) : Bool :=
  decide (scaleFactor ≤ 18) && decimal.highLong == 0 && decide (decimal.lowLong < 2 ^ 63)

/-- The optimized path of `scaleDownRoundUp`. -/
def scaleDownLongRoundUp (scaleFactor : ℕ) : UnscaledDecimal128 :=
  let divisor := 10 ^ scaleFactor
  let newLow := decimal.lowLong / divisor
  pack (if divisor / 2 ≤ decimal.lowLong % divisor then newLow + 1 else newLow) 0
    decimal.isNegative

/-- The optimized path of `scaleDownTruncate`. -/
def scaleDownLongTruncate (scaleFactor : ℕ) : UnscaledDecimal128 :=
  pack (decimal.lowLong / 10 ^ scaleFactor) 0 decimal.isNegative

/-- The path by powers of five and a shift: 10 is 5 times 2. -/
def scaleDownFiveAndShift (scaleFactor : ℕ) (roundUp : Bool) : Result UnscaledDecimal128 := do
  let result ← scaleDownFive decimal scaleFactor
  shiftRight result scaleFactor roundUp

/-- The scale factors for which fewer divisions are needed by powers of five. -/
def prefersFive (scaleFactor : ℕ) : Bool := decide ((scaleFactor - 1) / 13 < (scaleFactor - 1) / 9)

def scaleDownRoundUp (scaleFactor : ℕ) : Result UnscaledDecimal128 :=
  if decimal.isSmall scaleFactor then .ok (decimal.scaleDownLongRoundUp scaleFactor)
  else if prefersFive scaleFactor then decimal.scaleDownFiveAndShift scaleFactor true
  else decimal.scaleDownTenRoundUp scaleFactor

def scaleDownTruncate (scaleFactor : ℕ) : Result UnscaledDecimal128 :=
  if decimal.isSmall scaleFactor then .ok (decimal.scaleDownLongTruncate scaleFactor)
  else if prefersFive scaleFactor then decimal.scaleDownFiveAndShift scaleFactor false
  else decimal.scaleDownTenTruncate scaleFactor

/-- The common part of `rescale` and `rescaleTruncate`. -/
def rescaleWith (scaleDown : UnscaledDecimal128 → ℕ → Result UnscaledDecimal128)
    (decimal : UnscaledDecimal128) (rescaleFactor : ℤ) : Result UnscaledDecimal128 :=
  if rescaleFactor = 0 then .ok decimal
  else if 0 < rescaleFactor then
    if 38 ≤ rescaleFactor then .error overflowException
    else multiply decimal (powerOfTen rescaleFactor.toNat)
  else scaleDown decimal (-rescaleFactor).toNat

def rescale : UnscaledDecimal128 → ℤ → Result UnscaledDecimal128 :=
  rescaleWith scaleDownRoundUp

def rescaleTruncate : UnscaledDecimal128 → ℤ → Result UnscaledDecimal128 :=
  rescaleWith scaleDownTruncate

/-! ## Products -/

/-- The ints of two operands of which no product exceeds the last place. -/
def FitRows : (r l : List ℕ) → Prop
  | _, [] => True
  | r, _ :: l => (r.getLastD 0 = 0 ∨ ∀ x ∈ l, x = 0) ∧ FitRows r.dropLast l

/-- The row of one int, or an overflow out of it. -/
theorem fittingRow_spec
    {li n x y : ℕ} {r z : List ℕ} (hli : li < 2 ^ 32) (hr : Ints r n x) (hz : Ints z n y) :
    SucceedsBelow ((2 ^ 32) ^ n) (x * li + y) (Ints · n (x * li + y)) (fittingRow li r z) := by
  rw [fittingRow]
  by_cases hzero : li = 0
  · rw [hzero, mul_zero, zero_add]
    exact .of_ok rfl hz hz.lt
  · have hrow : Ints (multiplyRow li r z 0) (n + 1) (x * li + y) :=
      multiplyRow_spec hli r hr hz (by norm_num)
    rw [if_pos hzero, checkCarry, hrow.getLastD, SucceedsBelow]
    by_cases hlt : x * li + y < (2 ^ 32) ^ n
    · rw [if_pos hlt, if_neg (not_not.mpr (div_eq_of_lt hlt))]
      exact ⟨_, rfl, hrow.dropLast.congr rfl (mod_eq_of_lt hlt)⟩
    · rw [if_neg hlt, if_pos (mt (div_eq_zero_iff_lt (by positivity)).mp hlt)]

/-- The product, or an overflow if it has too many ints. -/
theorem multiplyFittingRows_spec (l : List ℕ) :
    ∀ {r z : List ℕ} {n x y w : ℕ}, Ints l n x → Ints r n y → Ints z n w → FitRows r l →
      SucceedsBelow ((2 ^ 32) ^ n) (x * y + w) (Ints · n (x * y + w))
        (multiplyFittingRows r l z) := by
  induction l with
  | nil =>
      intro r z n x y w hl hr hz _
      obtain rfl : 0 = x := hl.value
      rw [zero_mul, zero_add]
      exact .of_ok rfl hz hz.lt
  | cons li l ih =>
      intro r z n x y w hl hr hz hfit
      obtain ⟨hli, n, x, hl', rfl, rfl⟩ := hl.of_cons
      -- the last int of the right operand does not take part in the remaining rows
      have hlast : x * y = x * (y % (2 ^ 32) ^ n) := by
        rcases hfit.1 with hlast | hzero
        · rw [hr.getLastD, div_eq_zero_iff_lt (by positivity)] at hlast
          rw [mod_eq_of_lt hlast]
        · rw [← hl'.value, List.eq_replicate_of_mem hzero, ofDigits_replicate_zero,
            zero_mul, zero_mul]
      have hsplit : (li + 2 ^ 32 * x) * y + w =
          y * li + w + 2 ^ 32 * (x * (y % (2 ^ 32) ^ n)) := by
        rw [← hlast]
        ring
      rw [hsplit]
      refine (fittingRow_spec hli hr hz).bind (by omega) fun row hrow _ => ?_
      obtain ⟨z0, z', m, w', rfl, hz0, hz', hm, hvalue⟩ := hrow.exists_cons (by omega)
      obtain rfl : n = m := by omega
      have hproduct := ih hl' hr.dropLast hz' hfit.2
      rw [hvalue, pow_succ']
      refine hproduct.bind (by omega) fun product hproduct hlt => ?_
      exact .of_ok rfl ((hproduct.cons hz0).congr rfl (by ring)) (by omega)

theorem pow_le_mul_of_not_fitRows (l : List ℕ) :
    ∀ {r : List ℕ} {n x y : ℕ}, Ints l n x → Ints r n y → ¬FitRows r l → (2 ^ 32) ^ n ≤ x * y := by
  induction l with
  | nil => exact fun _ _ h => absurd trivial h
  | cons li l ih =>
      intro r n x y hl hr hfit
      obtain ⟨hli, n, x, hl', rfl, rfl⟩ := hl.of_cons
      have hle : (2 ^ 32) ^ n ≤ x * y := by
        rw [FitRows, not_and_or] at hfit
        rcases hfit with hlast | hrest
        · obtain ⟨hlast, hnonzero⟩ := not_or.mp hlast
          rw [hr.getLastD, div_eq_zero_iff_lt (by positivity), not_lt] at hlast
          have hx : 0 < x := by
            refine pos_of_ne_zero fun hzero => hnonzero ?_
            exact digits_zero_of_eq_zero (by norm_num) (hl'.value.trans hzero)
          exact hlast.trans (Nat.le_mul_of_pos_left y hx)
        · exact (ih hl' hr.dropLast hrest).trans (mul_le_mul_left x (mod_le _ _))
      calc (2 ^ 32) ^ (n + 1) = 2 ^ 32 * (2 ^ 32) ^ n := pow_succ' _ _
        _ ≤ 2 ^ 32 * (x * y) := mul_le_mul_left _ hle
        _ = (2 ^ 32 * x) * y := (mul_assoc _ _ _).symm
        _ ≤ (li + 2 ^ 32 * x) * y := mul_le_mul_right _ (le_add_left _ _)

variable (left right : UnscaledDecimal128)

theorem definitelyOverflows_iff :
    definitelyOverflows left right = true ↔ ¬FitRows right.getInts left.getInts := by
  simp [definitelyOverflows, FitRows, getInts]
  tauto

/-- The product of the magnitudes, which must fit 127 bits. -/
theorem multiply_spec :
    SucceedsBelow (2 ^ 127) (left.magnitude * right.magnitude)
      (Signed (left.magnitude * right.magnitude) (left.isNegative != right.isNegative))
      (multiply left right) := by
  rw [multiply]
  by_cases hfit : FitRows right.getInts left.getInts
  · have hrows := multiplyFittingRows_spec (z := [0, 0, 0, 0]) left.getInts left.ints_getInts
      right.ints_getInts (.zeros (by norm_num) 4) hfit
    rw [if_neg (mt (definitelyOverflows_iff left right).mp (not_not.mpr hfit))]
    refine hrows.bind (by omega) fun product hproduct _ => ?_
    obtain ⟨z0, z1, z2, z3, rfl⟩ := List.length_eq_four.mp hproduct.length
    exact packInts_spec _ hproduct
  · have hpow := pow_le_mul_of_not_fitRows _ left.ints_getInts right.ints_getInts hfit
    rw [if_pos ((definitelyOverflows_iff left right).mpr hfit), SucceedsBelow,
      if_neg (by omega)]

theorem natAbs_toBigInteger_mul :
    (left.toBigInteger * right.toBigInteger).natAbs = left.magnitude * right.magnitude := by
  rw [Int.natAbs_mul, natAbs_toBigInteger, natAbs_toBigInteger]

/-- The product of the signs is the sign of the product. -/
theorem toBigInteger_of_product {left right product : UnscaledDecimal128}
    (h : Signed (left.magnitude * right.magnitude) (left.isNegative != right.isNegative)
      product) :
    product.toBigInteger = left.toBigInteger * right.toBigInteger := by
  rw [toBigInteger, toBigInteger, toBigInteger, h.1, h.2]
  cases left.isNegative <;> cases right.isNegative <;> simp

theorem multiply_returns :
    ReturnsBelow (2 ^ 127) (left.toBigInteger * right.toBigInteger) overflowException
      (multiply left right) := by
  have hspec := (multiply_spec left right).mono fun _ => toBigInteger_of_product
  rwa [← natAbs_toBigInteger_mul] at hspec

/-! ## Staged division -/

theorem divideInt_spec {divisor : ℕ} (hpos : 0 < divisor) (hdivisor : divisor < 2 ^ 31) :
    ∃ quotient, divideInt decimal divisor = .ok (quotient, decimal.magnitude % divisor) ∧
      Signed (decimal.magnitude / divisor) decimal.isNegative quotient := by
  have hhigh := decimal.highLong_lt
  have hlow := decimal.rawLow_lt
  have h1 : decimal.getInt 1 < 2 ^ 32 := decimal.ints_getInts.limbs _ (by simp [getInts])
  have h0 : decimal.getInt 0 < 2 ^ 32 := decimal.ints_getInts.limbs _ (by simp [getInts])
  have hmagnitude : decimal.magnitude =
      decimal.getInt 0 + 2 ^ 32 * (decimal.getInt 1 + 2 ^ 32 * decimal.highLong) := by
    rw [magnitude, lowLong, getInt, getInt]
    omega
  have hwrap : ∀ {x : ℕ} (n : ℕ), x < 2 ^ 32 →
      wrapLong (x + n % divisor * 2 ^ 32) = x + n % divisor * 2 ^ 32 := by
    intro x n hx
    have hmod := mod_lt n hpos
    exact wrapLong_of_lt (by omega)
  have hz1 := stage_div_lt decimal.highLong h1 hpos
  have hz0 := stage_div_lt (decimal.getInt 1 + 2 ^ 32 * decimal.highLong) h0 hpos
  rw [stage_mod (decimal.getInt 1)] at hz0
  rw [divideInt, if_neg hpos.ne', hmagnitude, stage_mod (b := 2 ^ 32) (decimal.getInt 0),
    stage_div (b := 2 ^ 32) (decimal.getInt 0) _ hpos, stage_mod (decimal.getInt 1),
    stage_div (decimal.getInt 1) _ hpos]
  dsimp only
  rw [hwrap _ h1, hwrap _ h0, mod_eq_of_lt hz1, mod_eq_of_lt hz0]
  exact ⟨_, rfl, signed_pack _ (by omega) ((div_le_self _ _).trans_lt hhigh) (by ring)⟩

/-- The loop divides by the whole power, and its last division decides the rounding. -/
theorem scaleDownBy_spec (base maxPower : ℕ) [NeZero maxPower] (hbase : 0 < base)
    (hmax : base ^ maxPower < 2 ^ 31) (scale : ℕ) :
    ∀ decimal : UnscaledDecimal128, ∃ quotient round,
      scaleDownBy base maxPower decimal scale = .ok (quotient, round) ∧
      quotient.magnitude = decimal.magnitude / base ^ scale ∧
      quotient.isNegative = decimal.isNegative ∧
      (Even base → 0 < scale →
        round = decide (base ^ scale ≤ 2 * (decimal.magnitude % base ^ scale))) := by
  induction scale using Nat.strong_induction_on with
  | _ scale ih =>
      intro decimal
      have hmaxPower := NeZero.pos maxPower
      have hpower : base ^ min scale maxPower < 2 ^ 31 :=
        (Nat.pow_le_pow_right hbase (Nat.min_le_right _ _)).trans_lt hmax
      have hpos : 0 < base ^ min scale maxPower := Nat.pow_pos hbase
      obtain ⟨quotient, hdivide, hmagnitude, hnegative⟩ := decimal.divideInt_spec hpos hpower
      rw [scaleDownBy, divideCheckRound, hdivide, Result.bind_ok, pure_bind]
      by_cases hlast : scale - min scale maxPower = 0
      · have hmin : min scale maxPower = scale := by omega
        rw [dif_pos hlast]
        refine ⟨quotient, _, rfl, ?_, hnegative, ?_⟩
        · rw [hmagnitude, hmin]
        · intro heven hscale
          have hdvd : 2 ∣ base ^ scale := (heven.pow_of_ne_zero hscale.ne').two_dvd
          rw [hmin, decide_eq_decide]
          omega
      · have hsplit : base ^ scale =
            base ^ min scale maxPower * base ^ (scale - min scale maxPower) := by
          rw [← pow_add, Nat.add_sub_cancel' (Nat.min_le_left _ _)]
        obtain ⟨result, round, hloop, hmagnitude', hnegative', hround⟩ :=
          ih (scale - min scale maxPower) (by omega) quotient
        rw [dif_neg hlast, hloop]
        refine ⟨result, round, rfl, ?_, hnegative'.trans hnegative, ?_⟩
        · rw [hmagnitude', hmagnitude, Nat.div_div_eq_div_mul, hsplit]
        · intro heven _
          rw [hround heven (pos_of_ne_zero hlast), hmagnitude, hsplit, decide_eq_decide]
          exact (mul_le_two_mul_mod_iff hpos (heven.pow_of_ne_zero hlast)).symm

/-! ## Shifts -/

variable {k : ℕ}

theorem roundCarry_eq (hpos : 0 < k) (hk : k < 64) :
    decimal.roundCarry 0 k = decide (2 ^ k ≤ 2 * (decimal.magnitude % 2 ^ k)) := by
  have hmod : decimal.magnitude % 2 ^ k = decimal.lowLong % 2 ^ k := by
    have hpow : 2 ^ 64 = 2 ^ k * 2 ^ (64 - k) := by
      rw [← pow_add, Nat.add_sub_cancel' hk.le]
    rw [magnitude, hpow, mul_assoc, add_mul_mod_self_left]
  obtain ⟨j, rfl⟩ := exists_eq_succ_of_ne_zero hpos.ne'
  rw [hmod, roundCarry, if_neg (succ_ne_zero j), Bool.eq_iff_iff, bne_iff_ne, decide_eq_true_eq]
  exact shifted_bit_ne_zero_iff _ j

/-- A shift by less than a word divides by a power of two; the carry of its rounding is
complete. -/
theorem shiftRight_spec (hpos : 0 < k) (hk : k < 64) (roundUp : Bool) :
    ∃ result, shiftRight decimal k roundUp = .ok result ∧
      Signed (if roundUp then roundedQuotient decimal.magnitude (2 ^ k)
        else decimal.magnitude / 2 ^ k) decimal.isNegative result := by
  have hwords := shift_words_eq decimal.highLong hk.le decimal.rawLow_lt
  have hlow : decimal.rawLow / 2 ^ k ||| decimal.highLong * 2 ^ (64 - k) % 2 ^ 64 < 2 ^ 64 :=
    or_lt_two_pow ((div_le_self _ _).trans_lt decimal.rawLow_lt)
      (mod_lt _ (by norm_num))
  have hhigh : decimal.highLong / 2 ^ k + 1 < 2 ^ 63 := by
    have hhalf : decimal.highLong / 2 ^ k ≤ decimal.highLong / 2 ^ 1 :=
      Nat.div_le_div_left (Nat.pow_le_pow_right (by norm_num) hpos) (by norm_num)
    have hlt := decimal.highLong_lt
    omega
  have hmagnitude : decimal.rawLow + 2 ^ 64 * decimal.highLong = decimal.magnitude := rfl
  rw [hmagnitude] at hwords
  rw [roundedQuotient_eq (by positivity), ← hwords, shiftRight]
  simp only [div_eq_of_lt hk, mod_eq_of_lt hk, if_neg hpos.ne', if_pos hpos, if_true,
    decimal.roundCarry_eq hpos hk, lowLong]
  generalize decimal.rawLow / 2 ^ k ||| decimal.highLong * 2 ^ (64 - k) % 2 ^ 64 = low at *
  generalize decimal.highLong / 2 ^ k = high at *
  have hvalue : (if roundUp then low + 2 ^ 64 * high +
        (if 2 ^ k ≤ 2 * (decimal.magnitude % 2 ^ k) then 1 else 0) else low + 2 ^ 64 * high) =
      low + 2 ^ 64 * high +
        if roundUp && decide (2 ^ k ≤ 2 * (decimal.magnitude % 2 ^ k)) then 1 else 0 := by
    cases roundUp <;> simp
  rw [hvalue]
  cases roundUp && decide (2 ^ k ≤ 2 * (decimal.magnitude % 2 ^ k)) with
  | false =>
      exact ⟨_, rfl, signed_pack _ hlow (by omega) rfl⟩
  | true =>
      rw [if_pos rfl, if_pos rfl]
      by_cases hfull : low = 2 ^ 64 - 1
      · rw [if_neg (not_not.mpr hfull)]
        exact ⟨_, rfl, signed_pack _ (by norm_num) hhigh (by omega)⟩
      · rw [if_pos hfull]
        exact ⟨_, rfl, signed_pack _ (by omega) (by omega) (by omega)⟩

/-! ## The three paths -/

variable {scale : ℕ}

theorem magnitude_of_isSmall {decimal : UnscaledDecimal128} (h : decimal.isSmall scale = true) :
    decimal.lowLong = decimal.magnitude ∧ decimal.magnitude < 2 ^ 63 := by
  simp only [isSmall, Bool.and_eq_true, decide_eq_true_eq, beq_iff_eq] at h
  rw [magnitude]
  omega

/-- A digit less leaves room for the increment. -/
theorem magnitude_div_lt (hpos : 0 < scale) : decimal.magnitude / 10 ^ scale + 1 < 10 ^ 38 := by
  have hle : decimal.magnitude / 10 ^ scale ≤ decimal.magnitude / 10 ^ 1 :=
    Nat.div_le_div_left (Nat.pow_le_pow_right (by norm_num) hpos) (by norm_num)
  have hmax := decimal.magnitude_lt
  omega

theorem scaleDownLongRoundUp_spec {decimal : UnscaledDecimal128} (hpos : 0 < scale)
    (hsmall : decimal.isSmall scale = true) :
    Signed (roundedQuotient decimal.magnitude (10 ^ scale)) decimal.isNegative
      (decimal.scaleDownLongRoundUp scale) := by
  obtain ⟨hlow, hlt⟩ := magnitude_of_isSmall hsmall
  have hle := div_le_self decimal.magnitude (10 ^ scale)
  have heven : 2 ∣ 10 ^ scale := dvd_pow (by norm_num) hpos.ne'
  have hhalf : 10 ^ scale / 2 ≤ decimal.magnitude % 10 ^ scale ↔
      10 ^ scale ≤ 2 * (decimal.magnitude % 10 ^ scale) := by omega
  rw [roundedQuotient_eq (by positivity), scaleDownLongRoundUp, hlow, if_congr hhalf rfl rfl]
  refine signed_pack _ ?_ (by norm_num) ?_ <;> split <;> omega

theorem scaleDownFiveAndShift_spec (hpos : 0 < scale) (hscale : scale < 64) (roundUp : Bool) :
    ∃ result, decimal.scaleDownFiveAndShift scale roundUp = .ok result ∧
      Signed (if roundUp then roundedQuotient decimal.magnitude (10 ^ scale)
        else decimal.magnitude / 10 ^ scale) decimal.isNegative result := by
  obtain ⟨quotient, round, hloop, hmagnitude, hnegative, -⟩ :=
    scaleDownBy_spec 5 13 (by norm_num) (by norm_num) scale decimal
  obtain ⟨result, hshift, hresult, hnegative'⟩ := quotient.shiftRight_spec hpos hscale roundUp
  have hten : 10 ^ scale = 5 ^ scale * 2 ^ scale := by rw [← Nat.mul_pow]
  have heven : Even (2 ^ scale) := even_two.pow_of_ne_zero hpos.ne'
  rw [scaleDownFiveAndShift, scaleDownFive, hloop]
  refine ⟨result, hshift, ?_, hnegative'.trans hnegative⟩
  rw [hresult, hmagnitude, hten, roundedQuotient_mul (by positivity) (by positivity) heven,
    Nat.div_div_eq_div_mul]

/-- The staged division by tens rounds by `incrementUnsafe`. -/
theorem scaleDownTenRoundUp_spec (hpos : 0 < scale) :
    ∃ result, decimal.scaleDownTenRoundUp scale = .ok result ∧
      Signed (roundedMagnitude decimal.magnitude (10 ^ scale)) decimal.isNegative result := by
  obtain ⟨quotient, round, hloop, hmagnitude, hnegative, hround⟩ :=
    scaleDownBy_spec 10 9 (by norm_num) (by norm_num) scale decimal
  have hlt := decimal.magnitude_div_lt hpos
  rw [scaleDownTenRoundUp, hloop, hround (by decide) hpos, roundedMagnitude]
  refine ⟨_, rfl, ?_⟩
  by_cases hup : 10 ^ scale ≤ 2 * (decimal.magnitude % 10 ^ scale)
  · rw [if_pos (decide_eq_true hup), if_pos hup, ← hmagnitude, ← hnegative]
    exact incrementUnsafe_spec (by omega)
  · rw [if_neg hup, if_neg (by simpa using hup)]
    exact ⟨hmagnitude, hnegative⟩

/-! ## The contract -/

/-- A rescaling multiplies by a power of ten, exactly or with an overflow of 127 bits, and
divides by one with the given rounding. -/
def Rescales (rescale : UnscaledDecimal128 → ℤ → Result UnscaledDecimal128)
    (rounding : ℚ → ℤ) (decimal : UnscaledDecimal128) (k : ℤ) : Prop :=
  (0 ≤ k → 2 ^ 127 ≤ |decimal.toBigInteger * 10 ^ k.toNat| →
    ∃ message, rescale decimal k = .error (.arithmetic message)) ∧
  (0 ≤ k → |decimal.toBigInteger * 10 ^ k.toNat| < 2 ^ 127 →
    (rescale decimal k).map toBigInteger = .ok (decimal.toBigInteger * 10 ^ k.toNat)) ∧
  (k < 0 → (rescale decimal k).map toBigInteger =
    .ok (rounding (decimal.toBigInteger / 10 ^ (-k).toNat)))

/-- All paths that can scale a decimal down give the same integer. -/
def PathsAgree (scale : ℕ) : Prop :=
  ∃ rounded truncated : ℤ,
    (decimal.scaleDownFiveAndShift scale true).map toBigInteger = .ok rounded ∧
    (decimal.scaleDownTenRoundUp scale).map toBigInteger = .ok rounded ∧
    (decimal.isSmall scale → (decimal.scaleDownLongRoundUp scale).toBigInteger = rounded) ∧
    (decimal.scaleDownFiveAndShift scale false).map toBigInteger = .ok truncated ∧
    (decimal.scaleDownTenTruncate scale).map toBigInteger = .ok truncated ∧
    (decimal.isSmall scale → (decimal.scaleDownLongTruncate scale).toBigInteger = truncated)

theorem abs_div_ten_pow (value : ℤ) (scale : ℕ) :
    |(value : ℚ) / 10 ^ scale| = (value.natAbs : ℚ) / ((10 ^ scale : ℕ) : ℚ) := by
  rw [abs_div, abs_of_pos (by positivity : (0 : ℚ) < 10 ^ scale)]
  push_cast [cast_natAbs]
  rfl

theorem div_ten_pow_neg_iff (value : ℤ) (scale : ℕ) : (value : ℚ) / 10 ^ scale < 0 ↔ value < 0 := by
  rw [div_lt_iff₀ (by positivity), zero_mul, Int.cast_lt_zero]

theorem abs_scaledDown (scale : ℕ) :
    |(decimal.toBigInteger : ℚ) / 10 ^ scale| =
      (decimal.magnitude : ℚ) / ((10 ^ scale : ℕ) : ℚ) := by
  rw [abs_div_ten_pow, natAbs_toBigInteger]

/-- The sign of a scaled decimal is that of the decimal. -/
theorem toBigInteger_scaledDown {decimal result : UnscaledDecimal128} {scale n : ℕ}
    (h : Signed n decimal.isNegative result) (hzero : decimal.magnitude = 0 → n = 0) :
    result.toBigInteger =
      if (decimal.toBigInteger : ℚ) / 10 ^ scale < 0 then -(n : ℤ) else n := by
  rw [if_congr (div_ten_pow_neg_iff _ _) rfl rfl, toBigInteger, toBigInteger, h.1, h.2]
  by_cases hpos : decimal.magnitude = 0
  · rw [hzero hpos]
    simp
  · cases decimal.isNegative with
    | true =>
        rw [if_pos rfl, if_pos rfl, if_pos (by omega)]
    | false =>
        rw [if_neg Bool.false_ne_true, if_neg Bool.false_ne_true, if_neg (by omega)]

theorem carriesIntoHighLong_scaledDown_iff (hpos : 0 < scale) :
    CarriesIntoHighLong (decimal.toBigInteger / 10 ^ scale) ↔
      roundedMagnitude decimal.magnitude (10 ^ scale) ≠
        roundedQuotient decimal.magnitude (10 ^ scale) := by
  have hlt := decimal.magnitude_div_lt hpos
  have hten : 0 < 10 ^ scale := by positivity
  rw [carriesIntoHighLong_iff hten (abs_scaledDown decimal scale), ne_eq,
    roundedMagnitude_eq_iff hten]
  tauto

theorem powerOfTen_spec (hk : k < 38) : Signed (10 ^ k) false (powerOfTen k) := by
  apply pack_split
  exact lt_of_le_of_lt (Nat.pow_le_pow_right (by norm_num) (by omega : k ≤ 37)) (by norm_num)

variable (scaleDown : UnscaledDecimal128 → ℕ → Result UnscaledDecimal128)

/-- Scaling up, which is common to both rescalings, is a product. -/
theorem rescaleWith_returns (decimal : UnscaledDecimal128) (hk : k < 38) :
    ReturnsBelow (2 ^ 127) (decimal.toBigInteger * 10 ^ k) overflowException
      (rescaleWith scaleDown decimal k) := by
  rcases Nat.eq_zero_or_pos k with rfl | hpos
  · rw [pow_zero, mul_one]
    exact returnsBelow_of_ok rfl rfl
  · obtain ⟨hmagnitude, hnegative⟩ := powerOfTen_spec hk
    have hpower : (powerOfTen k).toBigInteger = 10 ^ k := by
      rw [toBigInteger, hnegative, hmagnitude]
      simp
    have hmultiply := multiply_returns decimal (powerOfTen k)
    rw [hpower] at hmultiply
    rwa [rescaleWith, if_neg (by omega), if_pos (by omega), if_neg (by omega),
      Int.toNat_natCast]

variable {k : ℤ}

theorem rescaleWith_up (decimal : UnscaledDecimal128) (hk : 0 ≤ k) (hk38 : k < 38) :
    (2 ^ 127 ≤ |decimal.toBigInteger * 10 ^ k.toNat| →
      ∃ message, rescaleWith scaleDown decimal k = .error (.arithmetic message)) ∧
    (|decimal.toBigInteger * 10 ^ k.toNat| < 2 ^ 127 →
      (rescaleWith scaleDown decimal k).map toBigInteger =
        .ok (decimal.toBigInteger * 10 ^ k.toNat)) := by
  lift k to ℕ using hk
  have hreturns := rescaleWith_returns scaleDown decimal (by omega : k < 38)
  unfold ReturnsBelow at hreturns
  rw [← not_lt, abs_lt_two_pow_iff]
  split at hreturns
  next hlt =>
    obtain ⟨result, hresult, hvalue⟩ := hreturns
    rw [hresult]
    exact ⟨absurd hlt, fun _ => congrArg Except.ok hvalue⟩
  next hge => exact ⟨fun _ => ⟨_, hreturns⟩, fun hlt => absurd hlt hge⟩

section ScaleDown

variable {outcome : Result UnscaledDecimal128}

theorem map_toBigInteger_scaledDown
    {n : ℕ} (h : ∃ result, outcome = .ok result ∧ Signed n decimal.isNegative result)
    (hzero : decimal.magnitude = 0 → n = 0) :
    outcome.map toBigInteger =
      .ok (if (decimal.toBigInteger : ℚ) / 10 ^ scale < 0 then -(n : ℤ) else n) := by
  obtain ⟨result, rfl, hsigned⟩ := h
  exact congrArg Except.ok (toBigInteger_scaledDown hsigned hzero)

theorem map_eq_roundHalfUp
    (h : ∃ result, outcome = .ok result ∧
      Signed (roundedQuotient decimal.magnitude (10 ^ scale)) decimal.isNegative result) :
    outcome.map toBigInteger = .ok (roundHalfUp (decimal.toBigInteger / 10 ^ scale)) := by
  have hten : 0 < 10 ^ scale := by positivity
  rw [roundHalfUp_eq hten (abs_scaledDown decimal scale)]
  apply map_toBigInteger_scaledDown decimal h
  intro hzero
  rw [hzero, roundedQuotient_zero hten]

theorem map_eq_truncate
    (h : ∃ result, outcome = .ok result ∧
      Signed (decimal.magnitude / 10 ^ scale) decimal.isNegative result) :
    outcome.map toBigInteger = .ok (truncate (decimal.toBigInteger / 10 ^ scale)) := by
  rw [truncate_eq (abs_scaledDown decimal scale)]
  apply map_toBigInteger_scaledDown decimal h
  intro hzero
  rw [hzero, Nat.zero_div]

/-- The path by tens rounds correctly unless rounding carries into the high long. -/
theorem scaleDownTenRoundUp_rounds_iff (hpos : 0 < scale) :
    (decimal.scaleDownTenRoundUp scale).map toBigInteger =
        .ok (roundHalfUp (decimal.toBigInteger / 10 ^ scale)) ↔
      ¬CarriesIntoHighLong (decimal.toBigInteger / 10 ^ scale) := by
  have hten : 0 < 10 ^ scale := by positivity
  have hzero : decimal.magnitude = 0 → roundedMagnitude decimal.magnitude (10 ^ scale) = 0 := by
    intro h
    rw [h, roundedMagnitude_zero hten]
  have hmap : (decimal.scaleDownTenRoundUp scale).map toBigInteger =
      .ok (if (decimal.toBigInteger : ℚ) / 10 ^ scale < 0 then
        -(roundedMagnitude decimal.magnitude (10 ^ scale) : ℤ)
      else roundedMagnitude decimal.magnitude (10 ^ scale)) :=
    map_toBigInteger_scaledDown decimal (decimal.scaleDownTenRoundUp_spec hpos) hzero
  rw [carriesIntoHighLong_scaledDown_iff decimal hpos, hmap,
    roundHalfUp_eq hten (abs_scaledDown decimal scale)]
  split <;> simp

theorem scaleDownFiveAndShift_rounds (hpos : 0 < scale) (hscale : scale < 64) :
    (decimal.scaleDownFiveAndShift scale true).map toBigInteger =
      .ok (roundHalfUp (decimal.toBigInteger / 10 ^ scale)) :=
  map_eq_roundHalfUp decimal (decimal.scaleDownFiveAndShift_spec hpos hscale true)

theorem scaleDownFiveAndShift_truncates (hpos : 0 < scale) (hscale : scale < 64) :
    (decimal.scaleDownFiveAndShift scale false).map toBigInteger =
      .ok (truncate (decimal.toBigInteger / 10 ^ scale)) :=
  map_eq_truncate decimal (decimal.scaleDownFiveAndShift_spec hpos hscale false)

theorem scaleDownTenTruncate_truncates :
    (decimal.scaleDownTenTruncate scale).map toBigInteger =
      .ok (truncate (decimal.toBigInteger / 10 ^ scale)) := by
  obtain ⟨quotient, round, hloop, hmagnitude, hnegative, -⟩ :=
    scaleDownBy_spec 10 9 (by norm_num) (by norm_num) scale decimal
  refine map_eq_truncate decimal ⟨quotient, ?_, hmagnitude, hnegative⟩
  rw [scaleDownTenTruncate, hloop]
  rfl

theorem scaleDownLongRoundUp_rounds (hpos : 0 < scale) (hsmall : decimal.isSmall scale = true) :
    (decimal.scaleDownLongRoundUp scale).toBigInteger =
      roundHalfUp (decimal.toBigInteger / 10 ^ scale) :=
  Except.ok.inj (map_eq_roundHalfUp decimal
    ⟨_, rfl, scaleDownLongRoundUp_spec hpos hsmall⟩)

theorem scaleDownLongTruncate_truncates (hsmall : decimal.isSmall scale = true) :
    (decimal.scaleDownLongTruncate scale).toBigInteger =
      truncate (decimal.toBigInteger / 10 ^ scale) := by
  obtain ⟨hlow, hlt⟩ := magnitude_of_isSmall hsmall
  have hle := div_le_self decimal.magnitude (10 ^ scale)
  refine Except.ok.inj (map_eq_truncate decimal ⟨_, rfl, ?_⟩)
  rw [scaleDownLongTruncate, hlow]
  exact signed_pack _ (by omega) (by norm_num) rfl

theorem pathsAgree_iff (hpos : 0 < scale) (hscale : scale < 64) :
    decimal.PathsAgree scale ↔ ¬CarriesIntoHighLong (decimal.toBigInteger / 10 ^ scale) := by
  rw [← scaleDownTenRoundUp_rounds_iff decimal hpos]
  constructor
  · rintro ⟨rounded, truncated, hfive, hten, -⟩
    rw [scaleDownFiveAndShift_rounds decimal hpos hscale] at hfive
    rw [hten, Except.ok.inj hfive]
  · intro hten
    exact ⟨_, _, scaleDownFiveAndShift_rounds decimal hpos hscale, hten,
      scaleDownLongRoundUp_rounds decimal hpos,
      scaleDownFiveAndShift_truncates decimal hpos hscale,
      scaleDownTenTruncate_truncates decimal, scaleDownLongTruncate_truncates decimal⟩

theorem not_carriesIntoHighLong_of_isSmall
    (hpos : 0 < scale) (hsmall : decimal.isSmall scale = true) :
    ¬CarriesIntoHighLong (decimal.toBigInteger / 10 ^ scale) := by
  obtain ⟨-, hlt⟩ := magnitude_of_isSmall hsmall
  have hle := div_le_self decimal.magnitude (10 ^ scale)
  rw [carriesIntoHighLong_scaledDown_iff decimal hpos, not_not,
    roundedMagnitude_eq_iff (by positivity)]
  rintro ⟨-, hmod⟩
  generalize decimal.magnitude / 10 ^ scale = q at *
  omega

/-- Rounding goes wrong where the staged division by tens carries. -/
theorem scaleDownRoundUp_rounds_iff (hpos : 0 < scale) (hscale : scale < 64) :
    (decimal.scaleDownRoundUp scale).map toBigInteger =
        .ok (roundHalfUp (decimal.toBigInteger / 10 ^ scale)) ↔
      ¬(prefersFive scale = false ∧
        CarriesIntoHighLong (decimal.toBigInteger / 10 ^ scale)) := by
  rw [scaleDownRoundUp]
  by_cases hsmall : decimal.isSmall scale = true
  · have hcarries := not_carriesIntoHighLong_of_isSmall decimal hpos hsmall
    rw [if_pos hsmall]
    refine iff_of_true ?_ (fun h => hcarries h.2)
    exact congrArg Except.ok (scaleDownLongRoundUp_rounds decimal hpos hsmall)
  · rw [if_neg hsmall]
    cases hfive : prefersFive scale with
    | true =>
        exact iff_of_true (scaleDownFiveAndShift_rounds decimal hpos hscale) (by simp)
    | false =>
        rw [if_neg Bool.false_ne_true, scaleDownTenRoundUp_rounds_iff decimal hpos]
        simp

theorem scaleDownTruncate_truncates (hpos : 0 < scale) (hscale : scale < 64) :
    (decimal.scaleDownTruncate scale).map toBigInteger =
      .ok (truncate (decimal.toBigInteger / 10 ^ scale)) := by
  rw [scaleDownTruncate]
  split
  · rename_i hsmall
    exact congrArg Except.ok (scaleDownLongTruncate_truncates decimal hsmall)
  · split
    · exact scaleDownFiveAndShift_truncates decimal hpos hscale
    · exact scaleDownTenTruncate_truncates decimal

end ScaleDown

theorem rescaleWith_down (scaleDown : UnscaledDecimal128 → ℕ → Result UnscaledDecimal128)
    (decimal : UnscaledDecimal128) (hk : k < 0) :
    rescaleWith scaleDown decimal k = scaleDown decimal (-k).toNat := by
  rw [rescaleWith, if_neg hk.ne, if_neg hk.not_gt]

/-- `rescale` is exact except where it carries in a staged division by tens. -/
theorem rescales_rescale_iff (hk : -38 < k) (hk38 : k < 38) :
    Rescales rescale roundHalfUp decimal k ↔
      ¬(k < 0 ∧ prefersFive (-k).toNat = false ∧
        CarriesIntoHighLong (decimal.toBigInteger / 10 ^ (-k).toNat)) := by
  by_cases hneg : k < 0
  · have hrounds := scaleDownRoundUp_rounds_iff decimal (by omega : 0 < (-k).toNat) (by omega)
    rw [Rescales, rescale, rescaleWith_down _ decimal hneg, hrounds]
    simp [not_le.mpr hneg]
  · obtain ⟨herror, hok⟩ := rescaleWith_up scaleDownRoundUp decimal (not_lt.mp hneg) hk38
    exact iff_of_true ⟨fun _ => herror, fun _ => hok, fun h => absurd h hneg⟩
      (fun h => hneg h.1)

theorem rescales_rescaleTruncate (hk : -38 < k) (hk38 : k < 38) :
    Rescales rescaleTruncate truncate decimal k := by
  refine ⟨fun h => (rescaleWith_up scaleDownTruncate decimal h hk38).1,
    fun h => (rescaleWith_up scaleDownTruncate decimal h hk38).2, fun hneg => ?_⟩
  rw [rescaleTruncate, rescaleWith_down _ decimal hneg]
  exact scaleDownTruncate_truncates decimal (by omega) (by omega)

/-- Rescaling with either rounding is exact, and the paths for scaling down agree, exactly
when no rounding carries into the high long. -/
theorem rescale_exact_iff
    (decimal : UnscaledDecimal128) (k : ℤ) (hk : -38 < k) (hk38 : k < 38) :
    Rescales rescale roundHalfUp decimal k ∧ Rescales rescaleTruncate truncate decimal k ∧
        (k < 0 → decimal.PathsAgree (-k).toNat) ↔
      ¬(k < 0 ∧ CarriesIntoHighLong (decimal.toBigInteger / 10 ^ (-k).toNat)) := by
  rw [rescales_rescale_iff decimal hk hk38,
    and_iff_right (rescales_rescaleTruncate decimal hk hk38)]
  by_cases hneg : k < 0
  · have hpaths := pathsAgree_iff decimal (by omega : 0 < (-k).toNat) (by omega)
    tauto
  · exact iff_of_true ⟨fun h => hneg h.1, fun h => absurd h hneg⟩ (fun h => hneg h.1)

theorem rescale_fiveByOne_exact_iff :
    Rescales rescale roundHalfUp (ofLong 5) (-1) ∧
        Rescales rescaleTruncate truncate (ofLong 5) (-1) ∧
        ((-1 : ℤ) < 0 → (ofLong 5).PathsAgree (-(-1 : ℤ)).toNat) ↔
      ¬((-1 : ℤ) < 0 ∧
        CarriesIntoHighLong ((ofLong 5).toBigInteger / 10 ^ (-(-1 : ℤ)).toNat)) :=
  rescale_exact_iff (ofLong 5) (-1) (by decide) (by decide)

/-- A tenth of `10 * 2 ^ 64 - 5` is rounded up to `2 ^ 64`, and `2 ^ 65 - 1` is returned. -/
theorem rescale_carry_not_exact :
    ¬Rescales rescale roundHalfUp (ofRawLongs (2 ^ 64 - 5) 9) (-1) := by
  rintro ⟨-, -, hdown⟩
  have hrounded := hdown (by decide)
  have houtcome : (rescale (ofRawLongs (2 ^ 64 - 5) 9) (-1)).map toBigInteger =
      .ok (2 ^ 65 - 1) := by
    decide +kernel
  revert hrounded
  decide +kernel

end Presto.Types.UnscaledDecimal128
