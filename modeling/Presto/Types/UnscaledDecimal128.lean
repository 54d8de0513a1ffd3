import Presto.Support.Limbs
import Presto.Support.MachineInteger
import Presto.Support.Throwable

/-!
# The representation of long decimals

A decimal of up to 38 digits is a slice of two longs: 127 bits of magnitude in
little-endian order and a sign bit.  Longs and ints are their unsigned values;
what the code computes with 64 bits is taken modulo `2 ^ 64` where it can exceed
them.
-/

namespace Presto.Types

open Support Nat

/-- The two raw longs of an unscaled decimal. -/
@[ext]
structure UnscaledDecimal128 where
  rawLow : ℕ
  rawHigh : ℕ
  rawLow_lt : rawLow < 2 ^ 64
  rawHigh_lt : rawHigh < 2 ^ 64
  deriving DecidableEq

namespace UnscaledDecimal128

/-- What `throwOverflowException` throws. -/
def overflowException : Throwable := .arithmetic "Decimal overflow"

/-- What `throwDivisionByZeroException` throws. -/
def divisionByZeroException : Throwable := .arithmetic "Division by zero"

/-- `setRawLong` of both longs. -/
def ofRawLongs (low high : ℕ) : UnscaledDecimal128 :=
  ⟨low % 2 ^ 64, high % 2 ^ 64, Nat.mod_lt _ (by norm_num), Nat.mod_lt _ (by norm_num)⟩

/-- The lower 63 bits of a long. -/
def unpackUnsignedLong (value : ℕ) : ℕ := value % 2 ^ 63

variable (decimal : UnscaledDecimal128)

def isNegative : Bool :=
  decide (2 ^ 63 ≤ decimal.rawHigh)

/-- `getLong(decimal, 0)`. -/
def lowLong : ℕ := decimal.rawLow

/-- `getLong(decimal, 1)`, without the sign bit. -/
def highLong : ℕ := unpackUnsignedLong decimal.rawHigh

/-- The four ints of a decimal, the last one without the sign bit. -/
def getInt : ℕ → ℕ
  | 0 => decimal.rawLow % 2 ^ 32
  | 1 => decimal.rawLow / 2 ^ 32
  | 2 => decimal.rawHigh % 2 ^ 32
  | _ => decimal.rawHigh / 2 ^ 32 % 2 ^ 31

def getInts : List ℕ :=
  [decimal.getInt 0, decimal.getInt 1, decimal.getInt 2, decimal.getInt 3]

/-- The bits of a long with the sign bit set if asked for:
`high | (negative ? SIGN_LONG_MASK : 0)`. -/
def withSign (high : ℕ) (negative : Bool) : ℕ :=
  if negative then 2 ^ 63 + high % 2 ^ 63 else high

def pack (low high : ℕ) (negative : Bool) : UnscaledDecimal128 :=
  ofRawLongs low (withSign high negative)

/-- `pack` of four ints, of which the last must leave room for the sign. -/
def packInts (v0 v1 v2 v3 : ℕ) (negative : Bool) : Result UnscaledDecimal128 :=
  if 2 ^ 31 ≤ v3 then .error overflowException
  else .ok (pack (v0 + 2 ^ 32 * v1) (v2 + 2 ^ 32 * v3) negative)

def setNegative (negative : Bool) : UnscaledDecimal128 :=
  pack decimal.rawLow decimal.highLong negative

/-- `unscaledDecimal()` and `setToZero`. -/
def zero : UnscaledDecimal128 := ofRawLongs 0 0

/-- `unscaledDecimal(long)`. -/
def ofLong (unscaledValue : Int64) : UnscaledDecimal128 :=
  if unscaledValue < 0 then ofRawLongs (-unscaledValue).toUInt64.toNat (2 ^ 63)
  else ofRawLongs unscaledValue.toUInt64.toNat 0

/-- The magnitude of the represented number. -/
def magnitude : ℕ :=
  decimal.lowLong + 2 ^ 64 * decimal.highLong

/-- `unscaledDecimalToBigInteger`. -/
def toBigInteger : ℤ :=
  if decimal.isNegative then -decimal.magnitude else decimal.magnitude

def compareUnsigned (leftLow leftHigh rightLow rightHigh : ℕ) : Ordering :=
  if leftHigh ≠ rightHigh then compare leftHigh rightHigh
  else if leftLow ≠ rightLow then compare leftLow rightLow
  else .eq

def compareAbsolute (left right : UnscaledDecimal128) : Ordering :=
  compareUnsigned left.lowLong left.highLong right.lowLong right.highLong

def exceedsOrEqualTenToThirtyEight : Bool :=
  let high := decimal.highLong
  if high < 0x4b3b4ca85a86c47a then false
  else if high ≠ 0x4b3b4ca85a86c47a then true
  else decide (2 ^ 63 ≤ decimal.lowLong) || decide (0x098a224000000000 ≤ decimal.lowLong)

def throwIfOverflows : Result Unit :=
  if decimal.exceedsOrEqualTenToThirtyEight then .error overflowException else .ok ()

/-- The increment of the magnitude.  When the low long has all bits set, only the
high long changes. -/
def incrementUnsafe : UnscaledDecimal128 :=
  if decimal.lowLong ≠ 2 ^ 64 - 1 then ofRawLongs (decimal.lowLong + 1) decimal.rawHigh
  else ofRawLongs decimal.rawLow (withSign (decimal.highLong + 1) decimal.isNegative)

/-- An array of `n` ints that holds a number. -/
abbrev Ints (ints : List ℕ) (n value : ℕ) : Prop := Represents (2 ^ 32) ints n value

/-- The decimal of a magnitude and a sign. -/
def Signed (n : ℕ) (negative : Bool) (decimal : UnscaledDecimal128) : Prop :=
  decimal.magnitude = n ∧ decimal.isNegative = negative

/-- The outcome has the property if the number is below the bound, and is an overflow
otherwise. -/
def SucceedsBelow {α : Type} (bound n : ℕ) (P : α → Prop) (outcome : Result α) : Prop :=
  if n < bound then ∃ result, outcome = .ok result ∧ P result
  else outcome = .error overflowException

/-- The outcome is the value if its magnitude is below the bound and the exception
otherwise. -/
def ReturnsBelow
    (bound : ℕ) (value : ℤ) (exception : Throwable) (outcome : Result UnscaledDecimal128) :
    Prop :=
  if value.natAbs < bound then
    ∃ decimal, outcome = .ok decimal ∧ decimal.toBigInteger = value
  else outcome = .error exception

section Outcomes

variable {α β : Type} {bound n : ℕ} {P : α → Prop} {outcome : Result α} {result : α}

theorem SucceedsBelow.of_ok (h : outcome = .ok result) (hP : P result)
    (hn : n < bound) : SucceedsBelow bound n P outcome := by
  rw [SucceedsBelow, if_pos hn]
  exact ⟨result, h, hP⟩

theorem SucceedsBelow.of_eq_ok (h : SucceedsBelow bound n P outcome)
    (hok : outcome = .ok result) : P result := by
  rw [SucceedsBelow, hok] at h
  split at h
  next =>
    obtain ⟨_, ⟨⟩, hP⟩ := h
    exact hP
  next => cases h

theorem SucceedsBelow.mono {Q : α → Prop} (h : SucceedsBelow bound n P outcome)
    (hPQ : ∀ result, P result → Q result) : SucceedsBelow bound n Q outcome := by
  unfold SucceedsBelow at h ⊢
  split at h
  next hlt =>
    obtain ⟨result, hresult, hP⟩ := h
    rw [if_pos hlt]
    exact ⟨result, hresult, hPQ result hP⟩
  next hge => rwa [if_neg hge]

/-- What follows a step must overflow where the step does. -/
theorem SucceedsBelow.bind {bound' n' : ℕ} {Q : β → Prop} {f : α → Result β}
    (h : SucceedsBelow bound n P outcome) (hle : bound ≤ n → bound' ≤ n')
    (hf : ∀ result, P result → n < bound → SucceedsBelow bound' n' Q (f result)) :
    SucceedsBelow bound' n' Q (outcome >>= f) := by
  rw [SucceedsBelow] at h
  split at h
  next hlt =>
    obtain ⟨result, rfl, hresult⟩ := h
    exact hf result hresult hlt
  next hge =>
    rw [h, SucceedsBelow, if_neg (not_lt.mpr (hle (not_lt.mp hge)))]
    rfl

end Outcomes

/-! ## Sign and magnitude -/

theorem highLong_lt : decimal.highLong < 2 ^ 63 :=
  mod_lt _ (by norm_num)

theorem magnitude_lt : decimal.magnitude < 2 ^ 127 := by
  have hlow := decimal.rawLow_lt
  have hhigh := decimal.highLong_lt
  rw [magnitude, lowLong]
  omega

theorem natAbs_toBigInteger : decimal.toBigInteger.natAbs = decimal.magnitude := by
  unfold toBigInteger
  split <;> simp

variable {value : ℤ}

theorem abs_lt_two_pow_iff : |value| < 2 ^ 127 ↔ value.natAbs < 2 ^ 127 := by
  rw [Int.abs_eq_natAbs]
  exact_mod_cast Iff.rfl

theorem returnsBelow_of_ok {exception : Throwable} {outcome : Result UnscaledDecimal128}
    {decimal : UnscaledDecimal128} (h : outcome = .ok decimal)
    (hvalue : decimal.toBigInteger = value) : ReturnsBelow (2 ^ 127) value exception outcome := by
  rw [ReturnsBelow, ← hvalue, natAbs_toBigInteger, if_pos decimal.magnitude_lt]
  exact ⟨decimal, h, rfl⟩

theorem toBigInteger_bounds : -2 ^ 127 < decimal.toBigInteger ∧ decimal.toBigInteger < 2 ^ 127 := by
  have hlt := decimal.magnitude_lt
  unfold toBigInteger
  split <;> omega

variable {low : ℕ}

theorem pack_rawLow (high : ℕ) (negative : Bool) (hlow : low < 2 ^ 64) :
    (pack low high negative).rawLow = low :=
  mod_eq_of_lt hlow

variable {high : ℕ}

theorem pack_rawHigh (low : ℕ) (negative : Bool) (hhigh : high < 2 ^ 63) :
    (pack low high negative).rawHigh = high + if negative then 2 ^ 63 else 0 := by
  change withSign high negative % 2 ^ 64 = _
  unfold withSign
  split <;> omega

theorem isNegative_pack (low : ℕ) (negative : Bool) (hhigh : high < 2 ^ 63) :
    (pack low high negative).isNegative = negative := by
  rw [isNegative, pack_rawHigh low negative hhigh]
  cases negative with
  | true => simp
  | false => simpa using hhigh

variable (negative : Bool)

theorem magnitude_pack (hlow : low < 2 ^ 64) (hhigh : high < 2 ^ 63) :
    (pack low high negative).magnitude = low + 2 ^ 64 * high := by
  have hunpack : (pack low high negative).highLong = high := by
    rw [highLong, unpackUnsignedLong, pack_rawHigh low negative hhigh]
    split <;> omega
  rw [magnitude, lowLong, pack_rawLow high negative hlow, hunpack]

variable {n : ℕ}

theorem signed_pack (hlow : low < 2 ^ 64) (hhigh : high < 2 ^ 63)
    (hn : low + 2 ^ 64 * high = n) : Signed n negative (pack low high negative) :=
  ⟨(magnitude_pack negative hlow hhigh).trans hn, isNegative_pack low negative hhigh⟩

/-- A number of 127 bits is packed from its two halves. -/
theorem pack_split (hn : n < 2 ^ 127) :
    Signed n negative (pack (n % 2 ^ 64) (n / 2 ^ 64) negative) :=
  signed_pack negative (mod_lt _ (by norm_num)) (by omega) (mod_add_div _ _)

theorem isNegative_setNegative : (decimal.setNegative negative).isNegative = negative :=
  isNegative_pack _ negative decimal.highLong_lt

theorem magnitude_setNegative : (decimal.setNegative negative).magnitude = decimal.magnitude :=
  magnitude_pack negative decimal.rawLow_lt decimal.highLong_lt

theorem Signed.setNegative {sign : Bool} {decimal : UnscaledDecimal128} (h : Signed n sign decimal)
    (negative : Bool) : Signed n negative (decimal.setNegative negative) :=
  ⟨(magnitude_setNegative decimal negative).trans h.1, isNegative_setNegative decimal negative⟩

theorem ofLong_eq (x : Int64) : ofLong x = pack x.toInt.natAbs 0 (decide (x.toInt < 0)) := by
  have hlt : x < 0 ↔ x.toInt < 0 := Int64.lt_iff_toInt_lt
  have habs := toNat_toUInt64_abs x
  rw [ofLong, pack, withSign]
  by_cases h : x.toInt < 0
  · rw [if_pos (hlt.mpr h)] at habs
    rw [if_pos (hlt.mpr h), if_pos (decide_eq_true h), habs, zero_mod, add_zero]
  · rw [if_neg (mt hlt.mp h)] at habs
    rw [if_neg (mt hlt.mp h), if_neg (by simpa using h), habs]

/-- `unscaledDecimal(long)` represents the long. -/
theorem toBigInteger_ofLong (x : Int64) : (ofLong x).toBigInteger = x.toInt := by
  have hlow := x.le_toInt
  have hhigh := x.toInt_lt
  rw [ofLong_eq, toBigInteger, isNegative_pack _ _ (by norm_num),
    magnitude_pack _ (by omega) (by norm_num)]
  simp only [decide_eq_true_eq]
  split <;> omega

theorem ints_getInts : Ints decimal.getInts 4 decimal.magnitude := by
  have hlow := decimal.rawLow_lt
  refine ⟨by norm_num, rfl, ?_, ?_⟩
  · intro d hd
    simp only [getInts, getInt, List.mem_cons, List.not_mem_nil, or_false] at hd
    rcases hd with rfl | rfl | rfl | rfl <;> omega
  · simp only [getInts, getInt, ofDigits_cons, ofDigits_nil, magnitude, lowLong,
      highLong, unpackUnsignedLong]
    omega

/-- `pack` of ints builds the number with these limbs, which must be below `2 ^ 127`. -/
theorem packInts_spec {v0 v1 v2 v3 : ℕ} (h : Ints [v0, v1, v2, v3] 4 n) :
    SucceedsBelow (2 ^ 127) n (Signed n negative) (packInts v0 v1 v2 v3 negative) := by
  obtain ⟨h0, _, _, htail, -, rfl⟩ := h.of_cons
  obtain ⟨h1, _, _, htail', -, rfl⟩ := htail.of_cons
  obtain ⟨h2, _, _, hlast, -, rfl⟩ := htail'.of_cons
  obtain ⟨-, _, u, hnil, -, rfl⟩ := hlast.of_cons
  obtain rfl : 0 = u := hnil.value
  rw [SucceedsBelow, packInts]
  by_cases hlarge : 2 ^ 31 ≤ v3
  · rw [if_pos hlarge, if_neg (by omega)]
  · rw [if_neg hlarge, if_pos (by omega)]
    exact ⟨_, rfl, signed_pack negative (by omega) (by omega) (by omega)⟩

/-! ## Comparisons -/

theorem compareUnsigned_eq {leftLow rightLow : ℕ} (leftHigh rightHigh : ℕ)
    (hleft : leftLow < 2 ^ 64) (hright : rightLow < 2 ^ 64) :
    compareUnsigned leftLow leftHigh rightLow rightHigh =
      compare (leftLow + 2 ^ 64 * leftHigh) (rightLow + 2 ^ 64 * rightHigh) := by
  unfold compareUnsigned
  simp only [compare, compareOfLessAndEq]
  split_ifs <;> first | rfl | omega

theorem compareAbsolute_eq (left right : UnscaledDecimal128) :
    compareAbsolute left right = compare left.magnitude right.magnitude :=
  compareUnsigned_eq _ _ left.rawLow_lt right.rawLow_lt

theorem exceedsOrEqualTenToThirtyEight_iff :
    decimal.exceedsOrEqualTenToThirtyEight = true ↔ 10 ^ 38 ≤ decimal.magnitude := by
  have hlow := decimal.rawLow_lt
  unfold exceedsOrEqualTenToThirtyEight magnitude lowLong
  dsimp only
  split_ifs with hlt hne
  · simp only [false_iff]
    omega
  · simp only [true_iff]
    omega
  · rw [Bool.or_eq_true, decide_eq_true_eq, decide_eq_true_eq]
    omega

theorem throwIfOverflows_eq :
    decimal.throwIfOverflows =
      if 10 ^ 38 ≤ decimal.magnitude then .error overflowException else .ok () := by
  exact if_congr decimal.exceedsOrEqualTenToThirtyEight_iff rfl rfl

theorem throwIfOverflows_spec {decimal : UnscaledDecimal128} (h : decimal.magnitude = n) :
    SucceedsBelow (10 ^ 38) n (fun _ => True) decimal.throwIfOverflows := by
  rw [SucceedsBelow, throwIfOverflows_eq, h]
  by_cases hlt : n < 10 ^ 38
  · rw [if_pos hlt, if_neg (not_le.mpr hlt)]
    exact ⟨(), rfl, trivial⟩
  · rw [if_neg hlt, if_pos (not_lt.mp hlt)]

/-! ## Increment -/

/-- Away from the end of the low long the increment adds one. -/
theorem incrementUnsafe_of_ne {decimal : UnscaledDecimal128} (h : decimal.lowLong ≠ 2 ^ 64 - 1) :
    Signed (decimal.magnitude + 1) decimal.isNegative decimal.incrementUnsafe := by
  have hlow := decimal.rawLow_lt
  have hlowLong : decimal.lowLong = decimal.rawLow := rfl
  have hhigh : decimal.rawHigh % 2 ^ 64 = decimal.rawHigh :=
    mod_eq_of_lt decimal.rawHigh_lt
  have hsum : (decimal.lowLong + 1) % 2 ^ 64 = decimal.lowLong + 1 :=
    mod_eq_of_lt (by omega)
  rw [incrementUnsafe, if_pos h, Signed]
  simp only [magnitude, lowLong, highLong, ofRawLongs, isNegative, hhigh] at hsum ⊢
  exact ⟨by omega, trivial⟩

end UnscaledDecimal128
end Presto.Types
