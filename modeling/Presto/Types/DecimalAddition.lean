import Presto.Support.AggregationPlan
import Presto.Types.MultiPrecision

/-!
# Addition of decimals with overflow

`addWithOverflow` adds modulo `2 ^ 127` in magnitude and returns the sign of the
overflow, so that the result and the overflow together are the exact sum.
-/

namespace Presto.Types.UnscaledDecimal128

open Support

/-! ## The code -/

variable (left right : UnscaledDecimal128)

/-- The sum of the magnitudes without their highest bit, and that bit. -/
def addUnsignedReturnOverflow (resultNegative : Bool) : Result (UnscaledDecimal128 × ℤ) := do
  let intermediate0 := left.getInt 0 + right.getInt 0
  let intermediate1 := left.getInt 1 + right.getInt 1 + intermediate0 / 2 ^ 32
  let intermediate2 := left.getInt 2 + right.getInt 2 + intermediate1 / 2 ^ 32
  let intermediate3 := left.getInt 3 + right.getInt 3 + intermediate2 / 2 ^ 32
  let result ← packInts (lowInt intermediate0) (lowInt intermediate1) (lowInt intermediate2)
    (lowInt intermediate3 % 2 ^ 31) resultNegative
  pure (result, (intermediate3 / 2 ^ 31 : ℕ))

/-- The low int of a signed long. -/
def lowIntSigned (val : ℤ) : ℕ := (val % 2 ^ 32).toNat

/-- The difference of the magnitudes, of which the left one must not be less. -/
def subtractUnsigned (resultNegative : Bool) : Result UnscaledDecimal128 := do
  let intermediate0 : ℤ := left.getInt 0 - right.getInt 0
  let intermediate1 : ℤ := left.getInt 1 - right.getInt 1 + intermediate0 / 2 ^ 32
  let intermediate2 : ℤ := left.getInt 2 - right.getInt 2 + intermediate1 / 2 ^ 32
  let intermediate3 : ℤ := left.getInt 3 - right.getInt 3 + intermediate2 / 2 ^ 32
  let result ← packInts (lowIntSigned intermediate0) (lowIntSigned intermediate1)
    (lowIntSigned intermediate2) (lowIntSigned intermediate3) resultNegative
  let carry := intermediate3 / 2 ^ 32
  if carry ≠ 0 then
    .error (.illegalState
      s!"Non empty carry over after subtracting [{carry}]. right > left?")
  else pure result

/-- The overflow of an addition of magnitudes, signed. -/
def withOverflowSign (negative : Bool) (result : UnscaledDecimal128 × ℤ) :
    UnscaledDecimal128 × ℤ :=
  (result.1, if negative then -result.2 else result.2)

def addWithOverflow : Result (UnscaledDecimal128 × ℤ) :=
  if left.isNegative = right.isNegative then do
    let result ← addUnsignedReturnOverflow left right left.isNegative
    pure (withOverflowSign left.isNegative result)
  else
    match compareAbsolute left right with
    | .gt => do
        let result ← subtractUnsigned left right left.isNegative
        pure (result, 0)
    | .lt => do
        let result ← subtractUnsigned right left (!left.isNegative)
        pure (result, 0)
    | .eq => .ok (zero, 0)

/-- A sum that has an overflow is thrown. -/
def throwIfOverflow (sum : UnscaledDecimal128 × ℤ) : Result UnscaledDecimal128 :=
  if sum.2 ≠ 0 then .error overflowException else .ok sum.1

def add : Result UnscaledDecimal128 :=
  addWithOverflow left right >>= throwIfOverflow

/-- The difference of the magnitudes with the given sign if the left one is greater, with
the opposite one if it is less. -/
def subtractMagnitudes (resultNegative : Bool) : Result UnscaledDecimal128 :=
  match compareAbsolute left right with
  | .gt => subtractUnsigned left right resultNegative
  | .lt => subtractUnsigned right left (!resultNegative)
  | .eq => .ok zero

def subtract : Result UnscaledDecimal128 :=
  if left.isNegative ≠ right.isNegative then
    addUnsignedReturnOverflow left right left.isNegative >>= throwIfOverflow
  else subtractMagnitudes left right (left.isNegative && right.isNegative)

/-! ## Sums and differences of magnitudes -/

theorem getInt_lt (decimal : UnscaledDecimal128) :
    decimal.getInt 0 < 2 ^ 32 ∧ decimal.getInt 1 < 2 ^ 32 ∧ decimal.getInt 2 < 2 ^ 32 ∧
      decimal.getInt 3 < 2 ^ 31 := by
  have hlow := decimal.rawLow_lt
  simp only [getInt]
  omega

theorem magnitude_eq_getInt (decimal : UnscaledDecimal128) :
    decimal.magnitude = decimal.getInt 0 + 2 ^ 32 * decimal.getInt 1 +
      2 ^ 64 * decimal.getInt 2 + 2 ^ 96 * decimal.getInt 3 := by
  rw [← decimal.ints_getInts.value, getInts]
  simp only [Nat.ofDigits_cons, Nat.ofDigits_nil]
  ring

/-- Four ints of which the last leaves room for the sign are packed. -/
theorem packInts_of_lt {v0 v1 v2 v3 : ℕ} (negative : Bool) (h0 : v0 < 2 ^ 32) (h1 : v1 < 2 ^ 32)
    (h2 : v2 < 2 ^ 32) (h3 : v3 < 2 ^ 31) :
    ∃ d, packInts v0 v1 v2 v3 negative = .ok d ∧
      Signed (v0 + 2 ^ 32 * v1 + 2 ^ 64 * v2 + 2 ^ 96 * v3) negative d := by
  have hints : Ints [v0, v1, v2, v3] 4 _ :=
    ((((Represents.zeros (by norm_num) 0).cons (h3.trans (by norm_num))).cons h2).cons
      h1).cons h0
  have hpack := packInts_spec negative hints
  rw [SucceedsBelow, if_pos (by omega)] at hpack
  obtain ⟨d, hd, hmagnitude, hnegative⟩ := hpack
  exact ⟨d, hd, by omega, hnegative⟩

theorem addUnsignedReturnOverflow_spec (left right : UnscaledDecimal128) (resultNegative : Bool) :
    ∃ (result : UnscaledDecimal128) (overflow : ℕ),
      addUnsignedReturnOverflow left right resultNegative = .ok (result, (overflow : ℤ)) ∧
      result.magnitude + 2 ^ 127 * overflow = left.magnitude + right.magnitude ∧
      result.isNegative = resultNegative := by
  rw [addUnsignedReturnOverflow, magnitude_eq_getInt left, magnitude_eq_getInt right]
  generalize h0 : left.getInt 0 + right.getInt 0 = i0
  generalize h1 : left.getInt 1 + right.getInt 1 + i0 / 2 ^ 32 = i1
  generalize h2 : left.getInt 2 + right.getInt 2 + i1 / 2 ^ 32 = i2
  generalize h3 : left.getInt 3 + right.getInt 3 + i2 / 2 ^ 32 = i3
  obtain ⟨result, hresult, hmagnitude, hnegative⟩ :=
    packInts_of_lt resultNegative (lowInt_lt i0) (lowInt_lt i1) (lowInt_lt i2)
      (Nat.mod_lt (lowInt i3) (by norm_num : 0 < 2 ^ 31))
  refine ⟨result, i3 / 2 ^ 31, ?_, ?_, hnegative⟩
  · rw [hresult]
    rfl
  · rw [hmagnitude]
    simp only [lowInt]
    omega

theorem lowIntSigned_lt (val : ℤ) : lowIntSigned val < 2 ^ 32 := by
  unfold lowIntSigned
  omega

variable {left right}

theorem subtractUnsigned_spec (resultNegative : Bool) (hle : right.magnitude ≤ left.magnitude) :
    ∃ result, subtractUnsigned left right resultNegative = .ok result ∧
      result.magnitude + right.magnitude = left.magnitude ∧
      result.isNegative = resultNegative := by
  have hleft := left.getInt_lt
  rw [magnitude_eq_getInt left, magnitude_eq_getInt right] at hle ⊢
  rw [subtractUnsigned]
  generalize h0 : (left.getInt 0 : ℤ) - right.getInt 0 = i0
  generalize h1 : (left.getInt 1 : ℤ) - right.getInt 1 + i0 / 2 ^ 32 = i1
  generalize h2 : (left.getInt 2 : ℤ) - right.getInt 2 + i1 / 2 ^ 32 = i2
  generalize h3 : (left.getInt 3 : ℤ) - right.getInt 3 + i2 / 2 ^ 32 = i3
  have hcarry : i3 / 2 ^ 32 = 0 ∧ lowIntSigned i3 < 2 ^ 31 := by
    unfold lowIntSigned
    omega
  obtain ⟨result, hresult, hmagnitude, hnegative⟩ :=
    packInts_of_lt resultNegative (lowIntSigned_lt i0) (lowIntSigned_lt i1) (lowIntSigned_lt i2)
      hcarry.2
  refine ⟨result, ?_, ?_, hnegative⟩
  · rw [hresult]
    exact if_neg (not_not.mpr hcarry.1)
  · rw [hmagnitude]
    unfold lowIntSigned
    omega

/-! ## The exact sum -/

theorem wraps_of_ne (hsign : left.isNegative ≠ right.isNegative) :
    wraps (2 ^ 127) left.toBigInteger right.toBigInteger = 0 := by
  have hleft := left.magnitude_lt
  have hright := right.magnitude_lt
  unfold wraps toBigInteger
  split_ifs <;> simp_all <;> omega

theorem subtractMagnitudes_spec (left right : UnscaledDecimal128) (resultNegative : Bool) :
    ∃ result, subtractMagnitudes left right resultNegative = .ok result ∧
      result.toBigInteger = if resultNegative then (right.magnitude - left.magnitude : ℤ)
        else left.magnitude - right.magnitude := by
  rw [subtractMagnitudes, compareAbsolute_eq]
  rcases lt_trichotomy left.magnitude right.magnitude with hlt | heq | hgt
  · obtain ⟨result, hsubtract, hmagnitude, hnegative⟩ :=
      subtractUnsigned_spec (!resultNegative) hlt.le
    rw [Nat.compare_eq_lt.mpr hlt]
    refine ⟨result, hsubtract, ?_⟩
    rw [toBigInteger, hnegative]
    cases resultNegative <;> simp <;> omega
  · rw [Nat.compare_eq_eq.mpr heq]
    refine ⟨zero, rfl, ?_⟩
    rw [heq, sub_self, ite_self]
    rfl
  · obtain ⟨result, hsubtract, hmagnitude, hnegative⟩ :=
      subtractUnsigned_spec resultNegative hgt.le
    rw [Nat.compare_eq_gt.mpr hgt]
    refine ⟨result, hsubtract, ?_⟩
    rw [toBigInteger, hnegative]
    cases resultNegative <;> simp <;> omega

theorem addWithOverflow_of_ne (hsign : left.isNegative ≠ right.isNegative) :
    addWithOverflow left right = (·, 0) <$> subtractMagnitudes left right left.isNegative := by
  rw [addWithOverflow, if_neg hsign, subtractMagnitudes]
  cases compareAbsolute left right <;> rfl

theorem subtractUnsigned_exact (hsign : left.isNegative ≠ right.isNegative) :
    ∃ result, addWithOverflow left right = .ok (result, 0) ∧
      result.toBigInteger = left.toBigInteger + right.toBigInteger := by
  obtain ⟨result, hsubtract, hvalue⟩ := subtractMagnitudes_spec left right left.isNegative
  rw [addWithOverflow_of_ne hsign, hsubtract]
  refine ⟨result, rfl, ?_⟩
  rw [hvalue, toBigInteger, toBigInteger, Bool.eq_not_of_ne hsign.symm]
  cases left.isNegative <;> simp <;> omega

variable (left right)

/-- The result and the overflow hold the exact sum. -/
theorem addWithOverflow_spec :
    ∃ result, addWithOverflow left right =
        .ok (result, wraps (2 ^ 127) left.toBigInteger right.toBigInteger) ∧
      result.toBigInteger = left.toBigInteger + right.toBigInteger -
        2 ^ 127 * wraps (2 ^ 127) left.toBigInteger right.toBigInteger := by
  by_cases hsign : left.isNegative = right.isNegative
  · obtain ⟨result, overflow, hadd, hmagnitude, hnegative⟩ :=
      addUnsignedReturnOverflow_spec left right left.isNegative
    have hlt := result.magnitude_lt
    have hleft := left.magnitude_lt
    have hright := right.magnitude_lt
    have hwraps : (if left.isNegative then -(overflow : ℤ) else overflow) =
        wraps (2 ^ 127) left.toBigInteger right.toBigInteger := by
      unfold wraps toBigInteger
      rw [← hsign]
      split_ifs <;> omega
    rw [addWithOverflow, if_pos hsign, hadd, ← hwraps]
    refine ⟨result, rfl, ?_⟩
    rw [toBigInteger, toBigInteger, toBigInteger, ← hsign, hnegative]
    split <;> omega
  · rw [wraps_of_ne hsign, mul_zero, sub_zero]
    exact subtractUnsigned_exact hsign

/-! ## Sums and differences without an overflow -/

theorem add_returns :
    ReturnsBelow (2 ^ 127) (left.toBigInteger + right.toBigInteger) overflowException
      (add left right) := by
  obtain ⟨result, hadd, hvalue⟩ := addWithOverflow_spec left right
  rw [ReturnsBelow, add, hadd]
  unfold wraps at *
  split_ifs at * <;> first | omega | exact ⟨result, rfl, by omega⟩ | rfl

theorem subtract_returns :
    ReturnsBelow (2 ^ 127) (left.toBigInteger - right.toBigInteger) overflowException
      (subtract left right) := by
  rw [subtract]
  by_cases hsign : left.isNegative = right.isNegative
  · obtain ⟨result, hsubtract, hvalue⟩ := subtractMagnitudes_spec left right left.isNegative
    rw [if_neg (not_not.mpr hsign), ← hsign, Bool.and_self]
    apply returnsBelow_of_ok hsubtract
    rw [hvalue, toBigInteger, toBigInteger, ← hsign]
    split <;> omega
  · obtain ⟨result, overflow, hadd, hmagnitude, hnegative⟩ :=
      addUnsignedReturnOverflow_spec left right left.isNegative
    have hvalue : left.toBigInteger - right.toBigInteger =
        if left.isNegative then -(left.magnitude + right.magnitude : ℤ)
        else left.magnitude + right.magnitude := by
      rw [toBigInteger, toBigInteger, Bool.eq_not_of_ne (Ne.symm hsign)]
      cases left.isNegative <;> simp <;> omega
    rw [if_pos hsign, hadd, Result.bind_ok]
    by_cases hzero : overflow = 0
    · have hok : throwIfOverflow (result, (overflow : ℤ)) = .ok result :=
        if_neg (by simpa using hzero)
      apply returnsBelow_of_ok hok
      rw [hvalue, toBigInteger, hnegative]
      split <;> omega
    · rw [ReturnsBelow, hvalue, if_neg (by split <;> omega), throwIfOverflow,
        if_pos (by simpa using hzero)]

end Presto.Types.UnscaledDecimal128
