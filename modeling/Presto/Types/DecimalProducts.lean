import Presto.Types.DecimalRescale

/-!
# Products of decimals

`multiply` keeps the 127 bits of a product and throws when they do not hold it,
`multiply256` keeps all of it.  The SQL operator admits the products of at most
38 digits, and its only exception is the one for a value out of range.
-/

namespace Presto.Types.UnscaledDecimal128

open Support
open Nat (ofDigits)

/-! ## The operator -/

/-- What the SQL operators throw for an `ArithmeticException`. -/
def outOfRangeException : Throwable :=
  .prestoException .numericValueOutOfRange "Decimal overflow"

/-- The `catch` clause of the decimal operators. -/
def catchArithmetic {α : Type} : Result α → Result α
  | .error (.arithmetic _) => .error outOfRangeException
  | outcome => outcome

def multiplyLongLongLong (a b : UnscaledDecimal128) : Result UnscaledDecimal128 :=
  catchArithmetic do
    let result ← multiply a b
    result.throwIfOverflows
    pure result

/-! ## Exact products -/

variable {outcome : Result UnscaledDecimal128} {value : ℤ}

/-- Of the results of 127 bits the check of the SQL operators lets those of 38 digits pass. -/
theorem catchArithmetic_returns (h : ReturnsBelow (2 ^ 127) value overflowException outcome) :
    ReturnsBelow (10 ^ 38) value outOfRangeException (catchArithmetic do
      let result ← outcome
      result.throwIfOverflows
      pure result) := by
  unfold ReturnsBelow at h ⊢
  by_cases hfits : value.natAbs < 2 ^ 127
  · rw [if_pos hfits] at h
    obtain ⟨result, rfl, hvalue⟩ := h
    have hmagnitude : value.natAbs = result.magnitude := by
      rw [← hvalue, natAbs_toBigInteger]
    rw [Result.bind_ok, throwIfOverflows_eq, hmagnitude]
    by_cases hlarge : 10 ^ 38 ≤ result.magnitude
    · rw [if_pos hlarge, if_neg (not_lt.mpr hlarge)]
      rfl
    · rw [if_neg hlarge, if_pos (not_le.mp hlarge)]
      exact ⟨result, rfl, hvalue⟩
  · rw [if_neg hfits] at h
    have hlarge : ¬value.natAbs < 10 ^ 38 := by
      intro hlt
      exact hfits (hlt.trans (by norm_num))
    rw [h, if_neg hlarge]
    rfl

theorem returnsBelow_throws_iff {bound : ℕ} {exception : Throwable}
    (h : ReturnsBelow bound value exception outcome) :
    (∃ e, outcome = .error e) ↔ bound ≤ value.natAbs := by
  unfold ReturnsBelow at h
  split at h
  · rename_i hlt
    obtain ⟨decimal, rfl, -⟩ := h
    simpa using hlt
  · rename_i hge
    rw [h]
    simpa using hge

/-- `multiply` returns the signed product of 127 bits or throws an overflow,
`multiply256` the product of 256 bits, and the SQL operator throws for exactly the products
of more than 38 digits. -/
theorem decimal_products_are_exact (left right : UnscaledDecimal128) :
    ReturnsBelow (2 ^ 127) (left.toBigInteger * right.toBigInteger) overflowException
      (multiply left right) ∧
    ((multiply256 left.getInts right.getInts).length = 8 ∧
      Limbs (2 ^ 32) (multiply256 left.getInts right.getInts) ∧
      ofDigits (2 ^ 32) (multiply256 left.getInts right.getInts) =
        (left.toBigInteger * right.toBigInteger).natAbs) ∧
    ReturnsBelow (10 ^ 38) (left.toBigInteger * right.toBigInteger) outOfRangeException
      (multiplyLongLongLong left right) ∧
    ((∃ e, multiplyLongLongLong left right = .error e) ↔
      10 ^ 38 ≤ (left.toBigInteger * right.toBigInteger).natAbs) := by
  have hmultiply := catchArithmetic_returns (multiply_returns left right)
  obtain ⟨-, hlength, hlimbs, hvalue⟩ := multiply256_spec left.ints_getInts right.ints_getInts
  exact ⟨multiply_returns left right,
    ⟨hlength, hlimbs, hvalue.trans (natAbs_toBigInteger_mul left right).symm⟩, hmultiply,
    returnsBelow_throws_iff hmultiply⟩

end Presto.Types.UnscaledDecimal128
