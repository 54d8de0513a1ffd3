import Presto.Support.Rounding
import Presto.Support.Throwable

/-!
# Decimal numbers of arbitrary precision

The operations of `java.math.BigDecimal` that the aggregations use: an integer and
a scale, addition at the larger scale, and division rounded to a given scale.
-/

namespace Presto.Support

/-- `unscaledValue * 10 ^ -scale`. -/
structure BigDecimal where
  unscaledValue : ℤ
  scale : ℕ
  deriving DecidableEq

namespace BigDecimal

/-- The represented number. -/
def value (x : BigDecimal) : ℚ := x.unscaledValue / 10 ^ x.scale

def add (x y : BigDecimal) : BigDecimal where
  unscaledValue :=
    x.unscaledValue * 10 ^ (max x.scale y.scale - x.scale) +
      y.unscaledValue * 10 ^ (max x.scale y.scale - y.scale)
  scale := max x.scale y.scale

/-- A number rounded to a scale, halves away from zero. -/
def roundTo (x : ℚ) (scale : ℕ) : BigDecimal := ⟨roundHalfUp (x * 10 ^ scale), scale⟩

/-- `divide` with a scale and `ROUND_HALF_UP`. -/
def divide (x y : BigDecimal) (scale : ℕ) : Result BigDecimal :=
  if y.unscaledValue = 0 then .error (.arithmetic "Division by zero")
  else .ok (roundTo (x.value / y.value) scale)

theorem mul_pow_div_pow (u : ℚ) {s t : ℕ} (h : s ≤ t) : u * 10 ^ (t - s) / 10 ^ t = u / 10 ^ s := by
  have hpow : (10 : ℚ) ^ t = 10 ^ s * 10 ^ (t - s) := by
    rw [← pow_add, Nat.add_sub_cancel' h]
  rw [hpow, mul_div_mul_right _ _ (by positivity)]

theorem value_add (x y : BigDecimal) : (x.add y).value = x.value + y.value := by
  rw [value, value, value, add]
  push_cast
  rw [add_div, mul_pow_div_pow _ (le_max_left _ _), mul_pow_div_pow _ (le_max_right _ _)]

end BigDecimal

end Presto.Support
