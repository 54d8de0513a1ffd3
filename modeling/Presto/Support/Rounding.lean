import Mathlib.Algebra.Order.Ring.Int
import Mathlib.Data.Rat.Floor
import Mathlib.Tactic.FieldSimp
import Mathlib.Tactic.Ring

/-!
# Rounding to the nearest integer

Halves are rounded away from zero, as `RoundingMode.HALF_UP` does.  On fractions
this is one division of magnitudes.
-/

namespace Presto.Support

open Nat

/-- The nearest integer, with halves rounded away from zero. -/
def roundHalfUp (x : ℚ) : ℤ :=
  if 0 ≤ x then ⌊x + 1 / 2⌋ else -⌊-x + 1 / 2⌋

/-- The integer part, toward zero. -/
def truncate (x : ℚ) : ℤ := if 0 ≤ x then ⌊x⌋ else -⌊-x⌋

/-- The fraction of two natural numbers rounded to the nearest one. -/
def roundedQuotient (n d : ℕ) : ℕ := (2 * n + d) / (2 * d)

variable {n d : ℕ}

theorem floor_div_add_half (hd : 0 < d) : ⌊(n : ℚ) / d + 1 / 2⌋ = (roundedQuotient n d : ℤ) := by
  have hfraction : (n : ℚ) / d + 1 / 2 = ((2 * n + d : ℕ) : ℚ) / ((2 * d : ℕ) : ℚ) := by
    push_cast
    field_simp
  rw [hfraction, Rat.floor_natCast_div_natCast]
  exact (Int.natCast_div _ _).symm

theorem roundedQuotient_eq_zero_iff (hd : 0 < d) : roundedQuotient n d = 0 ↔ 2 * n < d := by
  rw [roundedQuotient, div_eq_zero_iff_lt (by omega)]
  omega

theorem roundedQuotient_zero {d : ℕ} (hd : 0 < d) : roundedQuotient 0 d = 0 :=
  (roundedQuotient_eq_zero_iff hd).mpr hd

variable {x : ℚ}

theorem ite_nonneg_eq (round : ℚ → ℤ) :
    (if 0 ≤ x then round x else -round (-x)) = if x < 0 then -round |x| else round |x| := by
  by_cases hneg : x < 0
  · rw [if_neg (not_le.mpr hneg), if_pos hneg, abs_of_neg hneg]
  · rw [if_pos (not_lt.mp hneg), if_neg hneg, abs_of_nonneg (not_lt.mp hneg)]

/-- A rational number is rounded by rounding its magnitude. -/
theorem roundHalfUp_eq (hd : 0 < d) (hx : |x| = (n : ℚ) / d) :
    roundHalfUp x = if x < 0 then -(roundedQuotient n d : ℤ) else roundedQuotient n d := by
  rw [roundHalfUp, ite_nonneg_eq (⌊· + 1 / 2⌋), hx, floor_div_add_half hd]

theorem roundHalfUp_intCast (z : ℤ) : roundHalfUp (z : ℚ) = z := by
  have hfloor : ∀ w : ℤ, ⌊(w : ℚ) + 1 / 2⌋ = w := by
    intro w
    rw [Int.floor_eq_iff]
    constructor <;> linarith
  rw [roundHalfUp]
  split
  · exact hfloor z
  · rw [← Int.cast_neg, hfloor, neg_neg]

theorem truncate_eq (hx : |x| = (n : ℚ) / d) :
    truncate x = if x < 0 then -((n / d : ℕ) : ℤ) else (n / d : ℕ) := by
  have hfloor : ⌊(n : ℚ) / d⌋ = ((n / d : ℕ) : ℤ) := by
    rw [Rat.floor_natCast_div_natCast]
    exact (Int.natCast_div _ _).symm
  rw [truncate, ite_nonneg_eq (⌊·⌋), hx, hfloor]

theorem natAbs_roundHalfUp (hd : 0 < d) (hx : |x| = (n : ℚ) / d) :
    (roundHalfUp x).natAbs = roundedQuotient n d := by
  rw [roundHalfUp_eq hd hx]
  split <;> simp

/-- Rounding moves a number by at most a half. -/
theorem abs_roundHalfUp_sub_le (x : ℚ) : |(roundHalfUp x : ℚ) - x| ≤ 1 / 2 := by
  rw [roundHalfUp, abs_le]
  split
  · have hle := Int.floor_le (x + 1 / 2)
    have hlt := Int.lt_floor_add_one (x + 1 / 2)
    constructor <;> linarith
  · have hle := Int.floor_le (-x + 1 / 2)
    have hlt := Int.lt_floor_add_one (-x + 1 / 2)
    push_cast
    constructor <;> linarith

theorem abs_sub_le_one_of_roundHalfUp_eq {y : ℚ} (h : roundHalfUp x = roundHalfUp y) :
    |x - y| ≤ 1 := by
  have hx := abs_le.mp (abs_roundHalfUp_sub_le x)
  have hy := abs_le.mp (abs_roundHalfUp_sub_le y)
  rw [h] at hx
  rw [abs_le]
  constructor <;> linarith

/-- Rounding adds one to the truncated quotient when twice the remainder reaches the
divisor. -/
theorem roundedQuotient_eq (hd : 0 < d) :
    roundedQuotient n d = n / d + if d ≤ 2 * (n % d) then 1 else 0 := by
  have hdivMod := div_add_mod n d
  have hlt := mod_lt n hd
  rw [roundedQuotient, Nat.div_eq_iff (by omega)]
  generalize n / d = q at *
  have hmul : (q + 1) * (2 * d) = 2 * (d * q) + 2 * d := by ring
  have hmul' : q * (2 * d) = 2 * (d * q) := by ring
  split
  · omega
  · rw [add_zero]
    omega

/-- A division in stages is rounded by the remainder of its last stage. -/
theorem mul_le_two_mul_mod_iff {n a b : ℕ} (ha : 0 < a) (hb : Even b) :
    a * b ≤ 2 * (n % (a * b)) ↔ b ≤ 2 * (n / a % b) := by
  obtain ⟨c, rfl⟩ := hb
  have hlt := mod_lt n ha
  rw [mod_mul]
  generalize n / a % (c + c) = t at *
  have htwo : a * (c + c) = 2 * (a * c) := by ring
  constructor
  · intro h
    by_contra hge
    have hmul : a * (t + 1) ≤ a * c := mul_le_mul_left a (by omega)
    rw [mul_add_one] at hmul
    omega
  · intro h
    have hmul : a * c ≤ a * t := mul_le_mul_left a (by omega)
    omega

theorem roundedQuotient_mul {n a b : ℕ} (ha : 0 < a) (hpos : 0 < b) (hb : Even b) :
    roundedQuotient n (a * b) = roundedQuotient (n / a) b := by
  rw [roundedQuotient_eq (Nat.mul_pos ha hpos), roundedQuotient_eq hpos, Nat.div_div_eq_div_mul]
  congr 1
  exact if_congr (mul_le_two_mul_mod_iff ha hb) rfl rfl

/-- The fractions at most a half below an integer are those that are rounded up to it. -/
theorem sub_half_le_div_and_lt_iff (c : ℕ) (hd : 0 < d) :
    (c : ℚ) - 1 / 2 ≤ (n : ℚ) / d ∧ (n : ℚ) / d < c ↔ n / d + 1 = c ∧ d ≤ 2 * (n % d) := by
  have hlow : (c : ℚ) - 1 / 2 ≤ (n : ℚ) / d ↔ c ≤ roundedQuotient n d := by
    rw [sub_le_iff_le_add, ← Int.cast_natCast c, ← Int.le_floor, floor_div_add_half hd, cast_le]
  have hhigh : (n : ℚ) / d < c ↔ n / d < c := by
    rw [div_lt_iff₀ (cast_pos.mpr hd), div_lt_iff_lt_mul hd]
    exact_mod_cast Iff.rfl
  rw [hlow, hhigh, roundedQuotient_eq hd]
  split <;> omega

end Presto.Support
