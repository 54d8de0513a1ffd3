import Presto.Operator.Aggregation.DecimalSumAggregation
import Presto.Support.BigDecimal

/-!
# The average of decimals

The state is that of the sum with a count of the inputs.  The average adds the
overflows to the sum before it divides, but as an integer and not at the scale of
the type.
-/

namespace Presto.Operator.Aggregation

open Support Presto.Types UnscaledDecimal128 BigDecimal

/-! ## The code -/

/-- `LongDecimalWithOverflowAndLongState`; the long counts the inputs. -/
structure LongDecimalWithOverflowAndLongState extends LongDecimalWithOverflowState where
  long : ℤ
  deriving DecidableEq

namespace DecimalAverageAggregation

/-- `createSingleState`. -/
def initial : LongDecimalWithOverflowAndLongState := ⟨.initial, 0⟩

/-- `inputShortDecimal` and `inputLongDecimal`. -/
def input (state : LongDecimalWithOverflowAndLongState) (x : DecimalInput) :
    Result LongDecimalWithOverflowAndLongState := do
  let next ← state.toLongDecimalWithOverflowState.accumulate x.unscaledDecimal
  pure ⟨next, state.long + 1⟩

variable (state otherState : LongDecimalWithOverflowAndLongState)

def combine : Result LongDecimalWithOverflowAndLongState := do
  let next ← state.toLongDecimalWithOverflowState.combine
    otherState.toLongDecimalWithOverflowState
  pure ⟨next, state.long + otherState.long⟩

/-- The merge of a partial state; null positions are not combined. -/
def addIntermediate : Result LongDecimalWithOverflowAndLongState :=
  if otherState.longDecimal = none then .ok state else combine state otherState

variable (plan : Plan DecimalInput)

/-- The state that a plan of feeding and merging builds. -/
def run : Result LongDecimalWithOverflowAndLongState :=
  plan.run initial input addIntermediate

/-- The sum as it is divided: the decimal at the scale of the type, and the overflows. -/
def sumWithOverflow (longDecimal : UnscaledDecimal128) (overflow : ℤ) (scale : ℕ) :
    BigDecimal :=
  let sum : BigDecimal := ⟨longDecimal.toBigInteger, scale⟩
  if overflow ≠ 0 then sum.add ⟨2 ^ 127 * overflow, 0⟩ else sum

def average (state : LongDecimalWithOverflowAndLongState) (scale : ℕ) : Result BigDecimal :=
  match state.longDecimal with
  | none => .error .nullPointer
  | some longDecimal =>
      (sumWithOverflow longDecimal state.overflow scale).divide ⟨state.long, 0⟩ scale

/-! ## What a state holds -/

/-- The state of a plan holds its sum and its number of inputs. -/
structure Holds (state : LongDecimalWithOverflowAndLongState) : Prop where
  sum : state.toLongDecimalWithOverflowState.Holds plan
  count : state.long = plan.inputs.length

theorem Holds.initial : Holds .empty initial :=
  ⟨LongDecimalWithOverflowState.Holds.initial, rfl⟩

section Holds

variable {plan other : Plan DecimalInput} {state otherState : LongDecimalWithOverflowAndLongState}

theorem Holds.input (h : Holds plan state) (x : DecimalInput) :
    ∃ next, input state x = .ok next ∧ Holds (plan.input x) next := by
  obtain ⟨next, hnext, hsum⟩ := h.sum.input x
  refine ⟨⟨next, state.long + 1⟩, ?_, hsum, ?_⟩
  · rw [DecimalSumAggregation.input] at hnext
    rw [DecimalAverageAggregation.input, hnext]
    rfl
  · simp [h.count, Plan.inputs]

theorem Holds.addIntermediate (h : Holds plan state) (hother : Holds other otherState) :
    ∃ next, addIntermediate state otherState = .ok next ∧ Holds (plan.merge other) next := by
  obtain ⟨next, hnext, hsum⟩ := h.sum.addIntermediate hother.sum
  rw [DecimalSumAggregation.addIntermediate] at hnext
  rw [DecimalAverageAggregation.addIntermediate]
  by_cases hnone : otherState.longDecimal = none
  · have hnil := hother.sum.null.mp hnone
    rw [if_pos hnone] at hnext
    rw [← Except.ok.inj hnext] at hsum
    refine ⟨state, if_pos hnone, hsum, ?_⟩
    rw [h.count, Plan.inputs, hnil, List.append_nil]
  · rw [if_neg hnone] at hnext
    refine ⟨⟨next, state.long + otherState.long⟩, ?_, hsum, ?_⟩
    · rw [if_neg hnone, combine, hnext]
      rfl
    · simp [h.count, hother.count, Plan.inputs]

end Holds

theorem run_holds : ∃ state, run plan = .ok state ∧ Holds plan state :=
  Plan.run_spec Holds.initial (fun _ _ x h => h.input x)
    (fun _ _ _ _ h hother => h.addIntermediate hother) plan

/-! ## The average -/

/-- The average of the inputs of a plan. -/
def aggregate (scale : ℕ) : Result BigDecimal := do
  let state ← run plan
  average state scale

/-- The average is the exact quotient rounded to the scale of the type. -/
def AveragesExactly (scale : ℕ) : Prop :=
  aggregate plan scale = .ok (roundTo
    ((plan.sum DecimalInput.value : ℚ) / plan.inputs.length / 10 ^ scale) scale)

theorem value_sumWithOverflow (longDecimal : UnscaledDecimal128) (overflow : ℤ) (scale : ℕ) :
    (sumWithOverflow longDecimal overflow scale).value =
      longDecimal.toBigInteger / 10 ^ scale + 2 ^ 127 * overflow := by
  rw [sumWithOverflow]
  split
  · rw [value_add, value, value, Int.cast_mul, Int.cast_pow, Int.cast_ofNat, pow_zero, div_one]
  · rename_i hzero
    rw [not_not.mp hzero, value, Int.cast_zero, mul_zero, add_zero]

/-- The overflows are added without the scale of the type. -/
theorem aggregate_eq {plan : Plan DecimalInput} (scale : ℕ) (hne : plan.inputs ≠ []) :
    aggregate plan scale = .ok (roundTo
      ((((plan.sum DecimalInput.value : ℚ) -
          2 ^ 127 * plan.rounds (2 ^ 127) DecimalInput.value) / 10 ^ scale +
        2 ^ 127 * plan.rounds (2 ^ 127) DecimalInput.value) / plan.inputs.length) scale) := by
  obtain ⟨state, hrun, hholds⟩ := run_holds plan
  obtain ⟨longDecimal, hlong⟩ :=
    Option.ne_none_iff_exists'.mp (mt hholds.sum.null.mp hne)
  have hcount : state.long ≠ 0 := by
    rw [hholds.count, Int.natCast_ne_zero, ne_eq, List.length_eq_zero_iff]
    exact hne
  have hcarried := hholds.sum.carried
  rw [hlong, Option.getD_some] at hcarried
  rw [aggregate, hrun, Result.bind_ok, average, hlong]
  dsimp only
  rw [divide, if_neg hcount, value_sumWithOverflow, ← hcarried, hholds.sum.overflow,
    value, hholds.count, Int.cast_sub, Int.cast_mul, Int.cast_pow, Int.cast_ofNat,
    Int.cast_natCast, pow_zero, div_one]

/-- Overflows at the wrong scale move the average of fewer than `2 ^ 63` inputs by more
than rounding could. -/
theorem one_lt_abs_misplaced {rounds : ℤ} {n : ℚ} {scale : ℕ} (hrounds : rounds ≠ 0)
    (hscale : scale ≠ 0) (hpos : 0 < n) (hlt : n < 2 ^ 63) :
    1 < |(rounds : ℚ) * (2 ^ 127 * (10 ^ scale - 1)) / n| := by
  have hone : (1 : ℚ) ≤ |(rounds : ℚ)| := by
    exact_mod_cast Int.one_le_abs hrounds
  have hten : (10 : ℚ) ≤ 10 ^ scale := le_self_pow₀ (by norm_num) hscale
  have hfactor : (2 : ℚ) ^ 63 ≤ 2 ^ 127 * (10 ^ scale - 1) := by linarith
  have hfactorPos : (0 : ℚ) < 2 ^ 127 * (10 ^ scale - 1) := by linarith
  rw [abs_div, abs_mul, abs_of_pos hpos, abs_of_pos hfactorPos, lt_div_iff₀ hpos, one_mul]
  calc n < 2 ^ 63 := hlt
    _ ≤ 2 ^ 127 * (10 ^ scale - 1) := hfactor
    _ ≤ |(rounds : ℚ)| * (2 ^ 127 * (10 ^ scale - 1)) :=
        le_mul_of_one_le_left hfactorPos.le hone

/-- The average is exact for types of scale zero and for states without overflow, and, as
long as the inputs are fewer than `2 ^ 63`, for no others. -/
theorem averagesExactly_iff
    (plan : Plan DecimalInput) (scale : ℕ) (hne : plan.inputs ≠ []) :
    (scale = 0 ∨ plan.rounds (2 ^ 127) DecimalInput.value = 0 →
      AveragesExactly plan scale) ∧
    (plan.inputs.length < 2 ^ 63 → AveragesExactly plan scale →
      scale = 0 ∨ plan.rounds (2 ^ 127) DecimalInput.value = 0) := by
  rw [AveragesExactly, aggregate_eq scale hne]
  generalize plan.rounds (2 ^ 127) DecimalInput.value = rounds
  generalize plan.sum DecimalInput.value = sum
  constructor
  · rintro (rfl | rfl)
    · rw [pow_zero, div_one, div_one, sub_add_cancel]
    · rw [Int.cast_zero, mul_zero, sub_zero, add_zero, div_right_comm]
  · intro hlength hexact
    have hpos : (0 : ℚ) < plan.inputs.length := by
      rw [Nat.cast_pos, List.length_pos_iff]
      exact hne
    have hlt : (plan.inputs.length : ℚ) < 2 ^ 63 := by exact_mod_cast hlength
    generalize (plan.inputs.length : ℚ) = n at *
    by_contra hcontra
    obtain ⟨hscale, hrounds⟩ := not_or.mp hcontra
    have hrounded := congrArg unscaledValue (Except.ok.inj hexact)
    have hle := abs_sub_le_one_of_roundHalfUp_eq hrounded
    have hdiff : (((sum : ℚ) - 2 ^ 127 * rounds) / 10 ^ scale + 2 ^ 127 * rounds) / n *
        10 ^ scale - sum / n / 10 ^ scale * 10 ^ scale =
        rounds * (2 ^ 127 * (10 ^ scale - 1)) / n := by
      field_simp
      ring
    rw [hdiff] at hle
    exact absurd hle (not_le.mpr (one_lt_abs_misplaced hrounds hscale hpos hlt))

open DecimalSumAggregation (nines) in
theorem average_oppositeNines_exact :
    ((Plan.empty.input (nines false)).input (nines true)).inputs ≠ [] ∧
      AveragesExactly ((Plan.empty.input (nines false)).input (nines true)) 2 := by
  have hne : ((Plan.empty.input (nines false)).input (nines true)).inputs ≠ [] := by
    simp [Plan.inputs]
  exact ⟨hne, (averagesExactly_iff _ 2 hne).1 (Or.inr (by decide +kernel))⟩

open DecimalSumAggregation (nines) in
/-- Two times 38 nines at scale two: the average is not 38 nines. -/
theorem average_overflow_not_exact :
    ¬AveragesExactly ((Plan.empty.input (nines false)).input (nines false)) 2 := by
  rw [AveragesExactly]
  decide +kernel

end DecimalAverageAggregation

end Presto.Operator.Aggregation
