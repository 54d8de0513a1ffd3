import Presto.Types.DecimalAddition

/-!
# The sum of decimals

The state of the aggregation is a sum of 127 bits and a count of its overflows.
Together they are the exact sum of the inputs, whichever way the state was built;
the output, however, throws for every state whose count is not zero.  The count
changes by at most one for each row and is an integer here.
-/

namespace Presto.Operator.Aggregation

open Support Presto.Types UnscaledDecimal128 Plan Option

/-! ## The code -/

/-- `LongDecimalWithOverflowState`. -/
structure LongDecimalWithOverflowState where
  longDecimal : Option UnscaledDecimal128
  overflow : ℤ
  deriving DecidableEq

/-- A value of a decimal block: a long for a short decimal type, a slice otherwise. -/
inductive DecimalInput
  | short (value : Int64)
  | long (decimal : UnscaledDecimal128)

namespace DecimalInput

/-- What `inputShortDecimal` and `inputLongDecimal` accumulate. -/
def unscaledDecimal : DecimalInput → UnscaledDecimal128
  | short value => ofLong value
  | long decimal => decimal

/-- The unscaled integer. -/
def value : DecimalInput → ℤ
  | short value => value.toInt
  | long decimal => decimal.toBigInteger

theorem toBigInteger_unscaledDecimal (x : DecimalInput) :
    x.unscaledDecimal.toBigInteger = x.value := by
  cases x with
  | short value => exact toBigInteger_ofLong value
  | long decimal => rfl

end DecimalInput

namespace LongDecimalWithOverflowState

/-- `createSingleState`. -/
def initial : LongDecimalWithOverflowState := ⟨none, 0⟩

/-- `initializeIfNeeded` and the addition to the sum. -/
def accumulate (unscaledDecimal : UnscaledDecimal128) (state : LongDecimalWithOverflowState) :
    Result LongDecimalWithOverflowState := do
  let sum := state.longDecimal.getD zero
  let result ← addWithOverflow sum unscaledDecimal
  pure ⟨some result.1, state.overflow + result.2⟩

def combine (state otherState : LongDecimalWithOverflowState) :
    Result LongDecimalWithOverflowState :=
  let overflow := state.overflow + otherState.overflow
  match state.longDecimal, otherState.longDecimal with
  | none, longDecimal => .ok ⟨longDecimal, overflow⟩
  | some _, none => .error .nullPointer
  | some sum, some longDecimal => accumulate longDecimal ⟨some sum, overflow⟩

end LongDecimalWithOverflowState

namespace DecimalSumAggregation

open LongDecimalWithOverflowState

/-- `inputShortDecimal` and `inputLongDecimal`. -/
def input (state : LongDecimalWithOverflowState) (x : DecimalInput) :
    Result LongDecimalWithOverflowState :=
  accumulate x.unscaledDecimal state

/-- The merge of a partial state: it is serialized to null when it has no decimal, and
null positions of an intermediate block are not combined. -/
def addIntermediate (state otherState : LongDecimalWithOverflowState) :
    Result LongDecimalWithOverflowState :=
  if otherState.longDecimal = none then .ok state else combine state otherState

/-- The state that a plan of feeding and merging builds. -/
def run (plan : Plan DecimalInput) : Result LongDecimalWithOverflowState :=
  plan.run initial input addIntermediate

/-- The written slice, or null. -/
def outputLongDecimal (state : LongDecimalWithOverflowState) :
    Result (Option UnscaledDecimal128) :=
  match state.longDecimal with
  | none => .ok none
  | some longDecimal =>
      if state.overflow ≠ 0 then .error overflowException
      else do
        throwIfOverflows longDecimal
        pure (some longDecimal)

/-- The aggregation of the inputs of a plan. -/
def aggregate (plan : Plan DecimalInput) : Result (Option UnscaledDecimal128) := do
  let state ← run plan
  outputLongDecimal state

end DecimalSumAggregation

/-! ## What a state holds -/

/-- The state of a plan: null before the first input, then the exact sum less what the
overflows stand for. -/
structure LongDecimalWithOverflowState.Holds
    (plan : Plan DecimalInput) (state : LongDecimalWithOverflowState) : Prop where
  null : state.longDecimal = none ↔ plan.inputs = []
  overflow : state.overflow = plan.rounds (2 ^ 127) DecimalInput.value
  sum : (state.longDecimal.getD zero).toBigInteger + 2 ^ 127 * state.overflow =
    plan.sum DecimalInput.value

namespace LongDecimalWithOverflowState

/-- One addition to the sum. -/
theorem accumulate_spec
    (unscaledDecimal : UnscaledDecimal128) (state : LongDecimalWithOverflowState) :
    ∃ sum, accumulate unscaledDecimal state =
        .ok ⟨some sum, state.overflow + wraps (2 ^ 127)
          (state.longDecimal.getD zero).toBigInteger unscaledDecimal.toBigInteger⟩ ∧
      sum.toBigInteger = (state.longDecimal.getD zero).toBigInteger +
        unscaledDecimal.toBigInteger - 2 ^ 127 * wraps (2 ^ 127)
          (state.longDecimal.getD zero).toBigInteger unscaledDecimal.toBigInteger := by
  obtain ⟨sum, hadd, hsum⟩ :=
    addWithOverflow_spec (state.longDecimal.getD zero) unscaledDecimal
  refine ⟨sum, ?_, hsum⟩
  rw [accumulate, hadd]
  rfl

section Holds

variable {plan other : Plan DecimalInput} {state otherState : LongDecimalWithOverflowState}

theorem Holds.initial : Holds .empty initial :=
  ⟨by simp [LongDecimalWithOverflowState.initial, inputs], rfl, rfl⟩

variable (h : Holds plan state)

include h

/-- What is carried on is the sum without the overflows. -/
theorem Holds.carried :
    plan.sum DecimalInput.value - 2 ^ 127 * plan.rounds (2 ^ 127) DecimalInput.value =
      (state.longDecimal.getD zero).toBigInteger := by
  rw [← h.sum, ← h.overflow, add_sub_cancel_right]

theorem Holds.input (x : DecimalInput) :
    ∃ next, DecimalSumAggregation.input state x = .ok next ∧ Holds (plan.input x) next := by
  obtain ⟨sum, haccumulate, hsum⟩ := accumulate_spec x.unscaledDecimal state
  refine ⟨_, haccumulate, ?_, ?_, ?_⟩
  · simp [inputs]
  · rw [rounds, h.carried, ← h.overflow, x.toBigInteger_unscaledDecimal]
  · rw [sum_input, ← h.sum, ← x.toBigInteger_unscaledDecimal, getD_some, hsum]
    ring

theorem Holds.rounds_eq_zero (hnone : state.longDecimal = none) :
    plan.rounds (2 ^ 127) DecimalInput.value = 0 := by
  have hsum := h.sum
  have hzero : UnscaledDecimal128.zero.toBigInteger = 0 := rfl
  rw [sum_of_inputs_eq_nil (h.null.mp hnone), hnone, getD_none, hzero, h.overflow] at hsum
  omega

theorem Holds.combine (hother : Holds other otherState) (hne : otherState.longDecimal ≠ none) :
    ∃ next, state.combine otherState = .ok next ∧ Holds (plan.merge other) next := by
  obtain ⟨longDecimal, hlong⟩ := ne_none_iff_exists'.mp hne
  have hinputs : (plan.merge other).inputs ≠ [] := by
    rw [inputs, ne_eq, List.append_eq_nil_iff]
    exact fun hnil => hne (hother.null.mpr hnil.2)
  have hcarried := hother.carried
  rw [LongDecimalWithOverflowState.combine, hlong]
  rw [hlong, getD_some] at hcarried
  cases hstate : state.longDecimal with
  | none =>
      have hrounds := h.rounds_eq_zero hstate
      have hnil := h.null.mp hstate
      have hbounds := longDecimal.toBigInteger_bounds
      rw [← hcarried] at hbounds
      have hmerge := rounds_merge_into_inputs_eq_nil hrounds hnil hbounds.1 hbounds.2
      refine ⟨_, rfl, ?_, ?_, ?_⟩
      · exact iff_of_false (by simp) hinputs
      · rw [hmerge, h.overflow, hrounds, zero_add, hother.overflow]
      · rw [sum_merge, sum_of_inputs_eq_nil hnil, ← hother.sum, h.overflow, hrounds,
          hlong, zero_add, zero_add]
  | some sum =>
      have hcarried' := h.carried
      rw [hstate, getD_some] at hcarried'
      obtain ⟨result, haccumulate, hresult⟩ :=
        accumulate_spec longDecimal ⟨some sum, state.overflow + otherState.overflow⟩
      rw [getD_some, ← hcarried, ← hcarried'] at haccumulate hresult
      refine ⟨_, haccumulate, ?_, ?_, ?_⟩
      · exact iff_of_false (by simp) hinputs
      · rw [rounds, h.overflow, hother.overflow]
      · rw [sum_merge, getD_some, hresult, h.overflow, hother.overflow]
        ring

theorem Holds.addIntermediate (hother : Holds other otherState) :
    ∃ next, DecimalSumAggregation.addIntermediate state otherState = .ok next ∧
      Holds (plan.merge other) next := by
  rw [DecimalSumAggregation.addIntermediate]
  by_cases hnone : otherState.longDecimal = none
  · have hnil := hother.null.mp hnone
    have hbounds := (state.longDecimal.getD zero).toBigInteger_bounds
    rw [← h.carried] at hbounds
    have hmerge := rounds_merge_of_inputs_eq_nil (hother.rounds_eq_zero hnone) hnil
      hbounds.1 hbounds.2
    refine ⟨state, if_pos hnone, ?_, ?_, ?_⟩
    · rw [h.null, inputs, hnil, List.append_nil]
    · rw [hmerge, h.overflow]
    · rw [sum_merge, sum_of_inputs_eq_nil hnil, add_zero, h.sum]
  · rw [if_neg hnone]
    exact h.combine hother hnone

end Holds

end LongDecimalWithOverflowState

namespace DecimalSumAggregation

open LongDecimalWithOverflowState

/-- Every plan builds a state, which holds the exact sum with its overflows. -/
theorem run_holds (plan : Plan DecimalInput) :
    ∃ state, run plan = .ok state ∧ state.Holds plan := by
  exact run_spec Holds.initial (fun _ _ x h => h.input x)
    (fun _ _ _ _ h hother => h.addIntermediate hother) plan

/-! ## The output -/

/-- The output is null for no inputs; otherwise it is the exact sum, if that has at most
38 digits, and an overflow if not. -/
def SumsExactly (plan : Plan DecimalInput) : Prop :=
  (plan.inputs = [] → aggregate plan = .ok none) ∧
  (plan.inputs ≠ [] → |plan.sum DecimalInput.value| < 10 ^ 38 →
    ∃ decimal, aggregate plan = .ok (some decimal) ∧
      decimal.toBigInteger = plan.sum DecimalInput.value) ∧
  (plan.inputs ≠ [] → 10 ^ 38 ≤ |plan.sum DecimalInput.value| →
    ∃ message, aggregate plan = .error (.arithmetic message))

theorem outputLongDecimal_of_some {state : LongDecimalWithOverflowState}
    {longDecimal : UnscaledDecimal128} (hlong : state.longDecimal = some longDecimal) :
    outputLongDecimal state =
      if state.overflow ≠ 0 ∨ 10 ^ 38 ≤ |longDecimal.toBigInteger| then
        .error overflowException
      else .ok (some longDecimal) := by
  have habs : |longDecimal.toBigInteger| = longDecimal.magnitude := by
    rw [Int.abs_eq_natAbs, natAbs_toBigInteger]
  rw [outputLongDecimal, hlong, habs]
  by_cases hoverflow : state.overflow = 0
  · rw [hoverflow]
    dsimp only
    rw [if_neg (not_not.mpr rfl), throwIfOverflows_eq]
    by_cases hlarge : 10 ^ 38 ≤ longDecimal.magnitude
    · rw [if_pos hlarge, Result.bind_error, if_pos (Or.inr (by exact_mod_cast hlarge))]
    · have hsmall : ¬((0 : ℤ) ≠ 0 ∨ (10 : ℤ) ^ 38 ≤ longDecimal.magnitude) := by
        rintro (hne | hge)
        · exact hne rfl
        · exact hlarge (by exact_mod_cast hge)
      rw [if_neg hlarge, if_neg hsmall]
      rfl
  · dsimp only
    rw [if_pos hoverflow, if_pos (Or.inl hoverflow)]

/-- The sum is exact unless it overflows on the way to a result that fits: the overflows
of the running sums have to cancel out. -/
theorem sumsExactly_iff (plan : Plan DecimalInput) :
    SumsExactly plan ↔
      plan.rounds (2 ^ 127) DecimalInput.value = 0 ∨
        10 ^ 38 ≤ |plan.sum DecimalInput.value| := by
  obtain ⟨state, hrun, hholds⟩ := run_holds plan
  have haggregate : aggregate plan = outputLongDecimal state := by
    rw [aggregate, hrun, Result.bind_ok]
  cases hlong : state.longDecimal with
  | none =>
      have hnil := hholds.null.mp hlong
      refine iff_of_true ⟨fun _ => ?_, absurd hnil, absurd hnil⟩
        (Or.inl (hholds.rounds_eq_zero hlong))
      rw [haggregate, outputLongDecimal, hlong]
  | some longDecimal =>
      have hne : plan.inputs ≠ [] := by
        intro hnil
        rw [hholds.null.mpr hnil] at hlong
        cases hlong
      have hsum := hholds.sum
      rw [hlong, Option.getD_some, hholds.overflow] at hsum
      rw [SumsExactly, haggregate, outputLongDecimal_of_some hlong, hholds.overflow]
      by_cases hrounds : plan.rounds (2 ^ 127) DecimalInput.value = 0
      · rw [hrounds, mul_zero, add_zero] at hsum
        rw [hrounds, hsum]
        refine iff_of_true ⟨(absurd · hne), fun _ hlt => ?_, fun _ hge => ?_⟩ (Or.inl rfl)
        · rw [if_neg (by rintro (h | h); exacts [h rfl, absurd hlt (not_lt.mpr h)])]
          exact ⟨longDecimal, rfl, hsum⟩
        · rw [if_pos (Or.inr hge)]
          exact ⟨_, rfl⟩
      · rw [if_pos (Or.inl hrounds), or_iff_right hrounds]
        constructor
        · rintro ⟨-, hfits, -⟩
          by_contra hlt
          obtain ⟨decimal, herror, -⟩ := hfits hne (not_le.mp hlt)
          cases herror
        · intro hge
          exact ⟨(absurd · hne), fun _ hlt => absurd hge (not_le.mpr hlt), fun _ _ => ⟨_, rfl⟩⟩

/-- 38 nines, positive or negative. -/
def nines (negative : Bool) : DecimalInput :=
  .long (pack ((10 ^ 38 - 1) % 2 ^ 64) ((10 ^ 38 - 1) / 2 ^ 64) negative)

/-- 38 nines twice, and then their negation: the sum is again 38 nines, and the output is
an overflow. -/
theorem sum_overflowAndBack_not_exact :
    ¬SumsExactly (((empty.input (nines false)).input (nines false)).input
      (nines true)) := by
  rintro ⟨-, hfits, -⟩
  have haggregate : aggregate (((empty.input (nines false)).input (nines false)).input
      (nines true)) = .error overflowException := by
    decide +kernel
  obtain ⟨decimal, hok, -⟩ := hfits (by simp [inputs]) (by decide +kernel)
  cases hok

end DecimalSumAggregation

end Presto.Operator.Aggregation
