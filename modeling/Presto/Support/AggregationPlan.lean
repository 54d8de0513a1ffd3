import Mathlib.Algebra.BigOperators.Group.List.Basic
import Mathlib.Algebra.Order.Ring.Int

/-!
# Plans of partial aggregation

An aggregation state is built from the empty one by feeding inputs and by merging
states that were built the same way.  A plan records how: every order of the
inputs, every split into partial states and every shape of merging is one.
-/

namespace Presto.Support

universe u v

/-- Whether an addition goes beyond a bound, upward or downward. -/
def wraps (bound a b : ℤ) : ℤ :=
  if bound ≤ a + b then 1 else if a + b ≤ -bound then -1 else 0

variable {bound : ℤ}

/-- How an aggregation state is built. -/
inductive Plan (α : Type u)
  | empty
  | input (plan : Plan α) (x : α)
  | merge (plan other : Plan α)

namespace Plan

variable {α : Type u} {ε σ : Type v}

/-- The inputs that went into a state. -/
def inputs : Plan α → List α
  | empty => []
  | input plan x => plan.inputs ++ [x]
  | merge plan other => plan.inputs ++ other.inputs

/-- The sum of what the inputs stand for. -/
def sum (value : α → ℤ) (plan : Plan α) : ℤ := (plan.inputs.map value).sum

/-- The state that a plan builds, from the operations of an aggregation. -/
def run (start : σ) (feed : σ → α → Except ε σ) (join : σ → σ → Except ε σ) :
    Plan α → Except ε σ
  | empty => .ok start
  | input plan x => do
      let state ← run start feed join plan
      feed state x
  | merge plan other => do
      let state ← run start feed join plan
      let otherState ← run start feed join other
      join state otherState

@[simp]
theorem sum_input (value : α → ℤ) (plan : Plan α) (x : α) :
    (plan.input x).sum value = plan.sum value + value x := by
  simp [sum, inputs]

@[simp]
theorem sum_merge (value : α → ℤ) (plan other : Plan α) :
    (plan.merge other).sum value = plan.sum value + other.sum value := by
  simp [sum, inputs]

variable {value : α → ℤ} {plan : Plan α}

theorem sum_of_inputs_eq_nil (h : plan.inputs = []) : plan.sum value = 0 := by
  rw [sum, h, List.map_nil, List.sum_nil]

/-- A relation between plans and states that holds at the start and is kept by both
operations, which then return, holds of the state that any plan builds. -/
theorem run_spec {start : σ} {feed : σ → α → Except ε σ} {join : σ → σ → Except ε σ}
    {Builds : Plan α → σ → Prop} (hstart : Builds empty start)
    (hfeed : ∀ plan state x, Builds plan state →
      ∃ next, feed state x = .ok next ∧ Builds (plan.input x) next)
    (hjoin : ∀ plan state other otherState, Builds plan state → Builds other otherState →
      ∃ next, join state otherState = .ok next ∧ Builds (plan.merge other) next)
    (plan : Plan α) : ∃ state, run start feed join plan = .ok state ∧ Builds plan state := by
  induction plan with
  | empty => exact ⟨start, rfl, hstart⟩
  | input plan x ih =>
      obtain ⟨state, hrun, hbuilds⟩ := ih
      obtain ⟨next, hnext, hbuilds'⟩ := hfeed plan state x hbuilds
      refine ⟨next, ?_, hbuilds'⟩
      rw [run, hrun]
      exact hnext
  | merge plan other ih ih' =>
      obtain ⟨state, hrun, hbuilds⟩ := ih
      obtain ⟨otherState, hrun', hbuilds'⟩ := ih'
      obtain ⟨next, hnext, hbuilds''⟩ := hjoin plan state other otherState hbuilds hbuilds'
      refine ⟨next, ?_, hbuilds''⟩
      rw [run, hrun, hrun']
      exact hnext

/-! ## Sums kept modulo a bound

A state that keeps a sum below a bound counts how often it went round. -/

/-- How often the sum of a plan goes round upward, less how often it goes round
downward: what is carried on is the sum without the rounds counted so far. -/
def rounds (bound : ℤ) (value : α → ℤ) : Plan α → ℤ
  | empty => 0
  | input plan x =>
      plan.rounds bound value +
        wraps bound (plan.sum value - bound * plan.rounds bound value) (value x)
  | merge plan other =>
      plan.rounds bound value + other.rounds bound value +
        wraps bound (plan.sum value - bound * plan.rounds bound value)
          (other.sum value - bound * other.rounds bound value)

variable {other : Plan α}

theorem rounds_merge_of_inputs_eq_nil (hother : other.rounds bound value = 0)
    (hnil : other.inputs = []) (hlow : -bound < plan.sum value - bound * plan.rounds bound value)
    (hhigh : plan.sum value - bound * plan.rounds bound value < bound) :
    (plan.merge other).rounds bound value = plan.rounds bound value := by
  rw [rounds, hother, sum_of_inputs_eq_nil hnil, mul_zero, sub_zero,
    wraps, add_zero, add_zero, if_neg (not_le.mpr hhigh), if_neg (not_le.mpr hlow), add_zero]

theorem rounds_merge_into_inputs_eq_nil (hplan : plan.rounds bound value = 0)
    (hnil : plan.inputs = []) (hlow : -bound < other.sum value - bound * other.rounds bound value)
    (hhigh : other.sum value - bound * other.rounds bound value < bound) :
    (plan.merge other).rounds bound value = other.rounds bound value := by
  rw [rounds, hplan, sum_of_inputs_eq_nil hnil, mul_zero, sub_zero,
    wraps, zero_add, zero_add, if_neg (not_le.mpr hhigh), if_neg (not_le.mpr hlow), add_zero]

end Plan

end Presto.Support
