import Mathlib.Data.List.Iterate
import Mathlib.Order.Interval.Set.UnorderedInterval
import Presto.Support.MachineInteger
import Presto.Support.Throwable

/-!
# Sequences

The number of values is computed in 64 bits and then narrowed to 32.  A difference of the bounds
that does not fit wraps to the other sign, and a number of values that does not fit in 32 bits
fails before it is compared with the limit.
-/

namespace Presto.Operator.Scalar

open Support

/-! ## The functions -/

inductive FixedWidthType
  | bigint
  | date
  | timestamp

/-- The value that a block of the type holds. -/
def FixedWidthType.writeLong : FixedWidthType → Int64 → ℤ
  | .bigint, value | .timestamp, value => value.toInt
  | .date, value => value.toInt32.toInt

def checkValidStep (start stop step : Int64) : Result Unit :=
  if step = 0 then .error (.prestoException .invalidFunctionArgument "step must not be zero")
  else if if 0 < step then start ≤ stop else stop ≤ start then .ok ()
  else .error (.prestoException .invalidFunctionArgument
    ("sequence stop value should be greater than or equal to start value if step is greater " ++
      "than zero otherwise stop should be less than or equal to start"))

def checkMaxEntry (length : ℤ) : Result Unit :=
  if length ≤ 10000 then .ok ()
  else .error (.prestoException .invalidFunctionArgument
    "result of sequence function must not have more than 10000 entries")

def fixedWidthSequence (start stop step : Int64) (type : FixedWidthType) : Result (List ℤ) := do
  checkValidStep start stop step
  let length := ((stop - start) / step + 1).toInt
  -- `toIntExact`
  if length < -2 ^ 31 ∨ 2 ^ 31 ≤ length then .error (.arithmetic "integer overflow")
  else do
    checkMaxEntry length
    pure ((List.iterate (· + step) start length.toNat).map type.writeLong)

def sequence (start stop step : Int64) : Result (List ℤ) :=
  fixedWidthSequence start stop step .bigint

def defaultStep (start stop : Int64) : Int64 := if start ≤ stop then 1 else -1

def sequenceDefaultStep (start stop : Int64) : Result (List ℤ) :=
  fixedWidthSequence start stop (defaultStep start stop) .bigint

def sequenceDateDefaultStep (start stop : Int64) : Result (List ℤ) :=
  fixedWidthSequence start stop (defaultStep start stop) .date

def sequenceDateDayToSecond (start stop step : Int64) : Result (List ℤ) :=
  if step % 86400000 = 0 then fixedWidthSequence start stop (step / 86400000) .date
  else .error (.prestoException .invalidFunctionArgument
    "sequence step must be a day interval if start and end values are dates")

def sequenceTimestampDayToSecond (start stop step : Int64) : Result (List ℤ) :=
  fixedWidthSequence start stop step .timestamp

/-! ## What they return -/

section Sequence

variable (start stop step : Int64)

/-- The step is not zero and points from the start to the stop. -/
def Toward : Prop :=
  0 < step.toInt ∧ start.toInt ≤ stop.toInt ∨ step.toInt < 0 ∧ stop.toInt ≤ start.toInt

/-- The result has the values of the sequence between its bounds, unless there are too many. -/
def IsSequence (result : Result (List ℤ)) : Prop :=
  ∃ count : ℕ,
    (∀ i : ℕ, start.toInt + i * step.toInt ∈ Set.uIcc start.toInt stop.toInt ↔ i < count) ∧
    if count ≤ 10000 then
      result = .ok ((List.range count).map fun i : ℕ => start.toInt + i * step.toInt)
    else ∃ message, result = .error (.prestoException .invalidFunctionArgument message)

/-- The difference of the bounds fits in 64 bits and the number of values in 32. -/
def Fits : Prop :=
  -2 ^ 63 ≤ stop.toInt - start.toInt ∧ stop.toInt - start.toInt < 2 ^ 63 ∧
    (stop.toInt - start.toInt).natAbs / step.toInt.natAbs + 1 < 2 ^ 31

/-- Both bounds are days since the epoch in 32 bits. -/
def Dates : Prop :=
  ∀ bound ∈ [start, stop], -2 ^ 31 ≤ bound.toInt ∧ bound.toInt < 2 ^ 31

variable {start stop step}

section Values

variable (htoward : Toward start stop step)

include htoward

theorem mem_uIcc_iff (i : ℕ) :
    start.toInt + i * step.toInt ∈ Set.uIcc start.toInt stop.toInt ↔
      i < (stop.toInt - start.toInt).natAbs / step.toInt.natAbs + 1 := by
  rw [Toward] at htoward
  have hpos : 0 < step.toInt.natAbs := by omega
  have hnonneg : (0 : ℤ) ≤ i * step.toInt.natAbs := by positivity
  rw [Nat.lt_succ_iff, Nat.le_div_iff_mul_le hpos, ← Nat.cast_le (α := ℤ), Nat.cast_mul]
  rcases htoward with ⟨hstep, hle⟩ | ⟨hstep, hle⟩
  · rw [Set.uIcc_of_le hle, Set.mem_Icc, Int.natAbs_of_nonneg hstep.le] at *
    omega
  · rw [Set.uIcc_of_ge hle, Set.mem_Icc, Int.ofNat_natAbs_of_nonpos hstep.le, mul_neg] at *
    omega

theorem checkValidStep_eq_ok : checkValidStep start stop step = .ok () := by
  rcases htoward with ⟨hstep, hle⟩ | ⟨hstep, hle⟩
  · have hpositive : 0 < step := Int64.lt_iff_toInt_lt.mpr hstep
    rw [checkValidStep, if_neg hpositive.ne', if_pos]
    rw [if_pos hpositive]
    exact Int64.le_iff_toInt_le.mpr hle
  · have hnegative : step < 0 := Int64.lt_iff_toInt_lt.mpr hstep
    rw [checkValidStep, if_neg hnegative.ne, if_pos]
    rw [if_neg hnegative.not_gt]
    exact Int64.le_iff_toInt_le.mpr hle

/-- While the difference of the bounds does not wrap, the number of values wraps once. -/
theorem toInt_length
    (hlow : -2 ^ 63 ≤ stop.toInt - start.toInt) (hhigh : stop.toInt - start.toInt < 2 ^ 63) :
    ((stop - start) / step + 1).toInt =
      (((stop.toInt - start.toInt).natAbs / step.toInt.natAbs + 1 : ℕ) : ℤ).bmod (2 ^ 64) := by
  have hnonneg : 0 ≤ (stop.toInt - start.toInt).tdiv step.toInt := by
    rcases htoward with ⟨hstep, hle⟩ | ⟨hstep, hle⟩
    · exact Int.tdiv_nonneg (by omega) (by omega)
    · exact Int.tdiv_nonneg_of_nonpos_of_nonpos (by omega) (by omega)
  have hquotient : (stop.toInt - start.toInt).tdiv step.toInt =
      ((stop.toInt - start.toInt).natAbs / step.toInt.natAbs : ℕ) := by
    rw [← Int.natAbs_of_nonneg hnonneg, Int.natAbs_tdiv]
    rfl
  rw [Int64.toInt_add, Int64.toInt_div, toInt_sub_of_lt hlow hhigh, hquotient]
  rw [Int64.toInt_one, Int.bmod_add_bmod, Nat.cast_add_one]

/-- A difference that wraps has the sign opposite to the step, and gives at most one value. -/
theorem toInt_length_le_one (hwraps : ¬(-2 ^ 63 ≤ stop.toInt - start.toInt ∧
    stop.toInt - start.toInt < 2 ^ 63)) : ((stop - start) / step + 1).toInt ≤ 1 := by
  have hstart := start.le_toInt
  have hstart' := start.toInt_lt
  have hstop := stop.le_toInt
  have hstop' := stop.toInt_lt
  have hlow := (stop - start).le_toInt
  have hhigh := (stop - start).toInt_lt
  have hsub := Int64.toInt_sub stop start
  rw [Int.bmod_def] at hsub
  have hnonpos : (stop - start).toInt.tdiv step.toInt ≤ 0 := by
    rcases htoward with ⟨hstep, hle⟩ | ⟨hstep, hle⟩
    · have hnegative : 0 ≤ -(stop - start).toInt := by split_ifs at hsub <;> omega
      have hquotient := Int.tdiv_nonneg hnegative hstep.le
      rw [Int.neg_tdiv] at hquotient
      omega
    · have hpositive : 0 ≤ (stop - start).toInt := by split_ifs at hsub <;> omega
      exact Int.tdiv_nonpos_of_nonneg_of_nonpos hpositive hstep.le
  have hsmall : ((stop - start).toInt.tdiv step.toInt).natAbs ≤ (stop - start).toInt.natAbs := by
    rw [Int.natAbs_tdiv]
    exact Nat.div_le_self _ _
  rw [Int64.toInt_add, Int64.toInt_div, Int64.toInt_one, Int.bmod_add_bmod]
  generalize (stop - start).toInt.tdiv step.toInt = quotient at *
  rw [bmod_eq_self (by norm_num; omega) (by norm_num; omega)]
  omega

end Values

theorem toInt_iterate (i : ℕ) :
    ((· + step)^[i] start).toInt = (start.toInt + i * step.toInt).bmod (2 ^ 64) := by
  induction i with
  | zero => simp
  | succ i ih =>
      rw [Function.iterate_succ_apply', Int64.toInt_add, ih, Int.bmod_add_bmod, Nat.cast_succ,
        add_one_mul, add_assoc]

/-- A difference that wraps gives too few values, a number of values that does not fit fails. -/
theorem fixedWidthSequence_of_not_fits {type : FixedWidthType} (htoward : Toward start stop step)
    (hfits : ¬Fits start stop step) :
    fixedWidthSequence start stop step type = .error (.arithmetic "integer overflow") ∨
      ∃ values, fixedWidthSequence start stop step type = .ok values ∧ values.length ≤ 1 := by
  rw [fixedWidthSequence, checkValidStep_eq_ok htoward]
  by_cases hdifference : -2 ^ 63 ≤ stop.toInt - start.toInt ∧ stop.toInt - start.toInt < 2 ^ 63
  · left
    have hlarge : ¬(stop.toInt - start.toInt).natAbs / step.toInt.natAbs + 1 < 2 ^ 31 :=
      fun hsmall => hfits ⟨hdifference.1, hdifference.2, hsmall⟩
    have hle := Nat.div_le_self (stop.toInt - start.toInt).natAbs step.toInt.natAbs
    refine if_pos ?_
    rw [toInt_length htoward hdifference.1 hdifference.2, Int.bmod_def]
    generalize (stop.toInt - start.toInt).natAbs / step.toInt.natAbs = quotient at *
    split_ifs <;> omega
  · have hlength := toInt_length_le_one htoward hdifference
    by_cases hnarrow : ((stop - start) / step + 1).toInt < -2 ^ 31 ∨
        2 ^ 31 ≤ ((stop - start) / step + 1).toInt
    · exact Or.inl (if_pos hnarrow)
    · have hentries : checkMaxEntry ((stop - start) / step + 1).toInt = .ok () := if_pos (by omega)
      refine Or.inr ⟨_, (if_neg hnarrow).trans (by rw [hentries]; rfl), ?_⟩
      rw [List.length_map, List.length_iterate]
      omega

section Calls

variable {type : FixedWidthType}
  (hwrite : ∀ value : Int64, value.toInt ∈ Set.uIcc start.toInt stop.toInt →
    type.writeLong value = value.toInt)

include hwrite

theorem map_writeLong_iterate (htoward : Toward start stop step) :
    (List.iterate (· + step) start
      ((stop.toInt - start.toInt).natAbs / step.toInt.natAbs + 1)).map type.writeLong =
    (List.range ((stop.toInt - start.toInt).natAbs / step.toInt.natAbs + 1)).map
      fun i : ℕ => start.toInt + i * step.toInt := by
  rw [← List.range_map_iterate, List.map_map]
  apply List.map_congr_left
  intro i hi
  have hwithin := (mem_uIcc_iff htoward i).mpr (List.mem_range.mp hi)
  have hvalue : ((· + step)^[i] start).toInt = start.toInt + i * step.toInt := by
    rw [Set.mem_uIcc] at hwithin
    have hstart := start.le_toInt
    have hstart' := start.toInt_lt
    have hstop := stop.le_toInt
    have hstop' := stop.toInt_lt
    rw [toInt_iterate]
    apply bmod_eq_self <;> norm_num at * <;> omega
  rw [Function.comp_apply, hwrite _ (hvalue ▸ hwithin), hvalue]

/-- The result is the sequence exactly when its length is computed without wrapping. -/
theorem fixedWidthSequence_isSequence_iff (htoward : Toward start stop step) :
    IsSequence start stop step (fixedWidthSequence start stop step type) ↔
      Fits start stop step := by
  have hvalues := map_writeLong_iterate hwrite htoward
  constructor
  · rintro ⟨count, hcount, hresult⟩
    obtain rfl := eq_of_forall_lt_iff fun i => (hcount i).symm.trans (mem_uIcc_iff htoward i)
    by_contra hfits
    -- a single value means that the bounds are nearer than the step
    have hseveral : ¬(stop.toInt - start.toInt).natAbs < step.toInt.natAbs := by
      intro hnear
      have hstep := step.le_toInt
      have hstep' := step.toInt_lt
      refine hfits ⟨by omega, by omega, ?_⟩
      rw [Nat.div_eq_of_lt hnear]
      norm_num
    have hpositive : 0 < (stop.toInt - start.toInt).natAbs / step.toInt.natAbs := by
      refine Nat.div_pos (by omega) ?_
      rw [Toward] at htoward
      omega
    rcases fixedWidthSequence_of_not_fits htoward hfits with h | ⟨values, h, hlength⟩
    · rw [h] at hresult
      split_ifs at hresult
      obtain ⟨message, hresult⟩ := hresult
      cases hresult
    · rw [h] at hresult
      split_ifs at hresult
      · cases hresult
        rw [List.length_map, List.length_range] at hlength
        omega
      · obtain ⟨message, hresult⟩ := hresult
        cases hresult
  · intro hfits
    have hsmall := hfits.2.2
    refine ⟨_, mem_uIcc_iff htoward, ?_⟩
    rw [fixedWidthSequence, checkValidStep_eq_ok htoward, toInt_length htoward hfits.1 hfits.2.1]
    generalize (stop.toInt - start.toInt).natAbs / step.toInt.natAbs + 1 = count at *
    rw [bmod_eq_self (by norm_num; omega) (by norm_num; omega)]
    dsimp only
    rw [Int.toNat_natCast, hvalues, checkMaxEntry]
    split
    · rw [if_neg (by omega), if_pos (by omega)]
      rfl
    · rw [if_neg (by omega), if_neg (by omega)]
      exact ⟨_, rfl⟩

end Calls

theorem date_writeLong (hdates : Dates start stop)
    (value : Int64) (hvalue : value.toInt ∈ Set.uIcc start.toInt stop.toInt) :
    FixedWidthType.date.writeLong value = value.toInt := by
  have hstart := hdates start (by simp)
  have hstop := hdates stop (by simp)
  rw [Set.mem_uIcc] at hvalue
  exact toInt_toInt32_of_lt (by omega) (by omega)

end Sequence

/-- Every form is exact exactly where the difference of the bounds and the number of values
fit. -/
theorem sequence_exact_iff_fits (start stop step : Int64) (htoward : Toward start stop step) :
    (IsSequence start stop step (sequence start stop step) ↔ Fits start stop step) ∧
      (IsSequence start stop step (sequenceTimestampDayToSecond start stop step) ↔
        Fits start stop step) ∧
      (step = defaultStep start stop →
        (IsSequence start stop step (sequenceDefaultStep start stop) ↔ Fits start stop step)) ∧
      (Dates start stop →
        (step = defaultStep start stop →
          (IsSequence start stop step (sequenceDateDefaultStep start stop) ↔
            Fits start stop step)) ∧
        ∀ interval : Int64, interval.toInt = step.toInt * 86400000 →
          (IsSequence start stop step (sequenceDateDayToSecond start stop interval) ↔
            Fits start stop step)) := by
  refine ⟨?_, ?_, ?_, fun hdates => ⟨?_, fun interval hinterval => ?_⟩⟩
  · exact fixedWidthSequence_isSequence_iff (fun _ _ => rfl) htoward
  · exact fixedWidthSequence_isSequence_iff (fun _ _ => rfl) htoward
  · rintro rfl
    exact fixedWidthSequence_isSequence_iff (fun _ _ => rfl) htoward
  · rintro rfl
    exact fixedWidthSequence_isSequence_iff (date_writeLong hdates) htoward
  · have hdays : interval / 86400000 = step := by
      rw [← Int64.toInt_inj, Int64.toInt_div, hinterval]
      change ((step.toInt * 86400000).tdiv 86400000).bmod _ = _
      rw [Int.mul_tdiv_cancel _ (by norm_num)]
      exact step.toInt_bmod
    have hwhole : interval % 86400000 = 0 := by
      rw [← Int64.toInt_inj, Int64.toInt_mod, hinterval]
      exact Int.mul_tmod_left _ _
    rw [sequenceDateDayToSecond, if_pos hwhole, hdays]
    exact fixedWidthSequence_isSequence_iff (date_writeLong hdates) htoward

/-- Bounds too far apart give the empty array, and too many values another exception. -/
theorem sequence_of_wide_bounds :
    Toward Int64.minValue Int64.maxValue 1 ∧
      sequence Int64.minValue Int64.maxValue 1 = .ok [] ∧
      ¬IsSequence Int64.minValue Int64.maxValue 1 (sequence Int64.minValue Int64.maxValue 1) ∧
      sequence 0 2147483648 1 = .error (.arithmetic "integer overflow") := by
  have hempty : sequence Int64.minValue Int64.maxValue 1 = .ok [] := by decide
  refine ⟨Or.inl (by decide), hempty, ?_, by decide⟩
  rintro ⟨count, hcount, hresult⟩
  have hpos : 0 < count := (hcount 0).mp (by simp)
  rw [hempty] at hresult
  split_ifs at hresult
  · have hlength := congrArg List.length (Except.ok.inj hresult)
    rw [List.length_map, List.length_range, List.length_nil] at hlength
    omega
  · obtain ⟨message, h⟩ := hresult
    cases h

theorem sequence_exact_iff_fits_one_five :
    Toward 1 5 2 ∧ Fits 1 5 2 ∧ sequence 1 5 2 = .ok [1, 3, 5] ∧
      IsSequence 1 5 2 (sequence 1 5 2) := by
  have htoward : Toward 1 5 2 := Or.inl (by decide)
  have hfits : Fits 1 5 2 := by
    unfold Fits
    decide
  exact ⟨htoward, hfits, by decide, (sequence_exact_iff_fits 1 5 2 htoward).1.mpr hfits⟩

end Presto.Operator.Scalar
