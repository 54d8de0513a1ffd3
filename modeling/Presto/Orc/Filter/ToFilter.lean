import Presto.Orc.Filter.TupleDomainFilter
import Presto.Predicate.Domain

/-!
# Filters of domains

`toFilter` picks a filter for a domain: a range filter for a single range, a
table or a bit set for single values, a list of ranges otherwise.  The types
that it treats alike are given by the way it reads their native values.
-/

namespace Presto.Orc.TupleDomainFilterUtils

open Predicate Support

/-- How `toFilter` reads the native values of a type: `BOOLEAN` as booleans,
`TINYINT` to `BIGINT`, `DATE`, `TIMESTAMP` and short `DECIMAL` as longs,
`VARCHAR` and `CHAR` as slices. -/
inductive FilterType (α : Type)
  | boolean (values : α ≃ Bool)
  | integer (getValue : α → Int64)
  | string (getValue : α → List UInt8)

variable {α β : Type} [LinearOrder α]

/-- The native value of a low marker, or the given one if it is unbounded. -/
def lowerValueOr (unbounded : β) (getValue : α → β) (low : Marker α) : Result β :=
  if low.isLowerUnbounded then .ok unbounded else getValue <$> low.getValue

/-- The native value of a high marker, or the given one if it is unbounded. -/
def upperValueOr (unbounded : β) (getValue : α → β) (high : Marker α) : Result β :=
  if high.isUpperUnbounded then .ok unbounded else getValue <$> high.getValue

def bigintRangeToFilter (getValue : α → Int64) (range : Range α) (nullAllowed : Bool) :
    Result TupleDomainFilter := do
  let low := range.low
  let high := range.high
  let lowerLong ← lowerValueOr Int64.minValue getValue low
  let upperLong ← upperValueOr Int64.maxValue getValue high
  let upperLong :=
    if !high.isUpperUnbounded && high.bound == .below then upperLong - 1 else upperLong
  let lowerLong :=
    if !low.isLowerUnbounded && low.bound == .above then lowerLong + 1 else lowerLong
  if upperLong < lowerLong then pure .alwaysFalse
  else .bigintRange <$> BigintRange.of lowerLong upperLong nullAllowed

def varcharRangeToFilter (getValue : α → List UInt8) (range : Range α)
    (nullAllowed : Bool) : Result TupleDomainFilter := do
  let low := range.low
  let high := range.high
  let lowerValue ← lowerValueOr none (some ∘ getValue) low
  let upperValue ← upperValueOr none (some ∘ getValue) high
  pure (.bytesRange
    ⟨lowerValue, low.bound == .above, upperValue, high.bound == .below, nullAllowed⟩)

def createRangeFilter (type : FilterType α) (range : Range α) (nullAllowed : Bool) :
    Result TupleDomainFilter :=
  if range.isAll then do
    checkArgument (!nullAllowed) "Unexpected range of ALL values"
    pure .isNotNull
  else
    match type with
    | .integer getValue => bigintRangeToFilter getValue range nullAllowed
    | .boolean values => do
        checkArgument range.isSingleValue "Unexpected range of boolean values"
        let value ← range.low.getValue
        pure (.booleanValue ⟨values value, nullAllowed⟩)
    | .string getValue => varcharRangeToFilter getValue range nullAllowed

def createBooleanFilter (values : α ≃ Bool) (ranges : List (Range α))
    (nullAllowed : Bool) : Result TupleDomainFilter :=
  let includesTrue := ranges.any fun range =>
    range.includes (Marker.exactly (values.symm true))
  let includesFalse := ranges.any fun range =>
    range.includes (Marker.exactly (values.symm false))
  if includesTrue && includesFalse then do
    checkArgument (!nullAllowed) "Unexpected range of ALL values"
    pure .isNotNull
  else pure (.booleanValue ⟨includesTrue, nullAllowed⟩)

/-- The walk of `isNotIn` over neighbouring ranges: each pair leaves out exactly
the value it touches in. -/
def touchesOnly (previousHigh : Marker α) : List (Range α) → Result Bool
  | [] => .ok true
  | current :: rest =>
      if previousHigh.bound ≠ .below || current.low.bound ≠ .above then .ok false
      else
        match previousHigh.value, current.low.value with
        | some v, some w =>
            if compare v w ≠ .eq then .ok false
            else touchesOnly current.high rest
        | _, _ => .error .noSuchElement

def isNotIn (type : FilterType α) (ranges : List (Range α)) : Result Bool :=
  match type, ranges with
  | .string _, firstRange :: second :: rest =>
      let lastRange := (second :: rest).getLast (by simp)
      if !firstRange.low.isLowerUnbounded || !lastRange.high.isUpperUnbounded then
        .ok false
      else touchesOnly firstRange.high (second :: rest)
  | _, _ => .ok false

/-- The least and the greatest of the values. -/
def minOf (first : Int64) (rest : List Int64) : Int64 := rest.foldl min first

def maxOf (first : Int64) (rest : List Int64) : Int64 := rest.foldl max first

/-- The choice between a hash table and a bit set: the former when the values
are spread over more than 192 bits each. -/
def prefersHashTable (first : Int64) (rest : List Int64) : Bool :=
  let range := (maxOf first rest).toInt - (minOf first rest).toInt + 1
  2 ^ 31 - 1 < range || 192 < range / ((rest.length : ℤ) + 1)

def toBigintValues (values : List Int64) (nullAllowed : Bool) :
    Result TupleDomainFilter :=
  match values with
  | [] => .error .indexOutOfBounds
  | first :: rest =>
      let min := minOf first rest
      let max := maxOf first rest
      if prefersHashTable first rest then
        .bigintValuesUsingHashTable <$>
          BigintValuesUsingHashTable.of min max values nullAllowed
      else
        .bigintValuesUsingBitmask <$>
          BigintValuesUsingBitmask.of min max values nullAllowed

/-- `BigintRange.class::cast`. -/
def castBigintRange : TupleDomainFilter → Result BigintRange
  | .bigintRange f => .ok f
  | _ => .error .classCast

/-- `BytesRange.class::cast`. -/
def castBytesRange : TupleDomainFilter → Result BytesRange
  | .bytesRange f => .ok f
  | _ => .error .classCast

/-- The lower bound of a single value, which the table reads. -/
def lowerOfSingleValue (f : BytesRange) : Result (List UInt8) :=
  match f.lower with
  | some lower => .ok lower
  | none => .error .nullPointer

/-- The filter of several ranges, of which some may be empty. -/
def combineRangeFilters (type : FilterType α) (ranges : List (Range α))
    (rangeFilters : List TupleDomainFilter) (nullAllowed : Bool) :
    Result TupleDomainFilter :=
  match rangeFilters with
  | [] => .ok (if nullAllowed then .isNull else .alwaysFalse)
  | .bigintRange _ :: _ => do
      let bigintRanges ← rangeFilters.mapM castBigintRange
      if bigintRanges.all BigintRange.isSingleValue then
        toBigintValues (bigintRanges.map BigintRange.lower) nullAllowed
      else
        .bigintMultiRange <$> BigintMultiRange.of bigintRanges nullAllowed
  | .bytesRange _ :: _ => do
      let bytesRanges ← rangeFilters.mapM castBytesRange
      if bytesRanges.all BytesRange.singleValue then
        let values ← bytesRanges.mapM lowerOfSingleValue
        .bytesValues <$> BytesValues.of values nullAllowed
      else
        let notIn ← isNotIn type ranges
        if notIn then
          .bytesValuesExclusive <$>
            BytesValuesExclusive.of (bytesRanges.filterMap BytesRange.lower) nullAllowed
        else TupleDomainFilter.multiRangeOf rangeFilters nullAllowed false
  | _ => TupleDomainFilter.multiRangeOf rangeFilters nullAllowed false

/-- The filter of a set of ranges that is neither empty nor full. -/
def rangesToFilter (type : FilterType α) (ranges : List (Range α))
    (nullAllowed : Bool) : Result TupleDomainFilter :=
  if ranges.isEmpty && nullAllowed then .ok .isNull
  else
    match ranges, type with
    | [range], _ => createRangeFilter type range nullAllowed
    | _, .boolean values => createBooleanFilter values ranges nullAllowed
    | _, _ => do
        let rangeFilters ← ranges.mapM fun range => createRangeFilter type range false
        combineRangeFilters type ranges
          (rangeFilters.filter fun filter => !filter.isAlwaysFalse) nullAllowed

def toFilter (type : FilterType α) {kind : OrderableType α}
    (domain : Domain (.orderable inferInstance inferInstance kind)) : Result TupleDomainFilter :=
  let values : SortedRangeSet kind := domain.values
  let nullAllowed := domain.nullAllowed
  if values.isAll then do
    checkArgument (!nullAllowed) "Unexpected allways-true filter"
    pure .isNotNull
  else if values.isNone then do
    checkArgument nullAllowed "Unexpected allways-false filter"
    pure .isNull
  else rangesToFilter type values.getOrderedRanges nullAllowed

/-! ## The ranges of a domain -/

/-- Whether some range holds a value. -/
def holds (ranges : List (Range α)) (v : α) : Bool :=
  ranges.any fun range => range.includes (Marker.exactly v)

variable {kind : OrderableType α}

theorem containsValue_eq_holds (s : SortedRangeSet kind) (v : α) :
    s.containsValue v = holds s.getOrderedRanges v := by
  rw [Bool.eq_iff_iff, SortedRangeSet.containsValue_iff, covers_iff, holds, List.any_eq_true]
  simp only [Range.includes_iff]

theorem isAll_eq_false_of_canonical {ranges : List (Range α)} (hlength : 2 ≤ ranges.length)
    (hseparated : ranges.Pairwise fun r s => r.high < s.low) : ∀ r ∈ ranges, r.isAll = false := by
  intro r hr
  rw [Bool.eq_false_iff]
  intro hall
  rw [Range.isAll, Bool.and_eq_true, Marker.isLowerUnbounded_iff,
    Marker.isUpperUnbounded_iff] at hall
  have halone : ∀ s ∈ ranges, ¬(r.high < s.low) ∧ ¬(s.high < r.low) := by
    intro s _
    rw [hall.1, hall.2]
    exact ⟨not_lt.mpr (Marker.le_upperUnbounded _), not_lt.mpr (Marker.lowerUnbounded_le _)⟩
  rcases ranges with _ | ⟨first, _ | ⟨second, rest⟩⟩
  · simp at hr
  · simp at hlength
  · have hfirst := (List.pairwise_cons.mp hseparated).1
    rcases List.mem_cons.mp hr with rfl | hr
    · exact (halone second (by simp)).1 (hfirst second (by simp))
    · exact (halone first (by simp)).2 (hfirst r hr)

/-- For a domain that is neither all nor none, the filter is that of its
ranges, unless there is no range or a full one. -/
theorem toFilter_cases (type : FilterType α) (values : SortedRangeSet kind) (nullAllowed : Bool)
    (hall : (values.isAll && nullAllowed) = false)
    (hnone : (values.isNone && !nullAllowed) = false) :
    (values.getOrderedRanges = [Range.all] ∧ nullAllowed = false ∧
      toFilter type (⟨values, nullAllowed⟩ : Domain (.orderable inferInstance inferInstance kind)) =
        .ok .isNotNull) ∨
    (values.getOrderedRanges = [] ∧ nullAllowed = true ∧
      toFilter type (⟨values, nullAllowed⟩ : Domain (.orderable inferInstance inferInstance kind)) =
        .ok .isNull) ∨
    (values.getOrderedRanges ≠ [] ∧
      (∀ r, values.getOrderedRanges = [r] → r.isAll = false) ∧
      toFilter type (⟨values, nullAllowed⟩ : Domain (.orderable inferInstance inferInstance kind)) =
        rangesToFilter type values.getOrderedRanges nullAllowed) := by
  rw [toFilter]
  by_cases hvaluesAll : values.isAll = true
  · obtain ⟨r, hranges, hr⟩ := values.isAll_iff.mp hvaluesAll
    obtain rfl : nullAllowed = false := by simpa [hvaluesAll] using hall
    rw [if_pos hvaluesAll, hranges, Range.isAll_iff.mp hr]
    exact Or.inl ⟨rfl, rfl, rfl⟩
  by_cases hvaluesNone : values.isNone = true
  · obtain rfl : nullAllowed = true := by simpa [hvaluesNone] using hnone
    rw [if_neg hvaluesAll, if_pos hvaluesNone]
    exact Or.inr (Or.inl ⟨values.isNone_iff.mp hvaluesNone, rfl, rfl⟩)
  rw [if_neg hvaluesAll, if_neg hvaluesNone]
  refine Or.inr (Or.inr ⟨fun h => hvaluesNone (values.isNone_iff.mpr h), ?_, rfl⟩)
  intro r hranges
  rw [Bool.eq_false_iff]
  exact fun hr => hvaluesAll (values.isAll_iff.mpr ⟨r, hranges, hr⟩)

end Presto.Orc.TupleDomainFilterUtils
