import Mathlib.Data.List.Sort
import Mathlib.Logic.Equiv.Defs
import Presto.Predicate.Range
import Presto.Support.NavigableMap

/-!
# Sorted range sets

`Builder.build` sorts ranges by their low markers and merges those that overlap
or are adjacent; every sorted range set comes out of it, so the set carries the
resulting invariant.  Union, intersection and complement collect ranges and
build again.
-/

namespace Presto.Predicate

open List

open Support (ClosedInterval NavigableMap)

/-- The orderable types as far as `Builder.build` tells them apart: `BOOLEAN`
is named by its two values. -/
inductive OrderableType (α : Type*)
  | boolean (values : α ≃ Bool)
  | other

variable {α : Type*} [LinearOrder α]

/-- Some range of the list includes the marker. -/
def Covers (ranges : List (Range α)) (m : Marker α) : Prop :=
  ClosedInterval.Covers (ranges.map Range.toInterval) m

variable {m : Marker α}

theorem covers_iff {ranges : List (Range α)} :
    Covers ranges m ↔ ∃ r ∈ ranges, m ∈ r.toInterval := by
  simp [Covers, ClosedInterval.Covers]

@[simp] theorem covers_nil (m : Marker α) : Covers ([] : List (Range α)) m ↔ False := by
  simp [Covers]

@[simp] theorem covers_cons (r : Range α) (ranges : List (Range α)) (m : Marker α) :
    Covers (r :: ranges) m ↔ m ∈ r.toInterval ∨ Covers ranges m := by
  simp [Covers]

@[simp] theorem covers_append (ranges ranges' : List (Range α)) (m : Marker α) :
    Covers (ranges ++ ranges') m ↔ Covers ranges m ∨ Covers ranges' m := by
  simp [Covers]

/-- The representation invariant: ranges are keyed by their low markers, each
ends before the next starts, and no two neighbours are adjacent. -/
structure Canonical (entries : NavigableMap (Marker α) (Range α)) : Prop where
  keyed : ∀ e ∈ entries, e.1 = e.2.low
  separated : entries.Pairwise fun e f =>
    e.2.high < f.2.low ∧ e.2.high.isAdjacent f.2.low = false

variable {entries : NavigableMap (Marker α) (Range α)}

theorem covers_values_iff : Covers entries.values m ↔ ∃ e ∈ entries, m ∈ e.2.toInterval := by
  simp [Covers, ClosedInterval.Covers, NavigableMap.values]

theorem Canonical.sorted (h : Canonical entries) : entries.Sorted := by
  refine h.separated.imp_of_mem ?_
  intro e f he hf hef
  rw [h.keyed e he, h.keyed f hf]
  exact e.2.le.trans_lt hef.1

theorem Canonical.ascending (h : Canonical entries) :
    ClosedInterval.Ascending (entries.values.map Range.toInterval) := by
  unfold ClosedInterval.Ascending NavigableMap.values
  rw [map_map, pairwise_map]
  exact h.separated.imp fun hef => hef.1

theorem Canonical.singleton {r : Range α} : Canonical [(r.low, r)] where
  keyed := by simp
  separated := by simp

/-! ## Building -/

namespace Builder

/-- The merge loop over the sorted ranges. -/
def coalesce (current : Range α) (result : NavigableMap (Marker α) (Range α)) :
    List (Range α) → Result (NavigableMap (Marker α) (Range α))
  | [] => .ok (result.put current.low current)
  | next :: rest =>
      if current.joins next then do
        let merged ← current.span next
        coalesce merged result rest
      else
        coalesce next (result.put current.low current) rest

/-- The sets of `BOOLEAN` that allow both values become the full range. -/
def collapseBoolean (type : OrderableType α)
    (result : NavigableMap (Marker α) (Range α)) :
    NavigableMap (Marker α) (Range α) :=
  match type with
  | .other => result
  | .boolean values =>
      let trueAllowed := result.any fun entry =>
        entry.2.includes (Marker.exactly (values.symm true))
      let falseAllowed := result.any fun entry =>
        entry.2.includes (Marker.exactly (values.symm false))
      if trueAllowed && falseAllowed then [(Range.all.low, Range.all)] else result

variable (ranges : List (Range α))

def sortByLow : List (Range α) :=
  ranges.mergeSort fun r s => (r.low.compareTo s.low).isLE

/-- Sorting and merging, before the treatment of `BOOLEAN`. -/
def merge : Result (NavigableMap (Marker α) (Range α)) :=
  match sortByLow ranges with
  | [] => .ok []
  | first :: rest => coalesce first [] rest

theorem sortByLow_perm : (sortByLow ranges).Perm ranges :=
  mergeSort_perm ranges _

theorem sortByLow_sorted : (sortByLow ranges).Pairwise fun r s => r.low ≤ s.low := by
  have htrans : ∀ a b c : Range α, (a.low.compareTo b.low).isLE = true →
      (b.low.compareTo c.low).isLE = true → (a.low.compareTo c.low).isLE = true := by
    intro a b c hab hbc
    simp only [Marker.compareTo_isLE_iff] at hab hbc ⊢
    exact hab.trans hbc
  have htotal : ∀ a b : Range α, ((a.low.compareTo b.low).isLE ||
      (b.low.compareTo a.low).isLE) = true := by
    intro a b
    simpa using le_total a.low b.low
  have h := pairwise_mergeSort htrans htotal ranges
  exact h.imp fun hab => by simpa using hab

/-- What the merge loop maintains: the stored ranges are canonical, end before
the current range and are not adjacent to it, and the ranges still to come
start no earlier than the current one. -/
structure LoopInvariant (current : Range α)
    (result : NavigableMap (Marker α) (Range α)) (rest : List (Range α)) : Prop where
  canonical : Canonical result
  before : ∀ e ∈ result,
    e.2.high < current.low ∧ e.2.high.isAdjacent current.low = false
  sorted : (current :: rest).Pairwise fun r s => r.low ≤ s.low

variable {result : NavigableMap (Marker α) (Range α)} {rest : List (Range α)} {current : Range α}

theorem put_current (h : LoopInvariant current result rest) :
    result.put current.low current = result ++ [(current.low, current)] := by
  apply NavigableMap.put_of_forall_lt
  intro e he
  rw [h.canonical.keyed e he]
  exact e.2.le.trans_lt (h.before e he).1

theorem canonical_put_current (h : LoopInvariant current result rest) :
    Canonical (result.put current.low current) := by
  rw [put_current h]
  constructor
  · intro e he
    rcases mem_append.mp he with he | he
    · exact h.canonical.keyed e he
    · simp_all
  · rw [pairwise_append]
    refine ⟨h.canonical.separated, by simp, ?_⟩
    intro e he f hf
    obtain rfl : f = (current.low, current) := by simpa using hf
    exact h.before e he

variable {next : Range α} {merged : Range α}

/-- A merge keeps the low marker of the current range. -/
theorem low_of_span (hle : current.low ≤ next.low)
    (h : current.span next = .ok merged) : merged.low = current.low := by
  obtain ⟨t, ht, hinterval⟩ := Range.span_eq_ok current next
  obtain rfl : t = merged := by simpa [h] using ht.symm
  have hlow : t.low = current.low ⊓ next.low := congrArg ClosedInterval.lo hinterval
  rw [hlow, inf_eq_left.mpr hle]

theorem loopInvariant_merge (h : LoopInvariant current result (next :: rest))
    (hspan : current.span next = .ok merged) : LoopInvariant merged result rest := by
  obtain ⟨hcurrent, htail⟩ := pairwise_cons.mp h.sorted
  have hlow : merged.low = current.low := low_of_span (hcurrent next (by simp)) hspan
  refine ⟨h.canonical, ?_, ?_⟩
  · rw [hlow]
    exact h.before
  · refine pairwise_cons.mpr ⟨?_, (pairwise_cons.mp htail).2⟩
    intro s hs
    rw [hlow]
    exact hcurrent s (by simp [hs])

theorem loopInvariant_advance (h : LoopInvariant current result (next :: rest))
    (hjoins : current.joins next = false) :
    LoopInvariant next (result.put current.low current) rest := by
  obtain ⟨hcurrent, htail⟩ := pairwise_cons.mp h.sorted
  have hle : current.low ≤ next.low := hcurrent next (by simp)
  refine ⟨canonical_put_current h, ?_, htail⟩
  intro e he
  rw [put_current h] at he
  rcases mem_append.mp he with he | he
  · obtain ⟨hlt, hadjacent⟩ := h.before e he
    refine ⟨hlt.trans_le hle, ?_⟩
    rcases hle.eq_or_lt with heq | hlow
    · rw [← heq]
      exact hadjacent
    · -- the current low marker lies between, so the two cannot be neighbours
      by_contra hne
      have hcov := Marker.covBy_of_isAdjacent (by simpa using hne) (hlt.trans hlow)
      exact hcov.2 hlt hlow
  · obtain rfl : e = (current.low, current) := by simpa using he
    simp only [Range.joins, Bool.or_eq_false_iff] at hjoins
    refine ⟨?_, hjoins.2⟩
    by_contra hge
    have hoverlap := Range.overlaps_iff.mpr ⟨hle.trans next.le, not_lt.mp hge⟩
    simp [hoverlap] at hjoins

/-- The merge loop returns a canonical map with the same markers. -/
theorem coalesce_spec (rest : List (Range α)) :
    ∀ (current : Range α) (result : NavigableMap (Marker α) (Range α)),
      LoopInvariant current result rest →
      ∃ entries, coalesce current result rest = .ok entries ∧ Canonical entries ∧
        ∀ m, Covers entries.values m ↔
          Covers result.values m ∨ m ∈ current.toInterval ∨ Covers rest m := by
  induction rest with
  | nil =>
      intro current result h
      refine ⟨_, rfl, canonical_put_current h, ?_⟩
      intro m
      rw [put_current h]
      simp [NavigableMap.values]
  | cons next rest ih =>
      intro current result h
      have hle : current.low ≤ next.low :=
        (pairwise_cons.mp h.sorted).1 next (by simp)
      by_cases hjoins : current.joins next = true
      · obtain ⟨merged, hspan, -⟩ := Range.span_eq_ok current next
        obtain ⟨entries, hentries, hcanonical, hcovers⟩ :=
          ih merged result (loopInvariant_merge h hspan)
        refine ⟨entries, ?_, hcanonical, ?_⟩
        · rw [coalesce, if_pos hjoins, hspan]
          exact hentries
        · intro m
          rw [hcovers m, Range.mem_span_iff_of_joins hle hjoins hspan, covers_cons]
          tauto
      · have hjoins' : current.joins next = false := by simpa using hjoins
        obtain ⟨entries, hentries, hcanonical, hcovers⟩ :=
          ih next _ (loopInvariant_advance h hjoins')
        refine ⟨entries, ?_, hcanonical, ?_⟩
        · rw [coalesce, if_neg hjoins]
          exact hentries
        · intro m
          rw [hcovers m, put_current h]
          simp only [NavigableMap.values, map_append, covers_append,
            map_cons, map_nil, covers_cons, covers_nil]
          tauto

theorem covers_of_perm {ranges ranges' : List (Range α)} (h : ranges.Perm ranges') (m : Marker α) :
    Covers ranges m ↔ Covers ranges' m := by
  simp only [Covers, ClosedInterval.Covers, (h.map _).mem_iff]

/-- Sorting and merging never throws. -/
theorem merge_spec (ranges : List (Range α)) :
    ∃ entries, merge ranges = .ok entries ∧ Canonical entries ∧
      ∀ m, Covers entries.values m ↔ Covers ranges m := by
  have hperm := sortByLow_perm ranges
  have hsorted := sortByLow_sorted ranges
  unfold merge
  cases hsort : sortByLow ranges with
  | nil =>
      refine ⟨[], rfl, ⟨by simp, by simp⟩, ?_⟩
      intro m
      rw [hsort] at hperm
      simp [NavigableMap.values, ← covers_of_perm hperm m]
  | cons first rest =>
      rw [hsort] at hperm hsorted
      obtain ⟨entries, hentries, hcanonical, hcovers⟩ :=
        coalesce_spec rest first [] ⟨⟨by simp, by simp⟩, by simp, hsorted⟩
      refine ⟨entries, hentries, hcanonical, ?_⟩
      intro m
      rw [hcovers m, ← covers_of_perm hperm m]
      simp [NavigableMap.values]

variable {entries : NavigableMap (Marker α) (Range α)}

theorem canonical_of_merge {ranges : List (Range α)}
    (h : merge ranges = .ok entries) : Canonical entries := by
  obtain ⟨entries', hentries', hcanonical, -⟩ := merge_spec ranges
  obtain rfl : entries' = entries := by simpa [h] using hentries'.symm
  exact hcanonical

theorem canonical_collapseBoolean {type : OrderableType α}
    (h : Canonical entries) : Canonical (collapseBoolean type entries) := by
  cases type with
  | other => exact h
  | boolean values =>
      unfold collapseBoolean
      dsimp only
      split
      · exact Canonical.singleton
      · exact h

theorem any_includes_iff :
    (entries.any fun entry => entry.2.includes m) = true ↔
      Covers entries.values m := by
  simp only [any_eq_true, Range.includes_iff, covers_values_iff]

/-- The treatment of `BOOLEAN` changes no value of the set. -/
theorem covers_collapseBoolean
    (type : OrderableType α) (entries : NavigableMap (Marker α) (Range α)) (v : α) :
    Covers (collapseBoolean type entries).values (Marker.exactly v) ↔
      Covers entries.values (Marker.exactly v) := by
  cases type with
  | other => rfl
  | boolean values =>
      unfold collapseBoolean
      dsimp only
      split
      next hboth =>
        have hall : Covers entries.values (Marker.exactly v) := by
          simp only [Bool.and_eq_true, any_includes_iff] at hboth
          have hv : v = values.symm (values v) := by simp
          rw [hv]
          cases values v with
          | true => exact hboth.1
          | false => exact hboth.2
        have hcollapsed :
            Covers (NavigableMap.values [((Range.all : Range α).low, Range.all)])
              (Marker.exactly v) :=
          covers_iff.mpr ⟨Range.all, by simp [NavigableMap.values], Range.mem_all _⟩
        exact iff_of_true hcollapsed hall
      next => rfl

end Builder

/-! ## Sets and their operations -/

/-- A set of ranges of one type, indexed by their low markers. -/
structure SortedRangeSet (type : OrderableType α) where
  lowIndexedRanges : NavigableMap (Marker α) (Range α)
  canonical : Canonical lowIndexedRanges

namespace SortedRangeSet

variable {type : OrderableType α}

def getOrderedRanges (s : SortedRangeSet type) : List (Range α) :=
  s.lowIndexedRanges.values

variable (type)

/-- `Builder.build`: the sorted, merged and collapsed ranges. -/
def build (ranges : List (Range α)) : Result (SortedRangeSet type) :=
  match h : Builder.merge ranges with
  | .error e => .error e
  | .ok result =>
      .ok ⟨Builder.collapseBoolean type result,
        Builder.canonical_collapseBoolean (Builder.canonical_of_merge h)⟩

def copyOf (ranges : List (Range α)) : Result (SortedRangeSet type) :=
  build type ranges

def ofValues (first : α) (rest : List α) : Result (SortedRangeSet type) :=
  copyOf type (Range.equal first :: rest.map Range.equal)

def ofRanges (first : Range α) (rest : List (Range α)) : Result (SortedRangeSet type) :=
  copyOf type (first :: rest)

def none : Result (SortedRangeSet type) :=
  copyOf type []

def all : Result (SortedRangeSet type) :=
  copyOf type [Range.all]

variable {type} (s : SortedRangeSet type)

def isNone : Bool :=
  s.lowIndexedRanges.isEmpty

def isAll : Bool :=
  match s.getOrderedRanges with
  | [r] => r.isAll
  | _ => false

def isSingleValue [BEq α] (s : SortedRangeSet type) : Bool :=
  match s.getOrderedRanges with
  | [r] => r.isSingleValue
  | _ => false

def includesMarker (marker : Marker α) : Bool :=
  match s.lowIndexedRanges.floorEntry marker with
  | some entry => entry.2.includes marker
  | .none => false

def containsValue (value : α) : Bool :=
  s.includesMarker (Marker.exactly value)

/-- Adds the common part of two ranges to the builder, if they have one. -/
def addCommon (builder : List (Range α)) (range1 range2 : Range α) :
    Result (List (Range α)) :=
  if range1.overlaps range2 then do
    let common ← range1.intersect range2
    pure (builder ++ [common])
  else pure builder

/-- The two-pointer loop of `intersect`; `builder` holds the ranges added so
far. -/
def intersectLoop (builder : List (Range α)) (range1 : Range α) (rest1 : List (Range α))
    (range2 : Range α) (rest2 : List (Range α)) : Result (List (Range α)) := do
  let builder ← addCommon builder range1 range2
  if (range1.high.compareTo range2.high).isLE then
    match rest1 with
    | [] => pure builder
    | next :: rest => intersectLoop builder next rest range2 rest2
  else
    match rest2 with
    | [] => pure builder
    | next :: rest => intersectLoop builder range1 rest1 next rest
termination_by rest1.length + rest2.length

def intersect (s other : SortedRangeSet type) : Result (SortedRangeSet type) :=
  match s.getOrderedRanges, other.getOrderedRanges with
  | range1 :: rest1, range2 :: rest2 => do
      let builder ← intersectLoop [] range1 rest1 range2 rest2
      build type builder
  | _, _ => build type []

def union (s other : SortedRangeSet type) : Result (SortedRangeSet type) :=
  build type (s.getOrderedRanges ++ other.getOrderedRanges)

def unionAll (valueSets : List (SortedRangeSet type)) : Result (SortedRangeSet type) :=
  build type (s.getOrderedRanges ++ valueSets.flatMap getOrderedRanges)

/-- The walk of `complement` over the gaps between consecutive ranges.  It
returns the ranges added and the last range visited. -/
def complementLoop (builder : List (Range α)) (previousRange : Range α) :
    List (Range α) → Result (List (Range α) × Range α)
  | [] => .ok (builder, previousRange)
  | currentRange :: rest => do
      let lowMarker ← previousRange.high.greaterAdjacent
      let highMarker ← currentRange.low.lesserAdjacent
      let gap ← Range.create lowMarker highMarker
      complementLoop (builder ++ [gap]) currentRange rest

/-- The range below the first stored one, if there is any. -/
def addBelow (firstRange : Range α) : Result (List (Range α)) :=
  if firstRange.low.isLowerUnbounded then pure []
  else do
    let highMarker ← firstRange.low.lesserAdjacent
    let gap ← Range.create Marker.lowerUnbounded highMarker
    pure [gap]

/-- The range above the last stored one, if there is any. -/
def addAbove (builder : List (Range α)) (lastRange : Range α) :
    Result (List (Range α)) :=
  if lastRange.high.isUpperUnbounded then pure builder
  else do
    let lowMarker ← lastRange.high.greaterAdjacent
    let gap ← Range.create lowMarker Marker.upperUnbounded
    pure (builder ++ [gap])

def complement : Result (SortedRangeSet type) :=
  match s.getOrderedRanges with
  | [] => build type [Range.all]
  | firstRange :: rest => do
      let builder ← addBelow firstRange
      let (builder, lastRange) ← complementLoop builder firstRange rest
      let builder ← addAbove builder lastRange
      build type builder

/-- `ValueSet.subtract`. -/
def subtract (s other : SortedRangeSet type) : Result (SortedRangeSet type) := do
  let complement ← other.complement
  s.intersect complement

end SortedRangeSet
end Presto.Predicate
