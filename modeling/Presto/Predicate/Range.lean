import Presto.Predicate.Marker
import Presto.Support.Interval

/-!
# Ranges of markers

`Range.create` is the checked constructor of the source.  Every range denotes a
closed interval of markers, and each operation is given its meaning on these
intervals.
-/

namespace Presto.Predicate

open Marker

open Support (ClosedInterval)

/-- A range of the continuous space of a type.  The fields beside the two
markers are the checks of the constructor. -/
structure Range (α : Type*) [LinearOrder α] where
  low : Marker α
  high : Marker α
  low_bound : low.bound ≠ .below
  high_bound : high.bound ≠ .above
  le : low ≤ high

namespace Range

variable {α : Type*} [LinearOrder α]

theorem ext_markers {r s : Range α} (hlow : r.low = s.low) (hhigh : r.high = s.high) : r = s := by
  cases r
  simp_all

instance : DecidableEq (Range α) := fun r s =>
  decidable_of_iff (r.low = s.low ∧ r.high = s.high)
    ⟨fun h => ext_markers h.1 h.2, fun h => by simp [h]⟩

/-- The constructor of the source, with its checks in order. -/
def create (low high : Marker α) : Result (Range α) :=
  if hlow : low.bound = .below then
    .error (.illegalArgument "low bound must be EXACTLY or ABOVE")
  else if hhigh : high.bound = .above then
    .error (.illegalArgument "high bound must be EXACTLY or BELOW")
  else if hle : low.compareTo high = .gt then
    .error (.illegalArgument "low must be less than or equal to high")
  else
    .ok ⟨low, high, hlow, hhigh,
      not_lt.mp fun h => hle (compareTo_eq_gt_iff.mpr h)⟩

theorem create_eq_ok {low high : Marker α} (hlow : low.bound ≠ .below) (hhigh : high.bound ≠ .above)
    (hle : low ≤ high) : create low high = .ok ⟨low, high, hlow, hhigh, hle⟩ := by
  have hcmp : low.compareTo high ≠ .gt := fun h =>
    absurd (compareTo_eq_gt_iff.mp h) (not_lt.mpr hle)
  simp [create, hlow, hhigh, hcmp]

def all : Range α where
  low := lowerUnbounded
  high := upperUnbounded
  low_bound := by simp [lowerUnbounded]
  high_bound := by simp [upperUnbounded]
  le := lowerUnbounded_le _

def greaterThan (low : α) : Range α where
  low := above low
  high := upperUnbounded
  low_bound := by simp [above, mkValue]
  high_bound := by simp [upperUnbounded]
  le := le_upperUnbounded _

def greaterThanOrEqual (low : α) : Range α where
  low := exactly low
  high := upperUnbounded
  low_bound := by simp [exactly, mkValue]
  high_bound := by simp [upperUnbounded]
  le := le_upperUnbounded _

def lessThan (high : α) : Range α where
  low := lowerUnbounded
  high := below high
  low_bound := by simp [lowerUnbounded]
  high_bound := by simp [below, mkValue]
  le := lowerUnbounded_le _

def lessThanOrEqual (high : α) : Range α where
  low := lowerUnbounded
  high := exactly high
  low_bound := by simp [lowerUnbounded]
  high_bound := by simp [exactly, mkValue]
  le := lowerUnbounded_le _

def equal (value : α) : Range α where
  low := exactly value
  high := exactly value
  low_bound := by simp [exactly, mkValue]
  high_bound := by simp [exactly, mkValue]
  le := le_rfl

def range (low : α) (lowInclusive : Bool) (high : α) (highInclusive : Bool) :
    Result (Range α) :=
  let lowMarker := if lowInclusive then exactly low else above low
  let highMarker := if highInclusive then exactly high else below high
  create lowMarker highMarker

variable (r : Range α)

def equals [BEq α] (r other : Range α) : Bool :=
  r.low.equals other.low && r.high.equals other.high

theorem equals_iff [BEq α] [LawfulBEq α] {r s : Range α} : r.equals s = true ↔ r = s := by
  rw [equals, Bool.and_eq_true, Marker.equals_iff, Marker.equals_iff]
  exact ⟨fun h => ext_markers h.1 h.2, fun h => by simp [h]⟩

def isSingleValue [BEq α] (r : Range α) : Bool :=
  r.low.bound == .exactly && r.low.equals r.high

def isAll : Bool :=
  r.low.isLowerUnbounded && r.high.isUpperUnbounded

def includes (marker : Marker α) : Bool :=
  (r.low.compareTo marker).isLE && (r.high.compareTo marker).isGE

def contains (r other : Range α) : Bool :=
  (r.low.compareTo other.low).isLE && (r.high.compareTo other.high).isGE

def span (r other : Range α) : Result (Range α) :=
  create (Marker.min r.low other.low) (Marker.max r.high other.high)

def overlaps (r other : Range α) : Bool :=
  (r.low.compareTo other.high).isLE && (other.low.compareTo r.high).isLE

def intersect (r other : Range α) : Result (Range α) :=
  if r.overlaps other then
    create (Marker.max r.low other.low) (Marker.min r.high other.high)
  else
    .error (.illegalArgument "Cannot intersect non-overlapping ranges")

/-! ## The interval of a range -/

def toInterval : ClosedInterval (Marker α) :=
  ⟨r.low, r.high, r.le⟩

variable {m : Marker α}

theorem includes_iff {r : Range α} : r.includes m = true ↔ m ∈ r.toInterval := by
  simp [includes, ClosedInterval.mem_iff, toInterval]

theorem includes_iff_le {r : Range α} : r.includes m = true ↔ r.low ≤ m ∧ m ≤ r.high :=
  includes_iff

theorem overlaps_iff {r s : Range α} : r.overlaps s = true ↔ r.toInterval.Overlap s.toInterval := by
  simp [overlaps, ClosedInterval.Overlap, toInterval]

theorem mem_all (m : Marker α) : m ∈ (all : Range α).toInterval :=
  ⟨lowerUnbounded_le m, le_upperUnbounded m⟩

theorem isAll_iff {r : Range α} : r.isAll = true ↔ r = all := by
  rw [isAll, Bool.and_eq_true, isLowerUnbounded_iff, isUpperUnbounded_iff]
  constructor
  · rintro ⟨hlow, hhigh⟩
    exact ext_markers hlow hhigh
  · rintro rfl
    exact ⟨rfl, rfl⟩

theorem low_ne_upperUnbounded : r.low ≠ upperUnbounded := by
  intro h
  exact r.low_bound (by rw [h]; rfl)

theorem high_ne_lowerUnbounded : r.high ≠ lowerUnbounded := by
  intro h
  exact r.high_bound (by rw [h]; rfl)

/-- A low marker is unbounded, at a value or above one. -/
theorem low_cases : r.low = lowerUnbounded ∨ ∃ v, r.low = exactly v ∨ r.low = above v := by
  have hbound := r.low_bound
  rcases r.low.eq_end_or_mkValue with hlow | hlow | ⟨v, b, hlow⟩
  · exact Or.inl hlow
  · exact absurd hlow r.low_ne_upperUnbounded
  · rw [hlow] at hbound ⊢
    cases b with
    | below => exact absurd rfl hbound
    | exactly => exact Or.inr ⟨v, Or.inl rfl⟩
    | above => exact Or.inr ⟨v, Or.inr rfl⟩

/-- A high marker is unbounded, at a value or below one. -/
theorem high_cases : r.high = upperUnbounded ∨ ∃ v, r.high = exactly v ∨ r.high = below v := by
  have hbound := r.high_bound
  rcases r.high.eq_end_or_mkValue with hhigh | hhigh | ⟨v, b, hhigh⟩
  · exact absurd hhigh r.high_ne_lowerUnbounded
  · exact Or.inl hhigh
  · rw [hhigh] at hbound ⊢
    cases b with
    | below => exact Or.inr ⟨v, Or.inr rfl⟩
    | exactly => exact Or.inr ⟨v, Or.inl rfl⟩
    | above => exact absurd rfl hbound

theorem isSingleValue_iff [BEq α] [LawfulBEq α] {r : Range α} :
    r.isSingleValue = true ↔ ∃ v, r = equal v := by
  rw [isSingleValue, Bool.and_eq_true, beq_iff_eq, Marker.equals_iff]
  constructor
  · rintro ⟨hbound, hmarkers⟩
    rcases r.low_cases with hlow | ⟨v, hlow | hlow⟩
    · rw [hlow] at hbound
      cases hbound
    · exact ⟨v, ext_markers hlow (hmarkers.symm.trans hlow)⟩
    · rw [hlow] at hbound
      cases hbound
  · rintro ⟨v, rfl⟩
    exact ⟨rfl, rfl⟩

theorem bound_min_max_ne
    {a b : Marker α} {bound : Bound} (ha : a.bound ≠ bound) (hb : b.bound ≠ bound) :
    (Marker.min a b).bound ≠ bound ∧ (Marker.max a b).bound ≠ bound := by
  unfold Marker.min Marker.max
  constructor <;> split <;> assumption

/-- The span of two ranges always exists. -/
theorem span_eq_ok (r s : Range α) :
    ∃ t, r.span s = .ok t ∧ t.toInterval = r.toInterval.span s.toInterval := by
  have hlow := (bound_min_max_ne r.low_bound s.low_bound).1
  have hhigh := (bound_min_max_ne r.high_bound s.high_bound).2
  have hle : Marker.min r.low s.low ≤ Marker.max r.high s.high := by
    rw [min_eq, max_eq]
    exact inf_le_left.trans (r.le.trans le_sup_left)
  refine ⟨_, create_eq_ok hlow hhigh hle, ?_⟩
  simp [toInterval, ClosedInterval.span, min_eq, max_eq]

/-- Two overlapping ranges have an intersection. -/
theorem intersect_eq_ok {r s : Range α} (h : r.overlaps s = true) :
    ∃ t, r.intersect s = .ok t ∧
      t.toInterval = r.toInterval.inter s.toInterval (overlaps_iff.mp h) := by
  have hlow := (bound_min_max_ne r.low_bound s.low_bound).2
  have hhigh := (bound_min_max_ne r.high_bound s.high_bound).1
  have hle : Marker.max r.low s.low ≤ Marker.min r.high s.high := by
    rw [min_eq, max_eq]
    exact (r.toInterval.inter s.toInterval (overlaps_iff.mp h)).le
  refine ⟨_, by rw [intersect, if_pos h]; exact create_eq_ok hlow hhigh hle, ?_⟩
  simp [toInterval, ClosedInterval.inter, min_eq, max_eq]

/-- Two ranges that `Builder.build` merges: they overlap or are adjacent. -/
def joins (r next : Range α) : Bool :=
  r.overlaps next || r.high.isAdjacent next.low

/-- Merging two ranges in the order of their low markers adds no marker. -/
theorem mem_span_iff_of_joins {r s t : Range α} (hlow : r.low ≤ s.low)
    (hjoins : r.joins s = true) (hspan : r.span s = .ok t) :
    m ∈ t.toInterval ↔ m ∈ r.toInterval ∨ m ∈ s.toInterval := by
  obtain ⟨t', ht', hinterval⟩ := span_eq_ok r s
  obtain rfl : t' = t := by simpa [hspan] using ht'.symm
  rw [hinterval]
  apply ClosedInterval.mem_span_iff
  by_cases hoverlap : r.overlaps s = true
  · exact Or.inl (overlaps_iff.mp hoverlap)
  · have hadjacent : r.high.isAdjacent s.low = true := by
      simpa [joins, hoverlap] using hjoins
    have hlt : r.high < s.low := by
      by_contra hge
      exact hoverlap (overlaps_iff.mpr ⟨hlow.trans s.le, not_lt.mp hge⟩)
    exact Or.inr (covBy_of_isAdjacent hadjacent hlt)

end Range
end Presto.Predicate
