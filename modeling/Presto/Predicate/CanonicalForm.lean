import Mathlib.Order.Max
import Presto.Predicate.EquatableValueSet
import Presto.Predicate.SortedRangeSetLaws

/-!
# Canonical forms of value sets

`SortedRangeSet.equals` compares the stored ranges.  In a dense order without
endpoints every range includes a value and so does every gap between two
ranges, so the values of a set determine its ranges.  Sets of entries are
determined by their values when the type has infinitely many of them.
-/

namespace Presto.Predicate

open Marker Range

open Support (ClosedInterval NavigableMap LinkedHashSet)

variable {α : Type*}

section Ranges

variable [LinearOrder α]

/-- Each range ends before the later ones start, without being adjacent. -/
def Separated (ranges : List (Range α)) : Prop :=
  ranges.Pairwise fun r t => r.high < t.low ∧ r.high.isAdjacent t.low = false

variable {r : Range α} {rest : List (Range α)} {m : Marker α} (h : Separated (r :: rest))

include h

theorem Separated.low_le_of_covers (hm : Covers (r :: rest) m) : r.low ≤ m := by
  rcases (covers_cons r rest m).mp hm with hm | hm
  · exact hm.1
  · obtain ⟨t, ht, hmt⟩ := covers_iff.mp hm
    have hlt : r.high < t.low := ((List.pairwise_cons.mp h).1 t ht).1
    exact r.le.trans (hlt.le.trans hmt.1)

/-- Membership in the tail of a separated list is membership above its head. -/
theorem Separated.covers_tail_iff : Covers rest m ↔ Covers (r :: rest) m ∧ m ∉ r.toInterval := by
  rw [covers_cons]
  constructor
  · intro hm
    refine ⟨Or.inr hm, ?_⟩
    intro hr
    obtain ⟨t, ht, hmt⟩ := covers_iff.mp hm
    exact absurd (((List.pairwise_cons.mp h).1 t ht).1.trans_le hmt.1) (not_lt.mpr hr.2)
  · rintro ⟨hm | hm, hr⟩
    · exact absurd hm hr
    · exact hm

end Ranges

/-! ## Dense orders -/

section Dense

variable [LinearOrder α] [DenselyOrdered α] [NoMinOrder α] [NoMaxOrder α] [Nonempty α]

/-- Every range of a dense order without endpoints includes a value. -/
theorem Range.exists_value_mem (r : Range α) : ∃ v, exactly v ∈ r.toInterval := by
  rcases r.low_cases with hlow | ⟨a, hlow | hlow⟩
  · have habove : ∀ v, r.low ≤ exactly v := fun v =>
      hlow.le.trans (lowerUnbounded_le _)
    rcases r.high_cases with hhigh | ⟨c, hhigh | hhigh⟩
    · obtain ⟨v⟩ := ‹Nonempty α›
      exact ⟨v, habove v, (le_upperUnbounded _).trans hhigh.ge⟩
    · exact ⟨c, habove c, hhigh.ge⟩
    · obtain ⟨v, hv⟩ := exists_lt c
      exact ⟨v, habove v, (exactly_le_below_iff.mpr hv).trans hhigh.ge⟩
  · exact ⟨a, hlow.le, hlow.ge.trans r.le⟩
  · rcases r.high_cases with hhigh | ⟨c, hhigh | hhigh⟩
    · obtain ⟨v, hv⟩ := exists_gt a
      exact ⟨v, hlow.le.trans (above_le_exactly_iff.mpr hv), (le_upperUnbounded _).trans hhigh.ge⟩
    · exact ⟨c, r.le.trans hhigh.le, hhigh.ge⟩
    · have hac : a < c := above_le_below_iff.mp (hlow.ge.trans (r.le.trans hhigh.le))
      obtain ⟨v, hav, hvc⟩ := exists_between hac
      exact ⟨v, hlow.le.trans (above_le_exactly_iff.mpr hav),
        (exactly_le_below_iff.mpr hvc).trans hhigh.ge⟩

variable {r s : Range α}

/-- Two ranges that share a marker share a value. -/
theorem Range.exists_value_mem_both {m : Marker α} (hr : m ∈ r.toInterval) (hs : m ∈ s.toInterval) :
    ∃ v, exactly v ∈ r.toInterval ∧ exactly v ∈ s.toInterval := by
  have hoverlap : r.overlaps s = true :=
    overlaps_iff.mpr (ClosedInterval.overlap_of_mem hr hs)
  obtain ⟨t, -, hinterval⟩ := intersect_eq_ok hoverlap
  obtain ⟨v, hv⟩ := t.exists_value_mem
  rw [hinterval, ClosedInterval.mem_inter_iff] at hv
  exact ⟨v, hv⟩

variable {rest : List (Range α)}

/-- A range that ends later includes a value above the head of a separated list
that the list leaves out. -/
theorem Range.exists_value_gt_high (hrest : Separated (r :: rest))
    (hlow : s.low = r.low) (h : r.high < s.high) :
    ∃ v, exactly v ∈ s.toInterval ∧ ¬Covers (r :: rest) (exactly v) := by
  have hstart : s.low ≤ r.high := hlow ▸ r.le
  cases rest with
  | nil =>
      obtain ⟨gaps, -, hgaps⟩ := SortedRangeSet.addAbove_spec [] r
      obtain ⟨gap, hgap, hmem⟩ := covers_iff.mp ((hgaps s.high).mpr h)
      obtain ⟨v, hs, hv⟩ := exists_value_mem_both ⟨s.le, le_rfl⟩ hmem
      refine ⟨v, hs, ?_⟩
      have hgt : r.high < exactly v :=
        (hgaps _).mp (covers_iff.mpr ⟨gap, hgap, hv⟩)
      rw [covers_cons, covers_nil, or_false]
      exact fun hr => absurd hr.2 (not_le.mpr hgt)
  | cons next rest =>
      obtain ⟨hlt, hadjacent⟩ := (List.pairwise_cons.mp hrest).1 next (by simp)
      obtain ⟨_, _, gap, -, -, -, hgap⟩ := SortedRangeSet.exists_gap hlt hadjacent
      have hcommon : ∃ m, m ∈ s.toInterval ∧ m ∈ gap.toInterval := by
        rcases lt_or_ge s.high next.low with hs | hs
        · exact ⟨s.high, ⟨s.le, le_rfl⟩, (hgap _).mpr ⟨h, hs⟩⟩
        · have hhigh : gap.high ∈ gap.toInterval := ⟨gap.le, le_rfl⟩
          obtain ⟨hgt, hlt'⟩ := (hgap _).mp hhigh
          exact ⟨gap.high, ⟨hstart.trans hgt.le, (hlt'.trans_le hs).le⟩, hhigh⟩
      obtain ⟨m, hms, hmgap⟩ := hcommon
      obtain ⟨v, hs, hv⟩ := exists_value_mem_both hms hmgap
      obtain ⟨hgt, hlt'⟩ := (hgap _).mp hv
      refine ⟨v, hs, ?_⟩
      rw [covers_cons]
      rintro (hr | hcovers)
      · exact absurd hr.2 (not_le.mpr hgt)
      · have hnext : Separated (next :: rest) := (List.pairwise_cons.mp hrest).2
        exact absurd (hnext.low_le_of_covers hcovers) (not_le.mpr hlt')

variable {rest' : List (Range α)}

theorem Separated.low_le (hs : Separated (s :: rest'))
    (hvalues : ∀ v, Covers (r :: rest) (exactly v) →
      Covers (s :: rest') (exactly v)) :
    s.low ≤ r.low := by
  by_contra hlt
  obtain ⟨gaps, -, hgaps⟩ := SortedRangeSet.addBelow_spec s
  obtain ⟨gap, hgap, hmem⟩ := covers_iff.mp ((hgaps r.low).mpr (not_le.mp hlt))
  obtain ⟨v, hv, hvgap⟩ := exists_value_mem_both ⟨le_rfl, r.le⟩ hmem
  have hbelow := (hgaps _).mp (covers_iff.mpr ⟨gap, hgap, hvgap⟩)
  have hcovers := hvalues v ((covers_cons _ _ _).mpr (Or.inl hv))
  exact absurd (hs.low_le_of_covers hcovers) (not_le.mpr hbelow)

theorem Separated.high_le (hr : Separated (r :: rest)) (hlow : s.low = r.low)
    (hvalues : ∀ v, Covers (s :: rest') (exactly v) →
      Covers (r :: rest) (exactly v)) :
    s.high ≤ r.high := by
  by_contra hlt
  obtain ⟨v, hv, hnot⟩ := exists_value_gt_high hr hlow (not_le.mp hlt)
  exact hnot (hvalues v ((covers_cons _ _ _).mpr (Or.inl hv)))

variable {ranges : List (Range α)}

/-- Separated lists of ranges with the same values are equal. -/
theorem Separated.eq_of_values
    {ranges' : List (Range α)} (h : Separated ranges) (h' : Separated ranges')
    (hvalues : ∀ v, Covers ranges (exactly v) ↔
      Covers ranges' (exactly v)) :
    ranges = ranges' := by
  induction ranges generalizing ranges' with
  | nil =>
      cases ranges' with
      | nil => rfl
      | cons s rest' =>
          obtain ⟨v, hv⟩ := s.exists_value_mem
          have hcovers := (hvalues v).mpr ((covers_cons _ _ _).mpr (Or.inl hv))
          exact absurd hcovers (by simp)
  | cons r rest ih =>
      cases ranges' with
      | nil =>
          obtain ⟨v, hv⟩ := r.exists_value_mem
          have hcovers := (hvalues v).mp ((covers_cons _ _ _).mpr (Or.inl hv))
          exact absurd hcovers (by simp)
      | cons s rest' =>
          have hlow : r.low = s.low :=
            le_antisymm (h.low_le fun v => (hvalues v).mpr)
              (h'.low_le fun v => (hvalues v).mp)
          have hhigh : r.high = s.high :=
            le_antisymm (h'.high_le hlow fun v => (hvalues v).mp)
              (h.high_le hlow.symm fun v => (hvalues v).mpr)
          obtain rfl : r = s := ext_markers hlow hhigh
          congr 1
          refine ih (List.pairwise_cons.mp h).2 (List.pairwise_cons.mp h').2 ?_
          intro v
          rw [h.covers_tail_iff, h'.covers_tail_iff, hvalues]

end Dense

/-! ## Sorted range sets -/

namespace SortedRangeSet

section Equality

variable [LinearOrder α] {type : OrderableType α}

/-- `equals` finds the keys by `compareTo`, and compares the ranges by `equalTo`. -/
def equals [BEq α] (s other : SortedRangeSet type) : Bool :=
  s.lowIndexedRanges.equals Range.equals other.lowIndexedRanges

theorem separated (s : SortedRangeSet type) : Separated s.getOrderedRanges :=
  s.separated_getOrderedRanges

/-- The map is recovered from its ranges. -/
theorem lowIndexedRanges_eq (s : SortedRangeSet type) :
    s.lowIndexedRanges = s.getOrderedRanges.map fun r => (r.low, r) := by
  rw [getOrderedRanges, NavigableMap.values, List.map_map]
  conv_lhs => rw [← List.map_id s.lowIndexedRanges]
  refine List.map_congr_left ?_
  intro e he
  exact Prod.ext (s.canonical.keyed e he) rfl

theorem equals_iff_ranges [BEq α] [LawfulBEq α] (s other : SortedRangeSet type) :
    s.equals other = true ↔ s.getOrderedRanges = other.getOrderedRanges := by
  rw [equals, NavigableMap.equals_iff (fun _ _ => Range.equals_iff) s.canonical.sorted
    other.canonical.sorted]
  constructor
  · intro h
    rw [getOrderedRanges, h, getOrderedRanges]
  · intro h
    rw [lowIndexedRanges_eq, h, ← lowIndexedRanges_eq]

variable {s : SortedRangeSet type}

theorem containsValue_eq_of_equals [BEq α] [LawfulBEq α]
    {other : SortedRangeSet type} (h : s.equals other = true) (v : α) :
    s.containsValue v = other.containsValue v := by
  rw [Bool.eq_iff_iff, containsValue_iff, containsValue_iff, (equals_iff_ranges s other).mp h]

theorem containsValue_eq_false_of_isNone (h : s.isNone = true) (v : α) :
    s.containsValue v = false := by
  rw [Bool.eq_false_iff, ne_eq, containsValue_iff, (isNone_iff s).mp h]
  simp

theorem containsValue_of_isAll (h : s.isAll = true) (v : α) : s.containsValue v = true := by
  obtain ⟨r, hr, hall⟩ := (isAll_iff s).mp h
  rw [containsValue_iff, hr, covers_cons, Range.isAll_iff.mp hall]
  exact Or.inl (mem_all _)

/-- A single value set stores the closed range of its value. -/
theorem isSingleValue_iff_ranges [BEq α] [LawfulBEq α] (s : SortedRangeSet type) :
    s.isSingleValue = true ↔ ∃ v, s.getOrderedRanges = [equal v] := by
  unfold isSingleValue
  constructor
  · intro h
    split at h
    next r hr =>
      obtain ⟨v, rfl⟩ := isSingleValue_iff.mp h
      exact ⟨v, hr⟩
    next => exact absurd h Bool.false_ne_true
  · rintro ⟨v, hv⟩
    rw [hv]
    exact isSingleValue_iff.mpr ⟨v, rfl⟩

end Equality

section Dense

variable [LinearOrder α] [DenselyOrdered α] [NoMinOrder α] [NoMaxOrder α] [Nonempty α]
  {type : OrderableType α} (s : SortedRangeSet type)

/-- The ranges of a set are those of any separated list with its values. -/
theorem getOrderedRanges_eq_iff (h : Separated ranges) :
    s.getOrderedRanges = ranges ↔ ∀ v, s.containsValue v = true ↔ Covers ranges (exactly v) := by
  constructor
  · intro heq v
    rw [containsValue_iff, heq]
  · intro hvalues
    refine s.separated.eq_of_values h ?_
    intro v
    rw [← hvalues, containsValue_iff]

theorem equals_iff [BEq α] [LawfulBEq α] (s other : SortedRangeSet type) :
    s.equals other = true ↔ ∀ v, s.containsValue v = other.containsValue v := by
  rw [equals_iff_ranges, s.getOrderedRanges_eq_iff other.separated]
  refine forall_congr' ?_
  intro v
  rw [← containsValue_iff other]
  exact Bool.eq_iff_iff.symm

theorem isNone_iff_values : s.isNone = true ↔ ∀ v, s.containsValue v = false := by
  have hnil : Separated ([] : List (Range α)) := List.Pairwise.nil
  rw [isNone_iff, s.getOrderedRanges_eq_iff hnil]
  refine forall_congr' ?_
  intro v
  rw [covers_nil, iff_false, Bool.not_eq_true]

theorem isAll_iff_values : s.isAll = true ↔ ∀ v, s.containsValue v = true := by
  refine ⟨containsValue_of_isAll, ?_⟩
  intro h
  have hall : Separated [(Range.all : Range α)] := List.pairwise_singleton _ _
  refine (isAll_iff s).mpr ⟨Range.all, ?_, Range.isAll_iff.mpr rfl⟩
  rw [s.getOrderedRanges_eq_iff hall]
  intro v
  rw [covers_cons]
  exact iff_of_true (h v) (Or.inl (mem_all _))

theorem isSingleValue_iff_values [BEq α] [LawfulBEq α] :
    s.isSingleValue = true ↔ ∃ v, ∀ w, s.containsValue w = true ↔ w = v := by
  rw [isSingleValue_iff_ranges]
  refine exists_congr ?_
  intro v
  have hequal : Separated [equal v] := List.pairwise_singleton _ _
  have hmem : ∀ w, Covers [equal v] (exactly w) ↔ w = v := by
    intro w
    rw [covers_cons, covers_nil, or_false]
    change exactly v ≤ exactly w ∧ exactly w ≤ exactly v ↔ _
    rw [← le_antisymm_iff, exactly, exactly, mkValue_inj, eq_comm]
    exact and_iff_left rfl
  rw [s.getOrderedRanges_eq_iff hequal]
  simp only [hmem]

end Dense
end SortedRangeSet

/-! ## Sets of entries -/

namespace EquatableValueSet

variable [BEq α]

/-- No list of values exhausts the type up to its equality. -/
def Inexhaustible (α : Type*) [BEq α] : Prop :=
  ∀ values : List α, ∃ v, ∀ w ∈ values, (w == v) = false

def equals (s other : EquatableValueSet α) : Bool :=
  s.whiteList == other.whiteList && s.entries.equals other.entries

variable [EquivBEq α] {s : EquatableValueSet α}

theorem containsValue_eq_of_equals
    {other : EquatableValueSet α} (h : s.equals other = true) (v : α) :
    s.containsValue v = other.containsValue v := by
  rw [equals, Bool.and_eq_true, beq_iff_eq, LinkedHashSet.equals_iff] at h
  rw [containsValue, containsValue, h.1, h.2]

theorem containsValue_eq_false_of_isNone (h : s.isNone = true) (v : α) :
    s.containsValue v = false := by
  rw [isNone, Bool.and_eq_true, LinkedHashSet.isEmpty_iff] at h
  rw [containsValue, h.1, h.2]
  rfl

omit [EquivBEq α] in
theorem isNone_complement (s : EquatableValueSet α) : s.complement.isNone = s.isAll :=
  rfl

theorem containsValue_of_isAll (h : s.isAll = true) (v : α) : s.containsValue v = true := by
  have hnone := containsValue_eq_false_of_isNone (s.isNone_complement.trans h) v
  rwa [containsValue_complement, Bool.not_eq_false'] at hnone

/-- Some value is an entry of neither set. -/
theorem exists_not_entry (h : Inexhaustible α) (s other : EquatableValueSet α) :
    ∃ v, s.entries.contains v = false ∧ other.entries.contains v = false := by
  obtain ⟨v, hv⟩ := h (s.entries.elements ++ other.entries.elements)
  have hnot : ∀ t : LinkedHashSet α, t.elements ⊆ s.entries.elements ++
      other.entries.elements → t.contains v = false := by
    intro t ht
    rw [Bool.eq_false_iff]
    intro hmem
    obtain ⟨w, hw, hwv⟩ := LinkedHashSet.contains_iff.mp hmem
    rw [hv w (ht hw)] at hwv
    exact Bool.false_ne_true hwv
  exact ⟨v, hnot _ (List.subset_append_left _ _), hnot _ (List.subset_append_right _ _)⟩

theorem equals_iff (h : Inexhaustible α) (s other : EquatableValueSet α) :
    s.equals other = true ↔ ∀ v, s.containsValue v = other.containsValue v := by
  refine ⟨containsValue_eq_of_equals, ?_⟩
  intro hvalues
  -- a value that is no entry tells the included from the excluded
  obtain ⟨v, hs, hother⟩ := exists_not_entry h s other
  have hwhiteList : s.whiteList = other.whiteList := by
    have hv := hvalues v
    rw [containsValue, containsValue, hs, hother] at hv
    simpa using hv
  rw [equals, Bool.and_eq_true, beq_iff_eq, LinkedHashSet.equals_iff]
  refine ⟨hwhiteList, ?_⟩
  intro w
  have hw := hvalues w
  rw [containsValue, containsValue, hwhiteList] at hw
  cases hlist : other.whiteList with
  | true | false => simpa [hlist] using hw

theorem isNone_iff_values (h : Inexhaustible α) (s : EquatableValueSet α) :
    s.isNone = true ↔ ∀ v, s.containsValue v = false := by
  refine ⟨containsValue_eq_false_of_isNone, ?_⟩
  intro hvalues
  have hequals : s.equals none = true := by
    rw [equals_iff h]
    intro v
    rw [hvalues v]
    rfl
  rw [equals, Bool.and_eq_true, beq_iff_eq, LinkedHashSet.equals_iff] at hequals
  rw [isNone, Bool.and_eq_true, LinkedHashSet.isEmpty_iff]
  exact hequals

theorem isAll_iff_values (h : Inexhaustible α) (s : EquatableValueSet α) :
    s.isAll = true ↔ ∀ v, s.containsValue v = true := by
  rw [← isNone_complement, isNone_iff_values h]
  refine forall_congr' ?_
  intro v
  rw [containsValue_complement, Bool.not_eq_false']

end EquatableValueSet
end Presto.Predicate
