import Presto.Predicate.SortedRangeSet

/-!
# Sorted range sets as sets of values

Each operation of `SortedRangeSet` returns a set whose values are the
corresponding combination of the values of its arguments.  The canonical form
makes the lookup of a single range enough and keeps every range that an
operation constructs legal, so no operation throws.
-/

namespace Presto.Predicate

open Marker Result Range

open Support (ClosedInterval NavigableMap)

open List hiding set

namespace SortedRangeSet

variable {α : Type*} [LinearOrder α] {type : OrderableType α} (s : SortedRangeSet type)

/-- Only the range with the greatest low marker at or below a marker can
include it. -/
theorem includesMarker_iff (m : Marker α) :
    s.includesMarker m = true ↔ Covers s.getOrderedRanges m := by
  have hsorted := s.canonical.sorted
  have hfrom : ∀ e ∈ s.lowIndexedRanges, m ∈ e.2.toInterval → e.1 ≤ m := by
    intro e he hm
    rw [s.canonical.keyed e he]
    exact hm.1
  obtain ⟨before, after, hsplit, hfloor, hbefore, hafter⟩ :=
    NavigableMap.exists_split_of_floorEntry hsorted m
  rw [getOrderedRanges, covers_values_iff, includesMarker, hfloor]
  rcases eq_nil_or_concat' before with rfl | ⟨earlier, entry, rfl⟩
  · have hnot : ¬∃ e ∈ s.lowIndexedRanges, m ∈ e.2.toInterval := by
      rintro ⟨e, he, hm⟩
      have hlater : e ∈ after := by rwa [hsplit, nil_append] at he
      exact absurd (hfrom e he hm) (not_le.mpr (hafter e hlater))
    simp [hnot]
  · rw [getLast?_concat]
    have hentry : entry ∈ s.lowIndexedRanges := by simp [hsplit]
    refine includes_iff.trans ⟨fun hm => ⟨entry, hentry, hm⟩, ?_⟩
    rintro ⟨e, he, hm⟩
    have hstart := hfrom e he hm
    have hseparated := s.canonical.separated
    rw [hsplit, append_assoc] at he hseparated
    rcases mem_append.mp he with hearlier | he
    · -- an earlier range ends before the entry starts
      have hlt := ((pairwise_append.mp hseparated).2.2 e hearlier entry (by simp)).1
      rw [← s.canonical.keyed entry hentry] at hlt
      exact absurd ((hbefore entry (by simp)).trans hm.2) (not_le.mpr hlt)
    · rcases mem_cons.mp he with rfl | hlater
      · exact hm
      · exact absurd hstart (not_le.mpr (hafter e hlater))

theorem containsValue_iff (v : α) :
    s.containsValue v = true ↔ Covers s.getOrderedRanges (exactly v) :=
  s.includesMarker_iff (exactly v)

theorem isNone_iff : s.isNone = true ↔ s.getOrderedRanges = [] := by
  simp [isNone, getOrderedRanges, NavigableMap.values]

/-- A full set consists of the one range of all values. -/
theorem isAll_iff : s.isAll = true ↔ ∃ r, s.getOrderedRanges = [r] ∧ r.isAll = true := by
  unfold isAll
  constructor
  · intro h
    split at h
    next r hr => exact ⟨r, hr, h⟩
    next => simp at h
  · rintro ⟨r, hr, hall⟩
    simp [hr, hall]

theorem build_of_merge {ranges : List (Range α)} {entries : NavigableMap (Marker α) (Range α)}
    (h : Builder.merge ranges = .ok entries) :
    build type ranges = .ok ⟨Builder.collapseBoolean type entries,
      Builder.canonical_collapseBoolean (Builder.canonical_of_merge h)⟩ := by
  unfold build
  split
  next e herror =>
    rw [h] at herror
    simp at herror
  next result hresult =>
    obtain rfl : entries = result := by simpa [h] using hresult
    rfl

/-- Building never throws and keeps the values of the given ranges. -/
theorem build_spec (type : OrderableType α) (ranges : List (Range α)) :
    ∃ s, build type ranges = .ok s ∧ ∀ v, s.containsValue v = true ↔ Covers ranges (exactly v) := by
  obtain ⟨entries, hentries, -, hcovers⟩ := Builder.merge_spec ranges
  refine ⟨_, build_of_merge hentries, ?_⟩
  intro v
  rw [containsValue_iff, ← hcovers]
  exact Builder.covers_collapseBoolean type entries v

theorem containsValue_build {ranges : List (Range α)} {included : α → Bool}
    (h : ∀ v, Covers ranges (exactly v) ↔ included v = true) :
    ∃ s, build type ranges = .ok s ∧ ∀ v, s.containsValue v = included v := by
  obtain ⟨s, hs, hvalues⟩ := build_spec type ranges
  exact ⟨s, hs, fun v => Bool.eq_iff_iff.mpr ((hvalues v).trans (h v))⟩

/-! ## Intersection -/

theorem addCommon_spec (builder : List (Range α)) (range1 range2 : Range α) :
    ∃ common, addCommon builder range1 range2 = .ok (builder ++ common) ∧
      ∀ m, Covers common m ↔ m ∈ range1.toInterval ∧ m ∈ range2.toInterval := by
  unfold addCommon
  by_cases hoverlap : range1.overlaps range2 = true
  · obtain ⟨t, ht, hinterval⟩ := intersect_eq_ok hoverlap
    refine ⟨[t], by rw [if_pos hoverlap, ht]; rfl, ?_⟩
    intro m
    rw [covers_cons, hinterval, ClosedInterval.mem_inter_iff]
    simp
  · refine ⟨[], by rw [if_neg hoverlap, append_nil]; rfl, ?_⟩
    intro m
    have hdisjoint : ¬(m ∈ range1.toInterval ∧ m ∈ range2.toInterval) := by
      intro hm
      exact hoverlap (overlaps_iff.mpr (ClosedInterval.overlap_of_mem hm.1 hm.2))
    simp [hdisjoint]

/-- The two-pointer loop adds exactly the common markers of the two remaining
ascending lists. -/
theorem intersectLoop_spec (builder : List (Range α)) (range1 : Range α) (rest1 : List (Range α))
    (range2 : Range α) (rest2 : List (Range α))
    (h₁ : ClosedInterval.Ascending ((range1 :: rest1).map toInterval))
    (h₂ : ClosedInterval.Ascending ((range2 :: rest2).map toInterval)) :
    ∃ added, intersectLoop builder range1 rest1 range2 rest2 =
        .ok (builder ++ added) ∧
      ∀ m, Covers added m ↔
        Covers (range1 :: rest1) m ∧ Covers (range2 :: rest2) m := by
  obtain ⟨common, hcommon, hcovers⟩ := addCommon_spec builder range1 range2
  -- the common part of the two heads, and what the rest of the loop adds
  have hadd : ∀ {result : Result (List (Range α))} (later : Marker α → Prop),
      (∃ added, result = .ok (builder ++ common ++ added) ∧ ∀ m, Covers added m ↔ later m) →
      (∀ m, (Covers (range1 :: rest1) m ∧ Covers (range2 :: rest2) m) ↔
        (m ∈ range1.toInterval ∧ m ∈ range2.toInterval) ∨ later m) →
      ∃ added, result = .ok (builder ++ added) ∧
        ∀ m, Covers added m ↔ Covers (range1 :: rest1) m ∧ Covers (range2 :: rest2) m := by
    rintro _ later ⟨added, rfl, hadded⟩ hsweep
    refine ⟨common ++ added, by rw [append_assoc], ?_⟩
    intro m
    rw [hsweep, covers_append, hcovers, hadded]
  rw [intersectLoop, hcommon, bind_ok]
  by_cases hle : range1.high ≤ range2.high
  · rw [if_pos (compareTo_isLE_iff.mpr hle)]
    refine hadd _ ?_ fun m => ClosedInterval.Ascending.covers_and_covers_iff_left h₂ hle
    cases rest1 with
    | nil => exact ⟨[], by rw [append_nil]; rfl, by simp [ClosedInterval.Covers]⟩
    | cons next rest =>
        exact intersectLoop_spec (builder ++ common) next rest range2 rest2 h₁.tail h₂
  · rw [if_neg (by simpa using hle)]
    refine hadd (fun m => Covers rest2 m ∧ Covers (range1 :: rest1) m) ?_ ?_
    · cases rest2 with
      | nil => exact ⟨[], by rw [append_nil]; rfl, by simp⟩
      | cons next rest =>
          obtain ⟨added, hadded, hrest⟩ :=
            intersectLoop_spec (builder ++ common) range1 rest1 next rest h₁ h₂.tail
          exact ⟨added, hadded, fun m => (hrest m).trans and_comm⟩
    · intro m
      rw [and_comm, and_comm (a := m ∈ range1.toInterval)]
      exact ClosedInterval.Ascending.covers_and_covers_iff_left h₁ (le_of_not_ge hle)
termination_by rest1.length + rest2.length

theorem intersect_spec (s other : SortedRangeSet type) :
    ∃ t, s.intersect other = .ok t ∧
      ∀ v, t.containsValue v = (s.containsValue v && other.containsValue v) := by
  have hascending : ∀ s : SortedRangeSet type,
      ClosedInterval.Ascending (s.getOrderedRanges.map toInterval) :=
    fun s => s.canonical.ascending
  have hnone : s.getOrderedRanges = [] ∨ other.getOrderedRanges = [] →
      ∃ t, build type ([] : List (Range α)) = .ok t ∧
        ∀ v, t.containsValue v = (s.containsValue v && other.containsValue v) := by
    intro hempty
    apply containsValue_build
    intro v
    rw [Bool.and_eq_true, containsValue_iff, containsValue_iff]
    rcases hempty with hempty | hempty <;> simp [hempty]
  unfold intersect
  cases h₁ : s.getOrderedRanges with
  | nil => exact hnone (Or.inl h₁)
  | cons range1 rest1 =>
      cases h₂ : other.getOrderedRanges with
      | nil => exact hnone (Or.inr h₂)
      | cons range2 rest2 =>
          obtain ⟨added, hadded, hcovers⟩ := intersectLoop_spec [] range1 rest1 range2 rest2
            (h₁ ▸ hascending s) (h₂ ▸ hascending other)
          dsimp only
          rw [hadded]
          apply containsValue_build
          intro v
          rw [nil_append, hcovers, Bool.and_eq_true, containsValue_iff, containsValue_iff, h₁, h₂]

/-! ## Union -/

theorem union_spec (s other : SortedRangeSet type) :
    ∃ t, s.union other = .ok t ∧
      ∀ v, t.containsValue v = (s.containsValue v || other.containsValue v) := by
  apply containsValue_build
  intro v
  rw [covers_append, Bool.or_eq_true, containsValue_iff, containsValue_iff]

variable {m : Marker α}

theorem covers_flatMap_iff {sets : List (SortedRangeSet type)} :
    Covers (sets.flatMap getOrderedRanges) m ↔ ∃ s ∈ sets, Covers s.getOrderedRanges m := by
  induction sets with
  | nil => simp
  | cons s sets ih => simp [ih]

theorem unionAll_spec (s : SortedRangeSet type) (valueSets : List (SortedRangeSet type)) :
    ∃ t, s.unionAll valueSets = .ok t ∧
      ∀ v, t.containsValue v =
        (s.containsValue v || valueSets.any fun set => set.containsValue v) := by
  apply containsValue_build
  intro v
  rw [covers_append, Bool.or_eq_true, covers_flatMap_iff, any_eq_true]
  simp only [containsValue_iff]

/-! ## Complement -/

/-- The gap between two consecutive ranges of a canonical set is a legal range
and holds the markers strictly between them. -/
theorem exists_gap {previous current : Range α} (hlt : previous.high < current.low)
    (hadjacent : previous.high.isAdjacent current.low = false) :
    ∃ lowMarker highMarker gap,
      previous.high.greaterAdjacent = .ok lowMarker ∧
      current.low.lesserAdjacent = .ok highMarker ∧
      create lowMarker highMarker = .ok gap ∧
      ∀ m, m ∈ gap.toInterval ↔ previous.high < m ∧ m < current.low := by
  have hupper : previous.high ≠ upperUnbounded := by
    intro h
    exact absurd (h ▸ hlt) (not_lt.mpr (le_upperUnbounded _))
  have hlower : current.low ≠ lowerUnbounded := by
    intro h
    exact absurd (h ▸ hlt) (not_lt.mpr (lowerUnbounded_le _))
  obtain ⟨lowMarker, hlowMarker, hlowBound, hcov₁, hneighbour⟩ :=
    exists_greaterAdjacent previous.high_bound hupper
  obtain ⟨highMarker, hhighMarker, hhighBound, hcov₂⟩ :=
    exists_lesserAdjacent current.low_bound hlower
  -- the neighbours would cross only if the two markers were adjacent
  have hle : lowMarker ≤ highMarker := by
    have hle' : lowMarker ≤ current.low := hcov₁.ge_of_gt hlt
    rcases hle'.eq_or_lt with rfl | hlt'
    · simp [hneighbour] at hadjacent
    · exact hcov₂.le_of_lt hlt'
  refine ⟨lowMarker, highMarker, _, hlowMarker, hhighMarker,
    create_eq_ok hlowBound hhighBound hle, ?_⟩
  intro m
  exact ClosedInterval.mem_gap_iff hcov₁ hcov₂

/-- A marker that no range covers is below the first range or above it and between later ones. -/
theorem not_covers_cons_iff {first : Range α} {rest : List (Range α)}
    (hlater : ∀ r ∈ rest, first.high < r.low) :
    ¬Covers (first :: rest) m ↔ m < first.low ∨ first.high < m ∧ ¬Covers rest m := by
  have hafter : Covers rest m → first.high < m := by
    intro hcov
    obtain ⟨r, hr, hm⟩ := covers_iff.mp hcov
    exact (hlater r hr).trans_le hm.1
  have hbefore : m < first.low → ¬first.high < m :=
    fun hlt => not_lt.mpr (hlt.le.trans first.le)
  rw [covers_cons]
  change ¬((first.low ≤ m ∧ m ≤ first.high) ∨ _) ↔ _
  rw [← not_lt, ← not_lt]
  tauto

/-- The ranges added by the walk and the markers above the last range together
are the markers above the first range that the later ranges leave out. -/
theorem complementLoop_spec (rest : List (Range α)) :
    ∀ (builder : List (Range α)) (previous : Range α),
      ((previous :: rest).Pairwise fun r s =>
        r.high < s.low ∧ r.high.isAdjacent s.low = false) →
      ∃ gaps last, complementLoop builder previous rest =
          .ok (builder ++ gaps, last) ∧
        ∀ m, (Covers gaps m ∨ last.high < m) ↔
          previous.high < m ∧ ¬Covers rest m := by
  induction rest with
  | nil =>
      intro builder previous _
      exact ⟨[], previous, by simp [complementLoop], by simp⟩
  | cons current rest ih =>
      intro builder previous hpairwise
      obtain ⟨hprevious, hrest⟩ := pairwise_cons.mp hpairwise
      obtain ⟨hlt, hadjacent⟩ := hprevious current (by simp)
      obtain ⟨lowMarker, highMarker, gap, hlow, hhigh, hgap, hmem⟩ :=
        exists_gap hlt hadjacent
      obtain ⟨gaps, last, hloop, hcovers⟩ := ih (builder ++ [gap]) current hrest
      refine ⟨gap :: gaps, last, ?_, ?_⟩
      · rw [complementLoop, hlow, bind_ok, hhigh, bind_ok, hgap, bind_ok, hloop]
        simp
      · intro m
        rw [covers_cons, or_assoc, hcovers m, hmem,
          not_covers_cons_iff fun r hr => ((pairwise_cons.mp hrest).1 r hr).1]
        have hafter : current.high < m → previous.high < m := (hlt.trans_le current.le).trans
        tauto

theorem addBelow_spec (first : Range α) :
    ∃ gaps, addBelow first = .ok gaps ∧ ∀ m, Covers gaps m ↔ m < first.low := by
  unfold addBelow
  by_cases hunbounded : first.low = lowerUnbounded
  · refine ⟨[], by rw [if_pos (isLowerUnbounded_iff.mpr hunbounded)]; rfl, ?_⟩
    intro m
    have hge : ¬m < first.low := by
      rw [hunbounded]
      exact not_lt.mpr (lowerUnbounded_le m)
    simp [hge]
  · obtain ⟨highMarker, hhigh, hbound, hcov⟩ :=
      exists_lesserAdjacent first.low_bound hunbounded
    have hlow : (lowerUnbounded : Marker α).bound ≠ .below := by
      simp [lowerUnbounded]
    have hcreate :=
      create_eq_ok hlow hbound (lowerUnbounded_le highMarker)
    rw [if_neg (fun h => hunbounded (isLowerUnbounded_iff.mp h)), hhigh, bind_ok, hcreate]
    refine ⟨_, rfl, ?_⟩
    intro m
    rw [covers_cons, covers_nil, or_false, hcov.lt_iff_le_left]
    exact and_iff_right (lowerUnbounded_le m)

theorem addAbove_spec (builder : List (Range α)) (last : Range α) :
    ∃ gaps, addAbove builder last = .ok (builder ++ gaps) ∧ ∀ m, Covers gaps m ↔ last.high < m := by
  unfold addAbove
  by_cases hunbounded : last.high = upperUnbounded
  · refine ⟨[], ?_, ?_⟩
    · rw [if_pos (isUpperUnbounded_iff.mpr hunbounded), append_nil]
      rfl
    · intro m
      have hle : ¬last.high < m := by
        rw [hunbounded]
        exact not_lt.mpr (le_upperUnbounded m)
      simp [hle]
  · obtain ⟨lowMarker, hlow, hbound, hcov, -⟩ :=
      exists_greaterAdjacent last.high_bound hunbounded
    have hhigh : (upperUnbounded : Marker α).bound ≠ .above := by
      simp [upperUnbounded]
    have hcreate :=
      create_eq_ok hbound hhigh (le_upperUnbounded lowMarker)
    rw [if_neg (fun h => hunbounded (isUpperUnbounded_iff.mp h)), hlow, bind_ok, hcreate]
    refine ⟨[_], rfl, ?_⟩
    intro m
    rw [covers_cons, covers_nil, or_false, hcov.lt_iff_le_right]
    exact and_iff_left (le_upperUnbounded m)

theorem separated_getOrderedRanges (s : SortedRangeSet type) :
    s.getOrderedRanges.Pairwise fun r t =>
      r.high < t.low ∧ r.high.isAdjacent t.low = false := by
  unfold getOrderedRanges NavigableMap.values
  rw [pairwise_map]
  exact s.canonical.separated

theorem complement_spec (s : SortedRangeSet type) :
    ∃ t, s.complement = .ok t ∧ ∀ v, t.containsValue v = !s.containsValue v := by
  have hseparated := s.separated_getOrderedRanges
  unfold complement
  cases hranges : s.getOrderedRanges with
  | nil =>
      apply containsValue_build
      intro v
      have hs : s.containsValue v = false := by
        rw [Bool.eq_false_iff, ne_eq, containsValue_iff, hranges]
        simp
      rw [hs]
      simp [mem_all]
  | cons first rest =>
      rw [hranges] at hseparated
      obtain ⟨headGaps, hhead, hheadCovers⟩ := addBelow_spec first
      obtain ⟨gaps, last, hloop, hloopCovers⟩ :=
        complementLoop_spec rest headGaps first hseparated
      obtain ⟨lastGaps, hlast, hlastCovers⟩ :=
        addAbove_spec (headGaps ++ gaps) last
      dsimp only
      rw [hhead, bind_ok, hloop, bind_ok]
      rw [hlast]
      apply containsValue_build
      intro v
      rw [Bool.not_eq_true', Bool.eq_false_iff, ne_eq, containsValue_iff, hranges,
        covers_append, covers_append, hheadCovers, hlastCovers, or_assoc, hloopCovers,
        not_covers_cons_iff fun r hr => ((pairwise_cons.mp hseparated).1 r hr).1]

theorem subtract_spec (s other : SortedRangeSet type) :
    ∃ t, s.subtract other = .ok t ∧
      ∀ v, t.containsValue v = (s.containsValue v && !other.containsValue v) := by
  obtain ⟨c, hc, hcomplement⟩ := other.complement_spec
  obtain ⟨t, ht, hintersect⟩ := s.intersect_spec c
  refine ⟨t, ?_, ?_⟩
  · rw [subtract, hc]
    exact ht
  · intro v
    rw [hintersect, hcomplement]

/-! ## Compositions of operations -/

/-- A finite composition of the operations that return sorted range sets. -/
inductive Composition (type : OrderableType α)
  | ofValues (first : α) (rest : List α)
  | ofRanges (first : Range α) (rest : List (Range α))
  | copyOf (ranges : List (Range α))
  | union (left right : Composition type)
  | unionAll (first : Composition type) (rest : List (Composition type))
  | intersect (left right : Composition type)
  | complement (set : Composition type)
  | subtract (left right : Composition type)

namespace Composition

mutual

/-- Runs the operations of a composition, innermost first. -/
def eval : Composition type → Result (SortedRangeSet type)
  | .ofValues first rest => SortedRangeSet.ofValues type first rest
  | .ofRanges first rest => SortedRangeSet.ofRanges type first rest
  | .copyOf ranges => SortedRangeSet.copyOf type ranges
  | .union left right => do
      let s ← eval left
      let t ← eval right
      s.union t
  | .unionAll first rest => do
      let s ← eval first
      let ts ← evalAll rest
      s.unionAll ts
  | .intersect left right => do
      let s ← eval left
      let t ← eval right
      s.intersect t
  | .complement set => do
      let s ← eval set
      s.complement
  | .subtract left right => do
      let s ← eval left
      let t ← eval right
      s.subtract t

def evalAll : List (Composition type) → Result (List (SortedRangeSet type))
  | [] => .ok []
  | c :: rest => do
      let s ← eval c
      let ts ← evalAll rest
      pure (s :: ts)

end

mutual

/-- No composition throws: each operation returns on every set. -/
theorem eval_eq_ok : ∀ c : Composition type, ∃ s, c.eval = .ok s
  | .ofValues first rest => by
      obtain ⟨s, hs, -⟩ :=
        build_spec type (equal first :: rest.map equal)
      exact ⟨s, by rw [eval]; exact hs⟩
  | .ofRanges first rest => by
      obtain ⟨s, hs, -⟩ := build_spec type (first :: rest)
      exact ⟨s, by rw [eval]; exact hs⟩
  | .copyOf ranges => by
      obtain ⟨s, hs, -⟩ := build_spec type ranges
      exact ⟨s, by rw [eval]; exact hs⟩
  | .union left right => by
      obtain ⟨s, hs⟩ := eval_eq_ok left
      obtain ⟨t, ht⟩ := eval_eq_ok right
      obtain ⟨r, hr, -⟩ := s.union_spec t
      exact ⟨r, by rw [eval, hs, bind_ok, ht, bind_ok, hr]⟩
  | .unionAll first rest => by
      obtain ⟨s, hs⟩ := eval_eq_ok first
      obtain ⟨ts, hts⟩ := evalAll_eq_ok rest
      obtain ⟨r, hr, -⟩ := s.unionAll_spec ts
      exact ⟨r, by rw [eval, hs, bind_ok, hts, bind_ok, hr]⟩
  | .intersect left right => by
      obtain ⟨s, hs⟩ := eval_eq_ok left
      obtain ⟨t, ht⟩ := eval_eq_ok right
      obtain ⟨r, hr, -⟩ := s.intersect_spec t
      exact ⟨r, by rw [eval, hs, bind_ok, ht, bind_ok, hr]⟩
  | .complement set => by
      obtain ⟨s, hs⟩ := eval_eq_ok set
      obtain ⟨r, hr, -⟩ := s.complement_spec
      exact ⟨r, by rw [eval, hs, bind_ok, hr]⟩
  | .subtract left right => by
      obtain ⟨s, hs⟩ := eval_eq_ok left
      obtain ⟨t, ht⟩ := eval_eq_ok right
      obtain ⟨r, hr, -⟩ := s.subtract_spec t
      exact ⟨r, by rw [eval, hs, bind_ok, ht, bind_ok, hr]⟩

theorem evalAll_eq_ok :
    ∀ cs : List (Composition type), ∃ ss, evalAll cs = .ok ss
  | [] => ⟨[], by rw [evalAll]⟩
  | c :: rest => by
      obtain ⟨s, hs⟩ := eval_eq_ok c
      obtain ⟨ts, hts⟩ := evalAll_eq_ok rest
      exact ⟨s :: ts, by rw [evalAll, hs, bind_ok, hts]; rfl⟩

end

/-- Every composition returns a set whose ranges are stored in strictly
increasing order under their own low markers, consecutive ranges neither
overlapping nor adjacent. -/
theorem eval_canonical (c : Composition type) :
    ∃ s, c.eval = .ok s ∧
      (s.lowIndexedRanges.Pairwise fun e f =>
        e.1.compareTo f.1 = .lt ∧ e.2.high.compareTo f.2.low = .lt) ∧
      (∀ e ∈ s.lowIndexedRanges, e.1 = e.2.low) ∧
      s.getOrderedRanges.IsChain fun r t =>
        r.overlaps t = false ∧ r.high.isAdjacent t.low = false := by
  obtain ⟨s, hs⟩ := eval_eq_ok c
  refine ⟨s, hs, ?_, s.canonical.keyed, ?_⟩
  · refine (s.canonical.sorted.and s.canonical.separated).imp ?_
    rintro e f ⟨hkeys, hranges, -⟩
    exact ⟨compareTo_eq_lt_iff.mpr hkeys, compareTo_eq_lt_iff.mpr hranges⟩
  · refine (s.separated_getOrderedRanges.imp ?_).isChain
    rintro r t ⟨hlt, hadjacent⟩
    refine ⟨?_, hadjacent⟩
    rw [Bool.eq_false_iff, ne_eq, overlaps_iff]
    exact fun hoverlap => absurd hlt (not_lt.mpr hoverlap.2)

end Composition
end SortedRangeSet
end Presto.Predicate
