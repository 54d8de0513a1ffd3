import Presto.Orc.Filter.LongFilters
import Presto.Orc.Filter.ToFilter

/-!
# Filters of integer domains

For the types whose native values are longs, `toFilter` turns open bounds into
inclusive longs.  Its filter is exact on all domains but four kinds: a bound
whose inclusive neighbour wraps around, a lone range without longs beside null,
several ranges that hold one long altogether, and single values too many for
the 32-bit size of the hash table.
-/

namespace Presto.Orc.TupleDomainFilterUtils

open BigintRange Result List TupleDomainFilter

open Int64 (le_maxValue minValue_le)

open Predicate Predicate.Marker Support

/-- The column type of native longs, ordered as such. -/
abbrev longColumn : ColumnType Int64 :=
  .orderable inferInstance inferInstance .other

/-! ## The longs of one range -/

/-- The inclusive lower bound that `bigintRangeToFilter` computes. -/
def lowerLong (low : Marker Int64) : Int64 :=
  match low.value with
  | none => Int64.minValue
  | some v => if low.bound = .above then v + 1 else v

/-- The inclusive upper bound that `bigintRangeToFilter` computes. -/
def upperLong (high : Marker Int64) : Int64 :=
  match high.value with
  | none => Int64.maxValue
  | some v => if high.bound = .below then v - 1 else v

/-- The longs between the inclusive bounds, if there are any. -/
def longRange (nullAllowed : Bool) (r : Range Int64) : Option BigintRange :=
  if h : lowerLong r.low ≤ upperLong r.high then
    some ⟨lowerLong r.low, upperLong r.high, nullAllowed, h⟩
  else none

def ofLongRange : Option BigintRange → TupleDomainFilter
  | some f => .bigintRange f
  | none => .alwaysFalse

theorem bigintRangeToFilter_eq (r : Range Int64) (nullAllowed : Bool) :
    bigintRangeToFilter id r nullAllowed = .ok (ofLongRange (longRange nullAllowed r)) := by
  obtain ⟨lower, hlower, hlowerEq⟩ : ∃ base, lowerValueOr Int64.minValue id r.low = .ok base ∧
      (if !r.low.isLowerUnbounded && r.low.bound == .above then base + 1 else base) =
        lowerLong r.low := by
    rcases r.low_cases with h | ⟨v, h | h⟩ <;> rw [h] <;> exact ⟨_, rfl, rfl⟩
  obtain ⟨upper, hupper, hupperEq⟩ : ∃ base, upperValueOr Int64.maxValue id r.high = .ok base ∧
      (if !r.high.isUpperUnbounded && r.high.bound == .below then base - 1 else base) =
        upperLong r.high := by
    rcases r.high_cases with h | ⟨v, h | h⟩ <;> rw [h] <;> exact ⟨_, rfl, rfl⟩
  rw [bigintRangeToFilter]
  rw [hlower, bind_ok, hupper, bind_ok, hlowerEq, hupperEq]
  unfold longRange
  by_cases h : lowerLong r.low ≤ upperLong r.high
  · rw [if_neg (not_lt.mpr h), dif_pos h, of, dif_pos h]
    rfl
  · rw [if_pos (not_le.mp h), dif_neg h]
    rfl

/-- An open bound at an end of the longs: its inclusive neighbour wraps
around. -/
def Wraps (r : Range Int64) : Prop :=
  r.low = above Int64.maxValue ∨ r.high = below Int64.minValue

variable {r : Range Int64}

theorem low_le_exactly_iff (hwrap : r.low ≠ above Int64.maxValue) (v : Int64) :
    r.low ≤ exactly v ↔ lowerLong r.low ≤ v := by
  rcases r.low_cases with hlow | ⟨w, hlow | hlow⟩ <;> rw [hlow] at hwrap ⊢
  · exact iff_of_true (lowerUnbounded_le _) (minValue_le v)
  · exact exactly_le_exactly_iff
  · have hmax : w ≠ Int64.maxValue := by
      rintro rfl
      exact hwrap rfl
    have hlower : lowerLong (above w) = w + 1 := rfl
    rw [above_le_exactly_iff, hlower, Int64.le_iff_toInt_le, toInt_add_one hmax,
      Int64.lt_iff_toInt_lt, Int.add_one_le_iff]

theorem exactly_le_high_iff (hwrap : r.high ≠ below Int64.minValue) (v : Int64) :
    exactly v ≤ r.high ↔ v ≤ upperLong r.high := by
  rcases r.high_cases with hhigh | ⟨w, hhigh | hhigh⟩ <;> rw [hhigh] at hwrap ⊢
  · exact iff_of_true (le_upperUnbounded _) (le_maxValue v)
  · exact exactly_le_exactly_iff
  · have hmin : w ≠ Int64.minValue := by
      rintro rfl
      exact hwrap rfl
    have hupper : upperLong (below w) = w - 1 := rfl
    rw [exactly_le_below_iff, hupper, Int64.le_iff_toInt_le, toInt_sub_one hmin,
      Int64.lt_iff_toInt_lt, Int.le_sub_one_iff]

/-- Away from the ends, the inclusive bounds hold the longs of the range. -/
theorem includes_exactly_iff (h : ¬Wraps r) (v : Int64) :
    r.includes (exactly v) = true ↔ lowerLong r.low ≤ v ∧ v ≤ upperLong r.high := by
  rw [Wraps, not_or] at h
  rw [Range.includes_iff]
  exact and_congr (low_le_exactly_iff h.1 v) (exactly_le_high_iff h.2 v)

theorem includes_eq_testLong (h : ¬Wraps r) (nullAllowed : Bool) (v : Int64) :
    r.includes (exactly v) =
      (longRange nullAllowed r).any fun f => f.testLong v := by
  rw [Bool.eq_iff_iff, includes_exactly_iff h]
  unfold longRange
  by_cases hle : lowerLong r.low ≤ upperLong r.high
  · rw [dif_pos hle, Option.any_some, testLong_iff]
  · rw [dif_neg hle]
    simp only [Option.any_none, Bool.false_eq_true, iff_false, not_and, not_le]
    intro hlow
    exact (not_le.mp hle).trans_le hlow

/-- A wrapped bound turns a range without longs into the range of all. -/
theorem longRange_of_wraps (h : Wraps r) (nullAllowed : Bool) :
    ∃ f, longRange nullAllowed r = some f ∧ f.lower = Int64.minValue ∧
      f.upper = Int64.maxValue := by
  have hle : Int64.minValue ≤ Int64.maxValue := minValue_le _
  have hbounds : lowerLong r.low = Int64.minValue ∧
      upperLong r.high = Int64.maxValue := by
    have hrange := r.le
    rcases h with h | h
    · rw [h] at hrange ⊢
      rcases r.high_cases with hhigh | ⟨w, hhigh | hhigh⟩
      · rw [hhigh]
        exact ⟨by decide, rfl⟩
      · rw [hhigh, above_le_exactly_iff] at hrange
        exact absurd hrange (not_lt.mpr (le_maxValue w))
      · rw [hhigh, above_le_below_iff] at hrange
        exact absurd hrange (not_lt.mpr (le_maxValue w))
    · rw [h] at hrange ⊢
      rcases r.low_cases with hlow | ⟨w, hlow | hlow⟩
      · rw [hlow]
        exact ⟨rfl, by decide⟩
      · rw [hlow, exactly_le_below_iff] at hrange
        exact absurd hrange (not_lt.mpr (minValue_le w))
      · rw [hlow, above_le_below_iff] at hrange
        exact absurd hrange (not_lt.mpr (minValue_le w))
  unfold longRange
  rw [dif_pos (by rw [hbounds.1, hbounds.2]; exact hle)]
  exact ⟨_, rfl, hbounds.1, hbounds.2⟩

variable {nullAllowed : Bool}

theorem includes_ends {f : BigintRange} (h : ¬Wraps r) (hf : longRange nullAllowed r = some f) :
    r.includes (exactly f.lower) = true ∧ r.includes (exactly f.upper) = true := by
  rw [includes_eq_testLong h nullAllowed, includes_eq_testLong h nullAllowed, hf,
    Option.any_some, Option.any_some, testLong_iff, testLong_iff]
  exact ⟨⟨le_rfl, f.le⟩, f.le, le_rfl⟩

theorem eq_or_rel_of_pairwise {ι : Type*} {R : ι → ι → Prop} {l : List ι}
    (h : l.Pairwise R) {a b : ι} (ha : a ∈ l) (hb : b ∈ l) : a = b ∨ R a b ∨ R b a := by
  have : Std.Symm fun a b => a = b ∨ R a b ∨ R b a := ⟨fun _ _ => Or.imp Eq.symm Or.symm⟩
  have hall : l.Pairwise fun a b => a = b ∨ R a b ∨ R b a :=
    h.imp fun hab => Or.inr (Or.inl hab)
  refine List.Pairwise.forall_of_forall (R := fun a b => a = b ∨ R a b ∨ R b a) ?_ hall ha hb
  exact fun _ _ => Or.inl rfl

/-- Beside a range with a wrapped bound, the long at that end is missing. -/
theorem exists_not_holds_of_wraps
    {ranges : List (Range Int64)} (hcanonical : ranges.Pairwise fun r s =>
      r.high < s.low ∧ r.high.isAdjacent s.low = false)
    (hr : r ∈ ranges) (hwraps : Wraps r) : ∃ v, holds ranges v = false := by
  rcases hwraps with hlow | hhigh
  · refine ⟨Int64.maxValue, ?_⟩
    rw [holds, any_eq_false]
    intro s hs hincludes
    rw [Range.includes_iff] at hincludes
    have hlt : exactly Int64.maxValue < r.low := by
      rw [hlow]
      exact (exactly_covBy_above _).lt
    rcases eq_or_rel_of_pairwise hcanonical hr hs with rfl | hrs | hsr
    · exact absurd hincludes.1 (not_le.mpr hlt)
    · exact absurd (hlt.trans_le (r.le.trans (hrs.1.le.trans hincludes.1)))
        (lt_irrefl _)
    · -- the earlier range ends at the greatest long, so the two are adjacent
      have hend : s.high = exactly Int64.maxValue := by
        rw [hlow] at hsr
        exact le_antisymm ((exactly_covBy_above _).le_of_lt hsr.1) hincludes.2
      rw [hend, hlow] at hsr
      simp [isAdjacent, exactly, above, mkValue] at hsr
  · refine ⟨Int64.minValue, ?_⟩
    rw [holds, any_eq_false]
    intro s hs hincludes
    rw [Range.includes_iff] at hincludes
    have hlt : r.high < exactly Int64.minValue := by
      rw [hhigh]
      exact (below_covBy_exactly _).lt
    rcases eq_or_rel_of_pairwise hcanonical hr hs with rfl | hrs | hsr
    · exact absurd hincludes.2 (not_le.mpr hlt)
    · have hstart : s.low = exactly Int64.minValue := by
        rw [hhigh] at hrs
        exact le_antisymm hincludes.1 ((below_covBy_exactly _).ge_of_gt hrs.1)
      rw [hstart, hhigh] at hrs
      simp [isAdjacent, exactly, below, mkValue] at hrs
    · exact absurd (hincludes.2.trans_lt (hsr.1.trans_le (r.le.trans hlt.le)))
        (lt_irrefl _)

/-! ## Exact filters -/

/-- The construction returns a filter that accepts the given longs, and null or
not. -/
def Decides (result : Result TupleDomainFilter) (accepts : Int64 → Bool)
    (nullAllowed : Bool) : Prop :=
  ∃ f, result = .ok f ∧ (∀ v, f.testLong v = .ok (accepts v)) ∧
    f.testNull = nullAllowed

theorem decides_ok_iff {f : TupleDomainFilter} {accepts : Int64 → Bool} :
    Decides (.ok f) accepts nullAllowed ↔
      (∀ v, f.testLong v = .ok (accepts v)) ∧ f.testNull = nullAllowed := by
  constructor
  · rintro ⟨g, hg, h⟩
    obtain rfl : f = g := Except.ok.inj hg
    exact h
  · intro h
    exact ⟨f, rfl, h⟩

/-- The range filter of a single range: a range without longs loses null. -/
theorem decides_single_iff (r : Range Int64) (nullAllowed : Bool) :
    Decides (bigintRangeToFilter id r nullAllowed)
        (fun v => r.includes (exactly v)) nullAllowed ↔
      ¬Wraps r ∧
        (nullAllowed = true → ∃ v, r.includes (exactly v) = true) := by
  rw [bigintRangeToFilter_eq, decides_ok_iff]
  by_cases hwraps : Wraps r
  · refine iff_of_false ?_ (fun h => h.1 hwraps)
    rintro ⟨hexact, -⟩
    obtain ⟨f, hf, hlower, hupper⟩ := longRange_of_wraps hwraps nullAllowed
    obtain ⟨v, hv⟩ :=
      exists_not_holds_of_wraps (pairwise_singleton _ r) (by simp) hwraps
    have htest := hexact v
    rw [hf] at htest
    have haccepted : f.testLong v = true := by
      rw [testLong_iff, hlower, hupper]
      exact ⟨minValue_le v, le_maxValue v⟩
    have hincluded : r.includes (exactly v) = true :=
      (Except.ok.inj htest).symm.trans haccepted
    simp [holds, hincluded] at hv
  · have hincludes := includes_eq_testLong hwraps nullAllowed
    cases hrange : longRange nullAllowed r with
    | none =>
        have hempty : ∀ v, r.includes (exactly v) = false := by
          intro v
          rw [hincludes, hrange]
          rfl
        cases nullAllowed with
        | true => simp [ofLongRange, testNull, hempty]
        | false =>
            simp [ofLongRange, TupleDomainFilter.testNull, TupleDomainFilter.testLong,
              hempty, hwraps]
    | some f =>
        have hnull : f.nullAllowed = nullAllowed := by
          unfold longRange at hrange
          split at hrange
          · rw [← Option.some.inj hrange]
          · simp at hrange
        refine iff_of_true ⟨?_, hnull⟩ ⟨hwraps, fun _ => ⟨f.lower, ?_⟩⟩
        · intro v
          rw [hincludes, hrange]
          rfl
        · exact (includes_ends hwraps hrange).1

/-! ## Several ranges -/

/-- The ranges of longs that remain after those without longs are dropped. -/
def longRanges (ranges : List (Range Int64)) : List BigintRange :=
  ranges.filterMap (longRange false)

variable {ranges : List (Range Int64)}

theorem rangesToFilter_eq (hlength : 2 ≤ ranges.length)
    (hnotAll : ∀ r ∈ ranges, r.isAll = false) (nullAllowed : Bool) :
    rangesToFilter (.integer id) ranges nullAllowed =
      combineRangeFilters (.integer id) ranges
        ((longRanges ranges).map .bigintRange) nullAllowed := by
  have hcreate : ∀ r ∈ ranges, createRangeFilter (.integer id) r false =
      .ok (ofLongRange (longRange false r)) := by
    intro r hr
    rw [createRangeFilter, if_neg (by simp [hnotAll r hr])]
    exact bigintRangeToFilter_eq r false
  have hfilters : ∀ rs : List (Range Int64),
      (rs.map fun r => ofLongRange (longRange false r)).filter
          (fun filter => !filter.isAlwaysFalse) =
        (longRanges rs).map .bigintRange := by
    intro rs
    induction rs with
    | nil => rfl
    | cons r rs ih =>
        cases hr : longRange false r with
        | none | some _ =>
            simpa [longRanges, hr, ofLongRange, isAlwaysFalse] using ih
  match ranges, hlength with
  | first :: second :: rest, _ =>
      rw [rangesToFilter, if_neg (by simp)]
      · rw [mapM_eq_ok hcreate, bind_ok, hfilters]
      · simp
      · simp

variable {longs : List BigintRange}

theorem combineRangeFilters_eq (ranges : List (Range Int64)) (hne : longs ≠ [])
    (nullAllowed : Bool) :
    combineRangeFilters (.integer id) ranges (longs.map .bigintRange) nullAllowed =
      if longs.all isSingleValue then
        toBigintValues (longs.map lower) nullAllowed
      else .bigintMultiRange <$> BigintMultiRange.of longs nullAllowed := by
  have hcast : (longs.map bigintRange).mapM castBigintRange =
      .ok longs := by
    have hmap : longs.mapM (castBigintRange ∘ bigintRange) =
        .ok (longs.map id) := mapM_eq_ok fun _ _ => rfl
    rw [map_id] at hmap
    rwa [mapM_map]
  cases longs with
  | nil => exact absurd rfl hne
  | cons f rest =>
      rw [map_cons, combineRangeFilters, ← map_cons, hcast, bind_ok]

/-- The long ranges of separated ranges are separated as well. -/
theorem longRanges_pairwise (hwraps : ∀ r ∈ ranges, ¬Wraps r)
    (hseparated : ranges.Pairwise fun r s => r.high < s.low) :
    (longRanges ranges).Pairwise fun a b => a.upper < b.lower := by
  have hall : ranges.Pairwise fun r s => r.high < s.low ∧ ¬Wraps r ∧ ¬Wraps s :=
    hseparated.imp_of_mem fun hr hs h => ⟨h, hwraps _ hr, hwraps _ hs⟩
  refine hall.filterMap _ ?_
  rintro r s ⟨hlt, hr, hs⟩ a ha b hb
  have hupper := Range.includes_iff.mp (includes_ends hr ha).2
  have hlower := Range.includes_iff.mp (includes_ends hs hb).1
  have hmarkers : exactly a.upper < exactly b.lower :=
    (hupper.2.trans_lt hlt).trans_le hlower.1
  rw [exactly, exactly, mkValue_lt_mkValue_iff] at hmarkers
  simpa using hmarkers

theorem holds_eq_any (hwraps : ∀ r ∈ ranges, ¬Wraps r) (v : Int64) :
    holds ranges v = (longRanges ranges).any fun f => f.testLong v := by
  unfold holds longRanges
  rw [any_filterMap, Bool.eq_iff_iff, any_eq_true, any_eq_true]
  refine exists_congr fun r => and_congr_right fun hr => ?_
  rw [includes_eq_testLong (hwraps r hr) false]
  cases longRange false r with
  | none | some _ => rfl

/-! ## Single values -/

/-- One value alone is refused: both representations need two. -/
theorem toBigintValues_singleton (v : Int64) (nullAllowed : Bool) :
    toBigintValues [v] nullAllowed = .error (.illegalArgument "min must be less than max") := by
  have hchoice : prefersHashTable v [] = false := by
    simp [prefersHashTable, minOf, maxOf]
  unfold toBigintValues
  dsimp only
  rw [hchoice]
  simp [minOf, maxOf, BigintValuesUsingBitmask.of]
  rfl

/-- Two or more values are accepted exactly, unless their hash table is too
large for its size to be an `int`. -/
theorem decides_toBigintValues_iff {first : Int64} {rest : List Int64}
    (hsorted : (first :: rest).Pairwise (· < ·)) (hrest : rest ≠ []) (nullAllowed : Bool) :
    Decides (toBigintValues (first :: rest) nullAllowed)
        (fun v => decide (v ∈ first :: rest)) nullAllowed ↔
      (prefersHashTable first rest = true → 3 * (first :: rest).length < 2 ^ 31) := by
  have hmin : ∀ v ∈ first :: rest, minOf first rest ≤ v :=
    forall_mem_cons.mpr (le_foldl_min_iff.mp le_rfl)
  have hmax : ∀ v ∈ first :: rest, v ≤ maxOf first rest :=
    forall_mem_cons.mpr (foldl_max_le_iff.mp le_rfl)
  have hbounds : ∀ v ∈ first :: rest, minOf first rest ≤ v ∧ v ≤ maxOf first rest :=
    fun v hv => ⟨hmin v hv, hmax v hv⟩
  have hlength : 1 < (first :: rest).length := by
    have hpos := length_pos_iff.mpr hrest
    simp only [length_cons]
    omega
  have hlt : minOf first rest < maxOf first rest := by
    obtain ⟨second, hsecond⟩ := exists_mem_of_ne_nil rest hrest
    have hstep : first < second := (pairwise_cons.mp hsorted).1 second hsecond
    exact (hbounds first (by simp)).1.trans_lt
      (hstep.trans_le (hbounds second (by simp [hsecond])).2)
  unfold toBigintValues
  dsimp only
  cases hchoice : prefersHashTable first rest with
  | true =>
      simp only [if_true, forall_const]
      constructor
      · rintro ⟨f, hf, hexact, -⟩
        by_contra hlarge
        obtain ⟨table, htable, rfl⟩ := map_eq_ok_iff.mp hf
        obtain ⟨v, hv, hrejected⟩ := BigintValuesUsingHashTable.exists_rejected htable
          (hsorted.imp fun h => h.ne) (not_lt.mp hlarge)
        have hv' := Except.ok.inj (hexact v)
        rw [hrejected] at hv'
        simp [hv] at hv'
      · intro hsmall
        obtain ⟨table, htable, hnull, htest⟩ := BigintValuesUsingHashTable.of_spec
          nullAllowed hlt hlength hbounds hsmall
        rw [htable, map_ok, decides_ok_iff]
        refine ⟨?_, hnull⟩
        intro v
        rw [TupleDomainFilter.testLong, htest]
  | false =>
      simp only [Bool.false_eq_true, if_false, false_implies, iff_true]
      have hrange : (maxOf first rest).toInt - (minOf first rest).toInt + 1 ≤
          2 ^ 31 - 1 := by
        simp only [prefersHashTable, Bool.or_eq_false_iff, decide_eq_false_iff_not,
          not_lt] at hchoice
        exact hchoice.1
      obtain ⟨bitmask, hbitmask, hnull, htest⟩ := BigintValuesUsingBitmask.of_spec
        nullAllowed hlt hlength hbounds hrange
      rw [hbitmask, map_ok, decides_ok_iff]
      exact ⟨htest, hnull⟩

/-! ## The exact domains -/

/-- The ranges whose filter is exact. -/
structure ExactlyFilterable (ranges : List (Range Int64)) (nullAllowed : Bool) :
    Prop where
  /-- No open bound lies at the end of the longs it points to. -/
  noWrap : ∀ r ∈ ranges, ¬Wraps r
  /-- A lone range beside null holds a long. -/
  lone : ∀ r, ranges = [r] → nullAllowed = true →
    ∃ v, r.includes (exactly v) = true
  /-- Two or more ranges do not hold exactly one long altogether. -/
  notSingleton : 2 ≤ ranges.length → ¬∃ v, ∀ w, holds ranges w = true ↔ w = v
  /-- When each of them holds at most one long, and these are spread so far that
  a hash table is chosen, three times their number fits an `int`. -/
  tableSize : 2 ≤ ranges.length → ∀ first rest, (first :: rest).Pairwise (· < ·) →
    (∀ v, v ∈ first :: rest ↔ holds ranges v = true) →
    (∀ r ∈ ranges, ∀ v w, r.includes (exactly v) = true →
      r.includes (exactly w) = true → v = w) →
    prefersHashTable first rest = true → 3 * (first :: rest).length < 2 ^ 31

/-- With a wrapped bound the filter accepts every long, or is not built. -/
theorem not_decides_of_wraps
    (hcanonical : ranges.Pairwise fun r s =>
      r.high < s.low ∧ r.high.isAdjacent s.low = false)
    (hr : r ∈ ranges) (hwraps : Wraps r) (nullAllowed : Bool) :
    ¬Decides (combineRangeFilters (.integer id) ranges
      ((longRanges ranges).map .bigintRange) nullAllowed) (holds ranges)
      nullAllowed := by
  obtain ⟨f, hrange, hlower, hupper⟩ := longRange_of_wraps hwraps false
  have hf : f ∈ longRanges ranges := mem_filterMap.mpr ⟨r, hr, hrange⟩
  obtain ⟨v, hv⟩ := exists_not_holds_of_wraps hcanonical hr hwraps
  have hnotSingle : (longRanges ranges).all isSingleValue = false := by
    rw [all_eq_false]
    refine ⟨f, hf, ?_⟩
    rw [isSingleValue, hlower, hupper]
    decide
  rw [combineRangeFilters_eq ranges (ne_nil_of_mem hf), hnotSingle]
  rintro ⟨filter, hfilter, hexact, -⟩
  obtain ⟨multi, hof, rfl⟩ := map_eq_ok_iff.mp hfilter
  obtain ⟨rfl, hpairwise⟩ := BigintMultiRange.of_inv hof
  have htest := hexact v
  rw [TupleDomainFilter.testLong, BigintMultiRange.testLong_eq nullAllowed hpairwise, hv] at htest
  have hany := any_eq_false.mp (Except.ok.inj htest) f hf
  rw [testLong_iff, hlower, hupper] at hany
  exact hany ⟨minValue_le v, le_maxValue v⟩

/-- Long ranges that are single values accept these values. -/
theorem any_testLong_of_single (hsingle : longs.all isSingleValue = true) (v : Int64) :
    (longs.any fun f => f.testLong v) = decide (v ∈ longs.map lower) := by
  rw [Bool.eq_iff_iff, any_eq_true, decide_eq_true_eq, mem_map]
  exact exists_congr fun f => and_congr_right fun hf =>
    testLong_iff_of_isSingleValue (all_eq_true.mp hsingle f hf)

/-- A range of two or more longs among the long ranges rules out the last two
kinds of inexact domains. -/
theorem exactlyFilterable_of_not_single (hlength : 2 ≤ ranges.length)
    (hwraps : ∀ r ∈ ranges, ¬Wraps r) (hnotSingle : (longRanges ranges).all isSingleValue = false)
    (nullAllowed : Bool) : ExactlyFilterable ranges nullAllowed := by
  obtain ⟨f, hf, hne⟩ := all_eq_false.mp hnotSingle
  obtain ⟨r, hr, hrange⟩ := mem_filterMap.mp hf
  have hbounds : f.upper ≠ f.lower := by simpa [isSingleValue] using hne
  have hends := includes_ends (hwraps r hr) hrange
  refine ⟨hwraps, ?_, ?_, ?_⟩
  · rintro s rfl
    simp at hlength
  · rintro _ ⟨v, hv⟩
    have hlower := (hv f.lower).mp (any_eq_true.mpr ⟨r, hr, hends.1⟩)
    have hupper := (hv f.upper).mp (any_eq_true.mpr ⟨r, hr, hends.2⟩)
    exact hbounds (hupper.trans hlower.symm)
  · intro _ first rest _ _ hunique
    exact absurd (hunique r hr _ _ hends.2 hends.1) hbounds

/-- The filter of single values is exact unless there is one value, or too many
for the hash table. -/
theorem decides_single_values_iff (hlength : 2 ≤ ranges.length) (hwraps : ∀ r ∈ ranges, ¬Wraps r)
    (hseparated : ranges.Pairwise fun r s => r.high < s.low)
    (hsingle : (longRanges ranges).all isSingleValue = true)
    (hne : longRanges ranges ≠ []) (nullAllowed : Bool) :
    Decides (toBigintValues ((longRanges ranges).map lower) nullAllowed)
        (holds ranges) nullAllowed ↔
      ExactlyFilterable ranges nullAllowed := by
  have hsorted : ((longRanges ranges).map lower).Pairwise (· < ·) := by
    rw [pairwise_map]
    exact (longRanges_pairwise hwraps hseparated).imp fun {a b} h => a.le.trans_lt h
  have hholds : holds ranges = fun v =>
      decide (v ∈ (longRanges ranges).map lower) := by
    funext v
    rw [holds_eq_any hwraps, any_testLong_of_single hsingle]
  have hunique : ∀ r ∈ ranges, ∀ v w, r.includes (exactly v) = true →
      r.includes (exactly w) = true → v = w := by
    intro r hr v w hv hw
    rw [includes_eq_testLong (hwraps r hr) false] at hv hw
    cases hrange : longRange false r with
    | none => simp [hrange] at hv
    | some f =>
        have hf : f ∈ longRanges ranges := mem_filterMap.mpr ⟨r, hr, hrange⟩
        rw [hrange, Option.any_some, testLong_iff_of_isSingleValue
          (all_eq_true.mp hsingle f hf)] at hv hw
        exact hv.symm.trans hw
  have hvalues : (longRanges ranges).map lower ≠ [] := by simpa using hne
  rw [hholds]
  generalize (longRanges ranges).map lower = values at *
  match values, hvalues with
  | [v], _ =>
      rw [toBigintValues_singleton]
      refine iff_of_false (by rintro ⟨f, ⟨⟩, -⟩) ?_
      intro h
      apply h.notSingleton hlength
      refine ⟨v, ?_⟩
      intro w
      rw [hholds]
      simp
  | first :: second :: rest, _ =>
      rw [decides_toBigintValues_iff hsorted (by simp)]
      have hmem : ∀ v, v ∈ first :: second :: rest ↔ holds ranges v = true := by
        intro v
        rw [hholds, decide_eq_true_eq]
      constructor
      · intro hsize
        refine ⟨hwraps, ?_, ?_, ?_⟩
        · rintro r rfl
          simp at hlength
        · rintro _ ⟨v, hv⟩
          have hfirst : first = v := (hv first).mp ((hmem first).mp (by simp))
          have hsecond : second = v := (hv second).mp ((hmem second).mp (by simp))
          have hlt : first < second := (pairwise_cons.mp hsorted).1 second (by simp)
          exact absurd (hfirst.trans hsecond.symm) hlt.ne
        · intro _ first' rest' hsorted' hmem' _ hchoice
          have hsame : first' :: rest' = first :: second :: rest :=
            hsorted'.eq_of_mem_iff hsorted fun {v} => (hmem' v).trans (hmem v).symm
          obtain ⟨rfl, rfl⟩ := cons.inj hsame
          exact hsize hchoice
      · intro h
        exact h.tableSize hlength first (second :: rest) hsorted hmem hunique

/-- The filter of two or more ranges. -/
theorem decides_several_iff (hlength : 2 ≤ ranges.length)
    (hcanonical : ranges.Pairwise fun r s =>
      r.high < s.low ∧ r.high.isAdjacent s.low = false) (nullAllowed : Bool) :
    Decides (rangesToFilter (.integer id) ranges nullAllowed) (holds ranges)
        nullAllowed ↔
      ExactlyFilterable ranges nullAllowed := by
  have hseparated : ranges.Pairwise fun r s => r.high < s.low :=
    hcanonical.imp fun h => h.1
  rw [rangesToFilter_eq hlength (isAll_eq_false_of_canonical hlength hseparated)]
  by_cases hwraps : ∃ r ∈ ranges, Wraps r
  · obtain ⟨r, hr, hwrapped⟩ := hwraps
    exact iff_of_false (not_decides_of_wraps hcanonical hr hwrapped nullAllowed)
      fun h => h.noWrap r hr hwrapped
  have hnoWrap : ∀ r ∈ ranges, ¬Wraps r := fun r hr h => hwraps ⟨r, hr, h⟩
  have hholds := holds_eq_any hnoWrap
  by_cases hempty : longRanges ranges = []
  · -- no range holds a long
    have hnone : ∀ v, holds ranges v = false := by
      intro v
      rw [hholds, hempty]
      rfl
    refine iff_of_true ?_ ⟨hnoWrap, ?_, ?_, ?_⟩
    · rw [hempty]
      cases nullAllowed with
      | true => exact ⟨.isNull, rfl, fun v => by rw [hnone]; rfl, rfl⟩
      | false => exact ⟨.alwaysFalse, rfl, fun v => by rw [hnone]; rfl, rfl⟩
    · rintro r rfl
      simp at hlength
    · rintro _ ⟨v, hv⟩
      simpa [hnone] using (hv v).mpr rfl
    · intro _ first rest _ hmem
      simpa [hnone] using (hmem first).mp (by simp)
  rw [combineRangeFilters_eq ranges hempty]
  cases hsingle : (longRanges ranges).all isSingleValue with
  | true =>
      exact decides_single_values_iff hlength hnoWrap hseparated hsingle hempty nullAllowed
  | false =>
      have hpairwise : (longRanges ranges).Pairwise fun a b => a.upper ≤ b.lower :=
        (longRanges_pairwise hnoWrap hseparated).imp le_of_lt
      refine iff_of_true ?_
        (exactlyFilterable_of_not_single hlength hnoWrap hsingle nullAllowed)
      simp only [Bool.false_eq_true, if_false]
      rw [BigintMultiRange.of_eq_ok nullAllowed hempty hpairwise, map_ok, decides_ok_iff]
      refine ⟨?_, rfl⟩
      intro v
      rw [TupleDomainFilter.testLong, BigintMultiRange.testLong_eq nullAllowed hpairwise, hholds]

/-- The filter of one range that is not full. -/
theorem decides_lone_iff (hall : r.isAll = false) (nullAllowed : Bool) :
    Decides (rangesToFilter (.integer id) [r] nullAllowed) (holds [r]) nullAllowed ↔
      ExactlyFilterable [r] nullAllowed := by
  have hfilter : rangesToFilter (.integer id) [r] nullAllowed =
      bigintRangeToFilter id r nullAllowed := by
    rw [rangesToFilter, if_neg (by simp), createRangeFilter, if_neg (by simp [hall])]
  have hholds : holds [r] = fun v => r.includes (exactly v) := by
    funext v
    simp [holds]
  rw [hfilter, hholds, decides_single_iff]
  constructor
  · rintro ⟨hwraps, hnull⟩
    refine ⟨by simpa using hwraps, ?_, by simp, by simp⟩
    intro s hs
    obtain rfl : r = s := by simpa using hs
    exact hnull
  · intro h
    exact ⟨h.noWrap r (by simp), h.lone r rfl⟩

/-- For a domain of longs that is neither all nor none, `toFilter` returns a
filter that accepts exactly the longs of the domain, and null exactly when the
domain allows it, if and only if the domain is of none of the four inexact
kinds. -/
theorem toFilter_exact_iff (d : Domain longColumn)
    (hall : d.isAll = false) (hnone : d.isNone = false) :
    (∃ f, toFilter (.integer id) d = .ok f ∧
        (∀ v, f.testLong v = .ok (d.includesNullableValue (some v))) ∧
        f.testNull = d.includesNullableValue none) ↔
      ExactlyFilterable (SortedRangeSet.getOrderedRanges d.values) d.nullAllowed := by
  obtain ⟨values, nullAllowed⟩ := d
  have hcontains : ∀ v, Domain.includesNullableValue
      (⟨values, nullAllowed⟩ : Domain longColumn) (some v) =
        holds values.getOrderedRanges v :=
    containsValue_eq_holds values
  have hcanonical := values.separated_getOrderedRanges
  simp only [hcontains]
  rcases toFilter_cases (.integer id) values nullAllowed hall hnone with
    ⟨hranges, rfl, hfilter⟩ | ⟨hranges, rfl, hfilter⟩ | ⟨hne, hnotAll, hfilter⟩
  · have hmem : ∀ v : Int64, (Range.all : Range Int64).includes (exactly v) = true :=
      fun v => Range.includes_iff.mpr (Range.mem_all _)
    rw [hfilter, hranges]
    refine iff_of_true ⟨.isNotNull, rfl, ?_, rfl⟩ ⟨?_, by simp, by simp, by simp⟩
    · intro v
      simp [TupleDomainFilter.testLong, holds, hmem]
    · intro s hs
      obtain rfl : s = Range.all := by simpa using hs
      rintro (h | h) <;> cases h
  · rw [hfilter, hranges]
    exact iff_of_true ⟨.isNull, rfl, fun v => rfl, rfl⟩
      ⟨by simp, by simp, by simp, by simp⟩
  rw [hfilter]
  rcases hranges : values.getOrderedRanges with _ | ⟨first, _ | ⟨second, rest⟩⟩
  · exact absurd hranges hne
  · exact decides_lone_iff (hnotAll first hranges) nullAllowed
  · rw [hranges] at hcanonical
    exact decides_several_iff (by simp) hcanonical nullAllowed

/-- The longs above the greatest one: a domain without values. -/
def aboveGreatestLong : Domain longColumn where
  values := (⟨[((Range.greaterThan Int64.maxValue).low,
    Range.greaterThan Int64.maxValue)], Canonical.singleton⟩ :
      SortedRangeSet (OrderableType.other : OrderableType Int64))
  nullAllowed := false

/-- The filter of the domain above the greatest long accepts zero, which the
domain does not include. -/
theorem toFilter_aboveGreatestLong_not_exact :
    aboveGreatestLong.isAll = false ∧ aboveGreatestLong.isNone = false ∧
      ¬∃ f, toFilter (.integer id) aboveGreatestLong = .ok f ∧
        (∀ v, f.testLong v = .ok (aboveGreatestLong.includesNullableValue (some v))) ∧
        f.testNull = aboveGreatestLong.includesNullableValue none := by
  refine ⟨by decide, by decide, ?_⟩
  rintro ⟨f, hf, hexact, -⟩
  have hzero := hexact 0
  rw [← Except.ok.inj hf] at hzero
  exact absurd hzero (by decide)

/-- The longs up to zero, with null. -/
def upToZero : Domain longColumn where
  values := (⟨[((Range.lessThanOrEqual (0 : Int64)).low, Range.lessThanOrEqual 0)],
    Canonical.singleton⟩ : SortedRangeSet (OrderableType.other : OrderableType Int64))
  nullAllowed := true

theorem toFilter_upToZero_exact_iff :
    upToZero.isAll = false ∧ upToZero.isNone = false ∧
      ((∃ f, toFilter (.integer id) upToZero = .ok f ∧
        (∀ v, f.testLong v = .ok (upToZero.includesNullableValue (some v))) ∧
        f.testNull = upToZero.includesNullableValue none) ↔
      ExactlyFilterable (SortedRangeSet.getOrderedRanges upToZero.values)
        upToZero.nullAllowed) :=
  ⟨by decide, by decide, toFilter_exact_iff upToZero (by decide) (by decide)⟩

end Presto.Orc.TupleDomainFilterUtils
