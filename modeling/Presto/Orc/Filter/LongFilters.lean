import Mathlib.Data.Finset.Card
import Mathlib.Data.Finset.Lattice.Lemmas
import Mathlib.Data.Int.Interval
import Presto.Orc.Filter.TupleDomainFilter

/-!
# What the filters on longs accept

A multi-range accepts the union of its ranges, a bit set and a hash table the
values they were built from.  The hash table does so as long as its size,
computed in 32 bits, does not wrap around.
-/

namespace Presto.Orc

open Support OpenAddressing Result List

theorem checkArgument_true (message : String) :
    checkArgument true message = .ok () := rfl

variable {condition : Bool}

theorem checkArgument_of (h : condition = true) (message : String) :
    checkArgument condition message = .ok () := by
  rw [h, checkArgument_true]

theorem checkArgument_eq_ok_iff {message : String} :
    checkArgument condition message = .ok () ↔ condition = true := by
  cases condition with
  | true | false => simp [checkArgument]

namespace BigintRange

variable {v : Int64} {f : BigintRange}

theorem testLong_iff : f.testLong v = true ↔ f.lower ≤ v ∧ v ≤ f.upper := by
  simp [testLong]

theorem testLong_iff_of_isSingleValue (h : f.isSingleValue = true) :
    f.testLong v = true ↔ f.lower = v := by
  have hbounds : f.upper = f.lower := by simpa [isSingleValue] using h
  rw [testLong_iff, hbounds]
  exact ⟨fun h => le_antisymm h.1 h.2, fun h => ⟨h.le, h.ge⟩⟩

end BigintRange

/-! ## Multi-ranges -/

namespace BigintMultiRange

/-- The check of neighbours makes all ranges disjoint. -/
theorem checkDisjoint_eq_ok_iff (ranges : List BigintRange) :
    checkDisjoint ranges = .ok () ↔ ranges.Pairwise fun a b => a.upper ≤ b.lower := by
  have htrans : IsTrans BigintRange fun a b => a.upper ≤ b.lower :=
    ⟨fun a b c hab hbc => hab.trans (b.le.trans hbc)⟩
  rw [← isChain_iff_pairwise]
  induction ranges with
  | nil => simp [checkDisjoint]
  | cons previous rest ih =>
      cases rest with
      | nil => simp [checkDisjoint]
      | cons next rest =>
          rw [checkDisjoint, isChain_cons_cons, bind_eq_ok_iff]
          constructor
          · rintro ⟨_, hcheck, hrest⟩
            exact ⟨by simpa using checkArgument_eq_ok_iff.mp hcheck, ih.mp hrest⟩
          · rintro ⟨hle, hrest⟩
            exact ⟨(), checkArgument_of (by simpa using hle) _, ih.mpr hrest⟩

variable {ranges : List BigintRange}

theorem of_eq_ok (nullAllowed : Bool)
    (hne : ranges ≠ []) (h : ranges.Pairwise fun a b => a.upper ≤ b.lower) :
    of ranges nullAllowed = .ok ⟨ranges, nullAllowed⟩ := by
  rw [of, checkArgument_of (by simpa using hne), (checkDisjoint_eq_ok_iff ranges).mpr h, bind_ok]
  rfl

theorem of_inv {nullAllowed : Bool} {f : BigintMultiRange} (h : of ranges nullAllowed = .ok f) :
    f = ⟨ranges, nullAllowed⟩ ∧ ranges.Pairwise fun a b => a.upper ≤ b.lower := by
  obtain ⟨_, -, h⟩ := bind_eq_ok_iff.mp h
  obtain ⟨_, hcheck, h⟩ := bind_eq_ok_iff.mp h
  have heq : (⟨ranges, nullAllowed⟩ : BigintMultiRange) = f := Except.ok.inj h
  exact ⟨heq.symm, (checkDisjoint_eq_ok_iff ranges).mp hcheck⟩

/-- Binary search of the lower bounds finds the only range that can hold a
value. -/
theorem testLong_eq (nullAllowed : Bool)
    (h : ranges.Pairwise fun a b => a.upper ≤ b.lower) (v : Int64) :
    testLong ⟨ranges, nullAllowed⟩ v = .ok (ranges.any fun range => range.testLong v) := by
  have hsorted : (longLowerBounds ranges).Pairwise (· ≤ ·) := by
    unfold longLowerBounds
    rw [pairwise_map]
    exact h.imp fun {a b} hab => a.le.trans hab
  have hlower : ∀ {i : ℕ} {range : BigintRange}, ranges[i]? = some range →
      (longLowerBounds ranges)[i]? = some range.lower := by
    intro i range hi
    rw [longLowerBounds, getElem?_map, hi]
    rfl
  unfold testLong
  rcases binarySearch_spec hsorted v with ⟨i, hi, hget⟩ | ⟨i, hle, hi, hsplit⟩
  · -- a hit: the value is the lower bound of a range
    have hany : (ranges.any fun range => range.testLong v) = true := by
      rw [longLowerBounds, getElem?_map, Option.map_eq_some_iff] at hget
      obtain ⟨range, hrange, hv⟩ := hget
      refine any_eq_true.mpr ⟨range, mem_of_getElem? hrange, ?_⟩
      exact BigintRange.testLong_iff.mpr ⟨hv.le, hv ▸ range.le⟩
    simp only [hi]
    rw [if_pos (by omega), hany]
  · simp only [hi]
    rw [if_neg (by omega), show -(-((i : ℤ) + 1)) - 1 = (i : ℤ) by ring]
    cases i with
    | zero =>
        have hnone : (ranges.any fun range => range.testLong v) = false := by
          rw [any_eq_false]
          intro range hrange
          obtain ⟨j, hj⟩ := mem_iff_getElem?.mp hrange
          have hlt : v < range.lower := (hsplit j _ (hlower hj)).2 (by omega)
          rw [BigintRange.testLong_iff]
          exact fun hmem => absurd hmem.1 (not_le.mpr hlt)
        simp [hnone]
    | succ i =>
        rw [if_neg (by omega), show (((i + 1 : ℕ) : ℤ) - 1).toNat = i by omega]
        have hlength : i < ranges.length := by
          rw [longLowerBounds, length_map] at hle
          omega
        rw [getElem?_eq_getElem hlength]
        have hget : ranges[i]? = some ranges[i] := getElem?_eq_getElem hlength
        have hbelow : ranges[i].lower < v := (hsplit i _ (hlower hget)).1 (by omega)
        -- earlier ranges end before this one starts, later ones start above the value
        have honly : (ranges.any fun range => range.testLong v) = ranges[i].testLong v := by
          rw [Bool.eq_iff_iff, any_eq_true]
          constructor
          · rintro ⟨range, hrange, hmem⟩
            obtain ⟨j, hj⟩ := mem_iff_getElem?.mp hrange
            rw [BigintRange.testLong_iff] at hmem
            rcases Nat.lt_trichotomy j i with hji | rfl | hij
            · obtain ⟨hj', rfl⟩ := List.getElem?_eq_some_iff.mp hj
              have hend := pairwise_iff_getElem.mp h j i hj' hlength hji
              exact absurd (hmem.2.trans hend) (not_le.mpr hbelow)
            · rw [hget] at hj
              obtain rfl : ranges[j] = range := by simpa using hj
              exact BigintRange.testLong_iff.mpr hmem
            · have hlt : v < range.lower := (hsplit j _ (hlower hj)).2 (by omega)
              exact absurd hmem.1 (not_le.mpr hlt)
          · exact fun hmem => ⟨ranges[i], getElem_mem hlength, hmem⟩
        simp [honly]

end BigintMultiRange

theorem outside_iff (v min max : Int64) :
    (decide (v < min) || decide (max < v)) = true ↔ ¬(min ≤ v ∧ v ≤ max) := by
  rw [not_and_or]
  simp

/-! ## Bit sets -/

namespace BigintValuesUsingBitmask

/-- Distances within the 32-bit range survive the casts. -/
theorem toInt_sub_toInt32 {min max : Int64} (hmin : min ≤ v) (hmax : v ≤ max)
    (hrange : max.toInt - min.toInt + 1 ≤ 2 ^ 31 - 1) :
    (v - min).toInt32.toInt = v.toInt - min.toInt := by
  rw [Int64.le_iff_toInt_le] at hmin hmax
  have hsub : (v - min).toInt = v.toInt - min.toInt :=
    toInt_sub_of_lt (by omega) (by omega)
  rw [toInt_toInt32_of_lt (by omega) (by omega), hsub]

theorem foldlM_setBit {min max : Int64} (hrange : max.toInt - min.toInt + 1 ≤ 2 ^ 31 - 1)
    (values : List Int64) :
    ∀ bitmask : ℕ, (∀ v ∈ values, min ≤ v ∧ v ≤ max) →
      ∃ result, values.foldlM (setBit min) bitmask = .ok result ∧
        ∀ i, result.testBit i = (bitmask.testBit i ||
          values.any fun v => (v.toInt - min.toInt).toNat == i) := by
  induction values with
  | nil =>
      intro bitmask _
      exact ⟨bitmask, rfl, by simp⟩
  | cons v rest ih =>
      intro bitmask hbounds
      obtain ⟨hmin, hmax⟩ := hbounds v (by simp)
      have hindex := toInt_sub_toInt32 hmin hmax hrange
      have hnonneg : min.toInt ≤ v.toInt := Int64.le_iff_toInt_le.mp hmin
      have hset : setBit min bitmask v =
          .ok (bitmask ||| 2 ^ (v.toInt - min.toInt).toNat) := by
        rw [setBit, hindex]
        exact if_neg (by omega)
      obtain ⟨result, hresult, hbits⟩ :=
        ih (bitmask ||| 2 ^ (v.toInt - min.toInt).toNat)
          fun w hw => hbounds w (by simp [hw])
      refine ⟨result, ?_, ?_⟩
      · rw [foldlM_cons, hset]
        exact hresult
      · intro i
        rw [hbits, Nat.testBit_or, Nat.testBit_two_pow, Bool.or_assoc]
        congr 2

/-- A bit set over fewer than `2 ^ 31` longs accepts its values. -/
theorem of_spec {min max : Int64} {values : List Int64} (nullAllowed : Bool)
    (hlt : min < max) (hlength : 1 < values.length) (hbounds : ∀ v ∈ values, min ≤ v ∧ v ≤ max)
    (hrange : max.toInt - min.toInt + 1 ≤ 2 ^ 31 - 1) :
    ∃ f, of min max values nullAllowed = .ok f ∧ f.nullAllowed = nullAllowed ∧
      ∀ v, f.testLong v = .ok (decide (v ∈ values)) := by
  obtain ⟨bitmask, hbitmask, hbits⟩ := foldlM_setBit hrange values 0 hbounds
  have hltInt : min.toInt < max.toInt := Int64.lt_iff_toInt_lt.mp hlt
  have hsub : (max - min).toInt = max.toInt - min.toInt :=
    toInt_sub_of_lt (by omega) (by omega)
  have hsize : (max - min + 1).toInt = max.toInt - min.toInt + 1 := by
    rw [toInt_add_one, hsub]
    intro heq
    rw [heq, Int64.toInt_maxValue] at hsub
    omega
  have hsize32 : (max - min + 1).toInt32.toInt = max.toInt - min.toInt + 1 := by
    rw [toInt_toInt32_of_lt (by omega) (by omega), hsize]
  refine ⟨⟨bitmask, min, max, nullAllowed⟩, ?_, rfl, ?_⟩
  · rw [of, checkArgument_of (by simpa using hlt), checkArgument_of (by simpa using hlength)]
    rw [hsize, hsize32, if_neg (by simp), if_neg (by omega), hbitmask]
    rfl
  · intro v
    unfold testLong
    by_cases hinside : min ≤ v ∧ v ≤ max
    · obtain ⟨hmin, hmax⟩ := hinside
      have hindex := toInt_sub_toInt32 hmin hmax hrange
      have hnonneg : min.toInt ≤ v.toInt := Int64.le_iff_toInt_le.mp hmin
      rw [if_neg (by simp [hmin, hmax]), getBit, hindex]
      rw [if_neg (by omega), hbits, Nat.zero_testBit, Bool.false_or]
      congr 1
      rw [Bool.eq_iff_iff, any_eq_true, decide_eq_true_eq]
      constructor
      · rintro ⟨w, hw, heq⟩
        have hwmin : min.toInt ≤ w.toInt := Int64.le_iff_toInt_le.mp (hbounds w hw).1
        have hvw : w.toInt = v.toInt := by
          simp only [beq_iff_eq] at heq
          omega
        rwa [← Int64.toInt_inj.mp hvw]
      · intro hv
        exact ⟨v, hv, by simp⟩
    · have hnot : v ∉ values := fun hv => hinside (hbounds v hv)
      rw [if_pos ((outside_iff v min max).mpr hinside)]
      simp [hnot]

end BigintValuesUsingBitmask

/-! ## Hash tables -/

namespace BigintValuesUsingHashTable

theorem foldl_add (values : List Int64) :
    ∀ (table : List Int64) (contains : Bool),
      values.foldl add (table, contains) =
        (insertAll isEmptyMarker (fun _ _ => false)
          (position table.length) table (values.filter (· != EMPTY_MARKER)),
          contains || values.any (· == EMPTY_MARKER)) := by
  induction values with
  | nil => simp [insertAll]
  | cons value rest ih =>
      intro table contains
      rw [foldl_cons]
      by_cases hmarker : value = EMPTY_MARKER
      · have hstep : add (table, contains) value = (table, true) := by
          simp [add, hmarker]
        rw [hstep, ih]
        simp [hmarker]
      · have hstep : add (table, contains) value =
            (insert isEmptyMarker (fun _ => false) table
              (position table.length value) value, contains) := by
          simp [add, hmarker]
        have hne : (value == EMPTY_MARKER) = false := by simpa using hmarker
        rw [hstep, ih, length_insert, filter_cons_of_pos (by simpa using hmarker),
          any_cons, hne]
        rfl

variable {values : List Int64} {f : BigintValuesUsingHashTable}

/-- A successful construction: the table has the computed size. -/
theorem of_inv {min max : Int64} {nullAllowed : Bool} (h : of min max values nullAllowed = .ok f) :
    0 ≤ highestOneBit (wrapInt (values.length * 3)) ∧
      f = ⟨min, max, insertAll isEmptyMarker (fun _ _ => false)
        (position (highestOneBit (wrapInt (values.length * 3))).toNat)
        (replicate (highestOneBit (wrapInt (values.length * 3))).toNat EMPTY_MARKER)
        (values.filter (· != EMPTY_MARKER)), values.any (· == EMPTY_MARKER),
        nullAllowed⟩ := by
  obtain ⟨_, -, h⟩ := bind_eq_ok_iff.mp h
  obtain ⟨_, -, h⟩ := bind_eq_ok_iff.mp h
  by_cases hsize : highestOneBit (wrapInt (values.length * 3)) < 0
  · rw [if_pos hsize] at h
    simp at h
  · rw [if_neg hsize, foldl_add, length_replicate] at h
    exact ⟨not_lt.mp hsize, (Except.ok.inj h).symm⟩

theorem of_eq_ok {min max : Int64} (nullAllowed : Bool) (hlt : min < max)
    (hlength : 1 < values.length) (hsize : 0 ≤ highestOneBit (wrapInt (values.length * 3))) :
    ∃ f, of min max values nullAllowed = .ok f := by
  rw [of, checkArgument_of (by simpa using hlt), checkArgument_of (by simpa using hlength), bind_ok]
  rw [if_neg (not_lt.mpr hsize)]
  exact ⟨_, rfl⟩

/-- The marker is accepted by its flag only: no occupied slot holds it. -/
theorem testLong_marker (f : BigintValuesUsingHashTable) :
    f.testLong EMPTY_MARKER = f.containsEmptyMarker := by
  unfold testLong
  cases hcontains : f.containsEmptyMarker with
  | true => simp
  | false =>
      have hlookup : lookup isEmptyMarker (· == EMPTY_MARKER) f.hashTable
          (position f.hashTable.length EMPTY_MARKER) = false := by
        rw [Bool.eq_false_iff]
        intro h
        obtain ⟨slot, -, hfree, hsame⟩ := exists_mem_of_lookup h
        simp [isEmptyMarker, hsame] at hfree
      simp [hlookup]

theorem testLong_of_ne_marker (hmarker : v ≠ EMPTY_MARKER) :
    f.testLong v = (decide (f.min ≤ v ∧ v ≤ f.max) &&
      lookup isEmptyMarker (· == v) f.hashTable
        (position f.hashTable.length v)) := by
  have hne : (v == EMPTY_MARKER) = false := by simpa using hmarker
  unfold testLong
  rw [hne]
  by_cases hinside : f.min ≤ v ∧ v ≤ f.max
  · simp [hinside]
  · simp [hinside]

/-- While three times the number of values fits an `int`, the table has room
for all of them. -/
theorem of_spec {min max : Int64} (nullAllowed : Bool)
    (hlt : min < max) (hlength : 1 < values.length)
    (hbounds : ∀ v ∈ values, min ≤ v ∧ v ≤ max) (hsmall : 3 * values.length < 2 ^ 31) :
    ∃ f, of min max values nullAllowed = .ok f ∧ f.nullAllowed = nullAllowed ∧
      ∀ v, f.testLong v = decide (v ∈ values) := by
  have hwrap : wrapInt (values.length * 3) = values.length * 3 := by
    apply wrapInt_eq_self <;> norm_num at * <;> omega
  have hpos : (0 : ℤ) < values.length * 3 := by omega
  have hlarge := lt_two_mul_highestOneBit hpos
  obtain ⟨f, hf⟩ := of_eq_ok nullAllowed hlt hlength
    (by rw [hwrap]; exact highestOneBit_nonneg hpos.le)
  obtain ⟨-, hfields⟩ := of_inv hf
  rw [hwrap] at hfields
  generalize hsizeEq : (highestOneBit (values.length * 3)).toNat = size at hfields
  refine ⟨f, hf, by rw [hfields], ?_⟩
  intro v
  rw [hfields]
  by_cases hmarker : v = EMPTY_MARKER
  · rw [hmarker, testLong_marker, Bool.eq_iff_iff]
    simp
  · have hvfree : isEmptyMarker v = false := by simpa [isEmptyMarker] using hmarker
    have hfilter := length_filter_le (· != EMPTY_MARKER) values
    rw [testLong_of_ne_marker hmarker]
    -- the table holds exactly the values that are not the marker
    rw [length_insertAll, length_replicate, Bool.eq_iff_iff, Bool.and_eq_true,
      lookup_insertAll_iff v (by simp [isEmptyMarker]) (by simp) (by simp [isEmptyMarker])
        (by omega) hvfree (by simp), decide_eq_true_eq, decide_eq_true_eq, mem_filter]
    constructor
    · rintro ⟨-, hv, -⟩
      exact hv
    · intro hv
      exact ⟨hbounds v hv, hv, by simpa using hmarker⟩

/-- A table whose size has wrapped around is too small for the values. -/
theorem exists_rejected {min max : Int64} {nullAllowed : Bool}
    (h : of min max values nullAllowed = .ok f)
    (hnodup : values.Nodup) (hlarge : 2 ^ 31 ≤ 3 * values.length) :
    ∃ v ∈ values, f.testLong v = false := by
  obtain ⟨hsize, hfields⟩ := of_inv h
  by_contra hall
  have haccepted : ∀ v ∈ values, f.testLong v = true := by
    intro v hv
    by_contra hrejected
    exact hall ⟨v, hv, by simpa using hrejected⟩
  have hsubset : values ⊆ EMPTY_MARKER :: f.hashTable := by
    intro v hv
    by_cases hmarker : v = EMPTY_MARKER
    · simp [hmarker]
    · have htest := haccepted v hv
      rw [testLong_of_ne_marker hmarker, Bool.and_eq_true] at htest
      obtain ⟨slot, hslot, -, hsame⟩ := exists_mem_of_lookup htest.2
      obtain rfl : slot = v := by simpa using hsame
      exact mem_cons_of_mem _ hslot
  have hcard := (subperm_of_subset hnodup hsubset).length_le
  have htable : f.hashTable.length =
      (highestOneBit (wrapInt (values.length * 3))).toNat := by
    rw [hfields]
    simp [length_insertAll]
  rw [length_cons] at hcard
  have hwrapped : 2 ^ 32 ≤ (values.length : ℤ) * 3 := by
    by_contra hlt
    have hneg : wrapInt (values.length * 3) < 0 :=
      wrapInt_neg (by norm_num at *; omega) (by omega)
    have hnonneg := nonneg_of_highestOneBit hsize
    omega
  have hpow := highestOneBit_le_two_pow (wrapInt_lt (values.length * 3))
  omega

end BigintValuesUsingHashTable
end Presto.Orc
