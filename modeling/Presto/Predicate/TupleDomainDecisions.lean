import Mathlib.Data.Set.Basic
import Presto.Predicate.TupleDomainLaws

/-!
# Decisions about tuple domains

A tuple domain that is not none is a product of its columns, so its tuples
determine what it allows at each column.  Over types that determine their
domains by their values this recovers the map, and the questions about tuple
domains are answered exactly.
-/

namespace Presto.Predicate

open ColumnDomains

universe u

variable {C : Type u} [DecidableEq C] {value : C → Type u}
  {types : (c : C) → ColumnType (value c)}

namespace ColumnDomains

variable {m : ColumnDomains types}

theorem equals_iff_lookup {n : ColumnDomains types} :
    m.equals n = true ↔ m.keys.length = n.keys.length ∧
      ∀ c d, m.lookup c = some d → ∃ d', n.lookup c = some d' ∧ d.equals d' = true := by
  rw [equals, Bool.and_eq_true, List.all_eq_true]
  refine and_congr (by simp [AList.keys, List.keys]) ?_
  constructor
  · intro h c d hd
    have hentry := h ⟨c, d⟩ (AList.mem_lookup_iff.mp hd)
    cases hn : n.lookup c with
    | none => simp [hn] at hentry
    | some d' => exact ⟨d', rfl, by simpa [hn] using hentry⟩
  · rintro h ⟨c, d⟩ hentry
    obtain ⟨d', hd', hequals⟩ := h c d (AList.mem_lookup_iff.mpr hentry)
    rw [hd']
    exact hequals

/-- Equal maps mention the same columns. -/
theorem mem_iff_of_equals {n : ColumnDomains types} (h : m.equals n = true) (c : C) :
    c ∈ m ↔ c ∈ n := by
  obtain ⟨hlength, hlookup⟩ := equals_iff_lookup.mp h
  have hsubset : m.keys ⊆ n.keys := by
    intro c hc
    obtain ⟨d, hd⟩ := mem_iff_exists_lookup.mp hc
    obtain ⟨d', hd', -⟩ := hlookup c d hd
    exact mem_iff_exists_lookup.mpr ⟨d', hd'⟩
  have hperm : m.keys.Perm n.keys :=
    (List.subperm_of_subset m.keys_nodup hsubset).perm_of_length_le hlength.ge
  exact hperm.mem_iff

theorem allows_iff_of_equals (hagrees : ∀ c, (types c).EqualToAgrees)
    {n : ColumnDomains types} (h : m.equals n = true) (c : C) (v : Option (value c)) :
    m.Allows c v ↔ n.Allows c v := by
  by_cases hc : c ∈ m
  · obtain ⟨d, hd⟩ := mem_iff_exists_lookup.mp hc
    obtain ⟨d', hd', hequals⟩ := (equals_iff_lookup.mp h).2 c d hd
    rw [allows_of_lookup hd, allows_of_lookup hd',
      Domain.includesNullableValue_eq_of_equals (hagrees c) hequals]
  · have hn : c ∉ n := fun hn => hc ((mem_iff_of_equals h c).mpr hn)
    exact iff_of_true (allows_of_notMem hc v) (allows_of_notMem hn v)

end ColumnDomains

namespace TupleDomain

theorem tuples_eq_of_equals (hagrees : ∀ c, (types c).EqualToAgrees)
    {d other : TupleDomain types} (h : d.equals other = true) : d.tuples = other.tuples := by
  unfold equals at h
  cases hd : d.domains with
  | none =>
      cases hother : other.domains with
      | none =>
          rw [tuples_of_isNone (d := d) (by simp [isNone, hd]),
            tuples_of_isNone (d := other) (by simp [isNone, hother])]
      | some n => simp [hd, hother] at h
  | some m =>
      cases hother : other.domains with
      | none => simp [hd, hother] at h
      | some n =>
          rw [hd, hother] at h
          ext t
          rw [mem_tuples_of_domains hd, mem_tuples_of_domains hother]
          refine forall_congr' ?_
          intro c
          exact allows_iff_of_equals hagrees h c (t c)

/-- Changing one column of an allowed tuple keeps it allowed exactly for the
values that the column allows. -/
theorem update_mem_tuples_iff {d : TupleDomain types} (hd : d.domains = some m)
    {t : (c : C) → Option (value c)} (ht : t ∈ d.tuples) (c : C) (v : Option (value c)) :
    Function.update t c v ∈ d.tuples ↔ m.Allows c v := by
  rw [mem_tuples_of_domains hd] at ht ⊢
  constructor
  · intro h
    have hc := h c
    rwa [Function.update_self] at hc
  · intro hv c'
    by_cases hc : c' = c
    · subst hc
      rwa [Function.update_self]
    · rw [Function.update_of_ne hc]
      exact ht c'

/-! ## Types that determine their domains -/

section Exact

variable (htypes : ∀ c, (types c).DenseOrInfinite)

include htypes

variable {d : TupleDomain types}

theorem exists_allows (hd : d.domains = some m) (c : C) : ∃ v, m.Allows c v := by
  cases hlookup : m.lookup c with
  | none => exact ⟨Option.none, allows_of_notMem (AList.lookup_eq_none.mp hlookup) _⟩
  | some domain =>
      have hnone := (d.normalized m hd ⟨c, domain⟩ (AList.mem_lookup_iff.mp hlookup)).1
      rw [Bool.eq_false_iff, ne_eq, Domain.isNone_iff (htypes c), not_forall] at hnone
      obtain ⟨v, hv⟩ := hnone
      exact ⟨v, (allows_of_lookup hlookup v).mpr (by simpa using hv)⟩

theorem tuples_nonempty (hnone : d.isNone = false) : d.tuples.Nonempty := by
  cases hd : d.domains with
  | none => simp [isNone, hd] at hnone
  | some m =>
      choose t ht using exists_allows htypes hd
      exact ⟨t, (mem_tuples_of_domains hd t).mpr ht⟩

theorem isNone_iff_tuples (d : TupleDomain types) : d.isNone = true ↔ d.tuples = ∅ := by
  refine ⟨tuples_of_isNone, ?_⟩
  intro hempty
  by_contra hnone
  have hnonempty := tuples_nonempty htypes (Bool.eq_false_iff.mpr hnone)
  rw [hempty] at hnonempty
  exact Set.not_nonempty_empty hnonempty

/-- A mentioned column refuses some value. -/
theorem exists_not_allows (hd : d.domains = some m) {c : C}
    (hc : c ∈ m) : ∃ v, ¬m.Allows c v := by
  obtain ⟨domain, hdomain⟩ := mem_iff_exists_lookup.mp hc
  have hall := (d.normalized m hd ⟨c, domain⟩ (AList.mem_lookup_iff.mp hdomain)).2
  rw [Bool.eq_false_iff, ne_eq, Domain.isAll_iff (htypes c), not_forall] at hall
  obtain ⟨v, hv⟩ := hall
  exact ⟨v, fun hallows => hv ((allows_of_lookup hdomain v).mp hallows)⟩

/-- Maps that allow the same values mention the same columns. -/
theorem mem_of_allows_iff {n : ColumnDomains types} (hd : d.domains = some m)
    (hallows : ∀ (c : C) (v : Option (value c)), m.Allows c v ↔ n.Allows c v) {c : C}
    (hc : c ∈ m) : c ∈ n := by
  obtain ⟨v, hv⟩ := exists_not_allows htypes hd hc
  by_contra hn
  exact hv ((hallows c v).mpr (allows_of_notMem hn v))

theorem equals_iff_tuples (d other : TupleDomain types) :
    d.equals other = true ↔ d.tuples = other.tuples := by
  refine ⟨tuples_eq_of_equals fun c => (htypes c).equalToAgrees, ?_⟩
  intro htuples
  have hnone : d.isNone = true ↔ other.isNone = true := by
    rw [isNone_iff_tuples htypes, isNone_iff_tuples htypes, htuples]
  unfold equals
  cases hd : d.domains with
  | none =>
      have hother : other.domains = Option.none := by
        simpa [isNone, hd] using hnone
      rw [hother]
  | some m =>
      cases hother : other.domains with
      | none => simp [isNone, hd, hother] at hnone
      | some n =>
          obtain ⟨t, ht⟩ := tuples_nonempty htypes (d := d) (by simp [isNone, hd])
          have hallows : ∀ (c : C) (v : Option (value c)), m.Allows c v ↔ n.Allows c v := by
            intro c v
            rw [← update_mem_tuples_iff hd ht, htuples, update_mem_tuples_iff hother (htuples ▸ ht)]
          have hkeys : ∀ c, c ∈ m ↔ c ∈ n := fun c =>
            ⟨mem_of_allows_iff htypes hd hallows,
              mem_of_allows_iff htypes hother fun c v => (hallows c v).symm⟩
          rw [equals_iff_lookup]
          refine ⟨?_, ?_⟩
          · have hperm : m.keys.Perm n.keys :=
              (List.perm_ext_iff_of_nodup m.keys_nodup n.keys_nodup).mpr hkeys
            exact hperm.length_eq
          · intro c domain hdomain
            have hc : c ∈ n :=
              (hkeys c).mp (mem_iff_exists_lookup.mpr ⟨_, hdomain⟩)
            obtain ⟨domain', hdomain'⟩ := mem_iff_exists_lookup.mp hc
            refine ⟨domain', hdomain', ?_⟩
            rw [Domain.equals_iff (htypes c)]
            intro v
            rw [Bool.eq_iff_iff, ← allows_of_lookup hdomain, ← allows_of_lookup hdomain', hallows]

/-- The hull of two tuple domains adds nothing to the first exactly when it
holds the tuples of the second. -/
theorem columnWiseHull_pair_eq_iff
    (d : TupleDomain types) {other : TupleDomain types} (hother : other.isNone = false) :
    columnWiseHull [d, other] = d.tuples ↔ other.tuples ⊆ d.tuples := by
  constructor
  · intro h
    rw [← h]
    exact tuples_subset_columnWiseHull (by simp)
  · intro hsubset
    refine Set.Subset.antisymm ?_ (tuples_subset_columnWiseHull (by simp))
    rintro t ⟨-, hallows⟩
    obtain ⟨t₀, ht₀⟩ := tuples_nonempty htypes hother
    obtain ⟨m, hd, -⟩ := mem_tuples_iff.mp (hsubset ht₀)
    rw [mem_tuples_of_domains hd]
    intro c
    obtain ⟨d', hd', n, hn, hv⟩ := hallows c
    have hd'' : d' = d ∨ d' = other := by simpa using hd'
    rcases hd'' with rfl | rfl
    · obtain rfl : m = n := Option.some.inj (hd.symm.trans hn)
      exact hv
    · -- the second's tuples are a product: vary one column of one of them
      have hupdate := hsubset ((update_mem_tuples_iff hn ht₀ c (t c)).mpr hv)
      exact (update_mem_tuples_iff hd (hsubset ht₀) c (t c)).mp hupdate

theorem contains_spec (d other : TupleDomain types) :
    ∃ answer, d.contains other = .ok answer ∧ (answer = true ↔ other.tuples ⊆ d.tuples) := by
  unfold contains
  by_cases hnone : other.isNone = true
  · refine ⟨true, by rw [if_pos hnone], ?_⟩
    rw [tuples_of_isNone hnone]
    simp
  · obtain ⟨united, hunited, htuples⟩ := columnWiseUnion_spec d [other]
    refine ⟨united.equals d, by rw [if_neg hnone, hunited]; rfl, ?_⟩
    rw [equals_iff_tuples htypes, htuples,
      columnWiseHull_pair_eq_iff htypes d (Bool.eq_false_iff.mpr hnone)]

theorem overlaps_spec
    (d other : TupleDomain types) {identical : Bool} (h : identical = true → d = other) :
    ∃ answer, d.overlaps other identical = .ok answer ∧
      (answer = true ↔ (d.tuples ∩ other.tuples).Nonempty) := by
  obtain ⟨common, hcommon, htuples⟩ := intersect_spec d other h
  refine ⟨!common.isNone, by rw [overlaps, hcommon]; rfl, ?_⟩
  rw [← htuples, Bool.not_eq_true', Bool.eq_false_iff, ne_eq, isNone_iff_tuples htypes,
    Set.nonempty_iff_ne_empty]

end Exact

/-- Intersection is intersection of tuples.  The column-wise union of a nonempty
list allows the tuples all of whose values some argument allows, provided one
argument is not none; the provision follows as soon as there is a column.  Over
dense orders without endpoints that agree with their equality and infinite comparable
types `contains` and `overlaps` decide inclusion and a common tuple. -/
theorem operations_on_tuples (types : (c : C) → ColumnType (value c)) :
    (∀ (d other : TupleDomain types) (identical : Bool), (identical = true → d = other) →
      ∃ r, d.intersect other identical = .ok r ∧ r.tuples = d.tuples ∩ other.tuples) ∧
    columnWiseUnion ([] : List (TupleDomain types)) =
      .error (.illegalArgument "tupleDomains must have at least one element") ∧
    (∀ (first : TupleDomain types) (rest : List (TupleDomain types)), ∃ r,
      columnWiseUnion (first :: rest) = .ok r ∧
      r.tuples = {t | (∃ d ∈ first :: rest, d.isNone = false) ∧
        ∀ c, ∃ d ∈ first :: rest, d.Allows c (t c)} ∧
      (Nonempty C → r.tuples = {t | ∀ c, ∃ d ∈ first :: rest, d.Allows c (t c)}) ∧
      ∀ d ∈ first :: rest, d.tuples ⊆ r.tuples) ∧
    ((∀ c, (types c).DenseOrInfinite) → ∀ d other : TupleDomain types,
      (∃ answer, d.contains other = .ok answer ∧
        (answer = true ↔ other.tuples ⊆ d.tuples)) ∧
      ∀ identical : Bool, (identical = true → d = other) →
        ∃ answer, d.overlaps other identical = .ok answer ∧
          (answer = true ↔ (d.tuples ∩ other.tuples).Nonempty)) := by
  refine ⟨fun d other identical h => intersect_spec d other h, rfl, ?_, ?_⟩
  · intro first rest
    obtain ⟨r, hr, htuples⟩ := columnWiseUnion_spec first rest
    refine ⟨r, hr, htuples, ?_, ?_⟩
    · rintro ⟨c⟩
      rw [htuples]
      ext t
      refine and_iff_right_of_imp ?_
      intro hallows
      obtain ⟨d, hd, m, hm, -⟩ := hallows c
      exact ⟨d, hd, by simp [isNone, hm]⟩
    · intro d hd
      rw [htuples]
      exact tuples_subset_columnWiseHull hd
  · intro htypes d other
    exact ⟨contains_spec htypes d other, fun _ h => overlaps_spec htypes d other h⟩

/-- Without any column, no argument but none is still no tuple, although every
column is allowed. -/
theorem columnWiseUnion_noColumns :
    let types : Empty → ColumnType Bool := fun _ => .incomparable
    let nothing : TupleDomain types := none
    ∃ r, columnWiseUnion [nothing, nothing] = .ok r ∧
      r.tuples ≠ {t | ∀ c, ∃ d ∈ [nothing, nothing], d.Allows c (t c)} := by
  intro types nothing
  refine ⟨none, rfl, ?_⟩
  rw [tuples_none]
  intro h
  have hmem : (fun c : Empty => c.elim) ∈
      {t : Empty → Option Bool | ∀ c, ∃ d ∈ [nothing, nothing], d.Allows c (t c)} :=
    fun c => c.elim
  rw [← h] at hmem
  exact hmem

end TupleDomain
end Presto.Predicate
