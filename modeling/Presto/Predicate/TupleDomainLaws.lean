import Presto.Predicate.TupleDomain
import Presto.Support.ListUpdates

/-!
# Tuple domains as sets of tuples

Intersection is exact.  The column-wise union allows a tuple when every column
is allowed by some argument, which makes it an upper bound of the union.  When
the type of every column determines its domains by their values, the tuples of
a tuple domain determine its map, so `contains` and `overlaps` are exact.
-/

namespace Presto.Predicate

open ColumnDomains AList

universe u

variable {C : Type u} [DecidableEq C] {value : C → Type u}
  {types : (c : C) → ColumnType (value c)}

/-! ## Maps of domains -/

namespace ColumnDomains

variable {m : ColumnDomains types} {c : C}

theorem allows_iff_entries {v : Option (value c)} :
    m.Allows c v ↔ ∀ d, ⟨c, d⟩ ∈ m.entries → d.includesNullableValue v = true := by
  simp only [Allows, mem_lookup_iff]

theorem mem_iff_exists_lookup : c ∈ m ↔ ∃ d, m.lookup c = some d := by
  rw [← lookup_isSome, Option.isSome_iff_exists]

theorem allows_of_notMem (h : c ∉ m)
    (v : Option (value c)) : m.Allows c v := by
  intro d hd
  rw [lookup_eq_none.mpr h] at hd
  exact absurd hd (by simp)

theorem allows_of_lookup {d : Domain (types c)} (h : m.lookup c = some d)
    (v : Option (value c)) : m.Allows c v ↔ d.includesNullableValue v = true := by
  simp [Allows, h]

variable (m)

theorem allows_insert_self (c : C) (d : Domain (types c)) (v : Option (value c)) :
    Allows (m.insert c d) c v ↔ d.includesNullableValue v = true :=
  allows_of_lookup (lookup_insert m) v

theorem allows_insert_of_ne {c' : C} (h : c ≠ c') (d : Domain (types c')) (v : Option (value c)) :
    Allows (m.insert c' d) c v ↔ m.Allows c v := by
  rw [Allows, lookup_insert_ne h, Allows]

theorem allows_normalizeAndCopy (c : C) (v : Option (value c)) :
    m.normalizeAndCopy.Allows c v ↔ m.Allows c v := by
  rw [allows_iff_entries, allows_iff_entries]
  constructor
  · intro h d hd
    by_cases hall : d.isAll = true
    · exact Domain.includesNullableValue_of_isAll hall v
    · exact h d (List.mem_filter.mpr ⟨hd, by simpa using hall⟩)
  · intro h d hd
    exact h d (List.mem_filter.mp hd).1

variable {m}

/-- A column of an empty domain allows no value. -/
theorem not_allows_of_containsNoneDomain (h : m.containsNoneDomain = true) :
    ∃ c, ∀ v, ¬m.Allows c v := by
  obtain ⟨entry, hentry, hnone⟩ := List.any_eq_true.mp h
  refine ⟨entry.1, ?_⟩
  intro v hv
  have hincludes := allows_iff_entries.mp hv entry.2 hentry
  rw [Domain.includesNullableValue_eq_false_of_isNone hnone] at hincludes
  exact Bool.false_ne_true hincludes

end ColumnDomains

namespace TupleDomain

variable {d : TupleDomain types}

theorem mem_tuples_iff {t : (c : C) → Option (value c)} :
    t ∈ d.tuples ↔ ∃ m, d.domains = some m ∧ ∀ c, m.Allows c (t c) := by
  cases hd : d.domains with
  | none => simp [tuples, isNone, hd]
  | some m => simp [tuples, isNone, Allows, hd]

theorem mem_tuples_of_domains {m : ColumnDomains types} (h : d.domains = some m)
    (t : (c : C) → Option (value c)) : t ∈ d.tuples ↔ ∀ c, m.Allows c (t c) := by
  simp [mem_tuples_iff, h]

theorem tuples_of_isNone (h : d.isNone = true) : d.tuples = ∅ := by
  ext t
  simp [tuples, h]

theorem tuples_none : (none : TupleDomain types).tuples = ∅ :=
  tuples_of_isNone rfl

/-- Normalization keeps the tuples. -/
theorem mem_tuples_withColumnDomains (m : ColumnDomains types) (t : (c : C) → Option (value c)) :
    t ∈ (withColumnDomains m).tuples ↔ ∀ c, m.Allows c (t c) := by
  rw [withColumnDomains, create]
  split
  next h =>
    obtain ⟨c, hc⟩ := not_allows_of_containsNoneDomain h
    rw [tuples_of_isNone rfl]
    exact iff_of_false (Set.notMem_empty t) fun ht => hc (t c) (ht c)
  next =>
    rw [mem_tuples_of_domains rfl]
    refine forall_congr' ?_
    intro c
    exact m.allows_normalizeAndCopy c (t c)

theorem tuples_of_isAll (h : d.isAll = true) : d.tuples = Set.univ := by
  cases hd : d.domains with
  | none => simp [isAll, hd] at h
  | some m =>
      ext t
      have hempty : m.entries = [] := by simpa [isAll, hd] using h
      rw [mem_tuples_of_domains hd]
      refine iff_of_true ?_ (Set.mem_univ t)
      intro c
      rw [allows_iff_entries, hempty]
      simp

/-! ## Intersection -/

theorem intersectEntry_spec
    (intersected : ColumnDomains types) (entry : Sigma fun c => Domain (types c)) :
    ∃ m, intersectEntry intersected entry = .ok m ∧
      ∀ (c : C) (v : Option (value c)), m.Allows c v ↔ intersected.Allows c v ∧
        ∀ d, entry = ⟨c, d⟩ → d.includesNullableValue v = true := by
  obtain ⟨c', d'⟩ := entry
  unfold intersectEntry
  cases hlookup : intersected.lookup c' with
  | none =>
      refine ⟨_, rfl, ?_⟩
      intro c v
      by_cases hc : c = c'
      · subst hc
        simp [ColumnDomains.Allows, hlookup]
      · rw [allows_insert_of_ne _ hc]
        simp [Ne.symm hc]
  | some d =>
      obtain ⟨domain, hdomain, hvalues⟩ := d.intersect_spec d'
      refine ⟨intersected.insert c' domain, by dsimp only; rw [hdomain]; rfl, ?_⟩
      intro c v
      by_cases hc : c = c'
      · subst hc
        rw [allows_insert_self, hvalues, allows_of_lookup hlookup]
        simp
      · rw [allows_insert_of_ne _ hc]
        simp [Ne.symm hc]

theorem intersectEntries_spec (entries : List (Sigma fun c => Domain (types c))) :
    ∀ intersected : ColumnDomains types,
      ∃ m, entries.foldlM intersectEntry intersected = .ok m ∧
        ∀ (c : C) (v : Option (value c)), m.Allows c v ↔ intersected.Allows c v ∧
          ∀ d, ⟨c, d⟩ ∈ entries → d.includesNullableValue v = true := by
  induction entries with
  | nil =>
      intro intersected
      exact ⟨intersected, rfl, by simp⟩
  | cons entry rest ih =>
      intro intersected
      obtain ⟨m, hm, hallows⟩ := intersectEntry_spec intersected entry
      obtain ⟨m', hm', hallows'⟩ := ih m
      refine ⟨m', ?_, ?_⟩
      · rw [List.foldlM_cons, hm]
        exact hm'
      · intro c v
        rw [hallows', hallows, and_assoc]
        simp only [List.mem_cons, or_imp, forall_and, eq_comm]

theorem intersect_spec
    (d other : TupleDomain types) {identical : Bool} (h : identical = true → d = other) :
    ∃ r, d.intersect other identical = .ok r ∧ r.tuples = d.tuples ∩ other.tuples := by
  unfold intersect
  cases hd : d.domains with
  | none =>
      refine ⟨none, rfl, ?_⟩
      rw [tuples_none, tuples_of_isNone (d := d) (by simp [isNone, hd]), Set.empty_inter]
  | some m =>
      cases hother : other.domains with
      | none =>
          refine ⟨none, rfl, ?_⟩
          rw [tuples_none, tuples_of_isNone (d := other) (by simp [isNone, hother]),
            Set.inter_empty]
      | some n =>
          dsimp only
          split_ifs with hidentical hall hotherAll
          · rw [← h hidentical]
            exact ⟨d, rfl, (Set.inter_self _).symm⟩
          · refine ⟨other, rfl, ?_⟩
            rw [tuples_of_isAll hall, Set.univ_inter]
          · refine ⟨d, rfl, ?_⟩
            rw [tuples_of_isAll hotherAll, Set.inter_univ]
          · obtain ⟨r, hr, hallows⟩ := intersectEntries_spec n.entries m
            refine ⟨withColumnDomains r, by rw [hr]; rfl, ?_⟩
            ext t
            rw [mem_tuples_withColumnDomains, Set.mem_inter_iff,
              mem_tuples_of_domains hd, mem_tuples_of_domains hother, ← forall_and]
            refine forall_congr' ?_
            intro c
            rw [hallows, allows_iff_entries (m := n)]

/-! ## Column-wise union -/

/-- The tuples all of whose values some argument allows; at least one argument
is not none. -/
def columnWiseHull (tupleDomains : List (TupleDomain types)) :
    Set ((c : C) → Option (value c)) :=
  {t | (∃ d ∈ tupleDomains, d.isNone = false) ∧ ∀ c, ∃ d ∈ tupleDomains, d.Allows c (t c)}

variable {tupleDomains : List (TupleDomain types)}

omit [DecidableEq C] in
theorem isSome_findColumns_iff :
    (findColumns tupleDomains).isSome = true ↔ ∃ d ∈ tupleDomains, d.isNone = false := by
  induction tupleDomains with
  | nil => simp [findColumns]
  | cons d rest ih =>
      rw [findColumns]
      cases hd : d.domains with
      | some m => simp [isNone, hd]
      | none => simpa [isNone, hd] using ih

theorem mem_retainColumns {rest : List (TupleDomain types)} :
    ∀ commonColumns : List C, c ∈ retainColumns commonColumns rest ↔
      c ∈ commonColumns ∧ ∀ d ∈ rest, ∀ m, d.domains = some m → c ∈ m := by
  induction rest with
  | nil => simp [retainColumns]
  | cons d rest ih =>
      intro commonColumns
      rw [retainColumns]
      cases hd : d.domains with
      | some m =>
          rw [ih]
          simp [hd, mem_keys, and_assoc]
      | none =>
          rw [ih]
          simp [hd]

variable {tupleDomains rest : List (TupleDomain types)}

/-- The retained columns are those of every argument that is not none. -/
theorem mem_commonColumns {columns : List C}
    (h : findColumns tupleDomains = some (columns, rest)) (c : C) :
    c ∈ retainColumns columns rest ↔ ∀ d ∈ tupleDomains, ∀ m, d.domains = some m → c ∈ m := by
  induction tupleDomains with
  | nil => simp [findColumns] at h
  | cons d tail ih =>
      rw [findColumns] at h
      cases hd : d.domains with
      | some m =>
          rw [hd] at h
          obtain ⟨rfl, rfl⟩ : m.keys = columns ∧ tail = rest := by simpa using h
          rw [mem_retainColumns]
          simp [hd, mem_keys]
      | none =>
          rw [hd] at h
          rw [ih h]
          simp [hd]

/-- The groups hold the domains seen for each common column, and no group is
empty. -/
structure Groups (commonColumns : List C) (seen : List (Sigma fun c => Domain (types c)))
    (domainsByColumn : DomainsByColumn types) : Prop where
  mem_iff : ∀ c d, (∃ group ∈ domainsByColumn.lookup c, d ∈ group) ↔
    c ∈ commonColumns ∧ ⟨c, d⟩ ∈ seen
  ne_nil : ∀ c, ∀ group ∈ domainsByColumn.lookup c, group ≠ []

variable {commonColumns : List C}

theorem Groups.groupEntry {seen : List (Sigma fun c => Domain (types c))}
    {domainsByColumn : DomainsByColumn types} (h : Groups commonColumns seen domainsByColumn)
    (entry : Sigma fun c => Domain (types c)) :
    Groups commonColumns (seen ++ [entry]) (groupEntry commonColumns domainsByColumn entry) := by
  obtain ⟨c', d'⟩ := entry
  unfold TupleDomain.groupEntry
  split
  next hc' =>
    constructor
    · intro c d
      by_cases hc : c = c'
      · subst hc
        have hgroup : d ∈ (domainsByColumn.lookup c).getD [] ↔
            ∃ group ∈ domainsByColumn.lookup c, d ∈ group := by
          cases domainsByColumn.lookup c <;> simp
        rw [lookup_insert]
        simp only [Option.mem_some_iff, exists_eq_left', List.mem_append, hgroup, h.mem_iff]
        simp [hc']
      · rw [lookup_insert_ne hc, h.mem_iff]
        simp [hc]
    · intro c group hgroup
      by_cases hc : c = c'
      · subst hc
        rw [lookup_insert] at hgroup
        obtain rfl := Option.mem_some.mp hgroup
        simp
      · rw [lookup_insert_ne hc] at hgroup
        exact h.ne_nil c group hgroup
  next hc' =>
    refine ⟨?_, h.ne_nil⟩
    intro c d
    rw [h.mem_iff, List.mem_append, List.mem_singleton]
    refine and_congr_right ?_
    intro hc
    have hne : (⟨c, d⟩ : Sigma fun c => Domain (types c)) ≠ ⟨c', d'⟩ := by
      intro heq
      have hcolumns : c = c' := congrArg Sigma.fst heq
      exact hc' (hcolumns ▸ hc)
    simp only [hne, or_false]

/-- The entries of a tuple domain; there are none in `none`. -/
def columnEntries (d : TupleDomain types) : List (Sigma fun c => Domain (types c)) :=
  match d.domains with
  | some m => m.entries
  | .none => []

theorem groupByColumn_eq
    (domainsByColumn : DomainsByColumn types) (tupleDomains : List (TupleDomain types)) :
    groupByColumn commonColumns domainsByColumn tupleDomains =
      (tupleDomains.flatMap columnEntries).foldl (groupEntry commonColumns) domainsByColumn := by
  induction tupleDomains generalizing domainsByColumn with
  | nil => rfl
  | cons d rest ih =>
      rw [groupByColumn, List.flatMap_cons, List.foldl_append, columnEntries]
      cases d.domains with
      | some m | none => exact ih _

theorem groups_groupByColumn (commonColumns : List C) (tupleDomains : List (TupleDomain types)) :
    Groups commonColumns (tupleDomains.flatMap columnEntries)
      (groupByColumn commonColumns ∅ tupleDomains) := by
  rw [groupByColumn_eq]
  exact ListUpdates.foldl_induction (motive := Groups commonColumns) _ _ _ ⟨by simp, by simp⟩
    fun _ _ entry _ h => h.groupEntry entry

theorem unionEntries_spec (entries : List (Sigma fun c => List (Domain (types c)))) :
    ∀ result : ColumnDomains types, entries.NodupKeys → (∀ entry ∈ entries, entry.2 ≠ []) →
      ∃ m, entries.foldlM unionEntry result = .ok m ∧
        ∀ (c : C) (v : Option (value c)), ColumnDomains.Allows m c v ↔
          (∀ group, ⟨c, group⟩ ∈ entries →
            ∃ d ∈ group, d.includesNullableValue v = true) ∧
          (c ∉ entries.keys → result.Allows c v) := by
  induction entries with
  | nil =>
      intro result _ _
      exact ⟨result, rfl, by simp⟩
  | cons entry rest ih =>
      intro result hnodup hne
      obtain ⟨c', group'⟩ := entry
      obtain ⟨hnotMem, hnodupRest⟩ := List.nodupKeys_cons.mp hnodup
      obtain ⟨d', tail, rfl⟩ : ∃ d' tail, group' = d' :: tail :=
        List.exists_cons_of_ne_nil (hne ⟨c', group'⟩ (by simp))
      obtain ⟨domain, hdomain, hvalues⟩ := Domain.unionAll_spec d' tail
      obtain ⟨m, hm, hallows⟩ := ih (result.insert c' domain) hnodupRest
        fun entry hentry => hne entry (by simp [hentry])
      refine ⟨m, ?_, ?_⟩
      · rw [List.foldlM_cons, unionEntry, hdomain]
        exact hm
      · intro c v
        rw [hallows]
        by_cases hc : c = c'
        · subst hc
          have hgroups : ∀ group : List (Domain (types c)), ⟨c, group⟩ ∉ rest := by
            intro group hgroup
            exact hnotMem (List.mem_keys.mpr ⟨group, hgroup⟩)
          rw [allows_insert_self, hvalues]
          simp [hgroups, hnotMem]
        · rw [allows_insert_of_ne _ hc]
          simp [hc]

variable {columns : List C} (h : findColumns tupleDomains = some (columns, rest))

include h

/-- A value is allowed by some argument when the column is not common, or when
some argument's domain of the column includes it. -/
theorem exists_allows_iff (c : C) (v : Option (value c)) :
    (∃ d ∈ tupleDomains, d.Allows c v) ↔
      (c ∈ retainColumns columns rest → ∃ domain : Domain (types c),
        ⟨c, domain⟩ ∈ tupleDomains.flatMap columnEntries ∧
          domain.includesNullableValue v = true) := by
  have hcommon := mem_commonColumns h c
  constructor
  · rintro ⟨d, hd, m, hm, hallows⟩ hc
    have hmem : c ∈ m := hcommon.mp hc d hd m hm
    obtain ⟨domain, hdomain⟩ := mem_iff_exists_lookup.mp hmem
    refine ⟨domain, List.mem_flatMap.mpr ⟨d, hd, ?_⟩, hallows domain hdomain⟩
    rw [columnEntries, hm]
    exact mem_lookup_iff.mp hdomain
  · intro hexists
    by_cases hc : c ∈ retainColumns columns rest
    · obtain ⟨domain, hentry, hincludes⟩ := hexists hc
      obtain ⟨d, hd, hentry⟩ := List.mem_flatMap.mp hentry
      rw [columnEntries] at hentry
      cases hm : d.domains with
      | none => simp [hm] at hentry
      | some m =>
          rw [hm] at hentry
          exact ⟨d, hd, m, hm, (allows_of_lookup
            (mem_lookup_iff.mpr hentry) v).mpr hincludes⟩
    · -- an argument that is not none leaves the column out
      rw [hcommon] at hc
      push Not at hc
      obtain ⟨d, hd, m, hm, hnot⟩ := hc
      exact ⟨d, hd, m, hm, allows_of_notMem hnot v⟩

/-- Every common column has a group. -/
theorem Groups.exists_group {groups : DomainsByColumn types}
    (hgroups : Groups (retainColumns columns rest)
      (tupleDomains.flatMap columnEntries) groups)
    (hc : c ∈ retainColumns columns rest) : ∃ group, group ∈ groups.lookup c := by
  obtain ⟨d, hd, hnone⟩ := isSome_findColumns_iff.mp (by rw [h, Option.isSome_some])
  cases hm : d.domains with
  | none => simp [isNone, hm] at hnone
  | some m =>
      have hmem : c ∈ m := (mem_commonColumns h c).mp hc d hd m hm
      obtain ⟨domain, hdomain⟩ := mem_iff_exists_lookup.mp hmem
      have hentry : ⟨c, domain⟩ ∈ tupleDomains.flatMap columnEntries := by
        refine List.mem_flatMap.mpr ⟨d, hd, ?_⟩
        rw [columnEntries, hm]
        exact mem_lookup_iff.mp hdomain
      obtain ⟨group, hgroup, -⟩ := (hgroups.mem_iff c domain).mpr ⟨hc, hentry⟩
      exact ⟨group, hgroup⟩

theorem columnWiseUnion_found :
    ∃ result, (groupByColumn (retainColumns columns rest) ∅ tupleDomains).entries.foldlM
        unionEntry ∅ = .ok result ∧
      (withColumnDomains result).tuples = columnWiseHull tupleDomains := by
  have hgroups := groups_groupByColumn (retainColumns columns rest) tupleDomains
  generalize groupByColumn (retainColumns columns rest) ∅ tupleDomains = groups at hgroups ⊢
  have hne : ∀ entry ∈ groups.entries, entry.2 ≠ [] := fun entry hentry =>
    hgroups.ne_nil entry.1 entry.2 (mem_lookup_iff.mpr hentry)
  obtain ⟨result, hresult, hallows⟩ :=
    unionEntries_spec groups.entries ∅ groups.nodupKeys hne
  refine ⟨result, hresult, ?_⟩
  ext t
  rw [mem_tuples_withColumnDomains]
  change _ ↔ _ ∧ _
  rw [and_iff_right (isSome_findColumns_iff.mp (by rw [h, Option.isSome_some]))]
  refine forall_congr' ?_
  intro c
  have hunmentioned : ColumnDomains.Allows (∅ : ColumnDomains types) c (t c) :=
    allows_of_notMem (notMem_empty c) (t c)
  rw [hallows, exists_allows_iff h, and_iff_left fun _ => hunmentioned]
  constructor
  · intro hunion hc
    obtain ⟨group, hgroup⟩ := hgroups.exists_group h hc
    obtain ⟨d, hd, hincludes⟩ := hunion group (mem_lookup_iff.mp hgroup)
    exact ⟨d, ((hgroups.mem_iff c d).mp ⟨group, hgroup, hd⟩).2, hincludes⟩
  · intro hunion group hentry
    have hgroup : group ∈ groups.lookup c := mem_lookup_iff.mpr hentry
    obtain ⟨first, hfirst⟩ := List.exists_mem_of_ne_nil group (hne _ hentry)
    have hc := ((hgroups.mem_iff c first).mp ⟨group, hgroup, hfirst⟩).1
    obtain ⟨d, hseen, hincludes⟩ := hunion hc
    obtain ⟨group', hgroup', hd⟩ := (hgroups.mem_iff c d).mpr ⟨hc, hseen⟩
    obtain rfl : group' = group := Option.mem_unique hgroup' hgroup
    exact ⟨d, hd, hincludes⟩

omit h

/-- The column-wise union of a nonempty list allows the tuples of the hull. -/
theorem columnWiseUnion_spec (first : TupleDomain types) (rest : List (TupleDomain types)) :
    ∃ r, columnWiseUnion (first :: rest) = .ok r ∧ r.tuples = columnWiseHull (first :: rest) := by
  cases rest with
  | nil => exact ⟨first, rfl, by ext t; simp [tuples, columnWiseHull]⟩
  | cons second rest =>
      cases hfind : findColumns (first :: second :: rest) with
      | none =>
          refine ⟨none, by rw [columnWiseUnion, hfind] <;> simp, ?_⟩
          rw [tuples_none]
          ext t
          refine iff_of_false (Set.notMem_empty t) ?_
          rintro ⟨hexists, -⟩
          rw [← isSome_findColumns_iff, hfind] at hexists
          cases hexists
      | some found =>
          obtain ⟨result, hresult, htuples⟩ := columnWiseUnion_found hfind
          refine ⟨withColumnDomains result, ?_, htuples⟩
          rw [columnWiseUnion, hfind]
          · dsimp only
            rw [hresult]
            rfl
          all_goals simp

/-- The hull holds every tuple of every argument. -/
theorem tuples_subset_columnWiseHull
    (hd : d ∈ tupleDomains) : d.tuples ⊆ columnWiseHull tupleDomains := by
  rintro t ⟨hnone, hallows⟩
  exact ⟨⟨d, hd, hnone⟩, fun c => ⟨d, hd, hallows c⟩⟩

end TupleDomain
end Presto.Predicate
