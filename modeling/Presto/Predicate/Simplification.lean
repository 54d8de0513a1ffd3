import Mathlib.Data.List.Pairwise
import Presto.Predicate.TupleDomainLaws

/-!
# Simplification of domains

A column with too many ranges gets their span, and one with too many discrete values gets all
values.  The bound is fixed in `simplify` and a parameter of `compact`.
-/

namespace Presto.Predicate

open SortedRangeSet Result ColumnDomains List

universe u

/-! ## Value sets -/

namespace SortedRangeSet

variable {α : Type*} [LinearOrder α] {type : OrderableType α} {s : SortedRangeSet type}

def getRangeCount (s : SortedRangeSet type) : ℕ :=
  s.lowIndexedRanges.length

def getSpan (s : SortedRangeSet type) : Result (Range α) :=
  match s.getOrderedRanges with
  | [] => .error (.illegalState "Can not get span if no ranges exist")
  | first :: rest => first.span ((first :: rest).getLast (List.cons_ne_nil first rest))

theorem exists_getSpan_iff : (∃ r, s.getSpan = .ok r) ↔ s.isNone = false := by
  rw [← Bool.not_eq_true, isNone_iff, getSpan]
  cases s.getOrderedRanges with
  | nil => simp
  | cons first rest =>
      obtain ⟨r, hr, -⟩ := Range.span_eq_ok first ((first :: rest).getLast (by simp))
      simp [hr]

/-- The first range has the least low marker and the last one the greatest high marker. -/
theorem mem_span_of_covers {r : Range α} (h : s.getSpan = .ok r) {m : Marker α}
    (hm : Covers s.getOrderedRanges m) : m ∈ r.toInterval := by
  have hseparated := s.separated_getOrderedRanges
  obtain ⟨q, hq, hlow, hhigh⟩ := covers_iff.mp hm
  rw [getSpan] at h
  cases hranges : s.getOrderedRanges with
  | nil =>
      rw [hranges] at hq
      cases hq
  | cons first rest =>
      rw [hranges] at hseparated hq h
      obtain ⟨t, ht, hinterval⟩ := Range.span_eq_ok first ((first :: rest).getLast (by simp))
      obtain rfl : t = r := Except.ok.inj (ht.symm.trans h)
      have hfirst : first.low ≤ q.low := by
        rcases mem_cons.mp hq with rfl | hq
        · exact le_rfl
        · exact first.le.trans ((pairwise_cons.mp hseparated).1 q hq).1.le
      have hhighs : (first :: rest).Pairwise fun a b => a.high ≤ b.high :=
        hseparated.imp fun {a b} hab => (hab.1.trans_le b.le).le
      have hlast := hhighs.rel_getLast_of_rel_getLast_getLast hq le_rfl
      rw [hinterval]
      exact ⟨(min_le_left _ _).trans (hfirst.trans hlow),
        (hhigh.trans hlast).trans (le_max_right _ _)⟩

end SortedRangeSet

namespace ValueSet

variable {α : Type u}

/-- The values that a column keeps under the threshold. -/
def simplify (threshold : ℤ) :
    {type : ColumnType α} → ValueSet type → Result (ValueSet type)
  | .orderable _ _ kind, s =>
      if threshold < getRangeCount s then do
        let span ← getSpan s
        ofRanges kind span []
      else pure s
  | .comparable _ _, s =>
      .ok (if threshold < (EquatableValueSet.entries s).size then EquatableValueSet.all else s)
  | .incomparable, s => .ok s

/-- There are no more ranges or discrete values than the threshold. -/
def Within (threshold : ℤ) : {type : ColumnType α} → ValueSet type → Prop
  | .orderable _ _ _, s => getRangeCount s ≤ threshold
  | .comparable _ _, s => (EquatableValueSet.entries s).size ≤ threshold
  | .incomparable, _ => True

/-- A set of ranges is not empty. -/
def HasSpan : {type : ColumnType α} → ValueSet type → Prop
  | .orderable _ _ _, s => isNone s = false
  | _, _ => True

variable {type : ColumnType α} {s t : ValueSet type} {threshold : ℤ}

theorem within_of_isNone (h : s.isNone = true) (hthreshold : 0 ≤ threshold) :
    s.Within threshold := by
  cases type with
  | orderable order equality kind =>
      have hempty : lowIndexedRanges s = [] := isEmpty_iff.mp h
      simpa [Within, getRangeCount, hempty] using hthreshold
  | comparable equality equivalence =>
      have hempty := isEmpty_iff.mp (Bool.and_eq_true_iff.mp h).2
      simpa [Within, Support.LinkedHashSet.size, hempty] using hthreshold
  | incomparable => trivial

theorem simplify_of_within (h : s.Within threshold) : s.simplify threshold = .ok s := by
  cases type with
  | orderable order equality kind => exact if_neg (not_lt.mpr h)
  | comparable equality equivalence => exact congrArg Except.ok (if_neg (not_lt.mpr h))
  | incomparable => rfl

theorem simplify_widens (h : s.simplify threshold = .ok t) {v : α} (hv : s.containsValue v = true) :
    t.containsValue v = true := by
  by_cases hwithin : s.Within threshold
  · rw [simplify_of_within hwithin] at h
    exact Except.ok.inj h ▸ hv
  · cases type with
    | orderable order equality kind =>
        obtain ⟨span, hspan, h⟩ :=
          bind_eq_ok_iff.mp ((if_pos (not_le.mp hwithin)).symm.trans h)
        obtain ⟨built, hbuilt, hvalues⟩ := build_spec kind [span]
        obtain rfl : built = t := Except.ok.inj (hbuilt.symm.trans h)
        refine (hvalues v).mpr ((covers_cons _ _ _).mpr (Or.inl ?_))
        exact mem_span_of_covers hspan ((containsValue_iff s v).mp hv)
    | comparable equality equivalence =>
        obtain rfl := Except.ok.inj ((congrArg Except.ok (if_pos (not_le.mp hwithin))).symm.trans h)
        exact EquatableValueSet.containsValue_of_isAll rfl v
    | incomparable => exact absurd trivial hwithin

/-- Only the span of an empty set of ranges fails. -/
theorem exists_simplify_iff : (∃ t, s.simplify threshold = .ok t) ↔ 0 ≤ threshold ∨ s.HasSpan := by
  by_cases hwithin : s.Within threshold
  · refine iff_of_true ⟨s, simplify_of_within hwithin⟩ ?_
    cases type with
    | orderable order equality kind => exact Or.inl ((Int.natCast_nonneg _).trans hwithin)
    | _ => exact Or.inr trivial
  · cases type with
    | orderable order equality kind =>
        constructor
        · rintro ⟨t, ht⟩
          obtain ⟨span, hspan, -⟩ :=
            bind_eq_ok_iff.mp ((if_pos (not_le.mp hwithin)).symm.trans ht)
          exact Or.inr (exists_getSpan_iff.mp ⟨span, hspan⟩)
        · intro h
          have hnone : isNone s = false :=
            h.elim (fun h => Bool.eq_false_iff.mpr fun hnone =>
              hwithin (within_of_isNone hnone h)) id
          obtain ⟨span, hspan⟩ := exists_getSpan_iff.mpr hnone
          obtain ⟨t, ht, -⟩ := build_spec kind [span]
          exact ⟨t, (if_pos (not_le.mp hwithin)).trans
            (bind_eq_ok_iff.mpr ⟨span, hspan, ht⟩)⟩
    | _ => exact iff_of_true ⟨_, rfl⟩ (Or.inr trivial)

end ValueSet

/-! ## Domains -/

namespace Domain

variable {α : Type u} {type : ColumnType α} {d r : Domain type} {threshold : ℤ}

def simplifyTo (threshold : ℤ) (d : Domain type) : Result (Domain type) := do
  let simplifiedValueSet ← d.values.simplify threshold
  pure ⟨simplifiedValueSet, d.nullAllowed⟩

def simplify (d : Domain type) : Result (Domain type) := d.simplifyTo 32

/-- The result is a domain with at least the given values, the same one within the threshold,
and none for none. -/
def Widened (threshold : ℤ) (d : Domain type) (result : Result (Domain type)) : Prop :=
  ∃ r, result = .ok r ∧
    (∀ v, d.includesNullableValue v = true → r.includesNullableValue v = true) ∧
    (d.values.Within threshold → r = d) ∧ (d.isNone = true → r.isNone = true)

theorem simplifyTo_of_within (h : d.values.Within threshold) : d.simplifyTo threshold = .ok d := by
  rw [simplifyTo, ValueSet.simplify_of_within h]
  rfl

theorem simplifyTo_widens
    (h : d.simplifyTo threshold = .ok r) {v : Option α} (hv : d.includesNullableValue v = true) :
    r.includesNullableValue v = true := by
  obtain ⟨values, hvalues, h⟩ := bind_eq_ok_iff.mp h
  cases h
  cases v with
  | none => exact hv
  | some value => exact ValueSet.simplify_widens hvalues hv

theorem exists_simplifyTo_iff :
    (∃ r, d.simplifyTo threshold = .ok r) ↔ 0 ≤ threshold ∨ d.values.HasSpan := by
  rw [← ValueSet.exists_simplify_iff]
  constructor
  · rintro ⟨r, hr⟩
    obtain ⟨values, hvalues, -⟩ := bind_eq_ok_iff.mp hr
    exact ⟨values, hvalues⟩
  · rintro ⟨values, hvalues⟩
    exact ⟨_, bind_eq_ok_iff.mpr ⟨values, hvalues, rfl⟩⟩

theorem simplify_widened (d : Domain type) : d.Widened 32 d.simplify := by
  obtain ⟨r, hr⟩ := (exists_simplifyTo_iff (d := d)).mpr (Or.inl (show (0 : ℤ) ≤ 32 by decide))
  have hsame : d.values.Within 32 → r = d := fun hwithin =>
    Except.ok.inj (hr.symm.trans (simplifyTo_of_within hwithin))
  refine ⟨r, hr, fun v hv => simplifyTo_widens hr hv, hsame, ?_⟩
  intro hnone
  rw [hsame (ValueSet.within_of_isNone (Bool.and_eq_true_iff.mp hnone).1 (by decide))]
  exact hnone

end Domain

/-! ## Tuple domains -/

variable {C : Type u} {value : C → Type u} {types : (c : C) → ColumnType (value c)}

/-- The map with one domain after the other simplified. -/
def simplifyEntries (threshold : ℤ) :
    List (Sigma fun c => Domain (types c)) → Result (List (Sigma fun c => Domain (types c)))
  | [] => .ok []
  | entry :: rest => do
      let domain ← entry.2.simplifyTo threshold
      let simplified ← simplifyEntries threshold rest
      pure (⟨entry.1, domain⟩ :: simplified)

section Entries

variable {threshold : ℤ} {entries simplified : List (Sigma fun c => Domain (types c))}

/-- The columns stay, and each new domain is that of its column, simplified. -/
theorem simplifyEntries_spec (h : simplifyEntries threshold entries = .ok simplified) :
    simplified.keys = entries.keys ∧ ∀ new ∈ simplified,
      ∃ d, ⟨new.1, d⟩ ∈ entries ∧ d.simplifyTo threshold = .ok new.2 := by
  induction entries generalizing simplified with
  | nil =>
      cases h
      exact ⟨rfl, by simp⟩
  | cons entry rest ih =>
      obtain ⟨domain, hdomain, h⟩ := bind_eq_ok_iff.mp h
      obtain ⟨tail, htail, h⟩ := bind_eq_ok_iff.mp h
      cases h
      obtain ⟨hkeys, hnew⟩ := ih htail
      refine ⟨by simp [hkeys], ?_⟩
      intro new hmem
      rcases mem_cons.mp hmem with rfl | hmem
      · exact ⟨entry.2, mem_cons_self, hdomain⟩
      · obtain ⟨d, hd, hsimplified⟩ := hnew new hmem
        exact ⟨d, mem_cons_of_mem _ hd, hsimplified⟩

theorem simplifyEntries_of_within (h : ∀ entry ∈ entries, entry.2.values.Within threshold) :
    simplifyEntries threshold entries = .ok entries := by
  induction entries with
  | nil => rfl
  | cons entry rest ih =>
      rw [forall_mem_cons] at h
      rw [simplifyEntries, Domain.simplifyTo_of_within h.1, ih h.2]
      rfl

theorem exists_simplifyEntries_iff :
    (∃ simplified, simplifyEntries threshold entries = .ok simplified) ↔
      ∀ entry ∈ entries, 0 ≤ threshold ∨ entry.2.values.HasSpan := by
  induction entries with
  | nil => exact iff_of_true ⟨[], rfl⟩ (by simp)
  | cons entry rest ih =>
      rw [forall_mem_cons, ← ih, ← Domain.exists_simplifyTo_iff]
      constructor
      · rintro ⟨simplified, h⟩
        obtain ⟨domain, hdomain, h⟩ := bind_eq_ok_iff.mp h
        obtain ⟨tail, htail, -⟩ := bind_eq_ok_iff.mp h
        exact ⟨⟨domain, hdomain⟩, tail, htail⟩
      · rintro ⟨⟨domain, hdomain⟩, tail, htail⟩
        exact ⟨_, bind_eq_ok_iff.mpr
          ⟨domain, hdomain, bind_eq_ok_iff.mpr ⟨tail, htail, rfl⟩⟩⟩

end Entries

/-- The map of the simplified domains. -/
def ColumnDomains.simplifyTo (threshold : ℤ) (m : ColumnDomains types) :
    Result (ColumnDomains types) :=
  match h : simplifyEntries threshold m.entries with
  | .error e => .error e
  | .ok simplified =>
      .ok ⟨simplified, by
        rw [List.NodupKeys, (simplifyEntries_spec h).1]
        exact m.nodupKeys⟩

theorem ColumnDomains.simplifyTo_eq_ok_iff {threshold : ℤ} {m n : ColumnDomains types} :
    m.simplifyTo threshold = .ok n ↔ simplifyEntries threshold m.entries = .ok n.entries := by
  unfold simplifyTo
  split
  next e he => simp [he]
  next simplified hsimplified => simp [hsimplified, AList.ext_iff]

namespace TupleDomain

variable [DecidableEq C]

def simplify (d : TupleDomain types) : Result (TupleDomain types) :=
  match d.domains with
  | .none => .ok d
  | some m => do
      let simplified ← m.simplifyTo 32
      pure (withColumnDomains simplified)

/-- The map of compacted domains is filled from the columns, if there are any. -/
def compact (threshold : ℤ) (d : TupleDomain types) : Result (TupleDomain types) := do
  let compactedDomains ← (d.domains.getD ∅).simplifyTo threshold
  pure (withColumnDomains compactedDomains)

/-- The result has at least the given tuples, is the same tuple domain when every column is
within the threshold, and none for none. -/
def Widened (threshold : ℤ) (d : TupleDomain types) (result : Result (TupleDomain types)) :
    Prop :=
  ∃ r, result = .ok r ∧ d.tuples ⊆ r.tuples ∧
    ((∀ m ∈ d.domains, ∀ entry ∈ m.entries, entry.2.values.Within threshold) → r = d) ∧
    (d.isNone = true → r.isNone = true)

variable {d : TupleDomain types} {m : ColumnDomains types} {threshold : ℤ}

omit [DecidableEq C] in
/-- The map of a tuple domain is normalized already. -/
theorem withColumnDomains_eq (hd : d.domains = some m) : withColumnDomains m = d := by
  obtain ⟨domains, hnormalized⟩ := d
  subst hd
  have hentries := hnormalized m rfl
  have hnone : ¬m.containsNoneDomain = true := by
    intro h
    obtain ⟨entry, hmem, hnone⟩ := any_eq_true.mp h
    rw [(hentries entry hmem).1] at hnone
    cases hnone
  have hcopy : m.normalizeAndCopy = m := by
    refine AList.ext (filter_eq_self.mpr ?_)
    intro entry hmem
    rw [(hentries entry hmem).2]
    rfl
  simp only [withColumnDomains, create, dif_neg hnone, hcopy]

theorem widened_iff (hd : d.domains = some m) :
    d.Widened threshold (do
      let simplified ← m.simplifyTo threshold
      pure (withColumnDomains simplified)) ↔
      ∀ entry ∈ m.entries, 0 ≤ threshold ∨ entry.2.values.HasSpan := by
  rw [← exists_simplifyEntries_iff]
  constructor
  · rintro ⟨r, hr, -⟩
    obtain ⟨n, hn, -⟩ := bind_eq_ok_iff.mp hr
    exact ⟨n.entries, simplifyTo_eq_ok_iff.mp hn⟩
  · rintro ⟨simplified, hsimplified⟩
    obtain ⟨hkeys, hnew⟩ := simplifyEntries_spec hsimplified
    have hnodup : simplified.NodupKeys := by
      rw [List.NodupKeys, hkeys]
      exact m.nodupKeys
    refine ⟨withColumnDomains ⟨simplified, hnodup⟩, bind_eq_ok_iff.mpr
      ⟨_, simplifyTo_eq_ok_iff.mpr hsimplified, rfl⟩, ?_, ?_, ?_⟩
    · intro t ht
      rw [mem_tuples_of_domains hd] at ht
      rw [mem_tuples_withColumnDomains]
      intro c
      rw [allows_iff_entries]
      intro new hmem
      obtain ⟨old, hold, hsimplify⟩ := hnew ⟨c, new⟩ hmem
      exact Domain.simplifyTo_widens hsimplify (allows_iff_entries.mp (ht c) old hold)
    · intro hwithin
      rw [simplifyEntries_of_within (hwithin m hd)] at hsimplified
      cases hsimplified
      exact withColumnDomains_eq hd
    · intro hnone
      rw [isNone, hd] at hnone
      cases hnone

/-- Simplification only widens, keeps what is within the threshold and maps none to none,
except that `compact` turns none into all, and that with a negative threshold it fails on a
column without ranges. -/
theorem simplification_widens_iff
    {α : Type u} {type : ColumnType α} (domain : Domain type) (d : TupleDomain types)
    (threshold : ℤ) :
    (domain.Widened 32 domain.simplify ∧ d.Widened 32 d.simplify ∧
        d.Widened threshold (d.compact threshold)) ↔
      ∃ m, d.domains = some m ∧
        ∀ entry ∈ m.entries, 0 ≤ threshold ∨ entry.2.values.HasSpan := by
  cases hd : d.domains with
  | none =>
      refine iff_of_false ?_ (by simp)
      rintro ⟨-, -, r, hr, -, -, hnone⟩
      rw [compact, hd] at hr
      cases hr
      cases hnone (by rw [isNone, hd]; rfl)
  | some m =>
      have hsimplify : d.Widened 32 d.simplify := by
        rw [simplify, hd]
        exact (widened_iff hd).mpr fun entry _ => Or.inl (by decide)
      rw [compact, hd, Option.getD_some, widened_iff hd]
      simp only [Option.some.injEq, exists_eq_left', hsimplify, domain.simplify_widened, true_and]

/-- The tuple domain without tuples is compacted to the one of all tuples. -/
theorem compact_none_is_all :
    ¬Widened 32 (none : TupleDomain fun _ : Unit => (.incomparable : ColumnType Unit))
      (none.compact 32) := by
  rintro ⟨r, hr, -, -, hnone⟩
  cases hr
  cases hnone rfl

end TupleDomain
end Presto.Predicate
