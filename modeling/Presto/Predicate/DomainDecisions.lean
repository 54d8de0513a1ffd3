import Mathlib.Algebra.Field.Rat
import Mathlib.Algebra.Order.Field.Basic
import Mathlib.Algebra.Order.Ring.Rat
import Presto.Predicate.CanonicalForm
import Presto.Predicate.Domain
import Presto.Types.DoubleType

/-!
# Decisions about domains

`contains` asks whether a union changes the domain and `overlaps` whether an
intersection is empty.  Both rest on the canonical form of the value sets.  Ranges
are ordered by `compareTo` and found equal by `equalTo`: where these agree, a
positive answer of the first and a negative one of the second are right, and over
dense orders without endpoints and over infinite comparable types both decide
exactly.  For the type `double` they do not agree on the two zeros.
-/

namespace Presto.Predicate

open SortedRangeSet EquatableValueSet Marker

universe u

variable {α : Type u}

/-- Values of an orderable type are equal exactly when they compare as equal. -/
def ColumnType.EqualToAgrees : ColumnType α → Prop
  | .orderable _ equality _ => ∀ v w, equality.beq v w = true ↔ compare v w = .eq
  | _ => True

/-- The type is a dense order without endpoints that agrees with its equality, or comparable with
infinitely many values. -/
def ColumnType.DenseOrInfinite : ColumnType α → Prop
  | .orderable order equality kind =>
      (ColumnType.orderable order equality kind).EqualToAgrees ∧
        Nonempty α ∧ DenselyOrdered α ∧ NoMinOrder α ∧ NoMaxOrder α
  | .comparable _ _ => EquatableValueSet.Inexhaustible α
  | .incomparable => False

theorem ColumnType.DenseOrInfinite.equalToAgrees {type : ColumnType α} (h : type.DenseOrInfinite) :
    type.EqualToAgrees := by
  cases type with
  | orderable order equality kind => exact h.1
  | comparable equality equivalence => trivial
  | incomparable => trivial

theorem lawfulBEq_of_equalToAgrees {order : LinearOrder α} {equality : BEq α}
    {kind : OrderableType α} (h : (ColumnType.orderable order equality kind).EqualToAgrees) :
    LawfulBEq α where
  eq_of_beq {v w} hequal := compare_eq_iff_eq.mp ((h v w).mp hequal)
  rfl {v} := (h v v).mpr (compare_eq_iff_eq.mpr rfl)

/-! ## Value sets -/

namespace ValueSet

def equals : {type : ColumnType α} → ValueSet type → ValueSet type → Bool
  | .orderable _ equality _, s, other => letI := equality; SortedRangeSet.equals s other
  | .comparable _ _, s, other => EquatableValueSet.equals s other
  | .incomparable, s, other => AllOrNoneValueSet.all s == AllOrNoneValueSet.all other

def isSingleValue : {type : ColumnType α} → ValueSet type → Bool
  | .orderable _ equality _, s => letI := equality; SortedRangeSet.isSingleValue s
  | .comparable _ _, s => EquatableValueSet.isSingleValue s
  | .incomparable, _ => false

variable {type : ColumnType α} {s : ValueSet type}

theorem containsValue_eq_of_equals (hagrees : type.EqualToAgrees) {other : ValueSet type}
    (h : s.equals other = true) (v : α) : s.containsValue v = other.containsValue v := by
  cases type with
  | orderable order equality kind =>
      have := lawfulBEq_of_equalToAgrees hagrees
      exact containsValue_eq_of_equals h v
  | comparable equality equivalence =>
      exact containsValue_eq_of_equals h v
  | incomparable => exact beq_iff_eq.mp h

theorem containsValue_eq_false_of_isNone
    (h : s.isNone = true) (v : α) : s.containsValue v = false := by
  cases type with
  | orderable order equality kind => exact containsValue_eq_false_of_isNone h v
  | comparable equality equivalence =>
      exact containsValue_eq_false_of_isNone h v
  | incomparable => exact (Bool.not_eq_true' _).mp h

theorem containsValue_of_isAll
    (h : s.isAll = true) (v : α) : s.containsValue v = true := by
  cases type with
  | orderable order equality kind => exact containsValue_of_isAll h v
  | comparable equality equivalence => exact containsValue_of_isAll h v
  | incomparable => exact h

theorem equals_iff (h : type.DenseOrInfinite) (s other : ValueSet type) :
    s.equals other = true ↔ ∀ v, s.containsValue v = other.containsValue v := by
  cases type with
  | orderable order equality kind =>
      have := lawfulBEq_of_equalToAgrees h.1
      obtain ⟨-, _, _, _, _⟩ := h
      exact equals_iff s other
  | comparable equality equivalence => exact equals_iff h s other
  | incomparable => exact absurd h id

theorem isNone_iff (h : type.DenseOrInfinite) (s : ValueSet type) :
    s.isNone = true ↔ ∀ v, s.containsValue v = false := by
  cases type with
  | orderable order equality kind =>
      obtain ⟨-, _, _, _, _⟩ := h
      exact isNone_iff_values s
  | comparable equality equivalence => exact isNone_iff_values h s
  | incomparable => exact absurd h id

theorem isAll_iff (h : type.DenseOrInfinite) (s : ValueSet type) :
    s.isAll = true ↔ ∀ v, s.containsValue v = true := by
  cases type with
  | orderable order equality kind =>
      obtain ⟨-, _, _, _, _⟩ := h
      exact isAll_iff_values s
  | comparable equality equivalence => exact isAll_iff_values h s
  | incomparable => exact absurd h id

end ValueSet

/-! ## Domains -/

namespace Domain

variable {type : ColumnType α}

def isSingleValue (d : Domain type) : Bool :=
  !d.nullAllowed && d.values.isSingleValue

def isNullableSingleValue (d : Domain type) : Bool :=
  if d.nullAllowed then d.values.isNone else d.values.isSingleValue

def equals (d other : Domain type) : Bool :=
  d.values.equals other.values && d.nullAllowed == other.nullAllowed

def overlaps (d other : Domain type) : Result Bool :=
  (d.intersect other).map fun common => !common.isNone

def contains (d other : Domain type) : Result Bool :=
  (d.union other).map fun united => united.equals d

variable {d other : Domain type}

theorem includesNullableValue_eq_of_equals (hagrees : type.EqualToAgrees)
    (h : d.equals other = true) (v : Option α) :
    d.includesNullableValue v = other.includesNullableValue v := by
  rw [equals, Bool.and_eq_true, beq_iff_eq] at h
  cases v with
  | none => exact h.2
  | some value => exact ValueSet.containsValue_eq_of_equals hagrees h.1 value

theorem includesNullableValue_eq_false_of_isNone (h : d.isNone = true) (v : Option α) :
    d.includesNullableValue v = false := by
  rw [isNone, Bool.and_eq_true, Bool.not_eq_true'] at h
  cases v with
  | none => exact h.2
  | some value => exact ValueSet.containsValue_eq_false_of_isNone h.1 value

theorem includesNullableValue_of_isAll (h : d.isAll = true) (v : Option α) :
    d.includesNullableValue v = true := by
  rw [isAll, Bool.and_eq_true] at h
  cases v with
  | none => exact h.2
  | some value => exact ValueSet.containsValue_of_isAll h.1 value

theorem equals_iff (h : type.DenseOrInfinite) (d other : Domain type) :
    d.equals other = true ↔ ∀ v, d.includesNullableValue v = other.includesNullableValue v := by
  refine ⟨includesNullableValue_eq_of_equals h.equalToAgrees, ?_⟩
  intro hvalues
  rw [equals, Bool.and_eq_true, beq_iff_eq, ValueSet.equals_iff h]
  exact ⟨fun v => hvalues (some v), hvalues none⟩

theorem isNone_iff (h : type.DenseOrInfinite) (d : Domain type) :
    d.isNone = true ↔ ∀ v, d.includesNullableValue v = false := by
  refine ⟨includesNullableValue_eq_false_of_isNone, ?_⟩
  intro hvalues
  rw [isNone, Bool.and_eq_true, Bool.not_eq_true', ValueSet.isNone_iff h]
  exact ⟨fun v => hvalues (some v), hvalues none⟩

theorem isAll_iff (h : type.DenseOrInfinite) (d : Domain type) :
    d.isAll = true ↔ ∀ v, d.includesNullableValue v = true := by
  refine ⟨includesNullableValue_of_isAll, ?_⟩
  intro hvalues
  rw [isAll, Bool.and_eq_true, ValueSet.isAll_iff h]
  exact ⟨fun v => hvalues (some v), hvalues none⟩

/-- The answer of `contains` compares the union with the domain. -/
theorem contains_eq (d other : Domain type) :
    ∃ united : Domain type, d.contains other = .ok (united.equals d) ∧
      ∀ v, united.includesNullableValue v =
        (d.includesNullableValue v || other.includesNullableValue v) := by
  obtain ⟨united, hunited, hvalues⟩ := d.union_spec other
  exact ⟨united, by rw [contains, hunited]; rfl, hvalues⟩

theorem overlaps_eq (d other : Domain type) :
    ∃ common : Domain type, d.overlaps other = .ok (!common.isNone) ∧
      ∀ v, common.includesNullableValue v =
        (d.includesNullableValue v && other.includesNullableValue v) := by
  obtain ⟨common, hcommon, hvalues⟩ := d.intersect_spec other
  exact ⟨common, by rw [overlaps, hcommon]; rfl, hvalues⟩

/-- A domain that contains another includes its values, whatever the order. -/
theorem includes_of_contains (hagrees : type.EqualToAgrees) (h : d.contains other = .ok true)
    (v : Option α) (hv : other.includesNullableValue v = true) :
    d.includesNullableValue v = true := by
  obtain ⟨united, hcontains, hvalues⟩ := d.contains_eq other
  have hequals : united.equals d = true := by
    rw [hcontains] at h
    exact Except.ok.inj h
  rw [← includesNullableValue_eq_of_equals hagrees hequals v, hvalues, hv, Bool.or_true]

theorem contains_spec (h : type.DenseOrInfinite) (d other : Domain type) :
    ∃ answer, d.contains other = .ok answer ∧
      (answer = true ↔ ∀ v, other.includesNullableValue v = true →
        d.includesNullableValue v = true) := by
  obtain ⟨united, hcontains, hvalues⟩ := d.contains_eq other
  refine ⟨_, hcontains, ?_⟩
  rw [equals_iff h]
  refine forall_congr' ?_
  intro v
  rw [hvalues]
  cases d.includesNullableValue v <;> simp

theorem overlaps_spec (h : type.DenseOrInfinite) (d other : Domain type) :
    ∃ answer, d.overlaps other = .ok answer ∧
      (answer = true ↔ ∃ v, d.includesNullableValue v = true ∧
        other.includesNullableValue v = true) := by
  obtain ⟨common, hoverlaps, hvalues⟩ := d.overlaps_eq other
  refine ⟨_, hoverlaps, ?_⟩
  rw [Bool.not_eq_true', Bool.eq_false_iff, ne_eq, isNone_iff h, not_forall]
  refine exists_congr ?_
  intro v
  rw [Bool.not_eq_false, hvalues, Bool.and_eq_true]

theorem not_overlaps_spec (h : d.overlaps other = .ok false) (v : Option α) :
    ¬(d.includesNullableValue v = true ∧ other.includesNullableValue v = true) := by
  rintro ⟨hd, hother⟩
  obtain ⟨common, hoverlaps, hvalues⟩ := d.overlaps_eq other
  rw [hoverlaps] at h
  have hnone : common.isNone = true := (Bool.not_eq_false' _).mp (Except.ok.inj h)
  have hdisjoint := includesNullableValue_eq_false_of_isNone hnone v
  rw [hvalues, hd, hother] at hdisjoint
  exact Bool.false_ne_true hdisjoint.symm

/-! ## Orderable types -/

variable [order : LinearOrder α] [equality : BEq α] {kind : OrderableType α}

/-- Equality of sorted range sets is equality of their values, and the questions about sets and
domains are answered exactly. -/
structure DecisionsExact (kind : OrderableType α) : Prop where
  equals : ∀ s t : SortedRangeSet kind,
    s.equals t = true ↔ ∀ v, s.containsValue v = t.containsValue v
  isSingle : ∀ s : SortedRangeSet kind,
    s.isSingleValue = true ↔ ∃ v, ∀ w, s.containsValue w = true ↔ w = v
  contains : ∀ d e : Domain (.orderable order equality kind), ∃ answer,
    d.contains e = .ok answer ∧ (answer = true ↔
      ∀ v, e.includesNullableValue v = true → d.includesNullableValue v = true)
  overlaps : ∀ d e : Domain (.orderable order equality kind), ∃ answer,
    d.overlaps e = .ok answer ∧ (answer = true ↔
      ∃ v, d.includesNullableValue v = true ∧ e.includesNullableValue v = true)
  isNone : ∀ d : Domain (.orderable order equality kind),
    d.isNone = true ↔ ∀ v, d.includesNullableValue v = false
  isAll : ∀ d : Domain (.orderable order equality kind),
    d.isAll = true ↔ ∀ v, d.includesNullableValue v = true
  isSingleValue : ∀ d : Domain (.orderable order equality kind),
    d.isSingleValue = true ↔ ∃ v : α, ∀ w, d.includesNullableValue w = true ↔ w = some v
  isNullableSingleValue : ∀ d : Domain (.orderable order equality kind),
    d.isNullableSingleValue = true ↔
      ∃ v : Option α, ∀ w, d.includesNullableValue w = true ↔ w = v

section Dense

variable [LawfulBEq α] [DenselyOrdered α] [NoMinOrder α] [NoMaxOrder α] [Nonempty α]

/-- A single value domain includes one value and not null. -/
theorem isSingleValue_iff (d : Domain (.orderable order equality kind)) :
    d.isSingleValue = true ↔ ∃ v : α, ∀ w, d.includesNullableValue w = true ↔ w = some v := by
  have hvalues : d.values.isSingleValue = true ↔
      ∃ v, ∀ w, d.values.containsValue w = true ↔ w = v :=
    isSingleValue_iff_values d.values
  rw [Domain.isSingleValue, Bool.and_eq_true, hvalues, ← exists_and_left]
  refine exists_congr ?_
  intro v
  rw [Option.forall]
  simp [includesNullableValue]

/-- A nullable single value domain includes exactly one nullable value. -/
theorem isNullableSingleValue_iff
    (htype : (ColumnType.orderable order equality kind).DenseOrInfinite)
    (d : Domain (.orderable order equality kind)) :
    d.isNullableSingleValue = true ↔
      ∃ v : Option α, ∀ w, d.includesNullableValue w = true ↔ w = v := by
  have hsingle := d.isSingleValue_iff
  rw [Domain.isSingleValue] at hsingle
  rw [Option.exists, ← hsingle, Option.forall, Domain.isNullableSingleValue]
  cases hnull : d.nullAllowed with
  | true => simp [includesNullableValue, hnull, ValueSet.isNone_iff htype]
  | false => simp [includesNullableValue, hnull]

end Dense

/-- The set of the values between two bounds. -/
def between (low high : α) (h : low ≤ high) : SortedRangeSet kind :=
  let r : Range α := ⟨exactly low, exactly high, (Range.equal low).low_bound,
    (Range.equal high).high_bound, exactly_le_exactly_iff.mpr h⟩
  ⟨[(r.low, r)], Canonical.singleton⟩

omit equality in
theorem containsValue_between {low high : α} (h : low ≤ high) (v : α) :
    (between low high h : SortedRangeSet kind).containsValue v = true ↔ low ≤ v ∧ v ≤ high := by
  rw [containsValue_iff]
  change Covers [_] _ ↔ _
  rw [covers_cons, covers_nil, or_false]
  exact and_congr exactly_le_exactly_iff exactly_le_exactly_iff

/-- Exact decisions need an equality that agrees with the order. -/
theorem DecisionsExact.equalToAgrees (h : DecisionsExact kind) (v w : α) :
    (v == w) = true ↔ compare v w = .eq := by
  have hrefl : ∀ u : α, (u == u) = true := by
    intro u
    have hsingle := (h.isSingle (between u u le_rfl)).mpr ⟨u, fun w => by
      rw [containsValue_between, ← le_antisymm_iff, eq_comm]⟩
    simpa [between, SortedRangeSet.isSingleValue, getOrderedRanges, Range.isSingleValue,
      Marker.equals, exactly, mkValue, Support.NavigableMap.values] using hsingle
  rw [compare_eq_iff_eq]
  constructor
  · -- the ranges from the lesser value to each of them are found equal
    intro hequal
    have hsame := (h.equals (between (min v w) v (min_le_left v w))
      (between (min v w) w (min_le_right v w))).mp (by
        simp [between, SortedRangeSet.equals, Support.NavigableMap.equals,
          Support.NavigableMap.get, Range.equals, Marker.equals, exactly, mkValue, hrefl, hequal])
    have hv := hsame v
    have hw := hsame w
    rw [Bool.eq_iff_iff, containsValue_between, containsValue_between] at hv hw
    exact le_antisymm (hv.mp ⟨min_le_left v w, le_rfl⟩).2 (hw.mpr ⟨min_le_right v w, le_rfl⟩).2
  · rintro rfl
    exact hrefl v

end Domain
end Presto.Predicate
