import Presto.Predicate.EquatableValueSet
import Presto.Predicate.SortedRangeSetLaws

/-!
# Domains

A domain is a set of values of one type together with a flag for null.  The
class of its value set follows from the type: ranges for an orderable type,
entries for one that is only comparable, all or nothing otherwise.  Every
operation of a domain is the set operation on the nullable values it includes.
-/

namespace Presto.Predicate

universe u

variable {α : Type u}

/-- A column type, as far as the predicates tell types apart: `compareTo` of an
orderable type is a linear order on its native values, from which its `equalTo`
may differ, and `equalTo` of a comparable one is an equivalence. -/
inductive ColumnType (α : Type u)
  | orderable (order : LinearOrder α) (equality : BEq α) (kind : OrderableType α)
  | comparable (equality : BEq α) (equivalence : EquivBEq α)
  | incomparable

/-- The value sets of a type that is not even comparable. -/
structure AllOrNoneValueSet (α : Type u) : Type u where
  all : Bool

namespace AllOrNoneValueSet

def containsValue (s : AllOrNoneValueSet α) (_ : α) : Bool := s.all

variable (s other : AllOrNoneValueSet α)

def intersect : AllOrNoneValueSet α :=
  ⟨s.all && other.all⟩

def union : AllOrNoneValueSet α :=
  ⟨s.all || other.all⟩

def complement (s : AllOrNoneValueSet α) : AllOrNoneValueSet α := ⟨!s.all⟩

def unionAll (s : AllOrNoneValueSet α) (valueSets : List (AllOrNoneValueSet α)) :
    AllOrNoneValueSet α :=
  valueSets.foldl union s

def subtract : AllOrNoneValueSet α :=
  s.intersect other.complement

theorem containsValue_unionAll (valueSets : List (AllOrNoneValueSet α)) :
    ∀ (s : AllOrNoneValueSet α) (v : α),
      (s.unionAll valueSets).containsValue v =
        (s.containsValue v || valueSets.any fun set => set.containsValue v) := by
  unfold unionAll
  induction valueSets with
  | nil => simp
  | cons set rest ih =>
      intro s v
      rw [List.foldl_cons, ih, List.any_cons, ← Bool.or_assoc]
      rfl

end AllOrNoneValueSet

/-- The value sets of a type. -/
def ValueSet : ColumnType α → Type u
  | .orderable _ _ kind => SortedRangeSet kind
  | .comparable _ _ => EquatableValueSet α
  | .incomparable => AllOrNoneValueSet α

namespace ValueSet

def isNone : {type : ColumnType α} → ValueSet type → Bool
  | .orderable _ _ _, s => SortedRangeSet.isNone s
  | .comparable _ _, s => EquatableValueSet.isNone s
  | .incomparable, s => !AllOrNoneValueSet.all s

def isAll : {type : ColumnType α} → ValueSet type → Bool
  | .orderable _ _ _, s => SortedRangeSet.isAll s
  | .comparable _ _, s => EquatableValueSet.isAll s
  | .incomparable, s => AllOrNoneValueSet.all s

def containsValue : {type : ColumnType α} → ValueSet type → α → Bool
  | .orderable _ _ _, s => SortedRangeSet.containsValue s
  | .comparable _ _, s => EquatableValueSet.containsValue s
  | .incomparable, s => AllOrNoneValueSet.containsValue s

def intersect :
    {type : ColumnType α} → ValueSet type → ValueSet type → Result (ValueSet type)
  | .orderable _ _ _, s, other => SortedRangeSet.intersect s other
  | .comparable _ _, s, other => .ok (EquatableValueSet.intersect s other)
  | .incomparable, s, other => .ok (AllOrNoneValueSet.intersect s other)

def union :
    {type : ColumnType α} → ValueSet type → ValueSet type → Result (ValueSet type)
  | .orderable _ _ _, s, other => SortedRangeSet.union s other
  | .comparable _ _, s, other => .ok (EquatableValueSet.union s other)
  | .incomparable, s, other => .ok (AllOrNoneValueSet.union s other)

/-- `union(Collection)`, which sorted range sets override. -/
def unionAll : {type : ColumnType α} →
    ValueSet type → List (ValueSet type) → Result (ValueSet type)
  | .orderable _ _ _, s, valueSets => SortedRangeSet.unionAll s valueSets
  | .comparable _ _, s, valueSets => .ok (EquatableValueSet.unionAll s valueSets)
  | .incomparable, s, valueSets => .ok (AllOrNoneValueSet.unionAll s valueSets)

def complement : {type : ColumnType α} → ValueSet type → Result (ValueSet type)
  | .orderable _ _ _, s => SortedRangeSet.complement s
  | .comparable _ _, s => .ok (EquatableValueSet.complement s)
  | .incomparable, s => .ok (AllOrNoneValueSet.complement s)

def subtract {type : ColumnType α} (s other : ValueSet type) :
    Result (ValueSet type) := do
  let complement ← other.complement
  s.intersect complement

variable {type : ColumnType α}

theorem intersect_spec (s other : ValueSet type) :
    ∃ t, s.intersect other = .ok t ∧
      ∀ v, t.containsValue v = (s.containsValue v && other.containsValue v) := by
  cases type with
  | orderable order equality kind => exact SortedRangeSet.intersect_spec s other
  | comparable equality equivalence =>
      exact ⟨_, rfl, EquatableValueSet.containsValue_intersect s other⟩
  | incomparable => exact ⟨_, rfl, fun _ => rfl⟩

theorem union_spec (s other : ValueSet type) :
    ∃ t, s.union other = .ok t ∧
      ∀ v, t.containsValue v = (s.containsValue v || other.containsValue v) := by
  cases type with
  | orderable order equality kind => exact SortedRangeSet.union_spec s other
  | comparable equality equivalence =>
      exact ⟨_, rfl, EquatableValueSet.containsValue_union s other⟩
  | incomparable => exact ⟨_, rfl, fun _ => rfl⟩

theorem unionAll_spec (s : ValueSet type) (valueSets : List (ValueSet type)) :
    ∃ t, s.unionAll valueSets = .ok t ∧
      ∀ v, t.containsValue v =
        (s.containsValue v || valueSets.any fun set => set.containsValue v) := by
  cases type with
  | orderable order equality kind => exact SortedRangeSet.unionAll_spec s valueSets
  | comparable equality equivalence =>
      exact ⟨_, rfl, EquatableValueSet.containsValue_unionAll valueSets s⟩
  | incomparable =>
      exact ⟨_, rfl, AllOrNoneValueSet.containsValue_unionAll valueSets s⟩

theorem complement_spec (s : ValueSet type) :
    ∃ t, s.complement = .ok t ∧ ∀ v, t.containsValue v = !s.containsValue v := by
  cases type with
  | orderable order equality kind => exact SortedRangeSet.complement_spec s
  | comparable equality equivalence =>
      exact ⟨_, rfl, EquatableValueSet.containsValue_complement s⟩
  | incomparable => exact ⟨_, rfl, fun _ => rfl⟩

theorem subtract_spec (s other : ValueSet type) :
    ∃ t, s.subtract other = .ok t ∧
      ∀ v, t.containsValue v = (s.containsValue v && !other.containsValue v) := by
  obtain ⟨c, hc, hcomplement⟩ := other.complement_spec
  obtain ⟨t, ht, hintersect⟩ := s.intersect_spec c
  refine ⟨t, ?_, ?_⟩
  · rw [subtract, hc]
    exact ht
  · intro v
    rw [hintersect, hcomplement]

end ValueSet

/-- The values of a type that a column may take, null included or not. -/
structure Domain (type : ColumnType α) where
  values : ValueSet type
  nullAllowed : Bool

namespace Domain

variable {type : ColumnType α} (d : Domain type)

def isNone : Bool :=
  d.values.isNone && !d.nullAllowed

def isAll : Bool :=
  d.values.isAll && d.nullAllowed

def isOnlyNull : Bool :=
  d.values.isNone && d.nullAllowed

/-- Null is modelled by `none`. -/
def includesNullableValue : Option α → Bool
  | none => d.nullAllowed
  | some value => d.values.containsValue value

variable (d other : Domain type)

def intersect : Result (Domain type) := do
  let values ← d.values.intersect other.values
  pure ⟨values, d.nullAllowed && other.nullAllowed⟩

def union : Result (Domain type) := do
  let values ← d.values.union other.values
  pure ⟨values, d.nullAllowed || other.nullAllowed⟩

/-- `union(List)`. -/
def unionAll (domains : List (Domain type)) : Result (Domain type) :=
  match domains with
  | [] => .error (.illegalArgument "domains cannot be empty for union")
  | [d] => .ok d
  | d :: rest => do
      let unionedValues ← d.values.unionAll (rest.map Domain.values)
      pure ⟨unionedValues, (d :: rest).any Domain.nullAllowed⟩

def complement : Result (Domain type) := do
  let values ← d.values.complement
  pure ⟨values, !d.nullAllowed⟩

def subtract : Result (Domain type) := do
  let values ← d.values.subtract other.values
  pure ⟨values, d.nullAllowed && !other.nullAllowed⟩

/-! ## Set algebra -/

/-- An operation on the value sets and on the null flags is one on nullable values. -/
theorem includesNullableValue_spec
    {outcome : Result (ValueSet type)} {nullAllowed : Bool} {included : Option α → Bool}
    (hvalues : ∃ values, outcome = .ok values ∧
      ∀ value, values.containsValue value = included (some value))
    (hnull : nullAllowed = included none) :
    ∃ r, (do let values ← outcome; pure (⟨values, nullAllowed⟩ : Domain type)) = .ok r ∧
      ∀ v, r.includesNullableValue v = included v := by
  obtain ⟨values, rfl, hcontains⟩ := hvalues
  refine ⟨⟨values, nullAllowed⟩, rfl, ?_⟩
  intro v
  cases v with
  | none => exact hnull
  | some value => exact hcontains value

theorem intersect_spec :
    ∃ r, d.intersect other = .ok r ∧ ∀ v, r.includesNullableValue v =
      (d.includesNullableValue v && other.includesNullableValue v) :=
  includesNullableValue_spec (d.values.intersect_spec other.values) rfl

theorem union_spec :
    ∃ r, d.union other = .ok r ∧ ∀ v, r.includesNullableValue v =
      (d.includesNullableValue v || other.includesNullableValue v) :=
  includesNullableValue_spec (d.values.union_spec other.values) rfl

theorem unionAll_spec (rest : List (Domain type)) :
    ∃ r, unionAll (d :: rest) = .ok r ∧ ∀ v, r.includesNullableValue v =
      (d :: rest).any fun domain => domain.includesNullableValue v := by
  cases rest with
  | nil => exact ⟨d, rfl, by simp⟩
  | cons e rest =>
      have hvalues := d.values.unionAll_spec ((e :: rest).map Domain.values)
      simp only [List.any_map] at hvalues
      exact includesNullableValue_spec hvalues rfl

theorem complement_spec :
    ∃ r, d.complement = .ok r ∧ ∀ v, r.includesNullableValue v = !d.includesNullableValue v :=
  includesNullableValue_spec d.values.complement_spec rfl

theorem subtract_spec :
    ∃ r, d.subtract other = .ok r ∧ ∀ v, r.includesNullableValue v =
      (d.includesNullableValue v && !other.includesNullableValue v) :=
  includesNullableValue_spec (d.values.subtract_spec other.values) rfl

/-- Every operation on domains of one type returns the domain whose nullable
values are the Boolean combination of those of its arguments; only the union of
no domain at all is refused. -/
theorem operations_are_set_algebra (type : ColumnType α) :
    (∀ d other : Domain type, ∃ r, d.intersect other = .ok r ∧
      ∀ v, r.includesNullableValue v =
        (d.includesNullableValue v && other.includesNullableValue v)) ∧
    (∀ d other : Domain type, ∃ r, d.union other = .ok r ∧
      ∀ v, r.includesNullableValue v =
        (d.includesNullableValue v || other.includesNullableValue v)) ∧
    (∀ (d : Domain type) (rest : List (Domain type)), ∃ r,
      unionAll (d :: rest) = .ok r ∧ ∀ v, r.includesNullableValue v =
        (d :: rest).any fun domain => domain.includesNullableValue v) ∧
    unionAll ([] : List (Domain type)) =
      .error (.illegalArgument "domains cannot be empty for union") ∧
    (∀ d : Domain type, ∃ r, d.complement = .ok r ∧
      ∀ v, r.includesNullableValue v = !d.includesNullableValue v) ∧
    (∀ d other : Domain type, ∃ r, d.subtract other = .ok r ∧
      ∀ v, r.includesNullableValue v =
        (d.includesNullableValue v && !other.includesNullableValue v)) :=
  ⟨intersect_spec, union_spec, unionAll_spec, rfl, complement_spec, subtract_spec⟩

end Domain
end Presto.Predicate
