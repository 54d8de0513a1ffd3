import Presto.Support.LinkedHashSet

/-!
# Equatable value sets

A set of values of a type that is comparable but not orderable: the values are
collectively included or collectively excluded.  Two values are the same entry
when the equality of the type says so.
-/

namespace Presto.Predicate

open Support (LinkedHashSet)

/-- The entries are the members of a white list, and the non-members
otherwise. -/
structure EquatableValueSet (α : Type*) [BEq α] where
  whiteList : Bool
  entries : LinkedHashSet α

namespace EquatableValueSet

variable {α : Type*} [BEq α]

def none : EquatableValueSet α := ⟨true, .empty⟩

def all : EquatableValueSet α := ⟨false, .empty⟩

variable (s : EquatableValueSet α)

def isNone : Bool :=
  s.whiteList && s.entries.isEmpty

def isAll : Bool :=
  !s.whiteList && s.entries.isEmpty

def isSingleValue : Bool :=
  s.whiteList && s.entries.size == 1

def containsValue (value : α) : Bool :=
  s.whiteList == s.entries.contains value

def complement : EquatableValueSet α :=
  ⟨!s.whiteList, s.entries⟩

variable [EquivBEq α]

def of (first : α) (rest : List α) : EquatableValueSet α :=
  ⟨true, .ofList (first :: rest)⟩

def copyOf (values : List α) : EquatableValueSet α :=
  ⟨true, .ofList values⟩

def intersect (s other : EquatableValueSet α) : EquatableValueSet α :=
  if s.whiteList && other.whiteList then
    ⟨true, s.entries.intersect other.entries⟩
  else if s.whiteList then
    ⟨true, s.entries.subtract other.entries⟩
  else if other.whiteList then
    ⟨true, other.entries.subtract s.entries⟩
  else
    ⟨false, other.entries.union s.entries⟩

def union (s other : EquatableValueSet α) : EquatableValueSet α :=
  if s.whiteList && other.whiteList then
    ⟨true, s.entries.union other.entries⟩
  else if s.whiteList then
    ⟨false, other.entries.subtract s.entries⟩
  else if other.whiteList then
    ⟨false, s.entries.subtract other.entries⟩
  else
    ⟨false, other.entries.intersect s.entries⟩

/-- `ValueSet.union(Collection)`: the sets are united one after the other. -/
def unionAll (s : EquatableValueSet α) (valueSets : List (EquatableValueSet α)) :
    EquatableValueSet α :=
  valueSets.foldl union s

/-- `ValueSet.subtract`. -/
def subtract (s other : EquatableValueSet α) : EquatableValueSet α :=
  s.intersect other.complement

/-! ## Membership -/

omit [EquivBEq α] in
theorem containsValue_complement (s : EquatableValueSet α) (v : α) :
    s.complement.containsValue v = !s.containsValue v := by
  cases hs : s.whiteList with
  | true | false => simp [complement, containsValue, hs]

theorem containsValue_intersect (s other : EquatableValueSet α) (v : α) :
    (s.intersect other).containsValue v = (s.containsValue v && other.containsValue v) := by
  cases hs : s.whiteList <;> cases hother : other.whiteList
  · -- both exclude: the excluded values are united
    simp [intersect, containsValue, hs, hother, Bool.and_comm]
  · simp [intersect, containsValue, hs, hother, Bool.and_comm]
  · simp [intersect, containsValue, hs, hother]
  · simp [intersect, containsValue, hs, hother]

theorem containsValue_union (s other : EquatableValueSet α) (v : α) :
    (s.union other).containsValue v = (s.containsValue v || other.containsValue v) := by
  cases hs : s.whiteList <;> cases hother : other.whiteList
  · -- both exclude: only what both exclude stays excluded
    simp [union, containsValue, hs, hother, Bool.or_comm]
  · simp [union, containsValue, hs, hother]
  · simp [union, containsValue, hs, hother, Bool.or_comm]
  · simp [union, containsValue, hs, hother]

theorem containsValue_unionAll (valueSets : List (EquatableValueSet α)) :
    ∀ (s : EquatableValueSet α) (v : α),
      (s.unionAll valueSets).containsValue v =
        (s.containsValue v || valueSets.any fun set => set.containsValue v) := by
  unfold unionAll
  induction valueSets with
  | nil => simp
  | cons set rest ih =>
      intro s v
      rw [List.foldl_cons, ih, containsValue_union, List.any_cons, Bool.or_assoc]

theorem containsValue_subtract (s other : EquatableValueSet α) (v : α) :
    (s.subtract other).containsValue v = (s.containsValue v && !other.containsValue v) := by
  rw [subtract, containsValue_intersect, containsValue_complement]

end EquatableValueSet
end Presto.Predicate
