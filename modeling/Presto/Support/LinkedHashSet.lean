import Mathlib.Data.List.Sort
import Mathlib.Data.Quot

/-!
# Hash sets that keep insertion order

The elements of a linked hash set are told apart by an equivalence relation,
given as a Boolean equality, and iterate in the order of their insertion.
Membership respects the relation, so the set operations built from streams are
the Boolean combinations of membership.
-/

namespace Presto.Support

open List

/-- The elements in iteration order, pairwise different. -/
structure LinkedHashSet (α : Type*) [BEq α] where
  elements : List α
  distinct : elements.Pairwise fun a b => (a == b) = false

namespace LinkedHashSet

variable {α : Type*} [BEq α]

def empty : LinkedHashSet α := ⟨[], by simp⟩

def contains (s : LinkedHashSet α) (a : α) : Bool :=
  s.elements.contains a

def isEmpty (s : LinkedHashSet α) : Bool :=
  s.elements.isEmpty

def size (s : LinkedHashSet α) : ℕ :=
  s.elements.length

/-- `Set.equals`: as many elements, and every element of the other set. -/
def equals (s t : LinkedHashSet α) : Bool :=
  s.size == t.size && t.elements.all s.contains

variable [EquivBEq α]

/-- An element that equals a stored one is not added again. -/
def add (s : LinkedHashSet α) (a : α) : LinkedHashSet α :=
  if h : s.contains a then s
  else
    ⟨s.elements ++ [a], by
      rw [List.pairwise_append]
      refine ⟨s.distinct, by simp, ?_⟩
      intro b hb c hc
      obtain rfl : c = a := by simpa using hc
      by_contra hbc
      have hcb : (c == b) = true := BEq.symm (by simpa using hbc)
      exact h (List.contains_iff_exists_mem_beq.mpr ⟨b, hb, hcb⟩)⟩

/-- Collects a stream into a set. -/
def ofList (as : List α) : LinkedHashSet α :=
  as.foldl add empty

def intersect (s t : LinkedHashSet α) : LinkedHashSet α :=
  ofList (s.elements.filter t.contains)

def union (s t : LinkedHashSet α) : LinkedHashSet α :=
  ofList (s.elements ++ t.elements)

def subtract (s t : LinkedHashSet α) : LinkedHashSet α :=
  ofList (s.elements.filter fun a => !t.contains a)

variable {s : LinkedHashSet α} {a : α}

theorem contains_iff : s.contains a = true ↔ ∃ b ∈ s.elements, (b == a) = true := by
  unfold contains
  rw [contains_iff_exists_mem_beq]
  simp only [BEq.comm (a := a)]

theorem contains_congr {b : α} (h : (a == b) = true) : s.contains a = s.contains b := by
  rw [Bool.eq_iff_iff, contains_iff, contains_iff]
  constructor
  · rintro ⟨c, hc, hca⟩
    exact ⟨c, hc, BEq.trans hca h⟩
  · rintro ⟨c, hc, hcb⟩
    exact ⟨c, hc, BEq.trans hcb (BEq.symm h)⟩

theorem contains_add (s : LinkedHashSet α) (a b : α) :
    (s.add a).contains b = (s.contains b || a == b) := by
  unfold add
  split
  next h =>
    by_cases hab : (a == b) = true
    · rw [← contains_congr hab, h]
      rfl
    · simp [hab]
  next h =>
    rw [Bool.eq_iff_iff, contains_iff, Bool.or_eq_true, contains_iff]
    simp

theorem contains_foldl_add (as : List α) :
    ∀ (s : LinkedHashSet α) (b : α),
      (as.foldl add s).contains b = (s.contains b || as.any (· == b)) := by
  induction as with
  | nil => simp
  | cons a as ih =>
      intro s b
      rw [foldl_cons, ih, contains_add, any_cons, Bool.or_assoc]

@[simp] theorem contains_ofList (as : List α) (b : α) :
    (ofList as).contains b = as.any (· == b) := by
  have hempty : (empty : LinkedHashSet α).contains b = false := by
    simp [empty, contains]
  rw [ofList, contains_foldl_add, hempty, Bool.false_or]

/-- Filtering by a test that respects the relation filters membership. -/
theorem any_filter_eq (s : LinkedHashSet α) {p : α → Bool}
    (hp : ∀ a b, (a == b) = true → p a = p b) (b : α) :
    (s.elements.filter p).any (· == b) = (s.contains b && p b) := by
  rw [Bool.eq_iff_iff, Bool.and_eq_true, contains_iff, any_eq_true]
  constructor
  · rintro ⟨a, ha, hab⟩
    obtain ⟨hmem, hpa⟩ := mem_filter.mp ha
    exact ⟨⟨a, hmem, hab⟩, hp a b hab ▸ hpa⟩
  · rintro ⟨⟨a, ha, hab⟩, hpb⟩
    exact ⟨a, mem_filter.mpr ⟨ha, (hp a b hab).trans hpb⟩, hab⟩

@[simp] theorem contains_intersect (s t : LinkedHashSet α) (b : α) :
    (s.intersect t).contains b = (s.contains b && t.contains b) := by
  rw [intersect, contains_ofList]
  exact s.any_filter_eq (fun _ _ h => contains_congr h) b

@[simp] theorem contains_union (s t : LinkedHashSet α) (b : α) :
    (s.union t).contains b = (s.contains b || t.contains b) := by
  rw [union, contains_ofList, Bool.eq_iff_iff, Bool.or_eq_true, contains_iff,
    contains_iff, any_append, Bool.or_eq_true, any_eq_true,
    any_eq_true]

@[simp] theorem contains_subtract (s t : LinkedHashSet α) (b : α) :
    (s.subtract t).contains b = (s.contains b && !t.contains b) := by
  rw [subtract, contains_ofList]
  apply s.any_filter_eq
  intro a b h
  rw [contains_congr h]

/-! ## Equality of sets -/

/-- The relation of the elements as a setoid. -/
def setoid (α : Type*) [BEq α] [EquivBEq α] : Setoid α where
  r a b := (a == b) = true
  iseqv := ⟨fun _ => BEq.rfl, BEq.symm, BEq.trans⟩

/-- The classes of the elements, each of them once. -/
def classes (s : LinkedHashSet α) : List (Quotient (setoid α)) :=
  s.elements.map (Quotient.mk (setoid α))

theorem mk_eq_mk_iff {b : α} :
    Quotient.mk (setoid α) a = Quotient.mk (setoid α) b ↔ (a == b) = true :=
  Quotient.eq

theorem nodup_classes (s : LinkedHashSet α) : s.classes.Nodup := by
  unfold classes List.Nodup
  rw [pairwise_map]
  refine s.distinct.imp ?_
  intro a b hab heq
  rw [mk_eq_mk_iff, hab] at heq
  exact Bool.false_ne_true heq

theorem mem_classes_iff : Quotient.mk (setoid α) a ∈ s.classes ↔ s.contains a = true := by
  rw [classes, mem_map, contains_iff]
  simp only [mk_eq_mk_iff]

variable {s t : LinkedHashSet α}

theorem all_contains_iff : t.elements.all s.contains = true ↔ t.classes ⊆ s.classes := by
  rw [all_eq_true]
  constructor
  · intro h c hc
    obtain ⟨a, ha, rfl⟩ := mem_map.mp hc
    exact mem_classes_iff.mpr (h a ha)
  · intro h a ha
    exact mem_classes_iff.mp (h (mem_map_of_mem ha))

/-- Equal sets are those with the same members. -/
theorem equals_iff : s.equals t = true ↔ ∀ a, s.contains a = t.contains a := by
  rw [equals, Bool.and_eq_true, beq_iff_eq, all_contains_iff]
  have hs : s.classes.length = s.size := length_map _
  have ht : t.classes.length = t.size := length_map _
  constructor
  · rintro ⟨hsize, hsubset⟩ a
    have hperm : t.classes.Perm s.classes := by
      refine (subperm_of_subset t.nodup_classes hsubset).perm_of_length_le ?_
      rw [hs, ht, hsize]
    rw [Bool.eq_iff_iff, ← mem_classes_iff, ← mem_classes_iff, hperm.mem_iff]
  · intro h
    have hperm : s.classes.Perm t.classes := by
      refine (perm_ext_iff_of_nodup s.nodup_classes t.nodup_classes).mpr (Quotient.ind ?_)
      intro a
      rw [mem_classes_iff, mem_classes_iff, h a]
    exact ⟨by rw [← hs, ← ht, hperm.length_eq], hperm.symm.subset⟩

theorem isEmpty_iff : s.isEmpty = true ↔ ∀ a, s.contains a = false := by
  rw [isEmpty, List.isEmpty_iff]
  constructor
  · intro h a
    rw [contains, h]
    rfl
  · intro h
    rw [eq_nil_iff_forall_not_mem]
    intro a ha
    have hmem : s.contains a = true := contains_iff.mpr ⟨a, ha, BEq.rfl⟩
    rw [h a] at hmem
    exact Bool.false_ne_true hmem

end LinkedHashSet
end Presto.Support
