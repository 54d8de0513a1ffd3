import Mathlib.Order.Cover
import Mathlib.Order.Lattice
import Mathlib.Data.List.Pairwise
import Mathlib.Order.Interval.Set.LinearOrder

/-!
# Closed intervals of a linear order

Endpoint arithmetic for lists of closed intervals.  Two intervals that overlap,
or whose endpoints are neighbours in the order, have their union as their span;
in an ascending list one comparison of endpoints decides which interval can
hold a point.  The sweeps over such lists are proved from these facts.
-/

namespace Presto.Support

variable {β : Type*} [LinearOrder β]

/-- A nonempty closed interval, given by its endpoints. -/
structure ClosedInterval (β : Type*) [LinearOrder β] where
  lo : β
  hi : β
  le : lo ≤ hi

namespace ClosedInterval

instance : Membership β (ClosedInterval β) :=
  ⟨fun i x => i.lo ≤ x ∧ x ≤ i.hi⟩

variable {i : ClosedInterval β} {x : β}

theorem mem_iff :
    x ∈ i ↔ i.lo ≤ x ∧ x ≤ i.hi := Iff.rfl

/-- The intervals share a point. -/
def Overlap (i j : ClosedInterval β) : Prop :=
  i.lo ≤ j.hi ∧ j.lo ≤ i.hi

variable {i j : ClosedInterval β}

theorem overlap_of_mem (hi : x ∈ i) (hj : x ∈ j) : Overlap i j :=
  ⟨hi.1.trans hj.2, hj.1.trans hi.2⟩

/-- The smallest interval that holds both arguments. -/
def span (i j : ClosedInterval β) : ClosedInterval β where
  lo := min i.lo j.lo
  hi := max i.hi j.hi
  le := (min_le_left _ _).trans (i.le.trans (le_max_left _ _))

/-- The span adds no point when the intervals overlap or when the second one
starts right after the end of the first. -/
theorem mem_span_iff (h : Overlap i j ∨ i.hi ⋖ j.lo) : x ∈ span i j ↔ x ∈ i ∨ x ∈ j := by
  rcases h with h | h
  · exact (Set.ext_iff.mp (Set.Icc_union_Icc' h.2 h.1) x).symm
  · have hlo : i.lo ≤ j.lo := i.le.trans h.le
    have hhi : i.hi ≤ j.hi := h.le.trans j.le
    simp only [span, min_eq_left hlo, max_eq_right hhi]
    constructor
    · rintro ⟨hx, hx'⟩
      exact (le_or_gt x i.hi).imp (⟨hx, ·⟩) fun hgt => ⟨h.ge_of_gt hgt, hx'⟩
    · rintro (hx | hx)
      · exact ⟨hx.1, hx.2.trans hhi⟩
      · exact ⟨hlo.trans hx.1, hx.2⟩

/-- The common part of two overlapping intervals. -/
def inter (i j : ClosedInterval β) (h : Overlap i j) : ClosedInterval β where
  lo := max i.lo j.lo
  hi := min i.hi j.hi
  le := max_le (le_min i.le h.1) (le_min h.2 j.le)

theorem mem_inter_iff (h : Overlap i j) : x ∈ inter i j h ↔ x ∈ i ∧ x ∈ j := by
  simp only [mem_iff, inter, max_le_iff, le_min_iff]
  tauto

/-- Some interval of the list holds the point. -/
def Covers (is : List (ClosedInterval β)) (x : β) : Prop :=
  ∃ i ∈ is, x ∈ i

@[simp] theorem covers_nil (x : β) : Covers ([] : List (ClosedInterval β)) x ↔ False := by
  simp [Covers]

@[simp] theorem covers_cons (i : ClosedInterval β) (is : List (ClosedInterval β)) (x : β) :
    Covers (i :: is) x ↔ x ∈ i ∨ Covers is x := by
  simp [Covers]

@[simp] theorem covers_append (is js : List (ClosedInterval β)) (x : β) :
    Covers (is ++ js) x ↔ Covers is x ∨ Covers js x := by
  simp [Covers, or_and_right, exists_or]

/-- Each interval of the list ends before the later ones start. -/
def Ascending (is : List (ClosedInterval β)) : Prop :=
  is.Pairwise fun i j => i.hi < j.lo

variable {is : List (ClosedInterval β)}

theorem Ascending.tail (h : Ascending (i :: is)) : Ascending is :=
  (List.pairwise_cons.mp h).2

theorem Ascending.head_lt (h : Ascending (i :: is)) (hj : j ∈ is) : i.hi < j.lo :=
  (List.pairwise_cons.mp h).1 j hj

/-- A point at or below the end of the first interval is covered by that
interval only. -/
theorem Ascending.covers_cons_iff_of_le (h : Ascending (i :: is)) (hx : x ≤ i.hi) :
    Covers (i :: is) x ↔ x ∈ i := by
  rw [covers_cons]
  constructor
  · rintro (hmem | ⟨j, hj, hmem⟩)
    · exact hmem
    · exact absurd (hmem.1.trans hx) (not_le.mpr (h.head_lt hj))
  · exact Or.inl

/-- Sweep step: when the first interval of one list ends no later than the
first interval of the other, the former meets nothing beyond the latter. -/
theorem Ascending.covers_and_covers_iff_left {is js : List (ClosedInterval β)}
    (hjs : Ascending (j :: js)) (hle : i.hi ≤ j.hi) :
    (Covers (i :: is) x ∧ Covers (j :: js) x) ↔
      (x ∈ i ∧ x ∈ j) ∨ (Covers is x ∧ Covers (j :: js) x) := by
  rw [covers_cons]
  constructor
  · rintro ⟨hmem | hmem, hcov⟩
    · exact Or.inl ⟨hmem, (hjs.covers_cons_iff_of_le (hmem.2.trans hle)).mp hcov⟩
    · exact Or.inr ⟨hmem, hcov⟩
  · rintro (⟨hi, hj⟩ | ⟨hcov, hcov'⟩)
    · exact ⟨Or.inl hi, by simp [hj]⟩
    · exact ⟨Or.inr hcov, hcov'⟩

/-- The interval between two neighbours of given points holds exactly the
points strictly between them. -/
theorem mem_gap_iff {a b : β} {g : ClosedInterval β} (hlo : a ⋖ g.lo) (hhi : g.hi ⋖ b) :
    x ∈ g ↔ a < x ∧ x < b := by
  rw [mem_iff, hlo.lt_iff_le_right, hhi.lt_iff_le_left]

end ClosedInterval
end Presto.Support
