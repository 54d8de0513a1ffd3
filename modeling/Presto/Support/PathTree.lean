import Mathlib.Algebra.BigOperators.Group.Finset.Basic
import Mathlib.Algebra.BigOperators.Group.Finset.Piecewise
import Mathlib.Algebra.BigOperators.Ring.Finset
import Mathlib.Data.List.Induction
import Mathlib.Data.List.Infix
import Mathlib.Data.List.MinMax
import Mathlib.Data.List.Nodup

/-!
# Finite trees of paths

The nodes of a tree are paths, with the last segment in front, so that the
parent of a path is its tail and the nodes above it are its suffixes.  The
module has what a development about counters kept in such a tree needs: sums
over everything below a node, what a change in one node does to them, and how
they split over the children.
-/

namespace Presto

open List

/-- A finite tree whose nodes are paths from the node to the root. -/
structure PathTree (N : Type) where
  ids : List (List N)
  nodup : ids.Nodup
  root_mem : [] ∈ ids
  parent_mem : ∀ n p, n :: p ∈ ids → p ∈ ids

/-- The path `q` lies strictly below the path `p`. -/
def Below {N : Type} (p q : List N) : Prop := p <:+ q ∧ p ≠ q

instance Below.decidable {N : Type} [DecidableEq N] (p q : List N) : Decidable (Below p q) :=
  inferInstanceAs (Decidable (p <:+ q ∧ p ≠ q))

variable {N : Type}

theorem ne_of_not_suffix {p q : List N} (h : ¬ p <:+ q) : p ≠ q := by
  rintro rfl
  exact h suffix_rfl

theorem not_cons_suffix_self (n : N) (p : List N) : ¬ (n :: p) <:+ p :=
  fun h => absurd h.length_le (by simp)

namespace Below

variable {N : Type} {p q r : List N} {n : N}

theorem cons_iff : Below p (n :: q) ↔ p <:+ q := by
  constructor
  · rintro ⟨hsuffix, hne⟩
    exact (suffix_cons_iff.mp hsuffix).resolve_left hne
  · intro hsuffix
    refine ⟨suffix_cons_iff.mpr (.inr hsuffix), ?_⟩
    rintro rfl
    exact absurd hsuffix.length_le (by simp)

theorem irrefl : ¬ Below p p := fun h => h.2 rfl

theorem length_lt (h : Below p q) : p.length < q.length := by
  refine lt_of_le_of_ne h.1.length_le ?_
  intro hlength
  exact h.2 (h.1.eq_of_length hlength)

theorem trans_suffix (hpq : Below p q) (hqr : q <:+ r) : Below p r := by
  refine ⟨hpq.1.trans hqr, ?_⟩
  rintro rfl
  exact absurd (hpq.length_lt.trans_le hqr.length_le) (by omega)

/-- A path below `p` passes through a child of `p`. -/
theorem exists_child (h : Below p q) : ∃ n, (n :: p) <:+ q := by
  induction q with
  | nil => exact absurd h.length_lt (by simp)
  | cons m q ih =>
      rw [cons_iff] at h
      by_cases hpq : p = q
      · subst hpq
        exact ⟨m, suffix_rfl⟩
      · obtain ⟨n, hn⟩ := ih ⟨h, hpq⟩
        exact ⟨n, hn.trans (suffix_cons m q)⟩

end Below

theorem below_of_child {n : N} {p q : List N} (h : (n :: p) <:+ q) : Below p q :=
  (Below.cons_iff.mpr suffix_rfl).trans_suffix h

/-- Two children of one node on a common path are the same. -/
theorem child_unique {m n : N} {p q : List N}
    (hm : (m :: p) <:+ q) (hn : (n :: p) <:+ q) : m = n := by
  have hle : (m :: p).length ≤ (n :: p).length := by simp
  have hmn := suffix_of_suffix_length_le hm hn hle
  have heq := hmn.eq_of_length (by simp)
  exact (cons.inj heq).1

/-- A node on the path from `x` up to `p` is `p`, or the path has not left the child yet. -/
theorem eq_or_child_suffix {n : N} {p a x : List N}
    (hn : (n :: p) <:+ x) (hpa : p <:+ a) (hax : a <:+ x) : a = p ∨ (n :: p) <:+ a := by
  by_cases heq : p = a
  · exact .inl heq.symm
  · obtain ⟨m, hm⟩ := Below.exists_child ⟨hpa, heq⟩
    rw [child_unique (hm.trans hax) hn] at hm
    exact .inr hm

/-- Climbing from a node towards the root. -/
theorem climb_induction {motive : List N → Prop} {x : List N} (start : motive x)
    (climb : ∀ n a, (n :: a) <:+ x → motive (n :: a) → motive a) {a : List N} (ha : a <:+ x) :
    motive a := by
  obtain ⟨l, rfl⟩ := ha
  induction l using reverseRecOn generalizing a with
  | nil => exact start
  | append_singleton l n ih =>
      rw [append_assoc] at start climb
      exact climb n a (suffix_append l (n :: a)) (ih start climb)

namespace PathTree

variable {N : Type} (t : PathTree N) {p q : List N} {n : N}

/-- The node is in the tree with everything above it. -/
theorem mem_of_suffix (hsuffix : p <:+ q) (hq : q ∈ t.ids) : p ∈ t.ids :=
  climb_induction (motive := (· ∈ t.ids)) hq (fun n a _ => t.parent_mem n a) hsuffix

/-- The length of the longest path. -/
def height : ℕ := (t.ids.map List.length).foldr max 0

theorem length_le_height (hp : p ∈ t.ids) : p.length ≤ t.height :=
  le_max_of_le' 0 (mem_map_of_mem hp) le_rfl

variable [DecidableEq N]

/-- The last segments of the children of a node. -/
def children (p : List N) : List N :=
  t.ids.filterMap fun q =>
    match q with
    | [] => none
    | n :: parent => if parent = p then some n else none

theorem mem_children : n ∈ t.children p ↔ n :: p ∈ t.ids := by
  rw [children, mem_filterMap]
  constructor
  · rintro ⟨q, hq, heq⟩
    cases q with
    | nil => simp at heq
    | cons m parent =>
        simp only [Option.ite_none_right_eq_some, Option.some.injEq] at heq
        obtain ⟨rfl, rfl⟩ := heq
        exact hq
  · intro hmem
    exact ⟨n :: p, hmem, by simp⟩

theorem nodup_children (p : List N) : (t.children p).Nodup := by
  refine t.nodup.filterMap ?_
  intro a b n ha hb
  cases a with
  | nil => simp at ha
  | cons k a =>
      cases b with
      | nil => simp at hb
      | cons m b =>
          simp only [Option.mem_def, Option.ite_none_right_eq_some, Option.some.injEq] at ha hb
          obtain ⟨rfl, rfl⟩ := ha
          obtain ⟨rfl, rfl⟩ := hb
          rfl

theorem children_eq_nil_of_height (hlength : t.height ≤ p.length) : t.children p = [] := by
  rw [eq_nil_iff_forall_not_mem]
  intro n hn
  have hchild := t.length_le_height (t.mem_children.mp hn)
  rw [length_cons] at hchild
  omega

/-- Nothing lies below a node without children. -/
theorem eq_of_leaf (hleaf : t.children p = []) (hq : q ∈ t.ids) (hsuffix : p <:+ q) : p = q := by
  by_contra hne
  obtain ⟨n, hn⟩ := Below.exists_child ⟨hsuffix, hne⟩
  exact ne_nil_of_mem (t.mem_children.mpr (t.mem_of_suffix hn hq)) hleaf

/-- A leaf lies at or below every node. -/
theorem exists_leaf (hp : p ∈ t.ids) : ∃ q ∈ t.ids, p <:+ q ∧ t.children q = [] := by
  obtain ⟨q, hq, hlongest⟩ := (t.ids.toFinset.filter (p <:+ ·)).exists_max_image length
    ⟨p, by simp [hp]⟩
  rw [Finset.mem_filter, mem_toFinset] at hq
  refine ⟨q, hq.1, hq.2, eq_nil_iff_forall_not_mem.mpr ?_⟩
  intro n hn
  have hle := hlongest (n :: q)
    (by simp [t.mem_children.mp hn, hq.2.trans (suffix_cons n q)])
  exact absurd hle (by simp)

/-! ## Sums over the nodes below a node -/

variable {f g : List N → ℤ}

/-- The sum of `f` over all nodes strictly below `p`. -/
def total (f : List N → ℤ) (p : List N) : ℤ :=
  ∑ q ∈ t.ids.toFinset with Below p q, f q

/-- The sum over a node and everything below it. -/
theorem add_total (hp : p ∈ t.ids) :
    f p + t.total f p = ∑ q ∈ t.ids.toFinset with p <:+ q, f q := by
  have herase : (t.ids.toFinset.filter fun q => Below p q) =
      (t.ids.toFinset.filter fun q => p <:+ q).erase p := by
    ext q
    simp only [Finset.mem_filter, Finset.mem_erase, Below, ne_comm (a := p)]
    tauto
  rw [total, herase]
  exact Finset.add_sum_erase _ f (by simp [hp])

/-- A change in one node changes the sums of the nodes above it. -/
theorem total_of_change
    {x : List N} {d : ℤ} (hx : x ∈ t.ids) (hchange : ∀ q, g q = f q + if q = x then d else 0)
    (p : List N) : t.total g p = t.total f p + if Below p x then d else 0 := by
  rw [total, Finset.sum_congr rfl fun q _ => hchange q, Finset.sum_add_distrib]
  simp [total, hx]

/-- The nodes below `p` are its children and the nodes below them. -/
theorem total_eq_sum_children (p : List N) :
    t.total f p = ∑ n ∈ (t.children p).toFinset, (f (n :: p) + t.total f (n :: p)) := by
  have hsplit : (t.ids.toFinset.filter fun q => Below p q) =
      (t.children p).toFinset.biUnion fun n => t.ids.toFinset.filter fun q => (n :: p) <:+ q := by
    ext q
    simp only [Finset.mem_filter, mem_toFinset, Finset.mem_biUnion, t.mem_children]
    constructor
    · rintro ⟨hq, hbelow⟩
      obtain ⟨n, hn⟩ := hbelow.exists_child
      exact ⟨n, t.mem_of_suffix hn hq, hq, hn⟩
    · rintro ⟨n, -, hq, hn⟩
      exact ⟨hq, below_of_child hn⟩
  have hdisjoint : ((t.children p).toFinset : Set N).PairwiseDisjoint fun n =>
      t.ids.toFinset.filter fun q => (n :: p) <:+ q := by
    intro m _ n _ hmn
    rw [Function.onFun, Finset.disjoint_filter]
    intro q _ hm hn
    exact hmn (child_unique hm hn)
  rw [total, hsplit, Finset.sum_biUnion hdisjoint]
  refine Finset.sum_congr rfl ?_
  intro n hn
  exact (t.add_total (t.mem_children.mp (mem_toFinset.mp hn))).symm

end PathTree
end Presto
