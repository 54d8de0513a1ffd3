import Mathlib.Data.List.Basic
import Mathlib.Order.Bounds.Defs
import Mathlib.Order.MinMax

/-!
# Edit distance

The least number of insertions, deletions and substitutions that turn one list into another, and
the recursion that computes it from the first elements.
-/

namespace Presto.Support

variable {α : Type*}

/-- The list `s` becomes another one by a number of edits, each at any place. -/
inductive Edits (s : List α) : ℕ → List α → Prop
  | refl : Edits s 0 s
  | insert {n : ℕ} (u v : List α) (a : α) (h : Edits s n (u ++ v)) : Edits s (n + 1) (u ++ a :: v)
  | delete {n : ℕ} (u v : List α) (a : α) (h : Edits s n (u ++ a :: v)) : Edits s (n + 1) (u ++ v)
  | substitute {n : ℕ} (u v : List α) (a b : α) (h : Edits s n (u ++ a :: v)) :
      Edits s (n + 1) (u ++ b :: v)

variable {s t : List α} {n : ℕ}

theorem Edits.cons (h : Edits s n t) (a : α) : Edits (a :: s) n (a :: t) := by
  induction h with
  | refl => exact .refl
  | insert u v b _ ih => exact .insert (a :: u) v b ih
  | delete u v b _ ih => exact .delete (a :: u) v b ih
  | substitute u v b c _ ih => exact .substitute (a :: u) v b c ih

theorem Edits.reverse (h : Edits s n t) : Edits s.reverse n t.reverse := by
  induction h with
  | refl => exact .refl
  | insert u v a _ ih => simpa using insert v.reverse u.reverse a (by simpa using ih)
  | delete u v a _ ih => simpa using delete v.reverse u.reverse a (by simpa using ih)
  | substitute u v a b _ ih =>
      simpa using substitute v.reverse u.reverse a b (by simpa using ih)

theorem Edits.trans {r : List α} {m : ℕ} (h : Edits r m s) (h' : Edits s n t) :
    Edits r (m + n) t := by
  induction h' with
  | refl => exact h
  | insert u v a _ ih => exact .insert u v a ih
  | delete u v a _ ih => exact .delete u v a ih
  | substitute u v a b _ ih => exact .substitute u v a b ih

variable [DecidableEq α]

def editDistance : List α → List α → ℕ
  | [], t => t.length
  | s, [] => s.length
  | a :: s, b :: t =>
      if a = b then editDistance s t
      else min (editDistance (a :: s) t) (min (editDistance s t) (editDistance s (b :: t))) + 1

@[simp] theorem editDistance_nil (s : List α) : editDistance s [] = s.length := by
  cases s <;> rw [editDistance]
  simp

theorem edits_editDistance (s t : List α) : Edits s (editDistance s t) t := by
  fun_induction editDistance s t with
  | case1 t =>
      induction t with
      | nil => exact .refl
      | cons b t ih => exact .insert [] t b ih
  | case2 s =>
      clear * -
      induction s with
      | nil => exact .refl
      | cons a s ih => exact .delete [] [] a (ih.cons a)
  | case3 s a t ih => exact ih.cons a
  | case4 a s b t hne ihinsert ihsubstitute ihdelete =>
      -- the edits of any of the three, and one more at the front
      let Reaches : ℕ → Prop := fun n => Edits (a :: s) (n + 1) (b :: t)
      refine min_rec' Reaches ?_ (min_rec' Reaches ?_ ?_)
      · exact .insert [] t b ihinsert
      · exact .substitute [] t a b (ihsubstitute.cons a)
      · exact .delete [] (b :: t) a (ihdelete.cons a)

/-- One more element on either side changes the distance by at most one. -/
theorem editDistance_cons (s t : List α) :
    (∀ a, editDistance s (a :: t) ≤ editDistance s t + 1 ∧
      editDistance s t ≤ editDistance s (a :: t) + 1) ∧
    ∀ a, editDistance (a :: s) t ≤ editDistance s t + 1 ∧
      editDistance s t ≤ editDistance (a :: s) t + 1 := by
  induction s generalizing t with
  | nil => induction t <;> grind [editDistance]
  | cons c s ihs =>
      induction t with
      | nil =>
          grind [editDistance, editDistance_nil]
      | cons b t iht =>
          have := ihs (b :: t)
          grind [editDistance]

/-- An edit changes the distance by at most one, whatever is before it. -/
theorem editDistance_append
    {v w : List α} (h : ∀ s : List α, editDistance s w ≤ editDistance s v + 1) (u s : List α) :
    editDistance s (u ++ w) ≤ editDistance s (u ++ v) + 1 := by
  induction u generalizing s with
  | nil => exact h s
  | cons a u ihu =>
      induction s with
      | nil => simpa [editDistance] using ihu []
      | cons b s ihs =>
          grind [editDistance]

theorem editDistance_le (h : Edits s n t) : editDistance s t ≤ n := by
  induction h with
  | refl => induction s <;> simp_all [editDistance]
  | insert u v a _ ih =>
      have := editDistance_append (fun s => ((editDistance_cons s v).1 a).1) u s
      omega
  | delete u v a _ ih =>
      have := editDistance_append (fun s => ((editDistance_cons s v).1 a).2) u s
      omega
  | substitute u v a b _ ih =>
      refine (editDistance_append ?_ u s).trans (Nat.succ_le_succ ih)
      rintro (_ | ⟨c, s⟩)
      · simp [editDistance]
      · have hleft := (editDistance_cons s v).2 c
        have hright := (editDistance_cons s v).1
        grind [editDistance]

theorem isLeast_editDistance (s t : List α) : IsLeast {n | Edits s n t} (editDistance s t) :=
  ⟨edits_editDistance s t, fun _ => editDistance_le⟩

theorem editDistance_eq_zero_iff : editDistance s t = 0 ↔ s = t := by
  constructor
  · intro h
    have hedits := edits_editDistance s t
    rw [h] at hedits
    cases hedits
    rfl
  · rintro rfl
    exact Nat.le_zero.mp (editDistance_le .refl)

theorem editDistance_comm (s t : List α) : editDistance s t = editDistance t s := by
  induction s generalizing t with
  | nil => simp [editDistance]
  | cons a s ihs =>
      induction t with
      | nil => simp [editDistance]
      | cons b t iht =>
          grind [editDistance]

theorem editDistance_reverse (s t : List α) :
    editDistance s.reverse t.reverse = editDistance s t := by
  apply le_antisymm
  · exact editDistance_le (edits_editDistance s t).reverse
  · simpa using editDistance_le (edits_editDistance s.reverse t.reverse).reverse

end Presto.Support
