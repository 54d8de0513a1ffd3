import Mathlib.Data.List.Induction
import Mathlib.Data.List.Perm.Basic

/-!
# Lists as stores and as loops

What a list collects from its entries, after one entry was replaced, and an
induction over a loop that runs through a list.
-/

namespace Presto.ListUpdates

open List

variable {α β : Type*} {l : List α} {n : ℕ} {a a' : α} {f : α → List β}

/-- The list around an entry. -/
theorem set_eq_of_getElem? (h : l[n]? = some a) (a' : α) :
    l = l.take n ++ a :: l.drop (n + 1) ∧ l.set n a' = l.take n ++ a' :: l.drop (n + 1) := by
  obtain ⟨hn, rfl⟩ := List.getElem?_eq_some_iff.mp h
  constructor
  · rw [← drop_eq_getElem_cons hn, take_append_drop]
  · rw [set_eq_take_append_cons_drop, if_pos hn]

/-- An entry of a list after one entry was replaced. -/
theorem getElem?_set_cases {m : ℕ} (h : (l.set n a')[m]? = some a) :
    m = n ∧ a = a' ∨ m ≠ n ∧ l[m]? = some a := by
  rw [getElem?_set] at h
  split_ifs at h with hm
  · exact .inl ⟨hm.symm, (Option.some.inj h).symm⟩
  · exact .inr ⟨Ne.symm hm, h⟩

theorem flatMap_set_of_eq (h : l[n]? = some a) (hf : f a' = f a) :
    (l.set n a').flatMap f = l.flatMap f := by
  obtain ⟨hl, hset⟩ := set_eq_of_getElem? h a'
  rw [hset]
  conv_rhs => rw [hl]
  simp [hf]

/-- An entry that contributed nothing adds its contribution. -/
theorem flatMap_set_perm (h : l[n]? = some a) (hf : f a = []) :
    ((l.set n a').flatMap f).Perm (l.flatMap f ++ f a') := by
  obtain ⟨hl, hset⟩ := set_eq_of_getElem? h a'
  rw [hset]
  conv_rhs => rw [hl]
  simp only [flatMap_append, flatMap_cons, hf, append_assoc]
  exact List.Perm.append_left _ perm_append_comm

/-- The last entry adds its contribution at the end. -/
theorem flatMap_set_last (h : l[n]? = some a) (hlast : n + 1 = l.length) (hf : f a = []) :
    (l.set n a').flatMap f = l.flatMap f ++ f a' := by
  obtain ⟨hl, hset⟩ := set_eq_of_getElem? h a'
  rw [hset]
  conv_rhs => rw [hl]
  simp [hf, hlast]

/-- A loop over a list, with an invariant that knows which entries were processed. -/
theorem foldl_induction {motive : List α → β → Prop} (l : List α) (step : β → α → β) (b : β)
    (hstart : motive [] b)
    (hstep : ∀ processed b a, processed ++ [a] <+: l → motive processed b →
      motive (processed ++ [a]) (step b a)) :
    motive l (l.foldl step b) := by
  induction l using reverseRecOn with
  | nil => exact hstart
  | append_singleton l a ih =>
      rw [foldl_append]
      refine hstep _ _ a prefix_rfl (ih ?_)
      intro processed b a' hinit
      exact hstep processed b a' (hinit.trans (prefix_append l [a]))

end Presto.ListUpdates
