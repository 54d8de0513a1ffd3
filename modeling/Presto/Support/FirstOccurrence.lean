import Mathlib.Data.List.Basic
import Mathlib.Data.Nat.Basic
import Mathlib.Order.Basic

/-!
# Numbering by first occurrence

The elements of a sequence are numbered one after the other.  An element that is related to an
earlier one gets the number of its group, an element that is related to none opens a group with
the next number.
-/

namespace Presto.Support.FirstOccurrence

open List

variable {α : Type*} {same : α → α → Prop} {i : ℕ}

theorem getElem?_concat_eq_some {β : Type*} {l : List β} {b x : β} :
    (l ++ [b])[i]? = some x ↔ l[i]? = some x ∨ i = l.length ∧ x = b := by
  rcases Nat.lt_trichotomy i l.length with hlt | rfl | hgt
  · rw [getElem?_append_left hlt]
    simp [hlt.ne]
  · simp [eq_comm]
  · have hle : (l ++ [b]).length ≤ i := by
      rw [length_append]
      exact hgt
    simp [getElem?_eq_none hle, getElem?_eq_none hgt.le, hgt.ne']

/-- How one more element gets its number. -/
inductive Assigned (same : α → α → Prop) (groups : List α) (a : α) : ℕ → List α → Prop
  | old {n : ℕ} {g : α} (hg : groups[n]? = some g) (hsame : same g a) :
      Assigned same groups a n groups
  | new (hnew : ∀ g ∈ groups, ¬same g a) : Assigned same groups a groups.length (groups ++ [a])

/-- The numbers of the elements of a sequence, and the first elements of the groups before and
after it. -/
inductive Numbering (same : α → α → Prop) (groups : List α) : List α → List ℕ → List α → Prop
  | nil : Numbering same groups [] [] groups
  | concat {elements : List α} {numbers : List ℕ} {groups' groups'' : List α} {a : α} {n : ℕ}
      (h : Numbering same groups elements numbers groups')
      (ha : Assigned same groups' a n groups'') :
      Numbering same groups (elements ++ [a]) (numbers ++ [n]) groups''

namespace Numbering

variable {groups groups' groups'' elements elements' : List α} {numbers numbers' : List ℕ}

theorem trans (h : Numbering same groups elements numbers groups')
    (h' : Numbering same groups' elements' numbers' groups'') :
    Numbering same groups (elements ++ elements') (numbers ++ numbers') groups'' := by
  induction h' with
  | nil =>
      rw [append_nil, append_nil]
      exact h
  | concat _ ha ih =>
      rw [← append_assoc, ← append_assoc]
      exact ih.concat ha

variable {a : α} {n : ℕ}

theorem single (h : Assigned same groups a n groups') : Numbering same groups [a] [n] groups' :=
  (Numbering.nil : Numbering same groups [] [] groups).concat h

/-- An element of a group that is repeated stays in the group. -/
theorem replicate {g : α} (hg : groups[n]? = some g) (hsame : same g a) (count : ℕ) :
    Numbering same groups (replicate count a) (replicate count n) groups := by
  induction count with
  | zero => exact .nil
  | succ count ih =>
      rw [replicate_succ', replicate_succ']
      exact ih.concat (.old hg hsame)

theorem length_eq (h : Numbering same groups elements numbers groups') :
    numbers.length = elements.length := by
  induction h with
  | nil => rfl
  | concat _ _ ih => simp [ih]

end Numbering

variable {groups groups' : List α}

theorem Assigned.group (heq : Equivalence same) (h : Assigned same groups a n groups') :
    ∃ g, groups'[n]? = some g ∧ same g a := by
  cases h with
  | old hg hsame => exact ⟨_, hg, hsame⟩
  | new => exact ⟨a, by simp, heq.refl a⟩

variable {m : ℕ}

theorem Assigned.keeps (h : Assigned same groups a n groups')
    {g : α} (hg : groups[m]? = some g) : groups'[m]? = some g := by
  cases h with
  | old => exact hg
  | new => exact getElem?_concat_eq_some.mpr (.inl hg)

/-! ## What the numbers say -/

/-- The groups of a sequence that was numbered from the start. -/
structure Grouped (same : α → α → Prop) (elements : List α) (numbers : List ℕ)
    (groups : List α) : Prop where
  apart : ∀ {m n : ℕ} {a b : α}, groups[m]? = some a → groups[n]? = some b → same a b → m = n
  group : ∀ {i n : ℕ} {a : α}, elements[i]? = some a → numbers[i]? = some n →
    ∃ g, groups[n]? = some g ∧ same g a
  first : ∀ {n : ℕ} {g : α}, groups[n]? = some g →
    ∃ i : ℕ, elements[i]? = some g ∧ numbers[i]? = some n ∧ n ∉ numbers.take i
  dense : ∀ {i n : ℕ}, numbers[i]? = some n → n ∉ numbers.take i →
    ∀ m, m ∈ numbers.take i ↔ m < n

namespace Grouped

variable {elements groups : List α} {numbers : List ℕ} (h : Grouped same elements numbers groups)

include h

/-- Exactly the numbers of the groups have been given. -/
theorem mem_numbers_iff
    (hlength : numbers.length = elements.length) : m ∈ numbers ↔ m < groups.length := by
  constructor
  · intro hm
    obtain ⟨i, hi⟩ := mem_iff_getElem?.mp hm
    have hlt : i < elements.length := by
      rw [← hlength]
      exact (List.getElem?_eq_some_iff.mp hi).1
    obtain ⟨g, hg, -⟩ := h.group (getElem?_eq_getElem hlt) hi
    exact (List.getElem?_eq_some_iff.mp hg).1
  · intro hm
    obtain ⟨i, -, hi, -⟩ := h.first (getElem?_eq_getElem hm)
    exact mem_of_getElem? hi

theorem concat (hlength : numbers.length = elements.length) (heq : Equivalence same)
    (ha : Assigned same groups a n groups') :
    Grouped same (elements ++ [a]) (numbers ++ [n]) groups' := by
  have hgroup : ∀ {i m : ℕ} {b : α}, (elements ++ [a])[i]? = some b →
      (numbers ++ [n])[i]? = some m → ∃ g, groups'[m]? = some g ∧ same g b := by
    intro i m b hb hm
    rw [getElem?_concat_eq_some] at hb hm
    rcases hb with hb | ⟨rfl, rfl⟩
    · rcases hm with hm | ⟨rfl, -⟩
      · obtain ⟨g, hg, hsame⟩ := h.group hb hm
        exact ⟨g, ha.keeps hg, hsame⟩
      · rw [hlength, getElem?_eq_none le_rfl] at hb
        cases hb
    · rcases hm with hm | ⟨-, rfl⟩
      · rw [← hlength, getElem?_eq_none le_rfl] at hm
        cases hm
      · exact ha.group heq
  have htake : ∀ {i m : ℕ}, (numbers ++ [n])[i]? = some m →
      (numbers ++ [n]).take i = numbers.take i := by
    intro i m hm
    have hlt := (List.getElem?_eq_some_iff.mp hm).1
    rw [length_append] at hlt
    exact take_append_of_le_length (Nat.lt_succ_iff.mp hlt)
  -- what was first stays first
  have hfirst : ∀ {m : ℕ} {g : α}, groups[m]? = some g → ∃ i : ℕ, (elements ++ [a])[i]? = some g ∧
      (numbers ++ [n])[i]? = some m ∧ m ∉ (numbers ++ [n]).take i := by
    intro m g hg
    obtain ⟨i, hi, hm, hfresh⟩ := h.first hg
    have hm' : (numbers ++ [n])[i]? = some m := getElem?_concat_eq_some.mpr (.inl hm)
    exact ⟨i, getElem?_concat_eq_some.mpr (.inl hi), hm', (htake hm').symm ▸ hfresh⟩
  have hdense : ∀ {i m : ℕ}, (numbers ++ [n])[i]? = some m → m ∉ (numbers ++ [n]).take i →
      ∀ k, k ∈ (numbers ++ [n]).take i ↔ k < m := by
    intro i m hm hfresh k
    rw [htake hm] at hfresh ⊢
    rcases getElem?_concat_eq_some.mp hm with hm | ⟨rfl, rfl⟩
    · exact h.dense hm hfresh k
    · rw [take_length, h.mem_numbers_iff hlength] at hfresh ⊢
      cases ha with
      | old hg => exact absurd (List.getElem?_eq_some_iff.mp hg).1 hfresh
      | new => rfl
  cases ha with
  | old => exact ⟨h.apart, hgroup, hfirst, hdense⟩
  | new hnew =>
      refine ⟨?_, hgroup, ?_, hdense⟩
      · intro m k b c hb hc hsame
        rcases getElem?_concat_eq_some.mp hb with hb' | ⟨rfl, rfl⟩
        · rcases getElem?_concat_eq_some.mp hc with hc' | ⟨rfl, rfl⟩
          · exact h.apart hb' hc' hsame
          · exact absurd hsame (hnew b (mem_of_getElem? hb'))
        · rcases getElem?_concat_eq_some.mp hc with hc' | ⟨rfl, rfl⟩
          · exact absurd (heq.symm hsame) (hnew c (mem_of_getElem? hc'))
          · rfl
      · intro m g hg
        rcases getElem?_concat_eq_some.mp hg with hg' | ⟨rfl, rfl⟩
        · exact hfirst hg'
        · refine ⟨numbers.length, by simp [hlength], by simp, ?_⟩
          rw [take_append_of_le_length le_rfl, take_length, h.mem_numbers_iff hlength]
          exact lt_irrefl _

/-- Two elements have the same number exactly when they are related. -/
theorem number_eq_iff (heq : Equivalence same)
    {j : ℕ} {b : α} (ha : elements[i]? = some a) (hb : elements[j]? = some b)
    (hm : numbers[i]? = some m) (hn : numbers[j]? = some n) : m = n ↔ same a b := by
  obtain ⟨g, hg, hga⟩ := h.group ha hm
  obtain ⟨g', hg', hgb⟩ := h.group hb hn
  constructor
  · rintro rfl
    rw [hg, Option.some.injEq] at hg'
    subst hg'
    exact heq.trans (heq.symm hga) hgb
  · intro hsame
    exact h.apart hg hg' (heq.trans hga (heq.trans hsame (heq.symm hgb)))

/-- The group that an element opens is represented by that element. -/
theorem groups_of_first
    (ha : elements[i]? = some a) (hn : numbers[i]? = some n) (hfirst : n ∉ numbers.take i) :
    groups[n]? = some a := by
  obtain ⟨g, hg, -⟩ := h.group ha hn
  obtain ⟨j, hj, hnj, hfresh⟩ := h.first hg
  have hij : i = j := by
    rcases Nat.lt_trichotomy i j with hlt | heq | hgt
    · exact absurd (mem_iff_getElem?.mpr ⟨i, by rwa [getElem?_take_of_lt hlt]⟩) hfresh
    · exact heq
    · exact absurd (mem_iff_getElem?.mpr ⟨j, by rwa [getElem?_take_of_lt hgt]⟩) hfirst
  subst hij
  rw [hj] at ha
  rw [hg, ha]

/-- An element is related to a group exactly when it is related to a numbered element. -/
theorem exists_group_iff (hlength : numbers.length = elements.length) (heq : Equivalence same) :
    (∃ g ∈ groups, same g a) ↔ ∃ b ∈ elements, same b a := by
  constructor
  · rintro ⟨g, hg, hsame⟩
    obtain ⟨n, hn⟩ := mem_iff_getElem?.mp hg
    obtain ⟨i, hi, -⟩ := h.first hn
    exact ⟨g, mem_of_getElem? hi, hsame⟩
  · rintro ⟨b, hb, hsame⟩
    obtain ⟨i, hi⟩ := mem_iff_getElem?.mp hb
    have hlt : i < numbers.length := by
      rw [hlength]
      exact (List.getElem?_eq_some_iff.mp hi).1
    obtain ⟨g, hg, hgb⟩ := h.group hi (getElem?_eq_getElem hlt)
    exact ⟨g, mem_of_getElem? hg, heq.trans hgb hsame⟩

end Grouped

theorem Numbering.grouped {elements : List α} {numbers : List ℕ} (heq : Equivalence same)
    (h : Numbering same [] elements numbers groups) : Grouped same elements numbers groups := by
  induction h with
  | nil => exact ⟨by simp, by simp, by simp, by simp⟩
  | concat h' ha ih => exact ih.concat h'.length_eq heq ha

end Presto.Support.FirstOccurrence
