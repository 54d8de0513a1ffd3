import Mathlib.Data.List.Infix
import Mathlib.Data.List.TakeDrop

/-!
# Texts spelled in units

A code spells each symbol by a first unit and continuation units, as UTF-8 and UTF-16 do.
The symbols of a spelled text are found again by looking for the first units.
-/

namespace Presto.Support

open List

universe u v

/-- The positions at which a list occurs in another one. -/
def occurrences {α : Type u} [DecidableEq α] (t s : List α) : List ℕ :=
  (List.range s.length).filter fun i => t <+: s.drop i

structure TextCode (α : Type u) (β : Type v) where
  encode : α → List β
  continues : β → Bool
  encode_units : ∀ a, ∃ first rest, encode a = first :: rest ∧ continues first = false ∧
    ∀ unit ∈ rest, continues unit = true
  prefixFree : ∀ {a b}, encode a <+: encode b → a = b

namespace TextCode

variable {α : Type u} {β : Type v} (C : TextCode α β)

def spell (s : List α) : List β := s.flatMap C.encode

/-- The index of the first unit of a symbol, given by its number. -/
def offset : List β → ℕ → Option ℕ
  | [], _ => none
  | unit :: units, k =>
      if C.continues unit then (offset units k).map (· + 1)
      else if k = 0 then some 0
      else (offset units (k - 1)).map (· + 1)

variable {C} {s t : List α}

@[simp] theorem spell_append : C.spell (s ++ t) = C.spell s ++ C.spell t := by
  simp [spell]

theorem exists_spell_cons (a : α) :
    ∃ first rest, (∀ s, C.spell (a :: s) = first :: (rest ++ C.spell s)) ∧
      C.continues first = false ∧ ∀ unit ∈ rest, C.continues unit = true := by
  obtain ⟨first, rest, hencode, hunits⟩ := C.encode_units a
  exact ⟨first, rest, fun s => by simp [spell, hencode], hunits⟩

theorem spell_eq_nil_iff : C.spell s = [] ↔ s = [] := by
  cases s with
  | nil => simp [spell]
  | cons a s =>
      obtain ⟨first, rest, hspell, -⟩ := C.exists_spell_cons a
      simp [hspell]

theorem spell_take_append_drop (s : List α) (i : ℕ) :
    C.spell (s.take i) ++ C.spell (s.drop i) = C.spell s := by
  rw [← spell_append, take_append_drop]

theorem drop_spell (s : List α) (i : ℕ) :
    (C.spell s).drop (C.spell (s.take i)).length = C.spell (s.drop i) := by
  rw [← spell_take_append_drop s i, drop_left]

theorem take_spell (s : List α) (i : ℕ) :
    (C.spell s).take (C.spell (s.take i)).length = C.spell (s.take i) := by
  rw [← spell_take_append_drop s i, take_left]

theorem offset_append_of_continues
    {rest units : List β} (hrest : ∀ unit ∈ rest, C.continues unit = true) (k : ℕ) :
    C.offset (rest ++ units) k = (C.offset units k).map (· + rest.length) := by
  induction rest with
  | nil => simp
  | cons unit rest ih =>
      rw [forall_mem_cons] at hrest
      rw [cons_append, offset, if_pos hrest.1, ih hrest.2, Option.map_map]
      rfl

theorem offset_spell (s : List α) (k : ℕ) :
    C.offset (C.spell s) k = if k < s.length then some (C.spell (s.take k)).length else none := by
  induction s generalizing k with
  | nil => rfl
  | cons a s ih =>
      obtain ⟨first, rest, hspell, hfirst, hrest⟩ := C.exists_spell_cons a
      rw [hspell, offset, if_neg (by simp [hfirst])]
      cases k with
      | zero => simp [spell]
      | succ k =>
          rw [offset_append_of_continues hrest, ih]
          by_cases hk : k < s.length
          · simp [hspell, Nat.add_comm]
          · simp [hk]

theorem countP_spell (C : TextCode α β) (s : List α) :
    (C.spell s).countP (fun unit => !C.continues unit) = s.length := by
  induction s with
  | nil => rfl
  | cons a s ih =>
      obtain ⟨first, rest, hspell, hfirst, hrest⟩ := C.exists_spell_cons a
      have hnone : rest.countP (fun unit => !C.continues unit) = 0 := by
        simpa [countP_eq_zero] using hrest
      rw [hspell, countP_cons_of_pos (by simp [hfirst]), countP_append, hnone, ih]
      simp

/-- Within the spelling of a text, the first unit of the last symbol makes up the count. -/
theorem countP_take_spell_eq_iff (s : List α) (a : α) (k : ℕ) :
    ((C.spell (s ++ [a])).take k).countP (fun unit => !C.continues unit) = s.length + 1 ↔
      (C.spell s).length < k := by
  obtain ⟨first, rest, hspell, hfirst, hrest⟩ := C.exists_spell_cons a
  rw [spell_append, take_append, countP_append]
  by_cases hlast : (C.spell s).length < k
  · obtain ⟨n, hn⟩ : ∃ n, k - (C.spell s).length = n + 1 :=
      Nat.exists_eq_succ_of_ne_zero (by omega)
    have hnone : ((rest ++ C.spell []).take n).countP (fun unit => !C.continues unit) = 0 := by
      rw [countP_eq_zero]
      intro unit hunit
      simp [hrest unit (by simpa [spell] using mem_of_mem_take hunit)]
    rw [take_of_length_le hlast.le, countP_spell, hn, hspell, take_succ_cons,
      countP_cons_of_pos (by simp [hfirst]), hnone]
    simp [hlast]
  · have hle := (take_sublist k (C.spell s)).countP_le (p := fun unit => !C.continues unit)
    rw [countP_spell] at hle
    rw [Nat.sub_eq_zero_of_le (by omega), take_zero, countP_nil]
    omega

/-! ## Occurrences -/

theorem prefix_spell_iff : C.spell t <+: C.spell s ↔ t <+: s := by
  induction t generalizing s with
  | nil => simp [spell]
  | cons a t ih =>
      cases s with
      | nil =>
          rw [show C.spell ([] : List α) = [] from rfl, prefix_nil, spell_eq_nil_iff]
          simp
      | cons b s =>
          have hspell : ∀ c u, C.spell (c :: u) = C.encode c ++ C.spell u := fun _ _ => rfl
          rw [cons_prefix_cons]
          constructor
          · intro h
            have hab : a = b :=
              (List.prefix_or_prefix_of_prefix ((prefix_append _ _).trans h)
                (prefix_append _ _)).elim C.prefixFree fun hba => (C.prefixFree hba).symm
            subst hab
            exact ⟨rfl, ih.mp ((prefix_append_right_inj _).mp h)⟩
          · rintro ⟨rfl, h⟩
            exact (prefix_append_right_inj _).mpr (ih.mpr h)

end TextCode

section Occurrences

variable {α : Type u} [DecidableEq α] (t s : List α)

theorem occurrences_cons (a : α) :
    occurrences t (a :: s) =
      (if t <+: a :: s then [0] else []) ++ (occurrences t s).map (· + 1) := by
  rw [occurrences, length_cons, range_succ_eq_map, filter_cons, filter_map]
  by_cases h : t <+: a :: s <;> simp [h, occurrences, Function.comp_def]

theorem occurrences_sorted : (occurrences t s).Pairwise (· < ·) :=
  pairwise_lt_range.filter _

end Occurrences

namespace TextCode

variable {α : Type u} {β : Type v} {C : TextCode α β} [DecidableEq α] [DecidableEq β]

/-- A text occurs in the spelling of another one where its symbols do. -/
theorem occurrences_spell {t : List α} (ht : t ≠ []) (s : List α) :
    occurrences (C.spell t) (C.spell s) =
      (occurrences t s).map fun i => (C.spell (s.take i)).length := by
  -- No occurrence starts within a symbol.
  have hwithin : ∀ rest units : List β, (∀ unit ∈ rest, C.continues unit = true) →
      occurrences (C.spell t) (rest ++ units) =
        (occurrences (C.spell t) units).map (· + rest.length) := by
    intro rest units hrest
    induction rest with
    | nil => simp
    | cons unit rest ih =>
        rw [forall_mem_cons] at hrest
        have hnot : ¬C.spell t <+: unit :: (rest ++ units) := by
          obtain ⟨a, t, rfl⟩ := exists_cons_of_ne_nil ht
          obtain ⟨first, tail, hspell, hfirst, -⟩ := C.exists_spell_cons a
          rw [hspell, cons_prefix_cons]
          rintro ⟨rfl, -⟩
          simp [hfirst] at hrest
        rw [cons_append, occurrences_cons, if_neg hnot, ih hrest.2]
        simp [Nat.add_assoc]
  induction s with
  | nil => rfl
  | cons a s ih =>
      obtain ⟨first, rest, hspell, -, hrest⟩ := C.exists_spell_cons a
      have hhead : C.spell t <+: first :: (rest ++ C.spell s) ↔ t <+: a :: s := by
        rw [← hspell, prefix_spell_iff]
      rw [hspell, occurrences_cons, occurrences_cons, hwithin _ _ hrest, ih]
      simp only [hhead, map_append, map_map, Function.comp_def, take_succ_cons,
        hspell, length_cons, length_append]
      congr 1
      · split_ifs <;> rfl
      · refine map_congr_left fun i _ => ?_
        omega

end TextCode

end Presto.Support
