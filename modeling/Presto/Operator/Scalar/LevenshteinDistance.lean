import Presto.Operator.Scalar.Utf8Text
import Presto.Support.EditDistance

/-!
# Levenshtein distance

`levenshteinDistance` keeps one row of distances.  The size of its inputs is checked with a
product of 32 bits, which may wrap.
-/

namespace Presto.Operator.Scalar

open Support List

/-! ## The function -/

/-- The inner loop, from a position on: the distance at the position before it, the old one there,
and the code points and old distances that are left. -/
def innerLoop (codePoint : Char) : ℕ → ℕ → List (Char × ℕ) → List ℕ
  | _, _, [] => []
  | previous, leftUpDistance, (other, distance) :: rest =>
      let next :=
        if codePoint = other then leftUpDistance
        else min previous (min leftUpDistance distance) + 1
      next :: innerLoop codePoint next distance rest

/-- One round of the outer loop. -/
def updateDistances (right : List Char) (distances : List ℕ) (codePoint : Char × ℕ) : List ℕ :=
  match right.zip distances with
  | [] => []
  | (first, distance) :: rest =>
      let next := if codePoint.1 = first then codePoint.2 else min codePoint.2 distance + 1
      next :: innerLoop codePoint.1 next distance rest

def tooLarge : Throwable :=
  .prestoException .invalidFunctionArgument
    "The combined inputs for Levenshtein distance are too large"

/-- The distance, once the longer text is on the left. -/
def orderedDistance (left right : List Char) : Result ℕ :=
  if right.length = 0 then .ok left.length
  else if wrapInt (left.length * (right.length - 1)) ≤ 1000000 then
    let distances := left.zipIdx.foldl (updateDistances right) (List.range' 1 right.length)
    .ok (distances.getD (right.length - 1) 0)
  else .error tooLarge

def levenshteinDistance (left right : Utf8Slice) : Result ℕ :=
  if left.codePoints.length < right.codePoints.length then
    orderedDistance right.codePoints left.codePoints
  else orderedDistance left.codePoints right.codePoints

/-! ## What it returns -/

/-- The distances of a reversed text to the prefixes of another one, after a reversed prefix. -/
def distancesFrom (s t : List Char) : List Char → List ℕ
  | [] => []
  | b :: rest => editDistance s (b :: t) :: distancesFrom s (b :: t) rest

theorem innerLoop_spec (a : Char) (s t right : List Char) :
    innerLoop a (editDistance (a :: s) t) (editDistance s t)
        (right.zip (distancesFrom s t right)) = distancesFrom (a :: s) t right := by
  induction right generalizing t with
  | nil => rfl
  | cons b right ih =>
      simp only [distancesFrom, zip_cons_cons, innerLoop]
      rw [← editDistance, ih]

theorem updateDistances_spec (a : Char) (s right : List Char) :
    updateDistances right (distancesFrom s [] right) (a, s.length) =
      distancesFrom (a :: s) [] right := by
  cases right with
  | nil => rfl
  | cons b right =>
      have hfirst : (if a = b then s.length else min s.length (editDistance s [b]) + 1) =
          editDistance (a :: s) [b] := by
        simp only [editDistance, editDistance_nil]
        grind
      simp only [updateDistances, distancesFrom, zip_cons_cons]
      rw [hfirst, innerLoop_spec]

/-- The rows start with the distances of no text, and a round adds a code point to it. -/
theorem distances_spec (left right : List Char) :
    left.zipIdx.foldl (updateDistances right) (range' 1 right.length) =
      distancesFrom left.reverse [] right := by
  induction left using reverseRecOn with
  | nil =>
      have hstart : ∀ t, range' (t.length + 1) right.length = distancesFrom [] t right := by
        induction right with
        | nil => exact fun t => rfl
        | cons b right ih =>
            intro t
            rw [distancesFrom, ← ih, editDistance]
            rfl
      exact hstart []
  | append_singleton left a ih =>
      have hround := updateDistances_spec a left.reverse right
      rw [length_reverse] at hround
      simp [zipIdx_append, ih, hround]

theorem getD_distancesFrom (s t : List Char) {right : List Char} (h : right ≠ []) :
    (distancesFrom s t right).getD (right.length - 1) 0 = editDistance s (right.reverse ++ t) := by
  induction right generalizing t with
  | nil => exact absurd rfl h
  | cons b right ih =>
      rcases right with _ | ⟨c, right⟩
      · rfl
      · simpa [distancesFrom] using ih (b :: t) (cons_ne_nil c right)

theorem orderedDistance_eq (left right : List Char) :
    orderedDistance left right =
      if wrapInt (left.length * (right.length - 1) : ℕ) ≤ 1000000 then
        .ok (editDistance left right)
      else .error tooLarge := by
  rw [orderedDistance]
  rcases eq_or_ne right [] with rfl | hne
  · simp [wrapInt]
  · have hpositive := length_pos_iff.mpr hne
    dsimp only
    rw [if_neg hpositive.ne', distances_spec, getD_distancesFrom _ _ hne, append_nil,
      editDistance_reverse, Nat.cast_mul, Nat.cast_pred hpositive]

variable (left right : Utf8Slice)

/-- The product that is compared with the limit. -/
def combinedLength : ℕ :=
  max left.codePoints.length right.codePoints.length *
    (min left.codePoints.length right.codePoints.length - 1)

theorem levenshteinDistance_eq :
    levenshteinDistance left right =
      if wrapInt (combinedLength left right) ≤ 1000000 then
        .ok (editDistance left.codePoints right.codePoints)
      else .error tooLarge := by
  rw [levenshteinDistance, combinedLength]
  rcases lt_or_ge left.codePoints.length right.codePoints.length with hlt | hge
  · rw [if_pos hlt, orderedDistance_eq, max_eq_right hlt.le, min_eq_left hlt.le, editDistance_comm]
  · rw [if_neg hge.not_gt, orderedDistance_eq, max_eq_left hge, min_eq_right hge]

/-- The distance is the least number of edits and only too large inputs are refused, exactly when
the product stays above the limit as it wraps. -/
theorem levenshteinDistance_exact_iff :
    (if left.codePoints ≠ [] ∧ right.codePoints ≠ [] ∧ 1000000 < combinedLength left right then
      levenshteinDistance left right = .error tooLarge
    else ∃ distance, levenshteinDistance left right = .ok distance ∧
      IsLeast {n | Edits left.codePoints n right.codePoints} distance) ↔
    (1000000 < combinedLength left right → 1000000 < wrapInt (combinedLength left right)) := by
  rw [levenshteinDistance_eq]
  by_cases hlarge : 1000000 < combinedLength left right
  · have hne : left.codePoints ≠ [] ∧ right.codePoints ≠ [] := by
      constructor
      all_goals
        intro hnil
        simp [combinedLength, hnil] at hlarge
    rw [if_pos ⟨hne.1, hne.2, hlarge⟩, forall_prop_of_true hlarge, ← not_le]
    split_ifs with hwrapped <;> simp [hwrapped]
  · rw [if_neg fun h => hlarge h.2.2, wrapInt_eq_self (by omega) (by omega), if_pos (by omega)]
    exact iff_of_true ⟨_, rfl, isLeast_editDistance _ _⟩ fun h => absurd h hlarge

/-- The product of the lengths of two long texts wraps, and no error is raised. -/
theorem levenshteinDistance_of_long :
    ∃ s : Utf8Slice, s.codePoints ≠ [] ∧ 1000000 < combinedLength s s ∧
      ∃ distance, levenshteinDistance s s = .ok distance := by
  obtain ⟨s, hs⟩ : ∃ s : Utf8Slice, s.codePoints.length = 65537 := by
    refine ⟨⟨List.replicate 65537 'a', ?_⟩, List.length_replicate⟩
    rw [TextCode.spell, List.length_flatMap, List.map_replicate, List.sum_replicate_nat]
    decide
  have hlength : combinedLength s s = 65537 * 65536 := by simp [combinedLength, hs]
  refine ⟨s, List.ne_nil_of_length_eq_add_one hs, by omega, ?_⟩
  rw [levenshteinDistance_eq, hlength]
  exact ⟨_, rfl⟩

/-- The distance is symmetric, also in what it refuses; where it returns, it is zero just for equal
texts, and no detour is shorter. -/
theorem levenshteinDistance_metric (a b c : Utf8Slice) :
    levenshteinDistance a b = levenshteinDistance b a ∧
      ∀ m n k, levenshteinDistance a b = .ok m → levenshteinDistance b c = .ok n →
        levenshteinDistance a c = .ok k → (m = 0 ↔ a.codePoints = b.codePoints) ∧ k ≤ m + n := by
  simp only [levenshteinDistance_eq]
  constructor
  · rw [combinedLength, max_comm, min_comm, editDistance_comm]
    rfl
  · intro m n k hm hn hk
    split_ifs at hm hn hk
    cases hm
    cases hn
    cases hk
    refine ⟨editDistance_eq_zero_iff, editDistance_le ?_⟩
    exact (edits_editDistance _ _).trans (edits_editDistance _ _)

end Presto.Operator.Scalar
