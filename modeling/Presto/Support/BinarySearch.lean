import Mathlib.Data.List.Pairwise
import Mathlib.Order.Basic
import Mathlib.Tactic.Linarith

/-!
# Binary search

The search of a sorted list for a key.  A hit is reported by its index, a miss
by the place where the key would be inserted, encoded as a negative number.
-/

namespace Presto.Support

variable {β : Type*} [LinearOrder β]

/-- The search in the positions from `low` up to, but excluding, `high`. -/
def binarySearchLoop (a : List β) (key : β) (low high : ℕ) : ℤ :=
  if low < high then
    let mid := (low + (high - 1)) / 2
    match a[mid]? with
    | none => -((low : ℤ) + 1)
    | some midVal =>
        if midVal < key then binarySearchLoop a key (mid + 1) high
        else if key < midVal then binarySearchLoop a key low mid
        else mid
  else -((low : ℤ) + 1)
termination_by high - low

def binarySearch (a : List β) (key : β) : ℤ :=
  binarySearchLoop a key 0 a.length

/-- What a search reports: the index of the key, or the point that splits the
list into the elements below and those above it. -/
def SearchResult (a : List β) (key : β) (result : ℤ) : Prop :=
  (∃ i : ℕ, result = i ∧ a[i]? = some key) ∨
    ∃ i : ℕ, i ≤ a.length ∧ result = -((i : ℤ) + 1) ∧
      ∀ (j : ℕ) (x : β), a[j]? = some x → (j < i → x < key) ∧ (i ≤ j → key < x)

variable {a : List β}

theorem getElem?_le_of_le (hsorted : a.Pairwise (· ≤ ·)) {i j : ℕ} {x y : β}
    (hx : a[i]? = some x) (hy : a[j]? = some y) (hij : i ≤ j) : x ≤ y := by
  obtain ⟨hi, rfl⟩ := List.getElem?_eq_some_iff.mp hx
  obtain ⟨hj, rfl⟩ := List.getElem?_eq_some_iff.mp hy
  rcases Nat.lt_or_eq_of_le hij with hlt | rfl
  · exact List.pairwise_iff_getElem.mp hsorted i j hi hj hlt
  · exact le_rfl

/-- The loop keeps the elements before `low` below the key and those from
`high` on above it. -/
theorem binarySearchLoop_spec (hsorted : a.Pairwise (· ≤ ·)) (key : β) (low high : ℕ)
    (hle : low ≤ high) (hhigh : high ≤ a.length)
    (hbelow : ∀ (j : ℕ) (x : β), a[j]? = some x → j < low → x < key)
    (habove : ∀ (j : ℕ) (x : β), a[j]? = some x → high ≤ j → key < x) :
    SearchResult a key (binarySearchLoop a key low high) := by
  rw [binarySearchLoop]
  by_cases hlt : low < high
  · rw [if_pos hlt]
    obtain ⟨mid, hmid⟩ : ∃ mid, (low + (high - 1)) / 2 = mid := ⟨_, rfl⟩
    obtain ⟨midVal, hget⟩ : ∃ midVal, a[mid]? = some midVal :=
      ⟨_, List.getElem?_eq_getElem (by omega)⟩
    simp only [hmid, hget]
    by_cases hless : midVal < key
    · rw [if_pos hless]
      apply binarySearchLoop_spec hsorted key _ high (by omega) hhigh _ habove
      intro j x hx hj
      exact (getElem?_le_of_le hsorted hx hget (by omega)).trans_lt hless
    · rw [if_neg hless]
      by_cases hgreater : key < midVal
      · rw [if_pos hgreater]
        apply binarySearchLoop_spec hsorted key low _ (by omega) (by omega) hbelow
        intro j x hx hj
        exact hgreater.trans_le (getElem?_le_of_le hsorted hget hx hj)
      · rw [if_neg hgreater]
        have heq : midVal = key := le_antisymm (not_lt.mp hgreater) (not_lt.mp hless)
        exact Or.inl ⟨mid, rfl, by rw [hget, heq]⟩
  · rw [if_neg hlt]
    refine Or.inr ⟨low, by omega, rfl, ?_⟩
    intro j x hx
    exact ⟨hbelow j x hx, fun hj => habove j x hx (by omega)⟩
termination_by high - low

theorem binarySearch_spec (hsorted : a.Pairwise (· ≤ ·)) (key : β) :
    SearchResult a key (binarySearch a key) := by
  apply binarySearchLoop_spec hsorted key 0 a.length (by omega) le_rfl
  · intro j x _ hj
    omega
  · intro j x hx hj
    have hlt : j < a.length := (List.getElem?_eq_some_iff.mp hx).1
    omega

end Presto.Support
