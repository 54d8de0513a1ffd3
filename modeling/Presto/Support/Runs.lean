import Mathlib.Order.Monotone.Basic

/-!
# Runs of a sequence

The positions `0, 1, 2, …` are cut into runs: a position belongs to the run before it if it
is the same as the position at which that run starts.
-/

namespace Presto.Support.Runs

variable {same same' : ℕ → ℕ → Bool} {count i p start stop : ℕ}

/-- The position at which the run of a position starts. -/
def runStart (same : ℕ → ℕ → Bool) : ℕ → ℕ
  | 0 => 0
  | i + 1 => if same (runStart same i) (i + 1) then runStart same i else i + 1

theorem runStart_le (same : ℕ → ℕ → Bool) (i : ℕ) : runStart same i ≤ i := by
  induction i with
  | zero => exact le_rfl
  | succ i ih =>
      rw [runStart]
      split <;> omega

theorem runStart_le_succ (same : ℕ → ℕ → Bool) (i : ℕ) :
    runStart same i ≤ runStart same (i + 1) := by
  have hle := runStart_le same i
  rw [runStart]
  split <;> omega

theorem runStart_mono (same : ℕ → ℕ → Bool) : Monotone (runStart same) :=
  monotone_nat_of_le_succ (runStart_le_succ same)

/-- The start of a run starts its own run. -/
theorem runStart_runStart (same : ℕ → ℕ → Bool) (i : ℕ) :
    runStart same (runStart same i) = runStart same i := by
  induction i with
  | zero => rfl
  | succ i ih =>
      by_cases hsame : same (runStart same i) (i + 1) = true
      · have hsucc : runStart same (i + 1) = runStart same i := by rw [runStart, if_pos hsame]
        rw [hsucc, ih]
      · have hsucc : runStart same (i + 1) = i + 1 := by rw [runStart, if_neg hsame]
        rw [hsucc, hsucc]

/-- The start of a run is the least of its positions. -/
theorem runStart_le_iff : runStart same i ≤ p ↔ runStart same i ≤ runStart same p := by
  constructor
  · intro hle
    rw [← runStart_runStart same i]
    exact runStart_mono same hle
  · intro hle
    exact hle.trans (runStart_le same p)

/-- `[start, stop)` is a run of the first `count` positions. -/
structure IsRun (same : ℕ → ℕ → Bool) (count start stop : ℕ) : Prop where
  starts : runStart same start = start
  lt : start < stop
  le : stop ≤ count
  within : ∀ p, start < p → p < stop → same start p = true
  ends : stop = count ∨ same start stop = false

namespace IsRun

theorem runStart_eq (h : IsRun same count start stop) (hstart : start ≤ i) (hstop : i < stop) :
    runStart same i = start := by
  induction i with
  | zero => rw [runStart, Nat.le_zero.mp hstart]
  | succ i ih =>
      rcases Nat.lt_or_eq_of_le hstart with hlt | heq
      · have hprevious : runStart same i = start := ih (by omega) (by omega)
        rw [runStart, hprevious, if_pos (h.within _ hlt hstop)]
      · rw [← heq, h.starts]

/-- A run that is not the last one is followed by another one. -/
theorem starts_next (h : IsRun same count start stop) (hlt : stop < count) :
    runStart same stop = stop := by
  have hlt' := h.lt
  obtain ⟨last, rfl⟩ : ∃ last, stop = last + 1 := ⟨stop - 1, by omega⟩
  have hlast : runStart same last = start := h.runStart_eq (by omega) (by omega)
  have hends : same start (last + 1) = false := h.ends.resolve_left (by omega)
  rw [runStart, hlast, hends, if_neg (by simp)]

/-- The positions before the end of a run are those whose run starts no later. -/
theorem lt_stop_iff (h : IsRun same count start stop) (hp : p < count) :
    p < stop ↔ runStart same p ≤ start := by
  constructor
  · intro hlt
    rcases Nat.lt_or_ge p start with hbefore | hafter
    · exact (runStart_le same p).trans hbefore.le
    · exact (h.runStart_eq hafter hlt).le
  · intro hle
    by_contra hge
    have hnext : runStart same stop = stop := h.starts_next (by omega)
    have hmono : runStart same stop ≤ runStart same p := runStart_mono same (by omega)
    have hlt := h.lt
    omega

end IsRun

/-! ## When two relations cut into the same runs -/

/-- The runs are the same if the relations agree between the start of a run and the position
after each of its positions. -/
theorem runStart_eq_of_agree
    (h : ∀ i, i + 1 < count → same (runStart same' i) (i + 1) = same' (runStart same' i) (i + 1)) :
    ∀ i, i < count → runStart same i = runStart same' i := by
  intro i hi
  induction i with
  | zero => rfl
  | succ i ih =>
      have hprevious : runStart same i = runStart same' i := ih (by omega)
      rw [runStart, runStart, hprevious, h i hi]

theorem agree_of_runStart_eq (h : ∀ i, i < count → runStart same i = runStart same' i) :
    ∀ i, i + 1 < count → same (runStart same' i) (i + 1) = same' (runStart same' i) (i + 1) := by
  intro i hi
  have hprevious : runStart same i = runStart same' i := h i (by omega)
  have hnext : runStart same (i + 1) = runStart same' (i + 1) := h (i + 1) hi
  have hle : runStart same' i ≤ i := runStart_le same' i
  rw [runStart, runStart, hprevious] at hnext
  cases hleft : same (runStart same' i) (i + 1) <;>
    cases hright : same' (runStart same' i) (i + 1) <;> simp [hleft, hright] at hnext ⊢ <;> omega

/-- The runs are the same if they have the same positions. -/
theorem runStart_eq_of_classes
    (h : ∀ i p, i < count → p < count →
      (runStart same p = runStart same i ↔ runStart same' p = runStart same' i)) :
    ∀ i, i < count → runStart same i = runStart same' i := by
  intro i hi
  have hle : runStart same i ≤ i := runStart_le same i
  have hle' : runStart same' i ≤ i := runStart_le same' i
  have hstart : runStart same' (runStart same i) = runStart same' i :=
    (h i (runStart same i) hi (by omega)).mp (runStart_runStart same i)
  have hstart' : runStart same (runStart same' i) = runStart same i :=
    (h i (runStart same' i) hi (by omega)).mpr (runStart_runStart same' i)
  apply le_antisymm
  · exact hstart'.ge.trans (runStart_le same _)
  · exact hstart.ge.trans (runStart_le same' _)

end Presto.Support.Runs
