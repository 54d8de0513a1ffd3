import Presto.Execution.ResourceGroups.CallEffects

/-!
# Every query is in one place and counted

The invariant of all runs of a tree: queries are held by leaves only, the
counters of a group are the numbers of queries in the groups below it, and every
submitted query is running, queued, failed or finished, exactly once.
-/

namespace Presto.ResourceGroups

namespace Groups

variable {t : PathTree String} {s s' : Groups} {p : ResourceGroupId} {query : Query}

/-- The groups hold each query at most once, in leaves, and count them. -/
structure Tidy (t : PathTree String) (s : Groups) : Prop where
  eligible : EligibleWithin t s
  dirty : DirtyWithin t s
  leaves : ∀ p ∈ t.ids, t.children p ≠ [] →
    (s.group p).runningQueries = ∅ ∧ (s.group p).queuedQueries.elements = []
  descendantRunning : ∀ p ∈ t.ids,
    (s.group p).descendantRunningQueries = t.total s.runningCount p
  descendantQueued : ∀ p ∈ t.ids,
    (s.group p).descendantQueuedQueries = t.total s.queuedCount p
  unique : ∀ query, s.occurrences t query ≤ 1

/-- A possible move to a leaf keeps the accounts, whatever it does to eligibility. -/
theorem Tidy.of_moves {m : Move} (h : Tidy t s) (hmoves : Moves m s s') (hcan : CanMove m s)
    (hplace : m.place ∈ t.ids)
    (hleaf : m.running = .add ∨ m.queued = .add → t.children m.place = [])
    (hunique : ∀ query, s'.occurrences t query ≤ 1)
    (heligible : EligibleWithin t s') (hdirty : DirtyWithin t s') : Tidy t s' := by
  refine ⟨heligible, hdirty, ?_, ?_, ?_, hunique⟩
  · intro p hp hchildren
    obtain ⟨hrunning, hqueued⟩ := h.leaves p hp hchildren
    have hperm := hmoves.queued p
    rw [hmoves.running p]
    by_cases hpm : p = m.place
    · subst hpm
      rw [if_pos rfl] at hperm ⊢
      have hnotAdd : ¬ (m.running = .add ∨ m.queued = .add) := fun hadd => hchildren (hleaf hadd)
      rw [not_or] at hnotAdd
      constructor
      · exact Finset.subset_empty.mp (hrunning ▸ Transfer.onSet_subset hnotAdd.1)
      · cases hm : m.queued with
        | add => exact absurd hm hnotAdd.2
        | keep | remove =>
            rw [hm, hqueued] at hperm
            exact hperm.eq_nil
    · rw [if_neg hpm] at hperm ⊢
      rw [hqueued] at hperm
      exact ⟨hrunning, hperm.eq_nil⟩
  · intro p hp
    rw [hmoves.descendantRunning, h.descendantRunning p hp,
      t.total_of_change hplace (hmoves.runningCount hcan)]
  · intro p hp
    rw [hmoves.descendantQueued, h.descendantQueued p hp,
      t.total_of_change hplace (hmoves.queuedCount hcan)]

theorem Idle.occurrences (hidle : Idle s s') (query : Query) :
    s'.occurrences t query = s.occurrences t query := by
  have hmoves := hidle.moves [] query
  rw [hmoves.occurrences (canMove_keep [] query) t.root_mem]
  simp [Transfer.delta]

theorem Tidy.of_idle (h : Tidy t s) (hidle : Idle s s') (heligible : EligibleWithin t s')
    (hdirty : DirtyWithin t s') : Tidy t s' := by
  refine h.of_moves (hidle.moves [] ⟨0, 0⟩) (canMove_keep _ _) t.root_mem ?_ ?_ heligible hdirty
  · rintro (hadd | hadd) <;> exact absurd hadd (by simp)
  · intro query
    rw [hidle.occurrences]
    exact h.unique query

theorem Tidy.of_calm (h : Tidy t s) (hcalm : Calm s s') (heligible : EligibleWithin t s') :
    Tidy t s' :=
  h.of_idle hcalm.idle heligible (h.dirty.of_eq fun a _ => (hcalm a).dirty)

theorem Tidy.refreshStats (memory : Query → ℕ) (iteration : HashOrder) (h : Tidy t s) :
    Tidy t (s.refreshStats t memory iteration) := by
  have hrefreshed : Refreshed s (s.refreshStats t memory iteration) :=
    .refreshStats memory iteration s
  exact h.of_idle hrefreshed.idle
    (h.eligible.internalRefreshStats memory iteration t.height h.dirty t.root_mem)
    (h.dirty.refreshed hrefreshed)

/-- A query that is started by a descent was queued in a leaf of the tree. -/
theorem StartedFrom.mem
    {x : ResourceGroupId} (h : StartedFrom [] x query s s') (heligible : EligibleWithin t s) :
    x ∈ t.ids := by
  have hmem : ∀ a, a <:+ x → a ∈ t.ids := by
    intro a
    induction a with
    | nil => exact fun _ => t.root_mem
    | cons n a ih =>
        intro hax
        have ha : a ∈ t.ids := ih ((List.suffix_cons n a).trans hax)
        exact t.mem_children.mp (heligible a ha n (h.chain a n List.nil_suffix hax))
  exact hmem x List.suffix_rfl

theorem Tidy.leaf_of_queued
    (h : Tidy t s) (hp : p ∈ t.ids) (hquery : query ∈ (s.group p).queuedQueries.elements) :
    t.children p = [] := by
  by_contra hchildren
  rw [(h.leaves p hp hchildren).2] at hquery
  exact absurd hquery List.not_mem_nil

/-- What a started query is: a possible move in a leaf. -/
theorem Tidy.started {x : ResourceGroupId} (h : Tidy t s) (hstarted : StartedFrom [] x query s s') :
    x ∈ t.ids ∧ t.children x = [] ∧ CanMove ⟨x, query, .add, .remove⟩ s := by
  have hx := hstarted.mem h.eligible
  refine ⟨hx, h.leaf_of_queued hx hstarted.queued, ?_, hstarted.queued⟩
  intro hrunning
  have hunique := h.unique query
  have hle := Finset.single_le_sum (fun q _ => s.occurrences_nonneg_term query q)
    (List.mem_toFinset.mpr hx)
  rw [← Groups.occurrences] at hle
  simp only [Transfer.indicator, hrunning, hstarted.queued, if_true] at hle
  omega

/-- A round of the scheduler keeps the accounts and the number of places of every query. -/
theorem Tidy.startNext (draw : ResourceGroupId → ℕ) (h : Tidy t s) :
    Tidy t (s.startNext t draw).2 ∧
      ∀ query, (s.startNext t draw).2.occurrences t query = s.occurrences t query := by
  have heligible : EligibleWithin t (s.startNext t draw).2 :=
    h.eligible.internalStartNext draw t.height t.root_mem
  rcases startNext_cases t draw s with ⟨-, hgroup, -⟩ | ⟨-, x, query, hstarted, -⟩
  · have hcalm : Calm s (s.startNext t draw).2 := .of_group hgroup
    exact ⟨h.of_calm hcalm heligible, fun query => hcalm.idle.occurrences query⟩
  · obtain ⟨hx, hleaf, hcan⟩ := h.started hstarted
    have hmoves := hstarted.moves
    have hoccurrences : ∀ r, (s.startNext t draw).2.occurrences t r = s.occurrences t r := by
      intro r
      rw [hmoves.occurrences hcan hx]
      simp [Transfer.delta]
    have hdirty : DirtyWithin t (s.startNext t draw).2 :=
      h.dirty.of_started hx hstarted.marks
    refine ⟨h.of_moves hmoves hcan hx (fun _ => hleaf) ?_ heligible hdirty, hoccurrences⟩
    intro r
    rw [hoccurrences]
    exact h.unique r

/-- The periodic call keeps the accounts and the number of places of every query. -/
theorem Tidy.processQueuedQueries
    (memory : Query → ℕ) (iteration : HashOrder) (draws : ℕ → ResourceGroupId → ℕ) (h : Tidy t s) :
    Tidy t (s.processQueuedQueries t memory iteration draws).2 ∧
      ∀ query, (s.processQueuedQueries t memory iteration draws).2.occurrences t query =
        s.occurrences t query := by
  have hrefreshed : Refreshed s (s.refreshStats t memory iteration) :=
    .refreshStats memory iteration s
  have hloop := startAll_invariant (t := t)
    (motive := fun s' => Tidy t s' ∧ ∀ query, s'.occurrences t query = s.occurrences t query)
    (fun draw s' hs' => by
      obtain ⟨htidy, hoccurrences⟩ := hs'.1.startNext draw
      exact ⟨htidy, fun query => (hoccurrences query).trans (hs'.2 query)⟩)
  exact hloop draws _ _ ⟨h.refreshStats memory iteration, fun query =>
    hrefreshed.idle.occurrences query⟩

end Groups
end Presto.ResourceGroups
