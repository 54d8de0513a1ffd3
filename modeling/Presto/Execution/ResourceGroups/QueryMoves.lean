import Mathlib.Algebra.Order.BigOperators.Group.Finset
import Mathlib.Tactic.Linarith
import Presto.Execution.ResourceGroups.GroupOperations
import Presto.Execution.ResourceGroups.StartNext

/-!
# How queries move between the places of a tree

Every call moves at most one query at a time: into or out of the running and the
queued queries of one group, with the counters of the groups above.  What a move
does to the counters and to the number of places that hold a query is said once
here; the calls are then moves, or leave all queries where they are.
-/

namespace Presto.ResourceGroups

open Finset

/-- What a move does to a set of queries: nothing, or it adds or removes its query. -/
inductive Transfer
  | keep
  | add
  | remove
  deriving DecidableEq, Repr

namespace Transfer

def delta : Transfer → ℤ
  | .keep => 0
  | .add => 1
  | .remove => -1

def onSet (query : Query) : Transfer → Finset Query → Finset Query
  | .keep, running => running
  | .add, running => insert query running
  | .remove, running => running.erase query

def onList (query : Query) : Transfer → List Query → List Query
  | .keep, queued => queued
  | .add, queued => queued ++ [query]
  | .remove, queued => queued.erase query

/-- A query is added only where it is not, and removed only where it is. -/
def Possible (present : Prop) : Transfer → Prop
  | .keep => True
  | .add => ¬ present
  | .remove => present

/-- One if the query is there. -/
def indicator (present : Prop) [Decidable present] : ℤ := if present then 1 else 0

variable {tr : Transfer} {running : Finset Query} {query : Query}

theorem onSet_subset (h : tr ≠ .add) : tr.onSet query running ⊆ running := by
  cases tr with
  | keep => exact Finset.Subset.refl _
  | add => exact absurd rfl h
  | remove => exact erase_subset _ _

theorem card_onSet (h : tr.Possible (query ∈ running)) :
    ((tr.onSet query running).card : ℤ) = running.card + tr.delta := by
  cases tr with
  | keep => simp [onSet, delta]
  | add => simp [onSet, delta, card_insert_of_notMem h]
  | remove =>
      have hpos : 0 < running.card := card_pos.mpr ⟨query, h⟩
      rw [onSet, card_erase_of_mem h, delta]
      omega

variable {queued : List Query}

theorem length_onList (h : tr.Possible (query ∈ queued)) :
    ((tr.onList query queued).length : ℤ) = queued.length + tr.delta := by
  cases tr with
  | keep | add => simp [onList, delta]
  | remove =>
      have hpos : 0 < queued.length := List.length_pos_of_mem h
      rw [onList, List.length_erase_of_mem h, delta]
      omega

variable {r : Query}

/-- Whether a query is there after a transfer. -/
theorem indicator_after {present after : Prop} [Decidable present] [Decidable after]
    (hpossible : r = query → tr.Possible present)
    (hafter : after ↔ match tr with
      | .keep => present
      | .add => present ∨ r = query
      | .remove => present ∧ r ≠ query) :
    indicator after = indicator present + if r = query then tr.delta else 0 := by
  by_cases hr : r = query
  · have hself := hpossible hr
    cases tr <;> simp_all [indicator, delta, Possible]
  · cases tr <;> simp [indicator, hafter, hr]

theorem indicator_onSet (h : tr.Possible (query ∈ running)) :
    indicator (r ∈ tr.onSet query running) =
      indicator (r ∈ running) + if r = query then tr.delta else 0 := by
  refine indicator_after (fun hr => hr ▸ h) ?_
  cases tr <;> simp [onSet, or_comm, and_comm]

theorem indicator_onList (hnodup : queued.Nodup) (h : tr.Possible (query ∈ queued)) :
    indicator (r ∈ tr.onList query queued) =
      indicator (r ∈ queued) + if r = query then tr.delta else 0 := by
  refine indicator_after (fun hr => hr ▸ h) ?_
  cases tr <;> simp [onList, hnodup.mem_erase_iff, and_comm]

end Transfer

open Transfer

/-- A move of one query in one group. -/
structure Move where
  place : ResourceGroupId
  query : Query
  running : Transfer
  queued : Transfer

namespace Groups

variable {t : PathTree String} {s s' s'' : Groups} {m : Move}

/-- The query can be moved so. -/
structure CanMove (m : Move) (s : Groups) : Prop where
  running : m.running.Possible (m.query ∈ (s.group m.place).runningQueries)
  queued : m.queued.Possible (m.query ∈ (s.group m.place).queuedQueries.elements)

/-- The move was made, and counted by all groups above. -/
structure Moves (m : Move) (s s' : Groups) : Prop where
  running : ∀ a, (s'.group a).runningQueries =
    if a = m.place then m.running.onSet m.query (s.group a).runningQueries
    else (s.group a).runningQueries
  queued : ∀ a, (s'.group a).queuedQueries.elements.Perm
    (if a = m.place then m.queued.onList m.query (s.group a).queuedQueries.elements
    else (s.group a).queuedQueries.elements)
  descendantRunning : ∀ a, (s'.group a).descendantRunningQueries =
    (s.group a).descendantRunningQueries + if Below a m.place then m.running.delta else 0
  descendantQueued : ∀ a, (s'.group a).descendantQueuedQueries =
    (s.group a).descendantQueuedQueries + if Below a m.place then m.queued.delta else 0

/-- The same queries are running and queued, and counted. -/
structure SameQueries (g g' : InternalResourceGroup) : Prop where
  running : g'.runningQueries = g.runningQueries
  queued : g'.queuedQueries.elements.Perm g.queuedQueries.elements
  descendantRunning : g'.descendantRunningQueries = g.descendantRunningQueries
  descendantQueued : g'.descendantQueuedQueries = g.descendantQueuedQueries

theorem SameQueries.refl (g : InternalResourceGroup) : SameQueries g g :=
  ⟨rfl, List.Perm.refl _, rfl, rfl⟩

/-- No query is moved. -/
def Idle (s s' : Groups) : Prop := ∀ a, SameQueries (s.group a) (s'.group a)

theorem Idle.refl (s : Groups) : Idle s s := fun _ => SameQueries.refl _

theorem Idle.of_group (h : s'.group = s.group) : Idle s s' := by
  intro a
  rw [h]
  exact SameQueries.refl _

theorem Idle.trans (h : Idle s s') (h' : Idle s' s'') : Idle s s'' := by
  intro a
  exact ⟨(h' a).running.trans (h a).running, (h' a).queued.trans (h a).queued,
    (h' a).descendantRunning.trans (h a).descendantRunning,
    (h' a).descendantQueued.trans (h a).descendantQueued⟩

/-- Leaving all queries where they are is a move of nothing. -/
theorem Idle.moves (h : Idle s s') (place : ResourceGroupId) (query : Query) :
    Moves ⟨place, query, .keep, .keep⟩ s s' := by
  refine ⟨?_, ?_, ?_, ?_⟩
  · intro a
    rw [(h a).running, onSet, ite_self]
  · intro a
    rw [onList, ite_self]
    exact (h a).queued
  · intro a
    simp [(h a).descendantRunning, delta]
  · intro a
    simp [(h a).descendantQueued, delta]

theorem canMove_keep (place : ResourceGroupId) (query : Query) :
    CanMove ⟨place, query, .keep, .keep⟩ s :=
  ⟨trivial, trivial⟩

/-! ## Counting -/

/-- The number of queries that run in a group. -/
def runningCount (s : Groups) (p : ResourceGroupId) : ℤ := (s.group p).runningQueries.card

/-- The number of queries that are queued in a group. -/
def queuedCount (s : Groups) (p : ResourceGroupId) : ℤ := (s.group p).queuedQueries.size

theorem Moves.runningCount (hmoves : Moves m s s') (hcan : CanMove m s) (a : ResourceGroupId) :
    s'.runningCount a = s.runningCount a + if a = m.place then m.running.delta else 0 := by
  rw [Groups.runningCount, Groups.runningCount, hmoves.running]
  by_cases ha : a = m.place
  · subst ha
    rw [if_pos rfl, if_pos rfl, card_onSet hcan.running]
  · rw [if_neg ha, if_neg ha, add_zero]

theorem Moves.queuedCount (hmoves : Moves m s s') (hcan : CanMove m s) (a : ResourceGroupId) :
    s'.queuedCount a = s.queuedCount a + if a = m.place then m.queued.delta else 0 := by
  rw [Groups.queuedCount, Groups.queuedCount, Queue.size_eq_length, Queue.size_eq_length,
    (hmoves.queued a).length_eq]
  by_cases ha : a = m.place
  · subst ha
    rw [if_pos rfl, if_pos rfl, length_onList hcan.queued]
  · rw [if_neg ha, if_neg ha, add_zero]

/-- The number of places of the tree that hold a query. -/
def occurrences (t : PathTree String) (s : Groups) (query : Query) : ℤ :=
  ∑ p ∈ t.ids.toFinset,
    (Transfer.indicator (query ∈ (s.group p).runningQueries) +
      Transfer.indicator (query ∈ (s.group p).queuedQueries.elements))

/-- A move changes the number of places of its own query only. -/
theorem Moves.occurrences
    (hmoves : Moves m s s') (hcan : CanMove m s) (hplace : m.place ∈ t.ids) (r : Query) :
    s'.occurrences t r =
      s.occurrences t r + if r = m.query then m.running.delta + m.queued.delta else 0 := by
  have hterm : ∀ p ∈ t.ids.toFinset,
      indicator (r ∈ (s'.group p).runningQueries) +
          indicator (r ∈ (s'.group p).queuedQueries.elements) =
        (indicator (r ∈ (s.group p).runningQueries) +
          indicator (r ∈ (s.group p).queuedQueries.elements)) +
        if p = m.place then (if r = m.query then m.running.delta + m.queued.delta else 0)
        else 0 := by
    intro p _
    have hqueued : indicator (r ∈ (s'.group p).queuedQueries.elements) =
        indicator (r ∈ if p = m.place then
          m.queued.onList m.query (s.group p).queuedQueries.elements
          else (s.group p).queuedQueries.elements) := by
      exact if_congr (hmoves.queued p).mem_iff rfl rfl
    rw [hqueued]
    simp only [hmoves.running p]
    by_cases hp : p = m.place
    · subst hp
      simp only [if_true]
      have hnodup : (s.group m.place).queuedQueries.elements.Nodup :=
        (s.group m.place).queuedQueries.nodup
      rw [indicator_onSet hcan.running, indicator_onList hnodup hcan.queued]
      by_cases hr : r = m.query
      · simp only [if_pos hr]
        ring
      · simp [if_neg hr]
    · simp only [if_neg hp, add_zero]
  rw [Groups.occurrences, sum_congr rfl hterm, sum_add_distrib]
  simp [Groups.occurrences, hplace]

theorem occurrences_nonneg_term (s : Groups) (query : Query) (p : ResourceGroupId) :
    0 ≤ indicator (query ∈ (s.group p).runningQueries) +
      indicator (query ∈ (s.group p).queuedQueries.elements) := by
  unfold indicator
  split <;> split <;> simp

variable {p : ResourceGroupId}

/-- A query that is nowhere is neither running nor queued in any group. -/
theorem not_held_of_occurrences_zero (hp : p ∈ t.ids) (hzero : s.occurrences t query = 0) :
    query ∉ (s.group p).runningQueries ∧ query ∉ (s.group p).queuedQueries.elements := by
  have hterm := (sum_eq_zero_iff_of_nonneg
    (fun q _ => s.occurrences_nonneg_term query q)).mp hzero p (List.mem_toFinset.mpr hp)
  unfold indicator at hterm
  split at hterm <;> split at hterm <;> simp_all

/-! ## Moves along a path -/

/-- A move, told apart by where a group stands relative to its place. -/
theorem Moves.of_groups
    (hplace : (s'.group m.place).runningQueries =
        m.running.onSet m.query (s.group m.place).runningQueries ∧
      (s'.group m.place).queuedQueries.elements.Perm
        (m.queued.onList m.query (s.group m.place).queuedQueries.elements) ∧
      (s'.group m.place).descendantRunningQueries = (s.group m.place).descendantRunningQueries ∧
      (s'.group m.place).descendantQueuedQueries = (s.group m.place).descendantQueuedQueries)
    (hchild : ∀ a n, (n :: a) <:+ m.place →
      (s'.group a).runningQueries = (s.group a).runningQueries ∧
      (s'.group a).queuedQueries = (s.group a).queuedQueries ∧
      (s'.group a).descendantRunningQueries =
        (s.group a).descendantRunningQueries + m.running.delta ∧
      (s'.group a).descendantQueuedQueries =
        (s.group a).descendantQueuedQueries + m.queued.delta)
    (hother : ∀ a, ¬ a <:+ m.place → s'.group a = s.group a) : Moves m s s' := by
  refine ⟨?_, ?_, ?_, ?_⟩
  all_goals
    intro a
    rcases on_path_cases a m.place with rfl | ⟨n, hn⟩ | hnot
  · rw [if_pos rfl, hplace.1]
  · rw [if_neg (below_of_child hn).2, (hchild a n hn).1]
  · rw [if_neg (ne_of_not_suffix hnot), hother a hnot]
  · rw [if_pos rfl]
    exact hplace.2.1
  · rw [if_neg (below_of_child hn).2, (hchild a n hn).2.1]
  · rw [if_neg (ne_of_not_suffix hnot), hother a hnot]
  · rw [if_neg Below.irrefl, hplace.2.2.1, add_zero]
  · rw [if_pos (below_of_child hn), (hchild a n hn).2.2.1]
  · rw [if_neg fun hbelow => hnot hbelow.1, hother a hnot, add_zero]
  · rw [if_neg Below.irrefl, hplace.2.2.2, add_zero]
  · rw [if_pos (below_of_child hn), (hchild a n hn).2.2.2]
  · rw [if_neg fun hbelow => hnot hbelow.1, hother a hnot, add_zero]

/-- A change of one group and the loop over its parents that counts it. -/
theorem moves_of_path {f : InternalResourceGroup → InternalResourceGroup}
    {h : String → InternalResourceGroup → InternalResourceGroup}
    (hgroup : s'.group = (forParents h m.place (s.modify m.place f)).group)
    (hqueued : (f (s.group m.place)).queuedQueries.elements.Perm
      (m.queued.onList m.query (s.group m.place).queuedQueries.elements))
    (hplace : ∀ g, (f g).runningQueries = m.running.onSet m.query g.runningQueries ∧
      (f g).descendantRunningQueries = g.descendantRunningQueries ∧
      (f g).descendantQueuedQueries = g.descendantQueuedQueries := by
        intros; exact ⟨rfl, rfl, rfl⟩)
    (hkeep : ∀ n g, (h n g).runningQueries = g.runningQueries ∧
      (h n g).queuedQueries = g.queuedQueries := by intros; exact ⟨rfl, rfl⟩)
    (hcount : ∀ n g,
      (h n g).descendantRunningQueries = g.descendantRunningQueries + m.running.delta ∧
      (h n g).descendantQueuedQueries = g.descendantQueuedQueries + m.queued.delta := by
        intros; simp [Transfer.delta, sub_eq_add_neg, InternalResourceGroup.descendantStarted]) :
    Moves m s s' := by
  refine .of_groups ?_ ?_ ?_
  · rw [hgroup, path_group_self]
    exact ⟨(hplace _).1, hqueued, (hplace _).2⟩
  · intro a n hn
    rw [hgroup, path_group_of_child hn]
    exact ⟨(hkeep n _).1, (hkeep n _).2, hcount n _⟩
  · intro a hnot
    rw [hgroup, path_group_of_not_suffix hnot]

theorem startInBackground_moves (s : Groups) (p : ResourceGroupId) (query : Query) :
    Moves ⟨p, query, .add, .keep⟩ s (s.startInBackground p query) :=
  moves_of_path startInBackground_group (List.Perm.refl _)

theorem enqueueQuery_moves (hnew : query ∉ (s.group p).queuedQueries.elements) :
    Moves ⟨p, query, .keep, .add⟩ s (s.enqueueQuery p query) := by
  refine moves_of_path enqueueQuery_group ?_
  rw [Queue.addOrUpdate, dif_neg hnew, Queue.elements, List.map_append]
  exact List.Perm.refl _

/-- A query that was started from a queue moves to the running ones of its group. -/
theorem StartedFrom.moves {x : ResourceGroupId} (h : StartedFrom [] x query s s') :
    Moves ⟨x, query, .add, .remove⟩ s s' := by
  refine .of_groups ?_ ?_ h.other
  · rw [h.place, Queue.elements_remove]
    exact ⟨rfl, List.Perm.refl _, rfl, rfl⟩
  · intro a n hn
    rw [h.between a n List.nil_suffix hn]
    exact ⟨rfl, rfl, rfl, rfl⟩

end Groups
end Presto.ResourceGroups
