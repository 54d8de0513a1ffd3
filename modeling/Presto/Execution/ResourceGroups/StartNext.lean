import Presto.Execution.ResourceGroups.GroupUpdates

/-!
# Starting the next query

The descent of `internalStartNext` from a group to a leaf and back.  Either it
starts no query and changes no fields of any group, or it starts a query that
was queued in a leaf, where every group on the way could run more.
-/

namespace Presto.ResourceGroups.Groups

open Option

variable {s : Groups} {p : ResourceGroupId} {n : String} {query : Query}
  {draw : ResourceGroupId → ℕ} {below : ℕ}

/-- Take a query out of the queue of its group. -/
def dequeue (p : ResourceGroupId) (query : Query) (s : Groups) : Groups :=
  s.modify p fun g => { g with queuedQueries := g.queuedQueries.remove query }

/--
Induction over the calls of one descent.  A call returns at once, starts a query
of its own, or hands on what its sub group did.
-/
theorem internalStartNext_induction
    {motive : ℕ → ResourceGroupId → Groups → Outcome Bool × Groups → Prop}
    (blocked : ∀ below p s,
      s.canRunMore p = false ∨
        ((s.group p).queuedQueries.first (draw p) = none ∧
          (s.eligibleSubGroups p).first (draw p) = none) →
      motive below p s (.ok false, s))
    (queued : ∀ below p s query, s.canRunMore p = true →
      (s.group p).queuedQueries.first (draw p) = some query →
      motive below p s (.ok true, (s.dequeue p query).startInBackground p query))
    (bottom : ∀ p s n, (s.eligibleSubGroups p).first (draw p) = some n →
      motive 0 p s (.error .diverges, s))
    (failed : ∀ below p s n outcome e s', s.canRunMore p = true →
      (s.eligibleSubGroups p).first (draw p) = some n → outcome ≠ .ok true →
      motive below (n :: p) (s.removeSubGroup p n) (outcome, s') →
      motive (below + 1) p s (.error e, s'))
    (started : ∀ below p s n s', s.canRunMore p = true →
      (s.group p).queuedQueries.first (draw p) = none →
      (s.eligibleSubGroups p).first (draw p) = some n →
      motive below (n :: p) (s.removeSubGroup p n) (.ok true, s') →
      motive (below + 1) p s (.ok true, s'.subGroupStarted p n))
    (below : ℕ) (p : ResourceGroupId) (s : Groups) :
    motive below p s (s.internalStartNext draw below p) := by
  fun_induction internalStartNext draw below p s with
  | case1 below p s hcan => exact blocked below p s (.inl (by simpa using hcan))
  | case2 below p s hcan query queuedQueries hpoll =>
      obtain ⟨_, hqueued, ⟨⟩⟩ := map_eq_some_iff.mp hpoll
      exact queued below p s query (by simpa using hcan) hqueued
  | case3 below p s hcan hpoll hnone =>
      exact blocked below p s
        (.inr ⟨map_eq_none_iff.mp hpoll, map_eq_none_iff.mp hnone⟩)
  | case4 p s hcan hpoll n eligibleSubGroups hsome =>
      obtain ⟨_, heligible, ⟨⟩⟩ := map_eq_some_iff.mp hsome
      exact bottom p s n heligible
  | case5 p s hcan hpoll n eligibleSubGroups hsome below s₁ e s' hstep ih =>
      obtain ⟨_, heligible, ⟨⟩⟩ := map_eq_some_iff.mp hsome
      exact failed below p s n _ _ _ (by simpa using hcan) heligible (by simp) (hstep ▸ ih)
  | case6 p s hcan hpoll n eligibleSubGroups hsome below s₁ s' hstep ih =>
      obtain ⟨_, heligible, ⟨⟩⟩ := map_eq_some_iff.mp hsome
      exact failed below p s n _ _ _ (by simpa using hcan) heligible (by simp) (hstep ▸ ih)
  | case7 p s hcan hpoll n eligibleSubGroups hsome below s₁ s' hstep ih =>
      obtain ⟨_, heligible, ⟨⟩⟩ := map_eq_some_iff.mp hsome
      exact started below p s n _ (by simpa using hcan) (map_eq_none_iff.mp hpoll) heligible
        (hstep ▸ ih)

theorem subGroupStarted_group :
    (s.subGroupStarted p n).group =
      (s.modify p fun g =>
        { g with descendantQueuedQueries := g.descendantQueuedQueries - 1 }).group := by
  rw [subGroupStarted]
  split <;> rfl

/-! ## What a started query changes -/

/--
The call on the group `top` started a query that was queued in the group `x`.
The groups from `top` to `x` count one query less in their queues; the groups
above `top` do so when the calls on them return.
-/
structure StartedFrom (top x : ResourceGroupId) (query : Query) (s s' : Groups) : Prop where
  suffix : top <:+ x
  queued : query ∈ (s.group x).queuedQueries.elements
  canRunMore : ∀ a, top <:+ a → a <:+ x → s.canRunMore a = true
  chain : ∀ a n, top <:+ a → (n :: a) <:+ x → n ∈ (s.eligibleSubGroups a).elements
  place : s'.group x =
    { s.group x with
      queuedQueries := (s.group x).queuedQueries.remove query
      runningQueries := insert query (s.group x).runningQueries }
  between : ∀ a n, top <:+ a → (n :: a) <:+ x →
    s'.group a =
      { (s.group a).descendantStarted n with
        descendantQueuedQueries := (s.group a).descendantQueuedQueries - 1 }
  above : ∀ a n, Below a top → (n :: a) <:+ x → s'.group a = (s.group a).descendantStarted n
  other : ∀ a, ¬ a <:+ x → s'.group a = s.group a
  taskLimitExceeded : s'.taskLimitExceeded = s.taskLimitExceeded

/-- A query that is polled from the queue of the group itself. -/
theorem StartedFrom.of_queued (hcan : s.canRunMore p = true)
    (hquery : query ∈ (s.group p).queuedQueries.elements) :
    StartedFrom p p query s ((s.dequeue p query).startInBackground p query) := by
  have hbetween : ∀ a, p <:+ a → a <:+ p → a = p := by
    intro a hpa hap
    exact hap.eq_of_length (le_antisymm hap.length_le hpa.length_le)
  refine ⟨List.suffix_rfl, hquery, ?_, ?_, ?_, ?_, ?_, ?_, ?_⟩
  · intro a hpa hap
    rw [hbetween a hpa hap]
    exact hcan
  · intro a n hpa hap
    exact absurd (hpa.length_le.trans_lt (below_of_child hap).length_lt) (by omega)
  · rw [startInBackground_group, path_group_self, dequeue, modify_group_self]
  · intro a n hpa hap
    exact absurd (hpa.length_le.trans_lt (below_of_child hap).length_lt) (by omega)
  · intro a n _ hap
    rw [startInBackground_group, path_group_of_child hap, dequeue,
      modify_group_of_ne (below_of_child hap).2]
  · intro a hap
    rw [startInBackground_group, path_group_of_not_suffix hap, dequeue,
      modify_group_of_ne (ne_of_not_suffix hap)]
  · simp [dequeue]

/-- A query that the sub group started. -/
theorem StartedFrom.of_subGroup {x : ResourceGroupId} {s' : Groups}
    (hcan : s.canRunMore p = true) (hn : n ∈ (s.eligibleSubGroups p).elements)
    (hstarted : StartedFrom (n :: p) x query (s.removeSubGroup p n) s') :
    StartedFrom p x query s (s'.subGroupStarted p n) := by
  have hpx : (n :: p) <:+ x := hstarted.suffix
  have hbelow : Below p x := below_of_child hpx
  have hsplit : ∀ a, p <:+ a → a <:+ x → a = p ∨ (n :: p) <:+ a :=
    fun a hpa hax => eq_or_child_suffix hpx hpa hax
  have hne : ∀ a, (n :: p) <:+ a → a ≠ p := fun a ha => (below_of_child ha).2.symm
  refine ⟨hbelow.1, hstarted.queued, ?_, ?_, ?_, ?_, ?_, ?_, ?_⟩
  · intro a hpa hax
    rcases hsplit a hpa hax with rfl | ha
    · exact hcan
    · exact hstarted.canRunMore a ha hax
  · intro a m hpa hax
    rcases hsplit a hpa (below_of_child hax).1 with rfl | ha
    · rw [child_unique hax hpx]
      exact hn
    · have hmem := hstarted.chain a m ha hax
      rwa [removeSubGroup_eligibleSubGroups_of_ne (hne a ha)] at hmem
  · rw [subGroupStarted_group, modify_group_of_ne hbelow.2.symm, hstarted.place]
    rfl
  · intro a m hpa hax
    rcases hsplit a hpa (below_of_child hax).1 with rfl | ha
    · rw [subGroupStarted_group, modify_group_self,
        hstarted.above a m (Below.cons_iff.mpr List.suffix_rfl) hax]
      rfl
    · rw [subGroupStarted_group, modify_group_of_ne (hne a ha), hstarted.between a m ha hax]
      rfl
  · intro a m hap hax
    rw [subGroupStarted_group, modify_group_of_ne hap.2,
      hstarted.above a m (Below.cons_iff.mpr hap.1) hax]
    rfl
  · intro a hax
    have hap : a ≠ p := by
      rintro rfl
      exact hax hbelow.1
    rw [subGroupStarted_group, modify_group_of_ne hap, hstarted.other a hax]
    rfl
  · rw [← show s'.taskLimitExceeded = s.taskLimitExceeded from hstarted.taskLimitExceeded,
      subGroupStarted]
    split <;> rfl

/-- What is polled on the way from `top` to the query that is started. -/
structure PolledFrom (draw : ResourceGroupId → ℕ) (top x : ResourceGroupId) (query : Query)
    (s : Groups) : Prop where
  subGroup : ∀ a n, top <:+ a → (n :: a) <:+ x → (s.eligibleSubGroups a).first (draw a) = some n
  query : (s.group x).queuedQueries.first (draw x) = some query

/-- A call starts a query, or it leaves the fields of all groups as they are. -/
theorem startNext_cases (t : PathTree String) (draw : ResourceGroupId → ℕ) (s : Groups) :
    ((s.startNext t draw).1 ≠ .ok true ∧ (s.startNext t draw).2.group = s.group ∧
        (s.startNext t draw).2.taskLimitExceeded = s.taskLimitExceeded) ∨
      ((s.startNext t draw).1 = .ok true ∧
        ∃ x query, StartedFrom [] x query s (s.startNext t draw).2 ∧
          PolledFrom draw [] x query s) := by
  refine internalStartNext_induction
    (motive := fun _ p s result =>
      (result.1 ≠ .ok true ∧ result.2.group = s.group ∧
          result.2.taskLimitExceeded = s.taskLimitExceeded) ∨
        (result.1 = .ok true ∧
          ∃ x query, StartedFrom p x query s result.2 ∧ PolledFrom draw p x query s))
    ?_ ?_ ?_ ?_ ?_ t.height [] s
  · intro below p s _
    exact .inl ⟨by simp, rfl, rfl⟩
  · intro below p s query hcan hqueued
    refine .inr ⟨rfl, p, query, .of_queued hcan (Queue.first_mem hqueued), ?_, hqueued⟩
    intro a n hpa hap
    exact absurd (hpa.length_le.trans_lt (below_of_child hap).length_lt) (by omega)
  · intro p s n _
    exact .inl ⟨by simp, rfl, rfl⟩
  · intro below p s n outcome e s' _ _ houtcome hsub
    rcases hsub with ⟨-, hgroup, hlimit⟩ | ⟨hok, -⟩
    · exact .inl ⟨by simp, hgroup, hlimit⟩
    · exact absurd hok houtcome
  · intro below p s n s' hcan _ heligible hsub
    rcases hsub with ⟨hok, -⟩ | ⟨-, x, query, hstarted, hpolled⟩
    · exact absurd rfl hok
    · refine .inr ⟨rfl, x, query, .of_subGroup hcan (Queue.first_mem heligible) hstarted, ?_,
        hpolled.query⟩
      intro a m hpa hax
      rcases eq_or_child_suffix hstarted.suffix hpa (below_of_child hax).1 with rfl | ha
      · rw [child_unique hax hstarted.suffix]
        exact heligible
      · have hne : a ≠ p := (below_of_child ha).2.symm
        rw [← removeSubGroup_eligibleSubGroups_of_ne hne]
        exact hpolled.subGroup a m ha hax

/-- A field that is not about queries is the same after the call, in every group. -/
theorem startNext_keeps {α : Type} (field : InternalResourceGroup → α) (t : PathTree String)
    (draw : ResourceGroupId → ℕ) (a : ResourceGroupId)
    (hplace : ∀ g queued running,
      field { g with queuedQueries := queued, runningQueries := running } = field g := by
        intros; rfl)
    (hbetween : ∀ g n queued,
      field { InternalResourceGroup.descendantStarted g n with descendantQueuedQueries := queued } =
        field g := by intros; rfl) :
    field ((s.startNext t draw).2.group a) = field (s.group a) := by
  rcases startNext_cases t draw s with ⟨-, hgroup, -⟩ | ⟨-, x, query, hstarted, -⟩
  · rw [hgroup]
  · rcases on_path_cases a x with rfl | ⟨n, hn⟩ | hnot
    · rw [hstarted.place, hplace]
    · rw [hstarted.between a n List.nil_suffix hn, hbetween]
    · rw [hstarted.other a hnot]

end Presto.ResourceGroups.Groups
