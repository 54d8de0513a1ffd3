import Presto.Execution.ResourceGroups.QueryAccounts

/-!
# The counters of a group

In every run the counters of a group are the numbers of running and queued
queries in the groups below it, and the memory usage of a group with sub groups
is the sum of theirs.
-/

namespace Presto.ResourceGroups

open List Finset

namespace Groups

variable {t : PathTree String} {s s' : Groups} {p a : ResourceGroupId} {n : String} {query : Query}

/-! ## Memory usage -/

@[simp] theorem removeClean_cachedMemoryUsageBytes :
    ((s.removeClean p n).group a).cachedMemoryUsageBytes = (s.group a).cachedMemoryUsageBytes := by
  rw [removeClean]
  split
  · rfl
  · rw [modify_group]
    split <;> rfl

section Round

variable {refresh : ResourceGroupId → Groups → Groups}

/-- The state before the last update of a round. -/
theorem refreshSubGroup_group :
    (refreshSubGroup refresh p s n).group =
      (((refresh (n :: p) (s.addMemory p
        (-(s.group (n :: p)).cachedMemoryUsageBytes))).addMemory p
          ((refresh (n :: p) (s.addMemory p
            (-(s.group (n :: p)).cachedMemoryUsageBytes))).group
              (n :: p)).cachedMemoryUsageBytes).removeClean p n).group := by
  unfold refreshSubGroup
  dsimp only
  split
  · rw [updateEligibility_group]
  · rfl

theorem removeClean_group_of_ne (ha : a ≠ p) : (s.removeClean p n).group a = s.group a := by
  rw [removeClean]
  split
  · rfl
  · exact modify_group_of_ne ha

/-- Except for its own group a round does what the refresh of the sub group does. -/
theorem refreshSubGroup_group_of_ne (ha : a ≠ p) :
    (refreshSubGroup refresh p s n).group a =
      (refresh (n :: p) (s.addMemory p
        (-(s.group (n :: p)).cachedMemoryUsageBytes))).group a := by
  rw [refreshSubGroup_group, removeClean_group_of_ne ha, addMemory, modify_group_of_ne ha]

/-- A round changes its group and the subtree of the sub group only. -/
theorem refreshSubGroup_group_of_other
    (hlocal : ∀ s a, ¬ (n :: p) <:+ a → (refresh (n :: p) s).group a = s.group a)
    (hap : a ≠ p) (ha : ¬ (n :: p) <:+ a) :
    (refreshSubGroup refresh p s n).group a = s.group a := by
  rw [refreshSubGroup_group_of_ne hap, hlocal _ a ha, addMemory, modify_group_of_ne hap]

/-- The memory usages after one round of the loop over the dirty sub groups. -/
theorem refreshSubGroup_cachedMemoryUsageBytes
    (hlocal : ∀ s, (refresh (n :: p) s).group p = s.group p) :
    ((refreshSubGroup refresh p s n).group p).cachedMemoryUsageBytes =
      (s.group p).cachedMemoryUsageBytes - (s.group (n :: p)).cachedMemoryUsageBytes +
        ((refreshSubGroup refresh p s n).group (n :: p)).cachedMemoryUsageBytes := by
  rw [refreshSubGroup_group_of_ne (cons_ne_self n p), refreshSubGroup_group,
    removeClean_cachedMemoryUsageBytes, addMemory, modify_group_self, hlocal, addMemory,
    modify_group_self]
  ring

end Round

/-- A refresh changes the groups of its subtree only. -/
theorem internalRefreshStats_group_of_not_suffix
    (memory : Query → ℕ) (iteration : HashOrder) (below : ℕ) (ha : ¬ p <:+ a) :
    (s.internalRefreshStats t memory iteration below p).group a = s.group a := by
  have hleaf : ∀ {s : Groups} {p}, ¬ p <:+ a → (s.refreshLeaf memory p).group a = s.group a :=
    fun ha => modify_group_of_ne (ne_of_not_suffix ha).symm
  induction below generalizing p s with
  | zero => exact hleaf ha
  | succ below ih =>
      rw [internalRefreshStats]
      split
      · exact hleaf ha
      · refine foldlRecOn (motive := fun s' : Groups => s'.group a = s.group a) _ _ rfl ?_
        intro s' hs' n _
        rw [refreshSubGroup_group_of_ne (ne_of_not_suffix ha).symm,
          ih fun h => ha (below_of_child h).1, addMemory,
          modify_group_of_ne (ne_of_not_suffix ha).symm, hs']

/-- The memory usage of the groups of a subtree is the sum over their sub groups. -/
def MemoryBalancedFrom (t : PathTree String) (top : ResourceGroupId) (s : Groups) : Prop :=
  ∀ p ∈ t.ids, top <:+ p → t.children p ≠ [] →
    (s.group p).cachedMemoryUsageBytes =
      ∑ n ∈ (t.children p).toFinset, (s.group (n :: p)).cachedMemoryUsageBytes

theorem MemoryBalancedFrom.congr (h : MemoryBalancedFrom t p s)
    (heq : ∀ a, p <:+ a →
      (s'.group a).cachedMemoryUsageBytes = (s.group a).cachedMemoryUsageBytes) :
    MemoryBalancedFrom t p s' := by
  intro q hq hsuffix hchildren
  rw [heq q hsuffix, h q hq hsuffix hchildren]
  refine sum_congr rfl ?_
  intro n _
  exact (heq _ (hsuffix.trans (suffix_cons n q))).symm

theorem MemoryBalancedFrom.of_leaf (hleaf : t.children p = []) : MemoryBalancedFrom t p s := by
  intro q hq hsuffix hchildren
  exact absurd (t.eq_of_leaf hleaf hq hsuffix ▸ hleaf) hchildren

theorem MemoryBalancedFrom.addMemory (h : MemoryBalancedFrom t p s) (bytes : ℤ) :
    MemoryBalancedFrom t (n :: p) (s.addMemory p bytes) := by
  have hbelow : MemoryBalancedFrom t (n :: p) s := fun q hq hsuffix =>
    h q hq (below_of_child hsuffix).1
  refine hbelow.congr fun a ha => ?_
  rw [Groups.addMemory, modify_group_of_ne (below_of_child ha).2.symm]

/-- One round keeps the balance of a group and of everything below it. -/
theorem MemoryBalancedFrom.refreshSubGroup {refresh : ResourceGroupId → Groups → Groups}
    (h : MemoryBalancedFrom t p s) (hchild : n ∈ t.children p)
    (hlocal : ∀ s a, ¬ (n :: p) <:+ a → (refresh (n :: p) s).group a = s.group a)
    (hrefresh : ∀ bytes, MemoryBalancedFrom t (n :: p) (refresh (n :: p) (s.addMemory p bytes))) :
    MemoryBalancedFrom t p (refreshSubGroup refresh p s n) := by
  have hparent : ¬ (n :: p) <:+ p := fun hsuffix => (below_of_child hsuffix).2 rfl
  have hcached := refreshSubGroup_cachedMemoryUsageBytes (s := s) fun s => hlocal s p hparent
  have hbelow : MemoryBalancedFrom t (n :: p) (Groups.refreshSubGroup refresh p s n) :=
    (hrefresh _).congr fun a ha => by
      rw [refreshSubGroup_group_of_ne (below_of_child ha).2.symm]
  intro q hq hsuffix hchildren
  by_cases hnq : (n :: p) <:+ q
  · exact hbelow q hq hnq hchildren
  -- Outside the sub group that was refreshed, and away from its parent, nothing changed.
  have hsame : ∀ m, ¬ (n :: p) <:+ m :: q →
      (Groups.refreshSubGroup refresh p s n).group (m :: q) = s.group (m :: q) := by
    intro m hm
    refine refreshSubGroup_group_of_other hlocal ?_ hm
    rintro rfl
    exact absurd hsuffix.length_le (by simp)
  have hbefore := h q hq hsuffix hchildren
  by_cases hqp : q = p
  · subst hqp
    have hmem : n ∈ (t.children q).toFinset := mem_toFinset.mpr hchild
    have hothers : ∑ m ∈ (t.children q).toFinset.erase n,
        ((Groups.refreshSubGroup refresh q s n).group (m :: q)).cachedMemoryUsageBytes =
          ∑ m ∈ (t.children q).toFinset.erase n, (s.group (m :: q)).cachedMemoryUsageBytes := by
      refine sum_congr rfl ?_
      intro m hm
      rw [hsame m]
      intro hnm
      exact ne_of_mem_erase hm (child_unique suffix_rfl hnm)
    rw [← add_sum_erase _ _ hmem] at hbefore ⊢
    rw [hcached, hothers, hbefore]
    ring
  · rw [refreshSubGroup_group_of_other hlocal hqp hnq, hbefore]
    refine sum_congr rfl ?_
    intro m _
    rw [hsame m]
    intro hnm
    rcases suffix_cons_iff.mp hnm with heq | hnm
    · exact hqp (cons.inj heq).2.symm
    · exact hnq hnm

/-- A refresh keeps the balance of the memory usages below its group. -/
theorem MemoryBalancedFrom.internalRefreshStats (memory : Query → ℕ) (iteration : HashOrder)
    (below : ℕ) (h : MemoryBalancedFrom t p s) (hdirty : DirtyWithin t s) (hp : p ∈ t.ids)
    (hbelow : t.height ≤ p.length + below) :
    MemoryBalancedFrom t p (s.internalRefreshStats t memory iteration below p) := by
  induction below generalizing p s with
  | zero => exact .of_leaf (t.children_eq_nil_of_height hbelow)
  | succ below ih =>
      rw [Groups.internalRefreshStats]
      split
      · rename_i hleaf
        exact .of_leaf hleaf
      · have hloop := foldlRecOn
          (motive := fun s' => MemoryBalancedFrom t p s' ∧ DirtyWithin t s')
          (iteration.order (s.group p).dirtySubGroups)
          (Groups.refreshSubGroup (Groups.internalRefreshStats t memory iteration below) p)
          ⟨h, hdirty⟩ ?_
        · exact hloop.1
        intro s' hs' n hn
        have hmem : n ∈ t.children p :=
          (hdirty p hp).2 n ((iteration.perm _).mem_iff.mp hn)
        refine ⟨hs'.1.refreshSubGroup hmem
          (fun s a ha => internalRefreshStats_group_of_not_suffix memory iteration below ha) ?_,
          hs'.2.refreshed (.refreshSubGroup (.internalRefreshStats memory iteration below) p s' n)⟩
        intro bytes
        exact ih (hs'.1.addMemory bytes) (hs'.2.refreshed (.addMemory p bytes s'))
          (t.mem_children.mp hmem) (by rw [length_cons]; omega)

/-! ## Calls that do not refresh the memory usages -/

theorem startInBackground_cachedMemoryUsageBytes (a : ResourceGroupId) :
    ((s.startInBackground p query).group a).cachedMemoryUsageBytes =
      (s.group a).cachedMemoryUsageBytes := by
  rw [startInBackground_group]
  exact path_keeps (·.cachedMemoryUsageBytes) a

/-- The memory usage and the dirty sub groups of a group. -/
def memoryState (s : Groups) (a : ResourceGroupId) : ℤ × List String :=
  ((s.group a).cachedMemoryUsageBytes, (s.group a).dirtySubGroups)

theorem enqueueQuery_memoryState (a : ResourceGroupId) :
    (s.enqueueQuery p query).memoryState a = s.memoryState a := by
  rw [memoryState, enqueueQuery_group]
  exact path_keeps (fun g => (g.cachedMemoryUsageBytes, g.dirtySubGroups)) a

theorem queryFinished_memoryState {cpuTimeMillis : ℕ} {counts : Bool} (a : ResourceGroupId) :
    (s.queryFinished p query cpuTimeMillis counts).memoryState a = s.memoryState a := by
  have hcpu : (s.countCpuTime p cpuTimeMillis counts).memoryState a = s.memoryState a :=
    Prod.ext (Calm.countCpuTime p cpuTimeMillis counts s a).memory
      (Calm.countCpuTime p cpuTimeMillis counts s a).dirty
  refine queryFinished_cases (motive := fun s' => s'.memoryState a = s.memoryState a)
    (fun _ => rfl) ?_
  intro f h hleaving
  rw [memoryState, updateEligibility_group, ← hcpu]
  cases hleaving <;> exact path_keeps (fun g => (g.cachedMemoryUsageBytes, g.dirtySubGroups)) a

end Groups

/-! ## All runs -/

namespace Cluster

open Groups

variable {t : PathTree String} {c : Cluster}

/-- The invariant of all runs. -/
structure Accounted (t : PathTree String) (c : Cluster) : Prop where
  tidy : Tidy t c.groups
  places : ∀ query, c.groups.occurrences t query + c.failed.count query +
    c.finished.count query = c.submitted.count query
  nodup : c.submitted.Nodup
  memory : MemoryBalancedFrom t [] c.groups

variable {s : Groups}

theorem Accounted.start (hfresh : Fresh t s) : Accounted t { groups := s } := by
  have hrunning : ∀ p ∈ t.ids, s.runningCount p = 0 := by
    intro p hp
    rw [runningCount, hfresh.running p hp]
    rfl
  have hqueued : ∀ p ∈ t.ids, (s.group p).queuedQueries.elements = [] := by
    intro p hp
    rw [hfresh.queued p hp]
    rfl
  have hqueuedCount : ∀ p ∈ t.ids, s.queuedCount p = 0 := by
    intro p hp
    rw [queuedCount, Queue.size_eq_length, hqueued p hp]
    rfl
  have htotal : ∀ f : ResourceGroupId → ℤ, (∀ p ∈ t.ids, f p = 0) → ∀ p, t.total f p = 0 := by
    intro f hf p
    refine Finset.sum_eq_zero ?_
    intro q hq
    exact hf q (mem_toFinset.mp (Finset.mem_filter.mp hq).1)
  have hoccurrences : ∀ query, s.occurrences t query = 0 := by
    intro query
    refine Finset.sum_eq_zero ?_
    intro p hp
    have hp := mem_toFinset.mp hp
    simp [Transfer.indicator, hfresh.running p hp, hqueued p hp]
  refine ⟨⟨?_, ?_, ?_, ?_, ?_, ?_⟩, ?_, nodup_nil, ?_⟩
  · intro p hp n hn
    rw [hfresh.eligible p hp] at hn
    exact absurd hn not_mem_nil
  · intro p hp
    rw [hfresh.dirty p hp]
    exact ⟨nodup_nil, fun n hn => absurd hn not_mem_nil⟩
  · intro p hp _
    exact ⟨hfresh.running p hp, hqueued p hp⟩
  · intro p hp
    rw [hfresh.descendantRunning p hp, htotal _ hrunning]
  · intro p hp
    rw [hfresh.descendantQueued p hp, htotal _ hqueuedCount]
  · intro query
    rw [hoccurrences]
    exact zero_le_one
  · intro query
    simp [hoccurrences]
  · intro p hp _ _
    rw [hfresh.memory p hp, Finset.sum_eq_zero]
    intro n hn
    exact hfresh.memory _ (t.mem_children.mp (mem_toFinset.mp hn))

variable (h : Accounted t c)

include h

theorem Accounted.of_tidy (htidy : Tidy t s)
    (hoccurrences : ∀ query, s.occurrences t query = c.groups.occurrences t query)
    (hmemory : MemoryBalancedFrom t [] s) : Accounted t { c with groups := s } := by
  refine ⟨htidy, ?_, h.nodup, hmemory⟩
  intro query
  rw [hoccurrences]
  exact h.places query

theorem Accounted.of_calm (hcalm : Calm c.groups s) (heligible : EligibleWithin t s) :
    Accounted t { c with groups := s } :=
  h.of_tidy (h.tidy.of_calm hcalm heligible) (fun query => hcalm.idle.occurrences query)
    (h.memory.congr fun a _ => (hcalm a).memory)

/-- A move that the fate of its query accounts for. -/
theorem Accounted.of_moves {m : Move} {c' : Cluster} (hmoves : Moves m c.groups c'.groups)
    (hcan : CanMove m c.groups) (hplace : m.place ∈ t.ids)
    (hleaf : m.running = .add ∨ m.queued = .add → t.children m.place = [])
    (heligible : EligibleWithin t c'.groups) (hdirty : DirtyWithin t c'.groups)
    (hmemory : ∀ a, (c'.groups.group a).cachedMemoryUsageBytes =
      (c.groups.group a).cachedMemoryUsageBytes)
    (hnodup : c'.submitted.Nodup)
    (hfate : ∀ query,
      (c'.submitted.count query - c'.failed.count query - c'.finished.count query : ℤ) =
        c.submitted.count query - c.failed.count query - c.finished.count query +
          if query = m.query then m.running.delta + m.queued.delta else 0) :
    Accounted t c' := by
  have hplaces : ∀ query, c'.groups.occurrences t query + c'.failed.count query +
      c'.finished.count query = c'.submitted.count query := by
    intro query
    have hbefore := h.places query
    have hfate := hfate query
    rw [hmoves.occurrences hcan hplace]
    omega
  have hunique : ∀ query, c'.groups.occurrences t query ≤ 1 := by
    intro query
    have hcount := nodup_iff_count_le_one.mp hnodup query
    have := hplaces query
    omega
  exact ⟨h.tidy.of_moves hmoves hcan hplace hleaf hunique heligible hdirty, hplaces, hnodup,
    h.memory.congr fun a _ => hmemory a⟩

variable {query : Query}

omit h in
theorem count_cons (r : Query) (l : List Query) :
    ((query :: l).count r : ℤ) = l.count r + if r = query then 1 else 0 := by
  rw [List.count_cons]
  simp [@eq_comm _ query]

/-- A query that was not submitted is nowhere. -/
theorem Accounted.occurrences_of_new (hnew : query ∉ c.submitted) :
    c.groups.occurrences t query = 0 := by
  have hplaces := h.places query
  rw [count_eq_zero.mpr hnew] at hplaces
  have hnonneg : 0 ≤ c.groups.occurrences t query :=
    sum_nonneg fun q _ => c.groups.occurrences_nonneg_term query q
  omega

variable {p : ResourceGroupId}

theorem Accounted.submit (hp : p ∈ t.ids) (hnew : query ∉ c.submitted) :
    Accounted t (c.submit t p query) := by
  have hnodup : (query :: c.submitted).Nodup := nodup_cons.mpr ⟨hnew, h.nodup⟩
  have hrejected : Accounted t
      { c with submitted := query :: c.submitted, failed := query :: c.failed } := by
    refine h.of_moves ((Idle.refl c.groups).moves p query) (canMove_keep p query) hp ?_
      h.tidy.eligible h.tidy.dirty (fun _ => rfl) hnodup ?_
    · rintro (hadd | hadd) <;> exact absurd hadd (by simp)
    · intro r
      simp only [List.count_cons, Transfer.delta]
      split <;> split <;> omega
  obtain ⟨hrunning, hqueued⟩ := not_held_of_occurrences_zero hp (h.occurrences_of_new hnew)
  have hfate : ∀ r, ((query :: c.submitted).count r - c.failed.count r - c.finished.count r : ℤ) =
      c.submitted.count r - c.failed.count r - c.finished.count r +
        if r = query then 1 else 0 := by
    intro r
    rw [count_cons]
    ring
  rw [Cluster.submit]
  split
  · rename_i s' hrun
    obtain ⟨hleaf, ⟨-, rfl⟩ | ⟨-, -, -, rfl⟩⟩ := run_cases hrun
    · refine h.of_moves (startInBackground_moves c.groups p query) ⟨hrunning, trivial⟩ hp
        (fun _ => hleaf) (h.tidy.eligible.path hp)
        (h.tidy.dirty.of_started hp marks_startInBackground)
        startInBackground_cachedMemoryUsageBytes hnodup ?_
      intro r
      rw [hfate r]
      rfl
    · refine h.of_moves (enqueueQuery_moves hqueued) ⟨trivial, hqueued⟩ hp
        (fun _ => hleaf) (h.tidy.eligible.path hp)
        (h.tidy.dirty.of_eq fun a _ => congrArg Prod.snd (enqueueQuery_memoryState a))
        (fun a => congrArg Prod.fst (enqueueQuery_memoryState a)) hnodup ?_
      intro r
      rw [hfate r]
      rfl
  · exact hrejected
  · exact hrejected

theorem Accounted.finish (cpuTimeMillis : ℕ) (counts : Bool) (hp : p ∈ t.ids) :
    Accounted t (c.finish p query cpuTimeMillis counts) := by
  have heligible : EligibleWithin t (c.groups.queryFinished p query cpuTimeMillis counts) :=
    queryFinished_cases (fun _ => h.tidy.eligible) fun _ _ _ =>
      EligibleWithin.updateEligibility (h.tidy.eligible.of_eq (by simp)) hp
  have hdirty : DirtyWithin t (c.groups.queryFinished p query cpuTimeMillis counts) :=
    h.tidy.dirty.of_eq fun a _ => congrArg Prod.snd (queryFinished_memoryState a)
  have hmemory : ∀ a, ((c.groups.queryFinished p query cpuTimeMillis counts).group
      a).cachedMemoryUsageBytes = (c.groups.group a).cachedMemoryUsageBytes :=
    fun a => congrArg Prod.fst (queryFinished_memoryState a)
  have hfate : ∀ r, (c.submitted.count r - c.failed.count r -
      (query :: c.finished).count r : ℤ) =
        c.submitted.count r - c.failed.count r - c.finished.count r +
          if r = query then -1 else 0 := by
    intro r
    rw [count_cons]
    split <;> ring
  rw [Cluster.finish]
  by_cases hheld : c.groups.holds p query
  · obtain ⟨running, queued, hmoves, hcan, hadd, hdelta⟩ := queryFinished_moves hheld
    rw [if_pos hheld]
    refine h.of_moves hmoves hcan hp (fun hnew => absurd hnew (not_or.mpr hadd)) heligible hdirty
      hmemory h.nodup ?_
    intro r
    rw [hfate r, ← hdelta]
  · rw [if_neg hheld, queryFinished_of_not_held hheld]
    exact h

theorem Accounted.refreshStats (memory : Query → ℕ) (iteration : HashOrder) :
    Accounted t { c with groups := c.groups.refreshStats t memory iteration } := by
  have hrefreshed : Refreshed c.groups (c.groups.refreshStats t memory iteration) :=
    .refreshStats memory iteration c.groups
  exact h.of_tidy (h.tidy.refreshStats memory iteration)
    (fun query => hrefreshed.idle.occurrences query)
    (h.memory.internalRefreshStats memory iteration t.height h.tidy.dirty t.root_mem (by simp))

/-- Every call keeps the accounts. -/
theorem Accounted.execute {op : Operation} (hpossible : op.Possible t c) :
    Accounted t (c.execute t op) := by
  have hp := hpossible.target_mem
  by_cases hsetter : op.IsSetter
  · obtain ⟨s, heq, hconfigured⟩ := c.execute_setter (t := t) hsetter
    rw [heq]
    exact h.of_calm hconfigured.calm (hconfigured.eligibleWithin hp h.tidy.eligible)
  cases op with
  | run p query => exact h.submit hp (hpossible.new query rfl)
  | queryFinished p query cpuTimeMillis counts => exact h.finish cpuTimeMillis counts hp
  | refreshStats memory iteration => exact h.refreshStats memory iteration
  | generateCpuQuota elapsedSeconds =>
      exact h.of_calm (.generateCpuQuota elapsedSeconds c.groups)
        (h.tidy.eligible.of_eq (generateCpuQuota_frame elapsedSeconds c.groups).1)
  | setTaskLimitExceeded exceeded => exact h.of_calm (.of_group rfl) (h.tidy.eligible.of_eq rfl)
  | startNext draw =>
      obtain ⟨htidy, hoccurrences⟩ := h.tidy.startNext draw
      exact h.of_tidy htidy hoccurrences
        (h.memory.congr fun a _ => startNext_keeps (·.cachedMemoryUsageBytes) t draw a)
  | processQueuedQueries memory iteration draws =>
      obtain ⟨htidy, hoccurrences⟩ := h.tidy.processQueuedQueries memory iteration draws
      have hbalanced := startAll_invariant (t := t) (motive := MemoryBalancedFrom t [])
        (fun draw s hs => hs.congr fun a _ => startNext_keeps (·.cachedMemoryUsageBytes) t draw a)
      exact h.of_tidy htidy hoccurrences
        (hbalanced draws _ _ (h.refreshStats memory iteration).memory)
  | setSchedulingWeight p weight =>
      have hmodify : EligibleWithin t
          (c.groups.modify p fun g => { g with schedulingWeight := weight }) :=
        h.tidy.eligible.of_eq rfl
      refine h.of_calm (.setSchedulingWeight p weight c.groups) ?_
      refine setSchedulingWeight_cases h.tidy.eligible (fun _ => hmodify) ?_
      rintro n parent rfl -
      exact hmodify.addOrUpdateSubGroup hp
  | setSchedulingPolicy draws p policy =>
      refine h.of_calm (.setSchedulingPolicy draws policy p c.groups) ?_
      refine setSchedulingPolicy_invariant ?_ policy p _ h.tidy.eligible
      intro policy p s hs
      exact hs.switchPolicy
  | _ => exact absurd trivial hsetter

omit h

variable {allowed : Cluster → Operation → Prop}

theorem Accounted.of_reachable
    (hreach : Reachable t allowed c) : Accounted t c :=
  hreach.invariant (fun _ hfresh => .start hfresh)
    (fun _ _ h hpossible _ => h.execute hpossible)

end Cluster

/-- A root with one sub group. -/
def twoLevels : PathTree String where
  ids := [[], ["a"]]
  nodup := by decide
  root_mem := by decide
  parent_mem := by
    intro n p h
    simp only [List.mem_cons, List.cons.injEq, List.not_mem_nil, reduceCtorEq, or_false,
      false_or] at h
    simp [h.2]

/-- Groups that each run one query and queue one. -/
def oneAtATime : Groups where
  rootName := "root"
  taskLimitExceeded := false
  group := fun _ => { hardConcurrencyLimit := 1, maxQueuedQueries := 1 }
  eligibleSubGroups := fun _ => Queue.empty .fifo

theorem oneAtATime_fresh (t : PathTree String) : Fresh t oneAtATime where
  queued _ _ := rfl
  eligible _ _ := rfl
  running _ _ := rfl
  dirty _ _ := rfl
  descendantRunning _ _ := rfl
  descendantQueued _ _ := rfl
  memory _ _ := rfl
  cpu _ _ := rfl
  hardConcurrencyLimit _ _ := zero_le_one
  maxQueuedQueries _ _ := zero_le_one
  cpuLimits _ _ := le_rfl
  policies _ _ _ h := absurd h (by simp [oneAtATime])

/-- One query is submitted to the sub group. -/
def oneSubmitted : Cluster :=
  Cluster.execute twoLevels { groups := oneAtATime } (.run ["a"] ⟨1, 1⟩)

/-- A second query is submitted to the sub group. -/
def twoSubmitted : Cluster := oneSubmitted.execute twoLevels (.run ["a"] ⟨2, 1⟩)

theorem twoSubmitted_reachable (hfirst : allowed { groups := oneAtATime } (.run ["a"] ⟨1, 1⟩))
    (hsecond : allowed oneSubmitted (.run ["a"] ⟨2, 1⟩)) :
    Reachable twoLevels allowed twoSubmitted := by
  refine .step (.step (.start (oneAtATime_fresh twoLevels)) ⟨by decide, ?_⟩ hfirst)
    ⟨by decide, ?_⟩ hsecond
  · intro query _
    exact not_mem_nil
  · intro query hquery
    obtain rfl : query = ⟨2, 1⟩ := (Option.some.inj hquery).symm
    decide

end Presto.ResourceGroups
