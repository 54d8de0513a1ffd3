import Presto.Execution.ResourceGroups.EligibilityRuns

/-!
# The order of query priority scheduling

A group with query priority scheduling polls the sub group with the highest
priority, and the priority of a sub group is that of the first query in its own
queue.  A group with sub groups has no queries of its own, so its priority is
zero whatever is queued below it.  The query with the highest priority is started
first in exactly those trees where such a group has no rival: it is the only sub
group of its parent.
-/

namespace Presto.ResourceGroups

namespace Groups

variable {t : PathTree String} {s s' : Groups} {p x y : ResourceGroupId} {n : String}
  {query : Query} {draw : ResourceGroupId → ℕ}

/-! ## The priority of a group -/

variable {g : InternalResourceGroup}

/-- No query of a group has a higher priority than the group. -/
theorem queryPriority_le_getHighestQueryPriority (hqueued : WellQueued g)
    (hquery : query ∈ g.queuedQueries.elements) :
    query.queryPriority ≤ g.getHighestQueryPriority := by
  obtain ⟨v, hv⟩ := Queue.mem_elements.mp hquery
  rw [InternalResourceGroup.getHighestQueryPriority]
  split
  · rename_i hnone
    rw [Queue.peek_eq_none_iff] at hnone
    rw [hnone] at hv
    exact absurd hv List.not_mem_nil
  · rename_i front hfront
    obtain ⟨w, hw, hmax⟩ := Queue.peek_spec hfront
    rw [← (hqueued.2 query v hv).1, ← (hqueued.2 front w hw).1]
    exact hmax query v hv

theorem getHighestQueryPriority_nonneg
    (hqueued : WellQueued g) : 0 ≤ g.getHighestQueryPriority := by
  rw [InternalResourceGroup.getHighestQueryPriority]
  split
  · exact le_rfl
  · rename_i front hfront
    obtain ⟨w, hw, -⟩ := Queue.peek_spec hfront
    exact (hqueued.2 front w hw).2.le

/-! ## Trees without rivals -/

/-- A group with sub groups is the only sub group of its parent. -/
def Unrivalled (t : PathTree String) : Prop :=
  ∀ n p, n :: p ∈ t.ids → t.children (n :: p) ≠ [] → ∀ m ∈ t.children p, m = n

/-- The groups below the root can all run more. -/
def Unblocked (t : PathTree String) (s : Groups) : Prop :=
  ∀ a ∈ t.ids, a ≠ [] → s.canRunMore a = true

/-- What the order of the queries depends on. -/
structure PriorityOrdered (t : PathTree String) (s : Groups) : Prop where
  current : AllCurrent t s
  fits : FitsPolicies t s
  policy : ∀ p ∈ t.ids, (s.group p).schedulingPolicy = .queryPriority
  tidy : Tidy t s
  unblocked : Unblocked t s

variable {a : ResourceGroupId} {r : Query}

/-- Of two leaves with one parent the one with the higher priority is polled. -/
theorem PriorityOrdered.sibling_le {m : String} (h : PriorityOrdered t s)
    (hfirst : (s.eligibleSubGroups a).first (draw a) = some n) (hn : n :: a ∈ t.ids)
    (hm : m :: a ∈ t.ids) (hr : r ∈ (s.group (m :: a)).queuedQueries.elements) :
    r.queryPriority ≤ (s.group (n :: a)).getHighestQueryPriority := by
  have ha := t.parent_mem m a hm
  have hpolicy := h.policy a ha
  have hkind : (s.eligibleSubGroups a).kind = .indexedPriority := by
    rw [(h.fits a ha).2.1, hpolicy]
    rfl
  rw [Queue.first_of_indexedPriority hkind] at hfirst
  obtain ⟨v, hv, hmax⟩ := Queue.peek_spec hfirst
  have heligible : m ∈ (s.eligibleSubGroups a).elements := by
    refine (h.current _ hm).1.mpr (isEligibleToStartNext_iff.mpr ⟨?_, .inl ⟨r, hr⟩⟩)
    exact h.unblocked _ hm (by simp)
  obtain ⟨w, hw⟩ := Queue.mem_elements.mp heligible
  calc r.queryPriority
      ≤ (s.group (m :: a)).getHighestQueryPriority :=
        queryPriority_le_getHighestQueryPriority (h.fits _ hm).1 hr
    _ = w := ((h.current _ hm).2 hpolicy w hw).symm
    _ ≤ v := hmax m w hw
    _ = (s.group (n :: a)).getHighestQueryPriority := (h.current _ hn).2 hpolicy v hv

/-- Without rivals the query that is polled has the highest priority of the tree. -/
theorem PriorityOrdered.polled_maximal (h : PriorityOrdered t s) (hunrivalled : Unrivalled t)
    (hx : x ∈ t.ids) (hpolled : PolledFrom draw [] x query s) :
    ∀ y ∈ t.ids, ∀ r ∈ (s.group y).queuedQueries.elements,
      r.queryPriority ≤ query.queryPriority := by
  have hleaf : t.children x = [] := h.tidy.leaf_of_queued hx (Queue.first_mem hpolled.query)
  have hhighest : (s.group x).getHighestQueryPriority = query.queryPriority := by
    have hkind : (s.group x).queuedQueries.kind = .indexedPriority := by
      rw [(h.fits x hx).1.1, h.policy x hx]
      rfl
    have hfirst := hpolled.query
    rw [Queue.first_of_indexedPriority hkind] at hfirst
    rw [InternalResourceGroup.getHighestQueryPriority, hfirst]
  -- On the way up from the leaf, everything below the group is dominated.
  have hclimb : ∀ a, a <:+ x → ∀ y ∈ t.ids, a <:+ y →
      ∀ r ∈ (s.group y).queuedQueries.elements, r.queryPriority ≤ query.queryPriority := by
    intro a ha
    refine climb_induction (motive := fun a => ∀ y ∈ t.ids, a <:+ y →
      ∀ r ∈ (s.group y).queuedQueries.elements, r.queryPriority ≤ query.queryPriority) ?_ ?_ ha
    · intro y hy hxy r hr
      obtain rfl : x = y := t.eq_of_leaf hleaf hy hxy
      rw [← hhighest]
      exact queryPriority_le_getHighestQueryPriority (h.fits x hx).1 hr
    · intro n a hna hbelow y hy hay r hr
      have hn : n :: a ∈ t.ids := t.mem_of_suffix hna hx
      have hya : Below a y := by
        refine ⟨hay, ?_⟩
        rintro rfl
        have hchildren := h.tidy.leaf_of_queued hy hr
        exact List.ne_nil_of_mem (t.mem_children.mpr hn) hchildren
      obtain ⟨m, hmy⟩ := hya.exists_child
      have hm : m :: a ∈ t.ids := t.mem_of_suffix hmy hy
      by_cases hmn : m = n
      · subst hmn
        exact hbelow y hy hmy r hr
      -- Two sub groups of one group are leaves.
      have hleaves : ∀ k l, k :: a ∈ t.ids → l :: a ∈ t.ids → k ≠ l → t.children (k :: a) = [] := by
        intro k l hk hl hkl
        by_contra hchildren
        exact hkl (hunrivalled k a hk hchildren l (t.mem_children.mpr hl)).symm
      have hxn := t.eq_of_leaf (hleaves n m hn hm fun heq => hmn heq.symm) hx hna
      have hym := t.eq_of_leaf (hleaves m n hm hn hmn) hy hmy
      rw [← hym] at hr
      rw [← hhighest, ← hxn]
      exact h.sibling_le (hpolled.subGroup a n List.nil_suffix hna) hn hm hr
  intro y hy r hr
  exact hclimb [] List.nil_suffix y hy List.nil_suffix r hr

end Groups

/-! ## Runs in which the limits do not block -/

/-- The groups below the root can run more before and after the call. -/
def Operation.Unblocked (t : PathTree String) (c : Cluster) (op : Operation) : Prop :=
  Groups.Unblocked t c.groups ∧ Groups.Unblocked t (c.execute t op).groups

namespace Groups

variable {t : PathTree String} {s s' : Groups} {p : ResourceGroupId} {memory : Query → ℕ}

theorem memory_le_of_canRunMore (h : s.canRunMore p = true) :
    (s.group p).cachedMemoryUsageBytes ≤ (s.group p).softMemoryLimitBytes := by
  rw [canRunMore, InternalResourceGroup.canRunMore] at h
  split at h
  · exact absurd h (by simp)
  · split at h
    · exact absurd h (by simp)
    · exact of_decide_eq_true (Bool.and_eq_true_iff.mp h).2

/-- The memory usage of a group with its limit. -/
def memoryAndLimit (s : Groups) (a : ResourceGroupId) : ℤ × ℤ :=
  ((s.group a).cachedMemoryUsageBytes, (s.group a).softMemoryLimitBytes)

/-- A refresh after which no group is over its memory limit is safe. -/
theorem RefreshSafe.of_unblocked
    (hexact : MemoryExact t memory [] s') (hrefreshed : ∀ a,
      (s'.group a).softMemoryLimitBytes = (s.group a).softMemoryLimitBytes ∧
        (s'.group a).runningQueries = (s.group a).runningQueries)
    (hwithin : ∀ a ∈ t.ids, a ≠ [] →
      (s'.group a).cachedMemoryUsageBytes ≤ (s'.group a).softMemoryLimitBytes) :
    RefreshSafe t memory s := by
  intro p hp hroot hover
  have hfits := hwithin p hp hroot
  rw [hexact p hp List.nil_suffix, memoryUsage_congr fun a => (hrefreshed a).2,
    (hrefreshed p).1] at hfits
  exact absurd hover (not_lt.mpr hfits)

end Groups

namespace Cluster

open Groups

variable {t : PathTree String} {c : Cluster}

/-- Calls that never block a group keep the eligibility. -/
theorem keepsEligibility_of_unblocked
    {op : Operation} (horderly : Orderly t c) (h : op.Unblocked t c) : op.KeepsEligibility t c := by
  obtain ⟨hbefore, hafter⟩ := h
  have hrefresh : ∀ memory iteration,
      RefreshDone t memory [] (c.groups.refreshStats t memory iteration) :=
    fun memory iteration =>
      horderly.refreshReady.internalRefreshStats memory iteration t.height t.root_mem (by simp)
  have hlimit : ∀ memory iteration a,
      ((c.groups.refreshStats t memory iteration).group a).softMemoryLimitBytes =
          (c.groups.group a).softMemoryLimitBytes ∧
        ((c.groups.refreshStats t memory iteration).group a).runningQueries =
          (c.groups.group a).runningQueries := by
    intro memory iteration a
    obtain ⟨bytes, dirty, -, hgroup⟩ :=
      (Refreshed.refreshStats (t := t) memory iteration c.groups).group a
    rw [hgroup]
    exact ⟨rfl, rfl⟩
  cases op with
  | refreshStats memory iteration =>
      exact .of_unblocked (hrefresh memory iteration).exact (hlimit memory iteration)
        fun a ha hroot => memory_le_of_canRunMore (hafter a ha hroot)
  | processQueuedQueries memory iteration draws =>
      refine .of_unblocked (hrefresh memory iteration).exact (hlimit memory iteration) ?_
      intro a ha hroot
      have hsame : (c.groups.processQueuedQueries t memory iteration draws).2.memoryAndLimit a =
          (c.groups.refreshStats t memory iteration).memoryAndLimit a :=
        startAll_invariant (motive := fun s => s.memoryAndLimit a =
            (c.groups.refreshStats t memory iteration).memoryAndLimit a)
          (fun draw s hs => (startNext_keeps (fun g => (g.cachedMemoryUsageBytes,
            g.softMemoryLimitBytes)) t draw a).trans hs) draws _ _ rfl
      obtain ⟨hcached, hsoft⟩ := Prod.mk.inj hsame
      rw [← hcached, ← hsoft]
      exact memory_le_of_canRunMore (hafter a ha hroot)
  | generateCpuQuota elapsedSeconds =>
      intro hpositive a ha hroot _
      have hcan := hafter a ha hroot
      rw [Cluster.execute, canRunMore, generateCpuQuota_group elapsedSeconds c.groups ha hpositive,
        (generateCpuQuota_frame elapsedSeconds c.groups).2] at hcan
      rw [hcan, hbefore a ha hroot]
  | setTaskLimitExceeded exceeded =>
      intro a ha hroot _
      rw [hbefore a ha hroot]
      exact hafter a ha hroot
  | _ => trivial

/-- In a run that never blocks a group the order of the queries is kept. -/
theorem priorityOrdered_of_unblocked
    (hreach : Reachable t (fun c op => op.Unblocked t c) c) (hunblocked : Unblocked t c.groups)
    (hpolicy : (c.groups.group []).schedulingPolicy = .queryPriority) :
    PriorityOrdered t c.groups := by
  obtain ⟨horderly, hcurrent⟩ := orderly_allCurrent_of_reachable hreach
    fun horderly _ => keepsEligibility_of_unblocked horderly
  exact ⟨hcurrent, horderly.fits, fun p hp => horderly.inherits.below hpolicy hp List.nil_suffix,
    horderly.tidy, hunblocked⟩

end Cluster

/-- A queued query was started, and no query that was queued had a higher priority. -/
def StartsHighest (t : PathTree String) (s s' : Groups) : Prop :=
  (∃ x ∈ t.ids, ∃ query ∈ (s.group x).queuedQueries.elements,
      query ∈ (s'.group x).runningQueries) ∧
    ∀ x ∈ t.ids, ∀ query ∈ (s'.group x).runningQueries, query ∉ (s.group x).runningQueries →
      ∀ y ∈ t.ids, ∀ r ∈ (s.group y).queuedQueries.elements,
        r.queryPriority ≤ query.queryPriority

namespace Groups

variable {t : PathTree String} {s s' : Groups} {p x : ResourceGroupId} {query : Query}

/-- The call starts one query. -/
theorem StartedFrom.started_unique (h : StartedFrom [] x query s s')
    (hafter : r ∈ (s'.group a).runningQueries) (hbefore : r ∉ (s.group a).runningQueries) :
    a = x ∧ r = query := by
  rw [h.moves.running a] at hafter
  split at hafter
  · rename_i ha
    exact ⟨ha, (Finset.mem_insert.mp hafter).resolve_right hbefore⟩
  · exact absurd hafter hbefore

/-- Without rivals the call starts a query of the highest priority. -/
theorem PriorityOrdered.startsHighest
    {draw : ResourceGroupId → ℕ} (h : PriorityOrdered t s) (hunrivalled : Unrivalled t)
    (hok : (s.startNext t draw).1 = .ok true) : StartsHighest t s (s.startNext t draw).2 := by
  obtain ⟨-, x, query, hstarted, hpolled⟩ :=
    (startNext_cases t draw s).resolve_left fun h => h.1 hok
  have hx : x ∈ t.ids := (h.tidy.started hstarted).1
  refine ⟨⟨x, hx, query, hstarted.queued, ?_⟩, ?_⟩
  · rw [hstarted.place]
    exact Finset.mem_insert_self _ _
  · intro a _ r hafter hbefore
    rw [(hstarted.started_unique hafter hbefore).2]
    exact h.polled_maximal hunrivalled hx hpolled

end Groups
end Presto.ResourceGroups
