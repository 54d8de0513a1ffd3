import Presto.Execution.ResourceGroups.QueryPriorityOrder

/-!
# Trees in which query priority scheduling fails

If a group with sub groups has a rival, a run starts the wrong query: while the
root may run nothing, a query of low priority is queued below the rival and one
of high priority below the group.  Once the root may run queries, it descends to
the rival, which is in front with a priority of zero or more.
-/

namespace Presto.ResourceGroups

open Queue Cluster List

namespace Groups

variable {t : PathTree String} {s : Groups} {p x a : ResourceGroupId} {m n : String}
  {query : Query}

/-! ## Queueing a query where only the root is full -/

/-- An update of a group with something to start adds the whole path to the queues. -/
theorem updateEligibility_eligibleSubGroups_of_child (hwork : s.hasQueriesToStart x = true)
    (hcan : ∀ a, a <:+ x → a ≠ [] → s.canRunMore a = true) (hn : (n :: a) <:+ x) :
    (s.updateEligibility x).eligibleSubGroups a =
      (s.eligibleSubGroups a).addOrUpdate n
        ((s.group (n :: a)).getSubGroupSchedulingPriority (s.group a).schedulingPolicy) := by
  induction x generalizing s with
  | nil => exact absurd hn.length_le (by simp)
  | cons m parent ih =>
      have heligible : s.isEligibleToStartNext (m :: parent) = true := by
        have hunfold : s.isEligibleToStartNext (m :: parent) =
            (s.canRunMore (m :: parent) && s.hasQueriesToStart (m :: parent)) := rfl
        rw [hunfold, hwork, hcan _ suffix_rfl (by simp)]
        rfl
      rw [updateEligibility, if_pos heligible]
      rcases suffix_cons_iff.mp hn with heq | hn
      · obtain ⟨rfl, rfl⟩ := cons.inj heq
        rw [updateEligibility_eligibleSubGroups Below.irrefl, addOrUpdateSubGroup,
          modifyEligible_eligibleSubGroups_self]
      · have hne : a ≠ parent := (below_of_child hn).2
        rw [ih ?_ ?_ hn, addOrUpdateSubGroup_eligibleSubGroups_of_ne hne]
        · rfl
        · have hmem : m ∈ ((s.addOrUpdateSubGroup parent m).eligibleSubGroups parent).elements := by
            rw [addOrUpdateSubGroup, modifyEligible_eligibleSubGroups_self,
              mem_elements_addOrUpdate]
            exact .inl rfl
          rw [hasQueriesToStart, isEmpty_eq_false_iff.mpr ⟨m, hmem⟩]
          simp
        · intro a ha hroot
          exact hcan a (ha.trans (suffix_cons m parent)) hroot

theorem enqueueQuery_canRunMore : (s.enqueueQuery x query).canRunMore a = s.canRunMore a := by
  rw [canRunMore, enqueueQuery_group]
  have hlimit : (s.enqueueQuery x query).taskLimitExceeded = s.taskLimitExceeded := by
    simp [enqueueQuery]
  rw [hlimit]
  exact path_keeps (fun g => g.canRunMore s.taskLimitExceeded) a

theorem enqueueQuery_schedulingPolicy :
    ((s.enqueueQuery x query).group a).schedulingPolicy = (s.group a).schedulingPolicy := by
  rw [enqueueQuery_group]
  exact path_keeps (·.schedulingPolicy) a

theorem enqueueQuery_queuedQueries_of_ne (ha : a ≠ x) :
    ((s.enqueueQuery x query).group a).queuedQueries = (s.group a).queuedQueries := by
  rw [enqueueQuery_group]
  rcases on_path_cases a x with rfl | ⟨n, hn⟩ | hnot
  · exact absurd rfl ha
  · rw [path_group_of_child hn]
  · rw [path_group_of_not_suffix hnot]

theorem enqueueQuery_queuedQueries_self :
    ((s.enqueueQuery x query).group x).queuedQueries =
      (s.group x).queuedQueries.addOrUpdate query query.queryPriority := by
  rw [enqueueQuery_group, path_group_self]

/-- The queues on the path of a query that was queued, where the groups can run more. -/
theorem enqueueQuery_eligibleSubGroups_of_child
    (hcan : ∀ a, a <:+ x → a ≠ [] → s.canRunMore a = true) (hn : (n :: a) <:+ x) :
    (s.enqueueQuery x query).eligibleSubGroups a =
      (s.eligibleSubGroups a).addOrUpdate n
        (((s.enqueueQuery x query).group (n :: a)).getSubGroupSchedulingPriority
          (s.group a).schedulingPolicy) := by
  have hpolicy := @enqueueQuery_schedulingPolicy s x a query
  have hqueued := @enqueueQuery_queuedQueries_self s x query
  have hcanAfter := fun a => @enqueueQuery_canRunMore s x a query
  rw [enqueueQuery] at hpolicy hqueued hcanAfter ⊢
  rw [updateEligibility_group] at hpolicy hqueued
  rw [updateEligibility_eligibleSubGroups_of_child ?_ ?_ hn, forParents_eligibleSubGroups,
    modify_eligibleSubGroups, hpolicy, updateEligibility_group]
  · have hmem :
        query ∈ ((s.group x).queuedQueries.addOrUpdate query query.queryPriority).elements :=
      mem_elements_addOrUpdate.mpr (.inl rfl)
    rw [hasQueriesToStart, hqueued, isEmpty_eq_false_iff.mpr ⟨query, hmem⟩]
    rfl
  · intro a ha hroot
    have hsame := hcanAfter a
    rw [updateEligibility_canRunMore] at hsame
    rw [hsame]
    exact hcan a ha hroot

/-- A query is queued if the root cannot run more and all groups of the path can queue more. -/
theorem run_eq_enqueueQuery (hleaf : t.children p = []) (hroot : s.canRunMore [] = false)
    (hqueue : ∀ a, a <:+ p → (s.group a).canQueueMore = true)
    (hpositive : 0 < query.queryPriority) :
    s.run t p query = .ok (true, s.enqueueQuery p query) := by
  have hcanQueue : allOnPath (fun a => (s.group a).canQueueMore) p = true :=
    allOnPath_iff.mpr hqueue
  have hcanRun : allOnPath (fun a => s.canRunMore a) p = false := by
    by_contra hcan
    rw [Bool.not_eq_false, allOnPath_iff] at hcan
    rw [hcan [] nil_suffix] at hroot
    exact absurd hroot (by simp)
  rw [run, if_neg (not_not.mpr hleaf)]
  simp only [hcanQueue, hcanRun]
  rw [if_neg (by simp), if_neg (by simp), if_neg (not_le.mpr hpositive)]

end Groups

/-- Groups that use query priority, of which only the root cannot run a query. -/
def rootFull : Groups where
  rootName := "root"
  taskLimitExceeded := false
  group := fun p =>
    { hardConcurrencyLimit := if p = [] then 0 else 1
      maxQueuedQueries := 2
      schedulingPolicy := .queryPriority
      queuedQueries := Queue.empty .indexedPriority }
  eligibleSubGroups := fun _ => Queue.empty .indexedPriority

theorem rootFull_fresh (t : PathTree String) : Fresh t rootFull where
  __ := oneAtATime_fresh t
  queued _ _ := rfl
  eligible _ _ := rfl
  hardConcurrencyLimit p _ := by
    unfold rootFull
    dsimp only
    split <;> decide
  maxQueuedQueries _ _ := (by decide : (0 : ℤ) ≤ 2)
  cpuLimits _ _ := le_rfl
  policies _ _ _ _ := rfl

/-- A group with sub groups and a rival, each with a leaf below it. -/
structure Rivals (t : PathTree String) (parent : ResourceGroupId) (x y : String)
    (busy idle : ResourceGroupId) : Prop where
  ne : x ≠ y
  subGroups : t.children (x :: parent) ≠ []
  busy_mem : busy ∈ t.ids
  busy_below : (x :: parent) <:+ busy
  busy_leaf : t.children busy = []
  idle_mem : idle ∈ t.ids
  idle_below : (y :: parent) <:+ idle
  idle_leaf : t.children idle = []

theorem exists_rivals (h : ¬ Groups.Unrivalled t) :
    ∃ parent x y busy idle, Rivals t parent x y busy idle := by
  simp only [Groups.Unrivalled, not_forall] at h
  obtain ⟨x, parent, hx, hchildren, y, hy, hne⟩ := h
  obtain ⟨busy, hbusy, hbelow, hleaf⟩ := t.exists_leaf hx
  obtain ⟨idle, hidle, hbelow', hleaf'⟩ := t.exists_leaf (t.mem_children.mp hy)
  exact ⟨parent, x, y, busy, idle, fun heq => hne heq.symm, hchildren, hbusy, hbelow, hleaf,
    hidle, hbelow', hleaf'⟩

/-- A query of low priority is queued below the rival. -/
def firstQueued (idle : ResourceGroupId) : Groups := rootFull.enqueueQuery idle ⟨1, 1⟩

/-- A query of high priority is queued below the group with sub groups. -/
def bothQueued (idle busy : ResourceGroupId) : Groups := (firstQueued idle).enqueueQuery busy ⟨2, 2⟩

/-- The root can run a query. -/
def rootFree (idle busy : ResourceGroupId) : Groups :=
  (bothQueued idle busy).modify [] fun g => { g with hardConcurrencyLimit := 1 }

/-- The state of the run of the rivals before the last call. -/
def rivalCluster (idle busy : ResourceGroupId) : Cluster where
  groups := rootFree idle busy
  submitted := [⟨2, 2⟩, ⟨1, 1⟩]

namespace Rivals

open Groups

variable {t : PathTree String} {parent : ResourceGroupId} {x y : String}
  {busy idle : ResourceGroupId}

theorem canRunMore_firstQueued (idle a : ResourceGroupId) :
    (firstQueued idle).canRunMore a = rootFull.canRunMore a :=
  enqueueQuery_canRunMore

theorem canRunMore_bothQueued (idle busy a : ResourceGroupId) :
    (bothQueued idle busy).canRunMore a = rootFull.canRunMore a :=
  enqueueQuery_canRunMore.trans (canRunMore_firstQueued idle a)

variable {a : ResourceGroupId}

theorem canRunMore_rootFull (ha : a ≠ []) : rootFull.canRunMore a = true := by
  simp [canRunMore, rootFull, InternalResourceGroup.canRunMore, ha, longMax]

theorem canRunMore_rootFree (idle busy a : ResourceGroupId) :
    (rootFree idle busy).canRunMore a = true := by
  by_cases ha : a = []
  · subst ha
    have hkeeps : ∀ (s : Groups) (p : ResourceGroupId) (query : Query),
        InternalResourceGroup.canRunMore
            { (s.enqueueQuery p query).group [] with hardConcurrencyLimit := 1 } false =
          InternalResourceGroup.canRunMore { s.group [] with hardConcurrencyLimit := 1 } false := by
      intro s p query
      rw [enqueueQuery_group]
      exact path_keeps
        (fun g => InternalResourceGroup.canRunMore { g with hardConcurrencyLimit := 1 } false) []
    have hlimit : (rootFree idle busy).taskLimitExceeded = false := by
      simp [rootFree, bothQueued, firstQueued, enqueueQuery, rootFull]
    rw [canRunMore, hlimit, rootFree, modify_group_self, bothQueued, hkeeps, firstQueued, hkeeps]
    decide
  · rw [rootFree, canRunMore_congr (modify_group_of_ne ha) rfl, canRunMore_bothQueued]
    exact canRunMore_rootFull ha

theorem rootFree_queuedQueries (idle busy a : ResourceGroupId) :
    ((rootFree idle busy).group a).queuedQueries =
      ((bothQueued idle busy).group a).queuedQueries := by
  rw [rootFree, modify_group]
  split <;> rfl

theorem rootFree_runningQueries (idle busy a : ResourceGroupId) :
    ((rootFree idle busy).group a).runningQueries = ∅ := by
  have hkeeps : ∀ (s : Groups) (p : ResourceGroupId) (query : Query),
      ((s.enqueueQuery p query).group a).runningQueries = (s.group a).runningQueries := by
    intro s p query
    rw [enqueueQuery_group]
    exact path_keeps (·.runningQueries) a
  have hboth : ((bothQueued idle busy).group a).runningQueries = ∅ := by
    rw [bothQueued, hkeeps, firstQueued, hkeeps]
    rfl
  rw [rootFree, modify_group]
  split
  · exact hboth
  · exact hboth

theorem below_root (h : Rivals t parent x y busy idle) : Below [] idle := by
  refine ⟨nil_suffix, ?_⟩
  rintro rfl
  exact absurd h.idle_below.length_le (by simp)

/-- The two paths part at the parent. -/
theorem part_at_parent (h : Rivals t parent x y busy idle) {m n : String}
    (hm : (m :: a) <:+ busy) (hn : (n :: a) <:+ idle) (hne : m ≠ n) :
    a = parent ∧ m = x ∧ n = y := by
  have habove : a <:+ busy := (below_of_child hm).1
  have hparent : parent <:+ busy := (below_of_child h.busy_below).1
  have hparent' : parent <:+ idle := (below_of_child h.idle_below).1
  have heq : a = parent := by
    by_contra hdiffer
    rcases suffix_or_suffix_of_suffix habove hparent with hsuffix | hsuffix
    · obtain ⟨k, hk⟩ := Below.exists_child ⟨hsuffix, hdiffer⟩
      exact hne ((child_unique hm (hk.trans hparent)).trans
        (child_unique (hk.trans hparent') hn))
    · obtain ⟨k, hk⟩ := Below.exists_child ⟨hsuffix, fun heq => hdiffer heq.symm⟩
      have habove' : a <:+ idle := (below_of_child hn).1
      exact h.ne ((child_unique h.busy_below (hk.trans habove)).trans
        (child_unique (hk.trans habove') h.idle_below))
  subst heq
  exact ⟨rfl, child_unique hm h.busy_below, child_unique hn h.idle_below⟩

theorem wellQueued_firstQueued (idle a : ResourceGroupId) :
    WellQueued ((firstQueued idle).group a) := by
  refine (KeepsQueues.enqueueQuery (by decide) idle rootFull).queued a ⟨rfl, ?_⟩
  intro query v hv
  exact absurd hv not_mem_nil

theorem queuedQueries_of_other (hidle : a ≠ idle) (hbusy : a ≠ busy) :
    ((bothQueued idle busy).group a).queuedQueries = empty .indexedPriority := by
  rw [bothQueued, enqueueQuery_queuedQueries_of_ne hbusy, firstQueued,
    enqueueQuery_queuedQueries_of_ne hidle]
  rfl

/-- On the path to the rival's query every group polls the sub group of the path. -/
theorem first_on_idle_path (h : Rivals t parent x y busy idle) {n : String}
    (hn : (n :: a) <:+ idle) (lot : ℕ) :
    ((rootFree idle busy).eligibleSubGroups a).first lot = some n := by
  have hfirst : (firstQueued idle).eligibleSubGroups a =
      (empty .indexedPriority).addOrUpdate n
        ((firstQueued idle).group (n :: a)).getHighestQueryPriority := by
    rw [firstQueued, enqueueQuery_eligibleSubGroups_of_child
      (fun a _ ha => canRunMore_rootFull ha) hn]
    rfl
  have hbelow : (rootFree idle busy).eligibleSubGroups a =
      (bothQueued idle busy).eligibleSubGroups a := rfl
  have hcan : ∀ a, a <:+ busy → a ≠ [] → (firstQueued idle).canRunMore a = true :=
    fun a _ ha => (canRunMore_firstQueued idle a).trans (canRunMore_rootFull ha)
  rw [hbelow]
  by_cases habove : Below a busy
  · obtain ⟨m, hm⟩ := habove.exists_child
    have hpolicy : ((firstQueued idle).group a).schedulingPolicy = .queryPriority := by
      rw [firstQueued, enqueueQuery_schedulingPolicy]
      rfl
    rw [bothQueued, enqueueQuery_eligibleSubGroups_of_child hcan hm, hfirst, hpolicy,
      first_of_indexedPriority (by simp [empty])]
    by_cases hmn : m = n
    · subst hmn
      simp [addOrUpdate, empty, elements, peek]
    · -- Where the paths part, the group with sub groups has no queries of its own.
      obtain ⟨rfl, rfl, rfl⟩ := h.part_at_parent hm hn hmn
      have hleaf : m :: a ≠ busy := by
        intro heq
        exact h.subGroups (heq ▸ h.busy_leaf)
      have hother : m :: a ≠ idle := by
        intro heq
        exact h.subGroups (heq ▸ h.idle_leaf)
      have hzero : ((bothQueued idle busy).group (m :: a)).getHighestQueryPriority = 0 := by
        rw [InternalResourceGroup.getHighestQueryPriority, queuedQueries_of_other hother hleaf]
        rfl
      have hle : ((bothQueued idle busy).group (m :: a)).getSubGroupSchedulingPriority
          .queryPriority ≤ ((firstQueued idle).group (n :: a)).getHighestQueryPriority :=
        hzero.trans_le (getHighestQueryPriority_nonneg (wellQueued_firstQueued idle _))
      rw [bothQueued] at hle
      simp [addOrUpdate, empty, elements, peek, hmn, argmax_cons, not_lt.mpr hle]
  · rw [bothQueued, enqueueQuery, updateEligibility_eligibleSubGroups habove,
      forParents_eligibleSubGroups, modify_eligibleSubGroups, hfirst,
      first_of_indexedPriority (by simp [empty])]
    simp [addOrUpdate, empty, elements, peek]

/-- The query of low priority is started. -/
theorem startNext_rootFree (h : Rivals t parent x y busy idle) {draw : ResourceGroupId → ℕ}
    (hordered : PriorityOrdered t (rootFree idle busy))
    (hok : ((rootFree idle busy).startNext t draw).1 = .ok true) :
    ⟨1, 1⟩ ∈ (((rootFree idle busy).startNext t draw).2.group idle).runningQueries := by
  obtain ⟨-, z, query, hstarted, hpolled⟩ :=
    (startNext_cases t draw _).resolve_left fun h => h.1 hok
  obtain ⟨hz, hleaf, -⟩ := hordered.tidy.started hstarted
  -- The descent cannot leave the path to the rival's query.
  have hpath : ∀ a, a <:+ idle → a <:+ z := by
    intro a
    induction a with
    | nil => exact fun _ => nil_suffix
    | cons n a ih =>
        intro hn
        have haz : a <:+ z := ih ((suffix_cons n a).trans hn)
        have hne : a ≠ z := by
          rintro rfl
          exact ne_nil_of_mem (t.mem_children.mpr (t.mem_of_suffix hn h.idle_mem)) hleaf
        obtain ⟨m, hm⟩ := Below.exists_child ⟨haz, hne⟩
        have hfirst := hpolled.subGroup a m nil_suffix hm
        rw [h.first_on_idle_path hn, Option.some.injEq] at hfirst
        rw [hfirst]
        exact hm
  obtain rfl : idle = z := t.eq_of_leaf h.idle_leaf hz (hpath idle suffix_rfl)
  have hne : idle ≠ busy := by
    rintro rfl
    exact h.ne (child_unique h.busy_below h.idle_below)
  have hquery : query = ⟨1, 1⟩ := by
    have hmem := hstarted.queued
    rw [rootFree_queuedQueries, bothQueued, enqueueQuery_queuedQueries_of_ne hne, firstQueued,
      enqueueQuery_queuedQueries_self, mem_elements_addOrUpdate] at hmem
    exact hmem.resolve_right not_mem_nil
  rw [hstarted.place, hquery]
  exact Finset.mem_insert_self _ _

theorem canQueueMore_firstQueued (idle a : ResourceGroupId) :
    ((firstQueued idle).group a).canQueueMore = true := by
  have hnew : (⟨1, 1⟩ : Query) ∉ (rootFull.group idle).queuedQueries.elements := not_mem_nil
  have hcount := (enqueueQuery_moves hnew).getQueuedQueries ⟨trivial, hnew⟩ a
  have hmax : ((firstQueued idle).group a).maxQueuedQueries = 2 := by
    rw [firstQueued, enqueueQuery_group]
    exact path_keeps (·.maxQueuedQueries) a
  have hzero : (rootFull.group a).getQueuedQueries = 0 := rfl
  have hle : ((firstQueued idle).group a).getQueuedQueries ≤ 1 := by
    rw [firstQueued, hcount]
    split
    · exact le_rfl
    · exact zero_le_one
  rw [InternalResourceGroup.getQueuedQueries] at hle
  rw [InternalResourceGroup.canQueueMore, decide_eq_true_eq]
  omega

theorem reachable_of_execute {c c' : Cluster} {op : Operation} (hexecute : c.execute t op = c')
    (hreach : Reachable t (fun c op => op.Unblocked t c) c) (hpossible : op.Possible t c)
    (hbefore : Unblocked t c.groups) (hafter : Unblocked t c'.groups) :
    Reachable t (fun c op => op.Unblocked t c) c' := by
  subst hexecute
  exact .step hreach hpossible ⟨hbefore, hafter⟩

theorem rivalCluster_reachable (h : Rivals t parent x y busy idle) :
    Reachable t (fun c op => op.Unblocked t c) (rivalCluster idle busy) := by
  have hfull : Unblocked t rootFull := fun a _ ha => canRunMore_rootFull ha
  have hfirst : Unblocked t (firstQueued idle) :=
    fun a _ ha => (canRunMore_firstQueued idle a).trans (canRunMore_rootFull ha)
  have hboth : Unblocked t (bothQueued idle busy) :=
    fun a _ ha => (canRunMore_bothQueued idle busy a).trans (canRunMore_rootFull ha)
  have hfree : Unblocked t (rootFree idle busy) := fun a _ _ => canRunMore_rootFree idle busy a
  have hrunIdle : execute t { groups := rootFull } (.run idle ⟨1, 1⟩) =
      { groups := firstQueued idle, submitted := [⟨1, 1⟩] } := by
    rw [execute, submit,
      run_eq_enqueueQuery h.idle_leaf (by decide) (fun _ _ => by rfl) (by decide)]
    rfl
  have hrunBusy : execute t { groups := firstQueued idle, submitted := [⟨1, 1⟩] }
      (.run busy ⟨2, 2⟩) =
        { groups := bothQueued idle busy, submitted := [⟨2, 2⟩, ⟨1, 1⟩] } := by
    have hroot : (firstQueued idle).canRunMore [] = false :=
      (canRunMore_firstQueued idle []).trans (by decide)
    rw [execute, submit, run_eq_enqueueQuery h.busy_leaf hroot
      (fun a _ => canQueueMore_firstQueued idle a) (by decide)]
    rfl
  have hraise : execute t
      { groups := bothQueued idle busy, submitted := [⟨2, 2⟩, ⟨1, 1⟩] }
      (.setHardConcurrencyLimit [] 1) = rivalCluster idle busy := by
    rw [execute, setHardConcurrencyLimit, if_pos zero_le_one, setLimit]
    split <;> rfl
  refine reachable_of_execute hraise (reachable_of_execute hrunBusy (reachable_of_execute hrunIdle
    (.start (rootFull_fresh t)) ⟨h.idle_mem, ?_⟩ hfull hfirst) ⟨h.busy_mem, ?_⟩ hfirst hboth)
      ⟨t.root_mem, ?_⟩ hboth hfree
  · exact fun _ _ => not_mem_nil
  · intro query hquery
    obtain rfl : query = ⟨2, 2⟩ := (Option.some.inj hquery).symm
    simp
  · intro query hquery
    exact absurd hquery (by simp [Operation.submits])

/-- In the run of the rivals the query that is started does not have the highest priority. -/
theorem not_startsHighest (h : Rivals t parent x y busy idle) (draw : ResourceGroupId → ℕ) :
    ∃ c, Reachable t (fun c op => op.Unblocked t c) c ∧ Unblocked t c.groups ∧
      (c.groups.group []).schedulingPolicy = .queryPriority ∧
      (c.groups.startNext t draw).1 = .ok true ∧
      ¬ StartsHighest t c.groups (c.groups.startNext t draw).2 := by
  have hreach := h.rivalCluster_reachable
  have hunblocked : Unblocked t (rootFree idle busy) :=
    fun a _ _ => canRunMore_rootFree idle busy a
  have hpolicy : ((rootFree idle busy).group []).schedulingPolicy = .queryPriority := by
    rw [rootFree, modify_group_self, bothQueued, enqueueQuery_schedulingPolicy, firstQueued,
      enqueueQuery_schedulingPolicy]
    rfl
  have hordered : PriorityOrdered t (rootFree idle busy) :=
    priorityOrdered_of_unblocked hreach hunblocked hpolicy
  have hok : ((rootFree idle busy).startNext t draw).1 = .ok true := by
    rcases internalStartNext_current draw t.height t.root_mem (by simp) hordered.tidy.eligible
      (hordered.current.off []) with ⟨hok, -⟩ | ⟨-, hstop⟩
    · exact hok
    · obtain ⟨n, hn⟩ := Below.exists_child (h.below_root)
      have hmem := first_mem (h.first_on_idle_path hn 0)
      rw [isEligibleToStartNext_iff.mpr ⟨canRunMore_rootFree idle busy [], .inr ⟨n, hmem⟩⟩] at hstop
      exact absurd hstop (by simp)
  have hnot : ¬ StartsHighest t (rootFree idle busy) ((rootFree idle busy).startNext t draw).2 := by
    rintro ⟨-, hmaximal⟩
    have hstarted := h.startNext_rootFree hordered hok
    have hhigh := hmaximal idle h.idle_mem ⟨1, 1⟩ hstarted ?_ busy h.busy_mem ⟨2, 2⟩ ?_
    · exact absurd hhigh (by decide)
    · rw [rootFree_runningQueries]
      exact Finset.notMem_empty _
    · rw [rootFree_queuedQueries, bothQueued, enqueueQuery_queuedQueries_self,
        mem_elements_addOrUpdate]
      exact .inl rfl
  exact ⟨rivalCluster idle busy, hreach, hunblocked, hpolicy, hok, hnot⟩

end Rivals

/--
In every run of a tree that never blocks a group below the root, with query
priority scheduling, a call that starts a query starts one of the highest
priority: that holds for exactly the trees in which a group with sub groups is
the only sub group of its parent.
-/
theorem query_priority_order (t : PathTree String) :
    (∀ c, Reachable t (fun c op => op.Unblocked t c) c → Groups.Unblocked t c.groups →
        (c.groups.group []).schedulingPolicy = .queryPriority →
        ∀ draw, (c.groups.startNext t draw).1 = .ok true →
          StartsHighest t c.groups (c.groups.startNext t draw).2) ↔
      Groups.Unrivalled t := by
  constructor
  · intro h
    by_contra hrivalled
    obtain ⟨parent, x, y, busy, idle, hrivals⟩ := exists_rivals hrivalled
    obtain ⟨c, hreach, hunblocked, hpolicy, hok, hnot⟩ := hrivals.not_startsHighest fun _ => 0
    exact hnot (h c hreach hunblocked hpolicy _ hok)
  · intro hunrivalled c hreach hunblocked hpolicy draw hok
    exact (priorityOrdered_of_unblocked hreach hunblocked hpolicy).startsHighest
      hunrivalled hok

/-- A root with a sub group that has a sub group, and with a leaf. -/
def forkedTree : PathTree String where
  ids := [[], ["x"], ["a", "x"], ["y"]]
  nodup := by decide
  root_mem := by decide
  parent_mem := by
    intro n p h
    simp only [List.mem_cons, List.cons.injEq, List.not_mem_nil, reduceCtorEq, or_false,
      false_or] at h
    rcases h with ⟨-, rfl⟩ | ⟨-, rfl⟩ | ⟨-, rfl⟩ <;> decide

theorem forkedTree_rivals : Rivals forkedTree [] "x" "y" ["a", "x"] ["y"] where
  ne := by decide
  subGroups := by decide
  busy_mem := by decide
  busy_below := by decide
  busy_leaf := by decide
  idle_mem := by decide
  idle_below := by decide
  idle_leaf := by decide

/-- The query of priority one is started while the one of priority two stays queued. -/
theorem query_priority_inverted :
    Reachable forkedTree (fun c op => op.Unblocked forkedTree c) (rivalCluster ["y"] ["a", "x"]) ∧
      Groups.Unblocked forkedTree (rivalCluster ["y"] ["a", "x"]).groups ∧
      ((rivalCluster ["y"] ["a", "x"]).groups.group []).schedulingPolicy = .queryPriority ∧
      ((rivalCluster ["y"] ["a", "x"]).groups.startNext forkedTree fun _ => 0).1 = .ok true ∧
      ⟨1, 1⟩ ∈ (((rivalCluster ["y"] ["a", "x"]).groups.startNext forkedTree
        fun _ => 0).2.group ["y"]).runningQueries ∧
      ⟨2, 2⟩ ∈ (((rivalCluster ["y"] ["a", "x"]).groups.startNext forkedTree
        fun _ => 0).2.group ["a", "x"]).queuedQueries.elements := by
  refine ⟨forkedTree_rivals.rivalCluster_reachable,
    fun a _ _ => Rivals.canRunMore_rootFree ["y"] ["a", "x"] a, by decide, by decide, by decide,
    by decide⟩

end Presto.ResourceGroups
