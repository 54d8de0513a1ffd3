import Presto.Execution.ResourceGroups.ThrowingRuns

/-!
# Counters and eligible sub groups in every run

With tickets that fit in 64 bits the counters of all groups are exact.  The eligible sub groups are
exact as long as no call changes behind their back what a group with waiting queries can run:
generating quota and the limit on tasks do so without an update, and so does a refresh with a
hidden change.
-/

namespace Presto.ResourceGroups

open Groups List

/-! ## Counters -/

namespace Call

variable {t : PathTree String} {c : Cluster} {s : Groups} {a p : ResourceGroupId}

/--
In every run with tickets that fit the counters of a group are the numbers of running and queued
queries in the groups strictly below it, and a refresh of the tree returns and makes the memory
usage of every group with sub groups the sum of theirs.
-/
theorem descendant_counters_exact
    (hreach : Reachable t (fun c _ => TicketsFit t c.groups) c) (hfit : TicketsFit t c.groups) :
    (∀ p ∈ t.ids,
      (c.groups.group p).descendantRunningQueries =
          ∑ q ∈ t.ids.toFinset with Below p q, ((c.groups.group q).runningQueries.card : ℤ) ∧
        (c.groups.group p).descendantQueuedQueries =
          ∑ q ∈ t.ids.toFinset with Below p q, ((c.groups.group q).queuedQueries.size : ℤ)) ∧
      ∀ memory iteration, ∃ s, refreshStats t memory iteration c.groups = .ok () s ∧
        ∀ p ∈ t.ids, t.children p ≠ [] → (s.group p).cachedMemoryUsageBytes =
          ∑ n ∈ (t.children p).toFinset, (s.group (n :: p)).cachedMemoryUsageBytes := by
  obtain ⟨-, horderly⟩ := hreach.without_overflow id
  refine ⟨?_, ?_⟩
  · intro p hp
    exact ⟨horderly.tidy.descendantRunning p hp, horderly.tidy.descendantQueued p hp⟩
  · intro memory iteration
    refine ⟨_, refreshStats_eq memory iteration (hfit.ready horderly) horderly.tidy.dirty, ?_⟩
    intro p hp hchildren
    exact (horderly.toAccounted.refreshStats memory iteration).memory p hp nil_suffix hchildren

/-- A root with three sub groups. -/
def threeSubGroups : PathTree String where
  ids := [[], ["a"], ["b"], ["c"]]
  nodup := by decide
  root_mem := by decide
  parent_mem := by
    intro n p h
    simp only [mem_cons, cons.injEq, not_mem_nil, reduceCtorEq, or_false, false_or] at h
    rcases h with h | h | h <;> simp [h.2]

/-- The root draws its sub groups by their weight, which they all share, and runs nothing yet. -/
def weightedRoot (weight : ℤ) : Groups where
  rootName := "root"
  taskLimitExceeded := false
  group
    | [] => { maxQueuedQueries := 4, schedulingPolicy := .weighted
              queuedQueries := .empty .stochastic }
    | _ => { softConcurrencyLimit := 1, hardConcurrencyLimit := 2, maxQueuedQueries := 4
             schedulingWeight := weight }
  eligibleSubGroups
    | [] => .empty .stochastic
    | _ => .empty .fifo

theorem weightedRoot_fresh (weight : ℤ) : Fresh threeSubGroups (weightedRoot weight) where
  queued
    | [], _ | _ :: _, _ => rfl
  eligible
    | [], _ | _ :: _, _ => rfl
  running
    | [], _ | _ :: _, _ => rfl
  dirty
    | [], _ | _ :: _, _ => rfl
  descendantRunning
    | [], _ | _ :: _, _ => rfl
  descendantQueued
    | [], _ | _ :: _, _ => rfl
  memory
    | [], _ | _ :: _, _ => rfl
  cpu
    | [], _ | _ :: _, _ => rfl
  hardConcurrencyLimit
    | [], _ => le_rfl
    | _ :: _, _ => zero_le_two
  maxQueuedQueries
    | [], _ | _ :: _, _ => zero_le_four
  cpuLimits
    | [], _ | _ :: _, _ => le_rfl
  policies
    | _, [], _, h | _, _ :: _, _, h => nomatch h

/-- One query is submitted to a sub group. -/
def oneQueued : Cluster := execute threeSubGroups { groups := weightedRoot 1 } (.run ["a"] ⟨1, 1⟩)

theorem weightedRoot_ticketsFit : TicketsFit threeSubGroups (weightedRoot 1) :=
  ⟨by decide, by decide, by decide⟩

theorem oneQueued_ticketsFit : TicketsFit threeSubGroups oneQueued.groups :=
  ⟨by decide, by decide, by decide⟩

theorem oneQueued_reachable {allowed : Cluster → Operation → Prop}
    (h : allowed { groups := weightedRoot 1 } (.run ["a"] ⟨1, 1⟩)) :
    Reachable threeSubGroups allowed oneQueued :=
  .step (.start (weightedRoot_fresh 1)) ⟨by decide, fun _ _ => not_mem_nil⟩ h

theorem descendant_counters_exact_of_three :
    (oneQueued.groups.group []).descendantRunningQueries = 0 ∧
      (oneQueued.groups.group []).descendantQueuedQueries = 1 := by
  obtain ⟨hcounters, -⟩ := descendant_counters_exact
    (oneQueued_reachable weightedRoot_ticketsFit) oneQueued_ticketsFit
  obtain ⟨hrunning, hqueued⟩ := hcounters [] (by decide)
  exact ⟨hrunning.trans (by decide), hqueued.trans (by decide)⟩

/-- All calls of a run can be made. -/
def possible (t : PathTree String) : Cluster → List Operation → Bool
  | _, [] => true
  | c, op :: ops =>
      op.target ∈ t.ids && op.submits.all (fun query => query ∉ c.submitted) &&
        possible t (execute t c op) ops

theorem Reachable.run {ops : List Operation} (hreach : Reachable t (fun _ _ => True) c)
    (h : possible t c ops = true) : Reachable t (fun _ _ => True) (ops.foldl (execute t) c) := by
  induction ops generalizing c with
  | nil => exact hreach
  | cons op ops ih =>
      rw [possible, Bool.and_eq_true, Bool.and_eq_true, decide_eq_true_eq, Option.all_eq_true] at h
      obtain ⟨⟨htarget, hsubmits⟩, hrest⟩ := h
      refine ih (hreach.step ⟨htarget, ?_⟩ trivial) hrest
      intro query hquery
      exact of_decide_eq_true (hsubmits query hquery)

/-- Four queries are queued, the change of the policy fails, and then a start. -/
def overflowing : List Operation :=
  [.run ["a"] ⟨1, 1⟩, .run ["a"] ⟨2, 1⟩, .run ["b"] ⟨3, 1⟩, .run ["c"] ⟨4, 1⟩,
    .setSchedulingPolicy (fun _ _ => 0) [] .weightedFair, .setHardConcurrencyLimit ["c"] 0,
    .setHardConcurrencyLimit [] 1, .startNext fun _ => 0]

def halfStarted : Cluster :=
  overflowing.foldl (execute threeSubGroups) { groups := weightedRoot integerMax }

/-- A query was started, but the root still counts it as queued. -/
theorem descendant_counters_stale :
    Reachable threeSubGroups (fun _ _ => True) halfStarted ∧
      (halfStarted.groups.group ["a"]).runningQueries = {⟨1, 1⟩} ∧
      (halfStarted.groups.group []).descendantQueuedQueries = 4 ∧
      ∑ q ∈ threeSubGroups.ids.toFinset with Below [] q,
        ((halfStarted.groups.group q).queuedQueries.size : ℤ) = 3 := by
  exact ⟨.run (.start (weightedRoot_fresh integerMax)) (by decide +kernel), by decide +kernel,
    by decide +kernel, by decide +kernel⟩

end Call

/-! ## Calls that no waiting query notices -/

namespace InternalResourceGroup

variable {g : InternalResourceGroup}

/-- The group can start nothing, whatever its CPU usage and the limit on tasks are. -/
def HeldBack (g : InternalResourceGroup) : Prop :=
  max 1 g.hardConcurrencyLimit ≤ g.runningQueries.card + g.descendantRunningQueries ∨
    g.softMemoryLimitBytes < g.cachedMemoryUsageBytes

/-- The CPU usage of the group is below its limits, and quota cannot raise it. -/
def BelowCpuLimits (g : InternalResourceGroup) : Prop :=
  0 ≤ g.cpuUsageMillis ∧ 0 ≤ g.cpuQuotaGenerationMillisPerSecond ∧
    g.cpuUsageMillis < g.softCpuLimitMillis ∧ g.cpuUsageMillis < g.hardCpuLimitMillis

theorem HeldBack.canRunMore (h : g.HeldBack) (usage : ℤ) (taskLimitExceeded : Bool) :
    InternalResourceGroup.canRunMore { g with cpuUsageMillis := usage } taskLimitExceeded =
      false := by
  rw [InternalResourceGroup.canRunMore]
  split
  · rfl
  split
  · rfl
  rw [Bool.and_eq_false_iff, decide_eq_false_iff_not, decide_eq_false_iff_not]
  refine h.imp (fun hrunning => not_lt.mpr (le_trans ?_ hrunning)) not_le.mpr
  unfold penalizedConcurrencyLimit
  dsimp only
  split <;> omega

theorem BelowCpuLimits.cpuUsageAfter (h : g.BelowCpuLimits) {elapsedSeconds : ℤ}
    (hpositive : 0 < elapsedSeconds) : g.cpuUsageAfter elapsedSeconds ≤ g.cpuUsageMillis := by
  have hquota : 0 ≤ saturated (elapsedSeconds * g.cpuQuotaGenerationMillisPerSecond) := by
    have hproduct := mul_nonneg hpositive.le h.2.1
    unfold saturated longMax
    omega
  have husage := h.1
  rw [InternalResourceGroup.cpuUsageAfter]
  generalize saturated (elapsedSeconds * g.cpuQuotaGenerationMillisPerSecond) = quota at hquota ⊢
  unfold saturated
  split <;> omega

theorem canRunMore_of_belowCpuLimits (h : g.BelowCpuLimits) {usage : ℤ}
    (husage : usage ≤ g.cpuUsageMillis) (taskLimitExceeded : Bool) :
    InternalResourceGroup.canRunMore { g with cpuUsageMillis := usage } taskLimitExceeded =
      g.canRunMore taskLimitExceeded := by
  obtain ⟨-, -, hsoft, hhard⟩ := h
  simp [InternalResourceGroup.canRunMore, not_le.mpr hsoft, not_le.mpr hhard,
    not_le.mpr (husage.trans_lt hsoft), not_le.mpr (husage.trans_lt hhard)]

end InternalResourceGroup

variable {t : PathTree String} {c : Cluster} {s : Groups} {a : ResourceGroupId}

namespace Groups

/-- A query waits in the group or below it. -/
def Awaited (t : PathTree String) (s : Groups) (a : ResourceGroupId) : Prop :=
  ∃ q ∈ t.ids, a <:+ q ∧ ∃ query, query ∈ (s.group q).queuedQueries.elements

/-- Eligible sub groups lead down to a query. -/
theorem AllCurrent.awaited (h : AllCurrent t s) (hwithin : EligibleWithin t s) (ha : a ∈ t.ids)
    (hwork : s.hasQueriesToStart a = true) : Awaited t s a := by
  obtain ⟨below, hbelow⟩ := Nat.exists_eq_add_of_le (t.length_le_height ha)
  rw [hasQueriesToStart, Bool.or_eq_true, Bool.not_eq_true', Bool.not_eq_true',
    Queue.isEmpty_eq_false_iff, Queue.isEmpty_eq_false_iff] at hwork
  induction below generalizing a with
  | zero =>
      rcases hwork with hquery | ⟨n, hn⟩
      · exact ⟨a, ha, suffix_rfl, hquery⟩
      · have hchild := t.length_le_height (t.mem_children.mp (hwithin a ha n hn))
        rw [length_cons] at hchild
        omega
  | succ below ih =>
      rcases hwork with hquery | ⟨n, hn⟩
      · exact ⟨a, ha, suffix_rfl, hquery⟩
      · have hchild := t.mem_children.mp (hwithin a ha n hn)
        obtain ⟨-, hwork⟩ := isEligibleToStartNext_iff.mp ((h _ hchild).1.mp hn)
        obtain ⟨q, hq, hsuffix, hquery⟩ := ih hchild hwork (by rw [hbelow, length_cons]; omega)
        exact ⟨q, hq, (suffix_cons n a).trans hsuffix, hquery⟩

end Groups

/-- A call does not change without an update what a group with waiting queries can run. -/
def Operation.Unnoticed (t : PathTree String) (c : Cluster) : Operation → Prop
  | .refreshStats memory _ | .processQueuedQueries memory _ _ => RefreshSafe t memory c.groups
  | .generateCpuQuota elapsedSeconds =>
      elapsedSeconds ≤ 0 ∨ c.groups.taskLimitExceeded = true ∨
        ∀ a ∈ t.ids, a ≠ [] → Awaited t c.groups a →
          (c.groups.group a).HeldBack ∨ (c.groups.group a).BelowCpuLimits
  | .setTaskLimitExceeded exceeded =>
      exceeded = c.groups.taskLimitExceeded ∨
        ∀ a ∈ t.ids, a ≠ [] → Awaited t c.groups a →
          (c.groups.group a).HeldBack ∨
            (c.groups.group a).hardCpuLimitMillis ≤ (c.groups.group a).cpuUsageMillis
  | _ => True

namespace Call

variable {op : Operation}

theorem keepsEligibility_of_unnoticed (horderly : Cluster.Orderly t c)
    (hcurrent : AllCurrent t c.groups) (h : op.Unnoticed t c) : op.KeepsEligibility t c := by
  have hawaited : ∀ {a}, a ∈ t.ids → c.groups.hasQueriesToStart a = true →
      Awaited t c.groups a := hcurrent.awaited horderly.tidy.eligible
  cases op with
  | refreshStats memory iteration | processQueuedQueries memory iteration draws => exact h
  | generateCpuQuota elapsedSeconds =>
      intro hpositive a ha hroot hwork
      rw [canRunMore]
      rcases h with helapsed | htasks | hgroups
      · omega
      · simp [InternalResourceGroup.canRunMore, htasks]
      · rcases hgroups a ha hroot (hawaited ha hwork) with hheld | hbelow
        · exact (hheld.canRunMore _ _).trans (hheld.canRunMore _ _).symm
        · exact InternalResourceGroup.canRunMore_of_belowCpuLimits hbelow
            (hbelow.cpuUsageAfter hpositive) _
  | setTaskLimitExceeded exceeded =>
      intro a ha hroot hwork
      rw [canRunMore]
      rcases h with rfl | hgroups
      · rfl
      · rcases hgroups a ha hroot (hawaited ha hwork) with hheld | hcpu
        · exact (hheld.canRunMore _ _).trans (hheld.canRunMore _ _).symm
        · simp [InternalResourceGroup.canRunMore, hcpu]
  | _ => trivial

/--
In every run with tickets that fit and calls that no waiting query notices the eligible sub groups
of every group are exactly the eligible ones among its sub groups.  Then a call to start a query
returns, and the periodic call returns and leaves no query queued in a leaf that could run more
together with all groups above it.
-/
theorem eligible_sub_groups_exact
    (hreach : Reachable t (fun c op => TicketsFit t c.groups ∧ op.Unnoticed t c) c)
    (hfit : TicketsFit t c.groups) :
    (∀ p ∈ t.ids, ∀ n, n ∈ (c.groups.eligibleSubGroups p).elements ↔
        n :: p ∈ t.ids ∧ c.groups.isEligibleToStartNext (n :: p) = true) ∧
      (∀ draw, ∀ p ∈ t.ids,
        ∃ started s, internalStartNext draw t.height p c.groups = .ok started s) ∧
      ∀ memory iteration draws, RefreshSafe t memory c.groups →
        ∃ s, processQueuedQueries t memory iteration draws c.groups = .ok () s ∧
          ∀ p ∈ t.ids, t.children p = [] → (∀ a, a <:+ p → s.canRunMore a = true) →
            (s.group p).queuedQueries.elements = [] := by
  obtain ⟨hreach', -⟩ := hreach.without_overflow And.left
  obtain ⟨horderly, hcurrent⟩ := Cluster.orderly_allCurrent_of_reachable hreach'
    fun horderly hcurrent h => keepsEligibility_of_unnoticed horderly hcurrent h.2
  have hready := hfit.ready horderly
  refine ⟨?_, ?_, ?_⟩
  · intro p hp n
    constructor
    · intro hn
      have hchild := t.mem_children.mp (horderly.tidy.eligible p hp n hn)
      exact ⟨hchild, (hcurrent _ hchild).1.mp hn⟩
    · rintro ⟨hchild, heligible⟩
      exact (hcurrent _ hchild).1.mpr heligible
  · intro draw p hp
    have hcall := internalStartNext_eq draw t.height hp hready hfit horderly.tidy.eligible
    rcases internalStartNext_current draw t.height hp (by omega) horderly.tidy.eligible
      (hcurrent.off p) with ⟨hok, -⟩ | ⟨hstop, -⟩
    · exact ⟨true, _, hcall.trans (ofOutcome_ok hok)⟩
    · exact ⟨false, _, hcall.trans (ofOutcome_ok (by rw [hstop]))⟩
  · intro memory iteration draws hsafe
    obtain ⟨hok, hafter, hroot⟩ := hcurrent.processQueuedQueries iteration draws
      horderly.tidy horderly.refreshReady hsafe
    refine ⟨_, (processQueuedQueries_eq memory iteration draws hready hfit horderly.tidy).trans
      (ofOutcome_ok hok), ?_⟩
    intro p hp _ hcan
    rw [eq_nil_iff_forall_not_mem]
    intro query hquery
    have heligible := isEligibleToStartNext_iff.mpr ⟨hcan p suffix_rfl, .inl ⟨query, hquery⟩⟩
    rw [hafter.root_eligible hp hcan heligible] at hroot
    exact absurd hroot (by simp)

/-- The order in which a set was filled. -/
def insertionOrder : HashOrder := ⟨id, fun l => .refl l⟩

theorem eligible_sub_groups_exact_of_three :
    "a" ∈ (oneQueued.groups.eligibleSubGroups []).elements ∧
      (∃ started s, startNext threeSubGroups (fun _ => 0) oneQueued.groups = .ok started s) ∧
      ∃ s, processQueuedQueries threeSubGroups (fun _ => 0) insertionOrder (fun _ _ => 0)
        oneQueued.groups = .ok () s := by
  obtain ⟨hexact, hstart, hprocess⟩ := eligible_sub_groups_exact
    (oneQueued_reachable ⟨weightedRoot_ticketsFit, trivial⟩) oneQueued_ticketsFit
  have hlimits : ∀ p ∈ threeSubGroups.ids,
      memoryUsage threeSubGroups (fun _ => 0) oneQueued.groups p ≤
        (oneQueued.groups.group p).softMemoryLimitBytes := by decide
  obtain ⟨s, hs, -⟩ := hprocess (fun _ => 0) insertionOrder (fun _ _ => 0)
    fun p hp _ hover => absurd hover (not_lt.mpr (hlimits p hp))
  exact ⟨(hexact [] (by decide) "a").mpr ⟨by decide, by decide⟩, hstart _ [] (by decide), s, hs⟩

/-- A query is submitted while too many tasks run, and then the tasks become fewer. -/
def taskLimitLifted : Cluster :=
  [.setTaskLimitExceeded true, .run ["a"] ⟨1, 1⟩, .setTaskLimitExceeded false].foldl
    (execute twoLevels) { groups := oneAtATime }

/-- The periodic call after that. -/
def periodic : Cluster :=
  execute twoLevels taskLimitLifted
    (.processQueuedQueries (fun _ => 0) insertionOrder fun _ _ => 0)

/-- The group of the query can run it but is not eligible, and so it is never started. -/
theorem eligible_sub_groups_stale :
    Reachable twoLevels (fun _ _ => True) taskLimitLifted ∧
      taskLimitLifted.groups.isEligibleToStartNext ["a"] = true ∧
      "a" ∉ (taskLimitLifted.groups.eligibleSubGroups []).elements ∧
      periodic.groups.canRunMore ["a"] = true ∧ periodic.groups.canRunMore [] = true ∧
      (periodic.groups.group ["a"]).queuedQueries.elements = [⟨1, 1⟩] :=
  ⟨.run (.start (oneAtATime_fresh twoLevels)) (by decide), by decide, by decide, by decide +kernel,
    by decide +kernel, by decide +kernel⟩

end Call
end Presto.ResourceGroups
