import Presto.Execution.ResourceGroups.PolicyChanges
import Presto.Execution.ResourceGroups.RefreshEligibility

/-!
# Exact eligible sub groups in every run

The eligible sub groups of every group are exactly those that can start a query,
as long as no call changes behind their back what a group can run: generating
quota and the limit on tasks do so without an update, and so does a refresh with
a hidden change.  Then starting a query never fails, and the periodic call leaves
no query behind that could be started.
-/

namespace Presto.ResourceGroups

open List

namespace Groups

variable {t : PathTree String} {s s' : Groups} {p : ResourceGroupId} {n : String}

/-! ## Changes of what a group can run -/

/-- Generating quota does not change whether a group with something to start can run more. -/
def QuotaSafe (t : PathTree String) (elapsedSeconds : ℤ) (s : Groups) : Prop :=
  0 < elapsedSeconds → ∀ a ∈ t.ids, a ≠ [] → s.hasQueriesToStart a = true →
    InternalResourceGroup.canRunMore
      { s.group a with cpuUsageMillis := (s.group a).cpuUsageAfter elapsedSeconds }
      s.taskLimitExceeded = s.canRunMore a

/-- The limit on tasks does not matter to the groups that have something to start. -/
def TaskLimitSafe (t : PathTree String) (exceeded : Bool) (s : Groups) : Prop :=
  ∀ a ∈ t.ids, a ≠ [] → s.hasQueriesToStart a = true →
    (s.group a).canRunMore exceeded = s.canRunMore a

theorem generateCpuQuota_group (elapsedSeconds : ℤ) (s : Groups) {a : ResourceGroupId}
    (ha : a ∈ t.ids) (hpositive : 0 < elapsedSeconds) :
    (s.generateCpuQuota t elapsedSeconds).group a =
      { s.group a with cpuUsageMillis := (s.group a).cpuUsageAfter elapsedSeconds } := by
  rw [generateCpuQuota, if_pos hpositive,
    internalGenerateCpuQuota_group elapsedSeconds t.height t.root_mem (by simp) s a,
    if_pos ⟨nil_suffix, ha⟩]

theorem generateCpuQuota_keeps (elapsedSeconds : ℤ) (s : Groups) (a : ResourceGroupId) :
    ((s.generateCpuQuota t elapsedSeconds).group a).queuedQueries = (s.group a).queuedQueries ∧
      ((s.generateCpuQuota t elapsedSeconds).group a).schedulingPolicy =
        (s.group a).schedulingPolicy := by
  obtain ⟨usage, hgroup⟩ := generateCpuQuota_usage (t := t) elapsedSeconds s a
  rw [hgroup]
  exact ⟨rfl, rfl⟩

theorem AllCurrent.generateCpuQuota
    {elapsedSeconds : ℤ} (h : AllCurrent t s) (hsafe : QuotaSafe t elapsedSeconds s) :
    AllCurrent t (s.generateCpuQuota t elapsedSeconds) := by
  by_cases hpositive : 0 < elapsedSeconds
  · refine h.of_canRunMore (generateCpuQuota_frame elapsedSeconds s).1
      (generateCpuQuota_keeps elapsedSeconds s) ?_
    intro a ha hroot hwork
    rw [canRunMore, generateCpuQuota_group elapsedSeconds s ha hpositive,
      (generateCpuQuota_frame elapsedSeconds s).2]
    exact hsafe hpositive a ha hroot hwork
  · rw [Groups.generateCpuQuota, if_neg hpositive]
    exact h

theorem AllCurrent.setSchedulingWeight {weight : ℤ} (h : AllCurrent t s) :
    AllCurrent t (s.after (s.setSchedulingWeight p weight)) := by
  have hmodify : AllCurrent t (s.modify p fun g => { g with schedulingWeight := weight }) :=
    h.modify rfl rfl rfl
  exact setSchedulingWeight_cases h (fun _ => hmodify)
    fun _ _ _ hmem => hmodify.addOrUpdateSubGroup hmem

variable {draws : ResourceGroupId → ℕ → ℕ} {policy : SchedulingPolicy}

theorem AllCurrent.setSchedulingPolicy (h : AllCurrent t s)
    (hinherits : InheritsFrom t [] s) (hp : p ∈ t.ids) :
    AllCurrent t (s.after (s.setSchedulingPolicy t draws p policy)) := by
  rw [Groups.setSchedulingPolicy]
  split
  · exact h
  rename_i hnew
  split
  · exact h
  rename_i hallowed
  have hparent : s.parentUsesQueryPriority p = false := by
    by_contra hqueryPriority
    rw [Bool.not_eq_false] at hqueryPriority
    refine hallowed ⟨hqueryPriority, ?_⟩
    cases p with
    | nil => exact absurd hqueryPriority (by simp [parentUsesQueryPriority])
    | cons n parent =>
        have hqueryPriority := of_decide_eq_true hqueryPriority
        rintro rfl
        exact hnew (hinherits n parent hp nil_suffix hqueryPriority).symm
  split
  · exact h.useQueryPriority t.height hparent
  · exact h.switchPolicy hparent

theorem Reconfigured.allCurrent (h : Reconfigured p s s') (hcurrent : AllCurrent t s) :
    AllCurrent t s' := by
  induction h with
  | refl => exact hcurrent
  | limit _ hf ih =>
      exact ih.setLimit (fun g => (queues_of_unconfigured (hf g)).2.2)
        fun g => (queues_of_unconfigured (hf g)).1
  | other _ hf hcan ih =>
      exact ih.modify (hcan _ _) (queues_of_unconfigured (hf _)).2.2
        (queues_of_unconfigured (hf _)).1

/-! ## Starting all queries that can be started -/

/-- A group below the root that is eligible, with all groups above able to run more. -/
theorem AllCurrent.root_eligible
    (h : AllCurrent t s) (hp : p ∈ t.ids) (hcan : ∀ a, a <:+ p → s.canRunMore a = true)
    (heligible : s.isEligibleToStartNext p = true) : s.isEligibleToStartNext [] = true := by
  induction p with
  | nil => exact heligible
  | cons n parent ih =>
      have hmem : n ∈ (s.eligibleSubGroups parent).elements := (h _ hp).1.mpr heligible
      refine ih (t.parent_mem n parent hp) ?_ ?_
      · intro a ha
        exact hcan a (ha.trans (suffix_cons n parent))
      · exact isEligibleToStartNext_iff.mpr ⟨hcan parent (suffix_cons n parent),
          .inr ⟨n, hmem⟩⟩

theorem Tidy.getQueuedQueries_nonneg (h : Tidy t s) (hp : p ∈ t.ids) :
    0 ≤ (s.group p).getQueuedQueries := by
  rw [InternalResourceGroup.getQueuedQueries, h.descendantQueued p hp]
  exact add_nonneg (Int.natCast_nonneg _)
    (Finset.sum_nonneg fun q _ => Int.natCast_nonneg _)

/-- The loop has enough rounds: every round but the last takes a query out of the queues. -/
theorem AllCurrent.startAll (draws : ℕ → ResourceGroupId → ℕ) (rounds : ℕ) (h : AllCurrent t s)
    (htidy : Tidy t s) (hrounds : (s.group []).getQueuedQueries < rounds) :
    (s.startAll t draws rounds).1 = .ok () ∧ AllCurrent t (s.startAll t draws rounds).2 ∧
      (s.startAll t draws rounds).2.isEligibleToStartNext [] = false := by
  induction rounds generalizing s with
  | zero =>
      have hnonneg := htidy.getQueuedQueries_nonneg t.root_mem
      exact absurd (hnonneg.trans_lt hrounds) (by simp)
  | succ rounds ih =>
      have hnext : s.startNext t (draws rounds) = s.internalStartNext (draws rounds) t.height [] :=
        rfl
      rw [Groups.startAll]
      rcases internalStartNext_current (draws rounds) t.height t.root_mem (by simp) htidy.eligible
        (h.off []) with ⟨hok, hcurrent⟩ | ⟨hstop, hroot⟩
      · have htidy' := (htidy.startNext (draws rounds)).1
        rcases startNext_cases t (draws rounds) s with ⟨hnot, -, -⟩ |
          ⟨-, x, query, hstarted, -⟩
        · exact absurd hok hnot
        obtain ⟨-, -, hcan⟩ := htidy.started hstarted
        have hcount := hstarted.moves.getQueuedQueries hcan []
        rw [if_pos nil_suffix] at hcount
        have hpair : s.startNext t (draws rounds) = (.ok true, (s.startNext t (draws rounds)).2) :=
          Prod.ext hok rfl
        rw [hpair]
        refine ih hcurrent htidy' ?_
        rw [hcount]
        simp only [Transfer.delta]
        omega
      · rw [← hnext] at hstop
        rw [hstop]
        exact ⟨rfl, h, hroot⟩

/-- The periodic call returns and leaves nothing that could be started. -/
theorem AllCurrent.processQueuedQueries {memory : Query → ℕ} (iteration : HashOrder)
    (draws : ℕ → ResourceGroupId → ℕ) (h : AllCurrent t s) (htidy : Tidy t s)
    (hready : RefreshReady t [] s) (hsafe : RefreshSafe t memory s) :
    (s.processQueuedQueries t memory iteration draws).1 = .ok () ∧
      AllCurrent t (s.processQueuedQueries t memory iteration draws).2 ∧
      (s.processQueuedQueries t memory iteration draws).2.isEligibleToStartNext [] = false := by
  have htidy' := htidy.refreshStats memory iteration
  refine (h.refreshStats iteration hready hsafe).startAll draws _ htidy' ?_
  omega

/-! ## All runs -/

theorem switchPolicy_schedulingWeight (a : ResourceGroupId) :
    ((s.switchPolicy draws policy p).group a).schedulingWeight = (s.group a).schedulingWeight := by
  by_cases hap : a = p
  · rw [hap, switchPolicy_group_self]
  · rw [switchPolicy_group_of_ne hap]

theorem FitsPolicies.switchPolicy (h : FitsPolicies t s) :
    FitsPolicies t (s.switchPolicy draws policy p) := by
  intro a ha
  obtain ⟨hqueued, hkind, htickets⟩ := h a ha
  by_cases hap : a = p
  · subst hap
    rw [Ticketed, switchPolicy_group_self, switchPolicy_eligibleSubGroups_self, Queue.requeue_kind]
    refine ⟨⟨Queue.requeue_kind _ _ _ _, ?_⟩, rfl, ?_⟩
    · intro query v hv
      obtain ⟨hmem, hv⟩ := Queue.mem_requeue.mp hv
      obtain ⟨w, hw⟩ := Queue.mem_elements.mp hmem
      exact ⟨hv, (hqueued.2 query w hw).2⟩
    · rintro rfl n v hv
      obtain ⟨-, rfl⟩ := Queue.mem_requeue.mp hv
      rw [switchPolicy_schedulingWeight]
      exact computeSchedulingWeight_cases _
  · rw [switchPolicy_group_of_ne hap, switchPolicy_eligibleSubGroups_of_ne hap]
    exact ⟨hqueued, hkind, htickets.congr (by rw [switchPolicy_group_of_ne hap])
      (fun _ => switchPolicy_schedulingWeight _) (switchPolicy_eligibleSubGroups_of_ne hap)⟩

/-- A group that changes its policy keeps what its sub groups inherit. -/
theorem InheritsFrom.setSchedulingPolicy (h : InheritsFrom t [] s) (hp : p ∈ t.ids) :
    InheritsFrom t [] (s.after (s.setSchedulingPolicy t draws p policy)) := by
  rw [Groups.setSchedulingPolicy]
  split
  · exact h
  split
  · exact h
  rename_i hallowed
  split
  · rename_i hqueryPriority
    intro n q hq _ hparent
    by_cases hsuffix : p <:+ n :: q
    · exact useQueryPriority_schedulingPolicy t.height
        (fun n q hq _ => h n q hq nil_suffix) (by omega) hq hsuffix
    · have hsub : ¬ p <:+ q := fun hpq => hsuffix (hpq.trans (suffix_cons n q))
      rw [after, useQueryPriority_group_of_not_suffix _ hsub] at hparent
      rw [after, useQueryPriority_group_of_not_suffix _ hsuffix]
      exact h n q hq nil_suffix hparent
  · rename_i hother
    intro n q hq _ hparent
    rw [after] at hparent ⊢
    by_cases hqp : q = p
    · rw [hqp, switchPolicy_group_self] at hparent
      exact absurd hparent hother
    · rw [switchPolicy_group_of_ne hqp] at hparent
      by_cases hnp : n :: q = p
      · subst hnp
        exact absurd ⟨decide_eq_true hparent, hother⟩ hallowed
      · rw [switchPolicy_group_of_ne hnp]
        exact h n q hq nil_suffix hparent

end Groups

/-- A call does not change unnoticed what a group with something to start can run. -/
def Operation.KeepsEligibility (t : PathTree String) (c : Cluster) : Operation → Prop
  | .refreshStats memory _ | .processQueuedQueries memory _ _ =>
      Groups.RefreshSafe t memory c.groups
  | .generateCpuQuota elapsedSeconds => Groups.QuotaSafe t elapsedSeconds c.groups
  | .setTaskLimitExceeded exceeded => Groups.TaskLimitSafe t exceeded c.groups
  | _ => True

namespace Cluster

open Groups

variable {t : PathTree String} {c : Cluster}

/-- What every call keeps, besides the accounts. -/
structure Orderly (t : PathTree String) (c : Cluster) : Prop extends Accounted t c where
  clean : CleanFrom t [] c.groups
  inherits : InheritsFrom t [] c.groups
  fits : FitsPolicies t c.groups

theorem Orderly.refreshReady (h : Orderly t c) : RefreshReady t [] c.groups :=
  ⟨h.tidy.dirty, fun p hp hchildren => (h.tidy.leaves p hp hchildren).1,
    h.tidy.descendantRunning, h.memory, h.clean⟩

variable {s : Groups}

theorem Orderly.start (hfresh : Fresh t s) : Orderly t { groups := s } := by
  refine ⟨.start hfresh, ?_, ?_, ?_⟩
  · intro n q _ _ _ a ha _
    exact ⟨hfresh.running a ha, hfresh.memory a ha⟩
  · intro n p hp _
    exact hfresh.policies n p hp
  · intro p hp
    rw [WellQueued, hfresh.queued p hp, hfresh.eligible p hp]
    refine ⟨⟨rfl, fun _ _ h => absurd h not_mem_nil⟩, rfl, ?_⟩
    intro _ n v hv
    rw [hfresh.eligible p hp] at hv
    exact absurd hv not_mem_nil

variable {op : Operation}

/-- Every call keeps clean sub groups clean. -/
theorem Orderly.clean_execute
    (h : Orderly t c) : CleanFrom t [] (c.execute t op).groups := by
  by_cases hsetter : op.IsSetter
  · obtain ⟨s, heq, hconfigured⟩ := c.execute_setter (t := t) hsetter
    rw [heq]
    exact h.clean.of_calm hconfigured.calm
  cases op with
  | run p query =>
      exact submit_cases h.clean (fun _ => h.clean.startInBackground)
        fun _ _ => h.clean.enqueueQuery
  | queryFinished p query cpuTimeMillis counts => exact h.clean.queryFinished
  | refreshStats memory iteration =>
      exact (h.refreshReady.internalRefreshStats memory iteration t.height t.root_mem
        (by simp)).clean
  | generateCpuQuota elapsedSeconds =>
      exact h.clean.of_calm (.generateCpuQuota elapsedSeconds c.groups)
  | setTaskLimitExceeded exceeded => exact h.clean.of_calm (.of_group rfl)
  | startNext draw => exact h.clean.startNext draw
  | processQueuedQueries memory iteration draws =>
      refine startAll_invariant (motive := CleanFrom t []) ?_ draws _ _
        (h.refreshReady.internalRefreshStats memory iteration t.height t.root_mem (by simp)).clean
      intro draw s hs
      exact hs.startNext draw
  | setSchedulingWeight p weight =>
      exact h.clean.of_calm (.setSchedulingWeight p weight c.groups)
  | setSchedulingPolicy draws p policy =>
      exact h.clean.of_calm (.setSchedulingPolicy draws policy p c.groups)
  | _ => exact absurd trivial hsetter

theorem KeepsQueues.execute (hweight : ∀ p weight, op ≠ .setSchedulingWeight p weight)
    (hpolicy : ∀ draws p policy, op ≠ .setSchedulingPolicy draws p policy) :
    KeepsQueues c.groups (c.execute t op).groups := by
  by_cases hsetter : op.IsSetter
  · obtain ⟨s, heq, hconfigured⟩ := c.execute_setter (t := t) hsetter
    rw [heq]
    exact hconfigured.keepsQueues
  cases op with
  | run p query =>
      exact submit_cases (.refl _) (fun _ => .startInBackground p query c.groups)
        fun _ hpositive => .enqueueQuery hpositive p c.groups
  | queryFinished p query cpuTimeMillis counts =>
      exact .queryFinished p query cpuTimeMillis counts c.groups
  | refreshStats memory iteration => exact .internalRefreshStats memory iteration t.height [] _
  | generateCpuQuota elapsedSeconds =>
      refine .of_same ?_ (generateCpuQuota_frame elapsedSeconds c.groups).1
      intro a
      obtain ⟨usage, hgroup⟩ := generateCpuQuota_usage (t := t) elapsedSeconds c.groups a
      rw [execute, hgroup]
      exact ⟨rfl, rfl, rfl⟩
  | setTaskLimitExceeded exceeded => exact .of_same (fun _ => ⟨rfl, rfl, rfl⟩) rfl
  | startNext draw => exact .startNext draw c.groups
  | processQueuedQueries memory iteration draws =>
      refine startAll_invariant (motive := KeepsQueues c.groups) ?_ draws _ _
        (.internalRefreshStats memory iteration t.height [] _)
      intro draw s hs
      exact hs.trans (.startNext draw s)
  | setSchedulingWeight p weight => exact absurd rfl (hweight p weight)
  | setSchedulingPolicy draws p policy => exact absurd rfl (hpolicy draws p policy)
  | _ => exact absurd trivial hsetter

/-- Every call keeps the order of the tree. -/
theorem Orderly.execute (h : Orderly t c) (hpossible : op.Possible t c) :
    Orderly t (c.execute t op) := by
  have haccounted := h.toAccounted.execute hpossible
  have hclean : CleanFrom t [] (c.execute t op).groups := h.clean_execute
  by_cases hweight : ∃ p weight, op = .setSchedulingWeight p weight
  · obtain ⟨p, weight, rfl⟩ := hweight
    exact ⟨haccounted, hclean, h.inherits.setSchedulingWeight, h.fits.setSchedulingWeight⟩
  by_cases hpolicy : ∃ draws p policy, op = .setSchedulingPolicy draws p policy
  · obtain ⟨draws, p, policy, rfl⟩ := hpolicy
    refine ⟨haccounted, hclean, h.inherits.setSchedulingPolicy hpossible.target_mem, ?_⟩
    refine setSchedulingPolicy_invariant ?_ policy p _ h.fits
    intro policy p s hs
    exact hs.switchPolicy
  · have hkeeps : KeepsQueues c.groups (c.execute t op).groups := by
      refine KeepsQueues.execute ?_ ?_
      · rintro p weight rfl
        exact hweight ⟨p, weight, rfl⟩
      · rintro draws p policy rfl
        exact hpolicy ⟨draws, p, policy, rfl⟩
    exact ⟨haccounted, hclean, h.inherits.of_policy hkeeps.policy, hkeeps.fitsPolicies h.fits⟩

/-! ## Eligible sub groups in every run -/

theorem allCurrent_start (hfresh : Fresh t s) : AllCurrent t s := by
  intro a ha
  cases a with
  | nil => trivial
  | cons n p =>
      rw [Current, isEligibleToStartNext, hfresh.queued _ ha, hfresh.eligible _ ha,
        hfresh.eligible p (t.parent_mem n p ha)]
      simp [Queue.empty, Queue.elements, Queue.isEmpty]

theorem allCurrent_execute (h : AllCurrent t c.groups) (horderly : Orderly t c)
    (hpossible : op.Possible t c) (hkeeps : op.KeepsEligibility t c) :
    AllCurrent t (c.execute t op).groups := by
  have hp := hpossible.target_mem
  by_cases hsetter : op.IsSetter
  · obtain ⟨s, heq, hconfigured⟩ := c.execute_setter (t := t) hsetter
    rw [heq]
    exact hconfigured.allCurrent h
  cases op with
  | run p query =>
      exact submit_cases h (fun _ => .startInBackground (h.off p))
        fun _ _ => .enqueueQuery (h.off p)
  | queryFinished p query cpuTimeMillis counts => exact h.queryFinished
  | refreshStats memory iteration => exact h.refreshStats iteration horderly.refreshReady hkeeps
  | generateCpuQuota elapsedSeconds => exact h.generateCpuQuota hkeeps
  | setTaskLimitExceeded exceeded => exact h.of_canRunMore rfl (fun _ => ⟨rfl, rfl⟩) hkeeps
  | startNext draw =>
      rcases internalStartNext_current draw t.height t.root_mem (by simp)
        horderly.tidy.eligible (h.off []) with ⟨-, hcurrent⟩ | ⟨hstop, -⟩
      · exact hcurrent
      · rw [execute, startNext, hstop]
        exact h
  | processQueuedQueries memory iteration draws =>
      exact (h.processQueuedQueries iteration draws horderly.tidy horderly.refreshReady hkeeps).2.1
  | setSchedulingWeight p weight => exact h.setSchedulingWeight
  | setSchedulingPolicy draws p policy => exact h.setSchedulingPolicy horderly.inherits hp
  | _ => exact absurd trivial hsetter

theorem orderly_allCurrent_of_reachable
    {allowed : Cluster → Operation → Prop} (hreach : Reachable t allowed c)
    (hkeeps : ∀ {c op}, Orderly t c → AllCurrent t c.groups → allowed c op →
      op.KeepsEligibility t c) :
    Orderly t c ∧ AllCurrent t c.groups := by
  refine hreach.invariant (motive := fun c => Orderly t c ∧ AllCurrent t c.groups) ?_ ?_
  · intro s hfresh
    exact ⟨.start hfresh, allCurrent_start hfresh⟩
  · intro c op h hpossible hallowed
    exact ⟨h.1.execute hpossible, allCurrent_execute h.2 h.1 hpossible (hkeeps h.1 h.2 hallowed)⟩

end Cluster
end Presto.ResourceGroups
