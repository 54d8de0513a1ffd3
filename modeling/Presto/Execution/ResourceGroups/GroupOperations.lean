import Presto.Execution.ResourceGroups.InternalResourceGroup

/-!
# Runs of a tree of resource groups

The calls that reach a tree of resource groups, with the fate of the submitted
queries: a query that is rejected fails at submission, and one that is done is
finished once its group was told.  A run starts with a tree in which nothing was
submitted yet and takes any sequence of calls.
-/

namespace Presto.ResourceGroups

/-- The calls on the groups of a tree, with what they read from outside. -/
inductive Operation
  | run (p : ResourceGroupId) (query : Query)
  | queryFinished (p : ResourceGroupId) (query : Query) (cpuTimeMillis : ℕ) (counts : Bool)
  | refreshStats (memory : Query → ℕ) (iteration : Groups.HashOrder)
  | generateCpuQuota (elapsedSeconds : ℤ)
  | setTaskLimitExceeded (exceeded : Bool)
  | startNext (draw : ResourceGroupId → ℕ)
  | processQueuedQueries (memory : Query → ℕ) (iteration : Groups.HashOrder)
      (draws : ℕ → ResourceGroupId → ℕ)
  | setSoftMemoryLimit (p : ResourceGroupId) (limit : ℤ)
  | setSoftCpuLimit (p : ResourceGroupId) (limit : ℤ)
  | setHardCpuLimit (p : ResourceGroupId) (limit : ℤ)
  | setCpuQuotaGenerationMillisPerSecond (p : ResourceGroupId) (rate : ℤ)
  | setSoftConcurrencyLimit (p : ResourceGroupId) (limit : ℤ)
  | setHardConcurrencyLimit (p : ResourceGroupId) (limit : ℤ)
  | setMaxQueuedQueries (p : ResourceGroupId) (limit : ℤ)
  | setSchedulingWeight (p : ResourceGroupId) (weight : ℤ)
  | setSchedulingPolicy (draws : ResourceGroupId → ℕ → ℕ) (p : ResourceGroupId)
      (policy : SchedulingPolicy)

/-- The groups of a tree and the fate of the queries. -/
structure Cluster where
  groups : Groups
  submitted : List Query := []
  failed : List Query := []
  finished : List Query := []

namespace Groups

/-- The groups after a call that checks its argument first; a failed check changes nothing. -/
def after (s : Groups) : Result Groups → Groups
  | .ok s' => s'
  | .error _ => s

/-- The query is running or queued in the group. -/
def holds (s : Groups) (p : ResourceGroupId) (query : Query) : Prop :=
  query ∈ (s.group p).runningQueries ∨ query ∈ (s.group p).queuedQueries.elements

instance holds.decidable (s : Groups) (p : ResourceGroupId) (query : Query) :
    Decidable (s.holds p query) :=
  inferInstanceAs (Decidable (_ ∨ _))

end Groups

namespace Cluster

variable (t : PathTree String)

/-- A submission: a query that is not admitted has failed. -/
def submit (p : ResourceGroupId) (query : Query) (c : Cluster) : Cluster :=
  match c.groups.run t p query with
  | .ok (true, groups) => { c with groups := groups, submitted := query :: c.submitted }
  | .ok (false, _) | .error _ =>
      { c with submitted := query :: c.submitted, failed := query :: c.failed }

/-- A query is done and its group is told. -/
def finish (p : ResourceGroupId) (query : Query) (cpuTimeMillis : ℕ) (counts : Bool)
    (c : Cluster) : Cluster :=
  { c with
    groups := c.groups.queryFinished p query cpuTimeMillis counts
    finished := if c.groups.holds p query then query :: c.finished else c.finished }

/-- The state after a call, whether it returns or throws. -/
def execute (c : Cluster) : Operation → Cluster
  | .run p query => c.submit t p query
  | .queryFinished p query cpuTimeMillis counts => c.finish p query cpuTimeMillis counts
  | .refreshStats memory iteration =>
      { c with groups := c.groups.refreshStats t memory iteration }
  | .generateCpuQuota elapsedSeconds =>
      { c with groups := c.groups.generateCpuQuota t elapsedSeconds }
  | .setTaskLimitExceeded exceeded =>
      { c with groups := c.groups.setTaskLimitExceeded exceeded }
  | .startNext draw => { c with groups := (c.groups.startNext t draw).2 }
  | .processQueuedQueries memory iteration draws =>
      { c with groups := (c.groups.processQueuedQueries t memory iteration draws).2 }
  | .setSoftMemoryLimit p limit => { c with groups := c.groups.setSoftMemoryLimit p limit }
  | .setSoftCpuLimit p limit => { c with groups := c.groups.setSoftCpuLimit p limit }
  | .setHardCpuLimit p limit => { c with groups := c.groups.setHardCpuLimit p limit }
  | .setCpuQuotaGenerationMillisPerSecond p rate =>
      { c with groups := c.groups.after (c.groups.setCpuQuotaGenerationMillisPerSecond p rate) }
  | .setSoftConcurrencyLimit p limit =>
      { c with groups := c.groups.after (c.groups.setSoftConcurrencyLimit p limit) }
  | .setHardConcurrencyLimit p limit =>
      { c with groups := c.groups.after (c.groups.setHardConcurrencyLimit p limit) }
  | .setMaxQueuedQueries p limit =>
      { c with groups := c.groups.after (c.groups.setMaxQueuedQueries p limit) }
  | .setSchedulingWeight p weight =>
      { c with groups := c.groups.after (c.groups.setSchedulingWeight p weight) }
  | .setSchedulingPolicy draws p policy =>
      { c with groups := c.groups.after (c.groups.setSchedulingPolicy t draws p policy) }

end Cluster

/-- The group that a call is made on; the root for a call on the whole tree. -/
def Operation.target : Operation → ResourceGroupId
  | .run p _ | .queryFinished p _ _ _ => p
  | .refreshStats _ _ | .generateCpuQuota _ | .setTaskLimitExceeded _ | .startNext _
  | .processQueuedQueries _ _ _ => []
  | .setSoftMemoryLimit p _ | .setSoftCpuLimit p _ | .setHardCpuLimit p _
  | .setCpuQuotaGenerationMillisPerSecond p _ | .setSoftConcurrencyLimit p _
  | .setHardConcurrencyLimit p _ | .setMaxQueuedQueries p _ | .setSchedulingWeight p _
  | .setSchedulingPolicy _ p _ => p

/-- The query that a call submits. -/
def Operation.submits : Operation → Option Query
  | .run _ query => some query
  | _ => none

/-- A call can be made: its group exists, and a query is submitted only once. -/
structure Operation.Possible (t : PathTree String) (c : Cluster) (op : Operation) : Prop where
  target_mem : op.target ∈ t.ids
  new : ∀ query ∈ op.submits, query ∉ c.submitted

/--
A tree of groups with any configuration that the setters allow, and nothing
submitted yet.  Below a group with query priority scheduling all groups have it.
-/
structure Fresh (t : PathTree String) (s : Groups) : Prop where
  queued : ∀ p ∈ t.ids,
    (s.group p).queuedQueries = Queue.empty (s.group p).schedulingPolicy.queryQueue
  eligible : ∀ p ∈ t.ids,
    s.eligibleSubGroups p = Queue.empty (s.group p).schedulingPolicy.subGroupQueue
  running : ∀ p ∈ t.ids, (s.group p).runningQueries = ∅
  dirty : ∀ p ∈ t.ids, (s.group p).dirtySubGroups = []
  descendantRunning : ∀ p ∈ t.ids, (s.group p).descendantRunningQueries = 0
  descendantQueued : ∀ p ∈ t.ids, (s.group p).descendantQueuedQueries = 0
  memory : ∀ p ∈ t.ids, (s.group p).cachedMemoryUsageBytes = 0
  cpu : ∀ p ∈ t.ids, (s.group p).cpuUsageMillis = 0
  hardConcurrencyLimit : ∀ p ∈ t.ids, 0 ≤ (s.group p).hardConcurrencyLimit
  maxQueuedQueries : ∀ p ∈ t.ids, 0 ≤ (s.group p).maxQueuedQueries
  cpuLimits : ∀ p ∈ t.ids, (s.group p).softCpuLimitMillis ≤ (s.group p).hardCpuLimitMillis
  policies : ∀ n p, n :: p ∈ t.ids → (s.group p).schedulingPolicy = .queryPriority →
    (s.group (n :: p)).schedulingPolicy = .queryPriority

/-- The states that runs of the tree reach whose calls all satisfy `allowed`. -/
inductive Reachable (t : PathTree String) (allowed : Cluster → Operation → Prop) : Cluster → Prop
  | start {s : Groups} (hfresh : Fresh t s) : Reachable t allowed { groups := s }
  | step {c : Cluster} {op : Operation} (hreach : Reachable t allowed c)
      (hpossible : op.Possible t c) (hallowed : allowed c op) :
      Reachable t allowed (c.execute t op)

variable {t : PathTree String}

/-- What holds at the start and is kept by every call holds in every reachable state. -/
theorem Reachable.invariant {allowed : Cluster → Operation → Prop} {motive : Cluster → Prop}
    (hstart : ∀ s, Fresh t s → motive { groups := s })
    (hstep : ∀ c op, motive c → op.Possible t c → allowed c op → motive (c.execute t op))
    {c : Cluster} (hreach : Reachable t allowed c) : motive c := by
  induction hreach with
  | start hfresh => exact hstart _ hfresh
  | step _ hpossible hallowed ih => exact hstep _ _ ih hpossible hallowed

namespace Groups

/-- What every round keeps, the loop that starts queries keeps. -/
theorem startAll_invariant {motive : Groups → Prop}
    (hstart : ∀ draw s, motive s → motive (s.startNext t draw).2)
    (draws : ℕ → ResourceGroupId → ℕ) (rounds : ℕ) (s : Groups) (hs : motive s) :
    motive (s.startAll t draws rounds).2 := by
  induction rounds generalizing s with
  | zero => exact hs
  | succ rounds ih =>
      have hnext := hstart (draws rounds) s hs
      rw [startAll]
      split
      · rename_i heq
        rw [heq] at hnext
        exact hnext
      · rename_i heq
        rw [heq] at hnext
        exact hnext
      · rename_i heq
        rw [heq] at hnext
        exact ih _ hnext

end Groups
end Presto.ResourceGroups
