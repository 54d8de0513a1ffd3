import Mathlib.Data.Finset.Basic
import Mathlib.Data.Rat.Floor
import Presto.Execution.ResourceGroups.Queues
import Presto.Support.PathTree
import Presto.Support.Throwable

/-!
# Resource groups

The tree of resource groups of a coordinator.  Queries are submitted to the
leaves; a group admits a query when it and all groups above it can run more,
and keeps it queued otherwise.  Every group knows which of its sub groups could
start a query, how many queries run and wait below it, and what memory it used
at the last refresh.

All methods hold the lock of the root, so a call is one step.  A group is known
by the segments of its id below the root, the last one first, so that the
groups above it are the tails of its id.  The shape of the tree is fixed.
-/

namespace Presto.ResourceGroups

/-- The segments of an id below the root, the last one first. -/
abbrev ResourceGroupId := List String

/-- `Long.MAX_VALUE`. -/
def longMax : ℤ := 2 ^ 63 - 1

/-- `Integer.MAX_VALUE`. -/
def integerMax : ℤ := 2 ^ 31 - 1

/-- The value in the range of a `long` that is nearest to `x`. -/
def saturated (x : ℤ) : ℤ := max (-2 ^ 63) (min longMax x)

/-- The nearest `double`, with ties to the even significand, of a number of moderate size. -/
def toDouble (x : ℚ) : ℚ :=
  if x = 0 then 0
  else
    let exponent : ℤ := Nat.log2 x.num.natAbs - Nat.log2 x.den - 52
    let exponent := if |x| < 2 ^ (exponent + 52) then exponent - 1 else exponent
    let significand := |x| / 2 ^ exponent
    let rounded := ⌊significand⌋
    let rest := significand - rounded
    let rounded :=
      if rest < 1 / 2 then rounded
      else if 1 / 2 < rest then rounded + 1
      else if rounded % 2 = 0 then rounded
      else rounded + 1
    (if x < 0 then -1 else 1) * rounded * 2 ^ exponent

inductive SchedulingPolicy
  | fair
  | weighted
  | weightedFair
  | queryPriority
  deriving DecidableEq, Repr

/-- The queue of eligible sub groups that implements a policy. -/
def SchedulingPolicy.subGroupQueue : SchedulingPolicy → QueueKind
  | .fair => .fifo
  | .weighted => .stochastic
  | .weightedFair => .weightedFair
  | .queryPriority => .indexedPriority

/-- The queue of queries that implements a policy. -/
def SchedulingPolicy.queryQueue : SchedulingPolicy → QueueKind
  | .fair => .fifo
  | .weighted => .stochastic
  | .weightedFair => .indexedPriority
  | .queryPriority => .indexedPriority

/-- A `ManagedQueryExecution` with the query priority of its session. -/
structure Query where
  id : ℕ
  queryPriority : ℤ
  deriving DecidableEq, Repr

/-- The fields of a group; its eligible sub groups are kept apart, see `Groups`. -/
structure InternalResourceGroup where
  softMemoryLimitBytes : ℤ := longMax
  softConcurrencyLimit : ℤ := 0
  hardConcurrencyLimit : ℤ := 0
  maxQueuedQueries : ℤ := 0
  softCpuLimitMillis : ℤ := longMax
  hardCpuLimitMillis : ℤ := longMax
  cpuQuotaGenerationMillisPerSecond : ℤ := longMax
  schedulingWeight : ℤ := 1
  schedulingPolicy : SchedulingPolicy := .fair
  /-- Sub groups whose memory usage may be out of date. -/
  dirtySubGroups : List String := []
  queuedQueries : Queue Query := Queue.empty .fifo
  runningQueries : Finset Query := ∅
  descendantRunningQueries : ℤ := 0
  descendantQueuedQueries : ℤ := 0
  cachedMemoryUsageBytes : ℤ := 0
  cpuUsageMillis : ℤ := 0

namespace InternalResourceGroup

variable (g : InternalResourceGroup)

def getRunningQueries : ℤ := g.runningQueries.card + g.descendantRunningQueries

def getQueuedQueries : ℤ := g.queuedQueries.size + g.descendantQueuedQueries

def isDirty : Bool := 0 < g.runningQueries.card + g.descendantRunningQueries

def canQueueMore : Bool := g.descendantQueuedQueries + g.queuedQueries.size < g.maxQueuedQueries

/-- The concurrency limit between the soft and the hard CPU limit. -/
def penalizedConcurrencyLimit : ℤ :=
  let used := toDouble (g.cpuUsageMillis - g.softCpuLimitMillis : ℤ)
  let range := toDouble (g.hardCpuLimitMillis - g.softCpuLimitMillis : ℤ)
  let penalty := toDouble (used / range)
  let scaled := ⌊toDouble (g.hardConcurrencyLimit * toDouble (1 - penalty))⌋
  -- Always penalize by at least one, and always allow at least one running query
  max 1 (min (g.hardConcurrencyLimit - 1) scaled)

def canRunMore (taskLimitExceeded : Bool) : Bool :=
  if g.hardCpuLimitMillis ≤ g.cpuUsageMillis then false
  else if taskLimitExceeded then false
  else
    let hardConcurrencyLimit :=
      if g.softCpuLimitMillis ≤ g.cpuUsageMillis then g.penalizedConcurrencyLimit
      else g.hardConcurrencyLimit
    g.runningQueries.card + g.descendantRunningQueries < hardConcurrencyLimit &&
      g.cachedMemoryUsageBytes ≤ g.softMemoryLimitBytes

/-- An ordered queue of queries has its highest priority in front; zero without queries. -/
def getHighestQueryPriority : ℤ :=
  match g.queuedQueries.peek with
  | none => 0
  | some query => query.queryPriority

def computeSchedulingWeight : ℤ :=
  if g.softConcurrencyLimit ≤ g.runningQueries.card + g.descendantRunningQueries then
    g.schedulingWeight
  else integerMax * g.schedulingWeight

/--
The priority of a sub group in a queue of the given policy.  The weighted fair
queue records the share instead; what it polls does not depend on it here.
-/
def getSubGroupSchedulingPriority (policy : SchedulingPolicy) : ℤ :=
  match policy with
  | .queryPriority => g.getHighestQueryPriority
  | .weightedFair => g.schedulingWeight
  | .fair | .weighted => g.computeSchedulingWeight

/-- A query was started somewhere below the sub group `n`. -/
def descendantStarted (n : String) : InternalResourceGroup :=
  { g with
    descendantRunningQueries := g.descendantRunningQueries + 1
    dirtySubGroups :=
      if n ∈ g.dirtySubGroups then g.dirtySubGroups else g.dirtySubGroups ++ [n] }

/-- The CPU usage after quota was generated for some seconds. -/
def cpuUsageAfter (elapsedSeconds : ℤ) : ℤ :=
  let newQuota := saturated (elapsedSeconds * g.cpuQuotaGenerationMillisPerSecond)
  let usage := saturated (g.cpuUsageMillis - newQuota)
  if usage < 0 ∨ usage = longMax then 0 else usage

end InternalResourceGroup

/-- The state of all groups below one root. -/
structure Groups where
  rootName : String
  taskLimitExceeded : Bool
  group : ResourceGroupId → InternalResourceGroup
  /-- The sub groups of each group that have queued queries and capacity to run them. -/
  eligibleSubGroups : ResourceGroupId → Queue String

namespace Groups

variable (t : PathTree String) (s : Groups) (p : ResourceGroupId)

/-- The id as it is printed: all segments from the root on. -/
def idText : String :=
  String.intercalate "." (s.rootName :: p.reverse)

/-- Change the fields of one group. -/
def modify (f : InternalResourceGroup → InternalResourceGroup) : Groups :=
  { s with group := Function.update s.group p (f (s.group p)) }

/-- Change the eligible sub groups of one group. -/
def modifyEligible (f : Queue String → Queue String) : Groups :=
  { s with eligibleSubGroups := Function.update s.eligibleSubGroups p (f (s.eligibleSubGroups p)) }

def canRunMore : Bool :=
  (s.group p).canRunMore s.taskLimitExceeded

def isEligibleToStartNext : Bool :=
  s.canRunMore p &&
    (!(s.group p).queuedQueries.isEmpty || !(s.eligibleSubGroups p).isEmpty)

/-- The loop from a group to the root over all parents, with the child it came from. -/
def forParents (f : String → InternalResourceGroup → InternalResourceGroup) :
    ResourceGroupId → Groups → Groups
  | [], s => s
  | n :: parent, s => forParents f parent (s.modify parent (f n))

/-- The loop from a group to the root that begins with the group itself. -/
def forPath (f : InternalResourceGroup → InternalResourceGroup) (p : ResourceGroupId)
    (s : Groups) : Groups :=
  forParents (fun _ => f) p (s.modify p f)

/-- A condition on a group and all groups above it. -/
def allOnPath (condition : ResourceGroupId → Bool) : ResourceGroupId → Bool
  | [] => condition []
  | n :: parent => condition (n :: parent) && allOnPath condition parent

/-- Add a sub group to the eligible ones, or update its priority there. -/
def addOrUpdateSubGroup (parent : ResourceGroupId) (n : String) (s : Groups) : Groups :=
  let priority :=
    (s.group (n :: parent)).getSubGroupSchedulingPriority (s.group parent).schedulingPolicy
  s.modifyEligible parent fun queue => queue.addOrUpdate n priority

def removeSubGroup (parent : ResourceGroupId) (n : String) (s : Groups) : Groups :=
  s.modifyEligible parent fun queue => queue.remove n

/-- Called whenever the eligibility of a group to run more queries may have changed. -/
def updateEligibility : ResourceGroupId → Groups → Groups
  | [], s => s
  | n :: parent, s =>
      updateEligibility parent
        (if s.isEligibleToStartNext (n :: parent) then s.addOrUpdateSubGroup parent n
        else s.removeSubGroup parent n)

/-! ## Submitting, starting and finishing queries -/

def enqueueQuery (query : Query) (s : Groups) : Groups :=
  let s := s.modify p fun g =>
    { g with queuedQueries := g.queuedQueries.addOrUpdate query query.queryPriority }
  let s := forParents
    (fun _ g => { g with descendantQueuedQueries := g.descendantQueuedQueries + 1 }) p s
  s.updateEligibility p

def startInBackground (query : Query) (s : Groups) : Groups :=
  let s := s.modify p fun g => { g with runningQueries := insert query g.runningQueries }
  let s := forParents (fun n g => g.descendantStarted n) p s
  s.updateEligibility p

/-- Whether a submitted query was admitted, and the groups afterwards. -/
def run (query : Query) (s : Groups) : Result (Bool × Groups) :=
  if t.children p ≠ [] then
    .error (.prestoException .invalidResourceGroup
      ("Cannot add queries to " ++ s.idText p ++ ". It is not a leaf group."))
  else
    let canQueue := allOnPath (fun a => (s.group a).canQueueMore) p
    let canRun := allOnPath (fun a => s.canRunMore a) p
    if !canQueue && !canRun then
      -- The query fails with a `QueryQueueFullException`.
      .ok (false, s)
    else if canRun then .ok (true, s.startInBackground p query)
    else if query.queryPriority ≤ 0 then
      .error (.illegalArgument "Query priority must be positive")
    else .ok (true, s.enqueueQuery p query)

/--
A query of the group is done.  Its CPU time counts if it succeeded or the user
was at fault.
-/
def queryFinished (query : Query) (cpuTimeMillis : ℕ) (counts : Bool) (s : Groups) : Groups :=
  if query ∉ (s.group p).runningQueries ∧ query ∉ (s.group p).queuedQueries.elements then s
  else
    let s :=
      if counts then
        forPath (fun g => { g with cpuUsageMillis := saturated (g.cpuUsageMillis + cpuTimeMillis) })
          p s
      else s
    let s :=
      if query ∈ (s.group p).runningQueries then
        let s := s.modify p fun g => { g with runningQueries := g.runningQueries.erase query }
        forParents
          (fun _ g => { g with descendantRunningQueries := g.descendantRunningQueries - 1 }) p s
      else
        let s := s.modify p fun g => { g with queuedQueries := g.queuedQueries.remove query }
        forParents
          (fun _ g => { g with descendantQueuedQueries := g.descendantQueuedQueries - 1 }) p s
    s.updateEligibility p

/-! ## Memory and CPU usage -/

/-- The order in which a hash set is iterated. -/
structure HashOrder where
  order : List String → List String
  perm : ∀ l, (order l).Perm l

/-- The memory of a leaf is that of its running queries. -/
def refreshLeaf (memory : Query → ℕ) (p : ResourceGroupId) (s : Groups) : Groups :=
  s.modify p fun g => { g with cachedMemoryUsageBytes := ∑ query ∈ g.runningQueries, memory query }

def addMemory (bytes : ℤ) (s : Groups) : Groups :=
  s.modify p fun g => { g with cachedMemoryUsageBytes := g.cachedMemoryUsageBytes + bytes }

/-- A sub group without running queries is not dirty any more. -/
def removeClean (n : String) (s : Groups) : Groups :=
  if (s.group (n :: p)).isDirty then s
  else s.modify p fun g => { g with dirtySubGroups := g.dirtySubGroups.erase n }

/-- One round of the loop over the dirty sub groups of `p`. -/
def refreshSubGroup (refresh : ResourceGroupId → Groups → Groups) (p : ResourceGroupId)
    (s : Groups) (n : String) : Groups :=
  let oldMemoryUsageBytes := (s.group (n :: p)).cachedMemoryUsageBytes
  let s := s.addMemory p (-oldMemoryUsageBytes)
  let s := refresh (n :: p) s
  let newMemoryUsageBytes := (s.group (n :: p)).cachedMemoryUsageBytes
  let s := s.addMemory p newMemoryUsageBytes
  let s := s.removeClean p n
  if oldMemoryUsageBytes ≠ newMemoryUsageBytes then s.updateEligibility (n :: p) else s

/-- Refresh a group with at most `below` levels under it. -/
def internalRefreshStats (memory : Query → ℕ) (iteration : HashOrder) :
    ℕ → ResourceGroupId → Groups → Groups
  | 0, p, s => s.refreshLeaf memory p
  | below + 1, p, s =>
      if t.children p = [] then s.refreshLeaf memory p
      else
        (iteration.order (s.group p).dirtySubGroups).foldl
          (refreshSubGroup (internalRefreshStats memory iteration below) p) s

/-- Refresh the whole tree. -/
def refreshStats (memory : Query → ℕ) (iteration : HashOrder) (s : Groups) : Groups :=
  s.internalRefreshStats t memory iteration t.height []

/-- Generate quota for a group with at most `below` levels under it. -/
def internalGenerateCpuQuota (elapsedSeconds : ℤ) : ℕ → ResourceGroupId → Groups → Groups
  | 0, p, s => s.modify p fun g => { g with cpuUsageMillis := g.cpuUsageAfter elapsedSeconds }
  | below + 1, p, s =>
      (t.children p).foldl (fun s n => internalGenerateCpuQuota elapsedSeconds below (n :: p) s)
        (s.modify p fun g => { g with cpuUsageMillis := g.cpuUsageAfter elapsedSeconds })

def generateCpuQuota (elapsedSeconds : ℤ) (s : Groups) : Groups :=
  if 0 < elapsedSeconds then s.internalGenerateCpuQuota t elapsedSeconds t.height [] else s

def setTaskLimitExceeded (exceeded : Bool) (s : Groups) : Groups :=
  { s with taskLimitExceeded := exceeded }

/-! ## Starting queued queries -/

/--
What is left to do in a group after its sub group started a query.  The groups
above are not updated here, since their own calls have not returned yet.
-/
def subGroupStarted (n : String) (s : Groups) : Groups :=
  let s := s.modify p fun g => { g with descendantQueuedQueries := g.descendantQueuedQueries - 1 }
  if s.isEligibleToStartNext (n :: p) then s.addOrUpdateSubGroup p n else s

/--
Start one query of a group with at most `below` levels under it.  `draw` gives
the lot that is drawn for the queue of each group.
-/
def internalStartNext (draw : ResourceGroupId → ℕ) :
    ℕ → ResourceGroupId → Groups → Outcome Bool × Groups
  | below, p, s =>
      if !s.canRunMore p then (.ok false, s)
      else
        match (s.group p).queuedQueries.poll (draw p) with
        | some (query, queuedQueries) =>
            (.ok true,
              (s.modify p fun g => { g with queuedQueries := queuedQueries }).startInBackground
                p query)
        | none =>
            -- Remove even if the sub group still has queued queries, so that it goes to the back
            match (s.eligibleSubGroups p).poll (draw p) with
            | none => (.ok false, s)
            | some (n, eligibleSubGroups) =>
                match below with
                | 0 => (.error .diverges, s)
                | below + 1 =>
                    let s := s.modifyEligible p fun _ => eligibleSubGroups
                    match internalStartNext draw below (n :: p) s with
                    | (.error e, s) => (.error e, s)
                    | (.ok false, s) =>
                        (.error (.throws
                          (.illegalState "Eligible sub group had no queries to run")), s)
                    | (.ok true, s) => (.ok true, s.subGroupStarted p n)

/-- Start one query below the root. -/
def startNext (draw : ResourceGroupId → ℕ) (s : Groups) : Outcome Bool × Groups :=
  s.internalStartNext draw t.height []

/-- The loop that starts queries until none can be started, in at most `rounds` rounds. -/
def startAll (draws : ℕ → ResourceGroupId → ℕ) : ℕ → Groups → Outcome Unit × Groups
  | 0, s => (.error .diverges, s)
  | rounds + 1, s =>
      match s.startNext t (draws rounds) with
      | (.error e, s) => (.error e, s)
      | (.ok false, s) => (.ok (), s)
      | (.ok true, s) => startAll draws rounds s

/-- The periodic call on the root; there is one round for each queued query and a last one. -/
def processQueuedQueries (memory : Query → ℕ) (iteration : HashOrder)
    (draws : ℕ → ResourceGroupId → ℕ) (s : Groups) : Outcome Unit × Groups :=
  let s := s.refreshStats t memory iteration
  s.startAll t draws ((s.group []).getQueuedQueries.toNat + 1)

/-! ## Changing the limits and the policy -/

/-- Change a limit of a group that its capacity to run more queries may depend on. -/
def setLimit (f : InternalResourceGroup → InternalResourceGroup) (s : Groups) : Groups :=
  let oldCanRun := s.canRunMore p
  let s := s.modify p f
  if s.canRunMore p ≠ oldCanRun then s.updateEligibility p else s

def setSoftMemoryLimit (limit : ℤ) : Groups → Groups :=
  setLimit p fun g => { g with softMemoryLimitBytes := limit }

/--
The two setters of the CPU limits call each other.  The soft limit never exceeds
the hard one, so the setter called here does not call back.
-/
def setSoftCpuLimit (limit : ℤ) (s : Groups) : Groups :=
  let s :=
    if (s.group p).hardCpuLimitMillis < limit then
      setLimit p (fun g => { g with hardCpuLimitMillis := limit }) s
    else s
  setLimit p (fun g => { g with softCpuLimitMillis := limit }) s

def setHardCpuLimit (limit : ℤ) (s : Groups) : Groups :=
  let s :=
    if limit < (s.group p).softCpuLimitMillis then
      setLimit p (fun g => { g with softCpuLimitMillis := limit }) s
    else s
  setLimit p (fun g => { g with hardCpuLimitMillis := limit }) s

def setCpuQuotaGenerationMillisPerSecond (rate : ℤ) (s : Groups) : Result Groups :=
  if 0 < rate then .ok (s.modify p fun g => { g with cpuQuotaGenerationMillisPerSecond := rate })
  else .error (.illegalArgument "Cpu quota generation must be positive")

def setSoftConcurrencyLimit (limit : ℤ) (s : Groups) : Result Groups :=
  if 0 ≤ limit then .ok (setLimit p (fun g => { g with softConcurrencyLimit := limit }) s)
  else .error (.illegalArgument "softConcurrencyLimit is negative")

def setHardConcurrencyLimit (limit : ℤ) (s : Groups) : Result Groups :=
  if 0 ≤ limit then .ok (setLimit p (fun g => { g with hardConcurrencyLimit := limit }) s)
  else .error (.illegalArgument "hardConcurrencyLimit is negative")

def setMaxQueuedQueries (limit : ℤ) (s : Groups) : Result Groups :=
  if 0 ≤ limit then .ok (s.modify p fun g => { g with maxQueuedQueries := limit })
  else .error (.illegalArgument "maxQueuedQueries is negative")

def setSchedulingWeight (weight : ℤ) (s : Groups) : Result Groups :=
  if 0 < weight then
    let s := s.modify p fun g => { g with schedulingWeight := weight }
    match p with
    | [] => .ok s
    | n :: parent =>
        if (s.group parent).schedulingPolicy = .weighted ∧
            (s.eligibleSubGroups parent).contains n then
          .ok (s.addOrUpdateSubGroup parent n)
        else .ok s
  else .error (.illegalArgument "weight must be positive")

/-- Switch one group to the queues of a policy; the elements are polled and added again. -/
def switchPolicy (draws : ResourceGroupId → ℕ → ℕ) (policy : SchedulingPolicy)
    (p : ResourceGroupId) (s : Groups) : Groups :=
  let s := s.modify p fun g => { g with schedulingPolicy := policy }
  let s := s.modifyEligible p fun queue =>
    queue.requeue (draws p) policy.subGroupQueue fun n =>
      (s.group (n :: p)).getSubGroupSchedulingPriority policy
  s.modify p fun g =>
    { g with
      queuedQueries := g.queuedQueries.requeue (draws p) policy.queryQueue Query.queryPriority }

/-- Switch a group with at most `below` levels under it, and all of those, to query priority. -/
def useQueryPriority (draws : ResourceGroupId → ℕ → ℕ) :
    ℕ → ResourceGroupId → Groups → Groups
  | 0, p, s =>
      if (s.group p).schedulingPolicy = .queryPriority then s
      else s.switchPolicy draws .queryPriority p
  | below + 1, p, s =>
      if (s.group p).schedulingPolicy = .queryPriority then s
      else
        -- Sub groups must use query priority to ensure ordering
        let s := (t.children p).foldl (fun s n => useQueryPriority draws below (n :: p) s) s
        s.switchPolicy draws .queryPriority p

/-- Whether the parent of a group uses query priority scheduling. -/
def parentUsesQueryPriority (s : Groups) : ResourceGroupId → Bool
  | [] => false
  | _ :: parent => (s.group parent).schedulingPolicy = .queryPriority

def setSchedulingPolicy (draws : ResourceGroupId → ℕ → ℕ) (p : ResourceGroupId)
    (policy : SchedulingPolicy) (s : Groups) : Result Groups :=
  if policy = (s.group p).schedulingPolicy then .ok s
  else if s.parentUsesQueryPriority p ∧ policy ≠ .queryPriority then
    .error (.illegalArgument ("Parent of " ++ s.idText p ++
      " uses query priority scheduling, so " ++ s.idText p ++ " must also"))
  else if policy = .queryPriority then .ok (s.useQueryPriority t draws t.height p)
  else .ok (s.switchPolicy draws policy p)

end Groups
end Presto.ResourceGroups
