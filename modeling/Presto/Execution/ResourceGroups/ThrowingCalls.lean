import Presto.Execution.ResourceGroups.EligibilityRuns

/-!
# Calls that throw

The queue of the weighted policy adds up its tickets in 64 bits and refuses to draw when the sum is
not positive.  A change of the policy that this interrupts leaves the old queue with the new policy,
and no sub group can be added to it any more.  A call that throws keeps what it has changed.
-/

namespace Presto.ResourceGroups

namespace Queue

variable {E : Type} [DecidableEq E] (q : Queue E)

def totalTickets : ℤ := (q.entries.map Prod.snd).sum

/-- `poll`.  Where the tickets do not fit in 64 bits, the sums in the tree may lead to any of its
nodes or to none. -/
def tryPoll (draw : ℕ) : Result (Option (E × Queue E)) :=
  if q.kind = .stochastic ∧ 2 ^ 63 ≤ q.totalTickets then
    if q.totalTickets.bmod (2 ^ 64) ≤ 0 then .error (.illegalArgument "bound must be positive")
    else if draw % (q.size + 2) = q.size then
      .error (.illegalState "Expected right node to contain the winner, but it does not exist")
    else if draw % (q.size + 2) = q.size + 1 then .error (.illegalState "Inconsistent winner")
    else .ok (q.poll draw)
  else .ok (q.poll draw)

end Queue

/-- A call on the groups of a tree. -/
abbrev Call := EStateM Abrupt Groups

namespace Call

open Groups

/-- A step that may throw before it changes anything. -/
def attempt {α : Type} (step : Groups → Result (α × Groups)) : Call α := fun s =>
  match step s with
  | .ok (a, s') => .ok a s'
  | .error e => .error (.throws e) s

variable (t : PathTree String) (p : ResourceGroupId)

/-- `addOrUpdateSubGroup(queue, group)`.  The running queries of a group are never less than zero,
which the weighted fair queue checks too. -/
def addToQueue (s : Groups) (n : String) (queue : Queue String) : Result (Queue String) :=
  let policy := (s.group p).schedulingPolicy
  let group := s.group (n :: p)
  let priority := group.getSubGroupSchedulingPriority policy
  if decide (policy = .weightedFair) ≠ decide (queue.kind = .weightedFair) then .error .classCast
  else if policy = .weightedFair ∧ group.schedulingWeight ≤ 0 then
    .error (.illegalArgument "share must be positive")
  else if policy = .queryPriority ∧ group.queuedQueries.kind ≠ .indexedPriority then
    .error (.illegalState "Queued queries not ordered")
  else if queue.kind = .stochastic ∧ priority ≤ 0 then
    .error (.illegalArgument "priority must be positive")
  else .ok (queue.addOrUpdate n priority)

def addOrUpdateSubGroup (n : String) : Call Unit :=
  attempt fun s => do
    let queue ← addToQueue p s n (s.eligibleSubGroups p)
    pure ((), s.modifyEligible p fun _ => queue)

def updateEligibility : ResourceGroupId → Call Unit
  | [] => pure ()
  | n :: p => do
      if (← get).isEligibleToStartNext (n :: p) then addOrUpdateSubGroup p n
      else modify (removeSubGroup p n)
      updateEligibility p

def enqueueQuery (query : Query) : Call Unit := do
  modify fun s => forParents
    (fun _ g => { g with descendantQueuedQueries := g.descendantQueuedQueries + 1 }) p
    (s.modify p fun g =>
      { g with queuedQueries := g.queuedQueries.addOrUpdate query query.queryPriority })
  updateEligibility p

def startInBackground (query : Query) : Call Unit := do
  modify fun s => forParents (fun n g => g.descendantStarted n) p
    (s.modify p fun g => { g with runningQueries := insert query g.runningQueries })
  updateEligibility p

/-- Whether a submitted query was admitted. -/
def run (query : Query) : Call Bool := do
  let s ← get
  if t.children p ≠ [] then
    throw (.throws (.prestoException .invalidResourceGroup
      ("Cannot add queries to " ++ s.idText p ++ ". It is not a leaf group.")))
  else
    let canQueue := allOnPath (fun a => (s.group a).canQueueMore) p
    let canRun := allOnPath (fun a => s.canRunMore a) p
    if !canQueue && !canRun then
      -- The query fails with a `QueryQueueFullException`.
      pure false
    else if canRun then
      startInBackground p query
      pure true
    else if query.queryPriority ≤ 0 then
      throw (.throws (.illegalArgument "Query priority must be positive"))
    else
      enqueueQuery p query
      pure true

def queryFinished (query : Query) (cpuTimeMillis : ℕ) (counts : Bool) : Call Unit := do
  let s ← get
  if query ∈ (s.group p).runningQueries then
    modify fun s => (s.countCpuTime p cpuTimeMillis counts).finishRunning p query
    updateEligibility p
  else if query ∈ (s.group p).queuedQueries.elements then
    modify fun s => (s.countCpuTime p cpuTimeMillis counts).finishQueued p query
    updateEligibility p

/-! ## Memory usage -/

/-- One round of the loop over the dirty sub groups. -/
def refreshSubGroup (refresh : ResourceGroupId → Call Unit) (n : String) : Call Unit := do
  let oldMemoryUsageBytes := ((← get).group (n :: p)).cachedMemoryUsageBytes
  modify (addMemory p (-oldMemoryUsageBytes))
  refresh (n :: p)
  let newMemoryUsageBytes := ((← get).group (n :: p)).cachedMemoryUsageBytes
  modify fun s => (s.addMemory p newMemoryUsageBytes).removeClean p n
  if oldMemoryUsageBytes ≠ newMemoryUsageBytes then updateEligibility (n :: p)

def internalRefreshStats (memory : Query → ℕ) (iteration : HashOrder) :
    ℕ → ResourceGroupId → Call Unit
  | 0, p => modify (refreshLeaf memory p)
  | below + 1, p => do
      if t.children p = [] then modify (refreshLeaf memory p)
      else
        let dirtySubGroups := iteration.order ((← get).group p).dirtySubGroups
        dirtySubGroups.forM (refreshSubGroup p (internalRefreshStats memory iteration below))

def refreshStats (memory : Query → ℕ) (iteration : HashOrder) : Call Unit :=
  internalRefreshStats t memory iteration t.height []

/-! ## Starting queued queries -/

def poll {E : Type} [DecidableEq E] (queue : Queue E) (draw : ℕ) : Call (Option (E × Queue E)) :=
  attempt fun s => (queue.tryPoll draw).map (·, s)

def setEligible (queue : Queue String) (s : Groups) : Groups := s.modifyEligible p fun _ => queue

def setQueued (queue : Queue Query) (s : Groups) : Groups :=
  s.modify p fun g => { g with queuedQueries := queue }

/-- What is left to do in a group after its sub group started a query. -/
def subGroupStarted (n : String) : Call Unit := do
  modify (Groups.modify · p fun g =>
    { g with descendantQueuedQueries := g.descendantQueuedQueries - 1 })
  if (← get).isEligibleToStartNext (n :: p) then addOrUpdateSubGroup p n

def internalStartNext (draw : ResourceGroupId → ℕ) : ℕ → ResourceGroupId → Call Bool
  | below, p => do
      let s ← get
      if !s.canRunMore p then return false
      match ← poll (s.group p).queuedQueries (draw p) with
      | some (query, queuedQueries) =>
          modify (setQueued p queuedQueries)
          startInBackground p query
          return true
      | none =>
          match ← poll (s.eligibleSubGroups p) (draw p) with
          | none => return false
          | some (n, eligibleSubGroups) =>
              match below with
              | 0 => throw .diverges
              | below + 1 =>
                  modify (setEligible p eligibleSubGroups)
                  if ← internalStartNext draw below (n :: p) then
                    subGroupStarted p n
                    return true
                  else
                    throw (.throws (.illegalState "Eligible sub group had no queries to run"))

def startNext (draw : ResourceGroupId → ℕ) : Call Bool :=
  internalStartNext draw t.height []

def startAll (draws : ℕ → ResourceGroupId → ℕ) : ℕ → Call Unit
  | 0 => throw .diverges
  | rounds + 1 => do
      if ← startNext t (draws rounds) then startAll draws rounds

def processQueuedQueries (memory : Query → ℕ) (iteration : HashOrder)
    (draws : ℕ → ResourceGroupId → ℕ) : Call Unit := do
  refreshStats t memory iteration
  startAll t draws (((← get).group []).getQueuedQueries.toNat + 1)

/-! ## Changing the limits and the policy -/

def setLimit (f : InternalResourceGroup → InternalResourceGroup) : Call Unit := do
  let oldCanRun := (← get).canRunMore p
  modify (Groups.modify · p f)
  if (← get).canRunMore p ≠ oldCanRun then updateEligibility p

def setSoftCpuLimit (limit : ℤ) : Call Unit := do
  if ((← get).group p).hardCpuLimitMillis < limit then
    setLimit p fun g => { g with hardCpuLimitMillis := limit }
  setLimit p fun g => { g with softCpuLimitMillis := limit }

def setHardCpuLimit (limit : ℤ) : Call Unit := do
  if limit < ((← get).group p).softCpuLimitMillis then
    setLimit p fun g => { g with softCpuLimitMillis := limit }
  setLimit p fun g => { g with hardCpuLimitMillis := limit }

def setSoftConcurrencyLimit (limit : ℤ) : Call Unit :=
  if 0 ≤ limit then setLimit p fun g => { g with softConcurrencyLimit := limit }
  else throw (.throws (.illegalArgument "softConcurrencyLimit is negative"))

def setHardConcurrencyLimit (limit : ℤ) : Call Unit :=
  if 0 ≤ limit then setLimit p fun g => { g with hardConcurrencyLimit := limit }
  else throw (.throws (.illegalArgument "hardConcurrencyLimit is negative"))

def setSchedulingWeight (weight : ℤ) : Call Unit := do
  if 0 < weight then
    modify (Groups.modify · p fun g => { g with schedulingWeight := weight })
    let s ← get
    match p with
    | [] => pure ()
    | n :: parent =>
        if (s.group parent).schedulingPolicy = .weighted ∧
            (s.eligibleSubGroups parent).contains n then
          addOrUpdateSubGroup parent n
  else throw (.throws (.illegalArgument "weight must be positive"))

/-- The loop that moves the elements of a queue, which is kept in `store`, to another queue. -/
def moveAll {E : Type} [DecidableEq E] (store : Queue E → Groups → Groups)
    (add : Groups → E → Queue E → Result (Queue E)) (draws : ℕ → ℕ) :
    (count : ℕ) → (old new : Queue E) → Call (Queue E)
  | 0, _, new => pure new
  | count + 1, old, new => do
      match ← poll old (draws count) with
      | none => pure new
      | some (e, rest) =>
          modify (store rest)
          let new ← attempt fun s => (add s e new).map (·, s)
          moveAll store add draws count rest new

def switchPolicy (draws : ResourceGroupId → ℕ → ℕ) (policy : SchedulingPolicy)
    (p : ResourceGroupId) : Call Unit := do
  modify (Groups.modify · p fun g => { g with schedulingPolicy := policy })
  let eligibleSubGroups := (← get).eligibleSubGroups p
  let queue ← moveAll (setEligible p) (addToQueue p) (draws p) eligibleSubGroups.size
    eligibleSubGroups (.empty policy.subGroupQueue)
  modify (setEligible p queue)
  let queuedQueries := ((← get).group p).queuedQueries
  let queryQueue ← moveAll (setQueued p)
    (fun _ query queue => .ok (queue.addOrUpdate query query.queryPriority)) (draws p)
    queuedQueries.size queuedQueries (.empty policy.queryQueue)
  modify (setQueued p queryQueue)

def useQueryPriority (draws : ResourceGroupId → ℕ → ℕ) : ℕ → ResourceGroupId → Call Unit
  | 0, p => do
      if ((← get).group p).schedulingPolicy ≠ .queryPriority then
        switchPolicy draws .queryPriority p
  | below + 1, p => do
      if ((← get).group p).schedulingPolicy ≠ .queryPriority then
        (t.children p).forM fun n => useQueryPriority draws below (n :: p)
        switchPolicy draws .queryPriority p

def setSchedulingPolicy (draws : ResourceGroupId → ℕ → ℕ) (policy : SchedulingPolicy) :
    Call Unit := do
  let s ← get
  if policy = (s.group p).schedulingPolicy then pure ()
  else if s.parentUsesQueryPriority p ∧ policy ≠ .queryPriority then
    throw (.throws (.illegalArgument ("Parent of " ++ s.idText p ++
      " uses query priority scheduling, so " ++ s.idText p ++ " must also")))
  else if policy = .queryPriority then useQueryPriority t draws t.height p
  else switchPolicy draws policy p

/-- The cluster after a call, whether it returns or throws. -/
def perform {α : Type} (c : Cluster) (call : Call α) : Cluster :=
  match call c.groups with
  | .ok _ s | .error _ s => { c with groups := s }

/-- The cluster after a call; a query whose submission throws has failed. -/
def execute (c : Cluster) : Operation → Cluster
  | .run p query =>
      match run t p query c.groups with
      | .ok true s => { c with groups := s, submitted := query :: c.submitted }
      | .ok false _ => { c with submitted := query :: c.submitted, failed := query :: c.failed }
      | .error _ s =>
          { c with groups := s, submitted := query :: c.submitted, failed := query :: c.failed }
  | .queryFinished p query cpuTimeMillis counts =>
      { perform c (queryFinished p query cpuTimeMillis counts) with
        finished := if c.groups.holds p query then query :: c.finished else c.finished }
  | .refreshStats memory iteration => perform c (refreshStats t memory iteration)
  | .generateCpuQuota elapsedSeconds => perform c (modify (generateCpuQuota t elapsedSeconds))
  | .setTaskLimitExceeded exceeded => perform c (modify (setTaskLimitExceeded exceeded))
  | .startNext draw => perform c (startNext t draw)
  | .processQueuedQueries memory iteration draws =>
      perform c (processQueuedQueries t memory iteration draws)
  | .setSoftMemoryLimit p limit =>
      perform c (setLimit p fun g => { g with softMemoryLimitBytes := limit })
  | .setSoftCpuLimit p limit => perform c (setSoftCpuLimit p limit)
  | .setHardCpuLimit p limit => perform c (setHardCpuLimit p limit)
  | .setCpuQuotaGenerationMillisPerSecond p rate =>
      perform c (attempt fun s => (s.setCpuQuotaGenerationMillisPerSecond p rate).map ((), ·))
  | .setSoftConcurrencyLimit p limit => perform c (setSoftConcurrencyLimit p limit)
  | .setHardConcurrencyLimit p limit => perform c (setHardConcurrencyLimit p limit)
  | .setMaxQueuedQueries p limit =>
      perform c (attempt fun s => (s.setMaxQueuedQueries p limit).map ((), ·))
  | .setSchedulingWeight p weight => perform c (setSchedulingWeight p weight)
  | .setSchedulingPolicy draws p policy => perform c (setSchedulingPolicy t p draws policy)

/-- The states that runs of the tree reach whose calls all satisfy `allowed`. -/
inductive Reachable (allowed : Cluster → Operation → Prop) : Cluster → Prop
  | start {s : Groups} (hfresh : Fresh t s) : Reachable allowed { groups := s }
  | step {c : Cluster} {op : Operation} (hreach : Reachable allowed c)
      (hpossible : op.Possible t c) (hallowed : allowed c op) :
      Reachable allowed (execute t c op)

end Call
end Presto.ResourceGroups
