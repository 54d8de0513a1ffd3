import Presto.Execution.ResourceGroups.GroupCounters

/-!
# Admission

A query is admitted against the limits of its group and of all groups above it,
when it is submitted and when it is started from a queue.  The limits then hold
for the queries of whole subtrees, except that a group between its CPU limits is
always allowed one query, even with a concurrency limit of zero.
-/

namespace Presto.ResourceGroups

open InternalResourceGroup List

namespace InternalResourceGroup

variable {g : InternalResourceGroup} {taskLimitExceeded : Bool}

/-- The CPU usage is between the two limits, where the concurrency limit is penalized. -/
def CpuPenalized (g : InternalResourceGroup) : Prop :=
  g.softCpuLimitMillis ≤ g.cpuUsageMillis ∧ g.cpuUsageMillis < g.hardCpuLimitMillis

instance CpuPenalized.decidable (g : InternalResourceGroup) : Decidable g.CpuPenalized :=
  inferInstanceAs (Decidable (_ ∧ _))

theorem penalizedConcurrencyLimit_le (h : 0 < g.hardConcurrencyLimit) :
    g.penalizedConcurrencyLimit ≤ g.hardConcurrencyLimit := by
  unfold penalizedConcurrencyLimit
  dsimp only
  omega

/-- A group that can run more is below its concurrency limit. -/
theorem getRunningQueries_lt_of_canRunMore (hcan : g.canRunMore taskLimitExceeded = true)
    (hlimit : 0 ≤ g.hardConcurrencyLimit) (hzero : g.hardConcurrencyLimit = 0 → ¬ g.CpuPenalized) :
    g.getRunningQueries < g.hardConcurrencyLimit := by
  rw [canRunMore] at hcan
  split at hcan
  · exact absurd hcan (by simp)
  · rename_i hhard
    split at hcan
    · exact absurd hcan (by simp)
    · simp only [Bool.and_eq_true, decide_eq_true_eq] at hcan
      have hrunning := hcan.1
      split at hrunning
      · rename_i hsoft
        have hpos : 0 < g.hardConcurrencyLimit := by
          refine lt_of_le_of_ne hlimit ?_
          intro heq
          exact hzero heq.symm ⟨hsoft, not_le.mp hhard⟩
        exact hrunning.trans_le (penalizedConcurrencyLimit_le hpos)
      · exact hrunning

theorem getQueuedQueries_lt_of_canQueueMore (h : g.canQueueMore = true) :
    g.getQueuedQueries < g.maxQueuedQueries := by
  rw [canQueueMore, decide_eq_true_eq] at h
  rw [getQueuedQueries]
  omega

/-- What admission is decided by, besides the queries and the memory usage. -/
def admissionLimits (g : InternalResourceGroup) : ℤ × ℤ × ℤ × ℤ :=
  (g.hardConcurrencyLimit, g.maxQueuedQueries, g.softCpuLimitMillis, g.hardCpuLimitMillis)

end InternalResourceGroup

namespace Groups

variable {t : PathTree String} {s s' : Groups} {m : Move}

/-- The queries of every group and of the groups below it are within its limits. -/
structure WithinLimits (t : PathTree String) (s : Groups) : Prop where
  running : ∀ p ∈ t.ids, (s.group p).getRunningQueries ≤ (s.group p).hardConcurrencyLimit
  queued : ∀ p ∈ t.ids, (s.group p).getQueuedQueries ≤ (s.group p).maxQueuedQueries
  hardConcurrencyLimit : ∀ p ∈ t.ids, 0 ≤ (s.group p).hardConcurrencyLimit

/-- No group that may run nothing is between its CPU limits. -/
def NoPenalizedZero (t : PathTree String) (s : Groups) : Prop :=
  ∀ p ∈ t.ids, (s.group p).hardConcurrencyLimit = 0 → ¬ (s.group p).CpuPenalized

/-- A group and the groups above it together are the path. -/
theorem path_delta (a x : ResourceGroupId) (d : ℤ) :
    ((if a = x then d else 0) + if Below a x then d else 0) = if a <:+ x then d else 0 := by
  rcases on_path_cases a x with rfl | ⟨n, hn⟩ | hnot
  · rw [if_pos rfl, if_neg Below.irrefl, if_pos suffix_rfl, add_zero]
  · have hbelow := below_of_child hn
    rw [if_neg hbelow.2, if_pos hbelow, if_pos hbelow.1, zero_add]
  · rw [if_neg (ne_of_not_suffix hnot), if_neg fun hbelow => hnot hbelow.1, if_neg hnot, add_zero]

/-- A move is counted by its group and by all groups above it. -/
theorem Moves.getRunningQueries (hmoves : Moves m s s') (hcan : CanMove m s) (a : ResourceGroupId) :
    (s'.group a).getRunningQueries =
      (s.group a).getRunningQueries + if a <:+ m.place then m.running.delta else 0 := by
  have hcount := hmoves.runningCount hcan a
  have hdescendants := hmoves.descendantRunning a
  have hpath := path_delta a m.place m.running.delta
  change s'.runningCount a + (s'.group a).descendantRunningQueries =
    s.runningCount a + (s.group a).descendantRunningQueries + _
  linarith

theorem Moves.getQueuedQueries (hmoves : Moves m s s') (hcan : CanMove m s) (a : ResourceGroupId) :
    (s'.group a).getQueuedQueries =
      (s.group a).getQueuedQueries + if a <:+ m.place then m.queued.delta else 0 := by
  have hcount := hmoves.queuedCount hcan a
  have hdescendants := hmoves.descendantQueued a
  have hpath := path_delta a m.place m.queued.delta
  change s'.queuedCount a + (s'.group a).descendantQueuedQueries =
    s.queuedCount a + (s.group a).descendantQueuedQueries + _
  linarith

/-- A count stays within its limit if there was room for what is added. -/
theorem add_delta_le {tr : Transfer} {onPath : Prop} [Decidable onPath] {count limit : ℤ}
    (h : count ≤ limit) (hroom : tr = .add → onPath → count < limit) :
    (count + if onPath then tr.delta else 0) ≤ limit := by
  split
  · rename_i honPath
    cases htr : tr with
    | keep => simpa [Transfer.delta] using h
    | add => exact hroom htr honPath
    | remove =>
        simp only [Transfer.delta]
        omega
  · omega

/-- A move keeps the limits if the groups on its path had room for what it adds. -/
theorem WithinLimits.of_moves (h : WithinLimits t s) (hmoves : Moves m s s') (hcan : CanMove m s)
    (hlimits : ∀ a ∈ t.ids, (s'.group a).admissionLimits = (s.group a).admissionLimits)
    (hrunning : m.running = .add → ∀ a ∈ t.ids, a <:+ m.place →
      (s.group a).getRunningQueries < (s.group a).hardConcurrencyLimit)
    (hqueued : m.queued = .add → ∀ a ∈ t.ids, a <:+ m.place →
      (s.group a).getQueuedQueries < (s.group a).maxQueuedQueries) :
    WithinLimits t s' := by
  have hhard : ∀ a ∈ t.ids,
      (s'.group a).hardConcurrencyLimit = (s.group a).hardConcurrencyLimit :=
    fun a ha => congrArg Prod.fst (hlimits a ha)
  refine ⟨?_, ?_, ?_⟩
  · intro a ha
    rw [hmoves.getRunningQueries hcan, hhard a ha]
    exact add_delta_le (h.running a ha) fun hm => hrunning hm a ha
  · intro a ha
    have hmax : (s'.group a).maxQueuedQueries = (s.group a).maxQueuedQueries :=
      congrArg (fun limits => limits.2.1) (hlimits a ha)
    rw [hmoves.getQueuedQueries hcan, hmax]
    exact add_delta_le (h.queued a ha) fun hm => hqueued hm a ha
  · intro a ha
    rw [hhard a ha]
    exact h.hardConcurrencyLimit a ha

theorem WithinLimits.of_idle (h : WithinLimits t s) (hidle : Idle s s')
    (hlimits : ∀ a ∈ t.ids, (s'.group a).admissionLimits = (s.group a).admissionLimits) :
    WithinLimits t s' :=
  h.of_moves (hidle.moves [] ⟨0, 0⟩) (canMove_keep _ _) hlimits (by simp) (by simp)

/-- Room on the path of a group that can run more with all groups above it. -/
theorem WithinLimits.room {x : ResourceGroupId} (h : WithinLimits t s) (hzero : NoPenalizedZero t s)
    (hcan : ∀ a, a <:+ x → s.canRunMore a = true) :
    ∀ a ∈ t.ids, a <:+ x → (s.group a).getRunningQueries < (s.group a).hardConcurrencyLimit := by
  intro a ha hsuffix
  exact getRunningQueries_lt_of_canRunMore (hcan a hsuffix)
    (h.hardConcurrencyLimit a ha) (hzero a ha)

/-! ## The calls with fixed limits -/

/-- The limits and the CPU usage of every group are as before. -/
def SameLimits (s s' : Groups) : Prop :=
  ∀ a, (s'.group a).admissionLimits = (s.group a).admissionLimits ∧
    (s'.group a).cpuUsageMillis = (s.group a).cpuUsageMillis

theorem SameLimits.noPenalizedZero (h : SameLimits s s') (hzero : NoPenalizedZero t s) :
    NoPenalizedZero t s' := by
  intro p hp
  obtain ⟨hlimits, hcpu⟩ := h p
  simp only [admissionLimits, Prod.mk.injEq] at hlimits
  rw [InternalResourceGroup.CpuPenalized, hlimits.1, hlimits.2.2.1, hlimits.2.2.2, hcpu]
  exact hzero p hp

theorem SameLimits.refreshed (h : Refreshed s s') : SameLimits s s' := by
  intro a
  obtain ⟨memory, dirty, -, hgroup⟩ := h.group a
  rw [hgroup]
  exact ⟨rfl, rfl⟩

theorem SameLimits.startNext (t : PathTree String) (draw : ResourceGroupId → ℕ) (s : Groups) :
    SameLimits s (s.startNext t draw).2 := by
  intro a
  have hkeeps := startNext_keeps (s := s) (fun g => (g.admissionLimits, g.cpuUsageMillis)) t draw a
  exact ⟨congrArg Prod.fst hkeeps, congrArg Prod.snd hkeeps⟩

theorem WithinLimits.startNext
    (draw : ResourceGroupId → ℕ) (h : WithinLimits t s) (htidy : Tidy t s)
    (hzero : NoPenalizedZero t s) : WithinLimits t (s.startNext t draw).2 := by
  have hsame := SameLimits.startNext t draw s
  rcases startNext_cases t draw s with ⟨-, hgroup, -⟩ | ⟨-, x, query, hstarted, -⟩
  · exact h.of_idle (.of_group hgroup) fun a _ => (hsame a).1
  · obtain ⟨-, -, hcan⟩ := htidy.started hstarted
    refine h.of_moves hstarted.moves hcan (fun a _ => (hsame a).1) ?_ (by simp)
    intro _
    exact h.room hzero fun a ha => hstarted.canRunMore a nil_suffix ha

theorem WithinLimits.processQueuedQueries
    (memory : Query → ℕ) (iteration : HashOrder) (draws : ℕ → ResourceGroupId → ℕ)
    (h : WithinLimits t s) (htidy : Tidy t s) (hzero : NoPenalizedZero t s) :
    WithinLimits t (s.processQueuedQueries t memory iteration draws).2 := by
  have hrefreshed : Refreshed s (s.refreshStats t memory iteration) :=
    .refreshStats memory iteration s
  have hsame := SameLimits.refreshed hrefreshed
  have hloop := startAll_invariant (t := t)
    (motive := fun s' => WithinLimits t s' ∧ Tidy t s' ∧ NoPenalizedZero t s')
    (fun draw s' hs' => ⟨hs'.1.startNext draw hs'.2.1 hs'.2.2, (hs'.2.1.startNext draw).1,
      (SameLimits.startNext t draw s').noPenalizedZero hs'.2.2⟩)
  exact (hloop draws _ _ ⟨h.of_idle hrefreshed.idle fun a _ => (hsame a).1,
    htidy.refreshStats memory iteration, hsame.noPenalizedZero hzero⟩).1

theorem path_admissionLimits {f : InternalResourceGroup → InternalResourceGroup}
    {h : String → InternalResourceGroup → InternalResourceGroup} {p : ResourceGroupId}
    (hgroup : s'.group = (forParents h p (s.modify p f)).group)
    (hf : ∀ g, (f g).admissionLimits = g.admissionLimits := by intros; rfl)
    (hh : ∀ n g, (h n g).admissionLimits = g.admissionLimits := by intros; rfl) :
    ∀ a ∈ t.ids, (s'.group a).admissionLimits = (s.group a).admissionLimits := by
  intro a _
  rw [hgroup]
  exact path_keeps _ a hf hh

end Groups

/-- The calls that leave the limits of all groups as they are. -/
def Operation.FixedLimits : Operation → Prop
  | .run _ _ | .queryFinished _ _ _ _ | .refreshStats _ _ | .generateCpuQuota _
  | .processQueuedQueries _ _ _ => True
  | _ => False

/-- Where a submitted query can be. -/
inductive Fate
  | running (p : ResourceGroupId)
  | queued (p : ResourceGroupId)
  | failed
  | finished
  deriving DecidableEq, Repr

namespace Cluster

open Groups

variable {t : PathTree String} {c : Cluster}

/-- All the places where a query is. -/
def fates (t : PathTree String) (c : Cluster) (query : Query) : List Fate :=
  (t.ids.filter fun p => decide (query ∈ (c.groups.group p).runningQueries)).map .running ++
    (t.ids.filter fun p =>
      decide (query ∈ (c.groups.group p).queuedQueries.elements)).map .queued ++
    (if query ∈ c.failed then [.failed] else []) ++
    if query ∈ c.finished then [.finished] else []

theorem sum_indicator_eq_length_filter
    (t : PathTree String) (present : ResourceGroupId → Prop) [DecidablePred present] :
    ∑ p ∈ t.ids.toFinset, Transfer.indicator (present p) =
      ((t.ids.filter fun p => decide (present p)).length : ℤ) := by
  have hfilter : (t.ids.toFinset.filter present) =
      (t.ids.filter fun p => decide (present p)).toFinset := by
    ext p
    simp
  unfold Transfer.indicator
  rw [Finset.sum_boole, hfilter, toFinset_card_of_nodup (t.nodup.filter _)]

theorem length_singleton_if {α : Type} (present : Prop) [Decidable present] (a : α) :
    ((if present then [a] else []).length : ℤ) = Transfer.indicator present := by
  unfold Transfer.indicator
  split <;> rfl

/-- A submitted query is in one place. -/
theorem Accounted.exists_fate {query : Query} (h : Accounted t c) (hquery : query ∈ c.submitted) :
    ∃ fate, c.fates t query = [fate] := by
  have hplaces := h.places query
  rw [count_eq_one_of_mem h.nodup hquery] at hplaces
  have hnonneg : 0 ≤ c.groups.occurrences t query :=
    Finset.sum_nonneg fun q _ => c.groups.occurrences_nonneg_term query q
  have hcount : ∀ l : List Query, l.count query ≤ 1 →
      Transfer.indicator (query ∈ l) = l.count query := by
    intro l hl
    unfold Transfer.indicator
    split
    · rename_i hmem
      have := count_pos_iff.mpr hmem
      omega
    · rename_i hmem
      rw [count_eq_zero.mpr hmem]
      rfl
  have hlength : ((c.fates t query).length : ℤ) = 1 := by
    rw [fates, length_append, length_append, length_append, length_map, length_map]
    push_cast
    rw [length_singleton_if, length_singleton_if, hcount c.failed (by omega),
      hcount c.finished (by omega), ← sum_indicator_eq_length_filter,
      ← sum_indicator_eq_length_filter, ← Finset.sum_add_distrib]
    exact hplaces
  exact length_eq_one_iff.mp (by exact_mod_cast hlength)

/-- A call with fixed limits keeps every group within its limits. -/
theorem withinLimits_execute
    {op : Operation} (h : WithinLimits t c.groups) (haccounted : Accounted t c)
    (hpossible : op.Possible t c) (hfixed : op.FixedLimits) (hzero : NoPenalizedZero t c.groups) :
    WithinLimits t (c.execute t op).groups := by
  cases op with
  | run p query =>
      have hp : p ∈ t.ids := hpossible.target_mem
      obtain ⟨hrunning, hqueued⟩ := not_held_of_occurrences_zero hp
        (haccounted.occurrences_of_new (hpossible.new query rfl))
      refine submit_cases h ?_ ?_
      · intro hcan
        refine h.of_moves (startInBackground_moves c.groups p query) ⟨hrunning, trivial⟩
          (path_admissionLimits startInBackground_group) ?_ (by simp)
        intro _
        exact h.room hzero hcan
      · intro hcan _
        refine h.of_moves (enqueueQuery_moves hqueued) ⟨trivial, hqueued⟩
          (path_admissionLimits enqueueQuery_group) (by simp) ?_
        intro _ a _ hsuffix
        exact getQueuedQueries_lt_of_canQueueMore (hcan a hsuffix)
  | queryFinished p query cpuTimeMillis counts =>
      have hcpu : ∀ a, ((c.groups.countCpuTime p cpuTimeMillis counts).group a).admissionLimits =
          (c.groups.group a).admissionLimits := by
        intro a
        obtain ⟨usage, husage⟩ := countCpuTime_group p cpuTimeMillis counts c.groups a
        rw [husage]
        rfl
      rw [execute, finish]
      by_cases hheld : c.groups.holds p query
      · obtain ⟨running, queued, hmoves, hcan, hadd, -⟩ := queryFinished_moves hheld
        refine h.of_moves hmoves hcan ?_ (fun hm => absurd hm hadd.1) fun hm => absurd hm hadd.2
        intro a ha
        refine queryFinished_cases (motive := fun s' => (s'.group a).admissionLimits =
          (c.groups.group a).admissionLimits) (fun _ => rfl) ?_
        intro f h hleaving
        rw [← hcpu a, updateEligibility_group]
        cases hleaving <;> exact path_keeps (·.admissionLimits) a
      · rw [queryFinished_of_not_held hheld]
        exact h
  | refreshStats memory iteration =>
      have hrefreshed : Refreshed c.groups (c.groups.refreshStats t memory iteration) :=
        .refreshStats memory iteration c.groups
      exact h.of_idle hrefreshed.idle fun a _ => (SameLimits.refreshed hrefreshed a).1
  | generateCpuQuota elapsedSeconds =>
      refine h.of_idle (Calm.generateCpuQuota elapsedSeconds c.groups).idle ?_
      intro a _
      obtain ⟨usage, hgroup⟩ := generateCpuQuota_usage (t := t) elapsedSeconds c.groups a
      rw [execute, hgroup]
      rfl
  | processQueuedQueries memory iteration draws =>
      exact h.processQueuedQueries memory iteration draws haccounted.tidy hzero
  | _ => exact absurd hfixed (by simp [Operation.FixedLimits])

theorem withinLimits_start {s : Groups} (hfresh : Fresh t s) : WithinLimits t s := by
  refine ⟨?_, ?_, hfresh.hardConcurrencyLimit⟩
  · intro p hp
    rw [getRunningQueries, hfresh.running p hp, hfresh.descendantRunning p hp]
    exact hfresh.hardConcurrencyLimit p hp
  · intro p hp
    rw [getQueuedQueries, hfresh.queued p hp, hfresh.descendantQueued p hp]
    exact hfresh.maxQueuedQueries p hp

/--
In a run with fixed limits, where no group with a concurrency limit of zero is
between its CPU limits when a call is made, the running and the queued queries
of every subtree stay within the limits of its group.  Every submitted query is
running, queued, failed or finished, in exactly one place.
-/
theorem admission_limits_respected
    (hreach : Reachable t
      (fun c op => op.FixedLimits ∧ NoPenalizedZero t c.groups) c) :
    (∀ p ∈ t.ids,
      ∑ q ∈ t.ids.toFinset with p <:+ q, ((c.groups.group q).runningQueries.card : ℤ) ≤
          (c.groups.group p).hardConcurrencyLimit ∧
        ∑ q ∈ t.ids.toFinset with p <:+ q, ((c.groups.group q).queuedQueries.size : ℤ) ≤
          (c.groups.group p).maxQueuedQueries) ∧
      ∀ query ∈ c.submitted, ∃ fate, c.fates t query = [fate] := by
  have haccounted := Accounted.of_reachable hreach
  have hlimits : Accounted t c ∧ WithinLimits t c.groups := by
    refine hreach.invariant (motive := fun c => Accounted t c ∧ WithinLimits t c.groups) ?_ ?_
    · intro s hfresh
      exact ⟨.start hfresh, withinLimits_start hfresh⟩
    · intro c op h hpossible hallowed
      exact ⟨h.1.execute hpossible,
        withinLimits_execute h.2 h.1 hpossible hallowed.1 hallowed.2⟩
  refine ⟨?_, fun query hquery => haccounted.exists_fate hquery⟩
  intro p hp
  have hrunning := hlimits.2.running p hp
  have hqueued := hlimits.2.queued p hp
  rw [getRunningQueries, haccounted.tidy.descendantRunning p hp] at hrunning
  rw [getQueuedQueries, haccounted.tidy.descendantQueued p hp] at hqueued
  exact ⟨(t.add_total (f := c.groups.runningCount) hp).symm.trans_le hrunning,
    (t.add_total (f := c.groups.queuedCount) hp).symm.trans_le hqueued⟩

end Cluster

theorem admission_limits_respected_of_two :
    (∑ q ∈ twoLevels.ids.toFinset with [] <:+ q,
        ((twoSubmitted.groups.group q).runningQueries.card : ℤ)) ≤ 1 ∧
      ∃ fate, twoSubmitted.fates twoLevels ⟨2, 1⟩ = [fate] := by
  have hone : ∀ c : Cluster, (∀ p ∈ twoLevels.ids, (c.groups.group p).hardConcurrencyLimit = 1) →
      Groups.NoPenalizedZero twoLevels c.groups := by
    intro c hc p hp hzero
    rw [hc p hp] at hzero
    exact absurd hzero one_ne_zero
  have hreach : Reachable twoLevels
      (fun c op => op.FixedLimits ∧ Groups.NoPenalizedZero twoLevels c.groups) twoSubmitted :=
    twoSubmitted_reachable ⟨trivial, hone _ (by decide)⟩ ⟨trivial, hone _ (by decide)⟩
  obtain ⟨hlimits, hfates⟩ := Cluster.admission_limits_respected hreach
  exact ⟨(hlimits [] (by decide)).1, hfates ⟨2, 1⟩ (by decide)⟩

/-- A tree that is its root. -/
def rootOnly : PathTree String where
  ids := [[]]
  nodup := by decide
  root_mem := by decide
  parent_mem := by simp

/-- A group that may run nothing, with a soft CPU limit of zero. -/
def nothingAllowed : Groups where
  rootName := "root"
  taskLimitExceeded := false
  group := fun _ => { hardConcurrencyLimit := 0, softCpuLimitMillis := 0, hardCpuLimitMillis := 1 }
  eligibleSubGroups := fun _ => Queue.empty .fifo

theorem nothingAllowed_fresh (t : PathTree String) : Fresh t nothingAllowed where
  __ := oneAtATime_fresh t
  hardConcurrencyLimit _ _ := le_rfl
  maxQueuedQueries _ _ := le_rfl
  cpuLimits _ _ := zero_le_one
  policies _ _ _ h := absurd h (by simp [nothingAllowed])

theorem nothingAllowed_canRunMore : nothingAllowed.canRunMore [] = true := by
  have hpenalized : (nothingAllowed.group []).penalizedConcurrencyLimit = 1 := by
    simp [penalizedConcurrencyLimit, nothingAllowed]
  rw [Groups.canRunMore, canRunMore, hpenalized]
  decide

/-- A group with a concurrency limit of zero runs a query. -/
theorem concurrency_limit_of_zero_exceeded :
    ∃ c, Reachable rootOnly (fun _ op => op.FixedLimits) c ∧
      (c.groups.group []).hardConcurrencyLimit <
        ∑ q ∈ rootOnly.ids.toFinset with [] <:+ q,
          ((c.groups.group q).runningQueries.card : ℤ) := by
  have hrun : nothingAllowed.run rootOnly [] ⟨1, 1⟩ =
      .ok (true, nothingAllowed.startInBackground [] ⟨1, 1⟩) := by
    have hleaf : rootOnly.children [] = [] := by decide
    simp [Groups.run, hleaf, Groups.allOnPath, nothingAllowed_canRunMore]
  refine ⟨Cluster.execute rootOnly { groups := nothingAllowed } (.run [] ⟨1, 1⟩), ?_, ?_⟩
  · refine .step (.start (nothingAllowed_fresh rootOnly)) ⟨by decide, ?_⟩ trivial
    intro query _
    exact List.not_mem_nil
  · rw [Cluster.execute, Cluster.submit, hrun]
    decide

end Presto.ResourceGroups
