import Presto.Execution.ResourceGroups.Eligibility
import Presto.Support.ListUpdates

/-!
# Changes of the scheduling policy

A group with query priority scheduling has only sub groups with query priority
scheduling.  A change of the policy keeps that, since it first changes the sub
groups, and it refills the queues of the group with priorities of the new policy.
-/

namespace Presto.ResourceGroups.Groups

open List

variable {t : PathTree String} {s s' : Groups} {p q a : ResourceGroupId} {m n : String}
  {draws : ResourceGroupId → ℕ → ℕ} {policy : SchedulingPolicy}

/-- Below a group of the subtree with query priority scheduling all groups have it. -/
def InheritsFrom (t : PathTree String) (top : ResourceGroupId) (s : Groups) : Prop :=
  ∀ n p, n :: p ∈ t.ids → top <:+ p → (s.group p).schedulingPolicy = .queryPriority →
    (s.group (n :: p)).schedulingPolicy = .queryPriority

theorem InheritsFrom.below
    (h : InheritsFrom t p s) (hp : (s.group p).schedulingPolicy = .queryPriority)
    (hq : q ∈ t.ids) (hsuffix : p <:+ q) : (s.group q).schedulingPolicy = .queryPriority := by
  induction q with
  | nil =>
      rw [suffix_nil.mp hsuffix] at hp
      exact hp
  | cons n q ih =>
      rcases suffix_cons_iff.mp hsuffix with rfl | hsuffix
      · exact hp
      · exact h n q hq hsuffix (ih (t.parent_mem n q hq) hsuffix)

theorem InheritsFrom.of_policy (h : InheritsFrom t p s)
    (hpolicy : ∀ a, (s'.group a).schedulingPolicy = (s.group a).schedulingPolicy) :
    InheritsFrom t p s' := by
  intro n q hq hsuffix
  rw [hpolicy, hpolicy]
  exact h n q hq hsuffix

theorem InheritsFrom.setSchedulingWeight {weight : ℤ} (h : InheritsFrom t q s) :
    InheritsFrom t q (s.after (s.setSchedulingWeight p weight)) := by
  have hmodify : InheritsFrom t q (s.modify p fun g => { g with schedulingWeight := weight }) :=
    h.of_policy (modify_related (R := fun g g' => g'.schedulingPolicy = g.schedulingPolicy)
      (fun _ => rfl) rfl)
  exact setSchedulingWeight_cases h (fun _ => hmodify) fun _ _ _ _ => hmodify

/-! ## Queues that fit the policy -/

theorem computeSchedulingWeight_cases (g : InternalResourceGroup) :
    g.computeSchedulingWeight = g.schedulingWeight ∨
      g.computeSchedulingWeight = integerMax * g.schedulingWeight := by
  unfold InternalResourceGroup.computeSchedulingWeight
  split
  · exact .inl rfl
  · exact .inr rfl

/-- The queued queries are in the queue of the policy, each with its own positive priority. -/
def WellQueued (g : InternalResourceGroup) : Prop :=
  g.queuedQueries.kind = g.schedulingPolicy.queryQueue ∧
    ∀ query v, (query, v) ∈ g.queuedQueries.entries →
      v = query.queryPriority ∧ 0 < query.queryPriority

/-- In a queue that draws by lot the tickets of a sub group are its weight, or a multiple of it. -/
def Ticketed (s : Groups) (p : ResourceGroupId) : Prop :=
  (s.group p).schedulingPolicy = .weighted → ∀ n v, (n, v) ∈ (s.eligibleSubGroups p).entries →
    v = (s.group (n :: p)).schedulingWeight ∨ v = integerMax * (s.group (n :: p)).schedulingWeight

theorem Ticketed.congr (h : Ticketed s a)
    (hpolicy : (s'.group a).schedulingPolicy = (s.group a).schedulingPolicy)
    (hweight : ∀ n, (s'.group (n :: a)).schedulingWeight = (s.group (n :: a)).schedulingWeight)
    (heligible : s'.eligibleSubGroups a = s.eligibleSubGroups a) : Ticketed s' a := by
  intro hweighted n v hv
  rw [hweight]
  exact h (hpolicy ▸ hweighted) n v (heligible ▸ hv)

/-- The tickets with which a sub group is added. -/
theorem Ticketed.of_entry {v : ℤ}
    (hweighted : ((s.addOrUpdateSubGroup p n).group p).schedulingPolicy = .weighted)
    (hv : (n, v) ∈ ((s.addOrUpdateSubGroup p n).eligibleSubGroups p).entries) :
    v = ((s.addOrUpdateSubGroup p n).group (n :: p)).schedulingWeight ∨
      v = integerMax * ((s.addOrUpdateSubGroup p n).group (n :: p)).schedulingWeight := by
  rw [addOrUpdateSubGroup, modifyEligible_eligibleSubGroups_self] at hv
  rw [addOrUpdateSubGroup_group] at hweighted ⊢
  rcases Queue.mem_addOrUpdate.mp hv with ⟨-, rfl⟩ | ⟨hne, -⟩
  · rw [hweighted]
    exact computeSchedulingWeight_cases _
  · exact absurd rfl hne

theorem Ticketed.addOrUpdateSubGroup (h : Ticketed s p) :
    Ticketed (s.addOrUpdateSubGroup p n) p := by
  intro hweighted m v hv
  by_cases hm : m = n
  · subst hm
    exact of_entry hweighted hv
  · rw [addOrUpdateSubGroup_entries_of_other (.inr hm)] at hv
    exact h hweighted m v hv

/-- All queues of a tree are those of the policies. -/
def FitsPolicies (t : PathTree String) (s : Groups) : Prop :=
  ∀ p ∈ t.ids, WellQueued (s.group p) ∧
    (s.eligibleSubGroups p).kind = (s.group p).schedulingPolicy.subGroupQueue ∧ Ticketed s p

/-- A step that keeps the policies and the weights, and queues that fit them. -/
structure KeepsQueues (s s' : Groups) : Prop where
  policy : ∀ a, (s'.group a).schedulingPolicy = (s.group a).schedulingPolicy
  weight : ∀ a, (s'.group a).schedulingWeight = (s.group a).schedulingWeight
  queued : ∀ a, WellQueued (s.group a) → WellQueued (s'.group a)
  kind : ∀ a, (s'.eligibleSubGroups a).kind = (s.eligibleSubGroups a).kind
  tickets : ∀ a, Ticketed s a → Ticketed s' a

open KeepsQueues

theorem KeepsQueues.refl (s : Groups) : KeepsQueues s s :=
  ⟨fun _ => rfl, fun _ => rfl, fun _ => id, fun _ => rfl, fun _ => id⟩

theorem KeepsQueues.trans
    {s'' : Groups} (h : KeepsQueues s s') (h' : KeepsQueues s' s'') : KeepsQueues s s'' :=
  ⟨fun a => (h'.policy a).trans (h.policy a), fun a => (h'.weight a).trans (h.weight a),
    fun a => h'.queued a ∘ h.queued a, fun a => (h'.kind a).trans (h.kind a),
    fun a => h'.tickets a ∘ h.tickets a⟩

theorem KeepsQueues.fitsPolicies (h : KeepsQueues s s') (hfits : FitsPolicies t s) :
    FitsPolicies t s' := by
  intro p hp
  rw [h.kind, h.policy]
  exact ⟨h.queued p (hfits p hp).1, (hfits p hp).2.1, h.tickets p (hfits p hp).2.2⟩

/-- A step that touches neither policies nor weights nor queues. -/
theorem KeepsQueues.of_same
    (hgroup : ∀ a, (s'.group a).schedulingPolicy = (s.group a).schedulingPolicy ∧
      (s'.group a).schedulingWeight = (s.group a).schedulingWeight ∧
      (s'.group a).queuedQueries = (s.group a).queuedQueries)
    (heligible : s'.eligibleSubGroups = s.eligibleSubGroups) : KeepsQueues s s' := by
  refine ⟨fun a => (hgroup a).1, fun a => (hgroup a).2.1, ?_, fun a => by rw [heligible], ?_⟩
  · intro a hqueued
    rw [WellQueued, (hgroup a).1, (hgroup a).2.2]
    exact hqueued
  · intro a htickets
    exact htickets.congr (hgroup a).1 (fun n => (hgroup _).2.1) (by rw [heligible])

theorem KeepsQueues.modifyEligible
    {f : Queue String → Queue String} (hf : ∀ queue, (f queue).kind = queue.kind)
    (htickets : Ticketed s p → Ticketed (s.modifyEligible p f) p) :
    KeepsQueues s (s.modifyEligible p f) := by
  refine ⟨fun _ => rfl, fun _ => rfl, fun _ => id, fun a => ?_, fun a => ?_⟩
  · by_cases ha : a = p
    · subst ha
      rw [modifyEligible_eligibleSubGroups_self]
      exact hf _
    · rw [modifyEligible_eligibleSubGroups_of_ne ha]
  · by_cases ha : a = p
    · subst ha
      exact htickets
    · intro h
      exact h.congr rfl (fun _ => rfl) (modifyEligible_eligibleSubGroups_of_ne ha)

theorem KeepsQueues.addOrUpdateSubGroup (s : Groups) (p : ResourceGroupId) (n : String) :
    KeepsQueues s (s.addOrUpdateSubGroup p n) :=
  .modifyEligible (fun _ => Queue.addOrUpdate_kind _ _ _) Ticketed.addOrUpdateSubGroup

theorem KeepsQueues.removeSubGroup (s : Groups) (p : ResourceGroupId) (n : String) :
    KeepsQueues s (s.removeSubGroup p n) := by
  refine .modifyEligible (fun _ => rfl) ?_
  intro h hweighted m v hv
  rw [modifyEligible_eligibleSubGroups_self] at hv
  exact h hweighted m v (Queue.mem_remove.mp hv).2

theorem KeepsQueues.updateEligibility (p : ResourceGroupId) (s : Groups) :
    KeepsQueues s (s.updateEligibility p) := by
  induction p generalizing s with
  | nil => exact .refl s
  | cons n parent ih =>
      refine trans ?_ (ih _)
      split
      · exact .addOrUpdateSubGroup s parent n
      · exact .removeSubGroup s parent n

variable {f : InternalResourceGroup → InternalResourceGroup}

theorem KeepsQueues.modify (hf : ∀ g, (f g).schedulingPolicy = g.schedulingPolicy ∧
      (f g).schedulingWeight = g.schedulingWeight)
    (hqueued : ∀ g, WellQueued g → WellQueued (f g)) (p : ResourceGroupId) (s : Groups) :
    KeepsQueues s (s.modify p f) := by
  have hsame := modify_related (s := s) (p := p) (f := f) (R := fun g g' =>
    g'.schedulingPolicy = g.schedulingPolicy ∧ g'.schedulingWeight = g.schedulingWeight)
    (fun _ => ⟨rfl, rfl⟩) (hf _)
  refine ⟨fun a => (hsame a).1, fun a => (hsame a).2, ?_, fun _ => rfl, ?_⟩
  · exact modify_related (R := fun g g' => WellQueued g → WellQueued g') (fun _ => id) (hqueued _)
  · intro a h
    exact h.congr (hsame a).1 (fun n => (hsame _).2) rfl

theorem KeepsQueues.modify_same (p : ResourceGroupId) (s : Groups)
    (hf : ∀ g, (f g).schedulingPolicy = g.schedulingPolicy ∧
      (f g).schedulingWeight = g.schedulingWeight ∧
      (f g).queuedQueries = g.queuedQueries := by intros; exact ⟨rfl, rfl, rfl⟩) :
    KeepsQueues s (s.modify p f) :=
  .of_same (modify_related (R := fun g g' => g'.schedulingPolicy = g.schedulingPolicy ∧
    g'.schedulingWeight = g.schedulingWeight ∧ g'.queuedQueries = g.queuedQueries)
    (fun _ => ⟨rfl, rfl, rfl⟩) (hf _)) rfl

variable {h : String → InternalResourceGroup → InternalResourceGroup}

theorem KeepsQueues.forParents
    (hh : ∀ n g, (h n g).schedulingPolicy = g.schedulingPolicy ∧
      (h n g).schedulingWeight = g.schedulingWeight ∧
      (h n g).queuedQueries = g.queuedQueries)
    (p : ResourceGroupId) (s : Groups) : KeepsQueues s (forParents h p s) := by
  induction p generalizing s with
  | nil => exact .refl s
  | cons n parent ih =>
      exact (modify_same parent s (hh n)).trans (ih _)

/-- The changes along a path that submitting, starting and finishing a query make. -/
theorem KeepsQueues.alongPath (p : ResourceGroupId) (s : Groups)
    (hqueued : ∀ g, WellQueued g → WellQueued (f g) := by exact fun _ hg => hg)
    (hf : ∀ g, (f g).schedulingPolicy = g.schedulingPolicy ∧
      (f g).schedulingWeight = g.schedulingWeight := by intros; exact ⟨rfl, rfl⟩)
    (hparents : ∀ n g, (h n g).schedulingPolicy = g.schedulingPolicy ∧
      (h n g).schedulingWeight = g.schedulingWeight ∧
      (h n g).queuedQueries = g.queuedQueries := by intros; exact ⟨rfl, rfl, rfl⟩) :
    KeepsQueues s (Groups.forParents h p (s.modify p f)) :=
  (modify hf hqueued p s).trans (.forParents hparents p _)

variable {g : InternalResourceGroup} {query : Query}

theorem WellQueued.remove (h : WellQueued g) :
    WellQueued { g with queuedQueries := g.queuedQueries.remove query } := by
  refine ⟨h.1, ?_⟩
  intro r v hr
  exact h.2 r v (Queue.mem_remove.mp hr).2

theorem WellQueued.addOrUpdate (h : WellQueued g) (hpositive : 0 < query.queryPriority) :
    WellQueued
      { g with queuedQueries := g.queuedQueries.addOrUpdate query query.queryPriority } := by
  refine ⟨(Queue.addOrUpdate_kind _ _ _).trans h.1, ?_⟩
  intro r v hr
  rcases Queue.mem_addOrUpdate.mp hr with ⟨rfl, rfl⟩ | ⟨-, hr⟩
  · exact ⟨rfl, hpositive⟩
  · exact h.2 r v hr

theorem KeepsQueues.startInBackground (p : ResourceGroupId) (query : Query) (s : Groups) :
    KeepsQueues s (s.startInBackground p query) :=
  trans (alongPath p s) (.updateEligibility p _)

theorem KeepsQueues.enqueueQuery
    (hpositive : 0 < query.queryPriority) (p : ResourceGroupId) (s : Groups) :
    KeepsQueues s (s.enqueueQuery p query) :=
  trans (alongPath p s fun _ hg => hg.addOrUpdate hpositive) (.updateEligibility p _)

theorem KeepsQueues.countCpuTime
    (p : ResourceGroupId) (cpuTimeMillis : ℕ) (counts : Bool) (s : Groups) :
    KeepsQueues s (s.countCpuTime p cpuTimeMillis counts) := by
  refine .of_same ?_ countCpuTime_eligibleSubGroups
  intro a
  obtain ⟨usage, husage⟩ := countCpuTime_group p cpuTimeMillis counts s a
  rw [husage]
  exact ⟨rfl, rfl, rfl⟩

theorem KeepsQueues.queryFinished
    (p : ResourceGroupId) (query : Query) (cpuTimeMillis : ℕ) (counts : Bool) (s : Groups) :
    KeepsQueues s (s.queryFinished p query cpuTimeMillis counts) := by
  refine queryFinished_cases (fun _ => .refl s) ?_
  intro f h hleaving
  refine ((countCpuTime p cpuTimeMillis counts s).trans ?_).trans (.updateEligibility p _)
  cases hleaving with
  | running => exact alongPath p _
  | queued => exact alongPath p _ fun _ hg => hg.remove

theorem KeepsQueues.dequeue (p : ResourceGroupId) (query : Query) (s : Groups) :
    KeepsQueues s (s.dequeue p query) := by
  refine modify ?_ ?_ p s
  · exact fun _ => ⟨rfl, rfl⟩
  · exact fun _ hg => hg.remove

theorem KeepsQueues.internalStartNext
    (draw : ResourceGroupId → ℕ) (below : ℕ) (p : ResourceGroupId) (s : Groups) :
    KeepsQueues s (s.internalStartNext draw below p).2 := by
  refine internalStartNext_induction
    (motive := fun _ _ s result => KeepsQueues s result.2) ?_ ?_ ?_ ?_ ?_ below p s
  · intro below p s _
    exact .refl s
  · intro below p s query _ _
    exact (dequeue p query s).trans (.startInBackground p query _)
  · intro p s n _
    exact .refl s
  · intro below p s n outcome e s' _ _ _ hsub
    exact (removeSubGroup s p n).trans hsub
  · intro below p s n s' _ _ _ hsub
    refine ((removeSubGroup s p n).trans hsub).trans ?_
    have hmodify : KeepsQueues s' (s'.modify p fun g =>
        { g with descendantQueuedQueries := g.descendantQueuedQueries - 1 }) :=
      .modify_same p s'
    rw [subGroupStarted]
    split
    · exact hmodify.trans (.addOrUpdateSubGroup _ p n)
    · exact hmodify

theorem KeepsQueues.startNext (draw : ResourceGroupId → ℕ) (s : Groups) :
    KeepsQueues s (s.startNext t draw).2 :=
  .internalStartNext draw t.height [] s

theorem KeepsQueues.memoryUpdated (hf : MemoryUpdated (s.group p) (f (s.group p))) :
    KeepsQueues s (s.modify p f) := by
  obtain ⟨_, _, -, hf⟩ := hf
  refine .of_same (modify_related (R := fun g g' => g'.schedulingPolicy = g.schedulingPolicy ∧
    g'.schedulingWeight = g.schedulingWeight ∧ g'.queuedQueries = g.queuedQueries)
    (fun _ => ⟨rfl, rfl, rfl⟩) ?_) rfl
  rw [hf]
  exact ⟨rfl, rfl, rfl⟩

theorem KeepsQueues.internalRefreshStats
    (memory : Query → ℕ) (iteration : HashOrder) (below : ℕ) (p : ResourceGroupId) (s : Groups) :
    KeepsQueues s (s.internalRefreshStats t memory iteration below p) :=
  internalRefreshStats_related .refl .trans .memoryUpdated .updateEligibility memory iteration
    below p s

theorem KeepsQueues.setLimit
    (hf : ∀ g, (f g).schedulingPolicy = g.schedulingPolicy ∧
      (f g).schedulingWeight = g.schedulingWeight ∧ (f g).queuedQueries = g.queuedQueries)
    (p : ResourceGroupId) (s : Groups) : KeepsQueues s (s.setLimit p f) := by
  rw [Groups.setLimit]
  split
  · exact (modify_same p s hf).trans (.updateEligibility p _)
  · exact .modify_same p s hf

theorem queues_of_unconfigured {g' : InternalResourceGroup} (h : unconfigured g' = unconfigured g) :
    g'.schedulingPolicy = g.schedulingPolicy ∧ g'.schedulingWeight = g.schedulingWeight ∧
      g'.queuedQueries = g.queuedQueries := by
  simp only [unconfigured, Prod.mk.injEq] at h
  exact ⟨h.2.2.2.2.2.2.1, h.2.2.2.2.2.2.2, h.2.1⟩

theorem Reconfigured.keepsQueues (h : Reconfigured p s s') : KeepsQueues s s' := by
  induction h with
  | refl => exact .refl s
  | limit _ hf ih => exact ih.trans (.setLimit (fun g => queues_of_unconfigured (hf g)) p _)
  | other _ hf _ ih =>
      exact ih.trans (.modify_same p _ fun g => queues_of_unconfigured (hf g))

/-- A new weight of a group with tickets comes with new tickets. -/
theorem FitsPolicies.setSchedulingWeight {weight : ℤ} (h : FitsPolicies t s) :
    FitsPolicies t (s.after (s.setSchedulingWeight p weight)) := by
  have hsame := modify_related (s := s) (p := p)
    (f := fun g => { g with schedulingWeight := weight })
    (R := fun g g' => (WellQueued g → WellQueued g') ∧ g'.schedulingPolicy = g.schedulingPolicy)
    (fun _ => ⟨id, rfl⟩) ⟨id, rfl⟩
  refine setSchedulingWeight_cases h ?_ ?_
  · intro hnot a ha
    obtain ⟨hqueued, hkind, htickets⟩ := h a ha
    refine ⟨(hsame a).1 hqueued, hkind.trans (by rw [(hsame a).2]), ?_⟩
    intro hweighted m v hv
    rw [(hsame a).2] at hweighted
    by_cases hm : m :: a = p
    · exact absurd (Queue.mem_elements.mpr ⟨v, hv⟩) (hnot m a hm.symm hweighted)
    · rw [modify_group_of_ne hm]
      exact htickets hweighted m v hv
  · rintro n parent rfl - a ha
    obtain ⟨hqueued, hkind, htickets⟩ := h a ha
    refine ⟨(hsame a).1 hqueued, ?_, ?_⟩
    · rw [(KeepsQueues.addOrUpdateSubGroup _ parent n).kind, addOrUpdateSubGroup_group, (hsame a).2]
      exact hkind
    intro hweighted m v hv
    by_cases hm : m :: a = n :: parent
    · obtain ⟨rfl, rfl⟩ := cons.inj hm
      exact Ticketed.of_entry hweighted hv
    · rw [addOrUpdateSubGroup_entries_of_other (by
        by_contra hother
        exact hm (by rw [not_ne_iff.mp (not_or.mp hother).1, not_ne_iff.mp (not_or.mp hother).2]))]
        at hv
      rw [addOrUpdateSubGroup_group, modify_group_of_ne hm]
      exact htickets ((hsame a).2 ▸ hweighted) m v hv

/-! ## Switching one group -/

theorem switchPolicy_eligibleSubGroups_self :
    (s.switchPolicy draws policy p).eligibleSubGroups p =
      (s.eligibleSubGroups p).requeue (draws p) policy.subGroupQueue fun n =>
        (s.group (n :: p)).getSubGroupSchedulingPriority policy := by
  rw [switchPolicy, modify_eligibleSubGroups, modifyEligible_eligibleSubGroups_self]
  simp only [modify_group_of_ne (cons_ne_self _ p)]
  rfl

theorem switchPolicy_eligibleSubGroups_of_ne (ha : a ≠ p) :
    (s.switchPolicy draws policy p).eligibleSubGroups a = s.eligibleSubGroups a := by
  rw [switchPolicy, modify_eligibleSubGroups, modifyEligible_eligibleSubGroups_of_ne ha]
  rfl

theorem requeue_isEmpty
    {E : Type} [DecidableEq E] (queue : Queue E) (draws : ℕ → ℕ) (kind : QueueKind)
    (priority : E → ℤ) : (queue.requeue draws kind priority).isEmpty = queue.isEmpty := by
  have hperm := queue.requeue_elements_perm draws kind priority
  rw [Bool.eq_iff_iff, ← not_iff_not, Bool.not_eq_true, Bool.not_eq_true,
    Queue.isEmpty_eq_false_iff, Queue.isEmpty_eq_false_iff]
  exact exists_congr fun e => hperm.mem_iff

/-- Switching a group to other queues does not change which groups are eligible. -/
theorem switchPolicy_isEligibleToStartNext :
    (s.switchPolicy draws policy p).isEligibleToStartNext a = s.isEligibleToStartNext a := by
  by_cases ha : a = p
  · subst ha
    have hcan : (s.switchPolicy draws policy a).canRunMore a = s.canRunMore a := by
      rw [canRunMore, switchPolicy_group_self]
      rfl
    rw [isEligibleToStartNext, isEligibleToStartNext, hcan, switchPolicy_group_self,
      switchPolicy_eligibleSubGroups_self, requeue_isEmpty, requeue_isEmpty]
  · exact isEligibleToStartNext_congr (switchPolicy_group_of_ne ha) rfl
      (switchPolicy_eligibleSubGroups_of_ne ha)

theorem AllCurrent.switchPolicy
    (h : AllCurrent t s) (hparent : s.parentUsesQueryPriority p = false) :
    AllCurrent t (s.switchPolicy draws policy p) := by
  intro a ha
  cases a with
  | nil => trivial
  | cons m q =>
      by_cases hq : q = p
      · subst hq
        refine ⟨?_, ?_⟩
        · rw [switchPolicy_isEligibleToStartNext, switchPolicy_eligibleSubGroups_self,
            (Queue.requeue_elements_perm _ _ _ _).mem_iff]
          exact (h _ ha).1
        · intro hpolicy v hv
          rw [switchPolicy_group_self] at hpolicy
          dsimp only at hpolicy
          rw [switchPolicy_eligibleSubGroups_self, Queue.mem_requeue] at hv
          rw [switchPolicy_group_of_ne (cons_ne_self m q), hv.2, hpolicy]
          rfl
      · have hentries : ∀ v,
            (m, v) ∈ ((s.switchPolicy draws policy p).eligibleSubGroups q).entries ↔
              (m, v) ∈ (s.eligibleSubGroups q).entries := by
          intro v
          rw [switchPolicy_eligibleSubGroups_of_ne hq]
        by_cases hp : m :: q = p
        · -- The parent does not order its sub groups by the priorities of their queries.
          subst hp
          refine ⟨?_, ?_⟩
          · rw [switchPolicy_isEligibleToStartNext, switchPolicy_eligibleSubGroups_of_ne hq]
            exact (h _ ha).1
          · intro hpolicy
            rw [switchPolicy_group_of_ne hq] at hpolicy
            exact absurd hpolicy (by simpa [parentUsesQueryPriority] using hparent)
        · refine (h _ ha).congr switchPolicy_isEligibleToStartNext ?_ ?_ hentries
          · rw [switchPolicy_group_of_ne hq]
          · rw [switchPolicy_group_of_ne hp]

/-! ## Switching a whole subtree to query priority scheduling -/

theorem useQueryPriority_group_of_not_suffix (below : ℕ) (ha : ¬ p <:+ a) :
    (s.useQueryPriority t draws below p).group a = s.group a := by
  have hne : ∀ {p}, ¬ p <:+ a → a ≠ p := fun hp => (ne_of_not_suffix hp).symm
  induction below generalizing p s with
  | zero =>
      rw [useQueryPriority]
      split
      · rfl
      · exact switchPolicy_group_of_ne (hne ha)
  | succ below ih =>
      rw [useQueryPriority]
      split
      · rfl
      · rw [switchPolicy_group_of_ne (hne ha)]
        refine foldlRecOn (motive := fun s' : Groups => s'.group a = s.group a) _ _ rfl ?_
        intro s' hs' n _
        rw [ih fun hsuffix => ha (below_of_child hsuffix).1, hs']

/-- Sub groups are switched first, so the parent of a switched group still has its old policy. -/
theorem AllCurrent.useQueryPriority
    (below : ℕ) (h : AllCurrent t s) (hparent : s.parentUsesQueryPriority p = false) :
    AllCurrent t (s.useQueryPriority t draws below p) := by
  induction below generalizing p s with
  | zero =>
      rw [Groups.useQueryPriority]
      split
      · exact h
      · exact h.switchPolicy hparent
  | succ below ih =>
      rw [Groups.useQueryPriority]
      split
      · exact h
      · rename_i hpolicy
        have hloop := foldlRecOn
          (motive := fun s' : Groups => AllCurrent t s' ∧
            ∀ a, ¬ Below p a → s'.group a = s.group a)
          (t.children p) (fun s n => s.useQueryPriority t draws below (n :: p))
          ⟨h, fun _ _ => rfl⟩ ?_
        · refine hloop.1.switchPolicy ?_
          cases p with
          | nil => exact hparent
          | cons m q =>
              rw [parentUsesQueryPriority, hloop.2 q fun h => not_cons_suffix_self m q h.1]
              exact hparent
        intro s' hs' n _
        have hself : s'.group p = s.group p := hs'.2 p Below.irrefl
        refine ⟨ih hs'.1 (by simpa [parentUsesQueryPriority, hself] using hpolicy), ?_⟩
        intro a ha
        rw [useQueryPriority_group_of_not_suffix below fun hsuffix => ha (below_of_child hsuffix),
          hs'.2 a ha]

/-- All groups of the subtree are switched. -/
theorem useQueryPriority_schedulingPolicy (below : ℕ) (h : InheritsFrom t p s)
    (hbelow : t.height ≤ p.length + below) (hq : q ∈ t.ids) (hsuffix : p <:+ q) :
    ((s.useQueryPriority t draws below p).group q).schedulingPolicy = .queryPriority := by
  induction below generalizing p s with
  | zero =>
      have hqp : q = p :=
        (hsuffix.eq_of_length_le (by have := t.length_le_height hq; omega)).symm
      rw [useQueryPriority, hqp]
      split
      · assumption
      · rw [switchPolicy_group_self]
  | succ below ih =>
      rw [useQueryPriority]
      split
      · rename_i hpolicy
        exact h.below hpolicy hq hsuffix
      by_cases hqp : q = p
      · rw [hqp, switchPolicy_group_self]
      rw [switchPolicy_group_of_ne hqp]
      obtain ⟨n, hn⟩ := Below.exists_child ⟨hsuffix, fun heq => hqp heq.symm⟩
      -- The subtree with `q` is as before until its turn comes, and switched from then on.
      have hloop := ListUpdates.foldl_induction
        (motive := fun processed s' => (∀ m, m ∉ processed → ∀ a, (m :: p) <:+ a →
            s'.group a = s.group a) ∧
          (n ∈ processed → (s'.group q).schedulingPolicy = .queryPriority))
        (t.children p) (fun s n => s.useQueryPriority t draws below (n :: p)) s
        ⟨fun _ _ _ _ => rfl, fun hn => absurd hn not_mem_nil⟩ ?_
      · exact hloop.2 (t.mem_children.mpr (t.mem_of_suffix hn hq))
      intro processed s' m hinit hs'
      have hnodup : m ∉ processed := (nodup_cons.mp
        (nodup_append_comm.mp ((t.nodup_children p).sublist hinit.sublist))).1
      refine ⟨?_, ?_⟩
      · intro k hk a ha
        have hkm : k ≠ m := by
          rintro rfl
          exact hk (by simp)
        rw [useQueryPriority_group_of_not_suffix below fun hma => hkm (child_unique ha hma)]
        exact hs'.1 k (fun hmem => hk (by simp [hmem])) a ha
      · intro hnmem
        by_cases hnm : n = m
        · subst hnm
          refine ih ?_ (by rw [length_cons]; omega) hn
          intro k r hkr hr
          rw [hs'.1 n hnodup r hr, hs'.1 n hnodup _ (hr.trans (suffix_cons k r))]
          exact h k r hkr (below_of_child hr).1
        · rw [useQueryPriority_group_of_not_suffix below fun hma => hnm (child_unique hn hma)]
          exact hs'.2 (by simpa [hnm] using hnmem)

end Presto.ResourceGroups.Groups
