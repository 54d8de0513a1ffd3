import Presto.Execution.ResourceGroups.ThrowingCalls

/-!
# Runs without an overflow of tickets

As long as the tickets of the sub groups of a group fit in 64 bits, no queue fails, and every call
does what it does without exceptions.
-/

namespace Presto.ResourceGroups

open Groups List

/-! ## Tickets -/

namespace Queue

variable {E : Type} [DecidableEq E] {q : Queue E}

/-- A queue that can be polled until it is empty. -/
def Drawable (q : Queue E) : Prop :=
  q.kind = .stochastic → (∀ e v, (e, v) ∈ q.entries → 0 ≤ v) ∧ q.totalTickets < 2 ^ 63

theorem Drawable.tryPoll (h : q.Drawable) (draw : ℕ) : q.tryPoll draw = .ok (q.poll draw) :=
  if_neg fun hoverflow => absurd hoverflow.2 (not_le.mpr (h hoverflow.1).2)

theorem totalTickets_remove_le (h : ∀ e v, (e, v) ∈ q.entries → 0 ≤ v) (e : E) :
    (q.remove e).totalTickets ≤ q.totalTickets := by
  refine (filter_sublist.map Prod.snd).sum_le_sum ?_
  intro v hv
  obtain ⟨entry, hentry, rfl⟩ := mem_map.mp hv
  exact h entry.1 entry.2 hentry

theorem Drawable.remove (h : q.Drawable) (e : E) : (q.remove e).Drawable := by
  intro hkind
  obtain ⟨hnonneg, hsum⟩ := h hkind
  refine ⟨?_, (totalTickets_remove_le hnonneg e).trans_lt hsum⟩
  intro e' v hv
  exact hnonneg e' v (mem_of_mem_filter hv)

/-- Tickets that are bounded for each element of a set. -/
theorem totalTickets_le {all : Finset E} {bound : E → ℤ}
    (h : ∀ e v, (e, v) ∈ q.entries → v ≤ bound e ∧ e ∈ all) (hbound : ∀ e ∈ all, 0 ≤ bound e) :
    q.totalTickets ≤ ∑ e ∈ all, bound e := by
  have hsum : q.totalTickets ≤ (q.elements.map bound).sum := by
    rw [totalTickets, elements, map_map]
    refine sum_le_sum ?_
    rintro ⟨e, v⟩ hentry
    exact (h e v hentry).1
  rw [← sum_toFinset bound (show q.elements.Nodup from q.nodup)] at hsum
  refine hsum.trans (Finset.sum_le_sum_of_subset_of_nonneg ?_ fun e he _ => hbound e he)
  intro e he
  obtain ⟨v, hv⟩ := mem_elements.mp (mem_toFinset.mp he)
  exact (h e v hv).2

end Queue

namespace Call

variable {t : PathTree String} {s s' : Groups} {p : ResourceGroupId} {n : String} {α β : Type}

/-- The weights are positive, and what a group with the weighted policy draws from has less than
`2 ^ 63` tickets, however many of its sub groups can start a query. -/
structure TicketsFit (t : PathTree String) (s : Groups) : Prop where
  weight : ∀ p ∈ t.ids, 0 < (s.group p).schedulingWeight
  subGroups : ∀ p ∈ t.ids, (s.group p).schedulingPolicy = .weighted →
    ∑ n ∈ (t.children p).toFinset, integerMax * (s.group (n :: p)).schedulingWeight < 2 ^ 63
  queries : ∀ p ∈ t.ids, (s.group p).schedulingPolicy = .weighted →
    (s.group p).queuedQueries.totalTickets < 2 ^ 63

/-- Every sub group can be added to the queue of its parent. -/
structure Ready (t : PathTree String) (s : Groups) : Prop where
  weight : ∀ p ∈ t.ids, 0 < (s.group p).schedulingWeight
  fits : FitsPolicies t s
  inherits : InheritsFrom t [] s

theorem Ready.keeps (h : Ready t s) (hkeeps : KeepsQueues s s') : Ready t s' := by
  refine ⟨?_, hkeeps.fitsPolicies h.fits, h.inherits.of_policy hkeeps.policy⟩
  intro p hp
  rw [hkeeps.weight]
  exact h.weight p hp

theorem bind_of_ok {call : Call α} {f : α → Call β} {a : α} (h : call s = .ok a s') :
    (call >>= f) s = f a s' := by
  change EStateM.bind call f s = _
  rw [EStateM.bind, h]

theorem bind_of_error {call : Call α} {f : α → Call β} {e : Abrupt} (h : call s = .error e s') :
    (call >>= f) s = .error e s' := by
  change EStateM.bind call f s = _
  rw [EStateM.bind, h]

theorem addToQueue_eq {queue : Queue String}
    (hkind : queue.kind = (s.group p).schedulingPolicy.subGroupQueue)
    (hweight : 0 < (s.group (n :: p)).schedulingWeight)
    (hordered : (s.group p).schedulingPolicy = .queryPriority →
      (s.group (n :: p)).queuedQueries.kind = .indexedPriority) :
    addToQueue p s n queue = .ok (queue.addOrUpdate n
      ((s.group (n :: p)).getSubGroupSchedulingPriority (s.group p).schedulingPolicy)) := by
  have hpositive : 0 < (s.group (n :: p)).computeSchedulingWeight := by
    rcases computeSchedulingWeight_cases (s.group (n :: p)) with h | h <;> rw [h]
    · exact hweight
    · exact mul_pos (by decide) hweight
  unfold addToQueue
  cases hpolicy : (s.group p).schedulingPolicy with
  | fair => simp [hkind, hpolicy, SchedulingPolicy.subGroupQueue]
  | weighted =>
      simp [hkind, hpolicy, SchedulingPolicy.subGroupQueue,
        InternalResourceGroup.getSubGroupSchedulingPriority, hpositive]
  | weightedFair => simp [hkind, hpolicy, SchedulingPolicy.subGroupQueue, hweight]
  | queryPriority => simp [hkind, hpolicy, SchedulingPolicy.subGroupQueue, hordered hpolicy]

theorem addOrUpdateSubGroup_eq (h : Ready t s) (hn : n :: p ∈ t.ids) :
    addOrUpdateSubGroup p n s = .ok () (s.addOrUpdateSubGroup p n) := by
  have hp := t.parent_mem n p hn
  rw [addOrUpdateSubGroup, attempt, addToQueue_eq (h.fits p hp).2.1 (h.weight _ hn)]
  · rfl
  · intro hpolicy
    rw [(h.fits _ hn).1.1, h.inherits n p hn nil_suffix hpolicy]
    rfl

theorem updateEligibility_eq (h : Ready t s) (hp : p ∈ t.ids) :
    updateEligibility p s = .ok () (s.updateEligibility p) := by
  induction p generalizing s with
  | nil => rfl
  | cons n p ih =>
      have hparent := t.parent_mem n p hp
      rw [updateEligibility, Groups.updateEligibility]
      change (ite _ _ _ : Call Unit) s = _
      split
      · exact (bind_of_ok (addOrUpdateSubGroup_eq h hp)).trans
          (ih (h.keeps (.addOrUpdateSubGroup s p n)) hparent)
      · exact ih (h.keeps (.removeSubGroup s p n)) hparent

variable {query : Query}

theorem startInBackground_eq (h : Ready t s) (hp : p ∈ t.ids) :
    startInBackground p query s = .ok () (s.startInBackground p query) :=
  updateEligibility_eq (h.keeps (.alongPath p s)) hp

theorem enqueueQuery_eq (h : Ready t s) (hp : p ∈ t.ids) (hpositive : 0 < query.queryPriority) :
    enqueueQuery p query s = .ok () (s.enqueueQuery p query) :=
  updateEligibility_eq (h.keeps (.alongPath p s fun _ hg => hg.addOrUpdate hpositive)) hp

theorem run_eq (h : Ready t s) (hp : p ∈ t.ids) :
    run t p query s = attempt (fun s => s.run t p query) s := by
  unfold attempt Groups.run
  dsimp only
  change (ite _ _ _ : Call Bool) s = _
  split
  · rfl
  split
  · rfl
  split
  · exact bind_of_ok (startInBackground_eq h hp)
  split
  · rfl
  · rename_i hpositive
    exact bind_of_ok (enqueueQuery_eq h hp (not_le.mp hpositive))

theorem queryFinished_eq (h : Ready t s) (hp : p ∈ t.ids) (cpuTimeMillis : ℕ) (counts : Bool) :
    queryFinished p query cpuTimeMillis counts s =
      .ok () (s.queryFinished p query cpuTimeMillis counts) := by
  have hcpu := h.keeps (.countCpuTime p cpuTimeMillis counts s)
  change (ite _ _ _ : Call Unit) s = _
  split
  · rename_i hrunning
    rw [queryFinished_of_running hrunning]
    exact updateEligibility_eq (hcpu.keeps (.alongPath p _)) hp
  rename_i hrunning
  split
  · rename_i hqueued
    rw [queryFinished_of_queued hrunning hqueued]
    exact updateEligibility_eq (hcpu.keeps (.alongPath p _ fun _ hg => hg.remove)) hp
  · rename_i hqueued
    rw [queryFinished_of_not_held (not_or.mpr ⟨hrunning, hqueued⟩)]
    rfl

/-- The outcome of a call that checks its argument first. -/
def checked (s : Groups) : Result Groups → EStateM.Result Abrupt Groups Unit
  | .ok s' => .ok () s'
  | .error e => .error (.throws e) s

theorem attempt_eq (f : Groups → Result Groups) :
    attempt (fun s => (f s).map ((), ·)) s = checked s (f s) := by
  rw [attempt]
  cases f s <;> rfl

section Limits

variable {f g : InternalResourceGroup → InternalResourceGroup} {P : Prop} [Decidable P]
  (h : Ready t s) (hf : ∀ g, unconfigured (f g) = unconfigured g) (hp : p ∈ t.ids)

include h hf hp

theorem setLimit_eq : setLimit p f s = .ok () (s.setLimit p f) := by
  rw [Groups.setLimit]
  change (ite _ _ _ : Call Unit) (s.modify p f) = _
  split
  · exact updateEligibility_eq
      (h.keeps (.modify_same p s fun g => queues_of_unconfigured (hf g))) hp
  · rfl

/-- A limit that another limit may have to follow. -/
theorem setLimits_eq (hg : ∀ g', unconfigured (g g') = unconfigured g') :
    (if P then do setLimit p f; setLimit p g else setLimit p g : Call Unit) s =
      .ok () ((if P then s.setLimit p f else s).setLimit p g) := by
  split
  · exact (bind_of_ok (setLimit_eq h hf hp)).trans
      (setLimit_eq (h.keeps (Reconfigured.limit .refl hf).keepsQueues) hg hp)
  · exact setLimit_eq h hg hp

theorem checkedLimit_eq {e : Throwable} :
    (if P then setLimit p f else throw (.throws e) : Call Unit) s =
      checked s (if P then .ok (s.setLimit p f) else .error e) := by
  split
  · exact setLimit_eq h hf hp
  · rfl

end Limits

/-! ## Refreshing -/

/-- A loop whose rounds return what the functions return that keep an invariant. -/
theorem forM_eq {I : Groups → Prop} {call : String → Call Unit} {f : Groups → String → Groups}
    {l : List String} (h : ∀ s, I s → ∀ n ∈ l, call n s = .ok () (f s n) ∧ I (f s n)) (hs : I s) :
    l.forM call s = .ok () (l.foldl f s) := by
  induction l generalizing s with
  | nil => rfl
  | cons n l ih =>
      obtain ⟨hcall, hn⟩ := h s hs n mem_cons_self
      exact (bind_of_ok hcall).trans (ih (fun s hs m hm => h s hs m (mem_cons_of_mem n hm)) hn)

theorem internalRefreshStats_eq (memory : Query → ℕ) (iteration : HashOrder) (below : ℕ)
    (h : Ready t s) (hdirty : DirtyWithin t s) (hp : p ∈ t.ids) :
    internalRefreshStats t memory iteration below p s =
      .ok () (s.internalRefreshStats t memory iteration below p) := by
  induction below generalizing p s with
  | zero => rfl
  | succ below ih =>
      rw [internalRefreshStats, Groups.internalRefreshStats]
      split
      · rfl
      refine forM_eq (I := fun s => Ready t s ∧ DirtyWithin t s) ?_ ⟨h, hdirty⟩
      rintro s₀ ⟨h₀, hdirty₀⟩ n hn
      have hchild : n :: p ∈ t.ids :=
        t.mem_children.mp ((hdirty p hp).2 n ((iteration.perm _).mem_iff.mp hn))
      have hkeeps : ∀ q s, KeepsQueues s (s.internalRefreshStats t memory iteration below q) :=
        .internalRefreshStats memory iteration below
      have hbelow : Ready t (s₀.addMemory p (-(s₀.group (n :: p)).cachedMemoryUsageBytes)) :=
        h₀.keeps (.modify_same p s₀)
      refine ⟨?_, h₀.keeps (refreshSubGroup_related .refl .trans .memoryUpdated
        .updateEligibility hkeeps p s₀ n), hdirty₀.refreshed (.refreshSubGroup
          (.internalRefreshStats memory iteration below) p s₀ n)⟩
      refine (bind_of_ok (ih hbelow (hdirty₀.refreshed (.addMemory p _ s₀)) hchild)).trans ?_
      have hclean : ∀ s : Groups, KeepsQueues s (s.removeClean p n) := by
        intro s
        unfold removeClean
        split
        · exact .refl s
        · exact .modify_same p s
      rw [Groups.refreshSubGroup]
      change (ite _ _ _ : Call Unit) _ = _
      split
      · exact updateEligibility_eq (((hbelow.keeps (hkeeps (n :: p) _)).keeps
          (.modify_same p _)).keeps (hclean _)) hchild
      · rfl

/-! ## Starting queries -/

theorem eq_weighted {policy : SchedulingPolicy}
    (h : policy.subGroupQueue = .stochastic ∨ policy.queryQueue = .stochastic) :
    policy = .weighted := by
  cases policy <;> revert h <;> decide

theorem TicketsFit.eligible (h : TicketsFit t s) (hfits : FitsPolicies t s)
    (hwithin : EligibleWithin t s) (hp : p ∈ t.ids) : (s.eligibleSubGroups p).Drawable := by
  intro hkind
  have hpolicy : (s.group p).schedulingPolicy = .weighted :=
    eq_weighted (.inl ((hfits p hp).2.1.symm.trans hkind))
  have hweight : ∀ n ∈ t.children p, 0 < (s.group (n :: p)).schedulingWeight :=
    fun n hn => h.weight _ (t.mem_children.mp hn)
  have hentry : ∀ n v, (n, v) ∈ (s.eligibleSubGroups p).entries → n ∈ t.children p ∧
      0 ≤ v ∧ v ≤ integerMax * (s.group (n :: p)).schedulingWeight := by
    intro n v hv
    have hn := hwithin p hp n (Queue.mem_elements.mpr ⟨v, hv⟩)
    have hpositive := hweight n hn
    refine ⟨hn, ?_⟩
    rcases (hfits p hp).2.2 hpolicy n v hv with rfl | rfl <;> unfold integerMax <;> omega
  refine ⟨fun n v hv => (hentry n v hv).2.1, ?_⟩
  refine (Queue.totalTickets_le ?_ ?_).trans_lt (h.subGroups p hp hpolicy)
  · intro n v hv
    exact ⟨(hentry n v hv).2.2, mem_toFinset.mpr (hentry n v hv).1⟩
  · intro n hn
    exact mul_nonneg (by decide) (hweight n (mem_toFinset.mp hn)).le

theorem nonneg_of_wellQueued {g : InternalResourceGroup} (h : WellQueued g) (query : Query)
    (v : ℤ) (hv : (query, v) ∈ g.queuedQueries.entries) : 0 ≤ v := by
  obtain ⟨rfl, hpositive⟩ := h.2 query v hv
  exact hpositive.le

theorem TicketsFit.queued (h : TicketsFit t s) (hfits : FitsPolicies t s) (hp : p ∈ t.ids) :
    (s.group p).queuedQueries.Drawable := by
  obtain ⟨hqueued, -, -⟩ := hfits p hp
  intro hkind
  exact ⟨nonneg_of_wellQueued hqueued,
    h.queries p hp (eq_weighted (.inr (hqueued.1.symm.trans hkind)))⟩

theorem poll_eq {E : Type} [DecidableEq E] {q : Queue E} (h : q.Drawable) (draw : ℕ) :
    poll q draw s = .ok (q.poll draw) s := by
  rw [poll, attempt, h.tryPoll]
  rfl

/-- The outcome of a call that does not fail for its queues. -/
def ofOutcome : Outcome α × Groups → EStateM.Result Abrupt Groups α
  | (.ok a, s) => .ok a s
  | (.error e, s) => .error e s

theorem ofOutcome_ok {next : Outcome α × Groups} {a : α} (h : next.1 = .ok a) :
    ofOutcome next = .ok a next.2 := by
  obtain ⟨outcome, s⟩ := next
  obtain rfl : outcome = .ok a := h
  rfl

theorem subGroupStarted_eq (h : Ready t s) (hn : n :: p ∈ t.ids) :
    subGroupStarted p n s = .ok () (s.subGroupStarted p n) := by
  rw [Groups.subGroupStarted]
  change (ite _ _ _ : Call Unit) _ = _
  split
  · exact addOrUpdateSubGroup_eq (h.keeps (.modify_same p s)) hn
  · rfl

theorem internalStartNext_eq (draw : ResourceGroupId → ℕ) (below : ℕ) (hp : p ∈ t.ids)
    (h : Ready t s) (hfit : TicketsFit t s) (hwithin : EligibleWithin t s) :
    internalStartNext draw below p s = ofOutcome (s.internalStartNext draw below p) := by
  induction below using Nat.strong_induction_on generalizing p s with
  | _ below ih =>
  unfold internalStartNext Groups.internalStartNext
  change (ite _ _ _ : Call Bool) s = _
  split
  · rfl
  refine (bind_of_ok (poll_eq (hfit.queued h.fits hp) (draw p))).trans ?_
  cases hpoll : (s.group p).queuedQueries.poll (draw p) with
  | some taken =>
      obtain ⟨query, queuedQueries⟩ := taken
      obtain ⟨-, rfl⟩ := Queue.poll_eq_some hpoll
      exact bind_of_ok (startInBackground_eq (h.keeps (.dequeue p query s)) hp)
  | none =>
      refine (bind_of_ok (poll_eq (hfit.eligible h.fits hwithin hp) (draw p))).trans ?_
      cases heligible : (s.eligibleSubGroups p).poll (draw p) with
      | none => rfl
      | some taken =>
          obtain ⟨n, eligibleSubGroups⟩ := taken
          obtain ⟨hn, rfl⟩ := Queue.poll_eq_some heligible
          have hchild := t.mem_children.mp (hwithin p hp n hn)
          have hremoved := KeepsQueues.removeSubGroup s p n
          cases below with
          | zero => rfl
          | succ below =>
              have hsub := ih below (Nat.lt_succ_self below) hchild (h.keeps hremoved)
                ⟨hfit.weight, hfit.subGroups, hfit.queries⟩ hwithin.removeSubGroup
              have hkeeps := hremoved.trans (.internalStartNext draw below (n :: p) _)
              change (internalStartNext draw below (n :: p) >>= _) (s.removeSubGroup p n) = _
              dsimp only
              rw [show (s.modifyEligible p fun _ => (s.eligibleSubGroups p).remove n) =
                s.removeSubGroup p n from rfl]
              generalize Groups.internalStartNext draw below (n :: p) (s.removeSubGroup p n) =
                next at hsub hkeeps ⊢
              obtain ⟨e | started, s'⟩ := next
              · exact bind_of_error hsub
              cases started with
              | false => exact bind_of_ok hsub
              | true =>
                  exact (bind_of_ok hsub).trans
                    (bind_of_ok (subGroupStarted_eq (h.keeps hkeeps) hchild))

theorem startNext_eq (draw : ResourceGroupId → ℕ) (h : Ready t s) (hfit : TicketsFit t s)
    (hwithin : EligibleWithin t s) : startNext t draw s = ofOutcome (s.startNext t draw) :=
  internalStartNext_eq draw t.height t.root_mem h hfit hwithin

/-- Queries that leave the queues take their tickets with them. -/
theorem TicketsFit.keeps (h : TicketsFit t s) (hkeeps : KeepsQueues s s')
    (hqueries : ∀ p ∈ t.ids,
      (s'.group p).queuedQueries.totalTickets ≤ (s.group p).queuedQueries.totalTickets) :
    TicketsFit t s' := by
  refine ⟨?_, ?_, ?_⟩
  · intro p hp
    rw [hkeeps.weight]
    exact h.weight p hp
  · intro p hp
    simp only [hkeeps.weight, hkeeps.policy]
    exact h.subGroups p hp
  · intro p hp hpolicy
    rw [hkeeps.policy] at hpolicy
    exact (hqueries p hp).trans_lt (h.queries p hp hpolicy)

theorem TicketsFit.startNext (draw : ResourceGroupId → ℕ) (h : TicketsFit t s)
    (hfits : FitsPolicies t s) : TicketsFit t (s.startNext t draw).2 := by
  refine h.keeps (.startNext draw s) ?_
  intro p hp
  rcases startNext_cases t draw s with ⟨-, hgroup, -⟩ | ⟨-, x, query, hstarted, -⟩
  · rw [hgroup]
  rcases on_path_cases p x with rfl | ⟨n, hn⟩ | hnot
  · rw [hstarted.place]
    exact Queue.totalTickets_remove_le (nonneg_of_wellQueued (hfits p hp).1) query
  · rw [hstarted.between p n nil_suffix hn]
    rfl
  · rw [hstarted.other p hnot]

theorem startAll_eq (draws : ℕ → ResourceGroupId → ℕ) (rounds : ℕ) (h : Ready t s)
    (hfit : TicketsFit t s) (htidy : Tidy t s) :
    startAll t draws rounds s = ofOutcome (s.startAll t draws rounds) := by
  induction rounds generalizing s with
  | zero => rfl
  | succ rounds ih =>
      have hnext := startNext_eq (draws rounds) h hfit htidy.eligible
      have hready := h.keeps (.startNext (t := t) (draws rounds) s)
      have hfit' := hfit.startNext (draws rounds) h.fits
      have htidy' := (htidy.startNext (draws rounds)).1
      rw [Groups.startAll]
      generalize s.startNext t (draws rounds) = next at hnext hready hfit' htidy' ⊢
      obtain ⟨e | started, s'⟩ := next
      · exact bind_of_error hnext
      cases started with
      | false => exact bind_of_ok hnext
      | true => exact (bind_of_ok hnext).trans (ih hready hfit' htidy')

theorem refreshStats_eq (memory : Query → ℕ) (iteration : HashOrder) (h : Ready t s)
    (hdirty : DirtyWithin t s) :
    refreshStats t memory iteration s = .ok () (s.refreshStats t memory iteration) :=
  internalRefreshStats_eq memory iteration t.height h hdirty t.root_mem

theorem processQueuedQueries_eq (memory : Query → ℕ) (iteration : HashOrder)
    (draws : ℕ → ResourceGroupId → ℕ) (h : Ready t s) (hfit : TicketsFit t s)
    (htidy : Tidy t s) :
    processQueuedQueries t memory iteration draws s =
      ofOutcome (s.processQueuedQueries t memory iteration draws) := by
  have hkeeps : KeepsQueues s (s.refreshStats t memory iteration) :=
    .internalRefreshStats memory iteration t.height [] s
  refine (bind_of_ok (refreshStats_eq memory iteration h htidy.dirty)).trans
    (startAll_eq draws _ (h.keeps hkeeps) (hfit.keeps hkeeps ?_)
      (htidy.refreshStats memory iteration))
  intro p _
  obtain ⟨bytes, dirty, -, hgroup⟩ := (Refreshed.refreshStats memory iteration s).group p
  rw [hgroup]

/-! ## Changing the policy -/

/-- The elements are added in the order of the draws, whatever else the loop stores. -/
theorem moveAll_eq {E : Type} [DecidableEq E] {store : Queue E → Groups → Groups}
    (add : Groups → E → Queue E → Result (Queue E)) (priority : E → ℤ) (draws : ℕ → ℕ) (count : ℕ)
    (new : Queue E) {old : Queue E} {kind : QueueKind}
    (hstore : ∀ q r s, store q (store r s) = store q s) (hold : old.Drawable)
    (hnew : new.kind = kind)
    (hadd : ∀ r e (queue : Queue E), queue.kind = kind → e ∈ old.elements →
      add (store r s) e queue = .ok (queue.addOrUpdate e (priority e))) :
    ∃ s', moveAll store add draws count old new s = .ok ((Queue.drain draws count old).foldl
        (fun queue e => queue.addOrUpdate e (priority e)) new) s' ∧
      ∀ q, store q s' = store q s := by
  induction count generalizing old new s with
  | zero => exact ⟨s, rfl, fun _ => rfl⟩
  | succ count ih =>
      have hpoll := poll_eq (s := s) hold (draws count)
      rw [Queue.drain]
      cases hnext : old.poll (draws count) with
      | none =>
          rw [hnext] at hpoll
          exact ⟨s, bind_of_ok hpoll, fun _ => rfl⟩
      | some taken =>
          obtain ⟨e, rest⟩ := taken
          rw [hnext] at hpoll
          obtain ⟨he, rfl⟩ := Queue.poll_eq_some hnext
          obtain ⟨s', hs', hsame⟩ := ih (new.addOrUpdate e (priority e))
            (s := store (old.remove e) s) (hold.remove e) (by simpa using hnew) (by
              intro r e' queue hkind he'
              rw [hstore]
              exact hadd r e' queue hkind (Queue.mem_elements_remove.mp he').2)
          refine ⟨s', ?_, fun q => (hsame q).trans (hstore q _ s)⟩
          have hadded : attempt (fun s => (add s e new).map (·, s)) (store (old.remove e) s) =
              .ok (new.addOrUpdate e (priority e)) (store (old.remove e) s) := by
            rw [attempt, hadd _ e new hnew he]
            rfl
          exact (bind_of_ok hpoll).trans ((bind_of_ok hadded).trans hs')

variable {draws : ResourceGroupId → ℕ → ℕ} {policy : SchedulingPolicy}

/-- What a group can be switched to another policy in. -/
structure Switchable (t : PathTree String) (s : Groups) : Prop extends TicketsFit t s where
  fits : FitsPolicies t s
  within : EligibleWithin t s

theorem Switchable.switchPolicy (h : Switchable t s) :
    Switchable t (s.switchPolicy draws .queryPriority p) := by
  have hother : ∀ {a}, ((s.switchPolicy draws .queryPriority p).group a).schedulingPolicy =
      .weighted → a ≠ p := by
    rintro a hpolicy rfl
    rw [switchPolicy_group_self] at hpolicy
    cases hpolicy
  refine ⟨⟨?_, ?_, ?_⟩, h.fits.switchPolicy, h.within.switchPolicy⟩
  · intro a ha
    rw [switchPolicy_schedulingWeight]
    exact h.weight a ha
  · intro a ha hpolicy
    simp only [switchPolicy_schedulingWeight]
    rw [switchPolicy_group_of_ne (hother hpolicy)] at hpolicy
    exact h.subGroups a ha hpolicy
  · intro a ha hpolicy
    have hne := hother hpolicy
    rw [switchPolicy_group_of_ne hne] at hpolicy ⊢
    exact h.queries a ha hpolicy

theorem setEligible_setEligible (p : ResourceGroupId) (q r : Queue String) (s : Groups) :
    setEligible p q (setEligible p r s) = setEligible p q s := by
  simp [setEligible, modifyEligible]

theorem setQueued_setQueued (p : ResourceGroupId) (q r : Queue Query) (s : Groups) :
    setQueued p q (setQueued p r s) = setQueued p q s := by
  simp [setQueued, Groups.modify]

theorem switchPolicy_eq (h : Switchable t s) (hp : p ∈ t.ids)
    (hordered : policy = .queryPriority →
      ∀ n ∈ t.children p, (s.group (n :: p)).schedulingPolicy = .queryPriority) :
    switchPolicy draws policy p s = .ok () (s.switchPolicy draws policy p) := by
  let s₀ := s.modify p fun g => { g with schedulingPolicy := policy }
  have hchild : ∀ n, s₀.group (n :: p) = s.group (n :: p) := fun n =>
    modify_group_of_ne (cons_ne_self n p)
  have hadd : ∀ r n (queue : Queue String), queue.kind = policy.subGroupQueue →
      n ∈ (s.eligibleSubGroups p).elements → addToQueue p (setEligible p r s₀) n queue =
        .ok (queue.addOrUpdate n ((s₀.group (n :: p)).getSubGroupSchedulingPriority policy)) := by
    intro r n queue hkind hn
    have hmem := h.within p hp n hn
    have hid := t.mem_children.mp hmem
    have hself : ((setEligible p r s₀).group p).schedulingPolicy = policy := by
      simp [setEligible, s₀]
    have hsub : (setEligible p r s₀).group (n :: p) = s.group (n :: p) := hchild n
    rw [addToQueue_eq (hkind.trans (by rw [hself])), hself]
    · rfl
    · rw [hsub]
      exact h.weight _ hid
    · intro hpolicy
      rw [hself] at hpolicy
      rw [hsub, (h.fits _ hid).1.1, hordered hpolicy n hmem]
      rfl
  obtain ⟨s₁, hmoved, hs₁⟩ := moveAll_eq (s := s₀) _ _ (draws p) (s.eligibleSubGroups p).size
    (.empty policy.subGroupQueue) (setEligible_setEligible p)
    (h.eligible h.fits h.within hp) rfl hadd
  let queue := (s.eligibleSubGroups p).requeue (draws p) policy.subGroupQueue fun n =>
    (s₀.group (n :: p)).getSubGroupSchedulingPriority policy
  have hqueries : ((setEligible p queue s₁).group p).queuedQueries = (s.group p).queuedQueries := by
    rw [hs₁]
    simp [setEligible, s₀]
  obtain ⟨s₂, hmoved', hs₂⟩ := moveAll_eq (s := setEligible p queue s₁)
    (fun _ query queue => .ok (queue.addOrUpdate query query.queryPriority)) Query.queryPriority
    (draws p) (s.group p).queuedQueries.size (.empty policy.queryQueue) (setQueued_setQueued p)
    (h.queued h.fits hp) rfl fun _ _ _ _ _ => rfl
  change (moveAll (setEligible p) (addToQueue p) (draws p) (s.eligibleSubGroups p).size
    (s.eligibleSubGroups p) (.empty policy.subGroupQueue) >>= _) s₀ = _
  refine (bind_of_ok hmoved).trans ?_
  change (moveAll _ _ _ ((setEligible p queue s₁).group p).queuedQueries.size
    ((setEligible p queue s₁).group p).queuedQueries _ >>= _) (setEligible p queue s₁) = _
  rw [hqueries]
  refine (bind_of_ok hmoved').trans ?_
  refine congrArg (EStateM.Result.ok ()) ((hs₂ _).trans ?_)
  rw [hs₁, ← Queue.requeue]
  simp [setEligible, setQueued, Groups.switchPolicy, Groups.modify, modifyEligible, s₀, queue]

theorem useQueryPriority_self (below : ℕ) :
    ((s.useQueryPriority t draws below p).group p).schedulingPolicy = .queryPriority := by
  cases below <;> rw [Groups.useQueryPriority] <;> split
  all_goals first
    | assumption
    | rw [switchPolicy_group_self]

theorem useQueryPriority_children (below : ℕ) {l : List String} (hn : n ∈ l) :
    ((l.foldl (fun s n => s.useQueryPriority t draws below (n :: p)) s).group
      (n :: p)).schedulingPolicy = .queryPriority := by
  induction l generalizing s with
  | nil => cases hn
  | cons m l ih =>
      rcases mem_cons.mp hn with rfl | hn
      · refine foldlRecOn (motive := fun s : Groups =>
          (s.group (n :: p)).schedulingPolicy = .queryPriority) l _
          (useQueryPriority_self below) ?_
        intro s hs m _
        refine useQueryPriority_invariant (motive := fun s : Groups =>
          (s.group (n :: p)).schedulingPolicy = .queryPriority) ?_ below _ s hs
        intro q s hs
        by_cases hq : n :: p = q
        · rw [hq, switchPolicy_group_self]
        · rw [switchPolicy_group_of_ne hq]
          exact hs
      · exact ih hn

theorem useQueryPriority_eq (below : ℕ) (h : Switchable t s) (hp : p ∈ t.ids)
    (hbelow : t.height ≤ p.length + below) :
    useQueryPriority t draws below p s = .ok () (s.useQueryPriority t draws below p) := by
  induction below generalizing p s with
  | zero =>
      rw [useQueryPriority, Groups.useQueryPriority]
      change (ite _ _ _ : Call Unit) s = _
      rw [ite_not]
      split
      · rfl
      · refine switchPolicy_eq h hp ?_
        rw [t.children_eq_nil_of_height hbelow]
        exact fun _ n hn => absurd hn not_mem_nil
  | succ below ih =>
      rw [useQueryPriority, Groups.useQueryPriority]
      change (ite _ _ _ : Call Unit) s = _
      rw [ite_not]
      split
      · rfl
      have hkept : ∀ q s, Switchable t s → Switchable t (s.useQueryPriority t draws below q) :=
        useQueryPriority_invariant (fun _ _ hs => hs.switchPolicy) below
      refine (bind_of_ok (forM_eq (I := Switchable t) ?_ h)).trans (switchPolicy_eq ?_ hp ?_)
      · intro s hs n hn
        refine ⟨ih hs (t.mem_children.mp hn) ?_, hkept _ s hs⟩
        rw [length_cons]
        omega
      · exact foldlRecOn _ _ h fun s hs n _ => hkept _ s hs
      · intro _ n hn
        exact useQueryPriority_children below hn

theorem setSchedulingPolicy_eq (h : Switchable t s) (hp : p ∈ t.ids) :
    setSchedulingPolicy t p draws policy s =
      checked s (s.setSchedulingPolicy t draws p policy) := by
  rw [Groups.setSchedulingPolicy]
  change (ite _ _ _ : Call Unit) s = _
  split
  · rfl
  split
  · rfl
  split
  · exact useQueryPriority_eq t.height h hp (by omega)
  · rename_i hother
    exact switchPolicy_eq h hp fun hpolicy => absurd hpolicy hother

theorem setSchedulingWeight_eq {weight : ℤ} (h : Ready t s) (hp : p ∈ t.ids) :
    setSchedulingWeight p weight s = checked s (s.setSchedulingWeight p weight) := by
  rw [Groups.setSchedulingWeight]
  change (ite _ _ _ : Call Unit) s = _
  split
  · rename_i hpositive
    cases p with
    | nil => rfl
    | cons n parent =>
        have hparent : parent ≠ n :: parent := (cons_ne_self n parent).symm
        dsimp only
        change (ite _ _ _ : Call Unit) _ = _
        split
        · rename_i hupdate
          rw [addOrUpdateSubGroup, attempt, addToQueue_eq]
          · rfl
          · rw [modify_group_of_ne hparent]
            exact (h.fits parent (t.parent_mem n parent hp)).2.1
          · rw [modify_group_self]
            exact hpositive
          · intro hpolicy
            rw [hupdate.1] at hpolicy
            cases hpolicy
        · rfl
  · rfl

/-! ## Calls and runs -/

variable {c : Cluster} {op : Operation}

theorem perform_ok {call : Call α} {a : α} (h : call c.groups = .ok a s) :
    perform c call = { c with groups := s } := by
  rw [perform, h]

theorem perform_ofOutcome {call : Call α} {next : Outcome α × Groups}
    (h : call c.groups = ofOutcome next) : perform c call = { c with groups := next.2 } := by
  obtain ⟨outcome, s⟩ := next
  cases outcome <;> rw [perform, h] <;> rfl

theorem perform_checked {call : Call Unit} {next : Result Groups}
    (h : call c.groups = checked c.groups next) :
    perform c call = { c with groups := c.groups.after next } := by
  cases next <;> rw [perform, h] <;> rfl

theorem TicketsFit.ready (h : TicketsFit t c.groups) (horderly : Cluster.Orderly t c) :
    Ready t c.groups :=
  ⟨h.weight, horderly.fits, horderly.inherits⟩

/-- No call fails for its queues. -/
theorem execute_eq (horderly : Cluster.Orderly t c) (hfit : TicketsFit t c.groups)
    (hpossible : op.Possible t c) : execute t c op = c.execute t op := by
  have hready := hfit.ready horderly
  have hp := hpossible.target_mem
  cases op with
  | run p query =>
      rw [execute, run_eq (p := p) hready hp, attempt, Cluster.execute, Cluster.submit]
      cases c.groups.run t p query with
      | error e => rfl
      | ok next =>
          obtain ⟨admitted, s⟩ := next
          cases admitted <;> rfl
  | queryFinished p query cpuTimeMillis counts =>
      rw [execute, perform_ok (queryFinished_eq (p := p) hready hp cpuTimeMillis counts)]
      rfl
  | refreshStats memory iteration =>
      exact perform_ok (refreshStats_eq memory iteration hready horderly.tidy.dirty)
  | generateCpuQuota elapsedSeconds | setTaskLimitExceeded exceeded => rfl
  | startNext draw => exact perform_ofOutcome (startNext_eq draw hready hfit horderly.tidy.eligible)
  | processQueuedQueries memory iteration draws =>
      exact perform_ofOutcome (processQueuedQueries_eq memory iteration draws hready hfit
        horderly.tidy)
  | setSoftMemoryLimit p limit => exact perform_ok (setLimit_eq hready (fun _ => rfl) hp)
  | setSoftCpuLimit p limit | setHardCpuLimit p limit =>
      exact perform_ok (setLimits_eq hready (fun _ => rfl) hp fun _ => rfl)
  | setCpuQuotaGenerationMillisPerSecond p limit | setMaxQueuedQueries p limit =>
      exact perform_checked (attempt_eq _)
  | setSoftConcurrencyLimit p limit | setHardConcurrencyLimit p limit =>
      refine perform_checked (checkedLimit_eq (P := 0 ≤ limit) hready ?_ hp)
      exact fun _ => rfl
  | setSchedulingWeight p weight => exact perform_checked (setSchedulingWeight_eq hready hp)
  | setSchedulingPolicy draws p policy =>
      exact perform_checked
        (setSchedulingPolicy_eq ⟨hfit, horderly.fits, horderly.tidy.eligible⟩ hp)

/-- A run in which the tickets fit is a run without exceptions of the queues. -/
theorem Reachable.without_overflow {allowed : Cluster → Operation → Prop}
    (hreach : Reachable t allowed c) (hfit : ∀ {c op}, allowed c op → TicketsFit t c.groups) :
    ResourceGroups.Reachable t allowed c ∧ Cluster.Orderly t c := by
  induction hreach with
  | start hfresh => exact ⟨.start hfresh, .start hfresh⟩
  | step _ hpossible hallowed ih =>
      rw [execute_eq ih.2 (hfit hallowed) hpossible]
      exact ⟨.step ih.1 hpossible hallowed, ih.2.execute hpossible⟩

end Call
end Presto.ResourceGroups
