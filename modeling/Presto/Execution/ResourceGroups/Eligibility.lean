import Presto.Execution.ResourceGroups.AdmissionLimits

/-!
# Up-to-date eligible sub groups

The entry of a group in the queue of its parent is current when the group is in
the queue exactly if it is eligible to start a query and, for a parent with query
priority scheduling, its priority is the one of its first query.  An update of a
group repairs the entries of the whole path above it, so every call that changes
only groups on one path and then updates it keeps all entries current.
-/

namespace Presto.ResourceGroups.Groups

open Queue

variable {t : PathTree String} {s s' : Groups} {p q x : ResourceGroupId} {m n : String}
  {query : Query}

/-- The entry of a group in the queue of its parent is up to date. -/
def Current (s : Groups) : ResourceGroupId → Prop
  | [] => True
  | n :: p =>
      (n ∈ (s.eligibleSubGroups p).elements ↔ s.isEligibleToStartNext (n :: p) = true) ∧
        ((s.group p).schedulingPolicy = .queryPriority →
          ∀ v, (n, v) ∈ (s.eligibleSubGroups p).entries →
            v = (s.group (n :: p)).getHighestQueryPriority)

/-- All groups that are not on the path of `x` have current entries. -/
def CurrentOff (t : PathTree String) (x : ResourceGroupId) (s : Groups) : Prop :=
  ∀ a ∈ t.ids, ¬ a <:+ x → Current s a

/-- All groups have current entries. -/
def AllCurrent (t : PathTree String) (s : Groups) : Prop := ∀ a ∈ t.ids, Current s a

theorem AllCurrent.off (h : AllCurrent t s) (x : ResourceGroupId) : CurrentOff t x s :=
  fun a ha _ => h a ha

theorem CurrentOff.all_of_root (h : CurrentOff t [] s) : AllCurrent t s := by
  intro a ha
  cases a with
  | nil => trivial
  | cons n p => exact h (n :: p) ha (by simp)

/-- What the entry of a group depends on. -/
theorem Current.congr (h : Current s (n :: p))
    (heligible : s'.isEligibleToStartNext (n :: p) = s.isEligibleToStartNext (n :: p))
    (hpolicy : (s'.group p).schedulingPolicy = (s.group p).schedulingPolicy)
    (hpriority : (s'.group (n :: p)).getHighestQueryPriority =
      (s.group (n :: p)).getHighestQueryPriority)
    (hentries : ∀ v, (n, v) ∈ (s'.eligibleSubGroups p).entries ↔
      (n, v) ∈ (s.eligibleSubGroups p).entries) :
    Current s' (n :: p) := by
  obtain ⟨hmem, hcurrent⟩ := h
  refine ⟨?_, ?_⟩
  · rw [heligible, ← hmem, mem_elements, mem_elements]
    exact exists_congr hentries
  · intro hqueryPriority v hv
    rw [hpriority]
    exact hcurrent (hpolicy ▸ hqueryPriority) v ((hentries v).mp hv)

/-! ## Entries under updates of the queues -/

theorem addOrUpdateSubGroup_entries_of_other (hother : q ≠ p ∨ m ≠ n) (v : ℤ) :
    (m, v) ∈ ((s.addOrUpdateSubGroup p n).eligibleSubGroups q).entries ↔
      (m, v) ∈ (s.eligibleSubGroups q).entries := by
  by_cases hq : q = p
  · subst hq
    have hm := hother.resolve_left (not_not.mpr rfl)
    rw [addOrUpdateSubGroup, modifyEligible_eligibleSubGroups_self, mem_addOrUpdate]
    simp [hm]
  · rw [addOrUpdateSubGroup_eligibleSubGroups_of_ne hq]

theorem removeSubGroup_entries_of_other (hother : q ≠ p ∨ m ≠ n) (v : ℤ) :
    (m, v) ∈ ((s.removeSubGroup p n).eligibleSubGroups q).entries ↔
      (m, v) ∈ (s.eligibleSubGroups q).entries := by
  by_cases hq : q = p
  · subst hq
    have hm := hother.resolve_left (not_not.mpr rfl)
    rw [removeSubGroup, modifyEligible_eligibleSubGroups_self, mem_remove]
    simp [hm]
  · rw [removeSubGroup_eligibleSubGroups_of_ne hq]

/-- Another entry stays current when only the entry of `n` in `p` changes. -/
theorem Current.of_other_entry (h : Current s (m :: q)) (hgroup : s'.group = s.group)
    (hlimit : s'.taskLimitExceeded = s.taskLimitExceeded)
    (heligible : ∀ a, a ≠ p → s'.eligibleSubGroups a = s.eligibleSubGroups a)
    (hentries : ∀ v, (m, v) ∈ (s'.eligibleSubGroups q).entries ↔
      (m, v) ∈ (s.eligibleSubGroups q).entries)
    (hne : m :: q ≠ p) : Current s' (m :: q) := by
  refine h.congr ?_ (by rw [hgroup]) (by rw [hgroup]) hentries
  exact isEligibleToStartNext_congr (by rw [hgroup]) hlimit (heligible _ hne)

/-- An entry of one group does not matter to the eligibility of another. -/
theorem addOrUpdateSubGroup_isEligibleToStartNext (ha : a ≠ p) :
    (s.addOrUpdateSubGroup p n).isEligibleToStartNext a = s.isEligibleToStartNext a :=
  isEligibleToStartNext_congr rfl rfl (addOrUpdateSubGroup_eligibleSubGroups_of_ne ha)

theorem removeSubGroup_isEligibleToStartNext (ha : a ≠ p) :
    (s.removeSubGroup p n).isEligibleToStartNext a = s.isEligibleToStartNext a :=
  isEligibleToStartNext_congr rfl rfl (removeSubGroup_eligibleSubGroups_of_ne ha)

/-- A sub group that is eligible is current once it is added. -/
theorem current_addOrUpdateSubGroup (heligible : s.isEligibleToStartNext (n :: p) = true) :
    Current (s.addOrUpdateSubGroup p n) (n :: p) := by
  refine ⟨?_, ?_⟩
  · rw [addOrUpdateSubGroup_isEligibleToStartNext (List.cons_ne_self n p), heligible,
      addOrUpdateSubGroup, modifyEligible_eligibleSubGroups_self, mem_elements_addOrUpdate]
    simp
  · intro hpolicy v hv
    rw [addOrUpdateSubGroup, modifyEligible_eligibleSubGroups_self, mem_addOrUpdate] at hv
    rcases hv with ⟨-, rfl⟩ | ⟨hne, -⟩
    · rw [addOrUpdateSubGroup_group] at hpolicy
      rw [hpolicy]
      rfl
    · exact absurd rfl hne

/-- An update repairs the entry of its group; the rest of the path is left to its parents. -/
theorem CurrentOff.updateEntry (h : CurrentOff t (n :: p) s) :
    CurrentOff t p
      (if s.isEligibleToStartNext (n :: p) then s.addOrUpdateSubGroup p n
      else s.removeSubGroup p n) := by
  intro a ha hoff
  cases a with
  | nil => trivial
  | cons m q =>
      have hne : m :: q ≠ p := ne_of_not_suffix hoff
      by_cases hself : m :: q = n :: p
      · obtain ⟨rfl, rfl⟩ := List.cons.inj hself
        by_cases heligible : s.isEligibleToStartNext (m :: q) = true
        · rw [if_pos heligible]
          exact current_addOrUpdateSubGroup heligible
        · rw [if_neg heligible]
          have hsame : (s.removeSubGroup q m).isEligibleToStartNext (m :: q) = false := by
            rw [removeSubGroup_isEligibleToStartNext (List.cons_ne_self m q)]
            simpa using heligible
          refine ⟨?_, ?_⟩
          · rw [hsame, removeSubGroup, modifyEligible_eligibleSubGroups_self, mem_elements_remove]
            simp
          · intro _ v hv
            rw [removeSubGroup, modifyEligible_eligibleSubGroups_self, mem_remove] at hv
            exact absurd rfl hv.1
      · have hcurrent : Current s (m :: q) := by
          refine h _ ha ?_
          intro hsuffix
          rcases List.suffix_cons_iff.mp hsuffix with heq | hsuffix
          · exact hself heq
          · exact hoff hsuffix
        have hother : q ≠ p ∨ m ≠ n :=
          not_and_or.mp fun hboth => hself (by rw [hboth.1, hboth.2])
        split
        · exact hcurrent.of_other_entry rfl rfl
            (fun a ha => addOrUpdateSubGroup_eligibleSubGroups_of_ne ha)
            (addOrUpdateSubGroup_entries_of_other hother) hne
        · exact hcurrent.of_other_entry rfl rfl
            (fun a ha => removeSubGroup_eligibleSubGroups_of_ne ha)
            (removeSubGroup_entries_of_other hother) hne

/-- An update of a group repairs the entries of the whole path. -/
theorem CurrentOff.updateEligibility (h : CurrentOff t x s) :
    AllCurrent t (s.updateEligibility x) := by
  induction x generalizing s with
  | nil => exact h.all_of_root
  | cons n p ih =>
      exact ih h.updateEntry

/-- A change of the groups of one path leaves the entries off the path current. -/
theorem CurrentOff.of_path
    (h : CurrentOff t x s) (heligible : s'.eligibleSubGroups = s.eligibleSubGroups)
    (hlimit : s'.taskLimitExceeded = s.taskLimitExceeded)
    (hgroup : ∀ a, ¬ a <:+ x → s'.group a = s.group a)
    (hpolicy : ∀ a, (s'.group a).schedulingPolicy = (s.group a).schedulingPolicy) :
    CurrentOff t x s' := by
  intro a ha hoff
  cases a with
  | nil => trivial
  | cons n p =>
      refine (h _ ha hoff).congr ?_ (hpolicy p) (by rw [hgroup _ hoff]) (by simp [heligible])
      exact isEligibleToStartNext_congr (hgroup _ hoff) hlimit (by rw [heligible])

variable {f : InternalResourceGroup → InternalResourceGroup}

/-- The changes along a path that submitting, starting and finishing a query make. -/
theorem AllCurrent.of_path {h : String → InternalResourceGroup → InternalResourceGroup}
    (hoff : CurrentOff t x s)
    (hf : ∀ g, (f g).schedulingPolicy = g.schedulingPolicy := by intros; rfl)
    (hh : ∀ n g, (h n g).schedulingPolicy = g.schedulingPolicy := by intros; rfl) :
    AllCurrent t ((forParents h x (s.modify x f)).updateEligibility x) := by
  refine CurrentOff.updateEligibility (hoff.of_path (by simp) (by simp) ?_ ?_)
  · intro a ha
    exact path_group_of_not_suffix ha
  · exact fun a => path_keeps _ a hf hh

theorem AllCurrent.startInBackground (hoff : CurrentOff t x s) :
    AllCurrent t (s.startInBackground x query) :=
  .of_path hoff

theorem AllCurrent.enqueueQuery (hoff : CurrentOff t x s) : AllCurrent t (s.enqueueQuery x query) :=
  .of_path hoff

variable {cpuTimeMillis : ℕ} {counts : Bool}

theorem CurrentOff.countCpuTime (hoff : CurrentOff t x s) :
    CurrentOff t x (s.countCpuTime x cpuTimeMillis counts) := by
  refine hoff.of_path (by simp) (by simp) ?_ ?_
  · intro a ha
    rw [Groups.countCpuTime]
    split
    · exact forPath_group_of_not_suffix ha
    · rfl
  · intro a
    obtain ⟨usage, husage⟩ := countCpuTime_group x cpuTimeMillis counts s a
    rw [husage]

theorem AllCurrent.queryFinished (h : AllCurrent t s) :
    AllCurrent t (s.queryFinished x query cpuTimeMillis counts) := by
  have hcpu : CurrentOff t x (s.countCpuTime x cpuTimeMillis counts) := (h.off x).countCpuTime
  refine queryFinished_cases (fun _ => h) ?_
  intro f h' hleaving
  cases hleaving <;> exact .of_path hcpu

/-- The group has a queued query or an eligible sub group. -/
def hasQueriesToStart (s : Groups) (p : ResourceGroupId) : Bool :=
  !(s.group p).queuedQueries.isEmpty || !(s.eligibleSubGroups p).isEmpty

/-- Without an update only changes of groups that have nothing to start go unnoticed. -/
theorem AllCurrent.of_canRunMore
    (h : AllCurrent t s) (heligible : s'.eligibleSubGroups = s.eligibleSubGroups)
    (hgroup : ∀ a, (s'.group a).queuedQueries = (s.group a).queuedQueries ∧
      (s'.group a).schedulingPolicy = (s.group a).schedulingPolicy)
    (hcan : ∀ a ∈ t.ids, a ≠ [] → s.hasQueriesToStart a = true →
      s'.canRunMore a = s.canRunMore a) :
    AllCurrent t s' := by
  intro a ha
  cases a with
  | nil => trivial
  | cons n p =>
      refine (h _ ha).congr ?_ (hgroup p).2 ?_ (by simp [heligible])
      · have hunfold : ∀ s : Groups, s.isEligibleToStartNext (n :: p) =
            (s.canRunMore (n :: p) && s.hasQueriesToStart (n :: p)) := fun _ => rfl
        have hsame : s'.hasQueriesToStart (n :: p) = s.hasQueriesToStart (n :: p) := by
          rw [hasQueriesToStart, hasQueriesToStart, (hgroup _).1, heligible]
        rw [hunfold, hunfold, hsame]
        cases hwork : s.hasQueriesToStart (n :: p) with
        | false => simp
        | true => rw [hcan _ ha (by simp) hwork]
      · rw [InternalResourceGroup.getHighestQueryPriority,
          InternalResourceGroup.getHighestQueryPriority, (hgroup _).1]

/-- A change of one group that does not change whether it can run more. -/
theorem AllCurrent.modify (h : AllCurrent t s)
    (hcan : (f (s.group x)).canRunMore s.taskLimitExceeded = s.canRunMore x)
    (hqueued : (f (s.group x)).queuedQueries = (s.group x).queuedQueries)
    (hpolicy : (f (s.group x)).schedulingPolicy = (s.group x).schedulingPolicy) :
    AllCurrent t (s.modify x f) := by
  refine h.of_canRunMore rfl (modify_related (R := fun g g' => g'.queuedQueries = g.queuedQueries ∧
    g'.schedulingPolicy = g.schedulingPolicy) (fun _ => ⟨rfl, rfl⟩) ⟨hqueued, hpolicy⟩) ?_
  intro a _ _ _
  by_cases ha : a = x
  · subst ha
    rw [canRunMore, modify_group_self]
    exact hcan
  · exact canRunMore_congr (modify_group_of_ne ha) rfl

theorem AllCurrent.setLimit (h : AllCurrent t s)
    (hqueued : ∀ g, (f g).queuedQueries = g.queuedQueries)
    (hpolicy : ∀ g, (f g).schedulingPolicy = g.schedulingPolicy) :
    AllCurrent t (s.setLimit x f) := by
  rw [Groups.setLimit]
  split
  · refine CurrentOff.updateEligibility ((h.off x).of_path rfl rfl ?_ ?_)
    · exact fun a ha => modify_group_of_ne (ne_of_not_suffix ha)
    · intro a
      rw [modify_group]
      split
      · exact hpolicy _
      · rfl
  · rename_i hcan
    rw [not_not, canRunMore, modify_group_self] at hcan
    exact h.modify hcan (hqueued _) (hpolicy _)

/-! ## Starting the next query -/

theorem isEligibleToStartNext_iff :
    s.isEligibleToStartNext p = true ↔
      s.canRunMore p = true ∧
        ((∃ query, query ∈ (s.group p).queuedQueries.elements) ∨
          ∃ n, n ∈ (s.eligibleSubGroups p).elements) := by
  rw [isEligibleToStartNext, Bool.and_eq_true, Bool.or_eq_true, Bool.not_eq_true',
    Bool.not_eq_true', isEmpty_eq_false_iff, isEmpty_eq_false_iff]

/-- Adding a sub group again does not change which groups are eligible. -/
theorem addOrUpdateSubGroup_isEligibleToStartNext_of_mem
    (hin : n ∈ (s.eligibleSubGroups p).elements) (a : ResourceGroupId) :
    (s.addOrUpdateSubGroup p n).isEligibleToStartNext a = s.isEligibleToStartNext a := by
  by_cases ha : a = p
  · subst ha
    have hafter : n ∈ ((s.addOrUpdateSubGroup a n).eligibleSubGroups a).elements := by
      rw [addOrUpdateSubGroup, modifyEligible_eligibleSubGroups_self, mem_elements_addOrUpdate]
      exact .inl rfl
    rw [isEligibleToStartNext, isEligibleToStartNext,
      isEmpty_eq_false_iff.mpr ⟨n, hin⟩, isEmpty_eq_false_iff.mpr ⟨n, hafter⟩]
    rfl
  · exact addOrUpdateSubGroup_isEligibleToStartNext ha

theorem AllCurrent.addOrUpdateSubGroup
    (h : AllCurrent t s) (hin : n ∈ (s.eligibleSubGroups p).elements) :
    AllCurrent t (s.addOrUpdateSubGroup p n) := by
  intro a ha
  cases a with
  | nil => trivial
  | cons m q =>
      by_cases hself : q = p ∧ m = n
      · obtain ⟨rfl, rfl⟩ := hself
        exact current_addOrUpdateSubGroup ((h _ ha).1.mp hin)
      · rw [not_and_or] at hself
        exact (h _ ha).congr (addOrUpdateSubGroup_isEligibleToStartNext_of_mem hin _) rfl rfl
          (addOrUpdateSubGroup_entries_of_other hself)

/-- The bookkeeping after the sub group started a query keeps current entries current. -/
theorem AllCurrent.subGroupStarted (h : AllCurrent t s) (hchild : n :: p ∈ t.ids) :
    AllCurrent t (s.subGroupStarted p n) := by
  have hcurrent : AllCurrent t (s.modify p fun g =>
      { g with descendantQueuedQueries := g.descendantQueuedQueries - 1 }) :=
    h.modify rfl rfl rfl
  rw [Groups.subGroupStarted]
  split
  · rename_i heligible
    exact hcurrent.addOrUpdateSubGroup ((hcurrent _ hchild).1.mpr heligible)
  · exact hcurrent

/-- A sub group that is polled is eligible; without it the other entries are current. -/
theorem polled_current {draw : ℕ} (hp : p ∈ t.ids) (hwithin : EligibleWithin t s)
    (hoff : CurrentOff t p s) (hfirst : (s.eligibleSubGroups p).first draw = some n) :
    n :: p ∈ t.ids ∧ (s.removeSubGroup p n).isEligibleToStartNext (n :: p) = true ∧
      CurrentOff t (n :: p) (s.removeSubGroup p n) := by
  have hmem := first_mem hfirst
  have hchild := t.mem_children.mp (hwithin p hp n hmem)
  have hnot : ¬ (n :: p) <:+ p := not_cons_suffix_self n p
  refine ⟨hchild, ?_, ?_⟩
  · rw [removeSubGroup_isEligibleToStartNext (List.cons_ne_self n p)]
    exact (hoff _ hchild hnot).1.mp hmem
  · intro a ha hsuffix
    cases a with
    | nil => trivial
    | cons m q =>
        have hap : ¬ (m :: q) <:+ p := fun h => hsuffix (h.trans (List.suffix_cons n p))
        have hother : q ≠ p ∨ m ≠ n :=
          not_and_or.mp fun hboth => hsuffix (by rw [hboth.1, hboth.2])
        refine (hoff _ ha hap).of_other_entry rfl rfl
          (fun a ha => removeSubGroup_eligibleSubGroups_of_ne ha)
          (removeSubGroup_entries_of_other hother) ?_
        intro heq
        exact hap (heq ▸ List.suffix_rfl)

/--
With current entries a call starts a query whenever its group is eligible, and
leaves current entries.  Otherwise it finds the group full or without queries.
-/
theorem internalStartNext_current (draw : ResourceGroupId → ℕ) (below : ℕ) (hp : p ∈ t.ids)
    (hbelow : t.height ≤ p.length + below) (hwithin : EligibleWithin t s)
    (hoff : CurrentOff t p s) :
    ((s.internalStartNext draw below p).1 = .ok true ∧
        AllCurrent t (s.internalStartNext draw below p).2) ∨
      ((s.internalStartNext draw below p) = (.ok false, s) ∧
        s.isEligibleToStartNext p = false) := by
  refine internalStartNext_induction
    (motive := fun below p s result =>
      p ∈ t.ids → t.height ≤ p.length + below → EligibleWithin t s → CurrentOff t p s →
        (result.1 = .ok true ∧ AllCurrent t result.2) ∨
          (result = (.ok false, s) ∧ s.isEligibleToStartNext p = false))
    ?_ ?_ ?_ ?_ ?_ below p s hp hbelow hwithin hoff
  · intro below p s hblocked _ _ _ _
    refine .inr ⟨rfl, ?_⟩
    rcases hblocked with hcan | ⟨hqueued, heligible⟩
    · rw [isEligibleToStartNext, hcan]
      rfl
    · rw [first_eq_none_iff] at hqueued heligible
      simp [isEligibleToStartNext, isEmpty, hqueued, heligible]
  · intro below p s query _ _ _ _ _ hoff
    refine .inl ⟨rfl, AllCurrent.startInBackground ?_⟩
    refine hoff.of_path rfl rfl ?_ ?_
    · exact fun a ha => modify_group_of_ne (ne_of_not_suffix ha)
    · intro a
      rw [dequeue, modify_group]
      split <;> rfl
  · intro p s n heligible hp hbelow hwithin _
    have hchild := t.length_le_height
      (t.mem_children.mp (hwithin p hp n (first_mem heligible)))
    rw [List.length_cons] at hchild
    omega
  · intro below p s n outcome e s' hcan heligible houtcome hsub hp hbelow hwithin hoff
    obtain ⟨hchild, hsubEligible, hsubOff⟩ := polled_current hp hwithin hoff heligible
    have hsub := hsub hchild (by rw [List.length_cons]; omega) hwithin.removeSubGroup hsubOff
    rcases hsub with ⟨hok, -⟩ | ⟨-, hnot⟩
    · exact absurd hok houtcome
    · cases hsubEligible.symm.trans hnot
  · intro below p s n s' hcan hqueued heligible hsub hp hbelow hwithin hoff
    obtain ⟨hchild, hsubEligible, hsubOff⟩ := polled_current hp hwithin hoff heligible
    have hsub := hsub hchild (by rw [List.length_cons]; omega) hwithin.removeSubGroup hsubOff
    rcases hsub with ⟨-, hcurrent⟩ | ⟨-, hnot⟩
    · exact .inl ⟨rfl, hcurrent.subGroupStarted hchild⟩
    · cases hsubEligible.symm.trans hnot

end Presto.ResourceGroups.Groups
