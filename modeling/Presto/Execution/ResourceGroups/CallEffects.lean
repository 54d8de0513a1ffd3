import Presto.Execution.ResourceGroups.QueryMoves

/-!
# What the calls on a tree do

For each call: which query it moves, and that the eligible and the dirty sub
groups of a group stay among its sub groups.
-/

namespace Presto.ResourceGroups

open List

namespace Groups

variable {t : PathTree String} {s s' s'' : Groups} {p a : ResourceGroupId} {n : String}
  {query : Query}

/-- A move after a step that moves nothing. -/
theorem Idle.trans_moves {m : Move} (h : Idle s s') (hmoves : Moves m s' s'') : Moves m s s'' := by
  refine ⟨?_, ?_, ?_, ?_⟩
  · intro a
    rw [hmoves.running a, (h a).running]
  · intro a
    refine (hmoves.queued a).trans ?_
    split
    · cases m.queued with
      | keep => exact (h a).queued
      | add => exact (h a).queued.append_right _
      | remove => exact (h a).queued.erase _
    · exact (h a).queued
  · intro a
    rw [hmoves.descendantRunning a, (h a).descendantRunning]
  · intro a
    rw [hmoves.descendantQueued a, (h a).descendantQueued]

/-- The queries of a group, its dirty sub groups and its memory usage are as before. -/
structure Unmoved (g g' : InternalResourceGroup) : Prop extends SameQueries g g' where
  dirty : g'.dirtySubGroups = g.dirtySubGroups
  memory : g'.cachedMemoryUsageBytes = g.cachedMemoryUsageBytes

theorem Unmoved.refl (g : InternalResourceGroup) : Unmoved g g := ⟨.refl g, rfl, rfl⟩

/-- At most the configuration, the CPU usage and the eligible sub groups of groups changed. -/
def Calm (s s' : Groups) : Prop := ∀ a, Unmoved (s.group a) (s'.group a)

theorem Calm.idle (h : Calm s s') : Idle s s' := fun a => (h a).toSameQueries

theorem Calm.refl (s : Groups) : Calm s s := fun _ => .refl _

theorem Calm.of_group (h : s'.group = s.group) : Calm s s' := by
  intro a
  rw [h]
  exact .refl _

theorem Calm.trans (h : Calm s s') (h' : Calm s' s'') : Calm s s'' := by
  intro a
  exact ⟨(h.idle.trans h'.idle) a, (h' a).dirty.trans (h a).dirty, (h' a).memory.trans (h a).memory⟩

variable {f : InternalResourceGroup → InternalResourceGroup}

theorem Calm.modify (hf : Unmoved (s.group p) (f (s.group p))) : Calm s (s.modify p f) :=
  modify_related .refl hf

theorem Calm.updateEligibility (p : ResourceGroupId) (s : Groups) :
    Calm s (s.updateEligibility p) :=
  .of_group updateEligibility_group

theorem Calm.setLimit (hf : ∀ g, Unmoved g (f g)) (s : Groups) : Calm s (s.setLimit p f) := by
  have hmodify : Calm s (s.modify p f) := .modify (hf _)
  unfold Groups.setLimit
  dsimp only
  split
  · exact hmodify.trans (.updateEligibility p _)
  · exact hmodify

/-! ## The eligible sub groups are sub groups -/

/-- The eligible sub groups of a group are sub groups of it. -/
def EligibleWithin (t : PathTree String) (s : Groups) : Prop :=
  ∀ p ∈ t.ids, ∀ n ∈ (s.eligibleSubGroups p).elements, n ∈ t.children p

variable (h : EligibleWithin t s)

include h

theorem EligibleWithin.of_eq (heq : s'.eligibleSubGroups = s.eligibleSubGroups) :
    EligibleWithin t s' := by
  intro p hp n hn
  rw [heq] at hn
  exact h p hp n hn

theorem EligibleWithin.modifyEligible {e : Queue String → Queue String}
    (he : p ∈ t.ids → ∀ n ∈ (e (s.eligibleSubGroups p)).elements, n ∈ t.children p) :
    EligibleWithin t (s.modifyEligible p e) := by
  intro a ha n hn
  by_cases hap : a = p
  · subst hap
    rw [modifyEligible_eligibleSubGroups_self] at hn
    exact he ha n hn
  · rw [modifyEligible_eligibleSubGroups_of_ne hap] at hn
    exact h a ha n hn

theorem EligibleWithin.addOrUpdateSubGroup (hn : n :: p ∈ t.ids) :
    EligibleWithin t (s.addOrUpdateSubGroup p n) := by
  rw [Groups.addOrUpdateSubGroup]
  refine h.modifyEligible ?_
  intro hp m hm
  rcases Queue.mem_elements_addOrUpdate.mp hm with rfl | hm
  · exact t.mem_children.mpr hn
  · exact h p hp m hm

theorem EligibleWithin.removeSubGroup : EligibleWithin t (s.removeSubGroup p n) := by
  refine h.modifyEligible ?_
  intro hp m hm
  exact h p hp m (Queue.mem_elements_remove.mp hm).2

theorem EligibleWithin.updateEligibility (hp : p ∈ t.ids) :
    EligibleWithin t (s.updateEligibility p) := by
  induction p generalizing s with
  | nil => exact h
  | cons n parent ih =>
      refine ih ?_ (t.parent_mem n parent hp)
      split
      · exact h.addOrUpdateSubGroup hp
      · exact h.removeSubGroup

theorem EligibleWithin.setLimit (hp : p ∈ t.ids) : EligibleWithin t (s.setLimit p f) := by
  have hmodify : EligibleWithin t (s.modify p f) := h.of_eq rfl
  unfold Groups.setLimit
  dsimp only
  split
  · exact hmodify.updateEligibility hp
  · exact hmodify

/-- The changes along a path that submitting, starting and finishing a query make. -/
theorem EligibleWithin.path
    {k : String → InternalResourceGroup → InternalResourceGroup} (hp : p ∈ t.ids) :
    EligibleWithin t ((forParents k p (s.modify p f)).updateEligibility p) :=
  EligibleWithin.updateEligibility (h.of_eq (by simp)) hp

theorem EligibleWithin.internalStartNext (draw : ResourceGroupId → ℕ) (below : ℕ) (hp : p ∈ t.ids) :
    EligibleWithin t (s.internalStartNext draw below p).2 := by
  refine internalStartNext_induction
    (motive := fun _ p s result =>
      p ∈ t.ids → EligibleWithin t s → EligibleWithin t result.2)
    ?_ ?_ ?_ ?_ ?_ below p s hp h
  · intro below p s _ _ h
    exact h
  · intro below p s query _ _ hp h
    exact EligibleWithin.path (s := s.dequeue p query) (h.of_eq rfl) hp
  · intro p s n _ _ h
    exact h
  · intro below p s n outcome e s' _ heligible _ hsub hp h
    have hchild := t.mem_children.mp (h p hp n (Queue.first_mem heligible))
    exact hsub hchild h.removeSubGroup
  · intro below p s n s' _ _ heligible hsub hp h
    have hchild := t.mem_children.mp (h p hp n (Queue.first_mem heligible))
    have hs' : EligibleWithin t s' := hsub hchild h.removeSubGroup
    rw [subGroupStarted]
    split
    · exact EligibleWithin.addOrUpdateSubGroup (hs'.of_eq rfl) hchild
    · exact hs'.of_eq rfl

omit h

/-! ## Refreshing the memory usage -/

/-- Only the memory usage of a group changed, and its dirty sub groups became fewer. -/
def MemoryUpdated (g g' : InternalResourceGroup) : Prop :=
  ∃ memory dirty, List.Sublist dirty g.dirtySubGroups ∧
    g' = { g with cachedMemoryUsageBytes := memory, dirtySubGroups := dirty }

theorem MemoryUpdated.refl (g : InternalResourceGroup) : MemoryUpdated g g :=
  ⟨g.cachedMemoryUsageBytes, g.dirtySubGroups, List.Sublist.refl _, rfl⟩

variable {g g' : InternalResourceGroup}

theorem MemoryUpdated.trans {g'' : InternalResourceGroup}
    (h : MemoryUpdated g g') (h' : MemoryUpdated g' g'') : MemoryUpdated g g'' := by
  obtain ⟨memory, dirty, hdirty, rfl⟩ := h
  obtain ⟨memory', dirty', hdirty', rfl⟩ := h'
  exact ⟨memory', dirty', hdirty'.trans hdirty, rfl⟩

theorem MemoryUpdated.sameQueries
    (h : MemoryUpdated g g') : SameQueries g g' := by
  obtain ⟨memory, dirty, -, rfl⟩ := h
  exact ⟨rfl, List.Perm.refl _, rfl, rfl⟩

/-- Only memory usages and dirty sub groups changed. -/
structure Refreshed (s s' : Groups) : Prop where
  group : ∀ a, MemoryUpdated (s.group a) (s'.group a)
  taskLimitExceeded : s'.taskLimitExceeded = s.taskLimitExceeded

theorem Refreshed.refl (s : Groups) : Refreshed s s := ⟨fun _ => .refl _, rfl⟩

theorem Refreshed.trans (h : Refreshed s s') (h' : Refreshed s' s'') : Refreshed s s'' :=
  ⟨fun a => (h.group a).trans (h'.group a), h'.taskLimitExceeded.trans h.taskLimitExceeded⟩

theorem Refreshed.idle (h : Refreshed s s') : Idle s s' := fun a => (h.group a).sameQueries

theorem Refreshed.modify (hf : MemoryUpdated (s.group p) (f (s.group p))) :
    Refreshed s (s.modify p f) :=
  ⟨modify_related .refl hf, rfl⟩

theorem Refreshed.updateEligibility (p : ResourceGroupId) (s : Groups) :
    Refreshed s (s.updateEligibility p) := by
  refine ⟨?_, by simp⟩
  intro a
  rw [updateEligibility_group]
  exact .refl _

theorem Refreshed.refreshLeaf (memory : Query → ℕ) (p : ResourceGroupId) (s : Groups) :
    Refreshed s (s.refreshLeaf memory p) :=
  .modify ⟨_, _, List.Sublist.refl _, rfl⟩

theorem Refreshed.addMemory (p : ResourceGroupId) (bytes : ℤ) (s : Groups) :
    Refreshed s (s.addMemory p bytes) :=
  .modify ⟨_, _, List.Sublist.refl _, rfl⟩

theorem Refreshed.removeClean (p : ResourceGroupId) (n : String) (s : Groups) :
    Refreshed s (s.removeClean p n) := by
  unfold Groups.removeClean
  split
  · exact .refl s
  · exact .modify ⟨_, _, erase_sublist, rfl⟩

@[simp] theorem removeClean_eligibleSubGroups :
    (s.removeClean p n).eligibleSubGroups = s.eligibleSubGroups := by
  unfold removeClean
  split <;> rfl

section Refreshing

/- What a refresh does is a sequence of changes of memory usages and marks and of updates. -/
variable {R : Groups → Groups → Prop} (hrefl : ∀ s, R s s)
  (htrans : ∀ {s s' s''}, R s s' → R s' s'' → R s s'')
  (hmodify : ∀ {s p f}, MemoryUpdated (s.group p) (f (s.group p)) → R s (s.modify p f))
  (hupdate : ∀ p s, R s (s.updateEligibility p))

include hrefl htrans hmodify hupdate

variable {refresh : ResourceGroupId → Groups → Groups}

theorem refreshSubGroup_related (hrefresh : ∀ q s, R s (refresh q s))
    (p : ResourceGroupId) (s : Groups) (n : String) : R s (refreshSubGroup refresh p s n) := by
  have hmemory : ∀ bytes s, R s (s.addMemory p bytes) :=
    fun _ _ => hmodify ⟨_, _, List.Sublist.refl _, rfl⟩
  have hclean : ∀ s, R s (s.removeClean p n) := by
    intro s
    unfold removeClean
    split
    · exact hrefl s
    · exact hmodify ⟨_, _, erase_sublist, rfl⟩
  have hround : ∀ bytes bytes', R s
      (((refresh (n :: p) (s.addMemory p bytes)).addMemory p bytes').removeClean p n) :=
    fun _ _ => htrans (htrans (htrans (hmemory _ s) (hrefresh _ _)) (hmemory _ _)) (hclean _)
  unfold refreshSubGroup
  dsimp only
  split
  · exact htrans (hround _ _) (hupdate _ _)
  · exact hround _ _

theorem internalRefreshStats_related
    (memory : Query → ℕ) (iteration : HashOrder) (below : ℕ) (p : ResourceGroupId) (s : Groups) :
    R s (s.internalRefreshStats t memory iteration below p) := by
  have hleaf : ∀ p s, R s (s.refreshLeaf memory p) :=
    fun _ _ => hmodify ⟨_, _, List.Sublist.refl _, rfl⟩
  induction below generalizing p s with
  | zero => exact hleaf p s
  | succ below ih =>
      rw [internalRefreshStats]
      split
      · exact hleaf p s
      · refine foldlRecOn (motive := R s) _ _ (hrefl s) ?_
        intro s' hs' n _
        exact htrans hs' (refreshSubGroup_related hrefl htrans hmodify hupdate ih p s' n)

end Refreshing

theorem Refreshed.refreshSubGroup
    (hrefresh : ∀ q s, Refreshed s (refresh q s)) (p : ResourceGroupId) (s : Groups) (n : String) :
    Refreshed s (refreshSubGroup refresh p s n) :=
  refreshSubGroup_related .refl .trans .modify .updateEligibility hrefresh p s n

theorem Refreshed.internalRefreshStats
    (memory : Query → ℕ) (iteration : HashOrder) (below : ℕ) (p : ResourceGroupId) (s : Groups) :
    Refreshed s (s.internalRefreshStats t memory iteration below p) :=
  internalRefreshStats_related .refl .trans .modify .updateEligibility memory iteration below p s

theorem Refreshed.refreshStats (memory : Query → ℕ) (iteration : HashOrder) (s : Groups) :
    Refreshed s (s.refreshStats t memory iteration) :=
  .internalRefreshStats memory iteration t.height [] s

/-- The dirty sub groups of a group are sub groups of it, each of them once. -/
def DirtyWithin (t : PathTree String) (s : Groups) : Prop :=
  ∀ p ∈ t.ids, (s.group p).dirtySubGroups.Nodup ∧
    ∀ n ∈ (s.group p).dirtySubGroups, n ∈ t.children p

theorem DirtyWithin.of_eq (h : DirtyWithin t s)
    (heq : ∀ a ∈ t.ids, (s'.group a).dirtySubGroups = (s.group a).dirtySubGroups) :
    DirtyWithin t s' := by
  intro p hp
  rw [heq p hp]
  exact h p hp

theorem DirtyWithin.refreshed (h : DirtyWithin t s) (hrefreshed : Refreshed s s') :
    DirtyWithin t s' := by
  intro p hp
  obtain ⟨memory, dirty, hdirty, hgroup⟩ := hrefreshed.group p
  rw [hgroup]
  exact ⟨(h p hp).1.sublist hdirty, fun n hn => (h p hp).2 n (hdirty.subset hn)⟩

/-- A query starts in the group `x`, which makes the groups on its path dirty. -/
structure Marks (x : ResourceGroupId) (s s' : Groups) : Prop where
  place : (s'.group x).dirtySubGroups = (s.group x).dirtySubGroups
  between : ∀ a n, (n :: a) <:+ x →
    (s'.group a).dirtySubGroups = ((s.group a).descendantStarted n).dirtySubGroups ∧
      (s'.group a).runningQueries = (s.group a).runningQueries
  other : ∀ a, ¬ a <:+ x → s'.group a = s.group a

theorem marks_startInBackground : Marks p s (s.startInBackground p query) where
  place := by rw [startInBackground_group, path_group_self]
  between a n hn := by
    rw [startInBackground_group, path_group_of_child hn]
    exact ⟨rfl, rfl⟩
  other a ha := by rw [startInBackground_group, path_group_of_not_suffix ha]

variable {x : ResourceGroupId}

theorem StartedFrom.marks (h : StartedFrom [] x query s s') : Marks x s s' where
  place := by rw [h.place]
  between a n hn := by
    rw [h.between a n nil_suffix hn]
    exact ⟨rfl, rfl⟩
  other := h.other

theorem DirtyWithin.of_started (h : DirtyWithin t s) (hx : x ∈ t.ids) (hmarks : Marks x s s') :
    DirtyWithin t s' := by
  intro a ha
  rcases on_path_cases a x with rfl | ⟨n, hn⟩ | hnot
  · rw [hmarks.place]
    exact h a ha
  · obtain ⟨hnodup, hwithin⟩ := h a ha
    rw [(hmarks.between a n hn).1, InternalResourceGroup.descendantStarted]
    split
    · exact ⟨hnodup, hwithin⟩
    · rename_i hmem
      refine ⟨hnodup.append (by simp) (by simpa using hmem), ?_⟩
      intro m hm
      rcases mem_append.mp hm with hm | hm
      · exact hwithin m hm
      · rw [mem_singleton.mp hm]
        exact t.mem_children.mpr (t.mem_of_suffix hn hx)
  · rw [hmarks.other a hnot]
    exact h a ha

theorem EligibleWithin.refreshSubGroup (h : EligibleWithin t s)
    (hrefresh : ∀ s, EligibleWithin t s → DirtyWithin t s →
      EligibleWithin t (refresh (n :: p) s))
    (hdirty : DirtyWithin t s) (hchild : n :: p ∈ t.ids) :
    EligibleWithin t (refreshSubGroup refresh p s n) := by
  have hsub : ∀ bytes, EligibleWithin t (refresh (n :: p) (s.addMemory p bytes)) := by
    intro bytes
    exact hrefresh _ (h.of_eq rfl) (hdirty.refreshed (.addMemory p bytes s))
  have hclean : ∀ bytes bytes', EligibleWithin t
      (((refresh (n :: p) (s.addMemory p bytes)).addMemory p bytes').removeClean p n) := by
    intro bytes bytes'
    refine EligibleWithin.of_eq (hsub bytes) ?_
    rw [removeClean_eligibleSubGroups]
    rfl
  unfold Groups.refreshSubGroup
  dsimp only
  split
  · exact (hclean _ _).updateEligibility hchild
  · exact hclean _ _

theorem EligibleWithin.internalRefreshStats (memory : Query → ℕ) (iteration : HashOrder) (below : ℕ)
    (h : EligibleWithin t s) (hdirty : DirtyWithin t s) (hp : p ∈ t.ids) :
    EligibleWithin t (s.internalRefreshStats t memory iteration below p) := by
  induction below generalizing p s with
  | zero => exact h.of_eq rfl
  | succ below ih =>
      rw [internalRefreshStats]
      split
      · exact h.of_eq rfl
      · have hloop := foldlRecOn
          (motive := fun s' => EligibleWithin t s' ∧ DirtyWithin t s')
          (iteration.order (s.group p).dirtySubGroups)
          (Groups.refreshSubGroup (Groups.internalRefreshStats t memory iteration below) p)
          ⟨h, hdirty⟩ ?_
        · exact hloop.1
        intro s' hs' n hn
        have hmem : n ∈ (s.group p).dirtySubGroups := (iteration.perm _).mem_iff.mp hn
        have hchild := t.mem_children.mp ((hdirty p hp).2 n hmem)
        exact ⟨hs'.1.refreshSubGroup (fun s h hdirty => ih h hdirty hchild) hs'.2 hchild,
          hs'.2.refreshed (.refreshSubGroup (.internalRefreshStats memory iteration below) p s' n)⟩

/-! ## Generating CPU quota -/

/-- What a loop over sub groups does that changes the groups below each of them alike. -/
theorem foldl_children_group {step : Groups → String → Groups}
    (hstep : ∀ s n a, n ∈ t.children p →
      (step s n).group a = if (n :: p) <:+ a ∧ a ∈ t.ids then f (s.group a) else s.group a)
    (l : List String) (hnodup : l.Nodup) (hl : ∀ n ∈ l, n ∈ t.children p) (s : Groups)
    (a : ResourceGroupId) :
    (l.foldl step s).group a =
      if (∃ n ∈ l, (n :: p) <:+ a) ∧ a ∈ t.ids then f (s.group a) else s.group a := by
  induction l generalizing s with
  | nil => simp
  | cons n l ih =>
      obtain ⟨hhead, htail⟩ := nodup_cons.mp hnodup
      rw [foldl_cons, ih htail fun m hm => hl m (by simp [hm]),
        hstep s n a (hl n (by simp))]
      by_cases hn : (n :: p) <:+ a
      · have hnone : ¬ ∃ m ∈ l, (m :: p) <:+ a := by
          rintro ⟨m, hm, hsuffix⟩
          exact hhead (child_unique hsuffix hn ▸ hm)
        simp [hnone]
      · simp [hn]

theorem internalGenerateCpuQuota_frame
    (elapsedSeconds : ℤ) (below : ℕ) (p : ResourceGroupId) (s : Groups) :
    (s.internalGenerateCpuQuota t elapsedSeconds below p).eligibleSubGroups =
        s.eligibleSubGroups ∧
      (s.internalGenerateCpuQuota t elapsedSeconds below p).taskLimitExceeded =
        s.taskLimitExceeded := by
  induction below generalizing p s with
  | zero => exact ⟨rfl, rfl⟩
  | succ below ih =>
      refine foldlRecOn
        (motive := fun s' : Groups => s'.eligibleSubGroups = s.eligibleSubGroups ∧
          s'.taskLimitExceeded = s.taskLimitExceeded) _ _ ⟨rfl, rfl⟩ ?_
      intro s' hs' n _
      exact ⟨(ih (n :: p) s').1.trans hs'.1, (ih (n :: p) s').2.trans hs'.2⟩

/-- Quota is generated for every group below, once. -/
theorem internalGenerateCpuQuota_group (elapsedSeconds : ℤ) (below : ℕ) (hp : p ∈ t.ids)
    (hbelow : t.height ≤ p.length + below) (s : Groups) (a : ResourceGroupId) :
    (s.internalGenerateCpuQuota t elapsedSeconds below p).group a =
      if p <:+ a ∧ a ∈ t.ids then
        { s.group a with cpuUsageMillis := (s.group a).cpuUsageAfter elapsedSeconds }
      else s.group a := by
  induction below generalizing p s a with
  | zero =>
      have hleaf : ∀ a ∈ t.ids, p <:+ a → a = p := by
        intro a ha hsuffix
        exact (hsuffix.eq_of_length_le (by have := t.length_le_height ha; omega)).symm
      rw [internalGenerateCpuQuota, modify_group]
      by_cases ha : a = p
      · subst ha
        rw [if_pos rfl, if_pos ⟨suffix_rfl, hp⟩]
      · rw [if_neg ha, if_neg]
        rintro ⟨hsuffix, hmem⟩
        exact ha (hleaf a hmem hsuffix)
  | succ below ih =>
      rw [internalGenerateCpuQuota]
      rw [foldl_children_group
        (f := fun g => { g with cpuUsageMillis := g.cpuUsageAfter elapsedSeconds })
        ?_ _ (t.nodup_children p) (fun n hn => hn), modify_group]
      · by_cases ha : a = p
        · subst ha
          have hnone : ¬ ∃ n ∈ t.children a, (n :: a) <:+ a := by
            rintro ⟨n, -, hn⟩
            exact absurd hn.length_le (by simp)
          rw [if_neg fun h => hnone h.1, if_pos rfl, if_pos ⟨suffix_rfl, hp⟩]
        · rw [if_neg ha]
          refine if_congr ?_ rfl rfl
          constructor
          · rintro ⟨⟨n, -, hn⟩, hmem⟩
            exact ⟨(below_of_child hn).1, hmem⟩
          · rintro ⟨hsuffix, hmem⟩
            obtain ⟨n, hn⟩ := Below.exists_child ⟨hsuffix, fun h => ha h.symm⟩
            exact ⟨⟨n, t.mem_children.mpr (t.mem_of_suffix hn hmem), hn⟩, hmem⟩
      · intro s n a hn
        exact ih (t.mem_children.mp hn) (by rw [length_cons]; omega) s a

theorem generateCpuQuota_frame (elapsedSeconds : ℤ) (s : Groups) :
    (s.generateCpuQuota t elapsedSeconds).eligibleSubGroups = s.eligibleSubGroups ∧
      (s.generateCpuQuota t elapsedSeconds).taskLimitExceeded = s.taskLimitExceeded := by
  rw [generateCpuQuota]
  split
  · exact internalGenerateCpuQuota_frame elapsedSeconds t.height [] s
  · exact ⟨rfl, rfl⟩

theorem generateCpuQuota_usage (elapsedSeconds : ℤ) (s : Groups) (a : ResourceGroupId) :
    ∃ usage, (s.generateCpuQuota t elapsedSeconds).group a =
      { s.group a with cpuUsageMillis := usage } := by
  rw [generateCpuQuota]
  split
  · rw [internalGenerateCpuQuota_group elapsedSeconds t.height t.root_mem (by simp) s a]
    split <;> exact ⟨_, rfl⟩
  · exact ⟨_, rfl⟩

theorem Calm.generateCpuQuota (elapsedSeconds : ℤ) (s : Groups) :
    Calm s (s.generateCpuQuota t elapsedSeconds) := by
  intro a
  obtain ⟨usage, hgroup⟩ := generateCpuQuota_usage (t := t) elapsedSeconds s a
  rw [hgroup]
  exact ⟨⟨rfl, List.Perm.refl _, rfl, rfl⟩, rfl, rfl⟩

/-! ## Changing the policy -/

variable {draws : ResourceGroupId → ℕ → ℕ} {policy : SchedulingPolicy}

theorem switchPolicy_group_self :
    (s.switchPolicy draws policy p).group p =
      { s.group p with
        schedulingPolicy := policy
        queuedQueries := (s.group p).queuedQueries.requeue (draws p) policy.queryQueue
          Query.queryPriority } := by
  rw [switchPolicy, modify_group_self, modifyEligible_group, modify_group_self]

theorem switchPolicy_group_of_ne (ha : a ≠ p) :
    (s.switchPolicy draws policy p).group a = s.group a := by
  rw [switchPolicy, modify_group_of_ne ha, modifyEligible_group, modify_group_of_ne ha]

theorem Calm.switchPolicy
    (draws : ResourceGroupId → ℕ → ℕ) (policy : SchedulingPolicy) (p : ResourceGroupId)
    (s : Groups) : Calm s (s.switchPolicy draws policy p) := by
  intro a
  by_cases ha : a = p
  · subst ha
    rw [switchPolicy_group_self]
    exact ⟨⟨rfl, Queue.requeue_elements_perm _ _ _ _, rfl, rfl⟩, rfl, rfl⟩
  · rw [switchPolicy_group_of_ne ha]
    exact .refl _

theorem EligibleWithin.switchPolicy (h : EligibleWithin t s) :
    EligibleWithin t (s.switchPolicy draws policy p) := by
  have hpolicy : EligibleWithin t (s.modify p fun g => { g with schedulingPolicy := policy }) :=
    h.of_eq rfl
  refine EligibleWithin.of_eq ?_ modify_eligibleSubGroups
  refine hpolicy.modifyEligible ?_
  intro hp n hn
  rw [(Queue.requeue_elements_perm _ _ _ _).mem_iff] at hn
  exact h p hp n hn

variable {motive : Groups → Prop}

theorem useQueryPriority_invariant
    (hswitch : ∀ p s, motive s → motive (s.switchPolicy draws .queryPriority p))
    (below : ℕ) (p : ResourceGroupId) (s : Groups) (hs : motive s) :
    motive (s.useQueryPriority t draws below p) := by
  induction below generalizing p s with
  | zero =>
      rw [useQueryPriority]
      split
      · exact hs
      · exact hswitch p s hs
  | succ below ih =>
      rw [useQueryPriority]
      split
      · exact hs
      · refine hswitch p _ ?_
        refine foldlRecOn (motive := motive) _ _ hs ?_
        intro s' hs' n _
        exact ih (n :: p) s' hs'

/-- What switching single groups keeps, a change of the policy keeps. -/
theorem setSchedulingPolicy_invariant
    (hswitch : ∀ policy p s, motive s → motive (s.switchPolicy draws policy p))
    (policy : SchedulingPolicy) (p : ResourceGroupId) (s : Groups) (hs : motive s) :
    motive (s.after (s.setSchedulingPolicy t draws p policy)) := by
  rw [setSchedulingPolicy]
  split
  · exact hs
  · split
    · exact hs
    · split
      · exact useQueryPriority_invariant (hswitch .queryPriority) _ _ _ hs
      · exact hswitch policy p s hs

theorem Calm.setSchedulingPolicy
    (draws : ResourceGroupId → ℕ → ℕ) (policy : SchedulingPolicy) (p : ResourceGroupId)
    (s : Groups) : Calm s (s.after (s.setSchedulingPolicy t draws p policy)) := by
  refine setSchedulingPolicy_invariant ?_ policy p s (.refl s)
  intro policy p s' hs'
  exact hs'.trans (.switchPolicy draws policy p s')

/-! ## Changing limits and weights -/

/-- The fields of a group that its limits do not show in. -/
def unconfigured (g : InternalResourceGroup) :=
  (g.runningQueries, g.queuedQueries, g.descendantRunningQueries, g.descendantQueuedQueries,
    g.dirtySubGroups, g.cachedMemoryUsageBytes, g.schedulingPolicy, g.schedulingWeight)

theorem unmoved_of_unconfigured
    (h : unconfigured g' = unconfigured g) : Unmoved g g' := by
  simp only [unconfigured, Prod.mk.injEq] at h
  obtain ⟨hrunning, hqueued, hdescendantRunning, hdescendantQueued, hdirty, hmemory, -⟩ := h
  exact ⟨⟨hrunning, by rw [hqueued], hdescendantRunning, hdescendantQueued⟩, hdirty, hmemory⟩

/-- What the setters do: they change limits, or something that running does not depend on. -/
inductive Reconfigured (p : ResourceGroupId) (s : Groups) : Groups → Prop
  | refl : Reconfigured p s s
  | limit {s' : Groups} {f : InternalResourceGroup → InternalResourceGroup}
      (h : Reconfigured p s s') (hf : ∀ g, unconfigured (f g) = unconfigured g) :
      Reconfigured p s (s'.setLimit p f)
  | other {s' : Groups} {f : InternalResourceGroup → InternalResourceGroup}
      (h : Reconfigured p s s') (hf : ∀ g, unconfigured (f g) = unconfigured g)
      (hcan : ∀ g exceeded, (f g).canRunMore exceeded = g.canRunMore exceeded) :
      Reconfigured p s (s'.modify p f)

/-- A setter that checks its argument first. -/
theorem Reconfigured.checked
    {condition : Prop} [Decidable condition] {e : Throwable} (h : Reconfigured p s s') :
    Reconfigured p s (s.after (if condition then .ok s' else .error e)) := by
  split
  · exact h
  · exact .refl

theorem Reconfigured.calm (h : Reconfigured p s s') : Calm s s' := by
  induction h with
  | refl => exact .refl s
  | limit _ hf ih => exact ih.trans (.setLimit (fun g => unmoved_of_unconfigured (hf g)) _)
  | other _ hf _ ih => exact ih.trans (.modify (unmoved_of_unconfigured (hf _)))

theorem Reconfigured.eligibleWithin
    (h : Reconfigured p s s') (hp : p ∈ t.ids) (hwithin : EligibleWithin t s) :
    EligibleWithin t s' := by
  induction h with
  | refl => exact hwithin
  | limit _ _ ih => exact ih.setLimit hp
  | other _ _ _ ih => exact ih.of_eq rfl

/-- A new weight changes its group, and its entry in the queue of a weighted parent. -/
theorem setSchedulingWeight_cases {weight : ℤ} (hs : motive s)
    (hmodify : (∀ n parent, p = n :: parent → (s.group parent).schedulingPolicy = .weighted →
        n ∉ (s.eligibleSubGroups parent).elements) →
      motive (s.modify p fun g => { g with schedulingWeight := weight }))
    (hentry : ∀ n parent, p = n :: parent → n ∈ (s.eligibleSubGroups parent).elements →
      motive ((s.modify p fun g => { g with schedulingWeight := weight }).addOrUpdateSubGroup
        parent n)) :
    motive (s.after (s.setSchedulingWeight p weight)) := by
  rw [setSchedulingWeight]
  split
  · cases p with
    | nil => exact hmodify nofun
    | cons n parent =>
        have hparent : parent ≠ n :: parent := (List.cons_ne_self n parent).symm
        dsimp only
        split
        · rename_i hcontains
          exact hentry n parent rfl (of_decide_eq_true hcontains.2)
        · rename_i hnot
          refine hmodify ?_
          rintro _ _ ⟨⟩ hpolicy hmem
          refine hnot ⟨?_, decide_eq_true hmem⟩
          rwa [modify_group_of_ne hparent]
  · exact hs

theorem Calm.setSchedulingWeight (p : ResourceGroupId) (weight : ℤ) (s : Groups) :
    Calm s (s.after (s.setSchedulingWeight p weight)) := by
  have hmodify : Calm s (s.modify p fun g => { g with schedulingWeight := weight }) :=
    .modify ⟨⟨rfl, List.Perm.refl _, rfl, rfl⟩, rfl, rfl⟩
  exact setSchedulingWeight_cases (.refl s) (fun _ => hmodify)
    fun _ _ _ _ => hmodify.trans (.of_group rfl)

/-! ## Submitting and finishing queries -/

/-- An admitted query is started, or queued where it cannot start. -/
theorem run_cases (h : s.run t p query = .ok (true, s')) :
    t.children p = [] ∧
      (((∀ b, b <:+ p → s.canRunMore b = true) ∧ s' = s.startInBackground p query) ∨
        ((∀ b, b <:+ p → (s.group b).canQueueMore = true) ∧
          (¬ ∀ b, b <:+ p → s.canRunMore b = true) ∧ 0 < query.queryPriority ∧
          s' = s.enqueueQuery p query)) := by
  rw [run] at h
  by_cases hleaf : t.children p = []
  · refine ⟨hleaf, ?_⟩
    rw [if_neg (not_not.mpr hleaf)] at h
    by_cases hrun : allOnPath (fun b => s.canRunMore b) p = true
    · rw [if_neg (by simp [hrun]), if_pos hrun] at h
      simp only [Except.ok.injEq, Prod.mk.injEq, true_and] at h
      exact .inl ⟨allOnPath_iff.mp hrun, h.symm⟩
    · by_cases hqueue : allOnPath (fun b => (s.group b).canQueueMore) p = true
      · rw [if_neg (by simp [hqueue]), if_neg hrun] at h
        by_cases hpriority : query.queryPriority ≤ 0
        · rw [if_pos hpriority] at h
          exact absurd h (by simp)
        · rw [if_neg hpriority] at h
          simp only [Except.ok.injEq, Prod.mk.injEq, true_and] at h
          exact .inr ⟨allOnPath_iff.mp hqueue, fun hall => hrun (allOnPath_iff.mpr hall),
            not_le.mp hpriority, h.symm⟩
      · rw [if_pos (by simp [hrun, hqueue])] at h
        simp at h
  · rw [if_pos hleaf] at h
    exact absurd h (by simp)

/-- What a query that is submitted may do to the groups. -/
theorem submit_cases {c : Cluster} (hs : motive c.groups)
    (hstart : (∀ b, b <:+ p → c.groups.canRunMore b = true) →
      motive (c.groups.startInBackground p query))
    (hqueue : (∀ b, b <:+ p → (c.groups.group b).canQueueMore = true) → 0 < query.queryPriority →
      motive (c.groups.enqueueQuery p query)) :
    motive (c.execute t (.run p query)).groups := by
  rw [Cluster.execute, Cluster.submit]
  split
  · rename_i s' hrun
    obtain ⟨-, ⟨hcan, rfl⟩ | ⟨hcan, -, hpositive, rfl⟩⟩ := run_cases hrun
    · exact hstart hcan
    · exact hqueue hcan hpositive
  · exact hs
  · exact hs

/-- The CPU time of a query that is done, where it counts. -/
def countCpuTime (p : ResourceGroupId) (cpuTimeMillis : ℕ) (counts : Bool) (s : Groups) : Groups :=
  if counts then
    forPath (fun g => { g with cpuUsageMillis := saturated (g.cpuUsageMillis + cpuTimeMillis) }) p s
  else s

theorem countCpuTime_group (p : ResourceGroupId) (cpuTimeMillis : ℕ) (counts : Bool) (s : Groups)
    (a : ResourceGroupId) :
    ∃ usage, (s.countCpuTime p cpuTimeMillis counts).group a =
      { s.group a with cpuUsageMillis := usage } := by
  rw [countCpuTime]
  split
  · rcases on_path_cases a p with rfl | ⟨n, hn⟩ | hnot
    · exact ⟨_, path_group_self⟩
    · exact ⟨_, path_group_of_child hn⟩
    · exact ⟨_, forPath_group_of_not_suffix hnot⟩
  · exact ⟨(s.group a).cpuUsageMillis, rfl⟩

variable {cpuTimeMillis : ℕ} {counts : Bool}

@[simp] theorem countCpuTime_eligibleSubGroups :
    (s.countCpuTime p cpuTimeMillis counts).eligibleSubGroups = s.eligibleSubGroups := by
  rw [countCpuTime]
  split <;> simp [forPath]

@[simp] theorem countCpuTime_taskLimitExceeded :
    (s.countCpuTime p cpuTimeMillis counts).taskLimitExceeded = s.taskLimitExceeded := by
  rw [countCpuTime]
  split <;> simp [forPath]

theorem Calm.countCpuTime (p : ResourceGroupId) (cpuTimeMillis : ℕ) (counts : Bool) (s : Groups) :
    Calm s (s.countCpuTime p cpuTimeMillis counts) := by
  intro a
  obtain ⟨usage, husage⟩ := countCpuTime_group p cpuTimeMillis counts s a
  rw [husage]
  exact ⟨⟨rfl, List.Perm.refl _, rfl, rfl⟩, rfl, rfl⟩

/-- A running query leaves its group. -/
def finishRunning (p : ResourceGroupId) (query : Query) (s : Groups) : Groups :=
  forParents (fun _ g => { g with descendantRunningQueries := g.descendantRunningQueries - 1 }) p
    (s.modify p fun g => { g with runningQueries := g.runningQueries.erase query })

/-- A queued query leaves its group. -/
def finishQueued (p : ResourceGroupId) (query : Query) (s : Groups) : Groups :=
  forParents (fun _ g => { g with descendantQueuedQueries := g.descendantQueuedQueries - 1 }) p
    (s.dequeue p query)

theorem queryFinished_of_not_held (h : ¬ s.holds p query) :
    s.queryFinished p query cpuTimeMillis counts = s := by
  rw [holds, not_or] at h
  rw [queryFinished, if_pos h]

theorem queryFinished_of_running (h : query ∈ (s.group p).runningQueries) :
    s.queryFinished p query cpuTimeMillis counts =
      ((s.countCpuTime p cpuTimeMillis counts).finishRunning p query).updateEligibility p := by
  have hcpu := (Calm.countCpuTime p cpuTimeMillis counts s p).running
  rw [queryFinished, if_neg fun hnot => hnot.1 h]
  dsimp only
  rw [← countCpuTime, if_pos (by rwa [hcpu])]
  rfl

theorem queryFinished_of_queued (hrunning : query ∉ (s.group p).runningQueries)
    (hqueued : query ∈ (s.group p).queuedQueries.elements) :
    s.queryFinished p query cpuTimeMillis counts =
      ((s.countCpuTime p cpuTimeMillis counts).finishQueued p query).updateEligibility p := by
  have hcpu := (Calm.countCpuTime p cpuTimeMillis counts s p).running
  rw [queryFinished, if_neg fun hnot => hnot.2 hqueued]
  dsimp only
  rw [← countCpuTime, if_neg (by rwa [hcpu])]
  rfl

/-- What finishing a query does along its path, once its CPU time is counted. -/
inductive Leaving (query : Query) : (InternalResourceGroup → InternalResourceGroup) →
    (String → InternalResourceGroup → InternalResourceGroup) → Prop
  | running : Leaving query
      (fun g => { g with runningQueries := g.runningQueries.erase query })
      (fun _ g => { g with descendantRunningQueries := g.descendantRunningQueries - 1 })
  | queued : Leaving query
      (fun g => { g with queuedQueries := g.queuedQueries.remove query })
      (fun _ g => { g with descendantQueuedQueries := g.descendantQueuedQueries - 1 })

theorem queryFinished_cases (hnot : ¬ s.holds p query → motive s)
    (hleaving : ∀ f h, Leaving query f h → motive
      ((forParents h p ((s.countCpuTime p cpuTimeMillis counts).modify p f)).updateEligibility p)) :
    motive (s.queryFinished p query cpuTimeMillis counts) := by
  by_cases hrunning : query ∈ (s.group p).runningQueries
  · rw [queryFinished_of_running hrunning]
    exact hleaving _ _ .running
  · by_cases hqueued : query ∈ (s.group p).queuedQueries.elements
    · rw [queryFinished_of_queued hrunning hqueued]
      exact hleaving _ _ .queued
    · have hheld : ¬ s.holds p query := fun h => h.elim hrunning hqueued
      rw [queryFinished_of_not_held hheld]
      exact hnot hheld

/-- Finishing a query that the group holds takes it out of one place. -/
theorem queryFinished_moves (h : s.holds p query) :
    ∃ running queued,
      Moves ⟨p, query, running, queued⟩ s (s.queryFinished p query cpuTimeMillis counts) ∧
        CanMove ⟨p, query, running, queued⟩ s ∧ (running ≠ .add ∧ queued ≠ .add) ∧
        running.delta + queued.delta = -1 := by
  have hcpu := (Calm.countCpuTime p cpuTimeMillis counts s).idle
  by_cases hrunning : query ∈ (s.group p).runningQueries
  · refine ⟨.remove, .keep, ?_, ⟨hrunning, trivial⟩, by simp, rfl⟩
    rw [queryFinished_of_running hrunning]
    exact hcpu.trans_moves (moves_of_path updateEligibility_group (List.Perm.refl _))
  · have hqueued := h.resolve_left hrunning
    refine ⟨.keep, .remove, ?_, ⟨trivial, hqueued⟩, by simp, rfl⟩
    rw [queryFinished_of_queued hrunning hqueued]
    refine hcpu.trans_moves (moves_of_path updateEligibility_group ?_)
    rw [Queue.elements_remove]
    exact List.Perm.refl _

end Groups

/-! ## The setters of limits -/

/-- The calls that set a limit, or the rate of the quota. -/
def Operation.IsSetter : Operation → Prop
  | .setSoftMemoryLimit _ _ | .setSoftCpuLimit _ _ | .setHardCpuLimit _ _
  | .setCpuQuotaGenerationMillisPerSecond _ _ | .setSoftConcurrencyLimit _ _
  | .setHardConcurrencyLimit _ _ | .setMaxQueuedQueries _ _ => True
  | _ => False

open Groups in
/-- A setter changes the configuration of its group, if its argument is accepted. -/
theorem Cluster.execute_setter
    {t : PathTree String} {op : Operation} (c : Cluster) (hop : op.IsSetter) :
    ∃ s, c.execute t op = { c with groups := s } ∧ Reconfigured op.target c.groups s := by
  cases op with
  | setSoftMemoryLimit p limit => exact ⟨_, rfl, .limit .refl fun _ => rfl⟩
  | setSoftCpuLimit p limit | setHardCpuLimit p limit =>
      refine ⟨_, rfl, .limit ?_ fun _ => rfl⟩
      split
      · exact .limit .refl fun _ => rfl
      · exact .refl
  | setCpuQuotaGenerationMillisPerSecond p limit | setMaxQueuedQueries p limit =>
      exact ⟨_, rfl, .checked (.other .refl (fun _ => rfl) fun _ _ => rfl)⟩
  | setSoftConcurrencyLimit p limit | setHardConcurrencyLimit p limit =>
      exact ⟨_, rfl, .checked (.limit .refl fun _ => rfl)⟩
  | _ => exact absurd hop (by simp [Operation.IsSetter])

end Presto.ResourceGroups
