import Presto.Execution.ResourceGroups.AdmissionLimits
import Presto.Support.ListUpdates

/-!
# The memory usage after a refresh

A refresh visits only the sub groups that are marked as dirty.  A sub group that
is not marked has no running queries and a memory usage of zero, so the refresh
gives every group the memory of all queries that run below it.
-/

namespace Presto.ResourceGroups.Groups

open List

variable {t : PathTree String} {s s' : Groups} {p q a x : ResourceGroupId} {m n : String}
  {memory : Query → ℕ} {query : Query}

/-- The memory of the queries that run in a group itself. -/
def ownMemoryUsage (memory : Query → ℕ) (s : Groups) (p : ResourceGroupId) : ℤ :=
  ∑ query ∈ (s.group p).runningQueries, (memory query : ℤ)

/-- The memory of all queries that run in a group or below it. -/
def memoryUsage (t : PathTree String) (memory : Query → ℕ) (s : Groups)
    (p : ResourceGroupId) : ℤ :=
  s.ownMemoryUsage memory p + t.total (s.ownMemoryUsage memory) p

theorem memoryUsage_congr (h : ∀ a, (s'.group a).runningQueries = (s.group a).runningQueries) :
    s'.memoryUsage t memory p = s.memoryUsage t memory p := by
  have hown : s'.ownMemoryUsage memory = s.ownMemoryUsage memory := by
    funext q
    rw [ownMemoryUsage, ownMemoryUsage, h]
  rw [memoryUsage, memoryUsage, hown]

theorem Refreshed.running (h : Refreshed s s') (a : ResourceGroupId) :
    (s'.group a).runningQueries = (s.group a).runningQueries := (h.idle a).running

theorem memoryUsage_nonneg : 0 ≤ s.memoryUsage t memory p := by
  have hown : ∀ q, 0 ≤ s.ownMemoryUsage memory q := by
    intro q
    exact Finset.sum_nonneg fun query _ => Int.natCast_nonneg _
  exact add_nonneg (hown p) (Finset.sum_nonneg fun q _ => hown q)

theorem memoryUsage_eq_sum_children :
    s.memoryUsage t memory p =
      s.ownMemoryUsage memory p +
        ∑ n ∈ (t.children p).toFinset, s.memoryUsage t memory (n :: p) := by
  rw [memoryUsage, t.total_eq_sum_children]
  rfl

/-- Without running queries in a subtree there is no memory usage. -/
theorem memoryUsage_eq_zero
    (hq : q ∈ t.ids) (h : ∀ a ∈ t.ids, q <:+ a → (s.group a).runningQueries = ∅) :
    s.memoryUsage t memory q = 0 := by
  have hown : ∀ a ∈ t.ids, q <:+ a → s.ownMemoryUsage memory a = 0 := by
    intro a ha hsuffix
    rw [ownMemoryUsage, h a ha hsuffix, Finset.sum_empty]
  rw [memoryUsage, hown q hq suffix_rfl, zero_add]
  refine Finset.sum_eq_zero ?_
  intro a ha
  rw [Finset.mem_filter, mem_toFinset] at ha
  exact hown a ha.1 ha.2.1

/-- The memory usages of a subtree are those of its running queries. -/
def MemoryExact (t : PathTree String) (memory : Query → ℕ) (top : ResourceGroupId)
    (s : Groups) : Prop :=
  ∀ q ∈ t.ids, top <:+ q → (s.group q).cachedMemoryUsageBytes = s.memoryUsage t memory q

/-- Below a sub group that is not marked as dirty nothing runs and no memory is used. -/
def CleanFrom (t : PathTree String) (top : ResourceGroupId) (s : Groups) : Prop :=
  ∀ n q, n :: q ∈ t.ids → top <:+ q → n ∉ (s.group q).dirtySubGroups →
    ∀ a ∈ t.ids, (n :: q) <:+ a →
      (s.group a).runningQueries = ∅ ∧ (s.group a).cachedMemoryUsageBytes = 0

/-- What a refresh of a group relies on. -/
structure RefreshReady (t : PathTree String) (top : ResourceGroupId) (s : Groups) : Prop where
  dirty : DirtyWithin t s
  leaves : ∀ p ∈ t.ids, t.children p ≠ [] → (s.group p).runningQueries = ∅
  counted : ∀ p ∈ t.ids, (s.group p).descendantRunningQueries = t.total s.runningCount p
  balanced : MemoryBalancedFrom t top s
  clean : CleanFrom t top s

/-- A group that is not dirty has no running queries in its subtree. -/
theorem RefreshReady.running_of_not_isDirty
    (h : RefreshReady t x s) (hq : q ∈ t.ids) (hclean : (s.group q).isDirty = false)
    (ha : a ∈ t.ids) (hsuffix : q <:+ a) : (s.group a).runningQueries = ∅ := by
  have hcount : ∑ a ∈ t.ids.toFinset with q <:+ a, s.runningCount a ≤ 0 := by
    rw [← t.add_total hq, ← h.counted q hq]
    simpa [InternalResourceGroup.isDirty, runningCount] using hclean
  have hnonneg : ∀ a, 0 ≤ s.runningCount a := fun a => Int.natCast_nonneg _
  have hzero := (Finset.sum_eq_zero_iff_of_nonneg fun a _ => hnonneg a).mp
    (le_antisymm hcount (Finset.sum_nonneg fun a _ => hnonneg a)) a
    (Finset.mem_filter.mpr ⟨mem_toFinset.mpr ha, hsuffix⟩)
  simpa [runningCount] using hzero

/-! ## One round of the loop over the dirty sub groups -/

section Round

variable {refresh : ResourceGroupId → Groups → Groups}

/-- A sub group loses its mark only if nothing runs in it any more. -/
theorem mem_dirty_of_refreshSubGroup
    (hlocal : ∀ s a, ¬ (n :: p) <:+ a → (refresh (n :: p) s).group a = s.group a)
    (hm : m ∈ (s.group p).dirtySubGroups)
    (hkeep : m = n → ((refreshSubGroup refresh p s n).group (n :: p)).isDirty = true) :
    m ∈ ((refreshSubGroup refresh p s n).group p).dirtySubGroups := by
  have hparent : ¬ (n :: p) <:+ p := not_cons_suffix_self n p
  have hchild := cons_ne_self n p
  rw [refreshSubGroup_group_of_ne hchild] at hkeep
  set s₁ := refresh (n :: p) (s.addMemory p (-(s.group (n :: p)).cachedMemoryUsageBytes))
    with hs₁
  have hsame : ∀ bytes, ((s₁.addMemory p bytes).group p).dirtySubGroups =
      (s.group p).dirtySubGroups := by
    intro bytes
    rw [addMemory, modify_group_self, hlocal _ p hparent, addMemory, modify_group_self]
  rw [refreshSubGroup_group, removeClean]
  split
  · rw [hsame]
    exact hm
  · rename_i hclean
    rw [modify_group_self]
    rw [hsame]
    refine (mem_erase_of_ne ?_).mpr hm
    intro hmn
    rw [addMemory, modify_group_of_ne hchild] at hclean
    exact hclean (hkeep hmn)

/-- What a refresh leaves behind: exact memory usages, and the next refresh can rely on it. -/
structure RefreshDone (t : PathTree String) (memory : Query → ℕ) (top : ResourceGroupId)
    (s : Groups) : Prop extends RefreshReady t top s where
  exact : MemoryExact t memory top s

theorem RefreshReady.of_refreshed (h : RefreshReady t x s) (hrefreshed : Refreshed s s')
    (hbalanced : MemoryBalancedFrom t q s') (hclean : CleanFrom t q s') : RefreshReady t q s' := by
  refine ⟨h.dirty.refreshed hrefreshed, ?_, ?_, hbalanced, hclean⟩
  · intro p hp hchildren
    rw [hrefreshed.running]
    exact h.leaves p hp hchildren
  · intro p hp
    rw [(hrefreshed.idle p).descendantRunning, h.counted p hp]
    refine Finset.sum_congr rfl ?_
    intro q _
    rw [runningCount, runningCount, hrefreshed.running]

/-- The refresh of a sub group can rely on the same facts. -/
theorem RefreshReady.addMemory (h : RefreshReady t p s) (bytes : ℤ) :
    RefreshReady t (n :: p) (s.addMemory p bytes) := by
  have hsame : ∀ a, (n :: p) <:+ a → (s.addMemory p bytes).group a = s.group a :=
    fun a ha => modify_group_of_ne (below_of_child ha).2.symm
  refine h.of_refreshed (.addMemory p bytes s) (h.balanced.addMemory bytes) ?_
  intro m q hmem hsuffix hdirty a ha hsub
  rw [hsame q hsuffix] at hdirty
  rw [hsame a ((hsuffix.trans (suffix_cons m q)).trans hsub)]
  exact h.clean m q hmem (below_of_child hsuffix).1 hdirty a ha hsub

/-- One round: the sub group is exact afterwards, and the loop can go on. -/
theorem RefreshReady.refreshSubGroup (h : RefreshReady t p s) (hchild : n ∈ t.children p)
    (hlocal : ∀ s a, ¬ (n :: p) <:+ a → (refresh (n :: p) s).group a = s.group a)
    (hrefreshed : ∀ q s, Refreshed s (refresh q s))
    (hrefresh : ∀ bytes, RefreshDone t memory (n :: p) (refresh (n :: p) (s.addMemory p bytes))) :
    RefreshReady t p (refreshSubGroup refresh p s n) ∧
      MemoryExact t memory (n :: p) (refreshSubGroup refresh p s n) := by
  set s' := Groups.refreshSubGroup refresh p s n with hs'
  have hdone := hrefresh (-(s.group (n :: p)).cachedMemoryUsageBytes)
  set s₁ := refresh (n :: p) (s.addMemory p (-(s.group (n :: p)).cachedMemoryUsageBytes))
  have hround : Refreshed s s' := .refreshSubGroup hrefreshed p s n
  have hsame : ∀ a, a ≠ p → s'.group a = s₁.group a := fun a ha => refreshSubGroup_group_of_ne ha
  have hother : ∀ a, a ≠ p → ¬ (n :: p) <:+ a → s'.group a = s.group a :=
    fun a hap ha => refreshSubGroup_group_of_other hlocal hap ha
  have hne : ∀ a, (n :: p) <:+ a → a ≠ p := fun a ha => (below_of_child ha).2.symm
  have hrunning₁ : ∀ a, (s'.group a).runningQueries = (s₁.group a).runningQueries := by
    intro a
    rw [hround.running, ((Refreshed.addMemory p _ s).trans (hrefreshed (n :: p) _)).running]
  have hexact : MemoryExact t memory (n :: p) s' := by
    intro q hq hsuffix
    rw [hsame q (hne q hsuffix), hdone.exact q hq hsuffix, memoryUsage_congr hrunning₁]
  have hbalanced : MemoryBalancedFrom t p s' :=
    h.balanced.refreshSubGroup hchild hlocal fun bytes => (hrefresh bytes).balanced
  have hready₁ : RefreshReady t (n :: p) s' := by
    refine h.of_refreshed hround ?_ ?_
    · exact fun q hq hsuffix => hbalanced q hq (below_of_child hsuffix).1
    · intro m q hmem hsuffix hdirty a ha hsub
      rw [hsame q (hne q hsuffix)] at hdirty
      have hna := (hsuffix.trans (suffix_cons m q)).trans hsub
      rw [hsame a (hne a hna)]
      exact hdone.clean m q hmem hsuffix hdirty a ha hsub
  refine ⟨h.of_refreshed hround hbalanced ?_, hexact⟩
  intro m q hmem hsuffix hdirty a ha hsub
  by_cases hnq : (n :: p) <:+ q
  · exact hready₁.clean m q hmem hnq hdirty a ha hsub
  by_cases hna : (n :: p) <:+ a
  · -- The pair is the sub group of this round, so its memory usage is exact.
    have hle : (n :: p).length ≤ (m :: q).length := Nat.succ_le_succ hsuffix.length_le
    have hnm := suffix_of_suffix_length_le hna hsub hle
    have hmq : m :: q = n :: p := ((suffix_cons_iff.mp hnm).resolve_right hnq).symm
    obtain ⟨rfl, rfl⟩ := cons.inj hmq
    have hempty : ∀ b ∈ t.ids, (m :: q) <:+ b → (s'.group b).runningQueries = ∅ := by
      intro b hb hmb
      by_cases hmark : m ∈ (s.group q).dirtySubGroups
      · refine hready₁.running_of_not_isDirty hmem ?_ hb hmb
        by_contra hisDirty
        refine hdirty (mem_dirty_of_refreshSubGroup hlocal hmark fun _ => ?_)
        simpa using hisDirty
      · rw [hround.running]
        exact (h.clean m q hmem hsuffix hmark b hb hmb).1
    refine ⟨hempty a ha hsub, ?_⟩
    rw [hexact a ha hna]
    exact memoryUsage_eq_zero ha fun b hb hab => hempty b hb (hsub.trans hab)
  · have hap : a ≠ p := by
      rintro rfl
      exact absurd (hsub.length_le.trans hsuffix.length_le) (by simp)
    rw [hother a hap hna]
    refine h.clean m q hmem hsuffix ?_ a ha hsub
    intro hmark
    refine hdirty ?_
    by_cases hqp : q = p
    · subst hqp
      refine mem_dirty_of_refreshSubGroup hlocal hmark ?_
      rintro rfl
      exact absurd hsub hna
    · rw [hother q hqp hnq]
      exact hmark

/-- The loop over all dirty sub groups leaves exact memory usages. -/
theorem RefreshReady.of_loop (h : RefreshReady t p s) (hp : p ∈ t.ids) (hparent : t.children p ≠ [])
    (hexact : ∀ n ∈ t.children p, n ∈ (s.group p).dirtySubGroups →
      MemoryExact t memory (n :: p) s) :
    RefreshDone t memory p s := by
  have hbelow : ∀ n ∈ t.children p, MemoryExact t memory (n :: p) s := by
    intro n hn
    by_cases hdirty : n ∈ (s.group p).dirtySubGroups
    · exact hexact n hn hdirty
    · intro q hq hsuffix
      have hclean := h.clean n p (t.mem_children.mp hn) suffix_rfl hdirty
      rw [(hclean q hq hsuffix).2, memoryUsage_eq_zero hq]
      intro a ha hqa
      exact (hclean a ha (hsuffix.trans hqa)).1
  refine ⟨h, ?_⟩
  intro q hq hsuffix
  by_cases hqp : p = q
  · subst hqp
    rw [h.balanced p hp suffix_rfl hparent, memoryUsage_eq_sum_children, ownMemoryUsage,
      h.leaves p hp hparent, Finset.sum_empty, zero_add]
    refine Finset.sum_congr rfl ?_
    intro n hn
    have hn := mem_toFinset.mp hn
    exact hbelow n hn _ (t.mem_children.mp hn) suffix_rfl
  · obtain ⟨n, hn⟩ := Below.exists_child ⟨hsuffix, hqp⟩
    exact hbelow n (t.mem_children.mpr (t.mem_of_suffix hn hq)) q hq hn

end Round

/-- The refresh of a leaf. -/
theorem RefreshReady.refreshLeaf (h : RefreshReady t p s) (hleaf : t.children p = []) :
    RefreshDone t memory p (s.refreshLeaf memory p) := by
  have hbelow : ∀ q ∈ t.ids, p <:+ q → q = p :=
    fun q hq hsuffix => (t.eq_of_leaf hleaf hq hsuffix).symm
  refine ⟨h.of_refreshed (.refreshLeaf memory p s) (.of_leaf hleaf) ?_, ?_⟩
  · intro n q hmem hsuffix
    have hq := hbelow q (t.parent_mem n q hmem) hsuffix
    subst hq
    have hn := t.mem_children.mpr hmem
    rw [hleaf] at hn
    exact absurd hn not_mem_nil
  · intro q hq hsuffix
    rw [hbelow q hq hsuffix, memoryUsage_eq_sum_children, hleaf, Groups.refreshLeaf]
    simp only [ownMemoryUsage, modify_group_self, toFinset_nil, Finset.sum_empty, add_zero]

/-- A refresh gives the groups of its subtree the memory of the queries that run there. -/
theorem RefreshReady.internalRefreshStats (memory : Query → ℕ) (iteration : HashOrder) (below : ℕ)
    (h : RefreshReady t p s) (hp : p ∈ t.ids) (hbelow : t.height ≤ p.length + below) :
    RefreshDone t memory p (s.internalRefreshStats t memory iteration below p) := by
  induction below generalizing p s with
  | zero => exact h.refreshLeaf (t.children_eq_nil_of_height hbelow)
  | succ below ih =>
      rw [internalRefreshStats]
      split
      · rename_i hleaf
        exact h.refreshLeaf hleaf
      rename_i hparent
      -- What was processed is exact, since later rounds work on other subtrees.
      have hloop := ListUpdates.foldl_induction
        (motive := fun processed s' => Refreshed s s' ∧ RefreshReady t p s' ∧
          ∀ n ∈ processed, MemoryExact t memory (n :: p) s')
        (iteration.order (s.group p).dirtySubGroups)
        (Groups.refreshSubGroup (Groups.internalRefreshStats t memory iteration below) p)
        s ⟨.refl s, h, by simp⟩ ?_
      · obtain ⟨hrefreshed, hready, hexact⟩ := hloop
        refine hready.of_loop hp hparent ?_
        intro n _ hdirty
        obtain ⟨bytes, dirty, hsublist, hgroup⟩ := hrefreshed.group p
        rw [hgroup] at hdirty
        exact hexact n ((iteration.perm _).mem_iff.mpr (hsublist.subset hdirty))
      intro processed s' n hinit hs'
      have hn : n ∈ iteration.order (s.group p).dirtySubGroups := hinit.subset (by simp)
      obtain ⟨hrefreshed, hready, hexact⟩ := hs'
      have hchild : n ∈ t.children p := (h.dirty p hp).2 n ((iteration.perm _).mem_iff.mp hn)
      have hlocal : ∀ s a, ¬ (n :: p) <:+ a →
          (Groups.internalRefreshStats t memory iteration below (n :: p) s).group a =
            s.group a :=
        fun s a ha => internalRefreshStats_group_of_not_suffix memory iteration below ha
      have hround := hready.refreshSubGroup hchild hlocal
        (.internalRefreshStats memory iteration below) fun bytes =>
          ih (hready.addMemory bytes) (t.mem_children.mp hchild)
            (by rw [length_cons]; omega)
      have hthis : Refreshed s' (Groups.refreshSubGroup
          (Groups.internalRefreshStats t memory iteration below) p s' n) :=
        .refreshSubGroup (.internalRefreshStats memory iteration below) p s' n
      refine ⟨hrefreshed.trans hthis, hround.1, ?_⟩
      intro m hm
      by_cases hmn : m = n
      · rw [hmn]
        exact hround.2
      · have hm : m ∈ processed := by simpa [hmn] using hm
        intro q hq hsuffix
        have hqp : q ≠ p := (below_of_child hsuffix).2.symm
        rw [refreshSubGroup_group_of_other hlocal hqp fun hnq => hmn (child_unique hsuffix hnq),
          hexact m hm q hq hsuffix]
        exact (memoryUsage_congr hthis.running).symm

/-! ## Calls that do not refresh -/

/-- A change keeps clean sub groups clean if a group where more runs is marked on its path. -/
theorem CleanFrom.of_marked (h : CleanFrom t x s)
    (hdirty : ∀ a n, n ∈ (s.group a).dirtySubGroups → n ∈ (s'.group a).dirtySubGroups)
    (hcached : ∀ a, (s'.group a).cachedMemoryUsageBytes = (s.group a).cachedMemoryUsageBytes)
    (hrunning : ∀ a, (s'.group a).runningQueries ⊆ (s.group a).runningQueries ∨
      ∀ n q, (n :: q) <:+ a → n ∈ (s'.group q).dirtySubGroups) :
    CleanFrom t x s' := by
  intro n q hmem hsuffix hclean a ha hsub
  have hbefore := h n q hmem hsuffix (fun hn => hclean (hdirty q n hn)) a ha hsub
  rw [hcached]
  refine ⟨?_, hbefore.2⟩
  rcases hrunning a with hsubset | hmarked
  · rw [hbefore.1] at hsubset
    exact Finset.subset_empty.mp hsubset
  · exact absurd (hmarked n q hsub) hclean

theorem CleanFrom.of_calm (h : CleanFrom t x s) (hcalm : Calm s s') : CleanFrom t x s' := by
  refine h.of_marked ?_ (fun a => (hcalm a).memory) fun a => .inl ?_
  · intro a n hn
    rw [(hcalm a).dirty]
    exact hn
  · rw [(hcalm a).running]

theorem mem_descendantStarted_dirtySubGroups {g : InternalResourceGroup} :
    m ∈ (g.descendantStarted n).dirtySubGroups ↔ m = n ∨ m ∈ g.dirtySubGroups := by
  rw [InternalResourceGroup.descendantStarted]
  split
  · constructor
    · exact .inr
    · rintro (rfl | hm)
      · assumption
      · exact hm
  · rw [mem_append, mem_singleton, or_comm]

/-- A started query marks the groups on its path. -/
theorem CleanFrom.of_started (h : CleanFrom t a s) (hmarks : Marks x s s')
    (hcached : ∀ a, (s'.group a).cachedMemoryUsageBytes = (s.group a).cachedMemoryUsageBytes) :
    CleanFrom t a s' := by
  refine h.of_marked ?_ hcached ?_
  · intro a m hm
    rcases on_path_cases a x with rfl | ⟨n, hn⟩ | hnot
    · rw [hmarks.place]
      exact hm
    · rw [(hmarks.between a n hn).1, mem_descendantStarted_dirtySubGroups]
      exact .inr hm
    · rw [hmarks.other a hnot]
      exact hm
  · intro a
    rcases on_path_cases a x with rfl | ⟨n, hn⟩ | hnot
    · right
      intro n q hn
      rw [(hmarks.between q n hn).1, mem_descendantStarted_dirtySubGroups]
      exact .inl rfl
    · left
      rw [(hmarks.between a n hn).2]
    · left
      rw [hmarks.other a hnot]

theorem CleanFrom.startInBackground (h : CleanFrom t a s) :
    CleanFrom t a (s.startInBackground x query) :=
  h.of_started marks_startInBackground startInBackground_cachedMemoryUsageBytes

theorem CleanFrom.startNext (h : CleanFrom t a s) (draw : ResourceGroupId → ℕ) :
    CleanFrom t a (s.startNext t draw).2 := by
  rcases startNext_cases t draw s with ⟨-, hgroup, -⟩ | ⟨-, x, query, hstarted, -⟩
  · exact h.of_calm (.of_group hgroup)
  · exact h.of_started hstarted.marks (startNext_keeps (·.cachedMemoryUsageBytes) t draw)

/-- A call that keeps the memory usages and marks and starts nothing. -/
theorem CleanFrom.of_memoryState
    (h : CleanFrom t x s) (hstate : ∀ a, s'.memoryState a = s.memoryState a)
    (hrunning : ∀ a, (s'.group a).runningQueries ⊆ (s.group a).runningQueries) :
    CleanFrom t x s' := by
  refine h.of_marked ?_ (fun a => congrArg Prod.fst (hstate a)) fun a => .inl (hrunning a)
  intro a n hn
  have hdirty : (s'.group a).dirtySubGroups = (s.group a).dirtySubGroups :=
    congrArg Prod.snd (hstate a)
  rw [hdirty]
  exact hn

theorem CleanFrom.enqueueQuery (h : CleanFrom t a s) : CleanFrom t a (s.enqueueQuery x query) := by
  refine h.of_memoryState enqueueQuery_memoryState ?_
  intro a
  rw [enqueueQuery_group]
  exact (path_keeps (·.runningQueries) a).le

theorem CleanFrom.queryFinished {cpuTimeMillis : ℕ} {counts : Bool} (h : CleanFrom t a s) :
    CleanFrom t a (s.queryFinished x query cpuTimeMillis counts) := by
  refine h.of_memoryState queryFinished_memoryState ?_
  intro a
  by_cases hheld : s.holds x query
  · obtain ⟨running, queued, hmoves, -, hadd, -⟩ := queryFinished_moves hheld
    rw [hmoves.running a]
    split
    · exact Transfer.onSet_subset hadd.1
    · exact Finset.Subset.refl _
  · rw [queryFinished_of_not_held hheld]

end Presto.ResourceGroups.Groups
