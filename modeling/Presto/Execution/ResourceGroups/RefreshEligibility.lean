import Presto.Execution.ResourceGroups.Eligibility
import Presto.Execution.ResourceGroups.MemoryUsage

/-!
# Eligible sub groups and the refresh of the memory usages

A group whose memory usage changes is updated by the loop of its parent.  While
that loop works on a sub group, the usage of its group is without the one of the
sub group.  An update from further below then judges the group by too small a
usage, and nothing corrects it if neither the group nor the sub group changed in
the end.  That can only hide that the group is over its memory limit.
-/

namespace Presto.ResourceGroups.Groups

open List

variable {t : PathTree String} {s s' s'' base : Groups} {p q a : ResourceGroupId} {n : String}
  {memory : Query → ℕ}

/-- A refresh changes the memory usage of the group. -/
def MemoryChanged (t : PathTree String) (memory : Query → ℕ) (s : Groups)
    (p : ResourceGroupId) : Prop :=
  s.memoryUsage t memory p ≠ (s.group p).cachedMemoryUsageBytes

/-- A refresh changes memory usages below a sub group that keeps its own. -/
def HiddenChange (t : PathTree String) (memory : Query → ℕ) (s : Groups)
    (p : ResourceGroupId) : Prop :=
  ∃ n ∈ t.children p, ¬ MemoryChanged t memory s (n :: p) ∧
    ∃ q ∈ t.ids, Below (n :: p) q ∧ MemoryChanged t memory s q

/-- No group below the root stays over its memory limit while it has a hidden change. -/
def RefreshSafe (t : PathTree String) (memory : Query → ℕ) (s : Groups) : Prop :=
  ∀ p ∈ t.ids, p ≠ [] → (s.group p).softMemoryLimitBytes < s.memoryUsage t memory p →
    ¬ MemoryChanged t memory s p → ¬ HiddenChange t memory s p

/-! ## Groups that differ in their memory usages -/

/-- The groups have the same fields up to the memory usages and the marks. -/
def SameButMemory (s s' : Groups) : Prop :=
  s'.taskLimitExceeded = s.taskLimitExceeded ∧
    ∀ a, ∃ bytes dirty, s'.group a =
      { s.group a with cachedMemoryUsageBytes := bytes, dirtySubGroups := dirty }

theorem SameButMemory.refl (s : Groups) : SameButMemory s s := ⟨rfl, fun _ => ⟨_, _, rfl⟩⟩

theorem SameButMemory.trans (h : SameButMemory s s') (h' : SameButMemory s' s'') :
    SameButMemory s s'' := by
  refine ⟨h'.1.trans h.1, ?_⟩
  intro a
  obtain ⟨bytes, dirty, hgroup⟩ := h.2 a
  obtain ⟨bytes', dirty', hgroup'⟩ := h'.2 a
  exact ⟨bytes', dirty', by rw [hgroup', hgroup]⟩

theorem Refreshed.sameButMemory (h : Refreshed s s') : SameButMemory s s' := by
  refine ⟨h.taskLimitExceeded, ?_⟩
  intro a
  obtain ⟨bytes, dirty, -, hgroup⟩ := h.group a
  exact ⟨bytes, dirty, hgroup⟩

/-- The entry of a group depends on its memory usage only through the limit. -/
theorem Current.of_sameButMemory (h : Current s a) (hsame : SameButMemory s s')
    (heligible : s'.eligibleSubGroups = s.eligibleSubGroups)
    (hfits : (s'.group a).cachedMemoryUsageBytes ≤ (s.group a).softMemoryLimitBytes ↔
      (s.group a).cachedMemoryUsageBytes ≤ (s.group a).softMemoryLimitBytes) :
    Current s' a := by
  cases a with
  | nil => trivial
  | cons n p =>
      obtain ⟨bytes, dirty, hgroup⟩ := hsame.2 (n :: p)
      obtain ⟨bytes', dirty', hparent⟩ := hsame.2 p
      rw [hgroup] at hfits
      refine h.congr ?_ (by rw [hparent]) ?_ (by simp [heligible])
      · have hcan : s'.canRunMore (n :: p) = s.canRunMore (n :: p) := by
          rw [canRunMore, hgroup, hsame.1]
          simp only [InternalResourceGroup.canRunMore, hfits]
          rfl
        rw [isEligibleToStartNext, isEligibleToStartNext, hcan, heligible, hgroup]
      · rw [hgroup]
        rfl

theorem Current.of_same_memory (h : Current s a) (hsame : SameButMemory s s')
    (heligible : s'.eligibleSubGroups = s.eligibleSubGroups)
    (hcached : (s'.group a).cachedMemoryUsageBytes = (s.group a).cachedMemoryUsageBytes) :
    Current s' a :=
  h.of_sameButMemory hsame heligible (by rw [hcached])

/-- The entry of a group is the one it would have with the given memory usage. -/
def CurrentAt (s : Groups) (a : ResourceGroupId) (bytes : ℤ) : Prop :=
  ∃ s', SameButMemory s' s ∧ s.eligibleSubGroups = s'.eligibleSubGroups ∧
    (s'.group a).cachedMemoryUsageBytes = bytes ∧ Current s' a

theorem Current.currentAt (h : Current s a) : CurrentAt s a (s.group a).cachedMemoryUsageBytes :=
  ⟨s, .refl s, rfl, rfl, h⟩

variable {bytes : ℤ}

theorem CurrentAt.of_sameButMemory (h : CurrentAt s a bytes) (hsame : SameButMemory s s')
    (heligible : s'.eligibleSubGroups = s.eligibleSubGroups) : CurrentAt s' a bytes := by
  obtain ⟨s₀, hsame₀, heligible₀, hcached, hcurrent⟩ := h
  exact ⟨s₀, hsame₀.trans hsame, heligible.trans heligible₀, hcached, hcurrent⟩

theorem CurrentAt.current (h : CurrentAt s a bytes)
    (hfits : (s.group a).cachedMemoryUsageBytes ≤ (s.group a).softMemoryLimitBytes ↔
      bytes ≤ (s.group a).softMemoryLimitBytes) :
    Current s a := by
  obtain ⟨s₀, hsame, heligible, rfl, hcurrent⟩ := h
  refine hcurrent.of_sameButMemory hsame heligible ?_
  obtain ⟨bytes, dirty, hgroup⟩ := hsame.2 a
  rw [hgroup] at hfits ⊢
  exact hfits

/-! ## What a refresh does to the entries -/

/--
What a refresh of `p` leaves behind: the entries off its path are current; the
entries above it are untouched or were all updated; its own entry is current
unless its memory usage changed.
-/
structure RefreshedCurrent (t : PathTree String) (memory : Query → ℕ) (base : Groups)
    (p : ResourceGroupId) (s s' : Groups) : Prop where
  off : CurrentOff t p s'
  above : s'.eligibleSubGroups = s.eligibleSubGroups ∨
    ((∃ q ∈ t.ids, Below p q ∧ MemoryChanged t memory base q) ∧
      ∀ a ∈ t.ids, Below a p → Current s' a)
  self : (s'.group p).cachedMemoryUsageBytes = (s.group p).cachedMemoryUsageBytes → Current s' p

/-- The loop over the dirty sub groups of `p`, after some of them. -/
structure RefreshLoop (t : PathTree String) (memory : Query → ℕ) (base : Groups)
    (p : ResourceGroupId) (s : Groups) (processed : List String) (s' : Groups) : Prop where
  refreshed : Refreshed s s'
  ready : RefreshReady t p s'
  untouched : ∀ q, q ≠ p → (∀ n ∈ processed, ¬ (n :: p) <:+ q) → s'.group q = s.group q
  off : CurrentOff t p s'
  above : s'.eligibleSubGroups = s.eligibleSubGroups ∨
    ((∃ q ∈ t.ids, Below p q ∧ MemoryChanged t memory base q) ∧
      ∀ a ∈ t.ids, Below a p → Current s' a)
  self : ∃ bytes ≤ (s'.group p).cachedMemoryUsageBytes, CurrentAt s' p bytes ∧
    (bytes = (s'.group p).cachedMemoryUsageBytes ∨ HiddenChange t memory base p)

section Round

variable {refresh : ResourceGroupId → Groups → Groups} {processed : List String} {s₂ s₄ : Groups}

/--
The states of a round: before it, after the refresh of the sub group `n`, and
before the last update.
-/
structure RefreshRound (t : PathTree String) (memory : Query → ℕ) (base : Groups)
    (p : ResourceGroupId) (n : String) (s s₂ s₄ : Groups) : Prop where
  same : SameButMemory s s₂
  sameLast : SameButMemory s₂ s₄
  eligible : s₄.eligibleSubGroups = s₂.eligibleSubGroups
  other : ∀ a, a ≠ p → ¬ (n :: p) <:+ a → s₂.group a = s.group a
  cached : ∀ a, a ≠ p →
    (s₄.group a).cachedMemoryUsageBytes = (s₂.group a).cachedMemoryUsageBytes
  reduced : (s₂.group p).cachedMemoryUsageBytes =
    (s.group p).cachedMemoryUsageBytes - (s.group (n :: p)).cachedMemoryUsageBytes
  restored : (s₄.group p).cachedMemoryUsageBytes =
    (s₂.group p).cachedMemoryUsageBytes + (s₂.group (n :: p)).cachedMemoryUsageBytes
  old : (s.group (n :: p)).cachedMemoryUsageBytes =
    (base.group (n :: p)).cachedMemoryUsageBytes
  new : (s₂.group (n :: p)).cachedMemoryUsageBytes = base.memoryUsage t memory (n :: p)
  off : CurrentOff t (n :: p) s₂
  above : s₂.eligibleSubGroups = s.eligibleSubGroups ∨
    ((∃ q ∈ t.ids, Below (n :: p) q ∧ MemoryChanged t memory base q) ∧
      ∀ a ∈ t.ids, Below a (n :: p) → Current s₂ a)
  self : (s₂.group (n :: p)).cachedMemoryUsageBytes =
    (s.group (n :: p)).cachedMemoryUsageBytes → Current s₂ (n :: p)

section OneRound

variable (h : RefreshRound t memory base p n s s₂ s₄)

include h

theorem RefreshRound.stays (ha : a ≠ p) (hcurrent : Current s₂ a) : Current s₄ a :=
  hcurrent.of_same_memory h.sameLast h.eligible (h.cached a ha)

theorem RefreshRound.offLast : CurrentOff t (n :: p) s₄ := by
  intro a ha hoff
  refine h.stays ?_ (h.off a ha hoff)
  rintro rfl
  exact hoff (suffix_cons n a)

theorem RefreshRound.memoryChanged_iff :
    MemoryChanged t memory base (n :: p) ↔
      (s.group (n :: p)).cachedMemoryUsageBytes ≠
        (s₂.group (n :: p)).cachedMemoryUsageBytes := by
  rw [MemoryChanged, ← h.new, ← h.old, ne_comm]

/-- The groups above the loop are as before, or the last update from below repaired them. -/
theorem RefreshRound.aboveLast
    (hbefore : s.eligibleSubGroups = s'.eligibleSubGroups ∨
      ((∃ q ∈ t.ids, Below p q ∧ MemoryChanged t memory base q) ∧
        ∀ a ∈ t.ids, Below a p → Current s a)) :
    s₄.eligibleSubGroups = s'.eligibleSubGroups ∨
      ((∃ q ∈ t.ids, Below p q ∧ MemoryChanged t memory base q) ∧
        ∀ a ∈ t.ids, Below a p → Current s₄ a) := by
  rcases h.above with hquiet | ⟨⟨q, hq, hbelow, hqchanged⟩, hcurrent⟩
  · rcases hbefore with hbefore | ⟨hexists, hcurrent⟩
    · exact .inl ((h.eligible.trans hquiet).trans hbefore)
    · refine .inr ⟨hexists, ?_⟩
      intro a ha hap
      have hnot : ¬ (n :: p) <:+ a := fun hsuffix =>
        absurd (hsuffix.length_le.trans_lt hap.length_lt) (by simp)
      refine (hcurrent a ha hap).of_same_memory (h.same.trans h.sameLast)
        (h.eligible.trans hquiet) ?_
      rw [h.cached a hap.2, h.other a hap.2 hnot]
  · refine .inr ⟨⟨q, hq, ?_, hqchanged⟩, ?_⟩
    · exact below_of_child hbelow.1
    · intro a ha hap
      exact h.stays hap.2 (hcurrent a ha (Below.cons_iff.mpr hap.1))

section Unchanged

variable (hunchanged : ¬ MemoryChanged t memory base (n :: p))

include hunchanged

theorem RefreshRound.cached_of_unchanged :
    (s₄.group p).cachedMemoryUsageBytes = (s.group p).cachedMemoryUsageBytes := by
  rw [h.memoryChanged_iff, not_not] at hunchanged
  rw [h.restored, h.reduced, ← hunchanged]
  ring

/-- A sub group that keeps its memory usage has a current entry. -/
theorem RefreshRound.off_of_unchanged : CurrentOff t p s₄ := by
  intro a ha hoff
  by_cases han : a = n :: p
  · subst han
    rw [h.memoryChanged_iff, not_not] at hunchanged
    exact h.stays (cons_ne_self n p) (h.self hunchanged.symm)
  · refine h.offLast a ha ?_
    intro hsuffix
    exact (suffix_cons_iff.mp hsuffix).elim han hoff

/-- An update from below judged the group of the loop without the usage of the sub group. -/
theorem RefreshRound.self_of_unchanged (hp : p ∈ t.ids) (hchild : n ∈ t.children p)
    (hbefore : ∃ bytes ≤ (s.group p).cachedMemoryUsageBytes, CurrentAt s p bytes ∧
      (bytes = (s.group p).cachedMemoryUsageBytes ∨ HiddenChange t memory base p)) :
    ∃ bytes ≤ (s₄.group p).cachedMemoryUsageBytes, CurrentAt s₄ p bytes ∧
      (bytes = (s₄.group p).cachedMemoryUsageBytes ∨ HiddenChange t memory base p) := by
  rw [h.cached_of_unchanged hunchanged]
  rcases h.above with hquiet | ⟨⟨q, hq, hbelow, hqchanged⟩, hcurrent⟩
  · obtain ⟨bytes, hle, hat, hreason⟩ := hbefore
    exact ⟨bytes, hle,
      hat.of_sameButMemory (h.same.trans h.sameLast) (h.eligible.trans hquiet), hreason⟩
  · have hat := (hcurrent p hp (Below.cons_iff.mpr suffix_rfl)).currentAt
    refine ⟨_, ?_, hat.of_sameButMemory h.sameLast h.eligible,
      .inr ⟨n, hchild, hunchanged, q, hq, hbelow, hqchanged⟩⟩
    rw [h.memoryChanged_iff, not_not] at hunchanged
    rw [h.reduced, hunchanged, h.new]
    exact sub_le_self _ memoryUsage_nonneg

end Unchanged

end OneRound

section SubGroup

variable (h : RefreshLoop t memory base p s processed s') (hbase : Refreshed base s)
  (hcached : ∀ q, p <:+ q →
    (s.group q).cachedMemoryUsageBytes = (base.group q).cachedMemoryUsageBytes)
  (hchild : n ∈ t.children p) (hnew : n ∉ processed)
  (hlocal : ∀ s a, ¬ (n :: p) <:+ a → (refresh (n :: p) s).group a = s.group a)
  (hrefreshed : ∀ q s, Refreshed s (refresh q s))
  (hdone : ∀ bytes, RefreshDone t memory (n :: p) (refresh (n :: p) (s'.addMemory p bytes)))
  (hsub : ∀ s, RefreshReady t (n :: p) s → Refreshed base s →
    (∀ q, (n :: p) <:+ q →
      (s.group q).cachedMemoryUsageBytes = (base.group q).cachedMemoryUsageBytes) →
    CurrentOff t (n :: p) s → Current s (n :: p) →
    RefreshedCurrent t memory base (n :: p) s (refresh (n :: p) s))

include h hbase hcached hchild hnew hlocal hrefreshed hdone hsub

/-- What one round does to the entries, given what the refresh of the sub group does. -/
theorem RefreshLoop.refreshRound :
    ∃ s₂ s₄, RefreshRound t memory base p n s' s₂ s₄ ∧
      refreshSubGroup refresh p s' n =
        if (s'.group (n :: p)).cachedMemoryUsageBytes ≠
            (s₂.group (n :: p)).cachedMemoryUsageBytes then s₄.updateEligibility (n :: p)
        else s₄ := by
  have hmem : n :: p ∈ t.ids := t.mem_children.mp hchild
  have hne : ∀ a, (n :: p) <:+ a → a ≠ p := fun a ha => (below_of_child ha).2.symm
  have hparent : ¬ (n :: p) <:+ p := fun hsuffix => hne p hsuffix rfl
  have hbefore : ∀ q, (n :: p) <:+ q →
      (s'.group q).cachedMemoryUsageBytes = (base.group q).cachedMemoryUsageBytes := by
    intro q hq
    rw [h.untouched q (hne q hq)]
    · exact hcached q (below_of_child hq).1
    · intro m hm hmq
      exact hnew (child_unique hq hmq ▸ hm)
  set old := (s'.group (n :: p)).cachedMemoryUsageBytes
  set s₁ := s'.addMemory p (-old) with hs₁
  set s₂ := refresh (n :: p) s₁ with hs₂
  have hsame₁ : ∀ a, a ≠ p → s₁.group a = s'.group a := fun a ha => modify_group_of_ne ha
  have hrefreshed₁ : Refreshed s' s₁ := .addMemory p (-old) s'
  have hbase₁ : Refreshed base s₁ := (hbase.trans h.refreshed).trans hrefreshed₁
  have hcontract : RefreshedCurrent t memory base (n :: p) s₁ s₂ := by
    refine hsub s₁ (h.ready.addMemory _) hbase₁ ?_ ?_ ?_
    · intro q hq
      rw [hsame₁ q (hne q hq)]
      exact hbefore q hq
    · intro a ha hoff
      have hap : a ≠ p := by
        rintro rfl
        exact hoff (suffix_cons n a)
      refine (h.off a ha fun hsuffix => hoff (hsuffix.trans (suffix_cons n p))).of_same_memory
        hrefreshed₁.sameButMemory rfl ?_
      rw [hsame₁ a hap]
    · refine (h.off _ hmem hparent).of_same_memory hrefreshed₁.sameButMemory rfl ?_
      rw [hsame₁ _ (cons_ne_self n p)]
  refine ⟨s₂, (s₂.addMemory p (s₂.group (n :: p)).cachedMemoryUsageBytes).removeClean p n,
    ⟨?_, ?_, ?_, ?_, ?_, ?_, ?_, hbefore _ suffix_rfl, ?_, hcontract.off, hcontract.above, ?_⟩,
    rfl⟩
  · exact (hrefreshed₁.trans (hrefreshed _ _)).sameButMemory
  · exact ((Refreshed.addMemory p _ s₂).trans (.removeClean p n _)).sameButMemory
  · rw [removeClean_eligibleSubGroups]
    rfl
  · intro a hap ha
    rw [hlocal _ a ha, hsame₁ a hap]
  · intro a ha
    rw [removeClean_cachedMemoryUsageBytes, addMemory, modify_group_of_ne ha]
  · rw [hlocal _ p hparent, hs₁, addMemory, modify_group_self]
    rfl
  · rw [removeClean_cachedMemoryUsageBytes, addMemory, modify_group_self]
  · rw [hs₂, (hdone (-old)).exact _ hmem suffix_rfl]
    exact memoryUsage_congr (hbase₁.trans (hrefreshed _ _)).running
  · intro hsame
    refine hcontract.self (hsame.trans ?_)
    rw [hsame₁ _ (cons_ne_self n p)]

/-- One round of the loop. -/
theorem RefreshLoop.round (hp : p ∈ t.ids) :
    RefreshLoop t memory base p s (processed ++ [n]) (refreshSubGroup refresh p s' n) := by
  have hround : Refreshed s (Groups.refreshSubGroup refresh p s' n) :=
    h.refreshed.trans (.refreshSubGroup hrefreshed p s' n)
  have hready := (h.ready.refreshSubGroup hchild hlocal hrefreshed hdone).1
  have huntouched : ∀ q, q ≠ p → (∀ m ∈ processed ++ [n], ¬ (m :: p) <:+ q) →
      (Groups.refreshSubGroup refresh p s' n).group q = s.group q := by
    intro q hqp hq
    rw [refreshSubGroup_group_of_other hlocal hqp (hq n (by simp))]
    exact h.untouched q hqp fun m hm => hq m (by simp [hm])
  obtain ⟨s₂, s₄, hstates, heq⟩ :=
    h.refreshRound hbase hcached hchild hnew hlocal hrefreshed hdone hsub
  rw [heq] at hround hready huntouched ⊢
  by_cases hchanged : MemoryChanged t memory base (n :: p)
  · rw [if_pos (hstates.memoryChanged_iff.mp hchanged)] at hround hready huntouched ⊢
    have hall := hstates.offLast.updateEligibility
    refine ⟨hround, hready, huntouched, hall.off p, .inr ⟨?_, fun a ha _ => hall a ha⟩,
      _, le_rfl, (hall p hp).currentAt, .inl rfl⟩
    exact ⟨n :: p, t.mem_children.mp hchild, Below.cons_iff.mpr suffix_rfl, hchanged⟩
  · rw [if_neg (fun hne => hchanged (hstates.memoryChanged_iff.mpr hne))]
      at hround hready huntouched ⊢
    exact ⟨hround, hready, huntouched, hstates.off_of_unchanged hchanged, hstates.aboveLast h.above,
      hstates.self_of_unchanged hchanged hp hchild h.self⟩

end SubGroup

/-- At the end of the loop the entry of its group is current unless its usage changed. -/
theorem RefreshLoop.refreshedCurrent (h : RefreshLoop t memory base p s processed s')
    (hsafe : RefreshSafe t memory base) (hbase : Refreshed base s) (hp : p ∈ t.ids)
    (hcached : (s.group p).cachedMemoryUsageBytes = (base.group p).cachedMemoryUsageBytes)
    (hexact : (s'.group p).cachedMemoryUsageBytes = base.memoryUsage t memory p) :
    RefreshedCurrent t memory base p s s' := by
  refine ⟨h.off, h.above, ?_⟩
  intro hsame
  by_cases hroot : p = []
  · rw [hroot]
    trivial
  obtain ⟨bytes, hle, hat, hreason⟩ := h.self
  refine hat.current ?_
  rcases hreason with heq | hhidden
  · rw [heq]
  · have hunchanged : ¬ MemoryChanged t memory base p := by
      rw [MemoryChanged, not_not, ← hexact, hsame, hcached]
    have hlimit : (s'.group p).softMemoryLimitBytes = (base.group p).softMemoryLimitBytes := by
      obtain ⟨_, _, -, hgroup⟩ := (hbase.trans h.refreshed).group p
      rw [hgroup]
    have hwithin : (s'.group p).cachedMemoryUsageBytes ≤ (s'.group p).softMemoryLimitBytes := by
      rw [hexact, hlimit]
      by_contra hover
      exact hsafe p hp hroot (not_le.mp hover) hunchanged hhidden
    exact iff_of_true hwithin (hle.trans hwithin)

end Round

/-- The refresh of a leaf does not touch the entries. -/
theorem RefreshedCurrent.refreshLeaf (hoff : CurrentOff t p s) (hself : Current s p) :
    RefreshedCurrent t memory base p s (s.refreshLeaf memory p) := by
  have hsame := (Refreshed.refreshLeaf memory p s).sameButMemory
  refine ⟨?_, .inl rfl, fun hcached => hself.of_same_memory hsame rfl hcached⟩
  intro a ha hoffPath
  refine (hoff a ha hoffPath).of_same_memory hsame rfl ?_
  rw [Groups.refreshLeaf, modify_group_of_ne (ne_of_not_suffix hoffPath)]

/-- A safe refresh of a subtree. -/
theorem RefreshedCurrent.internalRefreshStats
    (iteration : HashOrder) (below : ℕ) (hsafe : RefreshSafe t memory base)
    (hp : p ∈ t.ids) (hbelow : t.height ≤ p.length + below) (hready : RefreshReady t p s)
    (hbase : Refreshed base s)
    (hcached : ∀ q, p <:+ q →
      (s.group q).cachedMemoryUsageBytes = (base.group q).cachedMemoryUsageBytes)
    (hoff : CurrentOff t p s) (hself : Current s p) :
    RefreshedCurrent t memory base p s (s.internalRefreshStats t memory iteration below p) := by
  induction below generalizing p s with
  | zero => exact .refreshLeaf hoff hself
  | succ below ih =>
      have hdone := hready.internalRefreshStats memory iteration (below + 1) hp hbelow
      have hall := Refreshed.internalRefreshStats (t := t) memory iteration (below + 1) p s
      rw [Groups.internalRefreshStats] at hdone hall ⊢
      split
      · exact .refreshLeaf hoff hself
      rename_i hparent
      rw [if_neg hparent] at hdone hall
      have hnodup : (iteration.order (s.group p).dirtySubGroups).Nodup :=
        (iteration.perm _).nodup_iff.mpr (hready.dirty p hp).1
      have hloop := ListUpdates.foldl_induction
        (motive := RefreshLoop t memory base p s)
        (iteration.order (s.group p).dirtySubGroups)
        (Groups.refreshSubGroup (Groups.internalRefreshStats t memory iteration below) p)
        s ⟨.refl s, hready, fun _ _ _ => rfl, hoff, .inl rfl,
          _, le_rfl, hself.currentAt, .inl rfl⟩ ?_
      · refine hloop.refreshedCurrent hsafe hbase hp (hcached p suffix_rfl) ?_
        rw [hdone.exact p hp suffix_rfl]
        exact memoryUsage_congr (hbase.trans hall).running
      intro processed s' n hinit hs'
      have hn : n ∈ iteration.order (s.group p).dirtySubGroups := hinit.subset (by simp)
      have hchild : n ∈ t.children p :=
        (hready.dirty p hp).2 n ((iteration.perm _).mem_iff.mp hn)
      have hmem := t.mem_children.mp hchild
      have hlevels : t.height ≤ (n :: p).length + below := by
        rw [length_cons]
        omega
      have hnew : n ∉ processed :=
        (nodup_cons.mp (nodup_append_comm.mp (hnodup.sublist hinit.sublist))).1
      exact hs'.round hbase hcached hchild hnew
        (fun s a ha => internalRefreshStats_group_of_not_suffix memory iteration below ha)
        (.internalRefreshStats memory iteration below)
        (fun bytes => (hs'.ready.addMemory bytes).internalRefreshStats memory iteration below
          hmem hlevels)
        (fun s hready hbase hcached hoff hself =>
          ih hmem hlevels hready hbase hcached hoff hself) hp

/-- A safe refresh of the whole tree keeps all entries current. -/
theorem AllCurrent.refreshStats
    (iteration : HashOrder) (h : AllCurrent t s) (hready : RefreshReady t [] s)
    (hsafe : RefreshSafe t memory s) : AllCurrent t (s.refreshStats t memory iteration) := by
  have hrefreshed := RefreshedCurrent.internalRefreshStats iteration t.height hsafe t.root_mem
    (by simp) hready (.refl s) (fun q _ => rfl) (h.off []) trivial
  exact hrefreshed.off.all_of_root

end Presto.ResourceGroups.Groups
