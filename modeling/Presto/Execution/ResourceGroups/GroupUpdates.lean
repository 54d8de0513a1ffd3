import Presto.Execution.ResourceGroups.InternalResourceGroup

/-!
# What the updates of a group tree leave alone

A change of one group, the loops up to the root and the maintenance of the
eligible sub groups, each with what it changes and what it keeps.
-/

namespace Presto.ResourceGroups.Groups

variable {s : Groups} {p a : ResourceGroupId} {n : String}
  {f : InternalResourceGroup → InternalResourceGroup}

@[simp] theorem modify_group_self : (s.modify p f).group p = f (s.group p) := by
  simp [modify]

theorem modify_group_of_ne (h : a ≠ p) : (s.modify p f).group a = s.group a := by
  simp [modify, h]

theorem modify_group : (s.modify p f).group a = if a = p then f (s.group a) else s.group a := by
  by_cases h : a = p
  · subst h
    rw [modify_group_self, if_pos rfl]
  · rw [modify_group_of_ne h, if_neg h]

/-- What holds of a group and its change, and of a group and itself, holds of all groups. -/
theorem modify_related {R : InternalResourceGroup → InternalResourceGroup → Prop}
    (hrefl : ∀ g, R g g) (hf : R (s.group p) (f (s.group p))) (a : ResourceGroupId) :
    R (s.group a) ((s.modify p f).group a) := by
  rw [modify_group]
  split
  · rename_i h
    exact h ▸ hf
  · exact hrefl _

@[simp] theorem modify_eligibleSubGroups :
    (s.modify p f).eligibleSubGroups = s.eligibleSubGroups := rfl

@[simp] theorem modify_taskLimitExceeded :
    (s.modify p f).taskLimitExceeded = s.taskLimitExceeded := rfl

variable {e : Queue String → Queue String}

@[simp] theorem modifyEligible_group : (s.modifyEligible p e).group = s.group := rfl

@[simp] theorem modifyEligible_eligibleSubGroups_self :
    (s.modifyEligible p e).eligibleSubGroups p = e (s.eligibleSubGroups p) := by
  simp [modifyEligible]

theorem modifyEligible_eligibleSubGroups_of_ne (h : a ≠ p) :
    (s.modifyEligible p e).eligibleSubGroups a = s.eligibleSubGroups a := by
  simp [modifyEligible, h]

@[simp] theorem addOrUpdateSubGroup_group : (s.addOrUpdateSubGroup p n).group = s.group := rfl

theorem addOrUpdateSubGroup_eligibleSubGroups_of_ne (h : a ≠ p) :
    (s.addOrUpdateSubGroup p n).eligibleSubGroups a = s.eligibleSubGroups a := by
  rw [addOrUpdateSubGroup, modifyEligible_eligibleSubGroups_of_ne h]

theorem removeSubGroup_eligibleSubGroups_of_ne (h : a ≠ p) :
    (s.removeSubGroup p n).eligibleSubGroups a = s.eligibleSubGroups a := by
  rw [removeSubGroup, modifyEligible_eligibleSubGroups_of_ne h]

/-! ## The loops up to the root -/

variable {h : String → InternalResourceGroup → InternalResourceGroup}

@[simp] theorem forParents_eligibleSubGroups :
    (forParents h p s).eligibleSubGroups = s.eligibleSubGroups := by
  induction p generalizing s with
  | nil => rfl
  | cons n parent ih => rw [forParents, ih, modify_eligibleSubGroups]

@[simp] theorem forParents_taskLimitExceeded :
    (forParents h p s).taskLimitExceeded = s.taskLimitExceeded := by
  induction p generalizing s with
  | nil => rfl
  | cons n parent ih => rw [forParents, ih, modify_taskLimitExceeded]

/-- The loop over the parents changes only groups above. -/
theorem forParents_group_of_not_below (ha : ¬ Below a p) :
    (forParents h p s).group a = s.group a := by
  induction p generalizing s with
  | nil => rfl
  | cons n parent ih =>
      rw [Below.cons_iff] at ha
      rw [forParents, ih fun hbelow => ha hbelow.1, modify_group_of_ne (ne_of_not_suffix ha)]

/-- A group above is changed once, with the child on the path. -/
theorem forParents_group_of_child (ha : (n :: a) <:+ p) :
    (forParents h p s).group a = h n (s.group a) := by
  induction p generalizing s with
  | nil => exact absurd ha.length_le (by simp)
  | cons m parent ih =>
      rcases List.suffix_cons_iff.mp ha with heq | ha
      · obtain ⟨rfl, rfl⟩ := List.cons.inj heq
        rw [forParents, forParents_group_of_not_below Below.irrefl, modify_group_self]
      · have hne : a ≠ parent := by
          rintro rfl
          exact absurd ha.length_le (by simp)
        rw [forParents, ih ha, modify_group_of_ne hne]

/-- Where a group stands relative to a path. -/
theorem on_path_cases (a p : ResourceGroupId) : a = p ∨ (∃ n, (n :: a) <:+ p) ∨ ¬ a <:+ p := by
  by_cases hsuffix : a <:+ p
  · by_cases heq : a = p
    · exact .inl heq
    · exact .inr (.inl (Below.exists_child ⟨hsuffix, heq⟩))
  · exact .inr (.inr hsuffix)

/-- A change of one group followed by the loop over its parents. -/
theorem path_group_self : (forParents h p (s.modify p f)).group p = f (s.group p) := by
  rw [forParents_group_of_not_below Below.irrefl, modify_group_self]

theorem path_group_of_child (ha : (n :: a) <:+ p) :
    (forParents h p (s.modify p f)).group a = h n (s.group a) := by
  rw [forParents_group_of_child ha, modify_group_of_ne (below_of_child ha).2]

theorem path_group_of_not_suffix (ha : ¬ a <:+ p) :
    (forParents h p (s.modify p f)).group a = s.group a := by
  rw [forParents_group_of_not_below fun hbelow => ha hbelow.1,
    modify_group_of_ne (ne_of_not_suffix ha)]

/-- A field that neither the change nor the loop touches is the same everywhere. -/
theorem path_keeps {α : Type} (field : InternalResourceGroup → α) (a : ResourceGroupId)
    (hf : ∀ g, field (f g) = field g := by intros; rfl)
    (hh : ∀ n g, field (h n g) = field g := by intros; rfl) :
    field ((forParents h p (s.modify p f)).group a) = field (s.group a) := by
  rcases on_path_cases a p with rfl | ⟨n, hn⟩ | hnot
  · rw [path_group_self, hf]
  · rw [path_group_of_child hn, hh]
  · rw [path_group_of_not_suffix hnot]

theorem forPath_group_of_not_suffix (ha : ¬ a <:+ p) : (forPath f p s).group a = s.group a :=
  path_group_of_not_suffix ha

theorem allOnPath_iff {condition : ResourceGroupId → Bool} :
    allOnPath condition p = true ↔ ∀ a, a <:+ p → condition a = true := by
  induction p with
  | nil => simp [allOnPath]
  | cons n parent ih =>
      rw [allOnPath, Bool.and_eq_true, ih]
      constructor
      · rintro ⟨hself, habove⟩ a ha
        rcases List.suffix_cons_iff.mp ha with rfl | ha
        · exact hself
        · exact habove a ha
      · intro hall
        refine ⟨hall _ List.suffix_rfl, ?_⟩
        intro a ha
        exact hall a (ha.trans (List.suffix_cons n parent))

/-! ## The maintenance of the eligible sub groups -/

@[simp] theorem updateEligibility_group : (updateEligibility p s).group = s.group := by
  induction p generalizing s with
  | nil => rfl
  | cons n parent ih =>
      rw [updateEligibility, ih]
      split <;> rfl

@[simp] theorem updateEligibility_taskLimitExceeded :
    (updateEligibility p s).taskLimitExceeded = s.taskLimitExceeded := by
  induction p generalizing s with
  | nil => rfl
  | cons n parent ih =>
      rw [updateEligibility, ih]
      split <;> rfl

/-- Only the groups above have their eligible sub groups changed. -/
theorem updateEligibility_eligibleSubGroups (ha : ¬ Below a p) :
    (updateEligibility p s).eligibleSubGroups a = s.eligibleSubGroups a := by
  induction p generalizing s with
  | nil => rfl
  | cons n parent ih =>
      rw [Below.cons_iff] at ha
      rw [updateEligibility, ih fun hbelow => ha hbelow.1]
      split
      · exact addOrUpdateSubGroup_eligibleSubGroups_of_ne (ne_of_not_suffix ha)
      · exact removeSubGroup_eligibleSubGroups_of_ne (ne_of_not_suffix ha)

variable {s' : Groups}

theorem canRunMore_congr (hgroup : s'.group a = s.group a)
    (hlimit : s'.taskLimitExceeded = s.taskLimitExceeded) : s'.canRunMore a = s.canRunMore a := by
  rw [canRunMore, canRunMore, hgroup, hlimit]

@[simp] theorem updateEligibility_canRunMore :
    (updateEligibility p s).canRunMore a = s.canRunMore a := by
  simp [canRunMore]

/-- A group's eligibility depends on its fields and on its own eligible sub groups. -/
theorem isEligibleToStartNext_congr (hgroup : s'.group a = s.group a)
    (hlimit : s'.taskLimitExceeded = s.taskLimitExceeded)
    (heligible : s'.eligibleSubGroups a = s.eligibleSubGroups a) :
    s'.isEligibleToStartNext a = s.isEligibleToStartNext a := by
  rw [isEligibleToStartNext, isEligibleToStartNext, canRunMore_congr hgroup hlimit, hgroup,
    heligible]

/-! ## Starting queries -/

variable {query : Query}

theorem startInBackground_group :
    (s.startInBackground p query).group =
      (forParents (fun n g => g.descendantStarted n) p
        (s.modify p fun g =>
          { g with runningQueries := insert query g.runningQueries })).group := by
  simp [startInBackground]

theorem enqueueQuery_group :
    (s.enqueueQuery p query).group =
      (forParents
        (fun _ g => { g with descendantQueuedQueries := g.descendantQueuedQueries + 1 }) p
        (s.modify p fun g =>
          { g with
            queuedQueries := g.queuedQueries.addOrUpdate query query.queryPriority })).group := by
  simp [enqueueQuery]

@[simp] theorem startInBackground_taskLimitExceeded :
    (s.startInBackground p query).taskLimitExceeded = s.taskLimitExceeded := by
  simp [startInBackground]

end Presto.ResourceGroups.Groups
