import Presto.Execution.Buffer.OutputBuffer

/-!
# Effects of the sections of a client

What one section of a client buffer does to its queue, to the pages it was ever handed and
to its flags, for every section at once.
-/

namespace Presto.Execution.Buffer.Activity

open Traced

variable {δ : Type*} {a : Activity δ} {supply : Supply δ} {t : Traced δ}

/-- What a section does to the queue of its client. -/
structure Effect (a : Activity δ) (supply : Supply δ) (t t' : Traced δ) : Prop where
  added : t'.added = t.added ++ a.referenced supply t
  pages : ∃ removed, removed ++ t'.buffer.pages = t.buffer.pages ++ a.referenced supply t ∧
    a.dereferenced supply t = if a.loadSize.isSome then a.referenced supply t else removed
  noMorePages : t'.buffer.noMorePages = true →
    t.buffer.noMorePages = true ∨ a = .setNoMorePagesLocked ∨ a = .destroyLocked ∨
      a.loadSize.isSome = true ∧ t.buffer.needsPages = true ∧ supply.mayHaveMorePages = false
  destroyed : t'.buffer.destroyed = true → t.buffer.destroyed = true ∨ a = .destroyLocked
  waiting : a.loadSize = none → (t.buffer.noMorePages = true → t.buffer.pendingRead = none) →
    t'.buffer.noMorePages = true → t'.buffer.pendingRead = none

open Effect

/-- A section that adds and removes no page. -/
theorem Effect.of_kept {t' : Traced δ} (hreferenced : a.referenced supply t = [] := by rfl)
    (hdereferenced : a.dereferenced supply t = [] := by rfl)
    (hwaiting : t'.buffer.noMorePages = true → t'.buffer.pendingRead = t.buffer.pendingRead ∨
      t'.buffer.pendingRead = none := by exact fun _ => Or.inl rfl)
    (hadded : t'.added = t.added := by rfl) (hpages : t'.buffer.pages = t.buffer.pages := by rfl)
    (hno : t'.buffer.noMorePages = t.buffer.noMorePages := by rfl)
    (hdestroyed : t'.buffer.destroyed = t.buffer.destroyed := by rfl) : Effect a supply t t' := by
  refine ⟨by simp [hadded, hreferenced], ⟨[], by simp [hpages, hreferenced], ?_⟩,
    fun h => Or.inl (hno ▸ h), fun h => Or.inl (hdestroyed ▸ h), ?_⟩
  · simp [hdereferenced, hreferenced]
  · intro _ hold h
    rcases hwaiting h with hsame | hnone
    · rw [hsame]
      exact hold (hno ▸ h)
    · exact hnone

theorem load_effect (hload : a.loadSize.isSome = true)
    (hreferenced : a.referenced supply t = if t.buffer.needsPages then supply.pages else [])
    (hdereferenced : a.dereferenced supply t = if t.buffer.needsPages then supply.pages else []) :
    Effect a supply t (t.loadPages supply).1 := by
  cases hneeds : t.buffer.needsPages with
  | false =>
      rw [hneeds] at hreferenced hdereferenced
      rw [loadPages_of_not_needsPages hneeds]
      exact of_kept hreferenced hdereferenced
  | true =>
      simp only [hneeds] at hreferenced hdereferenced
      rw [loadPages_of_needsPages hneeds]
      refine ⟨by rw [hreferenced]; rfl, ⟨[], by rw [hreferenced]; rfl, ?_⟩, ?_, ?_, ?_⟩
      · rw [hload, hdereferenced, hreferenced]
        rfl
      · intro h
        refine Or.inr (Or.inr (Or.inr ⟨hload, hneeds, ?_⟩))
        simpa [withPages] using h
      · intro h
        exact Or.inl h
      · intro hnone
        rw [hnone] at hload
        cases hload

variable {sequenceId : ℤ}

/-- An acknowledgement that returns takes pages from the front of the queue. -/
theorem acknowledgePagesLocked_ok {buffer : ClientBuffer δ}
    {r : ClientBuffer δ × List (SerializedPageReference δ)}
    (h : buffer.acknowledgePagesLocked sequenceId = .ok r) :
    r.2 ++ r.1.pages = buffer.pages ∧ r.1.noMorePages = buffer.noMorePages ∧
      r.1.destroyed = buffer.destroyed ∧ r.1.pendingRead = buffer.pendingRead := by
  simp only [ClientBuffer.acknowledgePagesLocked] at h
  split_ifs at h
  · cases h
    exact ⟨rfl, rfl, rfl, rfl⟩
  · cases h
    exact ⟨rfl, rfl, rfl, rfl⟩
  · cases h
    exact ⟨List.take_append_drop _ _, rfl, rfl, rfl⟩

theorem acknowledge_effect {next : Option ReadRequest} :
    Effect (.acknowledgePagesLocked sequenceId next) supply t
      (act (.acknowledgePagesLocked sequenceId next) supply t).1 := by
  cases h : t.buffer.acknowledgePagesLocked sequenceId with
  | error e =>
      simp only [act, Traced.acknowledgePages, h]
      exact of_kept rfl (by simp [dereferenced, h])
  | ok r =>
      obtain ⟨hpages, hno, hdestroyed, hpending⟩ := acknowledgePagesLocked_ok h
      simp only [act, Traced.acknowledgePages, h]
      refine ⟨by simp [referenced], ⟨r.2, by simp [referenced, hpages], ?_⟩,
        fun h => Or.inl (hno ▸ h), fun h => Or.inl (hdestroyed ▸ h), ?_⟩
      · simp [dereferenced, h, loadSize]
      · intro _ hold h
        exact hpending.trans (hold (hno ▸ h))

/-- Every section has its effect. -/
theorem act_effect (ht : t.Consistent) (ha : a.Valid t) : Effect a supply t (act a supply t).1 := by
  have hcomplete : ∀ future result, a.referenced supply t = [] → a.dereferenced supply t = [] →
      Effect a supply t (t.complete future result) := by
    intro future result hreferenced hdereferenced
    rcases t.complete_cases future result with ⟨-, h⟩ | ⟨-, h⟩ <;> rw [h] <;>
      exact of_kept hreferenced hdereferenced
  cases a with
  | acknowledgePages sequenceId next =>
      simp only [act]
      split_ifs
      · exact of_kept
      · exact of_kept
      · exact of_kept
  | acknowledgePagesLocked sequenceId next => exact acknowledge_effect
  | loadPages _ _ | loadPendingPages _ => exact load_effect rfl rfl rfl
  | getPagesLocked sequenceId maxSize =>
      simp only [act]
      rcases getPages_cases ht.aligned ha.1 ha.2 maxSize with ⟨hopen, -, h⟩ | ⟨r, -, h⟩
      · rw [h]
        refine of_kept rfl rfl ?_
        intro hno
        rw [show t.buffer.noMorePages = true from hno] at hopen
        cases hopen
      · rw [h]
        exact of_kept rfl rfl fun _ => Or.inr rfl
  | completeWithEmpty _ | setResult _ _ => exact hcomplete _ _ rfl rfl
  | enqueuePagesLocked pages =>
      simp only [act]
      cases hno : t.buffer.noMorePages with
      | true =>
          rw [enqueuePages_of_noMorePages hno]
          exact of_kept (by simp [referenced, hno])
      | false =>
          have hreferenced : (enqueuePagesLocked pages).referenced supply t = pages := by
            simp [referenced, hno]
          rw [enqueuePages_of_open hno]
          refine ⟨by rw [hreferenced]; rfl, ⟨[], by rw [hreferenced]; rfl, rfl⟩, ?_,
            fun h => Or.inl h, fun _ _ _ => rfl⟩
          intro h
          cases h
  | setNoMorePagesLocked =>
      simp only [act]
      cases hno : t.buffer.noMorePages with
      | true =>
          rw [setNoMorePages_of_noMorePages hno]
          exact of_kept
      | false =>
          rw [setNoMorePages_of_open hno]
          exact ⟨rfl, ⟨[], rfl, rfl⟩, fun _ => Or.inr (Or.inl rfl), fun h => Or.inl h,
            fun _ _ _ => rfl⟩
  | destroyLocked =>
      refine ⟨by simp [act, destroy, referenced], ⟨t.buffer.pages, ?_, rfl⟩,
        fun _ => Or.inr (Or.inr (Or.inl rfl)), fun _ => Or.inr rfl, fun _ _ _ => rfl⟩
      simp [act, destroy, ClientBuffer.destroyLocked, referenced]
  | pendingMaxSize | pendingReadLoaded | processRead _ => exact of_kept
  | processReadLocked read =>
      simp only [act]
      split
      · exact of_kept
      · exact of_kept

end Presto.Execution.Buffer.Activity
