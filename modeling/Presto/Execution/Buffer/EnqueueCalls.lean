import Presto.Execution.Buffer.OutputBufferFlow
import Presto.Support.ListUpdates

/-!
# Accepted calls of `enqueue`

The history of an output buffer lists the accepted `enqueue` calls with the references that
each of them has created.  The references are all different, and when the calls are
sequential only the last one can be in progress.
-/

namespace Presto.Execution.Buffer

open List

variable {δ : Type*} {s s' : OutputBuffer δ} {sequential : Prop}

/-- The pages are the expected ones, in the expected order when the calls are sequential. -/
def Handed (sequential : Prop) (pages expected : List (SerializedPageReference δ)) : Prop :=
  pages.Perm expected ∧ (sequential → pages = expected)

/-- A call that has not thrown and is not running has handed over its pages. -/
theorem EnqueueStage.eq_handedOver
    {stage : EnqueueStage} (hkept : stage ≠ .abandoned) (hdone : stage.inProgress = false) :
    stage = .handedOver := by
  cases stage with
  | handedOver => rfl
  | abandoned => exact absurd rfl hkept
  | _ => cases hdone

section Handed

variable {n : ℕ} {calls : List (EnqueueCall δ)} {e e' : EnqueueCall δ}
  {f : EnqueueCall δ → List (SerializedPageReference δ)} {pages : List (SerializedPageReference δ)}

theorem Handed.set (h : Handed sequential pages (calls.flatMap f)) (he : calls[n]? = some e)
    (hf : f e' = f e) : Handed sequential pages ((calls.set n e').flatMap f) := by
  rwa [ListUpdates.flatMap_set_of_eq he hf]

theorem Handed.append (h : Handed sequential pages (calls.flatMap f)) (e' : EnqueueCall δ)
    (he : calls[n]? = some e) (hf : f e = []) (hlast : sequential → n + 1 = calls.length) :
    Handed sequential (pages ++ f e') ((calls.set n e').flatMap f) := by
  constructor
  · exact (h.1.append_right _).trans (ListUpdates.flatMap_set_perm he hf).symm
  · intro hsequential
    rw [ListUpdates.flatMap_set_last he (hlast hsequential) hf, ← h.2 hsequential]

end Handed

namespace OutputBuffer

theorem newReferences_spec (first : ℕ) (lifespan : Lifespan) (pages : List (SerializedPage δ)) :
    (newReferences first lifespan pages).Nodup ∧
      ∀ page ∈ newReferences first lifespan pages,
        first ≤ page.id ∧ page.id < first + (newReferences first lifespan pages).length := by
  induction pages generalizing first with
  | nil => simp [newReferences]
  | cons page pages ih =>
      obtain ⟨hnodup, hids⟩ := ih (first + 1)
      simp only [newReferences, nodup_cons, mem_cons, length_cons]
      refine ⟨⟨?_, hnodup⟩, ?_⟩
      · intro hmem
        exact absurd (hids _ hmem).1 (Nat.not_succ_le_self first)
      · rintro other (rfl | hother)
        · simp
        · have hother' := hids other hother
          omega

/-- No accepted `enqueue` is still running. -/
def enqueuesDone (s : OutputBuffer δ) : Bool := s.enqueues.all fun e => !e.stage.inProgress

theorem enqueuesDone_iff :
    s.enqueuesDone = true ↔ ∀ e ∈ s.enqueues, e.stage.inProgress = false := by
  simp [enqueuesDone]

end OutputBuffer

namespace Work

/-- The step of `setNoMorePages` that closes the buffer for pages finds no `enqueue`
running. -/
def endsQuietly (s : OutputBuffer δ) : Work δ → Bool
  | .setNoMorePages => decide (s.state ≠ .open) || s.enqueuesDone
  | .setNoMorePagesAgain => decide (s.state ≠ .noMoreBuffers) || s.enqueuesDone
  | _ => true

/-- An `enqueue` starts when no other one is running. -/
def startsAfterOthers (s : OutputBuffer δ) : Work δ → Bool
  | .enqueue _ _ _ => s.enqueuesDone
  | _ => true

end Work

/-- What is known about the accepted calls. -/
structure Enqueued (sequential : Prop) (s : OutputBuffer δ) : Prop where
  fresh : ∀ e ∈ s.enqueues, ∀ page ∈ e.references, page.id < s.created
  distinct : (s.enqueues.flatMap (·.references)).Nodup
  last : sequential → ∀ n e, s.enqueues[n]? = some e → e.stage.inProgress = true →
    n + 1 = s.enqueues.length

namespace Enqueued

theorem frame (h : Enqueued sequential s) (henqueues : s'.enqueues = s.enqueues)
    (hcreated : s'.created = s.created) : Enqueued sequential s' :=
  ⟨by rw [henqueues, hcreated]; exact h.fresh, by rw [henqueues]; exact h.distinct,
    by rw [henqueues]; exact h.last⟩

/-- A call is accepted. -/
theorem append (h : Enqueued sequential s)
    (hothers : sequential → ∀ e ∈ s.enqueues, e.stage.inProgress = false)
    (henqueues : s'.enqueues = s.enqueues ++ [⟨[], .tested⟩]) (hcreated : s'.created = s.created) :
    Enqueued sequential s' := by
  refine ⟨?_, ?_, ?_⟩
  · intro e he page hpage
    rw [henqueues, mem_append, mem_singleton] at he
    rcases he with hkeep | rfl
    · exact hcreated ▸ h.fresh e hkeep page hpage
    · cases hpage
  · rw [henqueues]
    simpa using h.distinct
  · intro hsequential n e he hin
    rw [henqueues] at he ⊢
    rw [length_append]
    rcases Nat.lt_trichotomy n s.enqueues.length with hlt | heq | hgt
    · rw [getElem?_append_left hlt] at he
      rw [hothers hsequential e (mem_of_getElem? he)] at hin
      cases hin
    · rw [heq]
      rfl
    · rw [getElem?_eq_none (by rw [length_append]; exact hgt)] at he
      cases he

section Set

variable (h : Enqueued sequential s) {call : ℕ} {old entry : EnqueueCall δ}
  (hold : s.enqueues[call]? = some old) (hin : old.stage.inProgress = true)
  (henqueues : s'.enqueues = s.enqueues.set call entry)

include h hold hin henqueues

/-- A call in progress goes on or ends. -/
theorem last_set :
    sequential → ∀ n e, s'.enqueues[n]? = some e → e.stage.inProgress = true →
      n + 1 = s'.enqueues.length := by
  intro hsequential n e he hprogress
  rw [henqueues] at he ⊢
  rw [length_set]
  by_cases hn : n = call
  · subst hn
    exact h.last hsequential n old hold hin
  · rw [getElem?_set_ne (Ne.symm hn)] at he
    exact h.last hsequential n e he hprogress

theorem set (hreferences : entry.references = old.references) (hcreated : s'.created = s.created) :
    Enqueued sequential s' := by
  refine ⟨?_, ?_, h.last_set hold hin henqueues⟩
  · intro e he page hpage
    rw [hcreated]
    rw [henqueues] at he
    rcases mem_or_eq_of_mem_set he with hkeep | rfl
    · exact h.fresh e hkeep page hpage
    · exact h.fresh old (mem_of_getElem? hold) page (hreferences ▸ hpage)
  · rw [henqueues, ListUpdates.flatMap_set_of_eq (f := EnqueueCall.references) hold hreferences]
    exact h.distinct

end Set

/-- The references of a call are created. -/
theorem reserve
    (h : Enqueued sequential s) {call : ℕ} (hold : s.enqueues[call]? = some ⟨[], .tested⟩)
    (lifespan : Lifespan) (pages : List (SerializedPage δ)) (stage : EnqueueStage) :
    Enqueued sequential (s.reservePages call lifespan
      (OutputBuffer.newReferences s.created lifespan pages) stage) := by
  obtain ⟨hnodup, hnew⟩ := OutputBuffer.newReferences_spec s.created lifespan pages
  refine ⟨?_, ?_, h.last_set hold rfl rfl⟩
  · intro e he page hpage
    rcases mem_or_eq_of_mem_set he with hkeep | rfl
    · exact (h.fresh e hkeep page hpage).trans_le (Nat.le_add_right _ _)
    · exact (hnew page hpage).2
  · refine (ListUpdates.flatMap_set_perm hold rfl).nodup_iff.mpr ?_
    refine nodup_append'.mpr ⟨h.distinct, hnodup, ?_⟩
    intro page hpage hpage'
    obtain ⟨e, he, hin⟩ := mem_flatMap.mp hpage
    exact absurd (hnew page hpage').1 (Nat.not_le_of_lt (h.fresh e he page hin))

end Enqueued

theorem enqueued_create (type : BufferType) (taskInstanceId : String) :
    Enqueued sequential (OutputBuffer.create type taskInstanceId : OutputBuffer δ) := by
  refine ⟨?_, nodup_nil, ?_⟩
  · intro e he
    cases he
  · intro _ n e he
    cases he

end Presto.Execution.Buffer
