import Presto.Execution.Buffer.ClientBuffer

/-!
# The atomic sections of a client buffer

The operations of a client buffer leave its lock between acknowledging, loading and
reading, and complete the futures of parked reads outside the lock.  An `Activity` is
what a thread inside an operation does next; `act` runs that section.  `Traced` is the
buffer together with the futures it gave out and a history of what went in and out.
-/

namespace Presto.Execution.Buffer

open ClientBuffer List

open SerializedPageReference

variable {δ : Type*}

/-- The answer of a pages supplier. -/
structure Supply (δ : Type*) where
  pages : List (SerializedPageReference δ)
  mayHaveMorePages : Bool

/-- The rest of a `getPages` call after its acknowledgement. -/
structure ReadRequest where
  maxSize : ℕ
  supplied : Bool
  deriving DecidableEq, Repr

/-- The next section of an operation in progress. -/
inductive Activity (δ : Type*)
  /-- The test of `acknowledgePages` before the lock; a read may follow. -/
  | acknowledgePages (sequenceId : ℤ) (next : Option ReadRequest)
  | acknowledgePagesLocked (sequenceId : ℤ) (next : Option ReadRequest)
  /-- `getPages` asks its supplier before it reads. -/
  | loadPages (sequenceId : ℤ) (maxSize : ℕ)
  | getPagesLocked (sequenceId : ℤ) (maxSize : ℕ)
  | completeWithEmpty (read : PendingRead)
  | enqueuePagesLocked (pages : List (SerializedPageReference δ))
  | setNoMorePagesLocked
  | destroyLocked
  /-- The public `loadPagesIfNecessary` looks at the size of the pending read. -/
  | pendingMaxSize
  | loadPendingPages (maxSize : ℕ)
  /-- The public `loadPagesIfNecessary` looks at the pending read again. -/
  | pendingReadLoaded
  /-- The test of `processRead(PendingRead)` whether the future is done. -/
  | processRead (read : PendingRead)
  | processReadLocked (read : PendingRead)
  | setResult (read : PendingRead) (result : BufferResult δ)

/-- The public operations of a client buffer. -/
inductive Operation (δ : Type*)
  | getPages (sequenceId : ℤ) (maxSize : ℕ) (supplied : Bool)
  | acknowledgePages (sequenceId : ℤ)
  | enqueuePages (pages : List (SerializedPageReference δ))
  | setNoMorePages
  | loadPagesIfNecessary
  | destroy

/-- The first section of an operation. -/
def Operation.start : Operation δ → Activity δ
  | .getPages sequenceId maxSize supplied =>
      .acknowledgePages sequenceId (some ⟨maxSize, supplied⟩)
  | .acknowledgePages sequenceId => .acknowledgePages sequenceId none
  | .enqueuePages pages => .enqueuePagesLocked pages
  | .setNoMorePages => .setNoMorePagesLocked
  | .loadPagesIfNecessary => .pendingMaxSize
  | .destroy => .destroyLocked

/-- A client buffer, the futures of its parked reads, and its history: the pages added,
the results returned, whether the producer declared the end, the exceptions thrown. -/
structure Traced (δ : Type*) where
  buffer : ClientBuffer δ
  futures : List (Option (BufferResult δ))
  added : List (SerializedPageReference δ)
  returned : List (BufferResult δ)
  ended : Bool
  thrown : List Throwable

namespace Traced

def create (taskInstanceId : String) : Traced δ where
  buffer := .create taskInstanceId
  futures := []
  added := []
  returned := []
  ended := false
  thrown := []

variable (s : Traced δ)

def throw (e : Throwable) : Traced δ := { s with thrown := s.thrown ++ [e] }

/-- Whether a future has its result. -/
def isDone (future : ℕ) : Bool :=
  match s.futures[future]? with
  | some (some _) => true
  | _ => false

/-- Setting a future has an effect only the first time. -/
def complete (future : ℕ) (result : BufferResult δ) : Traced δ :=
  match s.futures[future]? with
  | some none =>
      { s with
        futures := s.futures.set future (some result)
        returned := s.returned ++ [result] }
  | _ => s

def enqueuePages (pages : List (SerializedPageReference δ)) : Traced δ × Option PendingRead :=
  ({ s with
      buffer := (s.buffer.enqueuePagesLocked pages).1
      added := if s.buffer.noMorePages then s.added else s.added ++ pages },
    (s.buffer.enqueuePagesLocked pages).2)

def setNoMorePages : Traced δ × Option PendingRead :=
  ({ s with
      buffer := s.buffer.setNoMorePagesLocked.1
      ended := s.ended || !s.buffer.noMorePages },
    s.buffer.setNoMorePagesLocked.2)

def destroy : Traced δ × Option PendingRead :=
  ({ s with buffer := s.buffer.destroyLocked.1 }, s.buffer.destroyLocked.2.2)

def loadPages (supply : Supply δ) : Traced δ × Bool :=
  ({ s with
      buffer := (s.buffer.loadPagesLocked supply.pages supply.mayHaveMorePages).1
      added := if s.buffer.needsPages then s.added ++ supply.pages else s.added
      ended := s.ended || (s.buffer.needsPages && !supply.mayHaveMorePages) },
    (s.buffer.loadPagesLocked supply.pages supply.mayHaveMorePages).2)

def acknowledgePages (sequenceId : ℤ) : Result (Traced δ) :=
  match s.buffer.acknowledgePagesLocked sequenceId with
  | .error e => .error e
  | .ok (buffer, _) => .ok { s with buffer := buffer }

def getPages (sequenceId : ℤ) (maxSize : ℕ) : Traced δ × Option PendingRead :=
  match s.buffer.getPagesLocked sequenceId maxSize s.futures.length with
  | (buffer, old, none) => ({ s with buffer := buffer, futures := s.futures ++ [none] }, old)
  | (buffer, old, some (.ok result)) =>
      ({ s with buffer := buffer, returned := s.returned ++ [result] }, old)
  | (buffer, old, some (.error e)) => (({ s with buffer := buffer } : Traced δ).throw e, old)

end Traced

open Traced

/-- What follows the acknowledgement of `sequenceId`. -/
def Activity.afterAcknowledge (sequenceId : ℤ) : Option ReadRequest → Option (Activity δ)
  | none => none
  | some ⟨maxSize, true⟩ => some (.loadPages sequenceId maxSize)
  | some ⟨maxSize, false⟩ => some (.getPagesLocked sequenceId maxSize)

/-- One section of an operation: the state after it and what the thread does next. -/
def act (a : Activity δ) (supply : Supply δ) (s : Traced δ) :
    Traced δ × Option (Activity δ) :=
  match a with
  | .acknowledgePages sequenceId next =>
      if sequenceId < 0 then (s.throw (.illegalArgument "Invalid sequence id"), none)
      else if s.buffer.acknowledged sequenceId then
        (s, Activity.afterAcknowledge sequenceId next)
      else (s, some (.acknowledgePagesLocked sequenceId next))
  | .acknowledgePagesLocked sequenceId next =>
      match s.acknowledgePages sequenceId with
      | .error e => (s.throw e, none)
      | .ok s => (s, Activity.afterAcknowledge sequenceId next)
  | .loadPages sequenceId maxSize =>
      ((s.loadPages supply).1, some (.getPagesLocked sequenceId maxSize))
  | .getPagesLocked sequenceId maxSize =>
      ((s.getPages sequenceId maxSize).1,
        (s.getPages sequenceId maxSize).2.map .completeWithEmpty)
  | .completeWithEmpty read =>
      (s.complete read.future (.emptyResults s.buffer.taskInstanceId read.sequenceId false),
        none)
  | .enqueuePagesLocked pages =>
      ((s.enqueuePages pages).1, (s.enqueuePages pages).2.map .processRead)
  | .setNoMorePagesLocked => (s.setNoMorePages.1, s.setNoMorePages.2.map .processRead)
  | .destroyLocked => (s.destroy.1, s.destroy.2.map .completeWithEmpty)
  | .pendingMaxSize => (s, s.buffer.pendingRead.map fun read => .loadPendingPages read.maxSize)
  | .loadPendingPages _ =>
      ((s.loadPages supply).1, if (s.loadPages supply).2 then some .pendingReadLoaded else none)
  | .pendingReadLoaded => (s, s.buffer.pendingRead.map .processRead)
  | .processRead read => (s, if s.isDone read.future then none else some (.processReadLocked read))
  | .processReadLocked read =>
      match s.buffer.processRead read.sequenceId read.maxSize with
      | .error e => (s.throw e, none)
      | .ok result => (s, some (.setResult read result))
  | .setResult read result => (s.complete read.future result, none)

/-! ## What a section can do -/

namespace BufferResult

/-- A result carries the pages from its token to its next token. -/
structure Carries (r : BufferResult δ) (added : List (SerializedPageReference δ)) : Prop where
  token_nonneg : 0 ≤ r.token
  nextToken_eq : r.nextToken = r.token + r.serializedPages.length
  nextToken_le : r.nextToken ≤ added.length
  pages : r.serializedPages =
    ((added.drop r.token.toNat).take r.serializedPages.length).map (·.serializedPage)

variable {added : List (SerializedPageReference δ)} {r : BufferResult δ}

/-- Later pages do not change what a result carries. -/
theorem Carries.mono {more : List (SerializedPageReference δ)}
    (hr : r.Carries added) (h : added <+: more) : r.Carries more := by
  obtain ⟨rest, rfl⟩ := h
  have hlast := hr.nextToken_le
  have hnext := hr.nextToken_eq
  have htoken := hr.token_nonneg
  refine ⟨htoken, hnext, ?_, ?_⟩
  · rw [length_append]
    omega
  · rw [drop_append_of_le_length (by omega),
      take_append_of_le_length (by rw [length_drop]; omega)]
    exact hr.pages

variable {token : ℤ}

theorem emptyResults_carries (taskInstanceId : String) (complete : Bool) (hnonneg : 0 ≤ token)
    (hle : token ≤ added.length) : (emptyResults taskInstanceId token complete).Carries added :=
  ⟨hnonneg, by simp [emptyResults], hle, by simp [emptyResults]⟩

end BufferResult

namespace Traced

/-- How the state grows along a run. -/
structure Extends (s s' : Traced δ) : Prop where
  taskInstanceId : s'.buffer.taskInstanceId = s.buffer.taskInstanceId
  added : s.added <+: s'.added
  currentSequenceId : s.buffer.currentSequenceId ≤ s'.buffer.currentSequenceId
  futures : s.futures.length ≤ s'.futures.length
  done : ∀ future, s.isDone future = true → s'.isDone future = true
  returned : s.returned <+: s'.returned
  noMorePages : s.buffer.noMorePages = true → s'.buffer.noMorePages = true ∧ s'.added = s.added
  destroyed : s.buffer.destroyed = true → s'.buffer.destroyed = true
  ended : s.ended = true → s'.ended = true

variable {s : Traced δ} {s' : Traced δ}

/-- A buffer that is not destroyed was not destroyed before. -/
theorem Extends.alive (h : s.Extends s') (halive : s'.buffer.destroyed = false) :
    s.buffer.destroyed = false := by
  by_contra hdestroyed
  rw [h.destroyed (by simpa using hdestroyed)] at halive
  cases halive

/-- A parked read names one of the futures and a page that is not ahead of the queue. -/
structure ValidRead (s : Traced δ) (read : PendingRead) : Prop where
  future : read.future < s.futures.length
  nonneg : 0 ≤ read.sequenceId
  le : read.sequenceId ≤ s.buffer.currentSequenceId

/-- A result carries its pages, is not ahead of the queue, and says the buffer is complete
only at the declared end or after the buffer was destroyed. -/
structure ValidResult (s : Traced δ) (r : BufferResult δ) : Prop where
  taskInstanceId : r.taskInstanceId = s.buffer.taskInstanceId
  carries : r.Carries s.added
  token_le : r.token ≤ s.buffer.currentSequenceId
  complete : r.bufferComplete = true →
    s.buffer.destroyed = true ∨
      s.ended = true ∧ s.buffer.noMorePages = true ∧ r.token = s.added.length

/-- The queue holds the added pages from the current sequence id on, until the buffer is
destroyed. -/
structure Aligned (s : Traced δ) : Prop where
  pagesAdded : s.buffer.pagesAdded = s.added.length
  nonneg : 0 ≤ s.buffer.currentSequenceId
  le : s.buffer.currentSequenceId ≤ s.added.length
  pages : s.buffer.destroyed = false →
    s.buffer.pages = s.added.drop s.buffer.currentSequenceId.toNat
  destroyed : s.buffer.destroyed = true → s.buffer.pages = [] ∧ s.buffer.noMorePages = true
  bytes : s.buffer.bufferedBytes = totalBytes s.buffer.pages
  ended : s.buffer.noMorePages = true → s.ended = true ∨ s.buffer.destroyed = true

/-- The invariant of a client buffer between sections. -/
structure Consistent (s : Traced δ) : Prop where
  aligned : s.Aligned
  pending : ∀ read, s.buffer.pendingRead = some read → s.ValidRead read
  returned : ∀ r ∈ s.returned, s.ValidResult r

variable {s s' : Traced δ}

namespace Extends

theorem refl (s : Traced δ) : Extends s s :=
  ⟨rfl, prefix_rfl, le_rfl, le_rfl, fun _ h => h, prefix_rfl, fun h => ⟨h, rfl⟩,
    fun h => h, fun h => h⟩

theorem trans
    {s'' : Traced δ} (h : Extends s s') (h' : Extends s' s'') : Extends s s'' := by
  refine ⟨h'.taskInstanceId.trans h.taskInstanceId, h.added.trans h'.added,
    h.currentSequenceId.trans h'.currentSequenceId, h.futures.trans h'.futures,
    fun future hdone => h'.done future (h.done future hdone), h.returned.trans h'.returned, ?_,
    fun hdestroyed => h'.destroyed (h.destroyed hdestroyed),
    fun hended => h'.ended (h.ended hended)⟩
  intro hno
  obtain ⟨hno', hsame⟩ := h.noMorePages hno
  obtain ⟨hno'', hsame'⟩ := h'.noMorePages hno'
  exact ⟨hno'', hsame'.trans hsame⟩

theorem validRead (h : Extends s s') {read : PendingRead} (hread : s.ValidRead read) :
    s'.ValidRead read :=
  ⟨hread.future.trans_le h.futures, hread.nonneg, hread.le.trans h.currentSequenceId⟩

theorem validResult (h : Extends s s') (hr : s.ValidResult r) : s'.ValidResult r := by
  refine ⟨hr.taskInstanceId.trans h.taskInstanceId.symm, hr.carries.mono h.added,
    hr.token_le.trans h.currentSequenceId, ?_⟩
  intro hcomplete
  rcases hr.complete hcomplete with hdestroyed | ⟨hended, hno, htoken⟩
  · exact Or.inl (h.destroyed hdestroyed)
  · obtain ⟨hno', hsame⟩ := h.noMorePages hno
    exact Or.inr ⟨h.ended hended, hno', by rw [hsame, htoken]⟩

end Extends

theorem create_consistent (taskInstanceId : String) :
    (create taskInstanceId : Traced δ).Consistent := by
  exact ⟨⟨rfl, le_rfl, le_rfl, fun _ => rfl, nofun, rfl, nofun⟩, nofun, nofun⟩

/-- The queue stays aligned whatever is parked, completed, returned or thrown. -/
theorem Aligned.frame
    (hs : s.Aligned) (pendingRead : Option PendingRead) (futures : List (Option (BufferResult δ)))
    (returned : List (BufferResult δ)) (thrown : List Throwable) :
    Aligned { s with
      buffer := { s.buffer with pendingRead := pendingRead }
      futures := futures, returned := returned, thrown := thrown } :=
  { hs with }

/-- A section keeps the invariant when the queue stays aligned and every new parked read
and new result is valid. -/
theorem Consistent.of_extends (hs : s.Consistent) (h : s.Extends s') (haligned : s'.Aligned)
    (hpending : ∀ read, s'.buffer.pendingRead = some read →
      s.buffer.pendingRead = some read ∨ s'.ValidRead read)
    (hreturned : ∀ r ∈ s'.returned, r ∈ s.returned ∨ s'.ValidResult r) : s'.Consistent := by
  refine ⟨haligned, ?_, ?_⟩
  · intro read hread
    rcases hpending read hread with hold | hnew
    · exact h.validRead (hs.pending read hold)
    · exact hnew
  · intro r hr
    rcases hreturned r hr with hold | hnew
    · exact h.validResult (hs.returned r hold)
    · exact hnew

/-! ### Throwing and completing futures -/

theorem throw_extends (s : Traced δ) (e : Throwable) : s.Extends (s.throw e) :=
  { Extends.refl s with }

theorem throw_consistent (hs : s.Consistent) (e : Throwable) : (s.throw e).Consistent :=
  hs.of_extends (throw_extends s e) (hs.aligned.frame _ _ _ _) (fun _ h => Or.inl h)
    (fun _ h => Or.inl h)

/-- Completing a future either does nothing or gives the waiting future its result. -/
theorem complete_cases (s : Traced δ) (future : ℕ) (result : BufferResult δ) :
    s.futures[future]? ≠ some none ∧ s.complete future result = s ∨
      s.futures[future]? = some none ∧
        s.complete future result =
          { s with
            futures := s.futures.set future (some result)
            returned := s.returned ++ [result] } := by
  cases hf : s.futures[future]? with
  | none => exact Or.inl ⟨by simp, by simp [complete, hf]⟩
  | some r =>
      cases r with
      | none => exact Or.inr ⟨rfl, by simp [complete, hf]⟩
      | some r => exact Or.inl ⟨by simp, by simp [complete, hf]⟩

theorem complete_buffer (s : Traced δ) (future : ℕ) (result : BufferResult δ) :
    (s.complete future result).buffer = s.buffer := by
  rcases complete_cases s future result with ⟨-, h⟩ | ⟨-, h⟩ <;> rw [h]

variable {future : ℕ}

theorem lt_of_isDone (hdone : s.isDone future = true) : future < s.futures.length := by
  by_contra hge
  rw [isDone, getElem?_eq_none (by omega)] at hdone
  cases hdone

theorem complete_extends (s : Traced δ) (future : ℕ) (result : BufferResult δ) :
    s.Extends (s.complete future result) := by
  rcases complete_cases s future result with ⟨-, hsame⟩ | ⟨-, hset⟩
  · rw [hsame]
    exact Extends.refl s
  · rw [hset]
    refine { Extends.refl s with
      futures := by simp, done := ?_, returned := prefix_append _ _ }
    intro other hdone
    by_cases hother : future = other
    · subst hother
      rw [isDone, getElem?_set_self (lt_of_isDone hdone)]
    · rw [isDone, getElem?_set_ne hother]
      exact hdone

theorem complete_consistent
    (hs : s.Consistent) (future : ℕ) {result : BufferResult δ} (hresult : s.ValidResult result) :
    (s.complete future result).Consistent := by
  have hextends := complete_extends s future result
  rcases complete_cases s future result with ⟨-, hsame⟩ | ⟨-, hset⟩
  · rw [hsame]
    exact hs
  · refine hs.of_extends hextends ?_ ?_ ?_
    · rw [hset]
      exact hs.aligned.frame _ _ _ _
    · intro read hread
      rw [hset] at hread
      exact Or.inl hread
    · intro r hr
      rw [hset, mem_append, mem_singleton] at hr
      rcases hr with hold | rfl
      · exact Or.inl hold
      · exact Or.inr (hextends.validResult hresult)

/-- A future of the buffer is done once it was completed. -/
theorem isDone_complete (hfuture : future < s.futures.length) (result : BufferResult δ) :
    (s.complete future result).isDone future = true := by
  rcases complete_cases s future result with ⟨hnot, hsame⟩ | ⟨-, hset⟩
  · rw [hsame]
    rw [getElem?_eq_getElem hfuture] at hnot
    rw [isDone, getElem?_eq_getElem hfuture]
    cases hr : s.futures[future] with
    | none => exact absurd (by rw [hr]) hnot
    | some r => rfl
  · rw [hset, isDone, getElem?_set_self hfuture]

/-! ### Adding pages and declaring the end -/

theorem Aligned.not_destroyed
    (hs : s.Aligned) (hopen : s.buffer.noMorePages = false) : s.buffer.destroyed = false := by
  by_contra hdestroyed
  have hno := (hs.destroyed (by simpa using hdestroyed)).2
  rw [hopen] at hno
  cases hno

/-- The state after `pages` were added to an open buffer, with the flags as given. -/
def withPages (s : Traced δ) (pages : List (SerializedPageReference δ)) (noMorePages : Bool)
    (pendingRead : Option PendingRead) (ended : Bool) : Traced δ :=
  { s with
    buffer := { s.buffer.addPages pages with
      noMorePages := noMorePages, pendingRead := pendingRead }
    added := s.added ++ pages
    ended := ended }

section Open

variable (hopen : s.buffer.noMorePages = false) (pages : List (SerializedPageReference δ))

include hopen

variable {ended : Bool}

theorem withPages_aligned (hs : s.Aligned) (pendingRead : Option PendingRead)
    {noMorePages : Bool} (hended : noMorePages = true → ended = true) :
    (s.withPages pages noMorePages pendingRead ended).Aligned := by
  have halive : s.buffer.destroyed = false := hs.not_destroyed hopen
  have hle := hs.le
  have hnonneg := hs.nonneg
  refine ⟨?_, hnonneg, ?_, ?_, ?_, ?_, ?_⟩
  · simp [withPages, addPages, hs.pagesAdded]
  · simp only [withPages, addPages, length_append]
    omega
  · intro _
    simp only [withPages, addPages, hs.pages halive]
    rw [drop_append_of_le_length (by omega)]
  · intro hdestroyed
    simp only [withPages, addPages, halive] at hdestroyed
    cases hdestroyed
  · simp [withPages, addPages, hs.bytes]
  · intro hno
    exact Or.inl (hended hno)

theorem withPages_extends (noMorePages : Bool) (pendingRead : Option PendingRead)
    (hended : s.ended = true → ended = true) :
    s.Extends (s.withPages pages noMorePages pendingRead ended) := by
  refine { Extends.refl s with
    added := prefix_append _ _, noMorePages := ?_, ended := hended }
  intro hno
  rw [hopen] at hno
  cases hno

theorem enqueuePages_of_open :
    s.enqueuePages pages = (s.withPages pages false none s.ended, s.buffer.pendingRead) := by
  simp [enqueuePages, enqueuePagesLocked, hopen, withPages, addPages]

end Open

theorem enqueuePages_of_noMorePages
    (hno : s.buffer.noMorePages = true) (pages : List (SerializedPageReference δ)) :
    s.enqueuePages pages = (s, none) := by
  simp [enqueuePages, enqueuePagesLocked, hno]

theorem setNoMorePages_of_open (hopen : s.buffer.noMorePages = false) :
    s.setNoMorePages = (s.withPages [] true none true, s.buffer.pendingRead) := by
  simp [setNoMorePages, setNoMorePagesLocked, hopen, withPages, addPages, totalRows]

theorem setNoMorePages_of_noMorePages (hno : s.buffer.noMorePages = true) :
    s.setNoMorePages = (s, none) := by
  simp [setNoMorePages, setNoMorePagesLocked, hno]

theorem noMorePages_of_needsPages (hneeds : s.buffer.needsPages = true) :
    s.buffer.noMorePages = false := by
  simp only [needsPages, Bool.and_eq_true, Bool.not_eq_true'] at hneeds
  exact hneeds.1

theorem loadPages_of_needsPages (hneeds : s.buffer.needsPages = true) (supply : Supply δ) :
    s.loadPages supply =
      (s.withPages supply.pages (!supply.mayHaveMorePages) s.buffer.pendingRead
          (s.ended || !supply.mayHaveMorePages),
        !supply.pages.isEmpty || !supply.mayHaveMorePages) := by
  have hopen := noMorePages_of_needsPages hneeds
  cases hmore : supply.mayHaveMorePages <;>
    simp [loadPages, loadPagesLocked, hneeds, hmore, hopen, withPages, addPages]

theorem loadPages_of_not_needsPages (hneeds : s.buffer.needsPages = false) (supply : Supply δ) :
    s.loadPages supply = (s, false) := by
  simp [loadPages, loadPagesLocked, hneeds]

/-! ### Destroying, acknowledging and reading -/

/-- The state after every page before `sequenceId` was dropped. -/
def withAcknowledged (s : Traced δ) (sequenceId : ℤ) : Traced δ :=
  { s with
    buffer := { s.buffer with
      pages := s.added.drop sequenceId.toNat
      currentSequenceId := sequenceId
      bufferedBytes := totalBytes (s.added.drop sequenceId.toNat) } }

variable {sequenceId : ℤ}

/-- What `acknowledgePages` does under its lock. -/
theorem acknowledgePages_cases (hs : s.Aligned) (hnonneg : 0 ≤ sequenceId) :
    (s.buffer.destroyed = true ∨ sequenceId < s.buffer.currentSequenceId) ∧
        s.acknowledgePages sequenceId = .ok s ∨
      s.buffer.destroyed = false ∧ s.buffer.currentSequenceId ≤ sequenceId ∧
        sequenceId ≤ s.added.length ∧
        s.acknowledgePages sequenceId = .ok (s.withAcknowledged sequenceId) ∨
      s.buffer.destroyed = false ∧ (s.added.length : ℤ) < sequenceId ∧
        s.acknowledgePages sequenceId = .error (.illegalArgument "Invalid sequence id") := by
  cases hdestroyed : s.buffer.destroyed with
  | true =>
      left
      exact ⟨Or.inl rfl, by simp [acknowledgePages, acknowledgePagesLocked, hdestroyed]⟩
  | false =>
      by_cases hlt : sequenceId < s.buffer.currentSequenceId
      · left
        exact ⟨Or.inr hlt, by simp [acknowledgePages, acknowledgePagesLocked, hdestroyed, hlt]⟩
      · right
        have hpages := hs.pages hdestroyed
        have hcurrent := hs.nonneg
        have hle := hs.le
        have hlength : (s.buffer.pages.length : ℤ) =
            s.added.length - s.buffer.currentSequenceId := by
          rw [hpages, length_drop]
          omega
        by_cases hbig : sequenceId - s.buffer.currentSequenceId > s.buffer.pages.length
        · right
          refine ⟨rfl, by omega, ?_⟩
          simp [acknowledgePages, acknowledgePagesLocked, hdestroyed, hlt, hbig]
        · left
          have hdrop : s.buffer.pages.drop (sequenceId - s.buffer.currentSequenceId).toNat =
              s.added.drop sequenceId.toNat := by
            rw [hpages, drop_drop]
            congr 1
            omega
          have hbytes : s.buffer.bufferedBytes -
              totalBytes (s.buffer.pages.take (sequenceId - s.buffer.currentSequenceId).toNat) =
                totalBytes (s.added.drop sequenceId.toNat) := by
            have hsplit := congrArg totalBytes (take_append_drop
              (sequenceId - s.buffer.currentSequenceId).toNat s.buffer.pages)
            rw [totalBytes_append] at hsplit
            rw [hs.bytes, ← hdrop]
            omega
          have hsum : s.buffer.currentSequenceId + (sequenceId - s.buffer.currentSequenceId) =
              sequenceId := by
            omega
          refine ⟨rfl, by omega, by omega, ?_⟩
          simp only [acknowledgePages, acknowledgePagesLocked, hdestroyed, hlt, hbig,
            if_false, hbytes, hdrop, hsum, Bool.false_eq_true]
          rw [if_neg (not_lt.mpr (totalBytes_nonneg _))]
          simp only [withAcknowledged, hdestroyed]

/-- An empty result that does not claim the end is valid for every page number. -/
theorem validResult_emptyResults (hs : s.Aligned) (hnonneg : 0 ≤ token)
    (hle : token ≤ s.buffer.currentSequenceId) :
    s.ValidResult (.emptyResults s.buffer.taskInstanceId token false) :=
  ⟨rfl, BufferResult.emptyResults_carries _ _ hnonneg (hle.trans hs.le), hle, nofun⟩

/-- The result that says the buffer is complete is valid when the queue is empty for good. -/
theorem validResult_complete
    (hs : s.Aligned) (hempty : s.buffer.pages = []) (hno : s.buffer.noMorePages = true) :
    s.ValidResult (.emptyResults s.buffer.taskInstanceId s.buffer.currentSequenceId true) := by
  refine ⟨rfl, BufferResult.emptyResults_carries _ _ hs.nonneg hs.le, le_rfl, ?_⟩
  intro _
  cases hdestroyed : s.buffer.destroyed with
  | true => exact Or.inl rfl
  | false =>
      right
      have hended : s.ended = true := by
        rcases hs.ended hno with h | h
        · exact h
        · rw [hdestroyed] at h
          cases h
      have hpages := hs.pages hdestroyed
      rw [hempty, eq_comm, drop_eq_nil_iff] at hpages
      have hle := hs.le
      have hnonneg := hs.nonneg
      refine ⟨hended, hno, ?_⟩
      simp only [BufferResult.emptyResults]
      omega

/-- A result with the first pages of the queue is valid. -/
theorem validResult_read (hs : s.Aligned) (halive : s.buffer.destroyed = false)
    {taken : List (SerializedPageReference δ)} (htaken : taken <+: s.buffer.pages) :
    s.ValidResult ⟨s.buffer.taskInstanceId, s.buffer.currentSequenceId,
      s.buffer.currentSequenceId + (taken.map (·.serializedPage)).length, false,
      taken.map (·.serializedPage)⟩ := by
  have hnonneg := hs.nonneg
  have hle := hs.le
  rw [hs.pages halive] at htaken
  have hlength := htaken.length_le
  rw [length_drop] at hlength
  refine ⟨rfl, ⟨hnonneg, rfl, ?_, ?_⟩, le_rfl, nofun⟩
  · simp only [length_map]
    omega
  · simp only [length_map]
    rw [← prefix_iff_eq_take.mp htaken]

/-- A read that is not ahead of the queue returns a valid result. -/
theorem processRead_spec (hs : s.Aligned) (hnonneg : 0 ≤ sequenceId)
    (hle : s.buffer.destroyed = true ∨ sequenceId ≤ s.buffer.currentSequenceId) (maxSize : ℕ) :
    ∃ r, s.buffer.processRead sequenceId maxSize = .ok r ∧ s.ValidResult r := by
  by_cases hlt : sequenceId < s.buffer.currentSequenceId
  · refine ⟨_, ?_, validResult_emptyResults hs hnonneg hlt.le⟩
    simp [processRead, hlt]
  · by_cases hend : s.buffer.pages = [] ∧ s.buffer.noMorePages = true
    · refine ⟨_, ?_, validResult_complete hs hend.1 hend.2⟩
      simp [processRead, hlt, hend.1, hend.2]
    · have halive : s.buffer.destroyed = false := by
        by_contra hdestroyed
        exact hend (hs.destroyed (by simpa using hdestroyed))
      have heq : sequenceId = s.buffer.currentSequenceId := by
        rcases hle with h | h
        · rw [halive] at h
          cases h
        · omega
      have hend' : (s.buffer.pages.isEmpty && s.buffer.noMorePages) = false := by
        simpa using hend
      have hread : (takeUpTo maxSize [] 0 s.buffer.pages).1 <+: s.buffer.pages :=
        ⟨_, by rw [takeUpTo_append, nil_append]⟩
      refine ⟨_, ?_, validResult_read hs halive hread⟩
      simp only [processRead, hend', heq, lt_self_iff_false, ne_eq, if_false,
        not_true_eq_false, Bool.false_eq_true]

/-- The state after a read was parked. -/
def withParked (s : Traced δ) (sequenceId : ℤ) (maxSize : ℕ) : Traced δ :=
  { s with
    buffer := { s.buffer with
      pendingRead := some ⟨sequenceId, maxSize, s.futures.length⟩ }
    futures := s.futures ++ [none] }

/-- The state after a read returned at once. -/
def withReturned (s : Traced δ) (r : BufferResult δ) : Traced δ :=
  { s with
    buffer := { s.buffer with pendingRead := none }
    returned := s.returned ++ [r] }

/-- What `getPages` does under its lock: it parks the read while the buffer is open and
empty, and otherwise returns a valid result. -/
theorem getPages_cases (hs : s.Aligned) (hnonneg : 0 ≤ sequenceId)
    (hle : s.buffer.destroyed = true ∨ sequenceId ≤ s.buffer.currentSequenceId) (maxSize : ℕ) :
    s.buffer.noMorePages = false ∧ sequenceId = s.buffer.currentSequenceId ∧
        s.getPages sequenceId maxSize =
          (s.withParked sequenceId maxSize, s.buffer.pendingRead) ∨
      ∃ r, s.ValidResult r ∧
        s.getPages sequenceId maxSize = (s.withReturned r, s.buffer.pendingRead) := by
  by_cases hpark : s.buffer.pages = [] ∧ s.buffer.noMorePages = false ∧
      sequenceId = s.buffer.currentSequenceId
  · left
    simp [getPages, getPagesLocked, hpark.1, hpark.2.1, hpark.2.2, withParked]
  · right
    obtain ⟨r, hread, hvalid⟩ := processRead_spec hs hnonneg hle maxSize
    refine ⟨r, hvalid, ?_⟩
    have hnow : (!s.buffer.pages.isEmpty || s.buffer.noMorePages ||
        decide (sequenceId ≠ s.buffer.currentSequenceId)) = true := by
      by_contra h
      apply hpark
      simpa [and_assoc] using h
    have hread' : processRead { s.buffer with pendingRead := none } sequenceId
        maxSize = .ok r := hread
    simp only [getPages, getPagesLocked, hnow, if_true, hread', withReturned]

theorem withParked_extends (s : Traced δ) (sequenceId : ℤ) (maxSize : ℕ) :
    s.Extends (s.withParked sequenceId maxSize) := by
  refine { Extends.refl s with futures := by simp [withParked], done := ?_ }
  intro future hdone
  rw [isDone, withParked, getElem?_append_left (lt_of_isDone hdone)]
  exact hdone

theorem withReturned_extends (s : Traced δ) (r : BufferResult δ) : s.Extends (s.withReturned r) :=
  { Extends.refl s with returned := prefix_append _ _ }

end Traced

/-! ## Every section keeps the invariant -/

/-- What holds of an operation in progress at each of its sections. -/
def Activity.Valid (s : Traced δ) : Activity δ → Prop
  | .acknowledgePagesLocked sequenceId _ => 0 ≤ sequenceId
  | .loadPages sequenceId _ | .getPagesLocked sequenceId _ =>
      0 ≤ sequenceId ∧
        (s.buffer.destroyed = true ∨ sequenceId ≤ s.buffer.currentSequenceId)
  | .completeWithEmpty read | .processRead read | .processReadLocked read => s.ValidRead read
  | .setResult read result => s.ValidRead read ∧ s.ValidResult result
  | _ => True

namespace Activity

variable {s s' : Traced δ} {a b : Activity δ}

theorem Valid.extends (ha : a.Valid s) (h : s.Extends s') : a.Valid s' := by
  cases a with
  | acknowledgePagesLocked sequenceId next => exact ha
  | loadPages sequenceId maxSize | getPagesLocked sequenceId maxSize =>
      exact ⟨ha.1, ha.2.imp h.destroyed fun hle => hle.trans h.currentSequenceId⟩
  | completeWithEmpty read | processRead read | processReadLocked read => exact h.validRead ha
  | setResult read result => exact ⟨h.validRead ha.1, h.validResult ha.2⟩
  | _ => trivial

theorem start_valid (operation : Operation δ) (s : Traced δ) : operation.start.Valid s := by
  cases operation <;> trivial

/-- What a section does to the state. -/
inductive Changes (a : Activity δ) (s : Traced δ) : Traced δ → Prop
  | stay : Changes a s s
  | throw (e : Throwable) {sequenceId : ℤ} {next : Option ReadRequest}
      (ha : a = .acknowledgePages sequenceId next ∧ sequenceId < 0 ∨
        a = .acknowledgePagesLocked sequenceId next ∧ (s.added.length : ℤ) < sequenceId) :
      Changes a s (s.throw e)
  | acknowledge {sequenceId : ℤ} {next : Option ReadRequest}
      (ha : a = .acknowledgePagesLocked sequenceId next) (halive : s.buffer.destroyed = false)
      (hle : s.buffer.currentSequenceId ≤ sequenceId) (hlast : sequenceId ≤ s.added.length) :
      Changes a s (s.withAcknowledged sequenceId)
  | add (pages : List (SerializedPageReference δ)) {noMorePages ended : Bool}
      {pendingRead : Option PendingRead} (hopen : s.buffer.noMorePages = false)
      (hended : noMorePages = true → ended = true) (hkept : s.ended = true → ended = true)
      (hpending : ∀ read, pendingRead = some read → s.buffer.pendingRead = some read) :
      Changes a s (s.withPages pages noMorePages pendingRead ended)
  | destroy (ha : a = .destroyLocked) : Changes a s s.destroy.1
  | park {sequenceId : ℤ} {maxSize : ℕ} (hcurrent : sequenceId = s.buffer.currentSequenceId) :
      Changes a s (s.withParked sequenceId maxSize)
  | answer {r : BufferResult δ} (hr : s.ValidResult r) : Changes a s (s.withReturned r)
  | complete (future : ℕ) {result : BufferResult δ} (hresult : s.ValidResult result) :
      Changes a s (s.complete future result)

theorem Changes.extends (h : a.Changes s s') : s.Extends s' := by
  cases h with
  | stay => exact .refl s
  | throw e => exact s.throw_extends e
  | acknowledge ha halive hle => exact { Traced.Extends.refl s with currentSequenceId := hle }
  | add pages hopen hended hkept => exact withPages_extends hopen pages _ _ hkept
  | destroy =>
      exact { Traced.Extends.refl s with
        noMorePages := fun _ => ⟨rfl, rfl⟩, destroyed := fun _ => rfl }
  | park => exact s.withParked_extends _ _
  | answer => exact s.withReturned_extends _
  | complete future => exact s.complete_extends future _

theorem Changes.consistent (h : a.Changes s s') (hs : s.Consistent) : s'.Consistent := by
  have hextends := h.extends
  have haligned := hs.aligned
  cases h with
  | stay => exact hs
  | throw e => exact throw_consistent hs e
  | acknowledge ha halive hle hlast =>
      refine hs.of_extends hextends ?_ (fun _ h => Or.inl h) (fun _ h => Or.inl h)
      refine { haligned with
        nonneg := haligned.nonneg.trans hle, le := hlast, pages := fun _ => rfl
        destroyed := fun hdestroyed => ?_, bytes := rfl }
      rw [show s.buffer.destroyed = true from hdestroyed] at halive
      cases halive
  | add pages hopen hended hkept hpending =>
      exact hs.of_extends hextends (withPages_aligned hopen pages haligned _ hended)
        (fun read h => Or.inl (hpending read h)) (fun _ h => Or.inl h)
  | destroy =>
      refine hs.of_extends hextends ?_ nofun (fun _ h => Or.inl h)
      exact ⟨haligned.pagesAdded, haligned.nonneg, haligned.le, nofun,
        fun _ => ⟨rfl, rfl⟩, rfl, fun _ => Or.inr rfl⟩
  | park hcurrent =>
      refine hs.of_extends hextends (haligned.frame _ _ _ _) ?_ (fun _ h => Or.inl h)
      rintro read ⟨rfl⟩
      exact Or.inr ⟨by simp [withParked], hcurrent ▸ haligned.nonneg, hcurrent.le⟩
  | answer hr =>
      refine hs.of_extends hextends (haligned.frame _ _ _ _) nofun ?_
      intro result hresult
      rcases mem_append.mp hresult with hold | hnew
      · exact Or.inl hold
      · rw [mem_singleton.mp hnew]
        exact Or.inr (hextends.validResult hr)
  | complete future hresult => exact complete_consistent hs future hresult

/-- Every section makes one of the changes. -/
theorem act_changes (hs : s.Consistent) (ha : a.Valid s) (supply : Supply δ) :
    a.Changes s (act a supply s).1 := by
  have hload : a.Changes s (s.loadPages supply).1 := by
    cases hneeds : s.buffer.needsPages with
    | false =>
        rw [loadPages_of_not_needsPages hneeds]
        exact .stay
    | true =>
        have hopen := noMorePages_of_needsPages hneeds
        rw [loadPages_of_needsPages hneeds]
        exact .add _ hopen (fun h => by simp [h]) (fun h => by simp [h]) (fun _ h => h)
  cases a with
  | acknowledgePages sequenceId next =>
      simp only [act]
      split_ifs with hneg
      · exact .throw _ (Or.inl ⟨rfl, hneg⟩)
      · exact .stay
      · exact .stay
  | acknowledgePagesLocked sequenceId next =>
      rcases acknowledgePages_cases hs.aligned ha with
        ⟨-, h⟩ | ⟨halive, hle, hlast, h⟩ | ⟨-, hbig, h⟩ <;> simp only [act, h]
      · exact .stay
      · exact .acknowledge rfl halive hle hlast
      · exact .throw _ (Or.inr ⟨rfl, hbig⟩)
  | loadPages _ _ | loadPendingPages _ => exact hload
  | getPagesLocked sequenceId maxSize =>
      rcases getPages_cases hs.aligned ha.1 ha.2 maxSize with
        ⟨-, hcurrent, h⟩ | ⟨r, hr, h⟩ <;> simp only [act, h]
      · exact .park hcurrent
      · exact .answer hr
  | enqueuePagesLocked pages =>
      cases hno : s.buffer.noMorePages with
      | true =>
          simp only [act, enqueuePages_of_noMorePages hno]
          exact .stay
      | false =>
          simp only [act, enqueuePages_of_open hno]
          exact .add pages hno nofun (fun h => h) nofun
  | setNoMorePagesLocked =>
      cases hno : s.buffer.noMorePages with
      | true =>
          simp only [act, setNoMorePages_of_noMorePages hno]
          exact .stay
      | false =>
          simp only [act, setNoMorePages_of_open hno]
          exact .add [] hno (fun _ => rfl) (fun _ => rfl) nofun
  | destroyLocked => exact .destroy rfl
  | processReadLocked read =>
      obtain ⟨r, hread, -⟩ :=
        processRead_spec hs.aligned ha.nonneg (Or.inr ha.le) read.maxSize
      simp only [act, hread]
      exact .stay
  | completeWithEmpty read =>
      exact .complete _ (validResult_emptyResults hs.aligned ha.nonneg ha.le)
  | setResult read result => exact .complete _ ha.2
  | _ => exact .stay

/-- The section acknowledges pages before what is asked next. -/
def Acknowledges (a : Activity δ) (sequenceId : ℤ) (next : Option ReadRequest) : Prop :=
  a = .acknowledgePages sequenceId next ∨ a = .acknowledgePagesLocked sequenceId next

/-- The sections that a thread can go on with. -/
def GoesOn (a : Activity δ) : Activity δ → Prop
  | .acknowledgePages _ _ | .enqueuePagesLocked _ | .setNoMorePagesLocked | .destroyLocked
  | .pendingMaxSize => False
  | .acknowledgePagesLocked sequenceId next => a = .acknowledgePages sequenceId next
  | .loadPages sequenceId maxSize => a.Acknowledges sequenceId (some ⟨maxSize, true⟩)
  | .getPagesLocked sequenceId maxSize =>
      a.Acknowledges sequenceId (some ⟨maxSize, false⟩) ∨ a = .loadPages sequenceId maxSize
  | .loadPendingPages _ => a = .pendingMaxSize
  | .pendingReadLoaded => ∃ maxSize, a = .loadPendingPages maxSize
  | _ => True

/-- After its acknowledgement a read is not ahead of the queue. -/
theorem afterAcknowledge_next
    {sequenceId : ℤ} {next : Option ReadRequest} (ha : a.Acknowledges sequenceId next)
    (hnonneg : 0 ≤ sequenceId)
    (hle : s.buffer.destroyed = true ∨ sequenceId ≤ s.buffer.currentSequenceId)
    (hb : afterAcknowledge sequenceId next = some b) : b.Valid s ∧ a.GoesOn b := by
  rcases next with - | ⟨maxSize, supplied⟩
  · cases hb
  · cases supplied <;> cases hb
    · exact ⟨⟨hnonneg, hle⟩, Or.inl ha⟩
    · exact ⟨⟨hnonneg, hle⟩, ha⟩

/-- A section leaves an activity that is valid in the new state. -/
theorem act_next (hs : s.Consistent) (ha : a.Valid s) {supply : Supply δ}
    (hb : (act a supply s).2 = some b) : b.Valid (act a supply s).1 ∧ a.GoesOn b := by
  have hextends := (act_changes hs ha supply).extends
  have hheld : ∀ {old : Option PendingRead} {f : PendingRead → Activity δ},
      old.map f = some b → (∀ read, old = some read → s.buffer.pendingRead = some read) →
      (∀ read, (act a supply s).1.ValidRead read →
        (f read).Valid (act a supply s).1 ∧ a.GoesOn (f read)) →
      b.Valid (act a supply s).1 ∧ a.GoesOn b := by
    intro old f hmap hold hf
    obtain ⟨read, hread, rfl⟩ := Option.map_eq_some_iff.mp hmap
    exact hf read (hextends.validRead (hs.pending read (hold read hread)))
  cases a with
  | acknowledgePages sequenceId next =>
      simp only [act] at hb ⊢
      split_ifs at hb ⊢ with hneg hold
      · simp only [ClientBuffer.acknowledged, Bool.or_eq_true, decide_eq_true_eq] at hold
        exact afterAcknowledge_next (Or.inl rfl) (not_lt.mp hneg) (hold.imp_right le_of_lt) hb
      · cases hb
        exact ⟨not_lt.mp hneg, rfl⟩
  | acknowledgePagesLocked sequenceId next =>
      rcases acknowledgePages_cases hs.aligned ha with
        ⟨hold, h⟩ | ⟨-, -, -, h⟩ | ⟨-, -, h⟩ <;> simp only [act, h] at hb ⊢
      · exact afterAcknowledge_next (Or.inr rfl) ha (hold.imp_right le_of_lt) hb
      · exact afterAcknowledge_next (Or.inr rfl) ha (Or.inr le_rfl) hb
      · cases hb
  | loadPages sequenceId maxSize =>
      cases hb
      exact ⟨Valid.extends (a := .getPagesLocked sequenceId maxSize) ha hextends, Or.inr rfl⟩
  | getPagesLocked sequenceId maxSize =>
      refine hheld hb ?_ fun _ h => ⟨h, trivial⟩
      rcases getPages_cases hs.aligned ha.1 ha.2 maxSize with ⟨-, -, h⟩ | ⟨r, -, h⟩ <;>
        exact fun _ hold => by rwa [h] at hold
  | enqueuePagesLocked pages =>
      refine hheld hb ?_ fun _ h => ⟨h, trivial⟩
      cases hno : s.buffer.noMorePages <;>
        simp [enqueuePages, ClientBuffer.enqueuePagesLocked, hno]
  | setNoMorePagesLocked =>
      refine hheld hb ?_ fun _ h => ⟨h, trivial⟩
      cases hno : s.buffer.noMorePages <;>
        simp [setNoMorePages, ClientBuffer.setNoMorePagesLocked, hno]
  | destroyLocked | pendingReadLoaded => exact hheld hb (fun _ h => h) fun _ h => ⟨h, trivial⟩
  | pendingMaxSize => exact hheld hb (fun _ h => h) fun _ _ => ⟨trivial, rfl⟩
  | loadPendingPages maxSize =>
      simp only [act] at hb
      split_ifs at hb
      cases hb
      exact ⟨trivial, maxSize, rfl⟩
  | processRead read =>
      simp only [act] at hb
      split_ifs at hb
      cases hb
      exact ⟨ha, trivial⟩
  | processReadLocked read =>
      obtain ⟨r, hread, hvalid⟩ :=
        processRead_spec hs.aligned ha.nonneg (Or.inr ha.le) read.maxSize
      simp only [act, hread] at hb ⊢
      cases hb
      exact ⟨⟨ha, hvalid⟩, trivial⟩
  | completeWithEmpty _ | setResult _ _ => cases hb

end Activity

variable {a : Activity δ}

/-- One section keeps the invariant, only extends the state and leaves an activity that is
valid in the new state. -/
theorem act_spec (hs : s.Consistent) (ha : a.Valid s) (supply : Supply δ) :
    s.Extends (act a supply s).1 ∧ (act a supply s).1.Consistent ∧
      ∀ b, (act a supply s).2 = some b → b.Valid (act a supply s).1 :=
  have hchanges := Activity.act_changes hs ha supply
  ⟨hchanges.extends, hchanges.consistent hs, fun _ hb => (Activity.act_next hs ha hb).1⟩

/-! ## What moves the sequence id and what destroys the buffer -/

/-- The thread acknowledges no page at or after `bound`. -/
def Activity.AcknowledgesUpTo (bound : ℤ) : Activity δ → Prop
  | .acknowledgePages sequenceId _ | .acknowledgePagesLocked sequenceId _ => sequenceId ≤ bound
  | _ => True

variable {bound : ℤ}

theorem Activity.AcknowledgesUpTo.mono
    {bound' : ℤ} (ha : a.AcknowledgesUpTo bound) (h : bound ≤ bound') :
    a.AcknowledgesUpTo bound' := by
  cases a with
  | acknowledgePages _ _ | acknowledgePagesLocked _ _ => exact le_trans ha h
  | _ => trivial

/-- What a section does to the position of the queue and to the destroyed flag. -/
structure Moves (bound : ℤ) (s : Traced δ) (a : Activity δ) (s' : Traced δ)
    (next : Option (Activity δ)) : Prop where
  currentSequenceId : s'.buffer.currentSequenceId ≤ bound
  destroyed : s'.buffer.destroyed = true → s.buffer.destroyed = true ∨ a = .destroyLocked
  next : ∀ b, next = some b → b.AcknowledgesUpTo bound ∧ b ≠ .destroyLocked

/-- A section moves the queue only up to what it acknowledges, and only `destroy`
destroys the buffer. -/
theorem Activity.Changes.moves (h : a.Changes s s')
    (hle : s.buffer.currentSequenceId ≤ bound) (hack : a.AcknowledgesUpTo bound) :
    s'.buffer.currentSequenceId ≤ bound ∧
      (s'.buffer.destroyed = true → s.buffer.destroyed = true ∨ a = .destroyLocked) := by
  cases h with
  | acknowledge ha =>
      subst ha
      exact ⟨hack, fun h => Or.inl h⟩
  | destroy ha => exact ⟨hle, fun _ => Or.inr ha⟩
  | complete future =>
      rw [complete_buffer]
      exact ⟨hle, fun h => Or.inl h⟩
  | _ => exact ⟨hle, fun h => Or.inl h⟩

theorem act_moves (hs : s.Consistent) (ha : a.Valid s)
    (hle : s.buffer.currentSequenceId ≤ bound) (hack : a.AcknowledgesUpTo bound)
    (supply : Supply δ) : Moves bound s a (act a supply s).1 (act a supply s).2 := by
  obtain ⟨hmoved, hdestroyed⟩ := (Activity.act_changes hs ha supply).moves hle hack
  refine ⟨hmoved, hdestroyed, ?_⟩
  intro b hb
  have hgoes := (Activity.act_next hs ha hb).2
  cases b with
  | acknowledgePages _ _ | destroyLocked => exact hgoes.elim
  | acknowledgePagesLocked sequenceId next =>
      cases hgoes
      exact ⟨hack, nofun⟩
  | _ => exact ⟨trivial, nofun⟩

end Presto.Execution.Buffer
