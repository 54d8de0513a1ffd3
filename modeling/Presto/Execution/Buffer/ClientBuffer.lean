import Mathlib.Algebra.Order.BigOperators.Group.List
import Mathlib.Algebra.Order.Ring.Int
import Presto.Support.Throwable

/-!
# Client buffers

A client buffer queues the serialized pages of one consumer.  The pages are
numbered from zero in the order they were added; a read names the number of the
first page it wants, which acknowledges every page before it.  Each definition
below that ends in `Locked` is one `synchronized` block of the class, which other
threads see as one step; the code between the blocks is in
`Presto.Execution.Buffer.ClientBufferSections`.
-/

namespace Presto.Execution.Buffer

/-- The part of a task that produced a page. -/
inductive Lifespan
  | taskWide
  | driverGroup (id : ℕ)
  deriving DecidableEq, Repr

/-- A page in its wire form. -/
structure SerializedPage (δ : Type*) where
  slice : δ
  positionCount : ℕ
  retainedSizeInBytes : ℕ
  deriving DecidableEq, Repr

/-- A counted reference to a page; `id` is the identity of the reference object. -/
structure SerializedPageReference (δ : Type*) where
  id : ℕ
  serializedPage : SerializedPage δ
  lifespan : Lifespan
  deriving DecidableEq, Repr

/-- What a read returns. -/
structure BufferResult (δ : Type*) where
  taskInstanceId : String
  token : ℤ
  nextToken : ℤ
  bufferComplete : Bool
  serializedPages : List (SerializedPage δ)
  deriving DecidableEq, Repr

/-- A read that waits for data; `future` numbers the future it was given. -/
structure PendingRead where
  sequenceId : ℤ
  maxSize : ℕ
  future : ℕ
  deriving DecidableEq, Repr

variable {δ : Type*}

namespace BufferResult

def emptyResults (taskInstanceId : String) (token : ℤ) (bufferComplete : Bool) :
    BufferResult δ :=
  ⟨taskInstanceId, token, token, bufferComplete, []⟩

end BufferResult

namespace SerializedPageReference

def retainedSizeInBytes (page : SerializedPageReference δ) : ℤ :=
  page.serializedPage.retainedSizeInBytes

def positionCount (page : SerializedPageReference δ) : ℤ :=
  page.serializedPage.positionCount

/-- The memory that a list of pages retains. -/
def totalBytes (pages : List (SerializedPageReference δ)) : ℤ :=
  (pages.map retainedSizeInBytes).sum

/-- The rows of a list of pages. -/
def totalRows (pages : List (SerializedPageReference δ)) : ℤ :=
  (pages.map positionCount).sum

/-- The loop that collects pages up to a size limit: it always takes a first page and
then stops before the page that would exceed the limit.  Returns the pages taken and
the pages left. -/
def takeUpTo (maxBytes : ℕ) :
    List (SerializedPageReference δ) → ℤ → List (SerializedPageReference δ) →
      List (SerializedPageReference δ) × List (SerializedPageReference δ)
  | taken, _, [] => (taken, [])
  | taken, bytes, page :: rest =>
      let bytes := bytes + page.retainedSizeInBytes
      if !taken.isEmpty && decide (bytes > maxBytes) then (taken, page :: rest)
      else takeUpTo maxBytes (taken ++ [page]) bytes rest

@[simp]
theorem totalBytes_nil : totalBytes ([] : List (SerializedPageReference δ)) = 0 := rfl

@[simp]
theorem totalBytes_append (pages more : List (SerializedPageReference δ)) :
    totalBytes (pages ++ more) = totalBytes pages + totalBytes more := by
  simp [totalBytes]

theorem totalBytes_nonneg (pages : List (SerializedPageReference δ)) : 0 ≤ totalBytes pages := by
  apply List.sum_nonneg
  intro b hb
  obtain ⟨page, -, rfl⟩ := List.mem_map.mp hb
  exact Int.natCast_nonneg _

/-- The loop splits the pages without losing or reordering any. -/
theorem takeUpTo_append (maxBytes : ℕ) (taken : List (SerializedPageReference δ)) (bytes : ℤ)
    (pages : List (SerializedPageReference δ)) :
    (takeUpTo maxBytes taken bytes pages).1 ++ (takeUpTo maxBytes taken bytes pages).2 =
      taken ++ pages := by
  induction pages generalizing taken bytes with
  | nil => rfl
  | cons page rest ih =>
      simp only [takeUpTo]
      split_ifs with hstop
      · rfl
      · rw [ih]
        simp

end SerializedPageReference

open SerializedPageReference

/-- The state of a client buffer. -/
structure ClientBuffer (δ : Type*) where
  taskInstanceId : String
  rowsAdded : ℤ
  pagesAdded : ℤ
  bufferedBytes : ℤ
  currentSequenceId : ℤ
  pages : List (SerializedPageReference δ)
  noMorePages : Bool
  destroyed : Bool
  pendingRead : Option PendingRead
  deriving DecidableEq, Repr

namespace ClientBuffer

/-- A new client buffer. -/
def create (taskInstanceId : String) : ClientBuffer δ where
  taskInstanceId := taskInstanceId
  rowsAdded := 0
  pagesAdded := 0
  bufferedBytes := 0
  currentSequenceId := 0
  pages := []
  noMorePages := false
  destroyed := false
  pendingRead := none

variable (buffer : ClientBuffer δ)

def addPages (pages : List (SerializedPageReference δ)) : ClientBuffer δ :=
  { buffer with
    pages := buffer.pages ++ pages
    rowsAdded := buffer.rowsAdded + totalRows pages
    pagesAdded := buffer.pagesAdded + pages.length
    bufferedBytes := buffer.bufferedBytes + totalBytes pages }

/-- The block of `destroy`: returns the removed pages and the read to abort. -/
def destroyLocked : ClientBuffer δ × List (SerializedPageReference δ) × Option PendingRead :=
  ({ buffer with
      pages := []
      bufferedBytes := 0
      noMorePages := true
      destroyed := true
      pendingRead := none },
    buffer.pages, buffer.pendingRead)

/-- The block of `enqueuePages`: returns the read to process. -/
def enqueuePagesLocked (pages : List (SerializedPageReference δ)) :
    ClientBuffer δ × Option PendingRead :=
  if buffer.noMorePages then (buffer, none)
  else ({ buffer.addPages pages with pendingRead := none }, buffer.pendingRead)

/-- The block of `setNoMorePages`: returns the read to process. -/
def setNoMorePagesLocked : ClientBuffer δ × Option PendingRead :=
  if buffer.noMorePages then (buffer, none)
  else ({ buffer with noMorePages := true, pendingRead := none }, buffer.pendingRead)

/-- Whether `loadPagesIfNecessary` asks its supplier for pages. -/
def needsPages : Bool :=
  !buffer.noMorePages && buffer.pages.isEmpty

/-- The block of the private `loadPagesIfNecessary`, where the supplier answers with
`pages` and says whether it may have more: returns whether data was added or the end
is known. -/
def loadPagesLocked (pages : List (SerializedPageReference δ)) (mayHaveMorePages : Bool) :
    ClientBuffer δ × Bool :=
  if buffer.needsPages then
    let buffer := buffer.addPages pages
    let buffer := if mayHaveMorePages then buffer else { buffer with noMorePages := true }
    (buffer, !pages.isEmpty || buffer.noMorePages)
  else (buffer, false)

/-- The `synchronized` method `processRead`. -/
def processRead (sequenceId : ℤ) (maxSize : ℕ) : Result (BufferResult δ) :=
  if sequenceId < buffer.currentSequenceId then
    .ok (.emptyResults buffer.taskInstanceId sequenceId false)
  else if buffer.pages.isEmpty && buffer.noMorePages then
    .ok (.emptyResults buffer.taskInstanceId buffer.currentSequenceId true)
  else if sequenceId ≠ buffer.currentSequenceId then
    .error (.verify "Invalid sequence id")
  else
    let result := (takeUpTo maxSize [] 0 buffer.pages).1.map (·.serializedPage)
    .ok ⟨buffer.taskInstanceId, sequenceId, sequenceId + result.length, false, result⟩

/-- The block of `getPages`: returns the older read to abort and, unless the read was
parked under the number `future`, its immediate result. -/
def getPagesLocked (sequenceId : ℤ) (maxSize : ℕ) (future : ℕ) :
    ClientBuffer δ × Option PendingRead × Option (Result (BufferResult δ)) :=
  let oldPendingRead := buffer.pendingRead
  let buffer := { buffer with pendingRead := none }
  if !buffer.pages.isEmpty || buffer.noMorePages ||
      decide (sequenceId ≠ buffer.currentSequenceId) then
    (buffer, oldPendingRead, some (buffer.processRead sequenceId maxSize))
  else
    ({ buffer with pendingRead := some ⟨sequenceId, maxSize, future⟩ }, oldPendingRead, none)

/-- The test of `acknowledgePages` before it takes the lock. -/
def acknowledged (sequenceId : ℤ) : Bool :=
  buffer.destroyed || decide (sequenceId < buffer.currentSequenceId)

/-- The block of `acknowledgePages`: returns the removed pages. -/
def acknowledgePagesLocked (sequenceId : ℤ) :
    Result (ClientBuffer δ × List (SerializedPageReference δ)) :=
  if buffer.destroyed then .ok (buffer, [])
  else if sequenceId < buffer.currentSequenceId then .ok (buffer, [])
  else
    let pagesToRemove := sequenceId - buffer.currentSequenceId
    if pagesToRemove > buffer.pages.length then
      .error (.illegalArgument "Invalid sequence id")
    else
      let removedPages := buffer.pages.take pagesToRemove.toNat
      let bufferedBytes := buffer.bufferedBytes - totalBytes removedPages
      if bufferedBytes < 0 then .error (.verify "")
      else
        .ok ({ buffer with
                pages := buffer.pages.drop pagesToRemove.toNat
                currentSequenceId := buffer.currentSequenceId + pagesToRemove
                bufferedBytes := bufferedBytes },
              removedPages)

end ClientBuffer
end Presto.Execution.Buffer
