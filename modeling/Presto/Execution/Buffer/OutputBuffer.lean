import Mathlib.Data.List.Perm.Basic
import Presto.Execution.Buffer.ClientBufferSections
import Presto.Execution.Buffer.PageTracker
import Presto.Support.Interleaving
import Presto.Support.Registry

/-!
# Output buffers

The output buffer of a task hands the pages of the task to its client buffers: a
partitioned buffer hands each page to the client of its partition, a broadcast buffer to
every client, an arbitrary buffer to any one client, through a master queue from which the
clients load.  The three classes are one machine here; where they differ the step asks the
type of the buffer.  A `Work` is what a thread inside an operation does next.  The lock of
the buffer is held over several steps only by `setOutputBuffers` and by the creation of a
client in an arbitrary buffer; `locked` makes the other threads wait for it.  The state
carries a history (accepted `enqueue` calls, references still to be dropped, flush checks
under way) that no step reads.
-/

namespace Presto.Execution.Buffer

open SerializedPageReference (takeUpTo totalBytes)

variable {δ : Type*}

/-! ## Descriptors and states -/

inductive BufferType
  | partitioned
  | broadcast
  | arbitrary
  | discarding
  deriving DecidableEq, Repr

/-- The descriptor of the client buffers that the scheduler has declared; each client
buffer is declared once, with its partition. -/
structure OutputBuffers where
  type : BufferType
  version : ℤ
  noMoreBufferIds : Bool
  buffers : List (ℕ × ℕ)
  nodup : (buffers.map Prod.fst).Nodup

namespace OutputBuffers

def createInitialEmptyOutputBuffers (type : BufferType) : OutputBuffers :=
  ⟨type, 0, false, [], List.nodup_nil⟩

/-- The declared client buffers. -/
def ids (o : OutputBuffers) : List ℕ := o.buffers.map Prod.fst

/-- The declarations are compared as maps. -/
def equals (o other : OutputBuffers) : Bool :=
  decide (o.version = other.version) && decide (o.noMoreBufferIds = other.noMoreBufferIds) &&
    o.buffers.isPerm other.buffers

def checkValidTransition (o newOutputBuffers : OutputBuffers) : Result Unit :=
  if o.type ≠ newOutputBuffers.type then
    .error (.illegalState "newOutputBuffers has a different type")
  else if o.noMoreBufferIds then
    if o.equals newOutputBuffers then .ok ()
    else .error (.illegalArgument "Expected buffer to not change after no more buffers is set")
  else if o.version > newOutputBuffers.version then
    .error (.illegalArgument "newOutputBuffers version is older")
  else if o.version = newOutputBuffers.version && !o.equals newOutputBuffers then
    .error (.illegalArgument
      "newOutputBuffers is the same version but contains different information")
  else
    match o.buffers.find? fun entry => newOutputBuffers.buffers.lookup entry.1 ≠ some entry.2 with
    | some entry => .error (.illegalArgument
        ("newOutputBuffers has changed the assignment for task " ++ toString entry.1))
    | none => .ok ()

end OutputBuffers

inductive BufferState
  | open
  | noMoreBuffers
  | noMorePages
  | flushing
  | finished
  | failed
  deriving DecidableEq, Repr

namespace BufferState

def canAddPages : BufferState → Bool
  | .open | .noMoreBuffers => true
  | .noMorePages | .flushing | .finished | .failed => false

def canAddBuffers : BufferState → Bool
  | .open | .noMorePages => true
  | .noMoreBuffers | .flushing | .finished | .failed => false

def isTerminal : BufferState → Bool
  | .finished | .failed => true
  | .open | .noMoreBuffers | .noMorePages | .flushing => false

def compareAndSet (state expectedState newState : BufferState) : BufferState :=
  if state = expectedState then newState else state

end BufferState

/-! ## The state of an output buffer -/

/-- How far an accepted `enqueue` has got: it has seen that pages can be added, it has
created its references, it has handed them to all but some of the clients, it has handed
them to everybody (or to the master queue), it has thrown. -/
inductive EnqueueStage
  | tested
  | created
  | delivering (ids : List ℕ)
  | handedOver
  | abandoned
  deriving DecidableEq, Repr

/-- The call is still running. -/
def EnqueueStage.inProgress : EnqueueStage → Bool
  | .tested | .created | .delivering _ => true
  | .handedOver | .abandoned => false

/-- An accepted `enqueue` and the references it created. -/
structure EnqueueCall (δ : Type*) where
  references : List (SerializedPageReference δ)
  stage : EnqueueStage
  deriving DecidableEq

/-- A client buffer.  `loading` holds the pages that the thread inside its
`loadPagesIfNecessary` block has taken from the master queue. -/
structure Client (δ : Type*) where
  traced : Traced δ
  loading : Option (List (SerializedPageReference δ))

/-- An output buffer and its history: `created` counts the references, `enqueues` lists the
accepted calls, `handed` and `taken` the pages that went into and out of the master queue,
`loans` the references that a thread still has to drop, `flushes` whether each flush check
is under way; `endsDeclared` is set by the first `setNoMorePages` that told every client. -/
structure OutputBuffer (δ : Type*) where
  type : BufferType
  taskInstanceId : String
  state : BufferState
  outputBuffers : OutputBuffers
  buffers : Registry (Client δ)
  locked : Bool
  initialPagesForNewBuffers : List (SerializedPageReference δ)
  masterBuffer : List (SerializedPageReference δ)
  masterNoMorePages : Bool
  nextClientBufferIndex : ℕ
  pageTracker : PageTracker
  created : ℕ
  enqueues : List (EnqueueCall δ)
  handed : List (SerializedPageReference δ)
  taken : List (SerializedPageReference δ)
  loans : List (List (SerializedPageReference δ))
  flushes : List Bool
  endsDeclared : Bool
  thrown : List Throwable

/-- The next step of an operation in progress. -/
inductive Work (δ : Type*)
  | done
  | throw (e : Throwable)
  | registerLifespanCompletionCallback
  | setNoMorePagesForLifespan (lifespan : Lifespan)
  | enqueue (lifespan : Lifespan) (partition : ℕ) (pages : List (SerializedPage δ))
  | enqueueTested (call : ℕ) (lifespan : Lifespan) (partition : ℕ)
      (pages : List (SerializedPage δ))
  | rememberPages (call : ℕ) (references : List (SerializedPageReference δ))
  | deliver (call : ℕ) (references : List (SerializedPageReference δ)) (ids : List ℕ)
  | addToMaster (call : ℕ) (references : List (SerializedPageReference δ))
  | pollClients
  | pollFrom (ids : List ℕ)
  | poll (ids : List ℕ) (index : ℕ) (remaining : ℕ)
  | dereference (loan : ℕ) (pages : List (SerializedPageReference δ)) (next : Work δ)
  /-- Looks up or creates a client, then runs `activity` on it; `held` says that the thread
  already holds the lock. -/
  | getBuffer (held : Bool) (id : ℕ) (activity : Option (Activity δ)) (next : Work δ)
  | newBuffer (held : Bool) (id : ℕ) (activity : Option (Activity δ)) (next : Work δ)
  | inClient (id : ℕ) (activity : Activity δ) (next : Work δ)
  | loadClient (id : ℕ) (activity : Activity δ) (next : Work δ)
  | setNoMorePages
  | setNoMorePagesAgain
  | masterNoMorePages
  | endClients
  | endClient (ids : List ℕ)
  | setOutputBuffers (newOutputBuffers : OutputBuffers)
  | addBuffers (canAddPages : Bool) (ids : List ℕ)
  | noMoreBuffersOpen
  | noMoreBuffersNoMorePages
  | buffersSet
  | noMoreBuffers (next : Work δ)
  | checkFlushComplete
  | checkFlushCompleteAgain
  | flushClients
  | flushClient (flush : ℕ) (ids : List ℕ)
  | destroy (flush : Option ℕ)
  | destroyMaster
  | destroyClients
  | destroyClient (ids : List ℕ)
  | fail

namespace Activity

/-- The section runs under the lock of the client. -/
def takesLock : Activity δ → Bool
  | .acknowledgePages _ _ | .completeWithEmpty _ | .processRead _ | .setResult _ _ => false
  | _ => true

/-- The size that a loading section asks its supplier for. -/
def loadSize : Activity δ → Option ℕ
  | .loadPages _ maxSize | .loadPendingPages maxSize => some maxSize
  | _ => none

/-- The pages to which a section adds a reference. -/
def referenced (a : Activity δ) (supply : Supply δ) (s : Traced δ) :
    List (SerializedPageReference δ) :=
  match a with
  | .enqueuePagesLocked pages => if s.buffer.noMorePages then [] else pages
  | .loadPages _ _ | .loadPendingPages _ => if s.buffer.needsPages then supply.pages else []
  | _ => []

/-- The pages whose reference the thread drops after a section. -/
def dereferenced (a : Activity δ) (supply : Supply δ) (s : Traced δ) :
    List (SerializedPageReference δ) :=
  match a with
  | .destroyLocked => s.buffer.destroyLocked.2.1
  | .acknowledgePagesLocked sequenceId _ =>
      match s.buffer.acknowledgePagesLocked sequenceId with
      | .ok (_, removedPages) => removedPages
      | .error _ => []
  | .loadPages _ _ | .loadPendingPages _ => if s.buffer.needsPages then supply.pages else []
  | _ => []

end Activity

namespace Work

/-- What a thread does after `getBuffer`. -/
def afterGetBuffer (id : ℕ) (activity : Option (Activity δ)) (next : Work δ) : Work δ :=
  match activity with
  | none => next
  | some a => .inClient id a next

/-- What a thread does after a section of a client; an exception ends the operation. -/
def afterSection (id : ℕ) (next : Work δ) (old new : Traced δ) (activity : Option (Activity δ)) :
    Work δ :=
  if new.thrown.length = old.thrown.length then afterGetBuffer id activity next else .done

end Work

namespace OutputBuffer

/-- A new broadcast or arbitrary buffer. -/
def create (type : BufferType) (taskInstanceId : String) : OutputBuffer δ where
  type := type
  taskInstanceId := taskInstanceId
  state := .open
  outputBuffers := .createInitialEmptyOutputBuffers type
  buffers := .empty
  locked := false
  initialPagesForNewBuffers := []
  masterBuffer := []
  masterNoMorePages := false
  nextClientBufferIndex := 0
  pageTracker := .create (decide (type = .broadcast))
  created := 0
  enqueues := []
  handed := []
  taken := []
  loans := []
  flushes := []
  endsDeclared := false
  thrown := []

/-- The clients of a partitioned buffer, by position. -/
def partitions (taskInstanceId : String) : ℕ → Registry (Client δ)
  | 0 => .empty
  | n + 1 => (partitions taskInstanceId n).set n ⟨.create taskInstanceId, none⟩

/-- A new partitioned buffer for a final descriptor, before its first flush check. -/
def createPartitioned (taskInstanceId : String) (outputBuffers : OutputBuffers) :
    OutputBuffer δ :=
  { create .partitioned taskInstanceId with
    outputBuffers := outputBuffers
    buffers := partitions taskInstanceId outputBuffers.buffers.length
    state := .noMoreBuffers }

variable (s : OutputBuffer δ)

def addThrown (e : Throwable) : OutputBuffer δ :=
  { s with thrown := s.thrown ++ [e] }

/-- A copy of the clients, in the given order if it names them all. -/
def safeGetBuffersSnapshot (order : List ℕ) : List ℕ :=
  if order.isPerm s.buffers.ids then order else s.buffers.ids

def setClient (id : ℕ) (client : Client δ) : OutputBuffer δ :=
  { s with buffers := s.buffers.set id client }

def setState (state : BufferState) : OutputBuffer δ :=
  { s with state := state }

def setCall (call : ℕ) (entry : EnqueueCall δ) : OutputBuffer δ :=
  { s with enqueues := s.enqueues.set call entry }

/-- Leaves the references of `pages` to be dropped by the thread before it goes on. -/
def lend (pages : List (SerializedPageReference δ)) (next : Work δ) : OutputBuffer δ × Work δ :=
  if pages.isEmpty then (s, next)
  else ({ s with loans := s.loans ++ [pages] }, .dereference s.loans.length pages next)

/-- The references of an `enqueue`, with fresh identities. -/
def newReferences (first : ℕ) (lifespan : Lifespan) :
    List (SerializedPage δ) → List (SerializedPageReference δ)
  | [] => []
  | page :: pages => ⟨first, page, lifespan⟩ :: newReferences (first + 1) lifespan pages

/-! ## Clients -/

/-- One section of a client, for a thread that continues with `next`. -/
def runSection (id : ℕ) (client : Client δ) (loading : Option (List (SerializedPageReference δ)))
    (a : Activity δ) (supply : Supply δ) (next : Work δ) : OutputBuffer δ × Work δ :=
  let result := act a supply client.traced
  { s.setClient id ⟨result.1, loading⟩ with
    pageTracker := s.pageTracker.addReferences (a.referenced supply client.traced) }.lend
    (a.dereferenced supply client.traced)
    (.afterSection id next client.traced result.1 result.2)

/-- A loading section takes its pages from the master queue and keeps the lock of the client
until it has added them. -/
def beginLoad (id : ℕ) (client : Client δ) (maxSize : ℕ) : OutputBuffer δ :=
  let pages := takeUpTo maxSize [] 0 s.masterBuffer
  { s.setClient id { client with loading := some pages.1 } with
    masterBuffer := pages.2
    taken := s.taken ++ pages.1 }

def mayHaveMorePages : Bool :=
  !s.masterNoMorePages || !s.masterBuffer.isEmpty

/-- The next section of a client, which waits while another thread holds its lock. -/
def inClient (id : ℕ) (a : Activity δ) (next : Work δ) : OutputBuffer δ × Work δ :=
  match s.buffers.get id with
  | none => (s.addThrown .indexOutOfBounds, .done)
  | some client =>
      if client.loading.isSome && a.takesLock then (s, .inClient id a next)
      else
        match a.loadSize, client.traced.buffer.needsPages with
        | some maxSize, true => (s.beginLoad id client maxSize, .loadClient id a next)
        | _, _ => s.runSection id client client.loading a ⟨[], true⟩ next

/-- The rest of a loading section. -/
def loadClient (id : ℕ) (a : Activity δ) (next : Work δ) : OutputBuffer δ × Work δ :=
  match s.buffers.get id with
  | none => (s.addThrown .indexOutOfBounds, .done)
  | some client =>
      s.runSection id client none a ⟨client.loading.getD [], s.mayHaveMorePages⟩ next

/-- A new client of a broadcast buffer. -/
def broadcastClient : Traced δ :=
  let buffer : Traced δ := .create s.taskInstanceId
  if s.state = .failed then buffer
  else
    let buffer := (buffer.enqueuePages s.initialPagesForNewBuffers).1
    let buffer := if s.state.canAddPages then buffer else buffer.setNoMorePages.1
    if s.state = .finished then buffer.destroy.1 else buffer

/-- The reference counts after a client of a broadcast buffer was set up. -/
def broadcastClientTracker : PageTracker :=
  if s.state = .failed then s.pageTracker
  else
    let tracker := s.pageTracker.addReferences s.initialPagesForNewBuffers
    if s.state = .finished then tracker.dereferencePages s.initialPagesForNewBuffers else tracker

/-- A new client of an arbitrary buffer. -/
def arbitraryClient : Traced δ :=
  let buffer : Traced δ := .create s.taskInstanceId
  if s.state = .finished then buffer.destroy.1 else buffer

/-- The buffer after `getBuffer` has created a client of a broadcast buffer. -/
def withBroadcastClient (id : ℕ) : OutputBuffer δ :=
  { s.setClient id ⟨s.broadcastClient, none⟩ with pageTracker := s.broadcastClientTracker }

def mayCreateBuffer : Bool :=
  s.state.canAddBuffers || !s.outputBuffers.noMoreBufferIds

/-- `getBuffer`; a thread that got the lock for it keeps it only in an arbitrary buffer, over
the two reads of the state. -/
def getBuffer (held : Bool) (id : ℕ) (activity : Option (Activity δ)) (next : Work δ) :
    OutputBuffer δ × Work δ :=
  if s.type = .partitioned then
    match s.buffers.get id with
    | none => (s.addThrown .indexOutOfBounds, .done)
    | some _ => (s, .afterGetBuffer id activity next)
  else if s.locked && !held then (s, .getBuffer held id activity next)
  else
    match s.buffers.get id with
    | some _ => (s, .afterGetBuffer id activity next)
    | none =>
        if !s.mayCreateBuffer then
          -- the exception leaves the synchronized block
          ({ s with locked := false }.addThrown (.illegalState "No more buffers already set"),
            .done)
        else if s.type = .arbitrary then
          ({ s with locked := true }, .newBuffer held id activity next)
        else (s.withBroadcastClient id, .afterGetBuffer id activity next)

/-- The second read of the state in `getBuffer` of an arbitrary buffer. -/
def newBuffer (held : Bool) (id : ℕ) (activity : Option (Activity δ)) (next : Work δ) :
    OutputBuffer δ × Work δ :=
  ({ s.setClient id ⟨s.arbitraryClient, none⟩ with locked := held },
    .afterGetBuffer id activity next)

/-! ## Adding pages -/

/-- The tests of `enqueue`. -/
def enqueue (lifespan : Lifespan) (partition : ℕ) (pages : List (SerializedPage δ)) :
    OutputBuffer δ × Work δ :=
  if !s.pageTracker.lifespanCompletionCallback then
    (s.addThrown
      (.illegalState "lifespanCompletionCallback must be set before enqueueing data"), .done)
  else if !s.state.canAddPages || s.pageTracker.isNoMorePagesForLifespan lifespan then (s, .done)
  else
    ({ s with enqueues := s.enqueues ++ [⟨[], .tested⟩] },
      .enqueueTested s.enqueues.length lifespan partition pages)

/-- Reserves the memory and creates the references. -/
def reservePages (call : ℕ) (lifespan : Lifespan) (references : List (SerializedPageReference δ))
    (stage : EnqueueStage) : OutputBuffer δ :=
  let tracker := s.pageTracker.updateMemoryUsage (totalBytes references)
  let tracker := { tracker with
    totalBufferedPages := tracker.totalBufferedPages.map (· + (references.length : ℤ)) }
  let tracker := tracker.incrementLifespanPageCount lifespan references.length
  { s.setCall call ⟨references, stage⟩ with
    pageTracker := tracker.createReferences references
    created := s.created + references.length }

def enqueueTested (call : ℕ) (lifespan : Lifespan) (partition : ℕ)
    (pages : List (SerializedPage δ)) : OutputBuffer δ × Work δ :=
  let references := newReferences s.created lifespan pages
  match s.type with
  | .partitioned | .discarding =>
      (s.reservePages call lifespan references (.delivering [partition]),
        .deliver call references [partition])
  | .broadcast =>
      (s.reservePages call lifespan references .created, .rememberPages call references)
  | .arbitrary =>
      (s.reservePages call lifespan references .created, .addToMaster call references)

/-- The block of a broadcast `enqueue`. -/
def rememberPages (call : ℕ) (references : List (SerializedPageReference δ)) (order : List ℕ) :
    OutputBuffer δ × Work δ :=
  let ids := s.safeGetBuffersSnapshot order
  let s := s.setCall call ⟨references, .delivering ids⟩
  (if s.state.canAddBuffers then
      { s with
        pageTracker := s.pageTracker.addReferences references
        initialPagesForNewBuffers := s.initialPagesForNewBuffers ++ references }
    else s,
    .deliver call references ids)

/-- Hands the pages to the next client, or drops the initial references. -/
def deliver (call : ℕ) (references : List (SerializedPageReference δ)) :
    List ℕ → OutputBuffer δ × Work δ
  | [] =>
      ({ s.setCall call ⟨references, .handedOver⟩ with
          pageTracker := s.pageTracker.dereferencePages references }, .done)
  | id :: ids =>
      match s.buffers.get id with
      | none =>
          ((s.setCall call ⟨references, .abandoned⟩).addThrown .indexOutOfBounds, .done)
      | some client =>
          if client.loading.isSome then (s, .deliver call references (id :: ids))
          else
            (s.setCall call ⟨references, .delivering ids⟩).runSection id client none
              (.enqueuePagesLocked references) ⟨[], true⟩ (.deliver call references ids)

def addToMaster (call : ℕ) (references : List (SerializedPageReference δ)) :
    OutputBuffer δ × Work δ :=
  ({ s.setCall call ⟨references, .handedOver⟩ with
      masterBuffer := s.masterBuffer ++ references
      handed := s.handed ++ references },
    .pollClients)

/-- The loop of an arbitrary `enqueue` over the clients. -/
def poll (ids : List ℕ) (index : ℕ) : ℕ → OutputBuffer δ × Work δ
  | 0 => (s, .done)
  | remaining + 1 =>
      if s.masterBuffer.isEmpty then ({ s with nextClientBufferIndex := index }, .done)
      else
        (s, .inClient (ids.getD index 0) .pendingMaxSize
          (.poll ids ((index + 1) % ids.length) remaining))

/-! ## The end of the pages and of the clients -/

/-- Tells the next client that there are no more pages. -/
def endClient : List ℕ → OutputBuffer δ × Work δ
  | [] => ({ s with endsDeclared := true }, .checkFlushComplete)
  | id :: ids =>
      if s.type = .arbitrary then (s, .inClient id .pendingMaxSize (.endClient ids))
      else
        match s.buffers.get id with
        | none => (s.addThrown .indexOutOfBounds, .done)
        | some client =>
            if client.loading.isSome then (s, .endClient (id :: ids))
            else
              s.runSection id client none .setNoMorePagesLocked ⟨[], true⟩ (.endClient ids)

/-- The start of the block of `setOutputBuffers`. -/
def setOutputBuffers (newOutputBuffers : OutputBuffers) : OutputBuffer δ × Work δ :=
  if s.locked && decide (s.type ≠ .partitioned) then (s, .setOutputBuffers newOutputBuffers)
  else if s.state.isTerminal || s.outputBuffers.version ≥ newOutputBuffers.version then
    (s, .done)
  else
    match s.outputBuffers.checkValidTransition newOutputBuffers with
    | .error e => (s.addThrown e, .done)
    | .ok _ =>
        if s.type = .partitioned then (s, .done)
        else
          ({ s with outputBuffers := newOutputBuffers, locked := true },
            .addBuffers s.state.canAddPages newOutputBuffers.ids)

/-- The loop of `setOutputBuffers` over the declared clients; `canAddPages` is what the
block read at its start. -/
def addBuffers (canAddPages : Bool) : List ℕ → OutputBuffer δ × Work δ
  | [] =>
      let index := if s.type = .arbitrary then 0 else s.nextClientBufferIndex
      if s.outputBuffers.noMoreBufferIds then
        ({ s with nextClientBufferIndex := index }, .noMoreBuffersOpen)
      else ({ s with nextClientBufferIndex := index, locked := false }, .buffersSet)
  | id :: ids =>
      if s.type = .arbitrary then (s, .getBuffer true id none (.addBuffers canAddPages ids))
      else if id ∈ s.buffers.ids then (s, .addBuffers canAddPages ids)
      else
        (s, .getBuffer true id (if canAddPages then none else some .setNoMorePagesLocked)
          (.addBuffers canAddPages ids))

/-- The created clients that the descriptor does not declare. -/
def undeclaredCreatedBuffers : List ℕ :=
  s.buffers.ids.filter fun id => id ∉ s.outputBuffers.ids

/-- The pages that a broadcast buffer remembers. -/
def rememberedPages : List (SerializedPageReference δ) :=
  if s.type = .broadcast then s.initialPagesForNewBuffers else []

def forgetPages : OutputBuffer δ :=
  if s.type = .broadcast then { s with initialPagesForNewBuffers := [] } else s

/-- `noMoreBuffers`.  A broadcast buffer clears the remembered pages before it checks the
descriptor, and drops their references after. -/
def noMoreBuffers (next : Work δ) : OutputBuffer δ × Work δ :=
  if s.locked then (s, .noMoreBuffers next)
  else if s.outputBuffers.noMoreBufferIds && !s.undeclaredCreatedBuffers.isEmpty then
    (s.forgetPages.addThrown (.illegalState
      ("Final output buffers does not contain all created buffer ids: " ++
        toString s.undeclaredCreatedBuffers)), .done)
  else s.forgetPages.lend s.rememberedPages next

/-! ## Finishing -/

/-- The first read of the state in `checkFlushComplete`. -/
def checkFlushComplete : Work δ :=
  if s.state = .flushing then .flushClients
  else if s.type = .arbitrary then
    if s.state = .noMorePages then .checkFlushCompleteAgain else .done
  else .checkFlushCompleteAgain

/-- The second read of the state, or the look at the master queue of an arbitrary buffer. -/
def checkFlushCompleteAgain : Work δ :=
  if s.type = .arbitrary then if s.masterBuffer.isEmpty then .flushClients else .done
  else if s.state = .noMoreBuffers then .flushClients
  else .done

def endFlush : Option ℕ → OutputBuffer δ
  | none => s
  | some flush => { s with flushes := s.flushes.set flush false }

/-- The test whether every client of the snapshot is destroyed. -/
def flushClient (flush : ℕ) : List ℕ → OutputBuffer δ × Work δ
  | [] => (s, .destroy (some flush))
  | id :: ids =>
      match s.buffers.get id with
      | none => ((s.endFlush (some flush)).addThrown .indexOutOfBounds, .done)
      | some client =>
          if client.traced.buffer.destroyed then (s, .flushClient flush ids)
          else (s.endFlush (some flush), .done)

/-- Moves to the finished state, unless the state is terminal. -/
def destroy (flush : Option ℕ) : OutputBuffer δ × Work δ :=
  if s.state.isTerminal then (s.endFlush flush, .done)
  else
    ((s.endFlush flush).setState .finished,
      match s.type with
      | .partitioned | .discarding => .destroyClients
      | .broadcast => .noMoreBuffers .destroyClients
      | .arbitrary => .noMoreBuffers .destroyMaster)

def destroyMaster : OutputBuffer δ × Work δ :=
  { s with masterBuffer := [] }.lend s.masterBuffer .destroyClients

def destroyClient : List ℕ → OutputBuffer δ × Work δ
  | [] => ({ s with pageTracker := s.pageTracker.close }, .done)
  | id :: ids => (s, .inClient id .destroyLocked (.destroyClient ids))

def fail : OutputBuffer δ :=
  if s.state.isTerminal then s
  else { s.setState .failed with pageTracker := s.pageTracker.close }

/-- The snapshot of the clients waits for the lock of the buffer. -/
def snapshot (order : List ℕ) (waiting : Work δ) (next : List ℕ → Work δ) :
    OutputBuffer δ × Work δ :=
  if s.locked && decide (s.type ≠ .partitioned) then (s, waiting)
  else (s, next (s.safeGetBuffersSnapshot order))

/-- One step of a thread; `order` is the order in which a snapshot lists the clients. -/
def step (order : List ℕ) : Work δ → OutputBuffer δ × Work δ
  | .done => (s, .done)
  | .throw e => (s.addThrown e, .done)
  | .registerLifespanCompletionCallback =>
      if s.pageTracker.lifespanCompletionCallback then
        (s.addThrown (.illegalState "lifespanCompletionCallback is already set"), .done)
      else
        ({ s with pageTracker := { s.pageTracker with lifespanCompletionCallback := true } },
          .done)
  | .setNoMorePagesForLifespan lifespan =>
      ({ s with pageTracker := { s.pageTracker with
          noMorePagesForLifespan := lifespan :: s.pageTracker.noMorePagesForLifespan } }, .done)
  | .enqueue lifespan partition pages => s.enqueue lifespan partition pages
  | .enqueueTested call lifespan partition pages => s.enqueueTested call lifespan partition pages
  | .rememberPages call references =>
      if s.locked then (s, .rememberPages call references)
      else s.rememberPages call references order
  | .deliver call references ids => s.deliver call references ids
  | .addToMaster call references => s.addToMaster call references
  | .pollClients => s.snapshot order .pollClients .pollFrom
  | .pollFrom ids =>
      if ids.isEmpty then (s, .done)
      else (s, .poll ids (s.nextClientBufferIndex % ids.length) ids.length)
  | .poll ids index remaining => s.poll ids index remaining
  | .dereference loan pages next =>
      ({ s with
          loans := s.loans.set loan []
          pageTracker := s.pageTracker.dereferencePages pages }, next)
  | .getBuffer held id activity next => s.getBuffer held id activity next
  | .newBuffer held id activity next => s.newBuffer held id activity next
  | .inClient id a next => s.inClient id a next
  | .loadClient id a next => s.loadClient id a next
  | .setNoMorePages => (s.setState (s.state.compareAndSet .open .noMorePages), .setNoMorePagesAgain)
  | .setNoMorePagesAgain =>
      (s.setState (s.state.compareAndSet .noMoreBuffers .flushing),
        if s.type = .arbitrary then .masterNoMorePages else .endClients)
  | .masterNoMorePages => ({ s with masterNoMorePages := true }, .endClients)
  | .endClients => s.snapshot order .endClients .endClient
  | .endClient ids => s.endClient ids
  | .setOutputBuffers newOutputBuffers => s.setOutputBuffers newOutputBuffers
  | .addBuffers canAddPages ids => s.addBuffers canAddPages ids
  | .noMoreBuffersOpen =>
      (s.setState (s.state.compareAndSet .open .noMoreBuffers), .noMoreBuffersNoMorePages)
  | .noMoreBuffersNoMorePages =>
      ({ s.setState (s.state.compareAndSet .noMorePages .flushing) with locked := false },
        .buffersSet)
  | .buffersSet =>
      (s, if s.state.canAddBuffers then .checkFlushComplete else .noMoreBuffers .checkFlushComplete)
  | .noMoreBuffers next => s.noMoreBuffers next
  | .checkFlushComplete => (s, s.checkFlushComplete)
  | .checkFlushCompleteAgain => (s, s.checkFlushCompleteAgain)
  | .flushClients =>
      if s.locked && decide (s.type ≠ .partitioned) then (s, .flushClients)
      else
        ({ s with flushes := s.flushes ++ [true] },
          .flushClient s.flushes.length (s.safeGetBuffersSnapshot order))
  | .flushClient flush ids => s.flushClient flush ids
  | .destroy flush => s.destroy flush
  | .destroyMaster => s.destroyMaster
  | .destroyClients => s.snapshot order .destroyClients .destroyClient
  | .destroyClient ids => s.destroyClient ids
  | .fail => (s.fail, .done)

end OutputBuffer

/-! ## Operations -/

/-- The operations of an output buffer. -/
inductive BufferOperation (δ : Type*)
  | registerLifespanCompletionCallback
  | enqueue (lifespan : Lifespan) (partition : ℕ) (pages : List (SerializedPage δ))
  | get (bufferId : ℕ) (startingSequenceId : ℤ) (maxSize : ℕ)
  | acknowledge (bufferId : ℕ) (sequenceId : ℤ)
  | abort (bufferId : ℕ)
  | setOutputBuffers (newOutputBuffers : OutputBuffers)
  | setNoMorePages
  | setNoMorePagesForLifespan (lifespan : Lifespan)
  | destroy
  | fail

/-- The first step of an operation on a buffer of the given type. -/
def BufferOperation.start (type : BufferType) : BufferOperation δ → Work δ
  | .registerLifespanCompletionCallback => .registerLifespanCompletionCallback
  | .enqueue lifespan partition pages =>
      if type ≠ .partitioned ∧ partition ≠ 0 then
        .throw (.illegalState "Expected partition number to be zero")
      else .enqueue lifespan partition pages
  | .get bufferId startingSequenceId maxSize =>
      if maxSize = 0 then .throw (.illegalArgument "maxSize must be at least 1 byte")
      else
        .getBuffer false bufferId
          (some (.acknowledgePages startingSequenceId
            (some ⟨maxSize, decide (type = .arbitrary)⟩))) .done
  | .acknowledge bufferId sequenceId =>
      .getBuffer false bufferId (some (.acknowledgePages sequenceId none)) .done
  | .abort bufferId => .getBuffer false bufferId (some .destroyLocked) .checkFlushComplete
  | .setOutputBuffers newOutputBuffers => .setOutputBuffers newOutputBuffers
  | .setNoMorePages => .setNoMorePages
  | .setNoMorePagesForLifespan lifespan => .setNoMorePagesForLifespan lifespan
  | .destroy => .destroy none
  | .fail => .fail

/-- The thread has something left to do. -/
def Work.running : Work δ → Option (Work δ)
  | .done => none
  | w => some w

/-- The threads of an output buffer. -/
def bufferMachine :
    Interleaving.Machine (OutputBuffer δ) (BufferOperation δ) (Work δ) (List ℕ) where
  start s operation := operation.start s.type
  act w order s := ((s.step order w).1, (s.step order w).2.running)

end Presto.Execution.Buffer
