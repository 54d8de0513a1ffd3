import Presto.Execution.Buffer.ClientBuffer

/-!
# The consumer of one client buffer

A `PageBufferClient` fetches the pages of one remote client buffer: it requests the
results from its token on, adopts the token that follows them, and deletes the buffer
once it was told that the buffer is complete.  A `Consumer` is the client with its
requests in flight, the callbacks of those that were answered, and what it has sent and
received.  Each definition below is one section between two lock operations of the
class, or the answer to a request.
-/

namespace Presto.Operator

open Presto.Execution.Buffer

variable {δ : Type*}

/-- The future of a request, numbered in the order of the requests. -/
inductive RequestFuture
  | get (request : ℕ)
  | delete (request : ℕ)
  deriving DecidableEq, Repr

/-- The fields of the client. -/
structure PageBufferClient where
  acknowledgePages : Bool
  closed : Bool
  future : Option RequestFuture
  token : ℤ
  scheduled : Bool
  completed : Bool
  taskInstanceId : Option String
  deriving DecidableEq, Repr

/-- What is left of the callback of an answered request for results. -/
inductive Callback (δ : Type*)
  | onSuccess (request : ℕ) (result : BufferResult δ)
  | acknowledge (request : ℕ) (result : BufferResult δ) (pages : List (SerializedPage δ))
      (shouldAcknowledge : Bool)
  | addPages (request : ℕ) (result : BufferResult δ) (pages : List (SerializedPage δ))
  | finish (request : ℕ) (result : BufferResult δ)

namespace Callback

def request : Callback δ → ℕ
  | .onSuccess request _ | .acknowledge request _ _ _ | .addPages request _ _
  | .finish request _ => request

def result : Callback δ → BufferResult δ
  | .onSuccess _ result | .acknowledge _ result _ _ | .addPages _ result _
  | .finish _ result => result

/-- The pages that a callback has adopted and not yet passed on. -/
def adopted : Callback δ → List (SerializedPage δ)
  | .acknowledge _ _ pages _ | .addPages _ _ pages => pages
  | .onSuccess _ _ | .finish _ _ => []

end Callback

/-- A client and its side of the network. -/
structure Consumer (δ : Type*) where
  client : PageBufferClient
  /-- How many requests were sent. -/
  issued : ℕ
  /-- The request for results that has no answer yet. -/
  outstanding : Option ℕ
  /-- The deletes that have no answer yet. -/
  deletes : List ℕ
  callbacks : List (Callback δ)
  /-- The requests for results whose failure is not handled yet. -/
  failures : List ℕ
  /-- The tokens and sizes of all requests for results. -/
  requests : List (ℤ × ℕ)
  acknowledgements : List ℤ
  deleteSent : Bool
  /-- The pages passed to `addPages`, in order. -/
  received : List (SerializedPage δ)

namespace Consumer

def create (acknowledgePages : Bool) : Consumer δ where
  client := ⟨acknowledgePages, false, none, 0, false, false, none⟩
  issued := 0
  outstanding := none
  deletes := []
  callbacks := []
  failures := []
  requests := []
  acknowledgements := []
  deleteSent := false
  received := []

variable (c : Consumer δ)

def scheduleRequest : Consumer δ :=
  if c.client.closed || c.client.future.isSome || c.client.scheduled then c
  else { c with client := { c.client with scheduled := true } }

def sendGetResults (maxResponseSize : ℕ) : Consumer δ :=
  { c with
    client := { c.client with future := some (.get c.issued) }
    issued := c.issued + 1
    outstanding := some c.issued
    requests := c.requests ++ [(c.client.token, maxResponseSize)] }

def sendDelete : Consumer δ :=
  { c with
    client := { c.client with future := some (.delete c.issued) }
    issued := c.issued + 1
    deletes := c.deletes ++ [c.issued]
    deleteSent := true }

def initiateRequest (maxResponseSize : ℕ) : Consumer δ :=
  let c := { c with client := { c.client with scheduled := false } }
  if c.client.closed || c.client.future.isSome then c
  else if c.client.completed then c.sendDelete
  else c.sendGetResults maxResponseSize

/-- The future of a request is forgotten if it is still the current one. -/
def forget (future : RequestFuture) : Consumer δ :=
  { c with
    client := { c.client with
      future := if c.client.future = some future then none else c.client.future } }

/-- The outstanding request for results is answered. -/
def getSucceeded (result : BufferResult δ) : Consumer δ :=
  match c.outstanding with
  | none => c
  | some request =>
      { c with outstanding := none, callbacks := c.callbacks ++ [.onSuccess request result] }

/-- The outstanding request for results fails or is cancelled. -/
def getFailed : Consumer δ :=
  match c.outstanding with
  | none => c
  | some request => { c with outstanding := none, failures := c.failures ++ [request] }

def handleFailure (request : ℕ) : Consumer δ :=
  if request ∈ c.failures then
    { c with failures := c.failures.erase request }.forget (.get request)
  else c

/-- The callback of an answered delete. -/
def deleteSucceeded (request : ℕ) : Consumer δ :=
  if request ∈ c.deletes then
    { c with
      client := { c.client with closed := true }
      deletes := c.deletes.erase request }.forget (.delete request)
  else c

/-- The callback of a delete that failed or was cancelled. -/
def deleteFailed (request : ℕ) : Consumer δ :=
  if request ∈ c.deletes then
    { c with deletes := c.deletes.erase request }.forget (.delete request)
  else c

/-- The next section of a callback.  `accepted` says that `addPages` returns rather than
throws. -/
def runCallback (accepted : Bool) : Callback δ → Consumer δ × Option (Callback δ)
  | .onSuccess request result =>
      let taskInstanceId := c.client.taskInstanceId.getD result.taskInstanceId
      let c := { c with client := { c.client with taskInstanceId := some taskInstanceId } }
      if taskInstanceId ≠ "" ∧ result.taskInstanceId ≠ taskInstanceId then
        ({ c with failures := c.failures ++ [request] }, none)
      else if result.token = c.client.token then
        ({ c with client := { c.client with token := result.nextToken } },
          some (.acknowledge request result result.serializedPages
            (!result.serializedPages.isEmpty)))
      else (c, some (.acknowledge request result [] false))
  | .acknowledge request result pages shouldAcknowledge =>
      (if shouldAcknowledge && c.client.acknowledgePages then
          { c with acknowledgements := c.acknowledgements ++ [result.nextToken] }
        else c,
        some (.addPages request result pages))
  | .addPages request result pages =>
      let c := { c with received := c.received ++ pages }
      if accepted then (c, some (.finish request result))
      else ({ c with failures := c.failures ++ [request] }, none)
  | .finish request result =>
      ({ c with
          client := { c.client with
            completed := c.client.completed || result.bufferComplete } }.forget (.get request),
        none)

/-- Runs the next section of the callback at `index`. -/
def advanceCallback (accepted : Bool) (index : ℕ) : Consumer δ :=
  match c.callbacks[index]? with
  | none => c
  | some callback =>
      let next := c.runCallback accepted callback
      { next.1 with
        callbacks :=
          match next.2 with
          | none => c.callbacks.eraseIdx index
          | some callback => c.callbacks.set index callback }

/-- The block of `close`: returns the future to cancel and whether to send a delete. -/
def closeLocked : Consumer δ × Option RequestFuture × Bool :=
  ({ c with client := { c.client with closed := true, future := none } },
    c.client.future, !c.client.closed)

/-- Cancels a future that is not done. -/
def cancel : Option RequestFuture → Consumer δ
  | none => c
  | some (.get request) => if c.outstanding = some request then c.getFailed else c
  | some (.delete request) => c.deleteFailed request

end Consumer
end Presto.Operator
