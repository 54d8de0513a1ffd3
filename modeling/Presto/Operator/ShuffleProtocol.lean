import Presto.Execution.Buffer.ClientBufferSections
import Presto.Operator.PageBufferClient
import Presto.Support.Interleaving

/-!
# The shuffle protocol

One client buffer and the client that fetches from it, over a network that may delay,
lose, duplicate or re-issue requests and lose responses: every request that was ever sent
may reach the buffer at any time and any number of times, the outstanding request may be
answered with any result that the buffer ever returned or time out empty, and it may fail.
The task adds pages and declares their end at any time; the buffer is destroyed only by a
delete of its own client.
-/

namespace Presto.Operator

open Consumer Interleaving List Callback Option

open Presto.Execution.Buffer

variable {δ : Type*}

/-- Both ends of the protocol. -/
structure Shuffle (δ : Type*) where
  producer : Traced δ
  consumer : Consumer δ

/-- The sections of the client. -/
inductive ClientSection (δ : Type*)
  | scheduleRequest
  | initiateRequest (maxResponseSize : ℕ)
  | getSucceeded (result : BufferResult δ)
  | getFailed
  | advanceCallback (index : ℕ)
  | handleFailure (request : ℕ)
  | deleteSucceeded (request : ℕ)
  | deleteFailed (request : ℕ)
  | closeLocked
  | cancel (future : Option RequestFuture) (shouldSendDelete : Bool)
  | sendDelete

/-- One section of the client and what its thread does next. -/
def ClientSection.run (accepted : Bool) (c : Consumer δ) :
    ClientSection δ → Consumer δ × Option (ClientSection δ)
  | .scheduleRequest => (c.scheduleRequest, none)
  | .initiateRequest maxResponseSize => (c.initiateRequest maxResponseSize, none)
  | .getSucceeded result => (c.getSucceeded result, none)
  | .getFailed => (c.getFailed, none)
  | .advanceCallback index => (c.advanceCallback accepted index, none)
  | .handleFailure request => (c.handleFailure request, none)
  | .deleteSucceeded request => (c.deleteSucceeded request, none)
  | .deleteFailed request => (c.deleteFailed request, none)
  | .closeLocked => (c.closeLocked.1, some (.cancel c.closeLocked.2.1 c.closeLocked.2.2))
  | .cancel future shouldSendDelete =>
      (c.cancel future, if shouldSendDelete then some .sendDelete else none)
  | .sendDelete => (c.sendDelete, none)

/-- What happens at either end. -/
inductive ShuffleOperation (δ : Type*)
  | enqueuePages (pages : List (SerializedPageReference δ))
  | setNoMorePages
  | receiveGet (token : ℤ) (maxSize : ℕ)
  | receiveAcknowledge (token : ℤ)
  | receiveDelete
  | client (clientSection : ClientSection δ)

/-- The next section of a thread at either end. -/
inductive ShuffleActivity (δ : Type*)
  | producer (activity : Activity δ)
  | client (clientSection : ClientSection δ)

def ShuffleOperation.start : ShuffleOperation δ → ShuffleActivity δ
  | .enqueuePages pages => .producer (Operation.start (.enqueuePages pages))
  | .setNoMorePages => .producer (Operation.start .setNoMorePages)
  | .receiveGet token maxSize => .producer (Operation.start (.getPages token maxSize false))
  | .receiveAcknowledge token => .producer (Operation.start (.acknowledgePages token))
  | .receiveDelete => .producer (Operation.start .destroy)
  | .client clientSection => .client clientSection

/-- The protocol.  The input says whether `addPages` returns rather than throws; the buffer
has no pages supplier. -/
def shuffleMachine :
    Machine (Shuffle δ) (ShuffleOperation δ) (ShuffleActivity δ) Bool where
  start _ operation := operation.start
  act activity accepted s :=
    match activity with
    | .producer a =>
        ({ s with producer := (act a ⟨[], true⟩ s.producer).1 },
          (act a ⟨[], true⟩ s.producer).2.map .producer)
    | .client clientSection =>
        ({ s with consumer := (clientSection.run accepted s.consumer).1 },
          (clientSection.run accepted s.consumer).2.map .client)

/-- What the network and the scheduler of the client can do. -/
def ShuffleOperation.Possible (s : Shuffle δ) : ShuffleOperation δ → Prop
  | .enqueuePages _ | .setNoMorePages => True
  | .receiveGet token maxSize => (token, maxSize) ∈ s.consumer.requests
  | .receiveAcknowledge token => token ∈ s.consumer.acknowledgements
  | .receiveDelete => s.consumer.deleteSent = true
  | .client (.getSucceeded result) =>
      result ∈ s.producer.returned ∨
        ∃ request ∈ s.consumer.requests,
          result = .emptyResults s.producer.buffer.taskInstanceId request.1 false
  | .client (.initiateRequest _) => s.consumer.client.scheduled = true
  | .client (.cancel _ _) | .client .sendDelete => False
  | .client _ => True

instance decidablePossible [DecidableEq δ] (s : Shuffle δ) :
    (operation : ShuffleOperation δ) → Decidable (operation.Possible s)
  | .enqueuePages _ | .setNoMorePages => inferInstanceAs (Decidable True)
  | .receiveGet token maxSize =>
      inferInstanceAs (Decidable ((token, maxSize) ∈ s.consumer.requests))
  | .receiveAcknowledge token =>
      inferInstanceAs (Decidable (token ∈ s.consumer.acknowledgements))
  | .receiveDelete => inferInstanceAs (Decidable (s.consumer.deleteSent = true))
  | .client (.getSucceeded result) =>
      inferInstanceAs (Decidable (result ∈ s.producer.returned ∨
        ∃ request ∈ s.consumer.requests,
          result = .emptyResults s.producer.buffer.taskInstanceId request.1 false))
  | .client (.initiateRequest _) =>
      inferInstanceAs (Decidable (s.consumer.client.scheduled = true))
  | .client (.cancel _ _) | .client .sendDelete => inferInstanceAs (Decidable False)
  | .client .scheduleRequest | .client .getFailed | .client (.advanceCallback _)
  | .client (.handleFailure _) | .client (.deleteSucceeded _) | .client (.deleteFailed _)
  | .client .closeLocked => inferInstanceAs (Decidable True)

def NetworkAllows (c : Config (Shuffle δ) (ShuffleActivity δ)) :
    Label (ShuffleOperation δ) Bool → Prop
  | .invoke _ operation => operation.Possible c.shared
  | .advance _ _ => True

instance decidableNetworkAllows [DecidableEq δ]
    (c : Config (Shuffle δ) (ShuffleActivity δ)) :
    (l : Label (ShuffleOperation δ) Bool) → Decidable (NetworkAllows c l)
  | .invoke _ operation => inferInstanceAs (Decidable (operation.Possible c.shared))
  | .advance _ _ => inferInstanceAs (Decidable True)

/-- The configurations that a new buffer and a new client can get into. -/
def ShuffleReaches (taskInstanceId : String) (acknowledgePages : Bool) :
    Config (Shuffle δ) (ShuffleActivity δ) → Prop :=
  Reaches shuffleMachine NetworkAllows
    (.idle ⟨.create taskInstanceId, .create acknowledgePages⟩)

/-! ## The life of a request -/

namespace Consumer

/-- The requests for results that are unanswered or whose callback is running. -/
def live (c : Consumer δ) : List ℕ := c.outstanding.toList ++ c.callbacks.map Callback.request

/-- At most one request for results is live, and while the client is open it is the
current one.  A delete is sent only when none is outstanding, and completion leaves
none live. -/
structure Orderly (c : Consumer δ) : Prop where
  single : c.live.length ≤ 1
  live : ∀ request ∈ c.live, request < c.issued ∧
    (c.client.closed = true ∨ c.client.future = some (.get request))
  failures : ∀ request ∈ c.failures, request < c.issued ∧ request ∉ c.live
  deleted : c.deleteSent = true →
    c.outstanding = none ∧ (c.client.completed = true ∨ c.client.closed = true)
  completed : c.client.completed = true → c.live = []

end Consumer

/-- What holds between the sections of `close`. -/
def ClientSection.Orderly (c : Consumer δ) : ClientSection δ → Prop
  | .cancel future shouldSendDelete =>
      c.client.closed = true ∧ (shouldSendDelete = true →
        ∀ request, c.outstanding = some request → future = some (.get request))
  | .sendDelete => c.client.closed = true ∧ c.outstanding = none
  | _ => True

namespace Consumer

variable {c : Consumer δ}

theorem Orderly.outstanding_of_live_nil (h : c.live = []) :
    c.outstanding = none ∧ c.callbacks = [] := by
  simpa [Consumer.live] using h

theorem Orderly.of_live_nil
    (hlive : c.live = []) (hfailures : ∀ request ∈ c.failures, request < c.issued)
    (hdeleted : c.deleteSent = true → c.client.completed = true ∨ c.client.closed = true) :
    c.Orderly := by
  have hnot : ∀ request, request ∉ c.live := by simp [hlive]
  exact ⟨by simp [hlive], fun request h => absurd h (hnot request),
    fun request h => ⟨hfailures request h, hnot request⟩,
    fun h => ⟨(outstanding_of_live_nil hlive).1, hdeleted h⟩, fun _ => hlive⟩

theorem create_orderly (acknowledgePages : Bool) : (create acknowledgePages : Consumer δ).Orderly :=
  .of_live_nil rfl nofun nofun

variable (hc : c.Orderly)

include hc

/-- An outstanding request is the only live one. -/
theorem Orderly.callbacks_of_outstanding
    {request : ℕ} (h : c.outstanding = some request) : c.callbacks = [] := by
  have hsingle := hc.single
  simp only [Consumer.live, h, toList_some, cons_append, nil_append,
    length_cons, length_map] at hsingle
  exact length_eq_zero_iff.mp (by omega)

variable {callback : Callback δ}

/-- A running callback is the only live one. -/
theorem Orderly.callback_single {index : ℕ} (h : c.callbacks[index]? = some callback) :
    index = 0 ∧ c.callbacks = [callback] ∧ c.outstanding = none := by
  have hsingle := hc.single
  obtain ⟨hlt, hget⟩ := List.getElem?_eq_some_iff.mp h
  simp only [Consumer.live, length_append, length_map] at hsingle
  have hlength : c.callbacks.length = 1 := by omega
  have hzero : c.outstanding.toList.length = 0 := by omega
  have hindex : index = 0 := by omega
  subst hindex
  obtain ⟨b, hb⟩ := length_eq_one_iff.mp hlength
  refine ⟨rfl, ?_, ?_⟩
  · rw [hb] at h ⊢
    simpa using h
  · simpa using length_eq_zero_iff.mp hzero

/-- While the client is open and has no current request, none is live. -/
theorem Orderly.live_of_idle (hopen : c.client.closed = false) (hidle : c.client.future = none) :
    c.live = [] := by
  apply eq_nil_iff_forall_not_mem.mpr
  intro request hmem
  rcases (hc.live request hmem).2 with h | h
  · rw [hopen] at h
    cases h
  · rw [hidle] at h
    cases h

theorem scheduleRequest_orderly : c.scheduleRequest.Orderly := by
  unfold scheduleRequest
  split_ifs
  · exact hc
  · exact { hc with }

/-- A delete is in order once no request is outstanding. -/
theorem sendDelete_orderly (hnone : c.outstanding = none)
    (hend : c.client.completed = true ∨ c.client.closed = true) : c.sendDelete.Orderly := by
  refine ⟨hc.single, ?_, ?_, fun _ => ⟨hnone, hend⟩, hc.completed⟩
  · intro request hmem
    refine ⟨Nat.lt_succ_of_lt (hc.live request hmem).1, ?_⟩
    rcases hend with hcompleted | hclosed
    · rw [show c.sendDelete.live = c.live from rfl, hc.completed hcompleted] at hmem
      cases hmem
    · exact Or.inl hclosed
  · intro request hmem
    exact ⟨Nat.lt_succ_of_lt (hc.failures request hmem).1, (hc.failures request hmem).2⟩

theorem initiateRequest_orderly (maxResponseSize : ℕ) :
    (c.initiateRequest maxResponseSize).Orderly := by
  have hscheduled : Orderly { c with client := { c.client with scheduled := false } } :=
    { hc with }
  simp only [initiateRequest]
  split_ifs with hbusy hcompleted
  · exact hscheduled
  · have hlive := hscheduled.completed hcompleted
    exact sendDelete_orderly hscheduled (Orderly.outstanding_of_live_nil hlive).1
      (Or.inl hcompleted)
  · simp only [Bool.or_eq_true, isSome_iff_ne_none, not_or, Bool.not_eq_true,
      not_not] at hbusy
    have hlive := hscheduled.live_of_idle hbusy.1 hbusy.2
    have hcallbacks : c.callbacks = [] := (Orderly.outstanding_of_live_nil hlive).2
    have hnew : ∀ request, request ∈ (sendGetResults
        { c with client := { c.client with scheduled := false } } maxResponseSize).live →
          request = c.issued := by
      intro request hmem
      simpa [live, sendGetResults, hcallbacks] using hmem
    refine ⟨?_, ?_, ?_, ?_, ?_⟩
    · simp [live, sendGetResults, hcallbacks]
    · intro request hmem
      rw [hnew request hmem]
      exact ⟨Nat.lt_succ_self _, Or.inr rfl⟩
    · intro request hmem
      have hlt := (hc.failures request hmem).1
      refine ⟨Nat.lt_succ_of_lt hlt, ?_⟩
      intro hmem'
      exact absurd (hnew request hmem') (by omega)
    · intro hsent
      rcases (hc.deleted hsent).2 with h | h
      · exact absurd h hcompleted
      · rw [show c.client.closed = false from hbusy.1] at h
        cases h
    · intro h
      exact absurd h hcompleted

/-- Forgetting a future that is not that of a live request is in order. -/
theorem forget_orderly {future : RequestFuture}
    (hnot : ∀ request ∈ c.live, future ≠ .get request) : (c.forget future).Orderly := by
  refine { hc with live := ?_ }
  intro request hmem
  refine ⟨(hc.live request hmem).1, ?_⟩
  rcases (hc.live request hmem).2 with hclosed | hfuture
  · exact Or.inl hclosed
  · right
    have hne : ¬c.client.future = some future := by
      rw [hfuture, some.injEq]
      exact fun h => hnot request hmem h.symm
    simp only [forget, if_neg hne]
    exact hfuture

theorem getSucceeded_live (result : BufferResult δ) : (c.getSucceeded result).live = c.live := by
  cases hout : c.outstanding with
  | none => simp [getSucceeded, hout]
  | some request =>
      simp [getSucceeded, hout, live, hc.callbacks_of_outstanding hout, Callback.request]

theorem getSucceeded_orderly (result : BufferResult δ) : (c.getSucceeded result).Orderly := by
  have hlive := getSucceeded_live hc result
  cases hout : c.outstanding with
  | none =>
      simp only [getSucceeded, hout]
      exact hc
  | some request =>
      simp only [getSucceeded, hout] at hlive ⊢
      refine ⟨hlive ▸ hc.single, ?_, ?_, ?_, ?_⟩
      · rw [hlive]
        exact hc.live
      · rw [hlive]
        exact hc.failures
      · exact fun h => ⟨rfl, (hc.deleted h).2⟩
      · rw [hlive]
        exact hc.completed

theorem getFailed_orderly : c.getFailed.Orderly := by
  cases hout : c.outstanding with
  | none =>
      simp only [getFailed, hout]
      exact hc
  | some request =>
      have hcallbacks := hc.callbacks_of_outstanding hout
      have hmem : request ∈ c.live := by simp [live, hout]
      simp only [getFailed, hout]
      refine .of_live_nil (by simp [live, hcallbacks]) ?_ fun h => (hc.deleted h).2
      intro other h
      rcases mem_append.mp h with hold | hnew
      · exact (hc.failures other hold).1
      · rw [mem_singleton.mp hnew]
        exact (hc.live request hmem).1

theorem handleFailure_orderly (request : ℕ) : (c.handleFailure request).Orderly := by
  unfold handleFailure
  split_ifs with hmem
  · refine forget_orderly ?_ ?_
    · refine { hc with failures := ?_ }
      intro other h
      exact hc.failures other (mem_of_mem_erase h)
    · intro other hlive h
      rw [RequestFuture.get.injEq] at h
      subst h
      exact (hc.failures request hmem).2 hlive
  · exact hc

theorem deleteSucceeded_orderly (request : ℕ) : (c.deleteSucceeded request).Orderly := by
  unfold deleteSucceeded
  split_ifs
  · refine forget_orderly ?_ ?_
    · refine ⟨hc.single, ?_, hc.failures, ?_, hc.completed⟩
      · exact fun other h => ⟨(hc.live other h).1, Or.inl rfl⟩
      · exact fun h => ⟨(hc.deleted h).1, Or.inr rfl⟩
    · intro other _ h
      cases h
  · exact hc

theorem deleteFailed_orderly (request : ℕ) : (c.deleteFailed request).Orderly := by
  unfold deleteFailed
  split_ifs
  · refine forget_orderly ?_ ?_
    · exact { hc with }
    · intro other _ h
      cases h
  · exact hc

theorem closeLocked_orderly : c.closeLocked.1.Orderly := by
  refine ⟨hc.single, ?_, hc.failures, ?_, hc.completed⟩
  · exact fun request h => ⟨(hc.live request h).1, Or.inl rfl⟩
  · exact fun h => ⟨(hc.deleted h).1, Or.inr rfl⟩

theorem cancel_orderly (future : Option RequestFuture) : (c.cancel future).Orderly := by
  rcases future with - | ⟨request⟩ | ⟨request⟩
  · exact hc
  · simp only [cancel]
    split_ifs
    · exact getFailed_orderly hc
    · exact hc
  · exact deleteFailed_orderly hc request

omit hc

section RunCallback

variable {c' : Consumer δ} {accepted : Bool} {callback next : Callback δ}
    {after : Option (Callback δ)}

/-- The callback that is running, once its section is done. -/
theorem advanceCallback_single
    (h : c.runCallback accepted callback = (c', after)) (hcallbacks : c.callbacks = [callback]) :
    c.advanceCallback accepted 0 = { c' with callbacks := after.toList } := by
  cases after <;> simp [advanceCallback, hcallbacks, h]

/-- What the sections of a callback leave alone. -/
theorem runCallback_frame (h : c.runCallback accepted callback = (c', after)) :
    c'.outstanding = c.outstanding ∧ c'.issued = c.issued ∧ c'.deleteSent = c.deleteSent ∧
      c'.requests = c.requests ∧ c'.client.closed = c.client.closed := by
  cases callback with
  | finish request result =>
      cases h
      exact ⟨rfl, rfl, rfl, rfl, rfl⟩
  | _ =>
      simp only [runCallback] at h
      split_ifs at h <;> cases h <;> exact ⟨rfl, rfl, rfl, rfl, rfl⟩

/-- A callback that goes on keeps its request, the current future and the flags. -/
theorem runCallback_some (h : c.runCallback accepted callback = (c', some next)) :
    next.request = callback.request ∧ next.result = callback.result ∧
      c'.client.future = c.client.future ∧ c'.client.completed = c.client.completed ∧
      c'.failures = c.failures := by
  cases callback with
  | finish request result => cases h
  | _ =>
      simp only [runCallback] at h
      split_ifs at h <;> cases h <;> exact ⟨rfl, rfl, rfl, rfl, rfl⟩

/-- A callback ends by failing its request or by forgetting its future. -/
theorem runCallback_none (h : c.runCallback accepted callback = (c', none)) :
    c'.failures = c.failures ++ [callback.request] ∧ c'.client.future = c.client.future ∧
        c'.client.completed = c.client.completed ∨
      c'.failures = c.failures ∧
        c'.client.completed = (c.client.completed || callback.result.bufferComplete) := by
  cases callback with
  | finish request result =>
      cases h
      exact Or.inr ⟨rfl, rfl⟩
  | _ =>
      simp only [runCallback] at h
      split_ifs at h <;> cases h <;> exact Or.inl ⟨rfl, rfl, rfl⟩

end RunCallback

theorem advanceCallback_orderly (hc : c.Orderly) (accepted : Bool) (index : ℕ) :
    (c.advanceCallback accepted index).Orderly := by
  cases hcallback : c.callbacks[index]? with
  | none =>
      simp only [advanceCallback, hcallback]
      exact hc
  | some callback =>
      obtain ⟨rfl, hcallbacks, hout⟩ := hc.callback_single hcallback
      obtain ⟨c', after, hrun⟩ : ∃ c' after, c.runCallback accepted callback = (c', after) :=
        ⟨_, _, rfl⟩
      obtain ⟨hout', hissued, hsent, -, hclosed⟩ := runCallback_frame hrun
      have hlive : c.live = [callback.request] := by
        simp [live, hcallbacks, hout]
      cases after with
      | some next =>
          obtain ⟨hrequest, -, hfuture, hcompleted, hfailures⟩ := runCallback_some hrun
          rw [advanceCallback_single hrun hcallbacks, toList_some]
          have hlive' : live { c' with callbacks := [next] } = c.live := by
            simp [live, hout', hcallbacks, hrequest]
          refine ⟨?_, ?_, ?_, ?_, ?_⟩
          · rw [hlive']
            exact hc.single
          · rw [hlive']
            simp only [hissued, hclosed, hfuture]
            exact hc.live
          · rw [hlive']
            simp only [hissued, hfailures]
            exact hc.failures
          · simp only [hsent, hout', hcompleted, hclosed]
            exact hc.deleted
          · rw [hlive']
            simp only [hcompleted]
            exact hc.completed
      | none =>
          rw [advanceCallback_single hrun hcallbacks]
          have hrequest := (hc.live callback.request (by simp [hlive])).1
          refine .of_live_nil (by simp [live, hout', hout]) ?_ ?_
          · intro request hmem
            simp only [hissued]
            rcases runCallback_none hrun with ⟨hfailures, -⟩ | ⟨hfailures, -⟩
            · simp only [hfailures, mem_append, mem_singleton] at hmem
              rcases hmem with hold | rfl
              · exact (hc.failures request hold).1
              · exact hrequest
            · simp only [hfailures] at hmem
              exact (hc.failures request hmem).1
          · simp only [hsent, hclosed]
            intro h
            rcases (hc.deleted h).2 with hcompleted | hclosed
            · rw [hc.completed hcompleted] at hlive
              cases hlive
            · exact Or.inr hclosed

end Consumer

/-! ## Sections of the client -/

namespace Shuffle

/-- What most sections of the client leave alone. -/
structure Frame (c c' : Consumer δ) : Prop where
  token : c'.client.token = c.client.token
  completed : c'.client.completed = c.client.completed
  received : c'.received = c.received
  callbacks : c'.callbacks = c.callbacks
  acknowledgements : c'.acknowledgements = c.acknowledgements
  requests : ∀ request ∈ c'.requests, request ∈ c.requests ∨ request.1 = c.client.token
  deleteSent : c.deleteSent = true → c'.deleteSent = true

end Shuffle

namespace ClientSection

variable {c c' : Consumer δ}

/-- Once closed, a client stays closed and sends no new request for results. -/
def KeepsClosed (c c' : Consumer δ) : Prop :=
  c.client.closed = true → c'.client.closed = true ∧
    ∀ request, c'.outstanding = some request → c.outstanding = some request

/-- What a section does that neither starts nor runs a callback. -/
structure Kept (c c' : Consumer δ) : Prop extends Shuffle.Frame c c' where
  sent : ∀ request ∈ c.requests, request ∈ c'.requests
  closed : KeepsClosed c c'

/-- The fields of the client that most sections do not touch. -/
abbrev untouched (c : Consumer δ) :=
  (c.client.token, c.client.completed, c.received, c.callbacks, c.acknowledgements, c.requests)

theorem Kept.of_untouched
    (h : untouched c' = untouched c) (hdelete : c.deleteSent = true → c'.deleteSent = true)
    (hclosed : KeepsClosed c c') : Kept c c' := by
  simp only [Prod.mk.injEq] at h
  obtain ⟨htoken, hcompleted, hreceived, hcallbacks, hacknowledgements, hrequests⟩ := h
  exact ⟨⟨htoken, hcompleted, hreceived, hcallbacks, hacknowledgements,
    fun _ h => Or.inl (hrequests ▸ h), hdelete⟩, fun _ h => hrequests.symm ▸ h, hclosed⟩

variable (c)

theorem Kept.refl : Kept c c :=
  .of_untouched rfl (fun h => h) fun h => ⟨h, fun _ h => h⟩

theorem getFailed_kept : Kept c c.getFailed := by
  cases hout : c.outstanding with
  | none =>
      simp only [Consumer.getFailed, hout]
      exact .refl c
  | some request =>
      simp only [Consumer.getFailed, hout]
      exact .of_untouched rfl (fun h => h) fun h => ⟨h, nofun⟩

theorem deleteFailed_kept (request : ℕ) : Kept c (c.deleteFailed request) := by
  unfold Consumer.deleteFailed
  split_ifs
  · exact .of_untouched rfl (fun h => h) fun h => ⟨h, fun _ h => h⟩
  · exact .refl c

theorem initiateRequest_kept (maxResponseSize : ℕ) :
    Kept c (c.initiateRequest maxResponseSize) := by
  simp only [Consumer.initiateRequest]
  split_ifs with hbusy
  · exact .of_untouched rfl (fun h => h) fun h => ⟨h, fun _ h => h⟩
  · exact .of_untouched rfl (fun _ => rfl) fun h => ⟨h, fun _ h => h⟩
  · refine ⟨⟨rfl, rfl, rfl, rfl, rfl, ?_, fun h => h⟩, fun _ h => mem_append_left _ h, ?_⟩
    · intro request hmem
      rcases mem_append.mp hmem with hold | hnew
      · exact Or.inl hold
      · rw [mem_singleton.mp hnew]
        exact Or.inr rfl
    · intro hclosed
      simp [hclosed] at hbusy

theorem run_kept (accepted : Bool) {clientSection : ClientSection δ}
    (hresult : ∀ result, clientSection ≠ .getSucceeded result)
    (hcallback : ∀ index, clientSection ≠ .advanceCallback index) :
    Kept c (clientSection.run accepted c).1 := by
  cases clientSection with
  | getSucceeded result => exact absurd rfl (hresult result)
  | advanceCallback index => exact absurd rfl (hcallback index)
  | scheduleRequest =>
      simp only [run, Consumer.scheduleRequest]
      split_ifs <;> exact .of_untouched rfl (fun h => h) fun h => ⟨h, fun _ h => h⟩
  | initiateRequest maxResponseSize => exact initiateRequest_kept c maxResponseSize
  | getFailed => exact getFailed_kept c
  | handleFailure request =>
      simp only [run, Consumer.handleFailure]
      split_ifs <;> exact .of_untouched rfl (fun h => h) fun h => ⟨h, fun _ h => h⟩
  | deleteSucceeded request =>
      simp only [run, Consumer.deleteSucceeded]
      split_ifs
      · exact .of_untouched rfl (fun h => h) fun _ => ⟨rfl, fun _ h => h⟩
      · exact .refl c
  | deleteFailed request => exact deleteFailed_kept c request
  | closeLocked => exact .of_untouched rfl (fun h => h) fun _ => ⟨rfl, fun _ h => h⟩
  | cancel future shouldSendDelete =>
      rcases future with - | ⟨request⟩ | ⟨request⟩
      · exact .refl c
      · simp only [run, Consumer.cancel]
        split_ifs
        · exact getFailed_kept c
        · exact .refl c
      · exact deleteFailed_kept c request
  | sendDelete => exact .of_untouched rfl (fun _ => rfl) fun h => ⟨h, fun _ h => h⟩

variable {c}

theorem Orderly.of_keepsClosed
    {other : ClientSection δ} (hother : other.Orderly c) (h : KeepsClosed c c') :
    other.Orderly c' := by
  cases other with
  | cancel future shouldSendDelete =>
      obtain ⟨hclosed, hout⟩ := h hother.1
      exact ⟨hclosed, fun hsend request h => hother.2 hsend request (hout request h)⟩
  | sendDelete =>
      obtain ⟨hclosed, hout⟩ := h hother.1
      refine ⟨hclosed, eq_none_iff_forall_ne_some.mpr ?_⟩
      intro request h
      rw [hother.2] at hout
      cases hout request h
  | _ => trivial

/-- The sections of the client keep the life of its requests in order. -/
theorem run_orderly (hc : c.Orderly) {clientSection : ClientSection δ}
    (hsection : clientSection.Orderly c) (accepted : Bool) :
    (clientSection.run accepted c).1.Orderly ∧
      ∀ next, (clientSection.run accepted c).2 = some next →
        next.Orderly (clientSection.run accepted c).1 := by
  cases clientSection with
  | scheduleRequest => exact ⟨scheduleRequest_orderly hc, nofun⟩
  | initiateRequest maxResponseSize =>
      exact ⟨initiateRequest_orderly hc maxResponseSize, nofun⟩
  | getSucceeded result => exact ⟨getSucceeded_orderly hc result, nofun⟩
  | getFailed => exact ⟨getFailed_orderly hc, nofun⟩
  | advanceCallback index =>
      exact ⟨advanceCallback_orderly hc accepted index, nofun⟩
  | handleFailure request => exact ⟨handleFailure_orderly hc request, nofun⟩
  | deleteSucceeded request => exact ⟨deleteSucceeded_orderly hc request, nofun⟩
  | deleteFailed request => exact ⟨deleteFailed_orderly hc request, nofun⟩
  | closeLocked =>
      refine ⟨closeLocked_orderly hc, ?_⟩
      rintro next ⟨rfl⟩
      refine ⟨rfl, ?_⟩
      intro hsend request hout
      have hopen : c.client.closed = false := by simpa [Consumer.closeLocked] using hsend
      have hmem : request ∈ c.live := by
        simp [Consumer.live, show c.outstanding = some request from hout]
      rcases (hc.live request hmem).2 with h | h
      · rw [hopen] at h
        cases h
      · exact h
  | cancel future shouldSendDelete =>
      refine ⟨Consumer.cancel_orderly hc future, ?_⟩
      intro next hnext
      cases shouldSendDelete with
      | false => cases hnext
      | true =>
          cases hnext
          have hkept : Kept c (run accepted c (.cancel future true)).1 :=
            run_kept c accepted (by simp) (by simp)
          obtain ⟨hclosed, hout⟩ := hkept.closed hsection.1
          refine ⟨hclosed, eq_none_iff_forall_ne_some.mpr ?_⟩
          intro request h
          have hold := hout request h
          have hfuture := hsection.2 rfl request hold
          simp [run, Consumer.cancel, hfuture, hold, Consumer.getFailed] at h
  | sendDelete =>
      exact ⟨Consumer.sendDelete_orderly hc hsection.2 (Or.inr hsection.1), nofun⟩

end ClientSection

/-! ## Both ends agree -/

namespace Shuffle

variable (s : Shuffle δ)

/-- The pages added so far, as the client sees them. -/
def pages : List (SerializedPage δ) :=
  s.producer.added.map (·.serializedPage)

/-- The end was declared and the client has adopted every page. -/
def Finished : Prop :=
  s.producer.ended = true ∧ s.producer.buffer.noMorePages = true ∧
    s.consumer.client.token = s.producer.added.length

/-- A running callback carries pages of the sequence and tells of completion only at the
end; what it acknowledges was adopted. -/
structure SoundCallback (callback : Callback δ) : Prop where
  carries : callback.result.Carries s.producer.added
  complete : callback.result.bufferComplete = true → s.Finished
  acknowledge : ∀ request result pages, callback = .acknowledge request result pages true →
    result.nextToken ≤ s.consumer.client.token

/-- The invariant of the protocol. -/
structure Agrees : Prop where
  consistent : s.producer.Consistent
  orderly : s.consumer.Orderly
  token_nonneg : 0 ≤ s.consumer.client.token
  token_le : s.consumer.client.token ≤ s.producer.added.length
  sequence_le : s.producer.buffer.currentSequenceId ≤ s.consumer.client.token
  requests : ∀ request ∈ s.consumer.requests,
    0 ≤ request.1 ∧ request.1 ≤ s.consumer.client.token
  acknowledgements : ∀ token ∈ s.consumer.acknowledgements,
    0 ≤ token ∧ token ≤ s.consumer.client.token
  received : s.consumer.received ++ s.consumer.callbacks.flatMap Callback.adopted =
    s.pages.take s.consumer.client.token.toNat
  callbacks : ∀ callback ∈ s.consumer.callbacks, s.SoundCallback callback
  destroyed : s.producer.buffer.destroyed = true → s.consumer.deleteSent = true
  completed : s.consumer.client.completed = true → s.Finished

variable {s : Shuffle δ}

theorem create_agrees (taskInstanceId : String) (acknowledgePages : Bool) :
    (⟨.create taskInstanceId, .create acknowledgePages⟩ : Shuffle δ).Agrees := by
  exact ⟨Traced.create_consistent taskInstanceId, create_orderly acknowledgePages,
    le_rfl, le_rfl, le_rfl, nofun, nofun, rfl, nofun, nofun, nofun⟩

/-! ### Sections of the producer -/

/-- The assertion about a thread of the producer. -/
structure SoundActivity (a : Activity δ) : Prop where
  valid : a.Valid s.producer
  acknowledges : a.AcknowledgesUpTo s.consumer.client.token
  destroys : a = .destroyLocked → s.consumer.deleteSent = true

theorem Finished.of_extends
    (h : s.Finished) {producer : Traced δ} (hextends : s.producer.Extends producer) :
    Finished { s with producer := producer } := by
  obtain ⟨hended, hno, htoken⟩ := h
  obtain ⟨hno', hsame⟩ := hextends.noMorePages hno
  exact ⟨hextends.ended hended, hno', by simp only [hsame, htoken]⟩

variable {a : Activity δ}

theorem Agrees.produce (hs : s.Agrees) (ha : s.SoundActivity a) (supply : Supply δ) :
    Agrees { s with producer := (act a supply s.producer).1 } := by
  obtain ⟨hextends, hconsistent, -⟩ := act_spec hs.consistent ha.valid supply
  have hmoves := act_moves hs.consistent ha.valid hs.sequence_le ha.acknowledges supply
  have hlength : (s.producer.added.length : ℤ) ≤
      ((act a supply s.producer).1.added.length : ℤ) := by
    exact_mod_cast hextends.added.length_le
  have hbound := hs.token_le
  refine ⟨hconsistent, hs.orderly, hs.token_nonneg, hbound.trans hlength,
    hmoves.currentSequenceId, hs.requests, hs.acknowledgements, ?_, ?_, ?_, ?_⟩
  · obtain ⟨more, hmore⟩ := hextends.added
    have hle : s.consumer.client.token.toNat ≤ s.pages.length := by
      simp only [pages, length_map]
      omega
    have hpages : pages { s with producer := (act a supply s.producer).1 } =
        s.pages ++ more.map (·.serializedPage) := by
      simp only [pages, ← hmore, map_append]
    rw [hpages, take_append_of_le_length hle]
    exact hs.received
  · intro callback hmem
    have hold := hs.callbacks callback hmem
    exact ⟨hold.carries.mono hextends.added,
      fun hcomplete => (hold.complete hcomplete).of_extends hextends, hold.acknowledge⟩
  · intro hdestroyed
    rcases hmoves.destroyed hdestroyed with hold | hdestroy
    · exact hs.destroyed hold
    · exact ha.destroys hdestroy
  · exact fun hcompleted => (hs.completed hcompleted).of_extends hextends

/-! ### Sections of the client -/

variable {c : Consumer δ}

theorem Agrees.of_frame (hs : s.Agrees) (h : Frame s.consumer c) (horderly : c.Orderly) :
    Agrees { s with consumer := c } := by
  refine ⟨hs.consistent, horderly, ?_, ?_, ?_, ?_, ?_, ?_, ?_, ?_, ?_⟩
  · exact h.token ▸ hs.token_nonneg
  · exact h.token ▸ hs.token_le
  · exact h.token ▸ hs.sequence_le
  · intro request hmem
    simp only [h.token]
    rcases h.requests request hmem with hold | hnew
    · exact hs.requests request hold
    · exact ⟨hnew ▸ hs.token_nonneg, hnew.le⟩
  · simp only [h.token, h.acknowledgements]
    exact hs.acknowledgements
  · simp only [h.token, h.received, h.callbacks]
    exact hs.received
  · intro callback hmem
    have hold := hs.callbacks callback (h.callbacks ▸ hmem)
    refine ⟨hold.carries, ?_, ?_⟩
    · intro hcomplete
      obtain ⟨hended, hno, htoken⟩ := hold.complete hcomplete
      exact ⟨hended, hno, h.token.trans htoken⟩
    · intro request result pages heq
      exact h.token ▸ hold.acknowledge request result pages heq
  · exact fun hdestroyed => h.deleteSent (hs.destroyed hdestroyed)
  · intro hcompleted
    obtain ⟨hended, hno, htoken⟩ := hs.completed (h.completed ▸ hcompleted)
    exact ⟨hended, hno, h.token.trans htoken⟩

variable {result : BufferResult δ}

/-- The result of an answered request is sound when no delete was sent. -/
theorem Agrees.soundCallback (hs : s.Agrees) (hsent : s.consumer.deleteSent = false)
    (hresult : ShuffleOperation.Possible s (.client (.getSucceeded result))) (request : ℕ) :
    s.SoundCallback (.onSuccess request result) := by
  have halive : s.producer.buffer.destroyed = false := by
    by_contra hdestroyed
    rw [hs.destroyed (by simpa using hdestroyed)] at hsent
    cases hsent
  refine ⟨?_, ?_, nofun⟩
  · rcases hresult with hreturned | ⟨sent, hmem, rfl⟩
    · exact (hs.consistent.returned result hreturned).carries
    · have hbound := hs.requests sent hmem
      exact BufferResult.emptyResults_carries _ _ hbound.1 (hbound.2.trans hs.token_le)
  · intro hcomplete
    rcases hresult with hreturned | ⟨sent, hmem, rfl⟩
    · have hvalid := hs.consistent.returned result hreturned
      rcases hvalid.complete hcomplete with hdestroyed | ⟨hended, hno, htoken⟩
      · rw [halive] at hdestroyed
        cases hdestroyed
      · refine ⟨hended, hno, le_antisymm hs.token_le ?_⟩
        rw [← htoken]
        exact hvalid.token_le.trans hs.sequence_le
    · cases hcomplete

theorem Agrees.getSucceeded (hs : s.Agrees)
    (hresult : ShuffleOperation.Possible s (.client (.getSucceeded result))) :
    Agrees { s with consumer := s.consumer.getSucceeded result } := by
  have horderly := getSucceeded_orderly hs.orderly result
  cases hout : s.consumer.outstanding with
  | none =>
      simp only [Consumer.getSucceeded, hout]
      exact hs
  | some request =>
      have hcallbacks := hs.orderly.callbacks_of_outstanding hout
      have hsent : s.consumer.deleteSent = false := by
        by_contra hsent
        have hnone := (hs.orderly.deleted (by simpa using hsent)).1
        rw [hout] at hnone
        cases hnone
      have hsound := hs.soundCallback hsent hresult request
      simp only [Consumer.getSucceeded, hout, hcallbacks] at horderly ⊢
      refine { hs with orderly := horderly, received := ?_, callbacks := ?_ }
      · have hreceived := hs.received
        rw [hcallbacks] at hreceived
        simpa [adopted, pages] using hreceived
      · intro callback hmem
        rw [mem_singleton.mp hmem]
        exact { hsound with }

/-- Completion is not undone by a token that does not move back. -/
theorem Finished.of_token_le (h : s.Finished) (hle : s.consumer.client.token ≤ c.client.token)
    (htoken : c.client.token ≤ s.producer.added.length) : Finished { s with consumer := c } :=
  ⟨h.1, h.2.1, le_antisymm htoken (h.2.2 ▸ hle)⟩

/-- Adopting the pages of a result extends the sequence up to its next token. -/
theorem take_carries (hcarries : result.Carries s.producer.added) :
    s.pages.take result.token.toNat ++ result.serializedPages =
      s.pages.take result.nextToken.toNat := by
  have hnonneg := hcarries.token_nonneg
  have hnext : result.nextToken.toNat =
      result.token.toNat + result.serializedPages.length := by
    have heq := hcarries.nextToken_eq
    omega
  have hpages : result.serializedPages =
      (s.pages.drop result.token.toNat).take result.serializedPages.length := by
    rw [pages, ← map_drop, ← map_take]
    exact hcarries.pages
  rw [hnext, take_add]
  congr 1

/-- What one section of a callback does to the client: the token does not move back, and
what was received and adopted is the sequence up to the token. -/
structure CallbackStep (s : Shuffle δ) (c : Consumer δ) (next : Option (Callback δ)) : Prop where
  token_le : s.consumer.client.token ≤ c.client.token
  token_bound : c.client.token ≤ s.producer.added.length
  acknowledgements : ∀ token ∈ c.acknowledgements,
    token ∈ s.consumer.acknowledgements ∨ 0 ≤ token ∧ token ≤ c.client.token
  received : c.received ++ next.toList.flatMap Callback.adopted =
    s.pages.take c.client.token.toNat
  acknowledge : ∀ request result pages,
    next = some (.acknowledge request result pages true) → result.nextToken ≤ c.client.token
  completed : c.client.completed = true → s.Finished

theorem Agrees.runCallback (hs : s.Agrees) (hcallbacks : s.consumer.callbacks = [callback])
    (accepted : Bool) :
    CallbackStep s (s.consumer.runCallback accepted callback).1
      (s.consumer.runCallback accepted callback).2 := by
  have hsound := hs.callbacks callback (by simp [hcallbacks])
  have hreceived := hs.received
  rw [hcallbacks, flatMap_singleton] at hreceived
  cases callback with
  | onSuccess request result =>
      simp only [adopted] at hreceived
      simp only [Consumer.runCallback]
      split_ifs with hmismatch hmatch
      · refine ⟨le_rfl, hs.token_le, fun _ h => Or.inl h, ?_, nofun, hs.completed⟩
        simpa using hreceived
      · have hcarries : result.Carries s.producer.added := hsound.carries
        have hle : s.consumer.client.token ≤ result.nextToken := by
          rw [hcarries.nextToken_eq]
          omega
        refine ⟨hle, hcarries.nextToken_le, fun _ h => Or.inl h, ?_, ?_, hs.completed⟩
        · have hadopt := take_carries hcarries
          rw [hmatch, ← hreceived] at hadopt
          simpa [adopted] using hadopt
        · intro request' result' pages' heq
          rw [some.injEq, acknowledge.injEq] at heq
          exact heq.2.1 ▸ le_rfl
      · refine ⟨le_rfl, hs.token_le, fun _ h => Or.inl h, ?_, ?_, hs.completed⟩
        · simpa [adopted] using hreceived
        · intro request' result' pages' heq
          rw [some.injEq, acknowledge.injEq] at heq
          cases heq.2.2.2
  | acknowledge request result adopted should =>
      have hcarries : result.Carries s.producer.added := hsound.carries
      have hnonneg : 0 ≤ result.nextToken := by
        have hnext := hcarries.nextToken_eq
        have htoken := hcarries.token_nonneg
        omega
      simp only [Consumer.runCallback]
      split_ifs with hsend
      · obtain ⟨rfl, -⟩ := Bool.and_eq_true_iff.mp hsend
        refine ⟨le_rfl, hs.token_le, ?_, ?_, nofun, hs.completed⟩
        · intro token hmem
          rcases mem_append.mp hmem with hold | hnew
          · exact Or.inl hold
          · rw [mem_singleton.mp hnew]
            exact Or.inr ⟨hnonneg, hsound.acknowledge request result adopted rfl⟩
        · simpa [Callback.adopted] using hreceived
      · refine ⟨le_rfl, hs.token_le, fun _ h => Or.inl h, ?_, nofun, hs.completed⟩
        simpa [Callback.adopted] using hreceived
  | addPages request result adopted =>
      simp only [Callback.adopted] at hreceived
      simp only [Consumer.runCallback]
      split_ifs
      · refine ⟨le_rfl, hs.token_le, fun _ h => Or.inl h, ?_, nofun, hs.completed⟩
        simpa [Callback.adopted] using hreceived
      · refine ⟨le_rfl, hs.token_le, fun _ h => Or.inl h, ?_, nofun, hs.completed⟩
        simpa using hreceived
  | finish request result =>
      simp only [adopted] at hreceived
      refine ⟨le_rfl, hs.token_le, fun _ h => Or.inl h, ?_, nofun, ?_⟩
      · simpa [Consumer.runCallback, Consumer.forget] using hreceived
      · intro hcompleted
        rcases Bool.or_eq_true_iff.mp hcompleted with hold | hnew
        · exact hs.completed hold
        · exact hsound.complete hnew

theorem Agrees.advanceCallback (hs : s.Agrees) (accepted : Bool) (index : ℕ) :
    Agrees { s with consumer := s.consumer.advanceCallback accepted index } := by
  have horderly := advanceCallback_orderly hs.orderly accepted index
  cases hget : s.consumer.callbacks[index]? with
  | none =>
      simp only [Consumer.advanceCallback, hget]
      exact hs
  | some callback =>
      obtain ⟨rfl, hcallbacks, -⟩ := hs.orderly.callback_single hget
      obtain ⟨c, after, hrun⟩ :
          ∃ c after, s.consumer.runCallback accepted callback = (c, after) := ⟨_, _, rfl⟩
      obtain ⟨-, -, hsent, hrequests, -⟩ := runCallback_frame hrun
      have hsound := hs.callbacks callback (by simp [hcallbacks])
      have hstep := hs.runCallback hcallbacks accepted
      rw [hrun] at hstep
      have hfinished : s.Finished →
          Finished { s with consumer := { c with callbacks := after.toList } } :=
        fun h => h.of_token_le hstep.token_le hstep.token_bound
      rw [advanceCallback_single hrun hcallbacks] at horderly ⊢
      refine ⟨hs.consistent, horderly, hs.token_nonneg.trans hstep.token_le, hstep.token_bound,
        hs.sequence_le.trans hstep.token_le, ?_, ?_, hstep.received, ?_, ?_,
        fun h => hfinished (hstep.completed h)⟩
      · intro request hmem
        have hold := hs.requests request (hrequests ▸ hmem)
        exact ⟨hold.1, hold.2.trans hstep.token_le⟩
      · intro token hmem
        rcases hstep.acknowledgements token hmem with hold | hnew
        · have hbound := hs.acknowledgements token hold
          exact ⟨hbound.1, hbound.2.trans hstep.token_le⟩
        · exact hnew
      · intro next hmem
        obtain rfl : after = some next := mem_toList.mp hmem
        obtain ⟨-, hresult, -⟩ := runCallback_some hrun
        refine ⟨hresult ▸ hsound.carries, fun h => hfinished (hsound.complete (hresult ▸ h)), ?_⟩
        rintro request result pages rfl
        exact hstep.acknowledge request result pages rfl
      · intro hdestroyed
        simp only [hsent]
        exact hs.destroyed hdestroyed

/-- Every section of the client keeps both ends in agreement. -/
theorem Agrees.consume (hs : s.Agrees) {clientSection : ClientSection δ}
    (hsection : clientSection.Orderly s.consumer)
    (hresult : ∀ result, clientSection = .getSucceeded result →
      ShuffleOperation.Possible s (.client (.getSucceeded result))) (accepted : Bool) :
    Agrees { s with consumer := (clientSection.run accepted s.consumer).1 } := by
  obtain ⟨horderly, -⟩ := ClientSection.run_orderly hs.orderly hsection accepted
  cases clientSection with
  | getSucceeded result => exact hs.getSucceeded (hresult result rfl)
  | advanceCallback index => exact hs.advanceCallback accepted index
  | _ =>
      exact hs.of_frame (ClientSection.run_kept s.consumer accepted (by simp)
        (by simp)).toFrame horderly

/-! ### Every run -/

/-- The assertion about a thread at either end. -/
def Sound (s : Shuffle δ) : ShuffleActivity δ → Prop
  | .producer a => s.SoundActivity a
  | .client clientSection =>
      clientSection.Orderly s.consumer ∧ ∀ result, clientSection = .getSucceeded result →
        ShuffleOperation.Possible s (.client (.getSucceeded result))

/-- How the client side grows: its tokens do not move back and what it sent stays sent. -/
structure Grows (c c' : Consumer δ) : Prop where
  token : c.client.token ≤ c'.client.token
  requests : ∀ request ∈ c.requests, request ∈ c'.requests
  deleteSent : c.deleteSent = true → c'.deleteSent = true

theorem grows_of_kept {c' : Consumer δ} (h : ClientSection.Kept c c') :
    Grows c c' ∧ ClientSection.KeepsClosed c c' :=
  ⟨⟨h.token.ge, h.sent, h.deleteSent⟩, h.closed⟩

theorem Agrees.consume_grows (hs : s.Agrees) (clientSection : ClientSection δ) (accepted : Bool) :
    Grows s.consumer (clientSection.run accepted s.consumer).1 ∧
      ClientSection.KeepsClosed s.consumer (clientSection.run accepted s.consumer).1 := by
  cases clientSection with
  | getSucceeded result =>
      cases hout : s.consumer.outstanding <;>
        simp only [ClientSection.run, Consumer.getSucceeded, hout] <;>
        exact ⟨⟨le_rfl, fun _ h => h, fun h => h⟩, fun h => ⟨h, by simp [hout]⟩⟩
  | advanceCallback index =>
      cases hget : s.consumer.callbacks[index]? with
      | none =>
          simp only [ClientSection.run, Consumer.advanceCallback, hget]
          exact grows_of_kept (.refl _)
      | some callback =>
          obtain ⟨-, hcallbacks, -⟩ := hs.orderly.callback_single hget
          have hrun : s.consumer.runCallback accepted callback = (_, _) := rfl
          obtain ⟨hout, -, hsent, hrequests, hclosed⟩ := Consumer.runCallback_frame hrun
          have hstep := hs.runCallback hcallbacks accepted
          simp only [ClientSection.run, Consumer.advanceCallback, hget]
          exact ⟨⟨hstep.token_le, fun _ h => hrequests.symm ▸ h, fun h => hsent.symm ▸ h⟩,
            fun h => ⟨hclosed.trans h, fun _ h => hout ▸ h⟩⟩
  | _ => exact grows_of_kept (ClientSection.run_kept s.consumer accepted (by simp) (by simp))

variable {other : ShuffleActivity δ}

theorem Sound.produce (hs : s.Agrees) (ha : s.SoundActivity a) (supply : Supply δ)
    (hother : s.Sound other) : Sound { s with producer := (act a supply s.producer).1 } other := by
  obtain ⟨hextends, -, -⟩ := act_spec hs.consistent ha.valid supply
  cases other with
  | producer b => exact ⟨hother.valid.extends hextends, hother.acknowledges, hother.destroys⟩
  | client clientSection =>
      refine ⟨hother.1, ?_⟩
      intro result heq
      rcases hother.2 result heq with hreturned | ⟨request, hmem, hempty⟩
      · exact Or.inl (hextends.returned.subset hreturned)
      · refine Or.inr ⟨request, hmem, ?_⟩
        simp only [hextends.taskInstanceId]
        exact hempty

theorem Sound.consume (hs : s.Agrees) (clientSection : ClientSection δ) (accepted : Bool)
    (hother : s.Sound other) :
    Sound { s with consumer := (clientSection.run accepted s.consumer).1 } other := by
  obtain ⟨hgrows, hclosed⟩ := hs.consume_grows clientSection accepted
  cases other with
  | producer b =>
      exact ⟨hother.valid, hother.acknowledges.mono hgrows.token,
        fun h => hgrows.deleteSent (hother.destroys h)⟩
  | client otherSection =>
      refine ⟨hother.1.of_keepsClosed hclosed, ?_⟩
      intro result heq
      rcases hother.2 result heq with hreturned | ⟨request, hmem, hempty⟩
      · exact Or.inl hreturned
      · exact Or.inr ⟨request, hgrows.requests request hmem, hempty⟩

/-- A possible operation starts soundly. -/
theorem Agrees.start_sound
    (hs : s.Agrees) {operation : ShuffleOperation δ} (h : operation.Possible s) :
    s.Sound operation.start := by
  cases operation with
  | enqueuePages _ | setNoMorePages => exact ⟨trivial, trivial, nofun⟩
  | receiveGet token maxSize => exact ⟨trivial, (hs.requests _ h).2, nofun⟩
  | receiveAcknowledge token => exact ⟨trivial, (hs.acknowledgements token h).2, nofun⟩
  | receiveDelete => exact ⟨trivial, trivial, fun _ => h⟩
  | client clientSection =>
      refine ⟨?_, ?_⟩
      · cases clientSection with
        | cancel _ _ | sendDelete => exact absurd h id
        | _ => trivial
      · rintro result rfl
        exact h

/-- In every run both ends agree and every thread is sound. -/
theorem annotated_of_shuffleReaches {taskInstanceId : String} {acknowledgePages : Bool}
    {c : Config (Shuffle δ) (ShuffleActivity δ)}
    (hc : ShuffleReaches taskInstanceId acknowledgePages c) : Annotated Agrees Sound c := by
  refine Reaches.invariant hc (.idle (create_agrees _ _)) ?_
  intro d d' l hd hl hstep
  refine hd.step ?_ ?_ hstep
  · rintro t operation rfl
    exact hd.shared.start_sound hl
  · intro t accepted activity _ _ hs hactivity
    cases activity with
    | producer a =>
        obtain ⟨-, -, hvalid⟩ := act_spec hs.consistent hactivity.valid ⟨[], true⟩
        have hmoves := act_moves hs.consistent hactivity.valid hs.sequence_le
          hactivity.acknowledges ⟨[], true⟩
        refine ⟨hs.produce hactivity _, ?_, fun b hb => Sound.produce hs hactivity _ hb⟩
        intro b hb
        obtain ⟨next, hnext, rfl⟩ := map_eq_some_iff.mp hb
        obtain ⟨hacknowledges, hnot⟩ := hmoves.next next hnext
        exact ⟨hvalid next hnext, hacknowledges, fun h => absurd h hnot⟩
    | client clientSection =>
        obtain ⟨-, hnext⟩ := ClientSection.run_orderly hs.orderly hactivity.1 accepted
        refine ⟨hs.consume hactivity.1 hactivity.2 accepted, ?_,
          fun b hb => Sound.consume hs clientSection accepted hb⟩
        intro b hb
        obtain ⟨next, hrun, rfl⟩ := map_eq_some_iff.mp hb
        refine ⟨hnext next hrun, ?_⟩
        rintro result rfl
        cases clientSection <;> simp [ClientSection.run] at hrun

end Shuffle

/-- For every interleaving of the task, the buffer, the client and the network: the pages
that the client passed to `addPages` are a first part of the pages added to the buffer, in
order and each once, and the client is completed only when it has received all of them and
the end was declared. -/
theorem shuffle_delivers
    (taskInstanceId : String) (acknowledgePages : Bool)
    (c : Config (Shuffle δ) (ShuffleActivity δ))
    (hc : ShuffleReaches taskInstanceId acknowledgePages c) :
    c.shared.consumer.received <+: c.shared.producer.added.map (·.serializedPage) ∧
      (c.shared.consumer.client.completed = true →
        c.shared.consumer.received = c.shared.producer.added.map (·.serializedPage) ∧
          c.shared.producer.ended = true) := by
  have hs := (Shuffle.annotated_of_shuffleReaches hc).shared
  have hreceived := hs.received
  refine ⟨?_, ?_⟩
  · exact (hreceived ▸ prefix_append _ _ : _ <+: _).trans (List.take_prefix _ _)
  · intro hcompleted
    obtain ⟨hended, -, htoken⟩ := hs.completed hcompleted
    obtain ⟨-, hcallbacks⟩ :=
      Consumer.Orderly.outstanding_of_live_nil (hs.orderly.completed hcompleted)
    refine ⟨?_, hended⟩
    have hall : c.shared.consumer.client.token.toNat = c.shared.pages.length := by
      simp only [Shuffle.pages, length_map]
      omega
    rw [hcallbacks, flatMap_nil, append_nil, hall, take_length] at hreceived
    exact hreceived

/-- A thread runs an operation of at most three sections on its own. -/
def alone (operation : ShuffleOperation Unit) (sections : ℕ) :
    List (Label (ShuffleOperation Unit) Bool) :=
  .invoke 0 operation :: List.replicate sections (.advance 0 true)

/-- The client fetches the only page and then learns of the end. -/
def fetchOnePage : List (Label (ShuffleOperation Unit) Bool) :=
  alone (.client .scheduleRequest) 1 ++ alone (.client (.initiateRequest 1)) 1 ++
    alone (.enqueuePages [⟨0, ⟨(), 1, 1⟩, .taskWide⟩]) 1 ++ alone (.receiveGet 0 1) 3 ++
    alone (.client (.getSucceeded ⟨"task", 0, 1, false, [⟨(), 1, 1⟩]⟩)) 1 ++
    (List.replicate 4 (alone (.client (.advanceCallback 0)) 1)).flatten ++
    alone (.client .scheduleRequest) 1 ++ alone (.client (.initiateRequest 1)) 1 ++
    alone .setNoMorePages 1 ++ alone (.receiveGet 1 1) 3 ++
    alone (.client (.getSucceeded ⟨"task", 1, 1, true, []⟩)) 1 ++
    (List.replicate 4 (alone (.client (.advanceCallback 0)) 1)).flatten

/-- The client has then received the page and is completed. -/
theorem shuffle_delivers_onePage :
    ∃ c : Config (Shuffle Unit) (ShuffleActivity Unit),
      ShuffleReaches "task" true c ∧ c.shared.consumer.client.completed = true ∧
        c.shared.consumer.received = [⟨(), 1, 1⟩] ∧ c.shared.producer.ended = true := by
  have hsome : (run shuffleMachine NetworkAllows
      (.idle ⟨.create "task", .create true⟩) fetchOnePage).isSome = true := by
    decide +kernel
  have hcompleted : (run shuffleMachine NetworkAllows
      (.idle ⟨.create "task", .create true⟩) fetchOnePage).all
        (fun c => c.shared.consumer.client.completed &&
          decide (c.shared.producer.added.map (·.serializedPage) = [⟨(), 1, 1⟩])) = true := by
    decide +kernel
  obtain ⟨c, hrun⟩ := Option.isSome_iff_exists.mp hsome
  rw [hrun, Option.all_some, Bool.and_eq_true, decide_eq_true_eq] at hcompleted
  have hreaches : ShuffleReaches "task" true c := reaches_of_run hrun
  obtain ⟨hall, hended⟩ := (shuffle_delivers "task" true c hreaches).2 hcompleted.1
  exact ⟨c, hreaches, hcompleted.1, hall.trans hcompleted.2, hended⟩

/-- The pages received, those that callbacks adopted, and those that the buffer holds from the
client's token on. -/
def Shuffle.held (s : Shuffle δ) : List (SerializedPage δ) :=
  s.consumer.received ++ s.consumer.callbacks.flatMap Callback.adopted ++
    (s.producer.buffer.pages.drop
      (s.consumer.client.token - s.producer.buffer.currentSequenceId).toNat).map (·.serializedPage)

/-- Until the client asks to delete the buffer, the buffer gives up no page that the client does
not have, and none is held twice. -/
theorem shuffle_retains {taskInstanceId : String} {acknowledgePages : Bool}
    {c : Config (Shuffle δ) (ShuffleActivity δ)}
    (hc : ShuffleReaches taskInstanceId acknowledgePages c)
    (hdelete : c.shared.consumer.deleteSent = false) : c.shared.held = c.shared.pages := by
  have hs := (Shuffle.annotated_of_shuffleReaches hc).shared
  generalize c.shared = s at hs hdelete ⊢
  have halive : s.producer.buffer.destroyed = false := by
    by_contra hdestroyed
    rw [hs.destroyed (by simpa using hdestroyed)] at hdelete
    cases hdelete
  have hnonneg := hs.consistent.aligned.nonneg
  have hle := hs.sequence_le
  have htoken : s.producer.buffer.currentSequenceId.toNat +
      (s.consumer.client.token - s.producer.buffer.currentSequenceId).toNat =
      s.consumer.client.token.toNat := by omega
  rw [Shuffle.held, hs.received, hs.consistent.aligned.pages halive, drop_drop, htoken, map_drop]
  exact take_append_drop _ _

theorem shuffle_retains_fetchOnePage :
    ∃ c : Config (Shuffle Unit) (ShuffleActivity Unit),
      c.shared.producer.buffer.pages.length = 1 ∧ c.shared.held = c.shared.pages :=
  ⟨(run shuffleMachine NetworkAllows (.idle ⟨.create "task", .create true⟩)
    (fetchOnePage.take 12)).getD (.idle ⟨.create "task", .create true⟩), by decide +kernel,
    shuffle_retains (reaches_getD_run (by decide +kernel)) (by decide +kernel)⟩

end Presto.Operator
