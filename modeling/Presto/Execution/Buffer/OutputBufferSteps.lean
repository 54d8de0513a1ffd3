import Presto.Execution.Buffer.ClientBufferTokens
import Presto.Execution.Buffer.SectionEffects

/-!
# What a step of an output buffer can do

A thread inside an operation may hold the lock of the buffer, an accepted `enqueue`, a flush
check, references it still has to drop, or the lock of a client that it loads.  Each of
these tokens is held by one thread, so what the history says about a token only changes by a
step of its holder.  Here it is proved that every step keeps this custody, the invariant of
every client buffer and what the threads know about where they are.
-/

namespace Presto.Execution.Buffer

variable {δ : Type*}

/-! ## Tokens -/

/-- What only one thread can hold. -/
inductive Token
  | lock
  | enqueue (call : ℕ)
  | flush (flush : ℕ)
  | loan (loan : ℕ)
  | load (id : ℕ)
  deriving DecidableEq

namespace Work

/-- The tokens of a thread. -/
def holds : Work δ → Token → Prop
  | .enqueueTested call _ _ _, x => x = .enqueue call
  | .rememberPages call _, x => x = .enqueue call
  | .deliver call _ _, x => x = .enqueue call
  | .addToMaster call _, x => x = .enqueue call
  | .dereference loan _ next, x => x = .loan loan ∨ next.holds x
  | .getBuffer _ _ _ next, x => next.holds x
  | .newBuffer held _ _ next, x => held = false ∧ x = .lock ∨ next.holds x
  | .inClient _ _ next, x => next.holds x
  | .loadClient id _ next, x => x = .load id ∨ next.holds x
  | .addBuffers _ _, x => x = .lock
  | .noMoreBuffersOpen, x => x = .lock
  | .noMoreBuffersNoMorePages, x => x = .lock
  | .noMoreBuffers next, x => next.holds x
  | .flushClient flush _, x => x = .flush flush
  | .destroy flush, x => ∃ n, flush = some n ∧ x = .flush n
  | _, _ => False

end Work

namespace OutputBuffer

/-- The tokens that some thread has to hold. -/
def Outstanding (s : OutputBuffer δ) : Token → Prop
  | .lock => s.locked = true
  | .enqueue call => ∃ entry, s.enqueues[call]? = some entry ∧ entry.stage.inProgress = true
  | .flush flush => s.flushes[flush]? = some true
  | .loan loan => ∃ pages, s.loans[loan]? = some pages ∧ pages ≠ []
  | .load id => ∃ client, s.buffers.get id = some client ∧ client.loading.isSome = true

/-- Nothing that a token stands for has changed; the lock keeps clients from being
created. -/
def Same (s s' : OutputBuffer δ) : Token → Prop
  | .lock => ∀ id, s.buffers.get id = none → s'.buffers.get id = none
  | .enqueue call => s'.enqueues[call]? = s.enqueues[call]?
  | .flush flush => s'.flushes[flush]? = s.flushes[flush]?
  | .loan loan => s'.loans[loan]? = s.loans[loan]?
  | .load id => ∀ client, s.buffers.get id = some client →
      ∃ client', s'.buffers.get id = some client' ∧ client'.loading = client.loading ∧
        client'.traced.buffer = client.traced.buffer

end OutputBuffer

/-! ## How the state evolves -/

/-- The state of a buffer does not go back. -/
structure BufferState.Later (state state' : BufferState) : Prop where
  canAddPages : state.canAddPages = false → state'.canAddPages = false
  canAddBuffers : state.canAddBuffers = false → state'.canAddBuffers = false
  ne_open : state ≠ .open → state' ≠ .open
  terminal : state.isTerminal = true → state' = state

namespace BufferState

theorem Later.refl (state : BufferState) : Later state state :=
  ⟨fun h => h, fun h => h, fun h => h, fun _ => rfl⟩

variable {state state' : BufferState}

theorem Later.trans {state'' : BufferState} (h : Later state state') (h' : Later state' state'') :
    Later state state'' :=
  ⟨fun hold => h'.canAddPages (h.canAddPages hold),
    fun hold => h'.canAddBuffers (h.canAddBuffers hold),
    fun hold => h'.ne_open (h.ne_open hold), fun hold => by
      have hmid := h.terminal hold
      rw [h'.terminal (hmid ▸ hold), hmid]⟩

/-- The four moves of `setNoMorePages` and `setOutputBuffers`. -/
theorem later_compareAndSet (state : BufferState) :
    Later state (state.compareAndSet .open .noMorePages) ∧
      Later state (state.compareAndSet .noMoreBuffers .flushing) ∧
      Later state (state.compareAndSet .open .noMoreBuffers) ∧
      Later state (state.compareAndSet .noMorePages .flushing) := by
  cases state <;> refine ⟨⟨?_, ?_, ?_, ?_⟩, ⟨?_, ?_, ?_, ?_⟩, ⟨?_, ?_, ?_, ?_⟩, ?_, ?_, ?_, ?_⟩ <;>
    decide

theorem Later.not_isTerminal (h : Later state state') (hnew : state'.isTerminal = false) :
    state.isTerminal = false := by
  by_contra hterminal
  rw [h.terminal (by simpa using hterminal)] at hnew
  exact hterminal hnew

theorem canAdd_of_terminal (h : state.isTerminal = true) :
    state.canAddPages = false ∧ state.canAddBuffers = false ∧ state ≠ .open := by
  revert h
  cases state <;> decide

theorem later_of_terminal (h : state.isTerminal = false) (h' : state'.isTerminal = true) :
    Later state state' := by
  obtain ⟨hpages, hbuffers, hopen⟩ := canAdd_of_terminal h'
  refine ⟨fun _ => hpages, fun _ => hbuffers, fun _ => hopen, ?_⟩
  intro hterminal
  rw [h] at hterminal
  cases hterminal

end BufferState

namespace OutputBuffer

/-- How the shared state grows along a run. -/
structure Evolves (s s' : OutputBuffer δ) : Prop where
  type : s'.type = s.type
  taskInstanceId : s'.taskInstanceId = s.taskInstanceId
  later : s.state.Later s'.state
  noMoreBufferIds : s.outputBuffers.noMoreBufferIds = true →
    s'.outputBuffers.noMoreBufferIds = true
  clients : ∀ id client, s.buffers.get id = some client →
    ∃ client', s'.buffers.get id = some client' ∧ client.traced.Extends client'.traced
  endsDeclared : s.endsDeclared = true → s'.endsDeclared = true
  masterNoMorePages : s.masterNoMorePages = true → s'.masterNoMorePages = true

/-- Every client satisfies its invariant; one that is being loaded needs pages. -/
structure Sound (s : OutputBuffer δ) : Prop where
  consistent : ∀ id client, s.buffers.get id = some client → client.traced.Consistent
  loading : ∀ id client, s.buffers.get id = some client → client.loading.isSome = true →
    client.traced.buffer.needsPages = true

end OutputBuffer

/-! ## Where the threads are -/

namespace Activity

/-- The sections that a thread runs only when it holds no token; among them are all that
can throw. -/
def runsAlone : Activity δ → Bool
  | .acknowledgePages _ _ | .acknowledgePagesLocked _ _ | .loadPages _ _ | .getPagesLocked _ _
  | .pendingMaxSize | .loadPendingPages _ | .pendingReadLoaded => true
  | _ => false

/-- The sections that a buffer of the given type and state runs on a client outside of its
own loops over the clients. -/
def Permitted (s : OutputBuffer δ) : Activity δ → Prop
  | .enqueuePagesLocked _ => False
  | .setNoMorePagesLocked => s.type ≠ .arbitrary ∧ s.state.canAddPages = false
  | .acknowledgePages _ next | .acknowledgePagesLocked _ next =>
      ∀ request, next = some request → request.supplied = true → s.type = .arbitrary
  | .loadPages _ _ | .loadPendingPages _ | .pendingMaxSize | .pendingReadLoaded =>
      s.type = .arbitrary
  | _ => True

end Activity

/-- What a thread does after `getBuffer`: a thread that has the lock is in the loop of
`setOutputBuffers`, another one holds no token. -/
def Work.Resumes (held : Bool) (next : Work δ) : Prop :=
  (held = true ∧ ∃ canAddPages ids, next = .addBuffers canAddPages ids) ∨
    held = false ∧ ∀ x, ¬next.holds x

/-- What a thread knows at each of its steps. -/
def Work.Valid (s : OutputBuffer δ) : Work δ → Prop
  | .enqueueTested call _ _ _ => s.enqueues[call]? = some ⟨[], .tested⟩
  | .rememberPages call references =>
      s.type = .broadcast ∧ s.enqueues[call]? = some ⟨references, .created⟩
  | .deliver call references ids =>
      s.type ≠ .arbitrary ∧ s.enqueues[call]? = some ⟨references, .delivering ids⟩
  | .addToMaster call references =>
      s.type = .arbitrary ∧ s.enqueues[call]? = some ⟨references, .created⟩
  | .pollClients => s.type = .arbitrary
  | .pollFrom ids => s.type = .arbitrary ∧ ∀ id ∈ ids, id ∈ s.buffers.ids
  | .poll ids index remaining =>
      s.type = .arbitrary ∧ (∀ id ∈ ids, id ∈ s.buffers.ids) ∧
        (index < ids.length ∨ remaining = 0)
  | .dereference loan pages next =>
      s.loans[loan]? = some pages ∧ pages ≠ [] ∧ ¬next.holds (.loan loan) ∧ next.Valid s
  | .getBuffer held _ activity next =>
      (∀ a, activity = some a → (∀ t, a.Valid t) ∧ a.Permitted s ∧
        (a.runsAlone = true → ∀ x, ¬next.holds x)) ∧
        (s.type = .partitioned → held = false) ∧ next.Resumes held ∧ next.Valid s
  | .newBuffer held id activity next =>
      (∀ a, activity = some a → (∀ t, a.Valid t) ∧ a.Permitted s ∧
        (a.runsAlone = true → ∀ x, ¬next.holds x)) ∧
        s.type = .arbitrary ∧ s.buffers.get id = none ∧ next.Resumes held ∧ next.Valid s
  | .inClient id a next =>
      (∃ client, s.buffers.get id = some client ∧ a.Valid client.traced) ∧ a.Permitted s ∧
        (a.runsAlone = true → ∀ x, ¬next.holds x) ∧ next.Valid s
  | .loadClient id a next =>
      (∃ client, s.buffers.get id = some client ∧ a.Valid client.traced) ∧ a.Permitted s ∧
        a.loadSize.isSome = true ∧ (∀ x, ¬next.holds x) ∧ next.Valid s
  | .setNoMorePagesAgain => s.state ≠ .open
  | .masterNoMorePages => s.type = .arbitrary ∧ s.state.canAddPages = false
  | .endClients =>
      s.state.canAddPages = false ∧ (s.type = .arbitrary → s.masterNoMorePages = true)
  | .endClient ids =>
      s.state.canAddPages = false ∧ (s.type = .arbitrary → s.masterNoMorePages = true) ∧
        ∀ id ∈ ids, id ∈ s.buffers.ids
  | .addBuffers canAddPages _ =>
      s.type ≠ .partitioned ∧ (canAddPages = false → s.state.canAddPages = false)
  | .noMoreBuffersOpen => s.outputBuffers.noMoreBufferIds = true
  | .noMoreBuffersNoMorePages =>
      s.outputBuffers.noMoreBufferIds = true ∧ s.state ≠ .open
  | .noMoreBuffers next =>
      s.state.canAddBuffers = false ∧ (∀ x, ¬next.holds x) ∧ next.Valid s
  | .checkFlushCompleteAgain | .flushClients =>
      s.type = .arbitrary → s.state.canAddPages = false
  | .flushClient flush ids =>
      s.flushes[flush]? = some true ∧ (s.type = .arbitrary → s.state.canAddPages = false) ∧
        ∀ id ∈ ids, id ∈ s.buffers.ids
  | .destroy flush => ∀ n, flush = some n →
      s.flushes[n]? = some true ∧ (s.type = .arbitrary → s.state.canAddPages = false)
  | .destroyMaster => s.type = .arbitrary ∧ s.state.isTerminal = true
  | .destroyClients => s.state.isTerminal = true
  | .destroyClient ids => s.state.isTerminal = true ∧ ∀ id ∈ ids, id ∈ s.buffers.ids
  | _ => True

/-- A step keeps the invariants; the tokens are passed on, given back or drawn. -/
structure StepSpec (w : Work δ) (s : OutputBuffer δ) (r : OutputBuffer δ × Work δ) : Prop where
  evolves : s.Evolves r.1
  sound : r.1.Sound
  valid : r.2.Valid r.1
  same : ∀ x, s.Outstanding x → ¬w.holds x → s.Same r.1 x
  after : ∀ x, r.1.Outstanding x ↔ r.2.holds x ∨ s.Outstanding x ∧ ¬w.holds x
  drawn : ∀ x, r.2.holds x → w.holds x ∨ ¬s.Outstanding x

/-- A thread may take its next step. -/
structure Ready (w : Work δ) (s : OutputBuffer δ) : Prop where
  valid : w.Valid s
  known : ∀ x, w.holds x → s.Outstanding x
  sound : s.Sound

/-- The step is as specified wherever the thread may take it. -/
abbrev Performs (w : Work δ) (s : OutputBuffer δ) (r : OutputBuffer δ × Work δ) : Prop :=
  Ready w s → StepSpec w s r

variable {s s' : OutputBuffer δ} {w w' : Work δ}

theorem StepSpec.ready (h : StepSpec w s (s', w')) : Ready w' s' :=
  ⟨h.valid, fun x hx => (h.after x).mpr (Or.inl hx), h.sound⟩

namespace OutputBuffer

theorem Evolves.refl (s : OutputBuffer δ) : s.Evolves s :=
  ⟨rfl, rfl, .refl _, fun h => h, fun _ client h => ⟨client, h, .refl _⟩, fun h => h, fun h => h⟩

variable {s'' : OutputBuffer δ}

theorem Evolves.trans
    (h : s.Evolves s') (h' : s'.Evolves s'') : s.Evolves s'' := by
  refine ⟨h'.type.trans h.type, h'.taskInstanceId.trans h.taskInstanceId, h.later.trans h'.later,
    fun hold => h'.noMoreBufferIds (h.noMoreBufferIds hold), ?_,
    fun hold => h'.endsDeclared (h.endsDeclared hold),
    fun hold => h'.masterNoMorePages (h.masterNoMorePages hold)⟩
  intro id client hclient
  obtain ⟨client', hclient', hextends⟩ := h.clients id client hclient
  obtain ⟨client'', hclient'', hextends'⟩ := h'.clients id client' hclient'
  exact ⟨client'', hclient'', hextends.trans hextends'⟩

theorem Evolves.mem_ids {id : ℕ} (h : s.Evolves s') (hid : id ∈ s.buffers.ids) :
    id ∈ s'.buffers.ids := by
  obtain ⟨client, hclient⟩ := s.buffers.exists_get_of_mem hid
  obtain ⟨client', hclient', -⟩ := h.clients id client hclient
  exact s'.buffers.mem_ids_of_get hclient'

theorem Evolves.canAddPages (h : s.Evolves s') (hold : s.state.canAddPages = false) :
    s'.state.canAddPages = false :=
  h.later.canAddPages hold

theorem Evolves.isTerminal (h : s.Evolves s') (hold : s.state.isTerminal = true) :
    s'.state.isTerminal = true := by
  rw [h.later.terminal hold]
  exact hold

theorem Evolves.not_isTerminal (h : s.Evolves s') (hnew : s'.state.isTerminal = false) :
    s.state.isTerminal = false :=
  h.later.not_isTerminal hnew

theorem Same.trans
    {x : Token} (h : s.Same s' x) (h' : s'.Same s'' x) : s.Same s'' x := by
  cases x with
  | lock => exact fun id hid => h' id (h id hid)
  | enqueue _ | flush _ | loan _ => exact Eq.trans h' h
  | load id =>
      intro client hclient
      obtain ⟨client', hclient', hloading, hbuffer⟩ := h client hclient
      obtain ⟨client'', hclient'', hloading', hbuffer'⟩ := h' client' hclient'
      exact ⟨client'', hclient'', hloading'.trans hloading, hbuffer'.trans hbuffer⟩

end OutputBuffer

namespace Work.Resumes

variable {held : Bool}

theorem holds {next : Work δ} (h : next.Resumes held) (x : Token) :
    next.holds x ↔ held = true ∧ x = .lock := by
  rcases h with ⟨rfl, canAddPages, ids, rfl⟩ | ⟨rfl, hnone⟩
  · simp [holds]
  · simp [hnone]

theorem lock {next : Work δ} (h : next.Resumes held) :
    held = false ∧ Token.lock = .lock ∨ next.holds .lock := by
  rw [h.holds]
  cases held <;> simp

end Work.Resumes

theorem Activity.Permitted.evolves
    {a : Activity δ} (ha : a.Permitted s) (h : s.Evolves s') : a.Permitted s' := by
  cases a with
  | enqueuePagesLocked pages => exact ha
  | setNoMorePagesLocked => exact ⟨h.type ▸ ha.1, h.canAddPages ha.2⟩
  | acknowledgePages _ _ | acknowledgePagesLocked _ _ =>
      exact fun request hnext hsupplied => h.type.trans (ha request hnext hsupplied)
  | loadPages _ _ | loadPendingPages _ | pendingMaxSize | pendingReadLoaded => exact h.type.trans ha
  | _ => trivial

/-- What a thread knows stays true when the state evolves and nothing happens to its
tokens. -/
theorem Work.Valid.evolves
    (hw : w.Valid s) (h : s.Evolves s') (hsame : ∀ x, w.holds x → s.Same s' x) : w.Valid s' := by
  have hids : ∀ {ids : List ℕ}, (∀ id ∈ ids, id ∈ s.buffers.ids) →
      ∀ id ∈ ids, id ∈ s'.buffers.ids := fun hold id hid => h.mem_ids (hold id hid)
  have hclient : ∀ {id : ℕ} {a : Activity δ},
      (∃ client, s.buffers.get id = some client ∧ a.Valid client.traced) →
      ∃ client, s'.buffers.get id = some client ∧ a.Valid client.traced := by
    rintro id a ⟨client, hget, ha⟩
    obtain ⟨client', hget', hextends⟩ := h.clients id client hget
    exact ⟨client', hget', ha.extends hextends⟩
  have hactivity : ∀ {activity : Option (Activity δ)} {next : Work δ},
      (∀ a, activity = some a → (∀ t, a.Valid t) ∧ a.Permitted s ∧
        (a.runsAlone = true → ∀ x, ¬next.holds x)) →
      ∀ a, activity = some a → (∀ t, a.Valid t) ∧ a.Permitted s' ∧
        (a.runsAlone = true → ∀ x, ¬next.holds x) := by
    intro activity next hold a ha
    obtain ⟨hvalid, hpermitted, halone⟩ := hold a ha
    exact ⟨hvalid, hpermitted.evolves h, halone⟩
  have hends : (s.type = .arbitrary → s.masterNoMorePages = true) →
      s'.type = .arbitrary → s'.masterNoMorePages = true :=
    fun hold htype => h.masterNoMorePages (hold (h.type ▸ htype))
  have hclosed : (s.type = .arbitrary → s.state.canAddPages = false) →
      s'.type = .arbitrary → s'.state.canAddPages = false :=
    fun hold htype => h.canAddPages (hold (h.type ▸ htype))
  induction w with
  | enqueueTested call lifespan partition pages => exact Eq.trans (hsame (.enqueue call) rfl) hw
  | rememberPages call references | addToMaster call references =>
      exact ⟨h.type.trans hw.1, Eq.trans (hsame (.enqueue call) rfl) hw.2⟩
  | deliver call references ids =>
      exact ⟨h.type ▸ hw.1, Eq.trans (hsame (.enqueue call) rfl) hw.2⟩
  | pollClients => exact h.type.trans hw
  | pollFrom ids => exact ⟨h.type.trans hw.1, hids hw.2⟩
  | poll ids index remaining => exact ⟨h.type.trans hw.1, hids hw.2.1, hw.2.2⟩
  | dereference loan pages next ih =>
      exact ⟨Eq.trans (hsame (.loan loan) (Or.inl rfl)) hw.1, hw.2.1, hw.2.2.1,
        ih hw.2.2.2 fun x hx => hsame x (Or.inr hx)⟩
  | getBuffer held id activity next ih =>
      refine ⟨hactivity hw.1, h.type ▸ hw.2.1, hw.2.2.1, ih hw.2.2.2 hsame⟩
  | newBuffer held id activity next ih =>
      obtain ⟨ha, htype, hnew, hresumes, hnext⟩ := hw
      exact ⟨hactivity ha, h.type.trans htype, hsame .lock hresumes.lock id hnew, hresumes,
        ih hnext fun x hx => hsame x (Or.inr hx)⟩
  | inClient id a next ih =>
      exact ⟨hclient hw.1, hw.2.1.evolves h, hw.2.2.1, ih hw.2.2.2 hsame⟩
  | loadClient id a next ih =>
      exact ⟨hclient hw.1, hw.2.1.evolves h, hw.2.2.1, hw.2.2.2.1,
        ih hw.2.2.2.2 fun x hx => hsame x (Or.inr hx)⟩
  | setNoMorePagesAgain => exact h.later.ne_open hw
  | masterNoMorePages => exact ⟨h.type.trans hw.1, h.canAddPages hw.2⟩
  | endClients => exact ⟨h.canAddPages hw.1, hends hw.2⟩
  | endClient ids => exact ⟨h.canAddPages hw.1, hends hw.2.1, hids hw.2.2⟩
  | addBuffers canAddPages ids =>
      exact ⟨h.type ▸ hw.1, fun hno => h.canAddPages (hw.2 hno)⟩
  | noMoreBuffersOpen => exact h.noMoreBufferIds hw
  | noMoreBuffersNoMorePages => exact ⟨h.noMoreBufferIds hw.1, h.later.ne_open hw.2⟩
  | noMoreBuffers next ih =>
      exact ⟨h.later.canAddBuffers hw.1, hw.2.1, ih hw.2.2 fun x hx => hsame x hx⟩
  | checkFlushCompleteAgain | flushClients => exact hclosed hw
  | flushClient flush ids =>
      exact ⟨Eq.trans (hsame (.flush flush) rfl) hw.1, hclosed hw.2.1, hids hw.2.2⟩
  | destroy flush =>
      intro n hn
      obtain ⟨hflush, hold⟩ := hw n hn
      exact ⟨Eq.trans (hsame (.flush n) ⟨n, hn, rfl⟩) hflush, hclosed hold⟩
  | destroyMaster => exact ⟨h.type.trans hw.1, h.isTerminal hw.2⟩
  | destroyClients => exact h.isTerminal hw
  | destroyClient ids => exact ⟨h.isTerminal hw.1, hids hw.2⟩
  | _ => trivial

/-- The creation of a client does not concern what follows `getBuffer`. -/
theorem Work.Resumes.valid {next : Work δ} (hresumes : next.Resumes held) (hnext : next.Valid s)
    (h : s.Evolves s') : next.Valid s' := by
  rcases hresumes with ⟨-, canAddPages, ids, rfl⟩ | ⟨-, hnone⟩
  · exact ⟨h.type ▸ hnext.1, fun hno => h.canAddPages (hnext.2 hno)⟩
  · exact hnext.evolves h fun x hx => absurd hx (hnone x)

/-! ## Elementary steps -/

namespace OutputBuffer

/-- Only the given token may have changed hands. -/
def OnlyToken (s s' : OutputBuffer δ) (y : Token) : Prop :=
  ∀ x, x ≠ y → (s'.Outstanding x ↔ s.Outstanding x) ∧ s.Same s' x

/-- The fields behind the tokens are equal. -/
structure SameTokens (s s' : OutputBuffer δ) : Prop where
  locked : s'.locked = s.locked
  enqueues : s'.enqueues = s.enqueues
  flushes : s'.flushes = s.flushes
  loans : s'.loans = s.loans
  buffers : s'.buffers = s.buffers

/-- The fields behind the tokens. -/
abbrev tokens (s : OutputBuffer δ) := (s.locked, s.enqueues, s.flushes, s.loans, s.buffers)

theorem SameTokens.of_tokens (h : s'.tokens = s.tokens) : s.SameTokens s' := by
  simp only [Prod.mk.injEq] at h
  exact ⟨h.1, h.2.1, h.2.2.1, h.2.2.2.1, h.2.2.2.2⟩

theorem SameTokens.same (h : s.SameTokens s') (x : Token) : s.Same s' x := by
  cases x with
  | lock => exact fun id hid => h.buffers ▸ hid
  | enqueue call => exact congrArg (·[call]?) h.enqueues
  | flush flush => exact congrArg (·[flush]?) h.flushes
  | loan loan => exact congrArg (·[loan]?) h.loans
  | load id =>
      intro client hclient
      exact ⟨client, h.buffers ▸ hclient, rfl, rfl⟩

theorem Evolves.of_buffers (hlater : s.state.Later s'.state) (htype : s'.type = s.type)
    (htask : s'.taskInstanceId = s.taskInstanceId)
    (hids : s.outputBuffers.noMoreBufferIds = true → s'.outputBuffers.noMoreBufferIds = true)
    (hbuffers : s'.buffers = s.buffers) (hends : s.endsDeclared = true → s'.endsDeclared = true)
    (hmaster : s.masterNoMorePages = true → s'.masterNoMorePages = true) : s.Evolves s' := by
  refine ⟨htype, htask, hlater, hids, ?_, hends, hmaster⟩
  intro id client hclient
  exact ⟨client, hbuffers ▸ hclient, .refl _⟩

theorem Evolves.setState {state : BufferState} (h : s.state.Later state) :
    s.Evolves (s.setState state) :=
  .of_buffers h rfl rfl id rfl id id

/-- The fields that evolve. -/
abbrev core (s : OutputBuffer δ) :=
  (s.type, s.taskInstanceId, s.state, s.outputBuffers, s.buffers, s.endsDeclared,
    s.masterNoMorePages)

theorem Evolves.of_core (h : s'.core = s.core) : s.Evolves s' := by
  simp only [Prod.mk.injEq] at h
  obtain ⟨htype, htask, hstate, hids, hbuffers, hends, hmaster⟩ := h
  exact .of_buffers (hstate ▸ .refl _) htype htask (fun h => hids ▸ h) hbuffers
    (fun h => hends ▸ h) fun h => hmaster ▸ h

theorem Sound.of_buffers (hs : s.Sound) (h : s'.buffers = s.buffers) : s'.Sound :=
  ⟨fun id client hclient => hs.consistent id client (h ▸ hclient),
    fun id client hclient => hs.loading id client (h ▸ hclient)⟩

variable {client : Client δ}

theorem Sound.of_set (hs : s.Sound) {id : ℕ} (h : s'.buffers = s.buffers.set id client)
    (hconsistent : client.traced.Consistent)
    (hloading : client.loading.isSome = true → client.traced.buffer.needsPages = true) :
    s'.Sound := by
  constructor
  · intro other entry hentry
    rw [h] at hentry
    rcases s.buffers.get_set_cases client hentry with ⟨-, rfl⟩ | ⟨-, hold⟩
    · exact hconsistent
    · exact hs.consistent other entry hold
  · intro other entry hentry
    rw [h] at hentry
    rcases s.buffers.get_set_cases client hentry with ⟨-, rfl⟩ | ⟨-, hold⟩
    · exact hloading
    · exact hs.loading other entry hold

/-- A change of one client extends the clients when it extends that client. -/
theorem clients_of_set {id : ℕ} (h : s'.buffers = s.buffers.set id client)
    (hextends : ∀ old, s.buffers.get id = some old → old.traced.Extends client.traced) :
    ∀ other entry, s.buffers.get other = some entry →
      ∃ entry', s'.buffers.get other = some entry' ∧ entry.traced.Extends entry'.traced := by
  intro other entry hentry
  rw [h]
  by_cases hother : other = id
  · subst hother
    exact ⟨client, s.buffers.get_set_self client, hextends entry hentry⟩
  · exact ⟨entry, by rw [s.buffers.get_set_of_ne client hother, hentry], .refl _⟩

theorem Evolves.of_set {id : ℕ} (h : { s' with buffers := s.buffers }.core = s.core)
    (hbuffers : s'.buffers = s.buffers.set id client)
    (hextends : ∀ old, s.buffers.get id = some old → old.traced.Extends client.traced) :
    s.Evolves s' := by
  have hrest : s.Evolves { s' with buffers := s.buffers } := .of_core h
  exact ⟨hrest.type, hrest.taskInstanceId, hrest.later, hrest.noMoreBufferIds,
    clients_of_set hbuffers hextends, hrest.endsDeclared, hrest.masterNoMorePages⟩

end OutputBuffer

namespace StepSpec

/-- A step that moves no token. -/
theorem kept (hready : Ready w s) (hevolves : s.Evolves s') (hsound : s'.Sound)
    (hvalid : w'.Valid s') (houtstanding : ∀ x, s'.Outstanding x ↔ s.Outstanding x)
    (hsame : ∀ x, s.Outstanding x → ¬w.holds x → s.Same s' x)
    (hholds : ∀ x, w'.holds x ↔ w.holds x) : StepSpec w s (s', w') := by
  refine ⟨hevolves, hsound, hvalid, hsame, ?_, fun x hx => Or.inl ((hholds x).mp hx)⟩
  intro x
  rw [houtstanding x, hholds x]
  by_cases hx : w.holds x
  · simp [hx, hready.known x hx]
  · simp [hx]

/-- A step that leaves the clients and the fields behind the tokens alone. -/
theorem quiet (hready : Ready w s) (hevolves : s.Evolves s') (hvalid : w'.Valid s')
    (hholds : w'.holds = w.holds) (heq : s'.tokens = s.tokens) : StepSpec w s (s', w') := by
  have htokens := OutputBuffer.SameTokens.of_tokens heq
  refine kept hready hevolves (hready.sound.of_buffers htokens.buffers) hvalid ?_
    (fun x _ _ => htokens.same x) fun x => by rw [hholds]
  intro x
  cases x <;> simp only [OutputBuffer.Outstanding, htokens.locked, htokens.enqueues,
    htokens.flushes, htokens.loans, htokens.buffers]

/-- A step that moves one token, which the thread holds or nobody does. -/
theorem moved (y : Token) (hready : Ready w s) (hevolves : s.Evolves s')
    (hsound : s'.Sound) (hvalid : w'.Valid s') (hothers : s.OnlyToken s' y)
    (howned : w.holds y ∨ ¬s.Outstanding y) (hy : s'.Outstanding y ↔ w'.holds y)
    (hholds : ∀ x, x ≠ y → (w'.holds x ↔ w.holds x)) : StepSpec w s (s', w') := by
  refine ⟨hevolves, hsound, hvalid, ?_, ?_, ?_⟩
  · intro x hx hnot
    by_cases hxy : x = y
    · subst hxy
      exact absurd hx (howned.resolve_left hnot)
    · exact (hothers x hxy).2
  · intro x
    by_cases hxy : x = y
    · subst hxy
      rw [hy]
      constructor
      · exact Or.inl
      · rintro (hw' | ⟨hx, hnot⟩)
        · exact hw'
        · exact absurd hx (howned.resolve_left hnot)
    · rw [(hothers x hxy).1, hholds x hxy]
      by_cases hx : w.holds x
      · simp [hx, hready.known x hx]
      · simp [hx]
  · intro x hx
    by_cases hxy : x = y
    · exact hxy ▸ howned
    · exact Or.inl ((hholds x hxy).mp hx)

/-- Waiting is a step. -/
theorem wait (hready : Ready w s) : StepSpec w s (s, w) :=
  quiet hready (.refl s) hready.valid rfl rfl

/-- Two steps in a row are a step. -/
theorem trans {r : OutputBuffer δ × Work δ} (h : StepSpec w s (s', w')) (h' : StepSpec w' s' r) :
    StepSpec w s r := by
  have hnot : ∀ x, s.Outstanding x → ¬w.holds x → ¬w'.holds x := by
    intro x hx hw hw'
    exact (h.drawn x hw').elim hw fun hnew => hnew hx
  refine ⟨h.evolves.trans h'.evolves, h'.sound, h'.valid, ?_, ?_, ?_⟩
  · intro x hx hw
    have hx' : s'.Outstanding x := (h.after x).mpr (Or.inr ⟨hx, hw⟩)
    exact (h.same x hx hw).trans (h'.same x hx' (hnot x hx hw))
  · intro x
    have hafter := h.after x
    rw [h'.after x, hafter]
    constructor
    · rintro (hr | ⟨hw' | hx, hno⟩)
      · exact Or.inl hr
      · exact absurd hw' hno
      · exact Or.inr hx
    · rintro (hr | hx)
      · exact Or.inl hr
      · exact Or.inr ⟨Or.inr hx, hnot x hx.1 hx.2⟩
  · intro x hx
    rcases h'.drawn x hx with hw' | hnew
    · exact h.drawn x hw'
    · by_cases hw : w.holds x
      · exact Or.inl hw
      · exact Or.inr fun hold => hnew ((h.after x).mpr (Or.inr ⟨hold, hw⟩))

end StepSpec

namespace OutputBuffer

theorem onlyToken_of {y : Token} (hlocked : y ≠ .lock → s'.locked = s.locked)
    (henqueues : ∀ n, y ≠ .enqueue n → s'.enqueues[n]? = s.enqueues[n]?)
    (hflushes : ∀ n, y ≠ .flush n → s'.flushes[n]? = s.flushes[n]?)
    (hloans : ∀ n, y ≠ .loan n → s'.loans[n]? = s.loans[n]?)
    (hcreated : y ≠ .lock → ∀ id, s.buffers.get id = none → s'.buffers.get id = none)
    (hclients : ∀ id, y ≠ .load id → s'.buffers.get id = s.buffers.get id ∨
      s.buffers.get id = none ∧ ¬s'.Outstanding (.load id)) :
    s.OnlyToken s' y := by
  intro x hx
  cases x with
  | lock => exact ⟨by simp only [Outstanding, hlocked hx.symm], hcreated hx.symm⟩
  | enqueue n =>
      exact ⟨by simp only [Outstanding, henqueues n hx.symm], henqueues n hx.symm⟩
  | flush n => exact ⟨by simp only [Outstanding, hflushes n hx.symm], hflushes n hx.symm⟩
  | loan n => exact ⟨by simp only [Outstanding, hloans n hx.symm], hloans n hx.symm⟩
  | load id =>
      rcases hclients id hx.symm with hsame | ⟨hnew, hnot⟩
      · refine ⟨by simp only [Outstanding, hsame], ?_⟩
        intro client hclient
        exact ⟨client, hsame.trans hclient, rfl, rfl⟩
      · refine ⟨iff_of_false hnot (by simp [Outstanding, hnew]), ?_⟩
        intro client hclient
        cases hnew.symm.trans hclient

/-- A change of an existing client concerns no other token than the lock of that client. -/
theorem onlyToken_set {id : ℕ} {old : Client δ} (hold : s.buffers.get id = some old)
    (htokens : s'.tokens = { s with buffers := s.buffers.set id client }.tokens) :
    s.OnlyToken s' (.load id) := by
  have h := SameTokens.of_tokens htokens
  refine onlyToken_of (fun _ => h.locked) (fun _ _ => by rw [h.enqueues])
    (fun _ _ => by rw [h.flushes]) (fun _ _ => by rw [h.loans]) ?_ ?_
  · exact fun _ other hother => h.buffers ▸ s.buffers.get_set_eq_none client hold hother
  · intro other hother
    rw [h.buffers]
    exact Or.inl (s.buffers.get_set_of_ne client fun heq => hother (congrArg Token.load heq.symm))

/-- A new client concerns only the lock. -/
theorem onlyToken_create {id : ℕ} (hnew : s.buffers.get id = none)
    (hloading : client.loading = none)
    (htokens : s'.tokens =
      { s with locked := s'.locked, buffers := s.buffers.set id client }.tokens) :
    s.OnlyToken s' .lock := by
  have h := SameTokens.of_tokens htokens
  refine onlyToken_of (fun h => absurd rfl h) (fun _ _ => by rw [h.enqueues])
    (fun _ _ => by rw [h.flushes]) (fun _ _ => by rw [h.loans]) (fun h => absurd rfl h) ?_
  intro other _
  rw [h.buffers]
  by_cases hother : other = id
  · subst hother
    exact Or.inr ⟨hnew, by simp [Outstanding, h.buffers, hloading]⟩
  · exact Or.inl (s.buffers.get_set_of_ne client hother)

theorem getElem?_append_of_ne {α : Type*} (l : List α) (a : α) {n : ℕ} (h : n ≠ l.length) :
    (l ++ [a])[n]? = l[n]? := by
  rcases lt_or_gt_of_ne h with hlt | hgt
  · exact List.getElem?_append_left hlt
  · rw [List.getElem?_eq_none (by simp; omega), List.getElem?_eq_none hgt.le]

/-- References that are left to be dropped are in the custody of the thread. -/
theorem lend_spec (hready : Ready w s) (pages : List (SerializedPageReference δ)) :
    StepSpec w s (s.lend pages w) := by
  by_cases hpages : pages = []
  · subst hpages
    exact StepSpec.wait hready
  · have hlend : s.lend pages w =
        ({ s with loans := s.loans ++ [pages] }, .dereference s.loans.length pages w) := by
      simp [lend, hpages]
    rw [hlend]
    have hfresh : ¬s.Outstanding (.loan s.loans.length) := by
      simp [Outstanding]
    have hothers : s.OnlyToken { s with loans := s.loans ++ [pages] } (.loan s.loans.length) := by
      refine onlyToken_of (fun _ => rfl) (fun _ _ => rfl) (fun _ _ => rfl) ?_ (fun _ _ h => h)
        fun _ _ => Or.inl rfl
      intro n hn
      exact getElem?_append_of_ne s.loans pages fun heq => hn (congrArg Token.loan heq.symm)
    have hevolves : s.Evolves { s with loans := s.loans ++ [pages] } := .of_core rfl
    refine StepSpec.moved (.loan s.loans.length) hready hevolves (hready.sound.of_buffers rfl) ?_
      hothers (Or.inr hfresh) ?_ fun x hx => by simp [Work.holds, hx]
    · have hnot : ¬w.holds (.loan s.loans.length) := fun h => hfresh (hready.known _ h)
      refine ⟨by simp, hpages, hnot, hready.valid.evolves hevolves fun x hx => (hothers x ?_).2⟩
      rintro rfl
      exact hnot hx
    · simp [Outstanding, Work.holds, hpages]

end OutputBuffer

/-! ## Steps that change one token -/

namespace StepSpec

variable (hready : Ready w s)

include hready

/-- The shared state stays as it is. -/
theorem stay (hvalid : w'.Valid s) (hholds : w'.holds = w.holds) : StepSpec w s (s, w') :=
  quiet hready (.refl s) hvalid hholds rfl

section Lock

variable (hevolves : s.Evolves s') (hvalid : w'.Valid s')
  (howned : w.holds .lock ∨ s.locked = false) (hlocked : s'.locked = true ↔ w'.holds .lock)

include hevolves hvalid howned hlocked

/-- The lock of the buffer is taken, given back or kept. -/
theorem lock (hholds : ∀ x, x ≠ .lock → (w'.holds x ↔ w.holds x))
    (htokens : s'.tokens = { s with locked := s'.locked }.tokens) : StepSpec w s (s', w') := by
  have h := OutputBuffer.SameTokens.of_tokens htokens
  refine moved .lock hready hevolves (hready.sound.of_buffers h.buffers) hvalid ?_
    (howned.imp_right Bool.eq_false_iff.mp) hlocked hholds
  exact OutputBuffer.onlyToken_of (fun h => absurd rfl h) (fun _ _ => by rw [h.enqueues])
    (fun _ _ => by rw [h.flushes]) (fun _ _ => by rw [h.loans]) (fun _ _ hid => h.buffers ▸ hid)
    fun _ _ => Or.inl (by rw [h.buffers])

/-- A new client, created by a thread that has the lock, or gets and gives it back. -/
theorem create {id : ℕ} (hnew : s.buffers.get id = none)
    (hconsistent : client.traced.Consistent) (hloading : client.loading = none)
    (hholds : ∀ x, x ≠ .lock → (w'.holds x ↔ w.holds x))
    (htokens : s'.tokens =
      { s with locked := s'.locked, buffers := s.buffers.set id client }.tokens) :
    StepSpec w s (s', w') := by
  refine moved .lock hready hevolves ?_ hvalid ?_ (howned.imp_right Bool.eq_false_iff.mp) hlocked
    hholds
  · exact hready.sound.of_set (OutputBuffer.SameTokens.of_tokens htokens).buffers hconsistent
      fun h => by rw [hloading] at h; cases h
  · exact OutputBuffer.onlyToken_create hnew hloading htokens

end Lock

/-- The entry of an `enqueue` in progress is rewritten by its thread. -/
theorem call
    {call : ℕ} {entry : EnqueueCall δ} (hcore : s'.core = s.core)
    (hw : w.holds = (· = .enqueue call))
    (htokens : s'.tokens = { s with enqueues := s.enqueues.set call entry }.tokens)
    (hw' : w'.holds = if entry.stage.inProgress then w.holds else fun _ => False)
    (hvalid : s'.enqueues[call]? = some entry → w'.Valid s') : StepSpec w s (s', w') := by
  have h := OutputBuffer.SameTokens.of_tokens htokens
  have howned : w.holds (.enqueue call) := by rw [hw]
  obtain ⟨old, hold, -⟩ := hready.known _ howned
  have hlt : call < s.enqueues.length := (List.getElem?_eq_some_iff.mp hold).1
  have hentry : s'.enqueues[call]? = some entry := by
    rw [h.enqueues, List.getElem?_set_self hlt]
  refine moved (.enqueue call) hready (.of_core hcore) (hready.sound.of_buffers h.buffers)
    (hvalid hentry) ?_ (Or.inl howned) ?_ ?_
  · refine OutputBuffer.onlyToken_of (fun _ => h.locked) ?_ (fun _ _ => by rw [h.flushes])
      (fun _ _ => by rw [h.loans]) (fun _ _ hid => h.buffers ▸ hid)
      fun _ _ => Or.inl (by rw [h.buffers])
    intro n hn
    rw [h.enqueues, List.getElem?_set_ne fun heq => hn (congrArg Token.enqueue heq)]
  · rw [hw', hw]
    cases hstage : entry.stage.inProgress <;> simp [OutputBuffer.Outstanding, hentry, hstage]
  · intro x hx
    rw [hw', hw]
    split <;> simp [hx]

/-- A flush check ends. -/
theorem endFlush {flush : ℕ} (hcore : s'.core = s.core) (howned : w.holds (.flush flush))
    (hw : ∀ x, w.holds x → x = .flush flush)
    (htokens : s'.tokens = { s with flushes := s.flushes.set flush false }.tokens) :
    StepSpec w s (s', .done) := by
  have h := OutputBuffer.SameTokens.of_tokens htokens
  have hlt : flush < s.flushes.length := by
    have hflush : s.flushes[flush]? = some true := hready.known _ howned
    exact (List.getElem?_eq_some_iff.mp hflush).1
  refine moved (.flush flush) hready (.of_core hcore) (hready.sound.of_buffers h.buffers) trivial
    ?_ (Or.inl howned) ?_ fun x hx => ⟨False.elim, fun h => hx (hw x h)⟩
  · refine OutputBuffer.onlyToken_of (fun _ => h.locked) (fun _ _ => by rw [h.enqueues]) ?_
      (fun _ _ => by rw [h.loans]) (fun _ _ hid => h.buffers ▸ hid)
      fun _ _ => Or.inl (by rw [h.buffers])
    intro n hn
    rw [h.flushes, List.getElem?_set_ne fun heq => hn (congrArg Token.flush heq)]
  · simp [OutputBuffer.Outstanding, h.flushes, List.getElem?_set_self hlt, Work.holds]

end StepSpec

theorem OutputBuffer.addThrown_spec
    (hready : Ready w s) (e : Throwable) (hholds : ∀ x, ¬w.holds x) :
    StepSpec w s (s.addThrown e, .done) := by
  refine StepSpec.quiet hready (.of_core rfl) trivial ?_ rfl
  exact funext fun x => propext ⟨False.elim, hholds x⟩

/-! ## Sections of clients -/

namespace Activity

variable {a b : Activity δ} {supply : Supply δ} {t : Traced δ}

theorem GoesOn.runsAlone (hb : a.GoesOn b) (h : b.runsAlone = true) : a.runsAlone = true := by
  cases b with
  | acknowledgePages | pendingMaxSize => exact hb.elim
  | acknowledgePagesLocked | loadPendingPages =>
      cases hb
      rfl
  | loadPages => rcases hb with rfl | rfl <;> rfl
  | getPagesLocked => rcases hb with (rfl | rfl) | rfl <;> rfl
  | pendingReadLoaded =>
      obtain ⟨_, rfl⟩ := hb
      rfl
  | _ => cases h

/-- The buffer allows what follows a section that it allows. -/
theorem GoesOn.permitted
    (hb : a.GoesOn b) (ha : a.Permitted s ∨ ∃ pages, a = .enqueuePagesLocked pages) :
    b.Permitted s := by
  have hallowed : (∀ pages, a ≠ .enqueuePagesLocked pages) → a.Permitted s := by
    intro hne
    exact ha.resolve_right fun ⟨pages, hpages⟩ => hne pages hpages
  cases b with
  | acknowledgePages | enqueuePagesLocked | setNoMorePagesLocked | pendingMaxSize => exact hb.elim
  | acknowledgePagesLocked | loadPendingPages =>
      cases hb
      exact hallowed nofun
  | loadPages => rcases hb with rfl | rfl <;> exact hallowed nofun _ rfl rfl
  | pendingReadLoaded =>
      obtain ⟨_, rfl⟩ := hb
      exact hallowed nofun
  | _ => trivial

/-- A section outside the lock of the client leaves its state alone. -/
theorem buffer_of_not_takesLock (h : a.takesLock = false) :
    (act a supply t).1.buffer = t.buffer := by
  cases a with
  | acknowledgePages sequenceId next =>
      simp only [act]
      split_ifs <;> rfl
  | completeWithEmpty _ | setResult _ _ =>
      simp only [act, Traced.complete]
      split <;> rfl
  | processRead read => rfl
  | _ => cases h

theorem takesLock_of_loadSize (h : a.loadSize.isSome = true) :
    a.takesLock = true ∧ a.runsAlone = true := by
  cases a <;> first | exact ⟨rfl, rfl⟩ | cases h

end Activity

namespace Work

theorem afterGetBuffer_holds (id : ℕ) (activity : Option (Activity δ)) (next : Work δ) :
    (afterGetBuffer id activity next).holds = next.holds := by
  cases activity <;> rfl

theorem afterSection_holds
    {next : Work δ} {old new : Traced δ} (h : new.thrown = old.thrown ∨ ∀ x, ¬next.holds x)
    (id : ℕ) (activity : Option (Activity δ)) (x : Token) :
    (afterSection id next old new activity).holds x ↔ next.holds x := by
  rw [afterSection]
  split_ifs with hthrown
  · rw [afterGetBuffer_holds]
  · have hnone := h.resolve_left fun heq => hthrown (by rw [heq])
    exact ⟨False.elim, fun hx => hnone x hx⟩

variable {id : ℕ} {activity : Option (Activity δ)} {next : Work δ} {client : Client δ}
  (hclient : s.buffers.get id = some client)
  (hactivity : ∀ a, activity = some a → a.Valid client.traced ∧ a.Permitted s ∧
    (a.runsAlone = true → ∀ x, ¬next.holds x))
  (hnext : next.Valid s)

include hclient hactivity hnext

theorem afterGetBuffer_valid : (afterGetBuffer id activity next).Valid s := by
  cases activity with
  | none => exact hnext
  | some a =>
      obtain ⟨ha, hpermitted, halone⟩ := hactivity a rfl
      exact ⟨⟨client, hclient, ha⟩, hpermitted, halone, hnext⟩

theorem afterSection_valid (old new : Traced δ) :
    (afterSection id next old new activity).Valid s := by
  rw [afterSection]
  split_ifs
  · exact afterGetBuffer_valid hclient hactivity hnext
  · trivial

end Work

namespace OutputBuffer

section Sections

variable {id : ℕ} {client : Client δ} {a : Activity δ} {next : Work δ}

/-- The state after a section, before the dropped references are lent. -/
def withSection (s : OutputBuffer δ) (id : ℕ) (client : Client δ)
    (loading : Option (List (SerializedPageReference δ))) (a : Activity δ) (supply : Supply δ) :
    OutputBuffer δ :=
  { s.setClient id ⟨(act a supply client.traced).1, loading⟩ with
    pageTracker := s.pageTracker.addReferences (a.referenced supply client.traced) }

variable (hs : s.Sound) (hclient : s.buffers.get id = some client) (ha : a.Valid client.traced)

include hs hclient ha

theorem withSection_evolves
    (loading : Option (List (SerializedPageReference δ))) (supply : Supply δ) :
    s.Evolves (s.withSection id client loading a supply) := by
  obtain ⟨hextends, -, -⟩ := act_spec (hs.consistent id client hclient) ha supply
  refine .of_set rfl rfl ?_
  intro old hold
  rw [hclient, Option.some.injEq] at hold
  exact hold ▸ hextends

/-- What is left to do after a section. -/
theorem withSection_valid (hpermitted : a.Permitted s ∨ ∃ pages, a = .enqueuePagesLocked pages)
    (halone : a.runsAlone = true → ∀ x, ¬next.holds x)
    (loading : Option (List (SerializedPageReference δ))) (supply : Supply δ)
    (hnext : next.Valid (s.withSection id client loading a supply)) :
    (Work.afterSection id next client.traced (act a supply client.traced).1
      (act a supply client.traced).2).Valid (s.withSection id client loading a supply) := by
  refine Work.afterSection_valid (s.buffers.get_set_self _) ?_ hnext _ _
  intro b hb
  obtain ⟨hvalid, hgoes⟩ := Activity.act_next (hs.consistent id client hclient) ha hb
  exact ⟨hvalid,
    (hgoes.permitted hpermitted).evolves (withSection_evolves hs hclient ha loading supply),
    fun hbalone => halone (hgoes.runsAlone hbalone)⟩

theorem withSection_holds
    (halone : a.runsAlone = true → ∀ x, ¬next.holds x) (supply : Supply δ) (x : Token) :
    (Work.afterSection id next client.traced (act a supply client.traced).1
      (act a supply client.traced).2).holds x ↔ next.holds x := by
  refine Work.afterSection_holds ?_ id _ x
  cases h : a.runsAlone with
  | true => exact Or.inr (halone h)
  | false =>
      refine Or.inl (act_thrown (hs.consistent id client hclient) ha ?_ supply).1
      cases a <;> trivial

omit hs hclient ha

/-- A section of a client that leaves the loading of the client alone. -/
theorem runSection_spec (hready : Ready w s)
    (hclient : s.buffers.get id = some client) (ha : a.Valid client.traced)
    (hpermitted : a.Permitted s ∨ ∃ pages, a = .enqueuePagesLocked pages)
    (halone : a.runsAlone = true → ∀ x, ¬next.holds x)
    (hlock : client.loading.isSome = true → a.takesLock = false) (supply : Supply δ)
    (hnext : next.Valid s) (hholds : next.holds = w.holds) :
    StepSpec w s (s.runSection id client client.loading a supply next) := by
  have hevolves := withSection_evolves hready.sound hclient ha client.loading supply
  have hbuffer : client.loading.isSome = true →
      (act a supply client.traced).1.buffer = client.traced.buffer :=
    fun h => Activity.buffer_of_not_takesLock (hlock h)
  have hget : (s.withSection id client client.loading a supply).buffers.get id =
      some ⟨(act a supply client.traced).1, client.loading⟩ := s.buffers.get_set_self _
  have hothers : s.OnlyToken (s.withSection id client client.loading a supply) (.load id) :=
    onlyToken_set hclient rfl
  have houtstanding : ∀ x, (s.withSection id client client.loading a supply).Outstanding x ↔
      s.Outstanding x := by
    intro x
    by_cases hx : x = .load id
    · subst hx
      simp [Outstanding, hget, hclient]
    · exact (hothers x hx).1
  have hsame : ∀ x, s.Outstanding x →
      s.Same (s.withSection id client client.loading a supply) x := by
    intro x hout
    by_cases hx : x = .load id
    · subst hx
      intro old hold
      rw [hclient, Option.some.injEq] at hold
      subst hold
      obtain ⟨entry, hentry, hloading⟩ := hout
      rw [hclient, Option.some.injEq] at hentry
      exact ⟨_, hget, rfl, hbuffer (hentry ▸ hloading)⟩
    · exact (hothers x hx).2
  have hsound : (s.withSection id client client.loading a supply).Sound := by
    obtain ⟨-, hconsistent, -⟩ := act_spec (hready.sound.consistent id client hclient) ha supply
    refine hready.sound.of_set rfl hconsistent ?_
    intro hloading
    rw [hbuffer hloading]
    exact hready.sound.loading id client hclient hloading
  have hholds' := withSection_holds hready.sound hclient ha halone supply
  have hvalid := withSection_valid hready.sound hclient ha hpermitted halone client.loading supply
    (hnext.evolves hevolves fun x hx => hsame x (hready.known x (hholds ▸ hx)))
  have hsection := StepSpec.kept hready hevolves hsound hvalid houtstanding
    (fun x hx _ => hsame x hx) fun x => hholds ▸ hholds' x
  exact hsection.trans (lend_spec hsection.ready _)

theorem beginLoad_spec (hready : Ready (.inClient id a next) s)
    (hclient : s.buffers.get id = some client) (hfree : client.loading.isSome = false)
    (hload : a.loadSize.isSome = true) (hneeds : client.traced.buffer.needsPages = true)
    (maxSize : ℕ) :
    StepSpec (.inClient id a next) s (s.beginLoad id client maxSize, .loadClient id a next) := by
  obtain ⟨⟨entry, hentry, ha⟩, hpermitted, halone, hnext⟩ := hready.valid
  have hnone : ∀ x, ¬next.holds x := halone (Activity.takesLock_of_loadSize hload).2
  have hevolves : s.Evolves (s.beginLoad id client maxSize) := by
    refine .of_set rfl rfl ?_
    intro old hold
    rw [hclient, Option.some.injEq] at hold
    exact hold ▸ .refl _
  rw [hclient, Option.some.injEq] at hentry
  subst hentry
  have hget : (s.beginLoad id client maxSize).buffers.get id = some { client with
      loading := some (SerializedPageReference.takeUpTo maxSize [] 0 s.masterBuffer).1 } :=
    s.buffers.get_set_self _
  refine StepSpec.moved (.load id) hready hevolves ?_ ?_ ?_ (Or.inr ?_) ?_
    fun x hx => by simp [Work.holds, hx]
  · exact hready.sound.of_set rfl (hready.sound.consistent id client hclient) fun _ => hneeds
  · exact ⟨⟨_, hget, ha⟩, hpermitted.evolves hevolves, hload, hnone,
      hnext.evolves hevolves fun x hx => absurd hx (hnone x)⟩
  · exact onlyToken_set hclient rfl
  · simp [Outstanding, hclient, hfree]
  · simp [Outstanding, Work.holds, hget]

theorem loadClient_spec : Performs (.loadClient id a next) s (s.loadClient id a next) := by
  intro hready
  have hs := hready.sound
  obtain ⟨⟨client, hclient, ha⟩, hpermitted, hload, hnone, hnext⟩ := hready.valid
  have hstep : s.loadClient id a next =
      s.runSection id client none a ⟨client.loading.getD [], s.mayHaveMorePages⟩ next := by
    simp only [loadClient, hclient]
  rw [hstep]
  generalize (⟨client.loading.getD [], s.mayHaveMorePages⟩ : Supply δ) = supply
  have hevolves := withSection_evolves hs hclient ha none supply
  have hget : (s.withSection id client none a supply).buffers.get id =
      some ⟨(act a supply client.traced).1, none⟩ := s.buffers.get_set_self _
  have hsound : (s.withSection id client none a supply).Sound := by
    obtain ⟨-, hconsistent, -⟩ := act_spec (hs.consistent id client hclient) ha supply
    exact hs.of_set rfl hconsistent nofun
  have hholds := withSection_holds hs hclient ha (fun _ => hnone) supply
  have hvalid := withSection_valid hs hclient ha (Or.inl hpermitted) (fun _ => hnone) none supply
    (hnext.evolves hevolves fun x hx => absurd hx (hnone x))
  have hsection : StepSpec (.loadClient id a next) s
      (s.withSection id client none a supply,
        Work.afterSection id next client.traced (act a supply client.traced).1
          (act a supply client.traced).2) := by
    refine StepSpec.moved (.load id) hready hevolves hsound hvalid ?_ (Or.inl (Or.inl rfl)) ?_ ?_
    · exact onlyToken_set hclient rfl
    · rw [hholds (.load id)]
      simp [Outstanding, hget, hnone]
    · intro x hx
      rw [hholds x]
      simp [Work.holds, hx]
  exact hsection.trans (lend_spec hsection.ready _)

theorem inClient_spec : Performs (.inClient id a next) s (s.inClient id a next) := by
  intro hready
  obtain ⟨⟨client, hclient, ha⟩, hpermitted, halone, hnext⟩ := hready.valid
  simp only [inClient, hclient]
  split_ifs with hblocked
  · exact StepSpec.wait hready
  · have hlock : client.loading.isSome = true → a.takesLock = false := by
      intro hloading
      simpa [hloading] using hblocked
    split
    · rename_i maxSize hsize hneeds
      have hload : a.loadSize.isSome = true := by rw [hsize]; rfl
      have hfree : client.loading.isSome = false := by
        cases hloading : client.loading.isSome with
        | false => rfl
        | true =>
            rw [(Activity.takesLock_of_loadSize hload).1] at hlock
            cases hlock hloading
      exact beginLoad_spec hready hclient hfree hload hneeds maxSize
    · exact runSection_spec hready hclient ha (Or.inl hpermitted) halone hlock _ hnext rfl

end Sections

end OutputBuffer
end Presto.Execution.Buffer
