import Mathlib.Data.List.Flatten
import Presto.Execution.Buffer.EnqueueCalls

/-!
# Assignment of pages in arbitrary buffers

An arbitrary buffer puts the pages of its `enqueue` calls into a master queue, from which
its clients are loaded.  The pages taken out of the queue are at all times divided among the
clients, and what a client was assigned is in the order of the queue.
-/

namespace Presto.Execution.Buffer

open OutputBuffer EnqueueCall List

open SerializedPageReference (takeUpTo takeUpTo_append)

variable {δ : Type*} {s s' : OutputBuffer δ} {w : Work δ} {sequential : Prop}

/-- The pages assigned to a client, those it is being loaded with included. -/
def Client.assigned (client : Client δ) : List (SerializedPageReference δ) :=
  client.traced.added ++ client.loading.getD []

/-- The client was told that it is complete. -/
def Client.toldComplete (client : Client δ) : Bool :=
  client.traced.returned.any (·.bufferComplete)

/-- The pages that a call has put into the master queue. -/
def EnqueueCall.delivered (e : EnqueueCall δ) : List (SerializedPageReference δ) :=
  if e.stage = .handedOver then e.references else []

/-- The invariant of an arbitrary buffer. -/
structure Distributing (sequential : Prop) (s : OutputBuffer δ) : Prop where
  type : s.type = .arbitrary
  calls : Enqueued sequential s
  kept : ∀ e ∈ s.enqueues, e.stage ≠ .abandoned
  handed : Handed sequential s.handed (s.enqueues.flatMap delivered)
  split : s.taken ++ s.masterBuffer = s.handed
  assigned : s.taken.Perm (s.buffers.collect Client.assigned)
  ordered : ∀ id client, s.buffers.get id = some client → client.assigned.Sublist s.taken
  ended : ∀ id client, s.buffers.get id = some client →
    client.traced.buffer.noMorePages = true →
    s.state.canAddPages = false ∧ s.masterBuffer = []
  settled : s.state.canAddPages = false → ∀ e ∈ s.enqueues, e.stage.inProgress = false
  master : s.masterNoMorePages = true → s.state.canAddPages = false
  finished : s.state.isTerminal = true → s.masterBuffer = [] ∧
    ∀ id client, s.buffers.get id = some client → client.traced.buffer.destroyed = true
  unfailed : s.state ≠ .failed

namespace Distributing

variable (h : Distributing sequential s)

include h

/-- The invariant reads only what the buffer holds. -/
theorem frame (hsame : s'.holdings = s.holdings) : Distributing sequential s' := by
  obtain ⟨type, taskInstanceId, state, outputBuffers, buffers, locked, initialPages, masterBuffer,
    masterNoMorePages, nextClientBufferIndex, pageTracker, created, enqueues, handed, taken, loans,
    flushes, endsDeclared, thrown⟩ := s'
  simp only [Prod.mk.injEq] at hsame
  obtain ⟨rfl, rfl, rfl, rfl, rfl, rfl, rfl, rfl, rfl, rfl, rfl, rfl⟩ := hsame
  exact { h with calls := h.calls.frame rfl rfl }

theorem lend (pages : List (SerializedPageReference δ)) (next : Work δ) :
    Distributing sequential (s.lend pages next).1 := by
  rw [OutputBuffer.lend]
  split_ifs <;> exact h.frame rfl

/-- What the invariant says of one client in the state of the buffer. -/
structure Follows (s : OutputBuffer δ) (client : Client δ) : Prop where
  ended : client.traced.buffer.noMorePages = true →
    s.state.canAddPages = false ∧ s.masterBuffer = []
  finished : s.state.isTerminal = true → client.traced.buffer.destroyed = true

variable {client : Client δ}

theorem follows {id : ℕ} (hclient : s.buffers.get id = some client) : Follows s client :=
  ⟨h.ended id client hclient, fun hterminal => (h.finished hterminal).2 id client hclient⟩

/-- One client changes or is created, and may take pages from the master queue. -/
theorem setClient {id : ℕ} {taken rest : List (SerializedPageReference δ)}
    (hsame : s'.holdings =
      { s.setClient id client with taken := taken, masterBuffer := rest }.holdings)
    (hsplit : taken ++ rest = s.handed) (htaken : s.taken.Sublist taken)
    (hrest : s.masterBuffer = [] → rest = [])
    (hassigned : taken.Perm ((s.buffers.set id client).collect Client.assigned))
    (hordered : client.assigned.Sublist taken) (hclient : Follows s client) :
    Distributing sequential s' := by
  suffices hset : Distributing sequential
      { s.setClient id client with taken := taken, masterBuffer := rest } from hset.frame hsame
  refine { h with
    calls := h.calls.frame rfl rfl, split := hsplit, assigned := hassigned, ordered := ?_,
    ended := ?_, finished := ?_ }
  · intro other entry hentry
    rcases s.buffers.get_set_cases _ hentry with ⟨rfl, rfl⟩ | ⟨-, hkept⟩
    · exact hordered
    · exact (h.ordered other entry hkept).trans htaken
  · intro other entry hentry hno
    have hfollows : Follows s entry := by
      rcases s.buffers.get_set_cases _ hentry with ⟨rfl, rfl⟩ | ⟨-, hkept⟩
      · exact hclient
      · exact h.follows hkept
    exact (hfollows.ended hno).imp_right hrest
  · intro hterminal
    refine ⟨hrest (h.finished hterminal).1, ?_⟩
    intro other entry hentry
    rcases s.buffers.get_set_cases _ hentry with ⟨rfl, rfl⟩ | ⟨-, hkept⟩
    · exact hclient.finished hterminal
    · exact (h.follows hkept).finished hterminal

/-- The invariant does not read which clients there will be. -/
theorem declare (outputBuffers : OutputBuffers) (endsDeclared locked : Bool) :
    Distributing sequential { s with
      outputBuffers := outputBuffers, endsDeclared := endsDeclared, locked := locked } :=
  { h with calls := h.calls.frame rfl rfl }

variable {a : Activity δ}

/-- A section of a client that assigns it no other page. -/
theorem withSection (hs : s.Sound) {id : ℕ} (hclient : s.buffers.get id = some client)
    (ha : a.Valid client.traced)
    {loading : Option (List (SerializedPageReference δ))} {supply : Supply δ}
    (hassigned : a.referenced supply client.traced ++ loading.getD [] = client.loading.getD [])
    (hended : (act a supply client.traced).1.buffer.noMorePages = true →
      client.traced.buffer.noMorePages = true ∨
        s.state.canAddPages = false ∧ s.masterBuffer = []) :
    Distributing sequential (s.withSection id client loading a supply) := by
  have hconsistent := hs.consistent id client hclient
  have heffect : a.Effect supply client.traced (act a supply client.traced).1 :=
    Activity.act_effect hconsistent ha
  obtain ⟨hextends, -, -⟩ := act_spec hconsistent ha supply
  have hsame : Client.assigned ⟨(act a supply client.traced).1, loading⟩ = client.assigned := by
    simp only [Client.assigned, heffect.added, append_assoc, hassigned]
  have hfollows := h.follows hclient
  refine h.setClient rfl h.split (.refl _) (fun hempty => hempty) ?_ ?_ ⟨?_, ?_⟩
  · exact (Registry.collect_set_of_eq hclient hsame).symm ▸ h.assigned
  · exact hsame ▸ h.ordered id client hclient
  · exact fun hno => (hended hno).elim hfollows.ended fun hclosed => hclosed
  · exact fun hterminal => hextends.destroyed (hfollows.finished hterminal)

/-- A client takes pages from the master queue. -/
theorem beginLoad {id : ℕ} (hclient : s.buffers.get id = some client)
    (hfree : client.loading = none) (maxSize : ℕ) :
    Distributing sequential (s.beginLoad id client maxSize) := by
  have htake := takeUpTo_append maxSize [] 0 s.masterBuffer
  have hempty : s.masterBuffer = [] → (takeUpTo maxSize [] 0 s.masterBuffer).2 = [] := by
    intro hnil
    rw [hnil] at htake ⊢
    exact (append_eq_nil_iff.mp htake).2
  have hassigned : Client.assigned
      { client with loading := some (takeUpTo maxSize [] 0 s.masterBuffer).1 } =
        client.assigned ++ (takeUpTo maxSize [] 0 s.masterBuffer).1 := by
    simp [Client.assigned, hfree]
  have hfollows := h.follows hclient
  refine h.setClient rfl ?_ (sublist_append_left _ _) hempty ?_ ?_
    ⟨hfollows.ended, hfollows.finished⟩
  · rw [append_assoc, htake]
    exact h.split
  · exact (h.assigned.append_right _).trans (Registry.collect_set_append hclient hassigned).symm
  · rw [hassigned]
    exact (h.ordered id client hclient).append (.refl _)

/-- A call that is accepted or whose references are created has delivered nothing. -/
theorem of_calls (hcalls : Enqueued sequential s') (hkept : ∀ e ∈ s'.enqueues, e.stage ≠ .abandoned)
    (hdelivered : s'.enqueues.flatMap delivered =
      s.enqueues.flatMap delivered)
    (hsettled : s.state.canAddPages = false → ∀ e ∈ s'.enqueues, e.stage.inProgress = false)
    (hsame : { s' with created := s.created, enqueues := s.enqueues }.holdings = s.holdings) :
    Distributing sequential s' := by
  have hrest := h.frame hsame
  have hstate : s'.state = s.state := congrArg (·.2.1) hsame
  exact { hrest with
    calls := hcalls, kept := hkept, handed := hdelivered ▸ hrest.handed
    settled := hstate ▸ hsettled }

theorem appendCall (hpages : s.state.canAddPages = true)
    (hothers : sequential → ∀ e ∈ s.enqueues, e.stage.inProgress = false) :
    Distributing sequential { s with enqueues := s.enqueues ++ [⟨[], .tested⟩] } := by
  refine h.of_calls (h.calls.append hothers rfl rfl) ?_ ?_ ?_ rfl
  · intro e he
    rcases mem_append.mp he with hkeep | hnew
    · exact h.kept e hkeep
    · rw [mem_singleton.mp hnew]
      exact nofun
  · simp [delivered]
  · intro hclosed
    rw [hclosed] at hpages
    cases hpages

variable {call : ℕ}

theorem reservePages (hold : s.enqueues[call]? = some ⟨[], .tested⟩)
    (lifespan : Lifespan) (pages : List (SerializedPage δ)) :
    Distributing sequential (s.reservePages call lifespan
      (newReferences s.created lifespan pages) .created) := by
  refine h.of_calls (h.calls.reserve hold lifespan pages .created) ?_ ?_ ?_ rfl
  · intro e he
    rcases mem_or_eq_of_mem_set he with hkeep | rfl
    · exact h.kept e hkeep
    · exact nofun
  · exact ListUpdates.flatMap_set_of_eq hold rfl
  · intro hclosed
    have hdone := h.settled hclosed _ (mem_of_getElem? hold)
    cases hdone

/-- The pages of a call go into the master queue. -/
theorem addToMaster {references : List (SerializedPageReference δ)}
    (hold : s.enqueues[call]? = some ⟨references, .created⟩) :
    Distributing sequential (s.addToMaster call references).1 := by
  have hmem : (⟨references, .created⟩ : EnqueueCall δ) ∈ s.enqueues := mem_of_getElem? hold
  have hopen : s.state.canAddPages = true := by
    by_contra hno
    have hdone := h.settled (by simpa using hno) _ hmem
    cases hdone
  have hnot : ¬s.state.canAddPages = false := by simp [hopen]
  refine ⟨h.type, h.calls.set hold rfl rfl rfl rfl, ?_, ?_, ?_, h.assigned, h.ordered, ?_, ?_,
    h.master, ?_, h.unfailed⟩
  · intro e he
    rcases mem_or_eq_of_mem_set he with hkeep | rfl
    · exact h.kept e hkeep
    · exact nofun
  · exact h.handed.append ⟨references, .handedOver⟩ hold rfl fun hsequential =>
      h.calls.last hsequential call _ hold rfl
  · have hsplit : s.taken ++ (s.masterBuffer ++ references) = s.handed ++ references := by
      rw [← append_assoc, h.split]
    exact hsplit
  · intro id client hclient hno
    exact absurd (h.ended id client hclient hno).1 hnot
  · intro hclosed
    exact absurd hclosed hnot
  · intro hterminal
    exact absurd (BufferState.canAdd_of_terminal hterminal).1 hnot

/-- A client is created without pages. -/
theorem newBuffer {id : ℕ} (hnew : s.buffers.get id = none) (held : Bool) :
    Distributing sequential
      { s.setClient id ⟨s.arbitraryClient, none⟩ with locked := held } := by
  have hassigned : Client.assigned (⟨s.arbitraryClient, none⟩ : Client δ) = [] := by
    simp only [arbitraryClient]
    split_ifs <;> rfl
  refine h.setClient rfl h.split (.refl _) (fun hempty => hempty) ?_ ?_ ⟨?_, ?_⟩
  · rw [Registry.collect_set_new hnew, hassigned, append_nil]
    exact h.assigned
  · rw [hassigned]
    exact nil_sublist _
  · intro hno
    by_cases hstate : s.state = .finished
    · have hterminal : s.state.isTerminal = true := by rw [hstate]; rfl
      exact ⟨(BufferState.canAdd_of_terminal hterminal).1, (h.finished hterminal).1⟩
    · simp [arbitraryClient, hstate, Traced.create, ClientBuffer.create] at hno
  · intro hterminal
    have hfinished : s.state = .finished := by
      have hunfailed := h.unfailed
      cases hstate : s.state <;> simp_all [BufferState.isTerminal]
    simp [arbitraryClient, hfinished, Traced.destroy, ClientBuffer.destroyLocked]

/-- The state of the buffer moves on. -/
theorem setState {state : BufferState} (hlater : s.state.Later state)
    (hsettled : state.canAddPages = false → ∀ e ∈ s.enqueues, e.stage.inProgress = false)
    (hfinished : state.isTerminal = true → s.masterBuffer = [] ∧
      ∀ id client, s.buffers.get id = some client → client.traced.buffer.destroyed = true)
    (hunfailed : state ≠ .failed) : Distributing sequential (s.setState state) := by
  refine { h with
    calls := h.calls.frame rfl rfl, ended := ?_, settled := hsettled, finished := hfinished,
    master := fun hno => hlater.canAddPages (h.master hno), unfailed := hunfailed }
  intro id client hclient hno
  obtain ⟨hclosed, hempty⟩ := h.ended id client hclient hno
  exact ⟨hlater.canAddPages hclosed, hempty⟩

/-- The steps of `setNoMorePages` and `setOutputBuffers` on the state. -/
theorem compareAndSet {expected new : BufferState}
    (hlater : s.state.Later (s.state.compareAndSet expected new))
    (hsettled : s.state = expected → new.canAddPages = false →
      ∀ e ∈ s.enqueues, e.stage.inProgress = false)
    (halive : new.isTerminal = false) :
    Distributing sequential (s.setState (s.state.compareAndSet expected new)) := by
  by_cases hstate : s.state = expected
  · have hnew : s.state.compareAndSet expected new = new := if_pos hstate
    rw [hnew] at hlater ⊢
    refine h.setState hlater (hsettled hstate) ?_ ?_
    · intro hterminal
      rw [halive] at hterminal
      cases hterminal
    · rintro rfl
      cases halive
  · have hsame : s.state.compareAndSet expected new = s.state := if_neg hstate
    rw [hsame]
    exact h.setState (.refl _) h.settled h.finished h.unfailed

end Distributing

/-! ## Steps of an arbitrary buffer -/

namespace Work

variable (s)

/-- No client is created while a thread checks whether all of them are destroyed. -/
def createsQuietly : Work δ → Bool
  | .newBuffer _ _ _ _ => !s.flushes.contains true
  | _ => true

/-- A buffer without clients is finished only when its master queue is empty. -/
def finishesEmpty : Work δ → Bool
  | .destroy _ => s.state.isTerminal || !s.buffers.ids.isEmpty || s.masterBuffer.isEmpty
  | _ => true

/-- A client is destroyed only after it was told that it is complete, or with the buffer. -/
def destroysTold : Work δ → Bool
  | .inClient id .destroyLocked _ =>
      s.state.isTerminal || (s.buffers.get id).all Client.toldComplete
  | _ => true

/-- A thread that checks whether the clients are destroyed has found those destroyed that it
does not have on its list; the buffer is destroyed only after such a check. -/
structure Flushing (w : Work δ) : Prop where
  flushClient : ∀ flush ids, w.innermost = .flushClient flush ids → ∀ id client,
    s.buffers.get id = some client → client.traced.buffer.destroyed = true ∨ id ∈ ids
  destroy : ∀ flush, w.innermost = .destroy flush → flush ≠ none ∧ ∀ id client,
    s.buffers.get id = some client → client.traced.buffer.destroyed = true
  unfailed : w.innermost ≠ .fail

variable {s}

theorem Flushing.checking (h : w.Flushing s) : w.Checking s :=
  ⟨h.flushClient, fun flush hdestroy => (h.destroy (some flush) hdestroy).2⟩

theorem Flushing.ne_destroy (h : w.Flushing s) : w.innermost ≠ .destroy none :=
  fun hdestroy => (h.destroy none hdestroy).1 rfl

theorem Checking.flushing
    (h : w.Checking s) (hdestroy : w.innermost ≠ .destroy none) (hfail : w.innermost ≠ .fail) :
    w.Flushing s := by
  refine ⟨h.flushClient, ?_, hfail⟩
  intro flush hflush
  cases flush with
  | none => exact absurd hflush hdestroy
  | some n => exact ⟨Option.some_ne_none n, h.destroy n hflush⟩

theorem Flushing.of_plain (h : w.innermost.plain = true) : w.Flushing s := by
  refine (Checking.of_plain h).flushing ?_ ?_
  · intro hw
    rw [hw] at h
    cases h
  · intro hw
    rw [hw] at h
    cases h

end Work

namespace Distributing

/-- A client that was told it is complete, or is destroyed, has no more pages to come. -/
theorem noMorePages_of_told
    (hs : s.Sound) {id : ℕ} {client : Client δ} (hclient : s.buffers.get id = some client)
    (htold : client.toldComplete = true ∨ client.traced.buffer.destroyed = true) :
    client.traced.buffer.noMorePages = true := by
  have hconsistent := hs.consistent id client hclient
  have hdestroyed : client.traced.buffer.destroyed = true →
      client.traced.buffer.noMorePages = true := fun h => (hconsistent.aligned.destroyed h).2
  rcases htold with htold | hgone
  · obtain ⟨r, hr, hcomplete⟩ := any_eq_true.mp htold
    rcases (hconsistent.returned r hr).complete hcomplete with hgone | ⟨-, hno, -⟩
    · exact hdestroyed hgone
    · exact hno
  · exact hdestroyed hgone

variable (h : Distributing sequential s)

include h

variable {next : Work δ}

/-- A section of a client outside of the master queue. -/
theorem inClient (hs : s.Sound) {id : ℕ} (hw : (Work.inClient id a next).Valid s)
    (htold : (Work.inClient id a next).destroysTold s = true) :
    Distributing sequential (s.inClient id a next).1 := by
  obtain ⟨⟨client, hclient, ha⟩, hpermitted, -⟩ := hw
  simp only [OutputBuffer.inClient, hclient]
  by_cases hblocked : (client.loading.isSome && a.takesLock) = true
  · rw [if_pos hblocked]
    exact h
  rw [if_neg hblocked]
  split
  · rename_i maxSize hsize hneeds
    have hfree : client.loading = none := by
      have hlock := (Activity.takesLock_of_loadSize (a := a) (by rw [hsize]; rfl)).1
      simpa [hlock] using hblocked
    exact h.beginLoad hclient hfree maxSize
  · have hreferenced : a.referenced ⟨[], true⟩ client.traced = [] := by
      cases a with
      | enqueuePagesLocked pages => exact hpermitted.elim
      | loadPages _ _ | loadPendingPages _ => simp [Activity.referenced]
      | _ => rfl
    refine (h.withSection hs hclient ha (by rw [hreferenced]; rfl) ?_).lend _ _
    intro hno
    have heffect : a.Effect ⟨[], true⟩ client.traced (act a ⟨[], true⟩ client.traced).1 :=
      Activity.act_effect (hs.consistent id client hclient) ha
    rcases heffect.noMorePages hno with hbefore | rfl | rfl | ⟨-, -, hmay⟩
    · exact Or.inl hbefore
    · exact absurd h.type hpermitted.1
    · -- the section that destroys the client
      simp only [Work.destroysTold, hclient, Option.all_some, Bool.or_eq_true] at htold
      rcases htold with hterminal | hcomplete
      · exact Or.inr ⟨(BufferState.canAdd_of_terminal hterminal).1, (h.finished hterminal).1⟩
      · exact Or.inl (noMorePages_of_told hs hclient (Or.inl hcomplete))
    · cases hmay

/-- The rest of a loading section. -/
theorem loadClient (hs : s.Sound) {id : ℕ}
    (hw : (Work.loadClient id a next).Valid s) (hout : s.Outstanding (.load id)) :
    Distributing sequential (s.loadClient id a next).1 := by
  obtain ⟨⟨client, hclient, ha⟩, hpermitted, hload, -, -⟩ := hw
  obtain ⟨entry, hentry, hloading⟩ := hout
  rw [hclient, Option.some.injEq] at hentry
  subst hentry
  have hneeds := hs.loading id client hclient hloading
  simp only [OutputBuffer.loadClient, hclient]
  refine (h.withSection hs hclient ha ?_ ?_).lend _ _
  · have hreferenced : a.referenced ⟨client.loading.getD [], s.mayHaveMorePages⟩ client.traced =
        client.loading.getD [] := by
      cases a with
      | loadPages _ _ | loadPendingPages _ => simp [Activity.referenced, hneeds]
      | _ => cases hload
    rw [hreferenced]
    simp
  · intro hno
    have heffect : a.Effect ⟨client.loading.getD [], s.mayHaveMorePages⟩ client.traced
        (act a ⟨client.loading.getD [], s.mayHaveMorePages⟩ client.traced).1 :=
      Activity.act_effect (hs.consistent id client hclient) ha
    rcases heffect.noMorePages hno with hbefore | rfl | rfl | ⟨-, -, hmay⟩
    · exact Or.inl hbefore
    · cases hload
    · cases hload
    · have hmaster : s.masterNoMorePages = true ∧ s.masterBuffer = [] := by
        simpa [OutputBuffer.mayHaveMorePages] using hmay
      exact Or.inr ⟨h.master hmaster.1, hmaster.2⟩

/-- The buffer is finished after a check that all clients are destroyed. -/
theorem destroy (hs : s.Sound) {flush : Option ℕ}
    (hw : (Work.destroy flush).Valid s) (hflushing : (Work.destroy flush).Flushing s)
    (hempty : (Work.destroy flush).finishesEmpty s = true) :
    Distributing sequential (s.destroy flush).1 := by
  obtain ⟨hsome, hdestroyed⟩ := hflushing.destroy flush rfl
  obtain ⟨n, rfl⟩ := Option.ne_none_iff_exists'.mp hsome
  have hended : Distributing sequential (s.endFlush (some n)) := h.frame rfl
  have hclosed : s.state.canAddPages = false := (hw n rfl).2 h.type
  simp only [OutputBuffer.destroy]
  by_cases hterminal : s.state.isTerminal = true
  · rw [if_pos hterminal]
    exact hended
  rw [if_neg hterminal]
  have hstate : s.state.isTerminal = false := by simpa using hterminal
  have hmaster : s.masterBuffer = [] := by
    cases hids : s.buffers.ids with
    | nil => simpa [Work.finishesEmpty, hstate, hids] using hempty
    | cons id ids =>
        obtain ⟨client, hclient⟩ :=
          s.buffers.exists_get_of_mem (show id ∈ s.buffers.ids by rw [hids]; simp)
        have hno := noMorePages_of_told hs hclient (Or.inr (hdestroyed id client hclient))
        exact (h.ended id client hclient hno).2
  exact hended.setState (BufferState.later_of_terminal hstate rfl) (fun _ => h.settled hclosed)
    (fun _ => ⟨hmaster, hdestroyed⟩) (by decide)

/-- Every step keeps the invariant, under the conditions. -/
theorem step (hs : s.Sound) (hw : w.Valid s)
    (hknown : ∀ x, w.holds x → s.Outstanding x) (hflushing : w.Flushing s)
    (hquiet : w.endsQuietly s = true) (hempty : w.finishesEmpty s = true)
    (htold : w.destroysTold s = true) (hafter : sequential → w.startsAfterOthers s = true)
    (order : List ℕ) : Distributing sequential (s.step order w).1 := by
  obtain ⟨hnoMorePages, hflushed, hnoMoreBuffers, hflushed'⟩ := s.state.later_compareAndSet
  by_cases hlooks : w.looksOn = true
  · exact h.frame (step_looksOn hlooks order)
  cases w with
  | enqueue lifespan partition pages =>
      simp only [step, enqueue]
      split_ifs with hcallback hclosed
      · exact h.frame rfl
      · exact h
      · have hpages : s.state.canAddPages = true := by
          by_contra hno
          exact hclosed (by simp [hno])
        exact h.appendCall hpages fun hsequential =>
          enqueuesDone_iff.mp (hafter hsequential)
  | enqueueTested call lifespan partition pages =>
      simp only [step, enqueueTested, h.type]
      exact h.reservePages hw lifespan pages
  | rememberPages call references =>
      have hbroadcast : s.type = .broadcast := hw.1
      rw [h.type] at hbroadcast
      cases hbroadcast
  | deliver call references ids => exact absurd h.type hw.1
  | addToMaster call references => exact h.addToMaster hw.2
  | getBuffer held id activity next =>
      simp only [step]
      rcases s.getBuffer_cases held id activity next with
        ⟨-, -, heq⟩ | heq | ⟨-, -, heq⟩ | ⟨-, -, ⟨-, heq⟩ | ⟨-, -, heq⟩ | ⟨-, htype, -, heq⟩⟩ <;>
        rw [heq]
      · exact h.frame rfl
      · exact h
      · exact h
      · exact h.frame rfl
      · exact h.frame rfl
      · exact absurd h.type htype
  | newBuffer held id activity next => exact h.newBuffer hw.2.2.1 held
  | inClient id a next => exact h.inClient hs hw htold
  | loadClient id a next => exact h.loadClient hs hw (hknown _ (Or.inl rfl))
  | setNoMorePages =>
      refine h.compareAndSet hnoMorePages ?_ rfl
      intro hopen _
      refine enqueuesDone_iff.mp ?_
      simpa [Work.endsQuietly, hopen] using hquiet
  | setNoMorePagesAgain =>
      refine h.compareAndSet hflushed ?_ rfl
      intro hstate _
      refine enqueuesDone_iff.mp ?_
      simpa [Work.endsQuietly, hstate] using hquiet
  | masterNoMorePages =>
      exact { h with calls := h.calls.frame rfl rfl, master := fun _ => hw.2 }
  | endClient ids =>
      cases ids with
      | nil => exact h.declare s.outputBuffers true s.locked
      | cons id ids =>
          simp only [step, endClient, if_pos h.type]
          exact h
  | setOutputBuffers newOutputBuffers =>
      simp only [step]
      rcases s.setOutputBuffers_cases newOutputBuffers with
        heq | heq | ⟨e, heq⟩ | ⟨-, -, -, -, heq⟩ <;> rw [heq]
      · exact h
      · exact h
      · exact h.frame rfl
      · exact h.declare newOutputBuffers s.endsDeclared true
  | noMoreBuffersOpen => exact h.compareAndSet hnoMoreBuffers (by rintro _ ⟨⟩) rfl
  | noMoreBuffersNoMorePages =>
      have hmoved : Distributing sequential
          (s.setState (s.state.compareAndSet .noMorePages .flushing)) := by
        refine h.compareAndSet hflushed' ?_ rfl
        intro hstate _
        exact h.settled (by rw [hstate]; rfl)
      exact hmoved.frame rfl
  | noMoreBuffers next =>
      have hforget : s.forgetPages = s := by
        rw [forgetPages, if_neg (by rw [h.type]; decide)]
      simp only [step, noMoreBuffers, hforget]
      split_ifs
      · exact h
      · exact h.frame rfl
      · exact h.lend _ _
  | destroy flush => exact h.destroy hs hw hflushing hempty
  | destroyMaster =>
      have hmaster := (h.finished hw.2).1
      have hcleared : Distributing sequential { s with masterBuffer := [] } :=
        h.frame (by simp only [holdings, hmaster])
      exact hcleared.lend _ _
  | fail => exact absurd rfl hflushing.unfailed
  | _ => exact absurd rfl hlooks

variable {order : List ℕ}

/-- A thread with a flush check does not see new clients. -/
theorem no_client_created (hw : w.Valid s) (hquiet : w.createsQuietly s = true)
    {flush : ℕ} (hflush : s.flushes[flush]? = some true) {id : ℕ}
    (hnone : s.buffers.get id = none) : (s.step order w).1.buffers.get id = none := by
  rcases (step_effect hw order).clients.cases_of_none hnone with
    hsame | ⟨-, -, ⟨htype, -⟩ | ⟨-, held, activity, next, rfl⟩⟩
  · exact hsame
  · exact absurd h.type htype
  · have hmem : true ∈ s.flushes := mem_of_getElem? hflush
    simp [Work.createsQuietly, hmem] at hquiet

/-- A thread with a flush check goes on with it. -/
theorem step_flushing (hw : w.Valid s)
    (hknown : ∀ x, w.holds x → s.Outstanding x) (hquiet : w.createsQuietly s = true)
    (hflushing : w.Flushing s) (hevolves : s.Evolves (s.step order w).1) :
    (s.step order w).2.Flushing (s.step order w).1 := by
  have hchecking : (s.step order w).2.Checking (s.step order w).1 := by
    refine step_checking hflushing.checking hevolves ?_
    intro flush hflush id hnone
    exact h.no_client_created hw hquiet (hknown _ hflush) hnone
  cases s.step_goesOn order w with
  | same hsame =>
      exact hchecking.flushing (hsame ▸ hflushing.ne_destroy) (hsame ▸ hflushing.unfailed)
  | plain hplain => exact .of_plain hplain
  | startEnding _ hnext | ending _ _ _ hnext | startFlush _ hnext | flushing _ _ _ _ _ _ _ hnext
  | flushed _ _ hnext =>
      exact hchecking.flushing (by rw [hnext]; rintro ⟨⟩) (by rw [hnext]; rintro ⟨⟩)

end Distributing

/-! ## Runs of an arbitrary buffer -/

open Interleaving

/-- The buffer is not destroyed or failed from outside; no `setNoMorePages` overtakes an
`enqueue`; no client is created during a flush check; a buffer without clients is finished
only with an empty master queue; a client is destroyed only after it was told that it is
complete; and when the calls are sequential each `enqueue` starts after the others. -/
def DistributedQuietly (sequential : Prop) (c : Config (OutputBuffer δ) (Work δ)) :
    Label (BufferOperation δ) (List ℕ) → Prop
  | .invoke _ .destroy | .invoke _ .fail => False
  | .invoke _ _ => True
  | .advance t _ => ∀ w ∈ c.threads t,
      (w.endsQuietly c.shared && w.createsQuietly c.shared && w.finishesEmpty c.shared &&
        w.destroysTold c.shared) = true ∧
      (sequential → w.startsAfterOthers c.shared = true)

instance decidableDistributedQuietly
    [Decidable sequential] (c : Config (OutputBuffer δ) (Work δ))
    (l : Label (BufferOperation δ) (List ℕ)) :
    Decidable (DistributedQuietly sequential c l) :=
  match l with
  | .invoke _ .destroy | .invoke _ .fail => isFalse id
  | .invoke _ .registerLifespanCompletionCallback | .invoke _ (.enqueue _ _ _)
  | .invoke _ (.get _ _ _) | .invoke _ (.acknowledge _ _) | .invoke _ (.abort _)
  | .invoke _ (.setOutputBuffers _) | .invoke _ .setNoMorePages
  | .invoke _ (.setNoMorePagesForLifespan _) => isTrue trivial
  | .advance t _ => inferInstanceAs (Decidable (∀ w ∈ c.threads t,
      (w.endsQuietly c.shared && w.createsQuietly c.shared && w.finishesEmpty c.shared &&
        w.destroysTold c.shared) = true ∧
      (sequential → w.startsAfterOthers c.shared = true)))

variable {c : Config (OutputBuffer δ) (Work δ)}

theorem BufferOperation.start_flushing {t : ℕ} {operation : BufferOperation δ}
    (h : DistributedQuietly sequential c (.invoke t operation)) (type : BufferType) :
    (operation.start type).Flushing s := by
  refine .of_plain ?_
  cases operation with
  | enqueue _ _ _ | get _ _ _ =>
      simp only [BufferOperation.start]
      split_ifs <;> rfl
  | destroy | fail => exact h.elim
  | _ => rfl

theorem distributing_create (taskInstanceId : String) :
    Distributing sequential (create .arbitrary taskInstanceId : OutputBuffer δ) := by
  exact ⟨rfl, enqueued_create _ _, nofun, ⟨.nil, fun _ => rfl⟩, rfl, .nil,
    fun _ _ h => (nomatch h), fun _ _ h => (nomatch h), nofun, nofun, nofun, nofun⟩

/-- The invariants of a run of an arbitrary buffer. -/
theorem distributing_of_reaches {taskInstanceId : String}
    (hc : Reaches bufferMachine (DistributedQuietly sequential)
      (.idle (.create .arbitrary taskInstanceId)) c) :
    Orderly c ∧ Annotated (Distributing sequential) (fun s w => Work.Flushing s w) c := by
  refine hc.invariant (P := fun c => Orderly c ∧ Annotated _ _ c)
    ⟨orderly_create _ _, .idle (distributing_create taskInstanceId)⟩ ?_
  rintro d d' l ⟨horderly, hannotated⟩ hallowed hstep
  refine ⟨horderly.step hstep, horderly.annotated_step hannotated hstep ?_ ?_⟩
  · rintro t o rfl
    exact BufferOperation.start_flushing hallowed _
  intro t order w hl ht hw hknown hspec hshared hflushing
  subst hl
  obtain ⟨hconditions, hafter⟩ := hallowed w ht
  simp only [Bool.and_eq_true] at hconditions
  obtain ⟨⟨⟨hends, hcreates⟩, hfinishes⟩, hdestroys⟩ := hconditions
  refine ⟨hshared.step horderly.annotated.shared hw hknown hflushing hends hfinishes hdestroys
    hafter order, hshared.step_flushing hw hknown hcreates hflushing hspec.evolves, ?_⟩
  intro b _ htokens hb
  refine (hb.checking.evolves hspec.evolves ?_).flushing hb.ne_destroy hb.unfailed
  intro flush hflush id hnone
  exact hshared.no_client_created hw hcreates (htokens _ hflush).1 hnone

/-- The pages of an arbitrary buffer are divided among its clients: a page of a call that no
thread is running any more waits in the master queue or is assigned to one client, once, in
the order of the queue; a client is told that it is complete only when the queue is and stays
empty; and the buffer is finished only when its clients are destroyed. -/
structure Distributed (sequential : Prop) (c : Config (OutputBuffer δ) (Work δ)) : Prop where
  assigned : ∀ n e, c.shared.enqueues[n]? = some e →
    (∀ t w, c.threads t = some w → ¬w.holds (.enqueue n)) → ∀ page ∈ e.references,
    (page ∈ c.shared.masterBuffer ∧ ∀ id client, c.shared.buffers.get id = some client →
        page ∉ client.assigned) ∨
      page ∉ c.shared.masterBuffer ∧
        ∃! id, ∃ client, c.shared.buffers.get id = some client ∧ page ∈ client.assigned
  once : ∀ id client, c.shared.buffers.get id = some client → client.assigned.Nodup
  ordered : ∀ id client, c.shared.buffers.get id = some client →
    client.assigned.Sublist c.shared.handed
  handed : sequential → c.shared.handed.Sublist (c.shared.enqueues.flatMap (·.references))
  told : ∀ id client, c.shared.buffers.get id = some client → client.toldComplete = true →
    c.shared.masterBuffer = [] ∧ c.shared.state.canAddPages = false ∧
      ∀ e ∈ c.shared.enqueues, e.stage.inProgress = false
  finished : c.shared.state = .finished → ∀ id client,
    c.shared.buffers.get id = some client → client.traced.buffer.destroyed = true

theorem EnqueueCall.delivered_sublist (e : EnqueueCall δ) : e.delivered.Sublist e.references := by
  rw [delivered]
  split_ifs
  · exact .refl _
  · exact nil_sublist _

namespace Distributing

/-- The clients and the master queue hold each page once. -/
theorem nodup (h : Distributing sequential s) :
    (s.buffers.collect Client.assigned ++ s.masterBuffer).Nodup := by
  have hdelivered : (s.enqueues.flatMap delivered).Nodup :=
    h.calls.distinct.sublist (List.Sublist.flatMap_right _ fun e _ => e.delivered_sublist)
  have hhanded : s.handed.Nodup := h.handed.1.nodup_iff.mpr hdelivered
  rw [← h.split] at hhanded
  exact (h.assigned.append_right _).nodup_iff.mp hhanded

/-- A delivered page is in the master queue or with one client. -/
theorem assigned_or_queued (h : Distributing sequential s) {e : EnqueueCall δ} (he : e ∈ s.enqueues)
    (hdone : e.stage.inProgress = false) {page : SerializedPageReference δ}
    (hpage : page ∈ e.references) :
    page ∈ s.buffers.collect Client.assigned ∨ page ∈ s.masterBuffer := by
  have hstage : e.stage = .handedOver := EnqueueStage.eq_handedOver (h.kept e he) hdone
  have hhanded : page ∈ s.handed := by
    refine h.handed.1.mem_iff.mpr (mem_flatMap.mpr ⟨e, he, ?_⟩)
    rw [delivered, if_pos hstage]
    exact hpage
  rw [← h.split, mem_append] at hhanded
  exact hhanded.imp_left h.assigned.mem_iff.mp

end Distributing

/-- In every run of an arbitrary buffer that meets the conditions its pages are divided among
its clients. -/
theorem arbitraryAssignment
    (sequential : Prop) (taskInstanceId : String) (c : Config (OutputBuffer δ) (Work δ))
    (hc : Reaches bufferMachine (DistributedQuietly sequential)
      (.idle (.create .arbitrary taskInstanceId)) c) :
    Distributed sequential c := by
  obtain ⟨horderly, hannotated⟩ := distributing_of_reaches hc
  have h := hannotated.shared
  have hnodup := h.nodup
  obtain ⟨hassigned, -, hapart⟩ := List.nodup_append'.mp hnodup
  refine ⟨?_, ?_, ?_, ?_, ?_, ?_⟩
  · intro n e he hidle page hpage
    have hdone : e.stage.inProgress = false := by
      by_contra hno
      obtain ⟨t, w, ht, hw⟩ := horderly.custody.held (.enqueue n) ⟨e, he, by simpa using hno⟩
      exact hidle t w ht hw
    rcases h.assigned_or_queued (List.mem_of_getElem? he) hdone hpage with hclient | hqueue
    · refine Or.inr ⟨fun hqueue => hapart hclient hqueue, ?_⟩
      obtain ⟨id, client, hget, hmem⟩ := Registry.mem_collect.mp hclient
      refine ⟨id, ⟨client, hget, hmem⟩, ?_⟩
      rintro other ⟨entry, hentry, hin⟩
      exact Registry.unique_of_nodup_collect hassigned hget hentry hmem hin
    · refine Or.inl ⟨hqueue, ?_⟩
      intro id client hget hmem
      exact hapart (Registry.mem_collect.mpr ⟨id, client, hget, hmem⟩) hqueue
  · intro id client hclient
    have htaken : c.shared.taken.Nodup := h.assigned.nodup_iff.mpr hassigned
    exact htaken.sublist (h.ordered id client hclient)
  · intro id client hclient
    rw [← h.split]
    exact (h.ordered id client hclient).trans (List.sublist_append_left _ _)
  · intro hsequential
    rw [h.handed.2 hsequential]
    exact List.Sublist.flatMap_right _ fun e _ => e.delivered_sublist
  · intro id client hclient htold
    have hno := Distributing.noMorePages_of_told horderly.annotated.shared hclient (Or.inl htold)
    obtain ⟨hclosed, hempty⟩ := h.ended id client hclient hno
    exact ⟨hempty, hclosed, h.settled hclosed⟩
  · intro hfinished
    exact (h.finished (by rw [hfinished]; rfl)).2

/-- A page goes to the client that waits for it, the end is declared, both clients are told
that they are complete and are aborted. -/
def onePageForOneOfTwo : List (Label (BufferOperation Unit) (List ℕ)) :=
  calls 0 .registerLifespanCompletionCallback 1 ++ calls 0 (.get 0 0 1) 7 ++
    calls 1 (.enqueue .taskWide 0 [⟨(), 1, 1⟩]) 15 ++ calls 0 (.get 0 1 1) 8 ++
    calls 2 .setNoMorePages 17 ++ calls 0 (.get 1 0 1) 7 ++ calls 3 (.abort 0) 8 ++
    calls 3 (.abort 1) 17

/-- The configuration after `onePageForOneOfTwo`. -/
def afterOnePageForOneOfTwo : Config (OutputBuffer Unit) (Work Unit) :=
  (run bufferMachine (DistributedQuietly True) (.idle (.create .arbitrary "task"))
    onePageForOneOfTwo).getD (.idle (.create .arbitrary "task"))

theorem arbitraryAssignment_onePageForOneOfTwo :
    afterOnePageForOneOfTwo.shared.state = .finished ∧
      (afterOnePageForOneOfTwo.shared.buffers.get 0).map (fun client =>
        (client.toldComplete, client.assigned)) = some (true, [⟨0, ⟨(), 1, 1⟩, .taskWide⟩]) ∧
      Distributed True afterOnePageForOneOfTwo := by
  exact ⟨by decide +kernel, by decide +kernel,
    arbitraryAssignment True "task" afterOnePageForOneOfTwo
      (reaches_getD_run (by decide +kernel))⟩

/-! ## Runs outside of the conditions -/

/-- The configuration of an arbitrary buffer after a list of labels. -/
def arbitraryRun (labels : List (Label (BufferOperation Unit) (List ℕ))) :
    Config (OutputBuffer Unit) (Work Unit) :=
  (run bufferMachine (fun _ _ => True) (.idle (.create .arbitrary "task")) labels).getD
    (.idle (.create .arbitrary "task"))

/-- An `enqueue` has seen that pages can be added when `setNoMorePages` runs from its start to
its end and tells the only client that it is complete. -/
def overtakenArbitraryEnqueue : List (Label (BufferOperation Unit) (List ℕ)) :=
  calls 0 .registerLifespanCompletionCallback 1 ++ calls 0 (.get 0 0 1) 7 ++
    calls 1 (.enqueue .taskWide 0 [⟨(), 1, 1⟩]) 1 ++ calls 2 .setNoMorePages 17 ++ advances 1 8

/-- A page is left in the master queue although every client was told that it is complete and
no thread is running. -/
theorem arbitrary_page_left_by_overtaken_enqueue :
    Reaches bufferMachine (fun _ _ => True) (.idle (.create .arbitrary "task"))
        (arbitraryRun overtakenArbitraryEnqueue) ∧
      (∀ t < 3, ((arbitraryRun overtakenArbitraryEnqueue).threads t).isNone = true) ∧
      (arbitraryRun overtakenArbitraryEnqueue).shared.masterBuffer =
        [⟨0, ⟨(), 1, 1⟩, .taskWide⟩] ∧
      (arbitraryRun overtakenArbitraryEnqueue).shared.buffers.ids = [0] ∧
      ((arbitraryRun overtakenArbitraryEnqueue).shared.buffers.get 0).map (fun client =>
          (client.traced.buffer.destroyed, client.assigned, client.traced.returned)) =
        some (false, [], [⟨"task", 0, 0, true, []⟩]) := by
  refine ⟨reaches_getD_run (by decide +kernel), ?_, ?_, ?_, ?_⟩ <;> decide +kernel

/-- A client is created after `setNoMorePages` has looked for clients. -/
def clientDuringFlush : List (Label (BufferOperation Unit) (List ℕ)) :=
  calls 2 .setNoMorePages 9 ++ calls 0 (.get 0 0 1) 2 ++ advances 2 1

/-- The buffer is finished before its client is destroyed. -/
theorem arbitrary_finished_with_client :
    Reaches bufferMachine (fun _ _ => True) (.idle (.create .arbitrary "task"))
        (arbitraryRun clientDuringFlush) ∧
      (arbitraryRun clientDuringFlush).shared.state = .finished ∧
      ((arbitraryRun clientDuringFlush).shared.buffers.get 0).map (fun client =>
        client.traced.buffer.destroyed) = some false := by
  refine ⟨reaches_getD_run (by decide +kernel), ?_, ?_⟩ <;> decide +kernel

/-- The end of the clients is declared before there is one. -/
def pageWithoutClients : List (Label (BufferOperation Unit) (List ℕ)) :=
  calls 0 .registerLifespanCompletionCallback 1 ++
    calls 0 (.setOutputBuffers ⟨.arbitrary, 1, true, [], List.nodup_nil⟩) 7 ++
    calls 1 (.enqueue .taskWide 0 [⟨(), 1, 1⟩]) 5 ++ calls 2 .setNoMorePages 14

/-- The finished buffer has dropped a page that it has assigned to nobody. -/
theorem arbitrary_page_dropped_without_clients :
    Reaches bufferMachine (fun _ _ => True) (.idle (.create .arbitrary "task"))
        (arbitraryRun pageWithoutClients) ∧
      (arbitraryRun pageWithoutClients).shared.state = .finished ∧
      (arbitraryRun pageWithoutClients).shared.handed = [⟨0, ⟨(), 1, 1⟩, .taskWide⟩] ∧
      (arbitraryRun pageWithoutClients).shared.masterBuffer = [] ∧
      (arbitraryRun pageWithoutClients).shared.buffers.ids = [] := by
  refine ⟨reaches_getD_run (by decide +kernel), ?_, ?_, ?_, ?_⟩ <;> decide +kernel

end Presto.Execution.Buffer
