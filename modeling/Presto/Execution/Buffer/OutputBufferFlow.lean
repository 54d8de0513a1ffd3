import Presto.Execution.Buffer.OutputBufferRuns

/-!
# How the steps of an output buffer follow each other

What a step can do to the clients as a whole, and where the loops over the clients go on.
-/

namespace Presto.Execution.Buffer

variable {δ : Type*} {s s' : OutputBuffer δ} {w : Work δ}

/-- The steps that only look at what the buffer holds. -/
def Work.looksOn : Work δ → Bool
  | .done | .throw _ | .registerLifespanCompletionCallback | .setNoMorePagesForLifespan _
  | .pollClients | .pollFrom _ | .poll _ _ _ | .dereference _ _ _ | .endClients
  | .addBuffers _ _ | .buffersSet | .checkFlushComplete | .checkFlushCompleteAgain
  | .flushClients | .flushClient _ _ | .destroyClients | .destroyClient _ => true
  | _ => false

namespace OutputBuffer

/-! ## Clients after a step -/

/-- The state, the descriptor and the clients. -/
abbrev parts (s : OutputBuffer δ) := (s.state, s.outputBuffers, s.buffers)

theorem lend_parts (s : OutputBuffer δ) (pages : List (SerializedPageReference δ)) (next : Work δ) :
    (s.lend pages next).1.parts = s.parts := by
  rw [lend]
  split_ifs <;> rfl

theorem runSection_buffers (s : OutputBuffer δ) (id : ℕ) (client : Client δ)
    (loading : Option (List (SerializedPageReference δ))) (a : Activity δ) (supply : Supply δ)
    (next : Work δ) :
    (s.runSection id client loading a supply next).1.buffers =
      s.buffers.set id ⟨(act a supply client.traced).1, loading⟩ := by
  rw [runSection, lend]
  split_ifs <;> rfl

/-- What a step can do to the clients: nothing, a section of one client, or a new client. -/
inductive ClientsAfter (w : Work δ) (s s' : OutputBuffer δ) : Prop
  | kept (h : s'.buffers = s.buffers)
  | changed (id : ℕ) (old entry : Client δ) (hold : s.buffers.get id = some old)
      (h : s'.buffers = s.buffers.set id entry)
  | created (id : ℕ) (entry : Client δ) (hnew : s.buffers.get id = none)
      (h : s'.buffers = s.buffers.set id entry)
      (hentry : s.type ≠ .arbitrary ∧ entry = ⟨s.broadcastClient, none⟩ ∨
        s.type = .arbitrary ∧ entry = ⟨s.arbitraryClient, none⟩ ∧
          ∃ held activity next, w = .newBuffer held id activity next)

theorem ClientsAfter.cases_of_none
    {id : ℕ} (h : ClientsAfter w s s') (hnone : s.buffers.get id = none) :
    s'.buffers.get id = none ∨ ∃ entry, s'.buffers.get id = some entry ∧
      (s.type ≠ .arbitrary ∧ entry = ⟨s.broadcastClient, none⟩ ∨
        s.type = .arbitrary ∧ ∃ held activity next, w = .newBuffer held id activity next) := by
  cases h with
  | kept hkept => exact Or.inl (hkept ▸ hnone)
  | changed other old entry hold hset =>
      exact Or.inl (hset ▸ s.buffers.get_set_eq_none entry hold hnone)
  | created other entry hnew hset hentry =>
      rw [hset]
      by_cases hother : id = other
      · subst hother
        exact Or.inr ⟨entry, s.buffers.get_set_self entry,
          hentry.imp_right (And.imp_right And.right)⟩
      · exact Or.inl ((s.buffers.get_set_of_ne entry hother).trans hnone)

/-- The moves of the state: `destroy` and `fail` end the buffer, the others close it. -/
inductive StateAfter (w : Work δ) : BufferState → BufferState → Prop
  | kept (state : BufferState) : StateAfter w state state
  | noMoreBuffers : StateAfter w .open .noMoreBuffers
  | noMorePages : StateAfter w .open .noMorePages
  | flushBuffers : StateAfter w .noMoreBuffers .flushing
  | flushPages : StateAfter w .noMorePages .flushing
  | destroyed (flush : Option ℕ) (state : BufferState) (hw : w = .destroy flush)
      (h : state.isTerminal = false) : StateAfter w state .finished
  | failed (state : BufferState) (hw : w = .fail) (h : state.isTerminal = false) :
      StateAfter w state .failed

theorem stateAfter_compareAndSet
    {state expectedState newState : BufferState} (h : StateAfter w expectedState newState) :
    StateAfter w state (state.compareAndSet expectedState newState) := by
  rw [BufferState.compareAndSet]
  split_ifs with hexpected
  · exact hexpected ▸ h
  · exact .kept state

/-- What a step can do to the clients, to the state and to the descriptor; a partitioned
buffer keeps its descriptor and gets no new clients. -/
structure Effect (w : Work δ) (s s' : OutputBuffer δ) : Prop where
  clients : ClientsAfter w s s'
  state : StateAfter w s.state s'.state
  outputBuffers : s.type = .partitioned → s'.outputBuffers = s.outputBuffers
  fixed : s.type = .partitioned → ∀ id, s.buffers.get id = none → s'.buffers.get id = none

namespace Effect

theorem moved (h : StateAfter w s.state s'.state) (houtput : s'.outputBuffers = s.outputBuffers)
    (hbuffers : s'.buffers = s.buffers) : Effect w s s' :=
  ⟨.kept hbuffers, h, fun _ => houtput, fun _ _ hnone => hbuffers ▸ hnone⟩

theorem kept (h : s'.parts = s.parts) : Effect w s s' := by
  simp only [Prod.mk.injEq] at h
  exact .moved (h.1 ▸ .kept _) h.2.1 h.2.2

theorem changed {id : ℕ} {client entry : Client δ} (hclient : s.buffers.get id = some client)
    (h : s'.parts = (s.setClient id entry).parts) : Effect w s s' := by
  simp only [Prod.mk.injEq] at h
  obtain ⟨hstate, houtput, hbuffers⟩ := h
  exact ⟨.changed id client entry hclient hbuffers, hstate ▸ .kept _, fun _ => houtput,
    fun _ other hnone => hbuffers ▸ s.buffers.get_set_eq_none entry hclient hnone⟩

end Effect

/-- What a buffer holds, apart from its lock, its loans and its checks. -/
abbrev holdings (s : OutputBuffer δ) :=
  (s.type, s.state, s.outputBuffers, s.endsDeclared, s.buffers, s.initialPagesForNewBuffers,
    s.masterBuffer, s.masterNoMorePages, s.created, s.enqueues, s.handed, s.taken)

theorem step_looksOn (h : w.looksOn = true) (order : List ℕ) :
    (s.step order w).1.holdings = s.holdings := by
  cases w with
  | registerLifespanCompletionCallback | pollFrom _ | flushClients | pollClients | endClients
  | destroyClients =>
      simp only [step, snapshot]
      split_ifs <;> rfl
  | poll ids index remaining =>
      cases remaining with
      | zero => rfl
      | succ remaining =>
          simp only [step, poll]
          split_ifs <;> rfl
  | addBuffers canAddPages ids =>
      cases ids <;> simp only [step, addBuffers] <;> split_ifs <;> rfl
  | flushClient flush ids =>
      cases ids with
      | nil => rfl
      | cons id ids =>
          simp only [step, flushClient]
          split
          · rfl
          · split_ifs <;> rfl
  | destroyClient ids => cases ids <;> rfl
  | done | throw _ | setNoMorePagesForLifespan _ | dereference _ _ _ | buffersSet
  | checkFlushComplete | checkFlushCompleteAgain => rfl
  | _ => cases h

theorem step_effect (hw : w.Valid s) (order : List ℕ) : Effect w s (s.step order w).1 := by
  by_cases hlooks : w.looksOn = true
  · have hsame := step_looksOn (s := s) hlooks order
    simp only [Prod.mk.injEq] at hsame
    obtain ⟨-, hstate, houtput, -, hbuffers, -⟩ := hsame
    exact .kept (by rw [parts, hstate, houtput, hbuffers])
  cases w with
  | enqueue _ _ _ | rememberPages _ _ =>
      simp only [step, enqueue, rememberPages]
      split_ifs <;> exact .kept rfl
  | enqueueTested call lifespan partition pages =>
      simp only [step, enqueueTested]
      split <;> exact .kept rfl
  | deliver call references ids =>
      cases ids with
      | nil => exact .kept rfl
      | cons id ids =>
          simp only [step, deliver]
          split
          · exact .kept rfl
          · rename_i client hclient
            split_ifs
            · exact .kept rfl
            · exact .changed hclient (lend_parts _ _ _)
  | getBuffer held id activity next =>
      simp only [step]
      rcases s.getBuffer_cases held id activity next with
        ⟨-, -, h⟩ | h | ⟨-, -, h⟩ | ⟨hnew, -, ⟨-, h⟩ | ⟨-, -, h⟩ | ⟨hne, htype, -, h⟩⟩ <;> rw [h]
      · exact .kept rfl
      · exact .kept rfl
      · exact .kept rfl
      · exact .kept rfl
      · exact .kept rfl
      · exact ⟨.created id _ hnew rfl (Or.inl ⟨htype, rfl⟩), .kept _, fun _ => rfl,
          fun hpartitioned => absurd hpartitioned hne⟩
  | newBuffer held id activity next =>
      refine ⟨.created id _ hw.2.2.1 rfl (Or.inr ⟨hw.2.1, rfl, held, activity, next, rfl⟩),
        .kept _, fun _ => rfl, ?_⟩
      intro htype
      cases htype.symm.trans hw.2.1
  | inClient id a next =>
      obtain ⟨⟨client, hclient, -⟩, -⟩ := hw
      simp only [step, inClient, hclient]
      split_ifs
      · exact .kept rfl
      · split
        · exact .changed hclient rfl
        · exact .changed hclient (lend_parts _ _ _)
  | loadClient id a next =>
      obtain ⟨⟨client, hclient, -⟩, -⟩ := hw
      simp only [step, loadClient, hclient]
      exact .changed hclient (lend_parts _ _ _)
  | setNoMorePages => exact .moved (stateAfter_compareAndSet .noMorePages) rfl rfl
  | setNoMorePagesAgain => exact .moved (stateAfter_compareAndSet .flushBuffers) rfl rfl
  | endClient ids =>
      cases ids with
      | nil => exact .kept rfl
      | cons id ids =>
          obtain ⟨client, hclient⟩ := s.buffers.exists_get_of_mem (hw.2.2 id List.mem_cons_self)
          simp only [step, endClient, hclient]
          split_ifs
          · exact .kept rfl
          · exact .kept rfl
          · exact .changed hclient (lend_parts _ _ _)
  | setOutputBuffers newOutputBuffers =>
      simp only [step]
      rcases s.setOutputBuffers_cases newOutputBuffers with
        h | h | ⟨e, h⟩ | ⟨hne, -, -, -, h⟩ <;> rw [h]
      · exact .kept rfl
      · exact .kept rfl
      · exact .kept rfl
      · exact ⟨.kept rfl, .kept _, fun htype => absurd htype hne, fun _ _ hnone => hnone⟩
  | noMoreBuffersOpen => exact .moved (stateAfter_compareAndSet .noMoreBuffers) rfl rfl
  | noMoreBuffersNoMorePages => exact .moved (stateAfter_compareAndSet .flushPages) rfl rfl
  | noMoreBuffers next =>
      have hforget : s.forgetPages.parts = s.parts := by
        rw [forgetPages]
        split_ifs <;> rfl
      simp only [step, noMoreBuffers]
      split_ifs
      · exact .kept rfl
      · exact .kept hforget
      · exact .kept ((lend_parts _ _ _).trans hforget)
  | destroy flush =>
      simp only [step, destroy]
      split_ifs with hterminal
      · cases flush <;> exact .kept rfl
      · cases flush <;>
          exact .moved (.destroyed _ _ rfl (Bool.eq_false_iff.mpr hterminal)) rfl rfl
  | destroyMaster => exact .kept (lend_parts _ _ _)
  | fail =>
      simp only [step, fail]
      split_ifs with hterminal
      · exact .kept rfl
      · exact .moved (.failed _ rfl (Bool.eq_false_iff.mpr hterminal)) rfl rfl
  | addToMaster _ _ | masterNoMorePages => exact .kept rfl
  | _ => exact absurd rfl hlooks

end OutputBuffer

/-! ## Loops over the clients -/

namespace Work

/-- What a thread goes on with when it has finished with the client and the references at
hand. -/
def innermost : Work δ → Work δ
  | .dereference _ _ next | .getBuffer _ _ _ next | .newBuffer _ _ _ next | .inClient _ _ next
  | .loadClient _ _ next | .noMoreBuffers next => next.innermost
  | w => w

/-- The thread neither ends the clients, nor checks whether they are destroyed, nor destroys
or fails the buffer. -/
def plain : Work δ → Bool
  | .endClient _ | .flushClient _ _ | .destroy _ | .fail => false
  | _ => true

theorem holds_of_innermost {x : Token} (h : w.innermost.holds x) : w.holds x := by
  induction w with
  | dereference loan pages next ih => exact Or.inr (ih h)
  | getBuffer held id activity next ih => exact ih h
  | newBuffer held id activity next ih => exact Or.inr (ih h)
  | inClient id a next ih => exact ih h
  | loadClient id a next ih => exact Or.inr (ih h)
  | noMoreBuffers next ih => exact ih h
  | _ => exact h

theorem afterGetBuffer_innermost (id : ℕ) (activity : Option (Activity δ)) (next : Work δ) :
    (afterGetBuffer id activity next).innermost = next.innermost := by
  cases activity <;> rfl

end Work

namespace OutputBuffer

theorem lend_innermost
    (s : OutputBuffer δ) (pages : List (SerializedPageReference δ)) (next : Work δ) :
    (s.lend pages next).2.innermost = next.innermost := by
  rw [lend]
  split_ifs <;> rfl

theorem runSection_innermost (s : OutputBuffer δ) (id : ℕ) (client : Client δ)
    (loading : Option (List (SerializedPageReference δ))) (a : Activity δ) (supply : Supply δ)
    (next : Work δ) :
    (s.runSection id client loading a supply next).2.innermost = next.innermost ∨
      (s.runSection id client loading a supply next).2.innermost = .done := by
  rw [runSection, lend_innermost, Work.afterSection]
  split_ifs
  · exact Or.inl (Work.afterGetBuffer_innermost _ _ _)
  · exact Or.inr rfl

end OutputBuffer

/-- Where a thread goes on after a step: where it was going on before, outside of the loops
over the clients, or in the next round of such a loop. -/
inductive GoesOn (s : OutputBuffer δ) (order : List ℕ) (w v : Work δ) : Prop
  | same (h : v = w.innermost)
  | plain (h : v.plain = true)
  | startEnding (hw : w = .endClients) (h : v = .endClient (s.safeGetBuffersSnapshot order))
  | ending (id : ℕ) (ids : List ℕ) (hw : w = .endClient (id :: ids)) (h : v = .endClient ids)
  | startFlush (hw : w = .flushClients)
      (h : v = .flushClient s.flushes.length (s.safeGetBuffersSnapshot order))
  | flushing (flush id : ℕ) (ids : List ℕ) (client : Client δ)
      (hw : w = .flushClient flush (id :: ids)) (hclient : s.buffers.get id = some client)
      (hdestroyed : client.traced.buffer.destroyed = true) (h : v = .flushClient flush ids)
  | flushed (flush : ℕ) (hw : w = .flushClient flush []) (h : v = .destroy (some flush))

theorem GoesOn.of_or {order : List ℕ} {v : Work δ} (h : v = w.innermost ∨ v = .done) :
    GoesOn s order w v := by
  rcases h with h | h
  · exact .same h
  · exact .plain (by rw [h]; rfl)

theorem OutputBuffer.step_goesOn (s : OutputBuffer δ) (order : List ℕ) (w : Work δ) :
    GoesOn s order w (s.step order w).2.innermost := by
  cases w with
  | registerLifespanCompletionCallback | enqueue _ _ _ | rememberPages _ _ | pollClients
  | pollFrom _ | setNoMorePagesAgain | buffersSet | checkFlushComplete | checkFlushCompleteAgain
  | destroyClients =>
      simp only [step, enqueue, snapshot, checkFlushComplete, checkFlushCompleteAgain]
      split_ifs <;> exact .plain rfl
  | enqueueTested call lifespan partition pages =>
      simp only [step, enqueueTested]
      split <;> exact .plain rfl
  | deliver call references ids =>
      cases ids with
      | nil => exact .plain rfl
      | cons id ids =>
          simp only [step, deliver]
          split
          · exact .plain rfl
          · split_ifs
            · exact .plain rfl
            · rcases runSection_innermost _ _ _ _ _ _ _ with h | h
              · exact .plain (by rw [h]; rfl)
              · exact .plain (by rw [h]; rfl)
  | poll ids index remaining =>
      cases remaining with
      | zero => exact .plain rfl
      | succ remaining =>
          simp only [step, poll]
          split_ifs <;> exact .plain rfl
  | dereference loan pages next => exact .same rfl
  | getBuffer held id activity next =>
      simp only [step]
      rcases s.getBuffer_cases held id activity next with
        ⟨-, -, h⟩ | h | ⟨-, -, h⟩ | ⟨-, -, ⟨-, h⟩ | ⟨-, -, h⟩ | ⟨-, -, -, h⟩⟩ <;> rw [h]
      · exact .plain rfl
      · exact .same rfl
      · exact .same (Work.afterGetBuffer_innermost id activity next)
      · exact .plain rfl
      · exact .same rfl
      · exact .same (Work.afterGetBuffer_innermost id activity next)
  | newBuffer held id activity next =>
      exact .same (Work.afterGetBuffer_innermost id activity next)
  | inClient id a next =>
      simp only [step, inClient]
      split
      · exact .plain rfl
      · split_ifs
        · exact .same rfl
        · split
          · exact .same rfl
          · exact .of_or (runSection_innermost _ _ _ _ _ _ _)
  | loadClient id a next =>
      simp only [step, loadClient]
      split
      · exact .plain rfl
      · exact .of_or (runSection_innermost _ _ _ _ _ _ _)
  | endClients =>
      simp only [step, snapshot]
      split_ifs
      · exact .plain rfl
      · exact .startEnding rfl rfl
  | endClient ids =>
      cases ids with
      | nil => exact .plain rfl
      | cons id ids =>
          simp only [step, endClient]
          split_ifs
          · exact .ending id ids rfl rfl
          · split
            · exact .plain rfl
            · split_ifs
              · exact .same rfl
              · rcases runSection_innermost _ _ _ _ _ _ _ with h | h
                · exact .ending id ids rfl h
                · exact .plain (by rw [h]; rfl)
  | setOutputBuffers newOutputBuffers =>
      simp only [step]
      rcases s.setOutputBuffers_cases newOutputBuffers with
        h | h | ⟨e, h⟩ | ⟨-, -, -, -, h⟩ <;> rw [h] <;> exact .plain rfl
  | addBuffers canAddPages ids =>
      cases ids <;> simp only [step, addBuffers] <;> split_ifs <;> exact .plain rfl
  | noMoreBuffers next =>
      simp only [step, noMoreBuffers]
      split_ifs
      · exact .same rfl
      · exact .plain rfl
      · exact .same (lend_innermost _ _ _)
  | flushClients =>
      simp only [step]
      split_ifs
      · exact .plain rfl
      · exact .startFlush rfl rfl
  | flushClient flush ids =>
      cases ids with
      | nil => exact .flushed flush rfl rfl
      | cons id ids =>
          simp only [step, flushClient]
          split
          · exact .plain rfl
          · rename_i client hclient
            split_ifs with hdestroyed
            · exact .flushing flush id ids client rfl hclient hdestroyed rfl
            · exact .plain rfl
  | destroy flush =>
      simp only [step, destroy]
      split_ifs
      · exact .plain rfl
      · cases s.type <;> exact .plain rfl
  | destroyMaster =>
      simp only [step, destroyMaster, lend_innermost]
      exact .plain rfl
  | destroyClient ids => cases ids <;> exact .plain rfl
  | _ => exact .plain rfl

/-! ## Flush checks -/

namespace Work

/-- A thread that checks whether the clients are destroyed has found those destroyed that it
does not have on its list, and all of them when it destroys the buffer. -/
structure Checking (s : OutputBuffer δ) (w : Work δ) : Prop where
  flushClient : ∀ flush ids, w.innermost = .flushClient flush ids → ∀ id client,
    s.buffers.get id = some client → client.traced.buffer.destroyed = true ∨ id ∈ ids
  destroy : ∀ flush, w.innermost = .destroy (some flush) → ∀ id client,
    s.buffers.get id = some client → client.traced.buffer.destroyed = true

theorem Checking.of_ne (hflush : ∀ flush ids, w.innermost ≠ .flushClient flush ids)
    (hdestroy : ∀ flush, w.innermost ≠ .destroy (some flush)) : w.Checking s :=
  ⟨fun flush ids hw => absurd hw (hflush flush ids), fun flush hw => absurd hw (hdestroy flush)⟩

theorem Checking.of_plain (h : w.innermost.plain = true) : w.Checking s := by
  refine .of_ne ?_ ?_
  · intro flush ids hw
    rw [hw] at h
    cases h
  · intro flush hw
    rw [hw] at h
    cases h

theorem Checking.congr {v : Work δ} (h : v.Checking s) (hinner : w.innermost = v.innermost) :
    w.Checking s :=
  ⟨fun flush ids hids => h.flushClient flush ids (hinner ▸ hids),
    fun flush hdestroy => h.destroy flush (hinner ▸ hdestroy)⟩

theorem checking_flushClient
    {flush : ℕ} {ids : List ℕ} (h : ∀ id client, s.buffers.get id = some client →
      client.traced.buffer.destroyed = true ∨ id ∈ ids) :
    (flushClient flush ids).Checking s := by
  refine ⟨?_, by rintro _ ⟨⟩⟩
  rintro n others ⟨rfl, rfl⟩
  exact h

/-- The clients stay destroyed, and none is created while the thread has a flush check. -/
theorem Checking.evolves (hw : w.Checking s) (h : s.Evolves s')
    (hcreated : ∀ flush, w.holds (.flush flush) → ∀ id, s.buffers.get id = none →
      s'.buffers.get id = none) :
    w.Checking s' := by
  have hold : ∀ {flush : ℕ}, w.innermost.holds (.flush flush) → ∀ id client,
      s'.buffers.get id = some client →
      ∃ old, s.buffers.get id = some old ∧ old.traced.Extends client.traced := by
    intro flush hflush id client hclient
    cases hget : s.buffers.get id with
    | none =>
        rw [hcreated flush (holds_of_innermost hflush) id hget] at hclient
        cases hclient
    | some old =>
        obtain ⟨client', hclient', hextends⟩ := h.clients id old hget
        rw [hclient, Option.some.injEq] at hclient'
        exact ⟨old, rfl, hclient' ▸ hextends⟩
  refine ⟨?_, ?_⟩
  · intro flush ids hinner id client hclient
    have hflush : w.innermost.holds (.flush flush) := by rw [hinner]; rfl
    obtain ⟨old, hget, hextends⟩ := hold hflush id client hclient
    exact (hw.flushClient flush ids hinner id old hget).imp_left hextends.destroyed
  · intro flush hinner id client hclient
    have hflush : w.innermost.holds (.flush flush) := by rw [hinner]; exact ⟨flush, rfl, rfl⟩
    obtain ⟨old, hget, hextends⟩ := hold hflush id client hclient
    exact hextends.destroyed (hw.destroy flush hinner id old hget)

end Work

/-- A thread with a flush check goes on with it. -/
theorem OutputBuffer.step_checking
    {order : List ℕ} (hchecking : w.Checking s) (hevolves : s.Evolves (s.step order w).1)
    (hcreated : ∀ flush, w.holds (.flush flush) → ∀ id, s.buffers.get id = none →
      (s.step order w).1.buffers.get id = none) :
    (s.step order w).2.Checking (s.step order w).1 := by
  have hown : w.Checking (s.step order w).1 := hchecking.evolves hevolves hcreated
  cases s.step_goesOn order w with
  | same hsame => exact hown.congr hsame
  | plain hplain => exact .of_plain hplain
  | startEnding _ hnext | ending _ _ _ hnext =>
      exact .of_ne (by rw [hnext]; rintro _ _ ⟨⟩) (by rw [hnext]; rintro _ ⟨⟩)
  | startFlush hstart hnext =>
      subst hstart
      have hbuffers : (s.step order .flushClients).1.buffers = s.buffers := by
        simp only [OutputBuffer.step]
        split_ifs <;> rfl
      refine Work.Checking.congr (Work.checking_flushClient ?_) hnext
      intro id client hclient
      rw [hbuffers] at hclient
      exact Or.inr ((s.snapshot_perm order).mem_iff.mpr (s.buffers.mem_ids_of_get hclient))
  | flushing flush id ids client hbefore hclient hdestroyed hnext =>
      subst hbefore
      refine Work.Checking.congr (Work.checking_flushClient ?_) hnext
      intro other entry hentry
      rcases hown.flushClient flush (id :: ids) rfl other entry hentry with hgone | hmem
      · exact Or.inl hgone
      · rcases List.mem_cons.mp hmem with rfl | hrest
        · obtain ⟨entry', hentry', hextends⟩ := hevolves.clients other client hclient
          rw [hentry, Option.some.injEq] at hentry'
          subst hentry'
          exact Or.inl (hextends.destroyed hdestroyed)
        · exact Or.inr hrest
  | flushed flush hbefore hnext =>
      subst hbefore
      refine Work.Checking.congr (v := .destroy (some flush)) ⟨by rintro _ _ ⟨⟩, ?_⟩ hnext
      intro n _ id client hclient
      exact (hown.flushClient flush [] rfl id client hclient).resolve_right List.not_mem_nil

end Presto.Execution.Buffer
