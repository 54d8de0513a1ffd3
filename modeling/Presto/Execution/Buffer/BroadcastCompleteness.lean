import Mathlib.Data.List.Flatten
import Presto.Execution.Buffer.EnqueueCalls

/-!
# Completeness of broadcast buffers

Every client of a broadcast buffer is handed the pages of every `enqueue` that has finished,
whenever the client was created: a client that exists when the pages are remembered is in the
snapshot that the `enqueue` delivers to, a later one starts with the remembered pages.  This
depends on `setNoMorePages` not overtaking an `enqueue` that has already seen that pages can
be added.
-/

namespace Presto.Execution.Buffer

open EnqueueCall OutputBuffer EnqueueStage List

variable {δ : Type*} {s s' : OutputBuffer δ} {w : Work δ} {sequential : Prop}

/-! ## What the calls have handed over -/

namespace EnqueueStage

/-- The call has not handed its pages to the client yet. -/
def awaits (id : ℕ) : EnqueueStage → Bool
  | .tested | .created | .abandoned => true
  | .delivering ids => id ∈ ids
  | .handedOver => false

/-- The pages of the call are not remembered for new clients yet. -/
def unremembered : EnqueueStage → Bool
  | .tested | .created | .abandoned => true
  | .delivering _ | .handedOver => false

end EnqueueStage

namespace EnqueueCall

/-- The pages that the call has handed to a client. -/
def handedTo (id : ℕ) (e : EnqueueCall δ) : List (SerializedPageReference δ) :=
  if e.stage.awaits id then [] else e.references

/-- The pages that the call has left for new clients. -/
def remembered (e : EnqueueCall δ) : List (SerializedPageReference δ) :=
  if e.stage.unremembered then [] else e.references

end EnqueueCall

/-- The invariant of a broadcast buffer. -/
structure Broadcasting (sequential : Prop) (s : OutputBuffer δ) : Prop where
  type : s.type = .broadcast
  calls : Enqueued sequential s
  snapshots : ∀ e ∈ s.enqueues, ∀ ids, e.stage = .delivering ids →
    ids.Nodup ∧ ∀ id ∈ ids, id ∈ s.buffers.ids
  kept : ∀ e ∈ s.enqueues, e.stage ≠ .abandoned
  remembered : s.state.canAddBuffers = true →
    Handed sequential s.initialPagesForNewBuffers (s.enqueues.flatMap remembered)
  handed : s.state.isTerminal = false → ∀ id client, s.buffers.get id = some client →
    client.traced.buffer.destroyed = false →
    Handed sequential client.traced.added (s.enqueues.flatMap (handedTo id))
  closed : s.state.isTerminal = false → s.state.canAddBuffers = false →
    s.outputBuffers.noMoreBufferIds = true
  ended : s.state.isTerminal = false → ∀ id client, s.buffers.get id = some client →
    client.traced.buffer.destroyed = false → client.traced.buffer.noMorePages = true →
    s.state.canAddPages = false
  settled : s.state.isTerminal = false → s.state.canAddPages = false →
    ∀ e ∈ s.enqueues, e.stage.inProgress = false
  declared : s.state.isTerminal = false → s.endsDeclared = true →
    s.state.canAddPages = false ∧ ∀ id client, s.buffers.get id = some client →
      client.traced.buffer.destroyed = false → client.traced.buffer.noMorePages = true
  waiting : ∀ id client, s.buffers.get id = some client →
    client.traced.buffer.noMorePages = true → client.traced.buffer.pendingRead = none

variable {a : Activity δ}

/-- A buffer that is not arbitrary runs no section that adds pages outside of its loops. -/
theorem Activity.Permitted.referenced_eq_nil
    (ha : a.Permitted s) (htype : s.type ≠ .arbitrary) (supply : Supply δ) (t : Traced δ) :
    a.loadSize = none ∧ a.referenced supply t = [] := by
  cases a with
  | enqueuePagesLocked pages => exact ha.elim
  | loadPages _ _ | loadPendingPages _ => exact absurd ha htype
  | _ => exact ⟨rfl, rfl⟩

namespace OutputBuffer

/-- A new client of a broadcast buffer that is not terminal has the remembered pages and is
ended exactly when no more pages come. -/
theorem broadcastClient_spec (s : OutputBuffer δ) (h : s.state.isTerminal = false) :
    s.broadcastClient.added = s.initialPagesForNewBuffers ∧
      s.broadcastClient.buffer.destroyed = false ∧
      s.broadcastClient.buffer.noMorePages = !s.state.canAddPages := by
  have hfailed : s.state ≠ .failed := fun heq => by rw [heq] at h; cases h
  have hfinished : s.state ≠ .finished := fun heq => by rw [heq] at h; cases h
  cases hpages : s.state.canAddPages <;>
    simp [broadcastClient, hfailed, hfinished, hpages, Traced.enqueuePages, Traced.setNoMorePages,
      Traced.create, ClientBuffer.enqueuePagesLocked, ClientBuffer.setNoMorePagesLocked,
      ClientBuffer.create, ClientBuffer.addPages]

theorem broadcastClient_pendingRead (s : OutputBuffer δ) :
    s.broadcastClient.buffer.pendingRead = none := by
  simp only [broadcastClient]
  split_ifs <;>
    simp [Traced.enqueuePages, Traced.setNoMorePages, Traced.destroy, Traced.create,
      ClientBuffer.enqueuePagesLocked, ClientBuffer.setNoMorePagesLocked,
      ClientBuffer.destroyLocked, ClientBuffer.create, ClientBuffer.addPages]

end OutputBuffer

/-! ## What the steps keep -/

namespace Broadcasting

/-- The fields that say what is added and ended. -/
abbrev status (s : OutputBuffer δ) := (s.type, s.state, s.outputBuffers, s.endsDeclared)

variable (h : Broadcasting sequential s)

include h

/-- The invariant reads only what the buffer holds. -/
theorem frame (hsame : s'.holdings = s.holdings) : Broadcasting sequential s' := by
  obtain ⟨type, taskInstanceId, state, outputBuffers, buffers, locked, initialPages, masterBuffer,
    masterNoMorePages, nextClientBufferIndex, pageTracker, created, enqueues, handed, taken, loans,
    flushes, endsDeclared, thrown⟩ := s'
  simp only [Prod.mk.injEq] at hsame
  obtain ⟨rfl, rfl, rfl, rfl, rfl, rfl, rfl, rfl, rfl, rfl, rfl, rfl⟩ := hsame
  exact { h with calls := h.calls.frame rfl rfl }

/-- What the invariant says of one client in the state of the buffer. -/
structure Follows (s : OutputBuffer δ) (client : Client δ) : Prop where
  ended : s.state.isTerminal = false → client.traced.buffer.destroyed = false →
    client.traced.buffer.noMorePages = true → s.state.canAddPages = false
  declared : s.state.isTerminal = false → s.endsDeclared = true →
    client.traced.buffer.destroyed = false → client.traced.buffer.noMorePages = true
  waiting : client.traced.buffer.noMorePages = true → client.traced.buffer.pendingRead = none

variable {client : Client δ}

/-- A client goes on. -/
theorem follows {id : ℕ} {before : Client δ} (hbefore : s.buffers.get id = some before)
    (hextends : before.traced.Extends client.traced)
    (hended : client.traced.buffer.destroyed = false →
      client.traced.buffer.noMorePages = true →
      before.traced.buffer.noMorePages = true ∨ s.state.canAddPages = false)
    (hwaiting : client.traced.buffer.noMorePages = true →
      client.traced.buffer.pendingRead = none) :
    Follows s client := by
  refine ⟨?_, ?_, hwaiting⟩
  · intro hterminal hdestroyed hno
    rcases hended hdestroyed hno with hno | hclosed
    · exact h.ended hterminal id before hbefore (hextends.alive hdestroyed) hno
    · exact hclosed
  · intro hterminal hdeclared hdestroyed
    exact (hextends.noMorePages ((h.declared hterminal hdeclared).2 id before hbefore
      (hextends.alive hdestroyed))).1

theorem follows_self {id : ℕ}
    (hclient : s.buffers.get id = some client) : Follows s client :=
  h.follows hclient (.refl _) (fun _ hno => Or.inl hno) (h.waiting id client hclient)

section Calls

variable (hstatus : status s' = status s) (hcalls : Enqueued sequential s')
  (hmem : ∀ id ∈ s.buffers.ids, id ∈ s'.buffers.ids)
  (hremembered : s.state.canAddBuffers = true →
    Handed sequential s'.initialPagesForNewBuffers (s'.enqueues.flatMap EnqueueCall.remembered))
  (hhanded : s.state.isTerminal = false → ∀ id client, s'.buffers.get id = some client →
    client.traced.buffer.destroyed = false →
    Handed sequential client.traced.added (s'.enqueues.flatMap (EnqueueCall.handedTo id)))
  (hclients : ∀ id client, s'.buffers.get id = some client → Follows s client)

include hstatus hcalls hmem hremembered hhanded hclients

/-- The status of the buffer stays, and its calls and clients go on. -/
theorem of_status
    (hsnapshots : ∀ e ∈ s'.enqueues, ∀ ids, e.stage = .delivering ids →
      ids.Nodup ∧ ∀ id ∈ ids, id ∈ s.buffers.ids)
    (hkept : ∀ e ∈ s'.enqueues, e.stage ≠ .abandoned)
    (hsettled : s.state.isTerminal = false → s.state.canAddPages = false →
      ∀ e ∈ s'.enqueues, e.stage.inProgress = false) :
    Broadcasting sequential s' := by
  simp only [Prod.mk.injEq] at hstatus
  obtain ⟨htype, hstate, hids, hends⟩ := hstatus
  refine ⟨htype.trans h.type, hcalls, ?_, hkept, by rw [hstate]; exact hremembered,
    by rw [hstate]; exact hhanded, by rw [hstate, hids]; exact h.closed, ?_,
    by rw [hstate]; exact hsettled, ?_,
    fun id client hclient => (hclients id client hclient).waiting⟩
  · intro e he ids hdelivering
    obtain ⟨hnodup, hknown⟩ := hsnapshots e he ids hdelivering
    exact ⟨hnodup, fun id hid => hmem id (hknown id hid)⟩
  · rw [hstate]
    exact fun hterminal id client hclient => (hclients id client hclient).ended hterminal
  · rw [hstate, hends]
    intro hterminal hdeclared
    exact ⟨(h.declared hterminal hdeclared).1,
      fun id client hclient => (hclients id client hclient).declared hterminal hdeclared⟩

variable {call : ℕ}

/-- A call in progress changes its entry. -/
theorem of_call {old entry : EnqueueCall δ}
    (hold : s.enqueues[call]? = some old) (hprogress : old.stage.inProgress = true)
    (henqueues : s'.enqueues = s.enqueues.set call entry) (hkept : entry.stage ≠ .abandoned)
    (hsnapshot : ∀ ids, entry.stage = .delivering ids →
      ids.Nodup ∧ ∀ id ∈ ids, id ∈ s.buffers.ids) :
    Broadcasting sequential s' := by
  have hcases : ∀ e ∈ s'.enqueues, e = entry ∨ e ∈ s.enqueues := by
    intro e he
    rw [henqueues] at he
    exact (mem_or_eq_of_mem_set he).symm
  refine h.of_status hstatus hcalls hmem hremembered hhanded hclients ?_ ?_ ?_
  · intro e he
    rcases hcases e he with rfl | hkeep
    · exact hsnapshot
    · exact h.snapshots e hkeep
  · intro e he
    rcases hcases e he with rfl | hkeep
    · exact hkept
    · exact h.kept e hkeep
  · intro hterminal hclosed
    rw [h.settled hterminal hclosed old (mem_of_getElem? hold)] at hprogress
    cases hprogress

end Calls

variable {state : BufferState}

/-- The state of the buffer moves on. -/
theorem setState (hlater : s.state.Later state)
    (hclosed : state.isTerminal = false → state.canAddBuffers = false →
      s.outputBuffers.noMoreBufferIds = true)
    (hsettled : state.isTerminal = false → state.canAddPages = false →
      ∀ e ∈ s.enqueues, e.stage.inProgress = false) :
    Broadcasting sequential (s.setState state) := by
  have halive : state.isTerminal = false → s.state.isTerminal = false := hlater.not_isTerminal
  refine ⟨h.type, h.calls.frame rfl rfl, h.snapshots, h.kept, ?_,
    fun hstate => h.handed (halive hstate), hclosed, ?_, hsettled, ?_, h.waiting⟩
  · intro hadd
    refine h.remembered ?_
    by_contra hno
    have hclosed' : state.canAddBuffers = false := hlater.canAddBuffers (by simpa using hno)
    rw [show state.canAddBuffers = true from hadd] at hclosed'
    cases hclosed'
  · intro hstate id client hclient hdestroyed hno
    exact hlater.canAddPages (h.ended (halive hstate) id client hclient hdestroyed hno)
  · intro hstate hends
    obtain ⟨hpages, hclients⟩ := h.declared (halive hstate) hends
    exact ⟨hlater.canAddPages hpages, hclients⟩

theorem terminal (hstate : s.state.isTerminal = false) (hterminal : state.isTerminal = true) :
    Broadcasting sequential (s.setState state) := by
  refine h.setState (BufferState.later_of_terminal hstate hterminal) ?_ ?_ <;>
    · intro halive
      rw [hterminal] at halive
      cases halive

/-- A section that hands no page to its client. -/
theorem section_kept {id : ℕ} {old : Client δ}
    (hold : s.buffers.get id = some old) (hbuffers : s'.buffers = s.buffers.set id client)
    (hsame : (status s', s'.created, s'.enqueues, s'.initialPagesForNewBuffers) =
      (status s, s.created, s.enqueues, s.initialPagesForNewBuffers))
    (hextends : old.traced.Extends client.traced)
    (hadded : client.traced.added = old.traced.added) (hclient : Follows s client) :
    Broadcasting sequential s' := by
  have hstatus : status s' = status s := congrArg Prod.fst hsame
  simp only [Prod.mk.injEq] at hsame
  obtain ⟨-, hcreated, henqueues, hinitial⟩ := hsame
  have hcases : ∀ other entry, s'.buffers.get other = some entry →
      other = id ∧ entry = client ∨ s.buffers.get other = some entry := by
    intro other entry hentry
    rw [hbuffers] at hentry
    exact (s.buffers.get_set_cases client hentry).imp_right And.right
  refine h.of_status hstatus (h.calls.frame henqueues hcreated) ?_
    (by rw [hinitial, henqueues]; exact h.remembered) ?_ ?_ (henqueues ▸ h.snapshots)
    (henqueues ▸ h.kept) (henqueues ▸ h.settled)
  · intro other hother
    rw [hbuffers, s.buffers.mem_ids_set]
    exact Or.inr hother
  · rw [henqueues]
    intro hterminal other entry hentry hdestroyed
    rcases hcases other entry hentry with ⟨rfl, rfl⟩ | hkept
    · rw [hadded]
      exact h.handed hterminal other old hold (hextends.alive hdestroyed)
    · exact h.handed hterminal other entry hkept hdestroyed
  · intro other entry hentry
    rcases hcases other entry hentry with ⟨rfl, rfl⟩ | hkept
    · exact hclient
    · exact h.follows_self hkept

/-- A new call has handed over nothing. -/
theorem appendCall (hpages : s.state.canAddPages = true)
    (hothers : sequential → ∀ e ∈ s.enqueues, e.stage.inProgress = false) :
    Broadcasting sequential { s with enqueues := s.enqueues ++ [⟨[], .tested⟩] } := by
  have hcases : ∀ e ∈ s.enqueues ++ [⟨[], .tested⟩], e ∈ s.enqueues ∨ e = ⟨[], .tested⟩ := by
    intro e he
    simpa using he
  refine ⟨h.type, h.calls.append hothers rfl rfl, ?_, ?_, ?_, ?_, h.closed, h.ended, ?_,
    h.declared, h.waiting⟩
  · intro e he
    rcases hcases e he with hkeep | rfl
    · exact h.snapshots e hkeep
    · intro ids hids
      cases hids
  · intro e he
    rcases hcases e he with hkeep | rfl
    · exact h.kept e hkeep
    · exact nofun
  · intro hadd
    simpa [EnqueueCall.remembered] using h.remembered hadd
  · intro hterminal id client hclient hdestroyed
    simpa [EnqueueCall.handedTo] using
      h.handed hterminal id client hclient hdestroyed
  · intro _ hclosed
    rw [show s.state.canAddPages = false from hclosed] at hpages
    cases hpages

/-- The references of a call are created. -/
theorem reservePages (hold : s.enqueues[call]? = some ⟨[], .tested⟩)
    (lifespan : Lifespan) (pages : List (SerializedPage δ)) :
    Broadcasting sequential (s.reservePages call lifespan
      (newReferences s.created lifespan pages) .created) := by
  refine h.of_call rfl (h.calls.reserve hold lifespan pages .created) (fun _ hid => hid) ?_ ?_
    (fun _ _ => h.follows_self) hold rfl rfl nofun nofun
  · intro hadd
    exact (h.remembered hadd).set hold rfl
  · intro hterminal id client hclient hdestroyed
    exact (h.handed hterminal id client hclient hdestroyed).set hold rfl

variable {references : List (SerializedPageReference δ)}

/-- The pages of a call are remembered for new clients, and the existing ones listed. -/
theorem rememberPages (hold : s.enqueues[call]? = some ⟨references, .created⟩) (order : List ℕ) :
    Broadcasting sequential (s.rememberPages call references order).1 := by
  have hsnapshot := s.snapshot_perm order
  have hcall : ∀ s' : OutputBuffer δ,
      s'.enqueues = s.enqueues.set call ⟨references, .delivering (s.safeGetBuffersSnapshot order)⟩ →
      status s' = status s → s'.created = s.created → s'.buffers = s.buffers →
      (s.state.canAddBuffers = true →
        s'.initialPagesForNewBuffers = s.initialPagesForNewBuffers ++ references) →
      Broadcasting sequential s' := by
    intro s' henqueues hstatus hcreated hbuffers hinitial
    refine h.of_call hstatus (h.calls.set hold rfl henqueues rfl hcreated)
      (fun id hid => hbuffers ▸ hid) ?_ ?_
      (fun _ _ hclient => h.follows_self (hbuffers ▸ hclient)) hold rfl henqueues
      nofun ?_
    · intro hadd
      rw [henqueues, hinitial hadd]
      exact (h.remembered hadd).append
        ⟨references, .delivering (s.safeGetBuffersSnapshot order)⟩ hold rfl
        fun hsequential => h.calls.last hsequential call _ hold rfl
    · intro hterminal id client hclient hdestroyed
      rw [hbuffers] at hclient
      rw [henqueues]
      refine (h.handed hterminal id client hclient hdestroyed).set hold ?_
      have hmem : id ∈ s.safeGetBuffersSnapshot order :=
        hsnapshot.mem_iff.mpr (s.buffers.mem_ids_of_get hclient)
      simp [handedTo, awaits, hmem]
    · rintro ids ⟨rfl⟩
      exact ⟨hsnapshot.nodup_iff.mpr s.buffers.nodup, fun id hid => hsnapshot.mem_iff.mp hid⟩
  simp only [OutputBuffer.rememberPages]
  by_cases hadd : (s.setCall call
      ⟨references, .delivering (s.safeGetBuffersSnapshot order)⟩).state.canAddBuffers = true
  · rw [if_pos hadd]
    exact hcall _ rfl rfl rfl rfl fun _ => rfl
  · rw [if_neg hadd]
    exact hcall _ rfl rfl rfl rfl fun h => absurd h hadd

/-- A call has handed its pages to the last client of its snapshot. -/
theorem handOver (hold : s.enqueues[call]? = some ⟨references, .delivering []⟩) :
    Broadcasting sequential (s.setCall call ⟨references, .handedOver⟩) := by
  refine h.of_call rfl (h.calls.set hold rfl rfl rfl rfl) (fun _ hid => hid) ?_ ?_
    (fun _ _ => h.follows_self) hold rfl rfl nofun nofun
  · intro hadd
    exact (h.remembered hadd).set hold rfl
  · intro hterminal id client hclient hdestroyed
    refine (h.handed hterminal id client hclient hdestroyed).set hold ?_
    simp [handedTo, awaits]

variable {e : EnqueueCall δ}

/-- A client that a call delivers to is still open. -/
theorem open_of_inProgress (he : e ∈ s.enqueues) (hin : e.stage.inProgress = true)
    (hterminal : s.state.isTerminal = false) {id : ℕ} (hclient : s.buffers.get id = some client)
    (hdestroyed : client.traced.buffer.destroyed = false) :
    client.traced.buffer.noMorePages = false := by
  by_contra hno
  have hclosed := h.ended hterminal id client hclient hdestroyed (by simpa using hno)
  rw [h.settled hterminal hclosed e he] at hin
  cases hin

variable {ids : List ℕ}

/-- The next client of a snapshot gets the pages of the call. -/
theorem deliver (hs : s.Sound) {id : ℕ}
    (hold : s.enqueues[call]? = some ⟨references, .delivering (id :: ids)⟩)
    (hclient : s.buffers.get id = some client) :
    Broadcasting sequential ((s.setCall call ⟨references, .delivering ids⟩).withSection id client
      none (.enqueuePagesLocked references) ⟨[], true⟩) := by
  have hmem : (⟨references, .delivering (id :: ids)⟩ : EnqueueCall δ) ∈ s.enqueues :=
    mem_of_getElem? hold
  obtain ⟨hnodup, hknown⟩ := h.snapshots _ hmem _ rfl
  obtain ⟨hnot, hnodup'⟩ := nodup_cons.mp hnodup
  have hconsistent := hs.consistent id client hclient
  have heffect : Activity.Effect (.enqueuePagesLocked references) ⟨[], true⟩ client.traced
      (act (.enqueuePagesLocked references) ⟨[], true⟩ client.traced).1 :=
    Activity.act_effect hconsistent trivial
  obtain ⟨hextends, -, -⟩ := act_spec (a := .enqueuePagesLocked references) hconsistent trivial
    ⟨[], true⟩
  refine h.of_call rfl (h.calls.set hold rfl rfl rfl rfl) ?_ ?_ ?_ ?_ hold rfl rfl
    nofun ?_
  · intro other hother
    exact (s.buffers.mem_ids_set _).mpr (Or.inr hother)
  · intro hadd
    exact (h.remembered hadd).set hold rfl
  · intro hterminal other entry hentry hdestroyed
    rcases s.buffers.get_set_cases _ hentry with ⟨rfl, rfl⟩ | ⟨hne, hkept⟩
    · have halive := hextends.alive hdestroyed
      have hopen := h.open_of_inProgress hmem rfl hterminal hclient halive
      have hadded := heffect.added
      rw [Activity.referenced, hopen] at hadded
      refine (congrArg (Handed sequential · _) hadded).mpr ?_
      have hhanded :
          (⟨references, .delivering ids⟩ : EnqueueCall δ).handedTo other = references := by
        simp [handedTo, awaits, hnot]
      have happend := (h.handed hterminal other client hclient halive).append
        ⟨references, .delivering ids⟩ hold
        (by simp [handedTo, awaits])
        fun hsequential => h.calls.last hsequential call _ hold rfl
      rwa [hhanded] at happend
    · refine (h.handed hterminal other entry hkept hdestroyed).set hold ?_
      simp [handedTo, awaits, hne]
  · intro other entry hentry
    rcases s.buffers.get_set_cases _ hentry with ⟨rfl, rfl⟩ | ⟨-, hkept⟩
    · refine h.follows hclient hextends ?_ (heffect.waiting rfl (h.waiting other client hclient))
      intro _ hno
      rcases heffect.noMorePages hno with hbefore | heq | heq | ⟨hload, -⟩
      · exact Or.inl hbefore
      · cases heq
      · cases heq
      · cases hload
    · exact h.follows_self hkept
  · rintro others ⟨rfl⟩
    exact ⟨hnodup', fun other hother => hknown other (mem_cons_of_mem id hother)⟩

/-- A client created by `getBuffer` starts with the remembered pages. -/
theorem create {id : ℕ} (hnew : s.buffers.get id = none) (hmay : s.mayCreateBuffer = true) :
    Broadcasting sequential (s.withBroadcastClient id) := by
  have hadd : s.state.isTerminal = false → s.state.canAddBuffers = true := by
    intro hterminal
    by_contra hno
    have hclosed : s.state.canAddBuffers = false := by simpa using hno
    simp [mayCreateBuffer, hclosed, h.closed hterminal hclosed] at hmay
  have hunknown : id ∉ s.buffers.ids := by
    intro hid
    obtain ⟨client, hclient⟩ := s.buffers.exists_get_of_mem hid
    rw [hnew] at hclient
    cases hclient
  -- no snapshot lists the new client, so each call has handed it what it has remembered
  have hremembered : s.enqueues.flatMap (EnqueueCall.handedTo id) =
      s.enqueues.flatMap EnqueueCall.remembered := by
    refine flatMap_congr fun e he => ?_
    simp only [EnqueueCall.handedTo, EnqueueCall.remembered]
    cases hstage : e.stage with
    | delivering ids =>
        have hnot : id ∉ ids := fun hid => hunknown ((h.snapshots e he ids hstage).2 id hid)
        simp [awaits, unremembered, hnot]
    | _ => rfl
  refine h.of_status rfl (h.calls.frame rfl rfl)
    (fun other hother => (s.buffers.mem_ids_set _).mpr (Or.inr hother)) h.remembered ?_ ?_
    h.snapshots h.kept h.settled
  · intro hterminal other entry hentry hdestroyed
    rcases s.buffers.get_set_cases _ hentry with ⟨rfl, rfl⟩ | ⟨-, hkept⟩
    · have hhanded := h.remembered (hadd hterminal)
      rw [← hremembered] at hhanded
      exact (s.broadcastClient_spec hterminal).1 ▸ hhanded
    · exact h.handed hterminal other entry hkept hdestroyed
  · intro other entry hentry
    rcases s.buffers.get_set_cases _ hentry with ⟨rfl, rfl⟩ | ⟨-, hkept⟩
    · refine ⟨?_, ?_, fun _ => s.broadcastClient_pendingRead⟩
      · intro hterminal _ hno
        simpa using (s.broadcastClient_spec hterminal).2.2.symm.trans hno
      · intro hterminal hdeclared _
        refine (s.broadcastClient_spec hterminal).2.2.trans ?_
        rw [(h.declared hterminal hdeclared).1]
        rfl
    · exact h.follows_self hkept

/-- A section of a client outside of the loops over the clients. -/
theorem withSection (hs : s.Sound) {id : ℕ}
    (hclient : s.buffers.get id = some client) (ha : a.Valid client.traced)
    (hpermitted : a.Permitted s) (loading : Option (List (SerializedPageReference δ)))
    (supply : Supply δ) : Broadcasting sequential (s.withSection id client loading a supply) := by
  have hconsistent := hs.consistent id client hclient
  have heffect : a.Effect supply client.traced (act a supply client.traced).1 :=
    Activity.act_effect hconsistent ha
  obtain ⟨hextends, -, -⟩ := act_spec hconsistent ha supply
  have htype : s.type ≠ .arbitrary := by rw [h.type]; decide
  obtain ⟨hload, hreferenced⟩ := hpermitted.referenced_eq_nil htype supply client.traced
  refine h.section_kept hclient rfl rfl hextends ?_
    (h.follows hclient hextends ?_ (heffect.waiting hload (h.waiting id client hclient)))
  · rw [heffect.added, hreferenced, append_nil]
  · intro hdestroyed hno
    rcases heffect.noMorePages hno with hbefore | rfl | rfl | ⟨hsize, -⟩
    · exact Or.inl hbefore
    · exact Or.inr hpermitted.2
    · cases hdestroyed
    · rw [hload] at hsize
      cases hsize

theorem setOutputBuffers {newOutputBuffers : OutputBuffers}
    (hcheck : s.outputBuffers.checkValidTransition newOutputBuffers = .ok ()) :
    Broadcasting sequential { s with outputBuffers := newOutputBuffers, locked := true } :=
  { h with
    calls := h.calls.frame rfl rfl
    closed := fun hterminal hclosed =>
      OutputBuffers.noMoreBufferIds_of_checkValidTransition hcheck (h.closed hterminal hclosed) }

theorem forgetPages (hclosed : s.state.canAddBuffers = false) :
    Broadcasting sequential s.forgetPages := by
  rw [OutputBuffer.forgetPages, if_pos h.type]
  refine { h with calls := h.calls.frame rfl rfl, remembered := ?_ }
  intro hadd
  rw [show s.state.canAddBuffers = true from hadd] at hclosed
  cases hclosed

theorem lend (pages : List (SerializedPageReference δ)) (next : Work δ) :
    Broadcasting sequential (s.lend pages next).1 := by
  rw [OutputBuffer.lend]
  split_ifs <;> exact h.frame rfl

end Broadcasting

/-! ## Steps of a broadcast buffer -/

namespace Work

/-- A thread that tells the clients one after the other that no more pages come has told
those that it does not have on its list. -/
def Ending (s : OutputBuffer δ) (w : Work δ) : Prop :=
  ∀ ids, w.innermost = .endClient ids → s.state.canAddPages = false ∧
    (s.state.isTerminal = false → ∀ id client, s.buffers.get id = some client →
      client.traced.buffer.destroyed = false →
      client.traced.buffer.noMorePages = true ∨ id ∈ ids)

theorem Ending.evolves (hw : w.Ending s) (h : s.Evolves s')
    (hcreated : s.state.canAddPages = false → s'.state.isTerminal = false → ∀ id client,
      s.buffers.get id = none → s'.buffers.get id = some client →
      client.traced.buffer.noMorePages = true) :
    w.Ending s' := by
  intro ids hids
  obtain ⟨hclosed, hended⟩ := hw ids hids
  refine ⟨h.canAddPages hclosed, ?_⟩
  intro hterminal id client hclient hdestroyed
  have hbefore : s.state.isTerminal = false := h.not_isTerminal hterminal
  cases hold : s.buffers.get id with
  | none => exact Or.inl (hcreated hclosed hterminal id client hold hclient)
  | some old =>
      obtain ⟨client', hclient', hextends⟩ := h.clients id old hold
      rw [hclient, Option.some.injEq] at hclient'
      subst hclient'
      refine (hended hbefore id old hold (hextends.alive hdestroyed)).imp_left ?_
      exact fun hno => (hextends.noMorePages hno).1

end Work

namespace Broadcasting

variable (h : Broadcasting sequential s)

include h

theorem endClient (hs : s.Sound)
    (hw : (Work.endClient ids).Valid s) (hending : (Work.endClient ids).Ending s) :
    Broadcasting sequential (s.endClient ids).1 := by
  have htype : s.type ≠ .arbitrary := by rw [h.type]; decide
  cases ids with
  | nil =>
      refine { h with calls := h.calls.frame rfl rfl, declared := ?_ }
      intro hterminal _
      obtain ⟨hclosed, hended⟩ := hending [] rfl
      refine ⟨hclosed, ?_⟩
      intro id client hclient hdestroyed
      exact (hended hterminal id client hclient hdestroyed).resolve_right not_mem_nil
  | cons id ids =>
      obtain ⟨client, hclient⟩ := s.buffers.exists_get_of_mem (hw.2.2 id mem_cons_self)
      simp only [OutputBuffer.endClient, if_neg htype, hclient]
      split_ifs
      · exact h
      · exact (h.withSection hs hclient (a := .setNoMorePagesLocked) trivial ⟨htype, hw.1⟩ none
          ⟨[], true⟩).lend _ _

/-- What `getBuffer` does to a broadcast buffer. -/
theorem getBuffer (held : Bool) (id : ℕ) (activity : Option (Activity δ)) (next : Work δ) :
    Broadcasting sequential (s.getBuffer held id activity next).1 := by
  rcases s.getBuffer_cases held id activity next with
    ⟨-, -, heq⟩ | heq | ⟨-, -, heq⟩ | ⟨hnew, -, ⟨-, heq⟩ | ⟨-, -, heq⟩ | ⟨-, -, hmay, heq⟩⟩ <;>
    rw [heq]
  · exact h.frame rfl
  · exact h
  · exact h
  · exact h.frame rfl
  · exact h.frame rfl
  · exact h.create hnew hmay

/-- The steps of `setNoMorePages` and `setOutputBuffers` on the state. -/
theorem compareAndSet {expected new : BufferState}
    (hlater : s.state.Later (s.state.compareAndSet expected new))
    (hclosed : s.state = expected → new.canAddBuffers = false →
      s.outputBuffers.noMoreBufferIds = true)
    (hsettled : s.state = expected → new.canAddPages = false →
      ∀ e ∈ s.enqueues, e.stage.inProgress = false) :
    Broadcasting sequential (s.setState (s.state.compareAndSet expected new)) := by
  by_cases hstate : s.state = expected
  · have hnew : s.state.compareAndSet expected new = new := if_pos hstate
    rw [hnew] at hlater ⊢
    exact h.setState hlater (fun _ => hclosed hstate) fun _ => hsettled hstate
  · have hsame : s.state.compareAndSet expected new = s.state := if_neg hstate
    rw [hsame]
    exact h.setState (.refl _) h.closed h.settled

/-- Every step keeps the invariant, as long as `setNoMorePages` overtakes no `enqueue`. -/
theorem step (hs : s.Sound) (hw : w.Valid s) (hending : w.Ending s)
    (hquiet : w.endsQuietly s = true) (hafter : sequential → w.startsAfterOthers s = true)
    (order : List ℕ) : Broadcasting sequential (s.step order w).1 := by
  have htype : s.type ≠ .arbitrary := by rw [h.type]; decide
  obtain ⟨hnoMorePages, hflushing, hnoMoreBuffers, hflushing'⟩ := s.state.later_compareAndSet
  by_cases hlooks : w.looksOn = true
  · exact h.frame (step_looksOn hlooks order)
  cases w with
  | enqueue lifespan partition pages =>
      simp only [step, enqueue]
      split_ifs with hcallback hclosed
      · exact h.frame rfl
      · exact h
      · have hpages : s.state.canAddPages = true := by
          by_contra hno
          exact hclosed (by simp [hno])
        exact h.appendCall hpages fun hsequential =>
          enqueuesDone_iff.mp (hafter hsequential)
  | enqueueTested call lifespan partition pages =>
      simp only [step, enqueueTested, h.type]
      exact h.reservePages hw lifespan pages
  | rememberPages call references =>
      simp only [step]
      split_ifs
      · exact h
      · exact h.rememberPages hw.2 order
  | deliver call references ids =>
      cases ids with
      | nil => exact (h.handOver hw.2).frame rfl
      | cons id ids =>
          have hmem := (h.snapshots _ (mem_of_getElem? hw.2) _ rfl).2 id mem_cons_self
          obtain ⟨client, hclient⟩ := s.buffers.exists_get_of_mem hmem
          simp only [step, OutputBuffer.deliver, hclient]
          split_ifs
          · exact h
          · exact (h.deliver hs hw.2 hclient).lend _ _
  | addToMaster _ _ | masterNoMorePages | destroyMaster => exact absurd hw.1 htype
  | getBuffer held id activity next => exact h.getBuffer held id activity next
  | newBuffer held id activity next => exact absurd hw.2.1 htype
  | inClient id a next =>
      obtain ⟨⟨client, hclient, ha⟩, hpermitted, -⟩ := hw
      obtain ⟨hload, -⟩ := hpermitted.referenced_eq_nil htype ⟨[], true⟩ client.traced
      simp only [step, inClient, hclient, hload]
      split_ifs
      · exact h
      · exact (h.withSection hs hclient ha hpermitted client.loading ⟨[], true⟩).lend _ _
  | loadClient id a next =>
      obtain ⟨⟨client, -, -⟩, hpermitted, hsize, -⟩ := hw
      rw [(hpermitted.referenced_eq_nil htype ⟨[], true⟩ client.traced).1] at hsize
      cases hsize
  | setNoMorePages =>
      refine h.compareAndSet hnoMorePages (by rintro _ ⟨⟩) ?_
      intro hopen _
      refine enqueuesDone_iff.mp ?_
      simpa [Work.endsQuietly, hopen] using hquiet
  | setNoMorePagesAgain =>
      refine h.compareAndSet hflushing ?_ ?_
      · intro hstate _
        exact h.closed (by rw [hstate]; rfl) (by rw [hstate]; rfl)
      · intro hstate _
        refine enqueuesDone_iff.mp ?_
        simpa [Work.endsQuietly, hstate] using hquiet
  | endClient ids => exact h.endClient hs hw hending
  | setOutputBuffers newOutputBuffers =>
      simp only [step]
      rcases s.setOutputBuffers_cases newOutputBuffers with
        heq | heq | ⟨e, heq⟩ | ⟨-, -, -, hcheck, heq⟩ <;> rw [heq]
      · exact h
      · exact h
      · exact h.frame rfl
      · exact h.setOutputBuffers hcheck
  | noMoreBuffersOpen => exact h.compareAndSet hnoMoreBuffers (fun _ _ => hw) (by rintro _ ⟨⟩)
  | noMoreBuffersNoMorePages =>
      have hmoved : Broadcasting sequential
          (s.setState (s.state.compareAndSet .noMorePages .flushing)) := by
        refine h.compareAndSet hflushing' (fun _ _ => hw.1) ?_
        intro hstate _
        exact h.settled (by rw [hstate]; rfl) (by rw [hstate]; rfl)
      exact hmoved.frame rfl
  | noMoreBuffers next =>
      simp only [step, noMoreBuffers]
      split_ifs
      · exact h
      · exact (h.forgetPages hw.1).frame rfl
      · exact (h.forgetPages hw.1).lend _ _
  | destroy flush =>
      have hended : Broadcasting sequential (s.endFlush flush) := by
        cases flush with
        | none => exact h
        | some n => exact h.frame rfl
      have hstate : (s.endFlush flush).state = s.state := by cases flush <;> rfl
      simp only [step, destroy]
      split_ifs with hterminal
      · exact hended
      · exact hended.terminal (by simpa [hstate] using hterminal) rfl
  | fail =>
      simp only [step, fail]
      split_ifs with hterminal
      · exact h
      · exact (h.terminal (by simpa using hterminal) rfl).frame rfl
  | _ => exact absurd rfl hlooks

variable {order : List ℕ}

/-- A client created after the end of the pages is ended. -/
theorem noMorePages_of_created (hw : w.Valid s)
    (hevolves : s.Evolves (s.step order w).1) (hclosed : s.state.canAddPages = false)
    (hterminal : (s.step order w).1.state.isTerminal = false) {id : ℕ}
    (hnew : s.buffers.get id = none) (hclient : (s.step order w).1.buffers.get id = some client) :
    client.traced.buffer.noMorePages = true := by
  have htype : s.type ≠ .arbitrary := by rw [h.type]; decide
  have hbefore : s.state.isTerminal = false := hevolves.not_isTerminal hterminal
  rcases (step_effect hw order).clients.cases_of_none hnew with
    hsame | ⟨entry, hentry, ⟨-, rfl⟩ | ⟨harbitrary, -⟩⟩
  · rw [hsame] at hclient
    cases hclient
  · rw [hentry, Option.some.injEq] at hclient
    rw [← hclient, (s.broadcastClient_spec hbefore).2.2, hclosed]
    rfl
  · exact absurd harbitrary htype

/-- The loop that ends the clients has ended the client at its head. -/
theorem noMorePages_of_endClient {id : ℕ}
    (hgoes : (s.step order (.endClient (id :: ids))).2.innermost = .endClient ids)
    (hclient : (s.step order (.endClient (id :: ids))).1.buffers.get id = some client) :
    client.traced.buffer.noMorePages = true := by
  have htype : s.type ≠ .arbitrary := by rw [h.type]; decide
  simp only [OutputBuffer.step, OutputBuffer.endClient, if_neg htype] at hgoes hclient
  cases hold : s.buffers.get id with
  | none => simp [hold, Work.innermost] at hgoes
  | some old =>
      simp only [hold] at hgoes hclient
      by_cases hloading : old.loading.isSome = true
      · simp [hloading, Work.innermost] at hgoes
      · rw [if_neg hloading, runSection_buffers, Registry.get_set_self,
          Option.some.injEq] at hclient
        rw [← hclient]
        cases hno : old.traced.buffer.noMorePages with
        | true => simp [act, Traced.setNoMorePages_of_noMorePages hno, hno]
        | false => simp [act, Traced.setNoMorePages_of_open hno, Traced.withPages]

/-- A thread that ends the clients goes on doing so. -/
theorem step_ending (hw : w.Valid s) (hending : w.Ending s)
    (hkeep : ∀ b : Work δ, b.Ending s → b.Ending (s.step order w).1) :
    (s.step order w).2.Ending (s.step order w).1 := by
  intro ids hids
  cases s.step_goesOn order w with
  | same hsame => exact hkeep w hending ids (hsame ▸ hids)
  | plain hplain =>
      rw [hids] at hplain
      cases hplain
  | startEnding hstart hnext =>
      subst hstart
      rw [hnext, Work.endClient.injEq] at hids
      have hsnapshot : (Work.endClient ids).Ending s := by
        rintro others ⟨rfl⟩
        refine ⟨hw.1, ?_⟩
        intro _ id client hclient _
        exact Or.inr (hids ▸ (s.snapshot_perm order).mem_iff.mpr
          (s.buffers.mem_ids_of_get hclient))
      exact hkeep _ hsnapshot ids rfl
  | ending id rest hbefore hnext =>
      subst hbefore
      rw [hnext, Work.endClient.injEq] at hids
      subst hids
      obtain ⟨hclosed, hended⟩ := hkeep _ hending (id :: rest) rfl
      refine ⟨hclosed, ?_⟩
      intro hterminal other client hclient hdestroyed
      rcases hended hterminal other client hclient hdestroyed with hno | hmem
      · exact Or.inl hno
      · rcases mem_cons.mp hmem with rfl | hrest
        · exact Or.inl (h.noMorePages_of_endClient hnext hclient)
        · exact Or.inr hrest
  | startFlush _ hnext | flushing _ _ _ _ _ _ _ hnext | flushed _ _ hnext =>
      rw [hnext] at hids
      cases hids

end Broadcasting

/-! ## Runs of a broadcast buffer -/

open Interleaving

/-- No `setNoMorePages` overtakes an `enqueue`, and when the calls are sequential each
`enqueue` starts after the others have ended. -/
def EnqueuesNotOvertaken (sequential : Prop) (c : Config (OutputBuffer δ) (Work δ)) :
    Label (BufferOperation δ) (List ℕ) → Prop
  | .invoke _ _ => True
  | .advance t _ => ∀ w ∈ c.threads t, w.endsQuietly c.shared = true ∧
      (sequential → w.startsAfterOthers c.shared = true)

instance decidableEnqueuesNotOvertaken
    [Decidable sequential] (c : Config (OutputBuffer δ) (Work δ))
    (l : Label (BufferOperation δ) (List ℕ)) :
    Decidable (EnqueuesNotOvertaken sequential c l) :=
  match l with
  | .invoke _ _ => isTrue trivial
  | .advance t _ => inferInstanceAs (Decidable (∀ w ∈ c.threads t,
      w.endsQuietly c.shared = true ∧ (sequential → w.startsAfterOthers c.shared = true)))

theorem BufferOperation.start_ending (operation : BufferOperation δ) (type : BufferType) :
    (operation.start type).Ending s := by
  intro ids hids
  cases operation with
  | enqueue _ _ _ | get _ _ _ =>
      simp only [BufferOperation.start] at hids
      split_ifs at hids <;> cases hids
  | _ => cases hids

theorem broadcasting_create (taskInstanceId : String) :
    Broadcasting sequential (OutputBuffer.create .broadcast taskInstanceId : OutputBuffer δ) := by
  exact ⟨rfl, enqueued_create _ _, nofun, nofun, fun _ => ⟨.nil, fun _ => rfl⟩,
    fun _ _ _ h => (nomatch h), nofun, fun _ _ _ h => (nomatch h), nofun, nofun,
    fun _ _ h => (nomatch h)⟩

variable {c : Config (OutputBuffer δ) (Work δ)}

/-- The invariants of a run of a broadcast buffer. -/
theorem broadcasting_of_reaches {taskInstanceId : String}
    (hc : Reaches bufferMachine (EnqueuesNotOvertaken sequential)
      (.idle (.create .broadcast taskInstanceId)) c) :
    Orderly c ∧ Annotated (Broadcasting sequential) (fun s w => Work.Ending s w) c := by
  refine hc.invariant (P := fun c => Orderly c ∧ Annotated _ _ c)
    ⟨orderly_create _ _, .idle (broadcasting_create taskInstanceId)⟩ ?_
  rintro d d' l ⟨horderly, hannotated⟩ hallowed hstep
  refine ⟨horderly.step hstep, horderly.annotated_step hannotated hstep
    (fun _ o _ => o.start_ending _) ?_⟩
  intro t order w hl ht hw _ hspec hshared hending
  subst hl
  obtain ⟨hquiet, hafter⟩ := hallowed w ht
  have hkeep : ∀ b : Work δ, b.Ending d.shared → b.Ending (d.shared.step order w).1 := by
    intro b hb
    refine hb.evolves hspec.evolves ?_
    intro hclosed hterminal id client hnew hclient
    exact hshared.noMorePages_of_created hw hspec.evolves hclosed hterminal hnew hclient
  exact ⟨hshared.step horderly.annotated.shared hw hending hquiet hafter order,
    hshared.step_ending hw hending hkeep, fun b _ _ hb => hkeep b hb⟩

/-- A client of a broadcast buffer has been handed the pages that it has to be handed: those
of every call that no thread is running any more, each once; it is told that it is complete
after its last page, and not before. -/
structure CompletelyHanded (sequential : Prop) (c : Config (OutputBuffer δ) (Work δ))
    (client : Client δ) : Prop where
  handed : ∀ n e, c.shared.enqueues[n]? = some e →
    (∀ t w, c.threads t = some w → ¬w.holds (.enqueue n)) →
    ∀ page ∈ e.references, page ∈ client.traced.added
  once : client.traced.added.Nodup
  accepted : ∀ page ∈ client.traced.added, ∃ e ∈ c.shared.enqueues, page ∈ e.references
  ordered : sequential →
    client.traced.added.Sublist (c.shared.enqueues.flatMap (·.references))
  ended : c.shared.endsDeclared = true →
    client.traced.buffer.noMorePages = true ∧ client.traced.buffer.pendingRead = none ∧
      (client.traced.buffer.pages = [] → ∀ maxSize,
        client.traced.buffer.processRead client.traced.added.length maxSize =
          .ok (.emptyResults client.traced.buffer.taskInstanceId client.traced.added.length true))
  told : ∀ r ∈ client.traced.returned, r.bufferComplete = true →
    r.token = client.traced.added.length ∧ c.shared.state.canAddPages = false ∧
      ∀ e ∈ c.shared.enqueues, e.stage = .handedOver ∧
        ∀ page ∈ e.references, page ∈ client.traced.added

theorem EnqueueCall.handedTo_sublist (id : ℕ) (e : EnqueueCall δ) :
    (e.handedTo id).Sublist e.references := by
  rw [handedTo]
  split_ifs
  · exact nil_sublist _
  · exact .refl _

/-- A read at the end of an ended queue says that the buffer is complete. -/
theorem Traced.Consistent.processRead_complete
    {t : Traced δ} (ht : t.Consistent) (hno : t.buffer.noMorePages = true)
    (halive : t.buffer.destroyed = false) (hpages : t.buffer.pages = []) (maxSize : ℕ) :
    t.buffer.processRead t.added.length maxSize =
      .ok (.emptyResults t.buffer.taskInstanceId t.added.length true) := by
  have hdrop := ht.aligned.pages halive
  rw [hpages] at hdrop
  have hle := ht.aligned.le
  have hnonneg := ht.aligned.nonneg
  have hge : t.added.length ≤ t.buffer.currentSequenceId.toNat :=
    drop_eq_nil_iff.mp hdrop.symm
  have hcurrent : t.buffer.currentSequenceId = t.added.length := by omega
  simp [ClientBuffer.processRead, hcurrent, hpages, hno]

theorem handed_of_settled (h : Broadcasting sequential c.shared) {id : ℕ}
    (hstate : c.shared.state.isTerminal = false) (hclient : c.shared.buffers.get id = some client)
    (halive : client.traced.buffer.destroyed = false)
    (he : e ∈ c.shared.enqueues) (hdone : e.stage.inProgress = false) :
    e.stage = .handedOver ∧ ∀ page ∈ e.references, page ∈ client.traced.added := by
  have hhandedOver : e.stage = .handedOver := eq_handedOver (h.kept e he) hdone
  refine ⟨hhandedOver, ?_⟩
  intro page hpage
  refine (h.handed hstate id client hclient halive).1.mem_iff.mpr ?_
  refine mem_flatMap.mpr ⟨e, he, ?_⟩
  simpa [handedTo, awaits, hhandedOver] using hpage

/-- In every run of a broadcast buffer in which no `setNoMorePages` overtakes an `enqueue`,
every client has been handed what it has to be handed until the buffer is terminal. -/
theorem broadcastCompleteness
    (sequential : Prop) (taskInstanceId : String) (c : Config (OutputBuffer δ) (Work δ))
    (hc : Reaches bufferMachine (EnqueuesNotOvertaken sequential)
      (.idle (.create .broadcast taskInstanceId)) c)
    (hstate : c.shared.state.isTerminal = false) (id : ℕ) (client : Client δ)
    (hclient : c.shared.buffers.get id = some client)
    (halive : client.traced.buffer.destroyed = false) :
    CompletelyHanded sequential c client := by
  obtain ⟨horderly, hannotated⟩ := broadcasting_of_reaches hc
  have hbroadcasting := hannotated.shared
  have hconsistent := horderly.annotated.shared.consistent id client hclient
  have hhanded := hbroadcasting.handed hstate id client hclient halive
  have hsublist : (c.shared.enqueues.flatMap (handedTo id)).Sublist
      (c.shared.enqueues.flatMap (·.references)) :=
    List.Sublist.flatMap_right _ fun e _ => e.handedTo_sublist id
  refine ⟨?_, ?_, ?_, ?_, ?_, ?_⟩
  · intro n e he hidle
    have hdone : e.stage.inProgress = false := by
      by_contra hno
      obtain ⟨t, w, ht, hw⟩ := horderly.custody.held (.enqueue n) ⟨e, he, by simpa using hno⟩
      exact hidle t w ht hw
    exact (handed_of_settled hbroadcasting hstate hclient halive (List.mem_of_getElem? he)
      hdone).2
  · exact hhanded.1.nodup_iff.mpr (hbroadcasting.calls.distinct.sublist hsublist)
  · intro page hpage
    obtain ⟨e, he, hin⟩ := List.mem_flatMap.mp (hhanded.1.mem_iff.mp hpage)
    exact ⟨e, he, (e.handedTo_sublist id).subset hin⟩
  · intro hsequential
    rw [hhanded.2 hsequential]
    exact hsublist
  · intro hends
    have hno := (hbroadcasting.declared hstate hends).2 id client hclient halive
    exact ⟨hno, hbroadcasting.waiting id client hclient hno,
      fun hpages => hconsistent.processRead_complete hno halive hpages⟩
  · intro r hr hcomplete
    have hnot : ¬client.traced.buffer.destroyed = true := by simp [halive]
    obtain ⟨-, hno, htoken⟩ :=
      ((hconsistent.returned r hr).complete hcomplete).resolve_left hnot
    have hclosed := hbroadcasting.ended hstate id client hclient halive hno
    refine ⟨htoken, hclosed, ?_⟩
    intro e he
    exact handed_of_settled hbroadcasting hstate hclient halive he
      (hbroadcasting.settled hstate hclosed e he)

/-- A page is enqueued and the end declared while a client waits; another client comes
late. -/
def onePageForTwo : List (Label (BufferOperation Unit) (List ℕ)) :=
  calls 0 .registerLifespanCompletionCallback 1 ++ calls 0 (.get 0 0 1) 4 ++
    calls 1 (.enqueue .taskWide 0 [⟨(), 1, 1⟩]) 8 ++ calls 2 .setNoMorePages 7 ++
    calls 3 (.get 1 0 1) 4

/-- The configuration after `onePageForTwo`. -/
def afterOnePageForTwo : Config (OutputBuffer Unit) (Work Unit) :=
  (run bufferMachine (EnqueuesNotOvertaken True) (.idle (.create .broadcast "task"))
    onePageForTwo).getD (.idle (.create .broadcast "task"))

theorem broadcastCompleteness_onePageForTwo :
    ∃ client, afterOnePageForTwo.shared.buffers.get 1 = some client ∧
      client.traced.added ≠ [] ∧ afterOnePageForTwo.shared.endsDeclared = true ∧
      CompletelyHanded True afterOnePageForTwo client := by
  have hclients : (afterOnePageForTwo.shared.buffers.get 1).map (fun client =>
      (client.traced.added.isEmpty, client.traced.buffer.destroyed)) = some (false, false) := by
    decide +kernel
  obtain ⟨client, hclient, hflags⟩ := Option.map_eq_some_iff.mp hclients
  rw [Prod.mk.injEq] at hflags
  refine ⟨client, hclient, ?_, by decide +kernel, ?_⟩
  · intro hempty
    rw [hempty] at hflags
    cases hflags.1
  · exact broadcastCompleteness True "task" afterOnePageForTwo
      (reaches_getD_run (by decide +kernel)) (by decide +kernel) 1 client hclient hflags.2

/-- An `enqueue` has seen that pages can be added when `setNoMorePages` runs from its start to
its end. -/
def overtakenEnqueue : List (Label (BufferOperation Unit) (List ℕ)) :=
  calls 0 .registerLifespanCompletionCallback 1 ++ calls 0 (.get 0 0 1) 4 ++
    calls 1 (.enqueue .taskWide 0 [⟨(), 1, 1⟩]) 1 ++ calls 2 .setNoMorePages 10 ++
    advances 1 4 ++ calls 3 (.get 1 0 1) 4

/-- The configuration after `overtakenEnqueue`. -/
def afterOvertakenEnqueue : Config (OutputBuffer Unit) (Work Unit) :=
  (run bufferMachine (fun _ _ => True) (.idle (.create .broadcast "task"))
    overtakenEnqueue).getD (.idle (.create .broadcast "task"))

/-- Without the condition a client is told that it is complete although it never gets a page
that `enqueue` accepts and hands to another client. -/
theorem broadcast_page_lost_by_overtaken_enqueue :
    Reaches bufferMachine (fun _ _ => True) (.idle (.create .broadcast "task"))
        afterOvertakenEnqueue ∧
      afterOvertakenEnqueue.shared.state = .noMorePages ∧
      (∀ t < 4, (afterOvertakenEnqueue.threads t).isNone = true) ∧
      afterOvertakenEnqueue.shared.enqueues =
        [⟨[⟨0, ⟨(), 1, 1⟩, .taskWide⟩], .handedOver⟩] ∧
      (afterOvertakenEnqueue.shared.buffers.get 0).map (fun client =>
          (client.traced.buffer.destroyed, client.traced.added, client.traced.returned)) =
        some (false, [], [⟨"task", 0, 0, true, []⟩]) ∧
      (afterOvertakenEnqueue.shared.buffers.get 1).map (fun client => client.traced.added) =
        some [⟨0, ⟨(), 1, 1⟩, .taskWide⟩] := by
  refine ⟨reaches_getD_run (by decide +kernel), ?_, ?_, ?_, ?_, ?_⟩ <;> decide +kernel

end Presto.Execution.Buffer
