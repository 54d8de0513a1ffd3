import Presto.Execution.Buffer.ClientBufferSections
import Presto.Support.Interleaving

/-!
# Interleaved operations of one client buffer

Threads run the operations of one client buffer section by section, in any order, under
the token discipline of its clients: a token is zero or the next token of a result that
the buffer returned before.  A read that was parked is completed by whichever later
operation takes it out of the buffer, which may still be running when other later
operations have finished.
-/

namespace Presto.Execution.Buffer

open SerializedPageReference Interleaving Traced Option

variable {δ : Type*}

/-! ## Runs -/

/-- An operation in progress.  `since` is how many reads had been parked when it started;
`settles` says whether it is one of the operations that have to settle a parked read. -/
structure Call (δ : Type*) where
  activity : Activity δ
  since : ℕ
  settles : Bool

/-- The state that the threads share.  An operation that has to settle parked reads
has started after the first `settled` reads were parked, and has finished. -/
structure Observed (δ : Type*) where
  trace : Traced δ
  settled : ℕ

namespace Operation

def settles : Operation δ → Bool
  | .getPages _ _ _ | .enqueuePages _ | .setNoMorePages | .destroy => true
  | .acknowledgePages _ | .loadPagesIfNecessary => false

/-- The token of an operation, if it has one, is zero or was returned as a next token. -/
def TokenReturned (s : Traced δ) : Operation δ → Prop
  | .getPages sequenceId _ _ | .acknowledgePages sequenceId =>
      sequenceId = 0 ∨ ∃ r ∈ s.returned, r.nextToken = sequenceId
  | _ => True

instance decidableTokenReturned (s : Traced δ) :
    (operation : Operation δ) → Decidable (operation.TokenReturned s)
  | .getPages sequenceId _ _ =>
      inferInstanceAs (Decidable (sequenceId = 0 ∨ ∃ r ∈ s.returned, r.nextToken = sequenceId))
  | .acknowledgePages sequenceId =>
      inferInstanceAs (Decidable (sequenceId = 0 ∨ ∃ r ∈ s.returned, r.nextToken = sequenceId))
  | .enqueuePages _ | .setNoMorePages | .loadPagesIfNecessary | .destroy =>
      inferInstanceAs (Decidable True)

end Operation

/-- How many of the first parked reads have seen a later operation finish, after a section
of `call` that leaves `next` to do. -/
def Call.settledAfter (call : Call δ) (settled : ℕ) : Option (Activity δ) → ℕ
  | none => if call.settles then max settled call.since else settled
  | some _ => settled

/-- The operations of one client buffer. -/
def clientMachine : Machine (Observed δ) (Operation δ) (Call δ) (Supply δ) where
  start s operation := ⟨operation.start, s.trace.futures.length, operation.settles⟩
  act call supply s :=
    (⟨(act call.activity supply s.trace).1,
        call.settledAfter s.settled (act call.activity supply s.trace).2⟩,
      (act call.activity supply s.trace).2.map fun a => { call with activity := a })

/-- Operations are started with tokens that the buffer returned. -/
def TokensReturned (c : Config (Observed δ) (Call δ)) :
    Label (Operation δ) (Supply δ) → Prop
  | .invoke _ operation => operation.TokenReturned c.shared.trace
  | .advance _ _ => True

instance decidableTokensReturned (c : Config (Observed δ) (Call δ)) :
    (l : Label (Operation δ) (Supply δ)) → Decidable (TokensReturned c l)
  | .invoke _ operation => inferInstanceAs (Decidable (operation.TokenReturned c.shared.trace))
  | .advance _ _ => inferInstanceAs (Decidable True)

/-- The configurations that the operations of a new client buffer can lead to. -/
def ClientReaches (taskInstanceId : String) :
    Config (Observed δ) (Call δ) → Prop :=
  Reaches clientMachine TokensReturned (.idle ⟨.create taskInstanceId, 0⟩)

/-! ## Tokens -/

namespace Activity

/-- The token that a thread is about to acknowledge names a page up to the end. -/
def Acknowledgeable (s : Traced δ) : Activity δ → Prop
  | .acknowledgePages sequenceId _ | .acknowledgePagesLocked sequenceId _ =>
      0 ≤ sequenceId ∧ sequenceId ≤ s.added.length
  | _ => True

variable {s s' : Traced δ}

theorem Acknowledgeable.extends
    {a : Activity δ} (ha : a.Acknowledgeable s) (h : s.Extends s') : a.Acknowledgeable s' := by
  have hlength : (s.added.length : ℤ) ≤ s'.added.length := by
    exact_mod_cast h.added.length_le
  cases a with
  | acknowledgePages _ _ | acknowledgePagesLocked _ _ => exact ⟨ha.1, ha.2.trans hlength⟩
  | _ => trivial

variable {operation : Operation δ}

/-- A returned token can be acknowledged. -/
theorem start_acknowledgeable (hs : s.Consistent) (h : operation.TokenReturned s) :
    operation.start.Acknowledgeable s := by
  have htoken : ∀ sequenceId, (sequenceId = 0 ∨ ∃ r ∈ s.returned, r.nextToken = sequenceId) →
      0 ≤ sequenceId ∧ sequenceId ≤ (s.added.length : ℤ) := by
    rintro sequenceId (rfl | ⟨r, hr, rfl⟩)
    · exact ⟨le_rfl, Int.natCast_nonneg _⟩
    · have hvalid := (hs.returned r hr).carries
      have hnext := hvalid.nextToken_eq
      have hnonneg := hvalid.token_nonneg
      exact ⟨by omega, hvalid.nextToken_le⟩
  cases operation with
  | getPages sequenceId maxSize supplied => exact htoken sequenceId h
  | acknowledgePages sequenceId => exact htoken sequenceId h
  | _ => trivial

end Activity

theorem Activity.Changes.thrown
    {s s' : Traced δ} {a : Activity δ} (h : a.Changes s s') (htoken : a.Acknowledgeable s) :
    s'.thrown = s.thrown := by
  cases h with
  | throw e ha =>
      rcases ha with ⟨rfl, hneg⟩ | ⟨rfl, hbig⟩
      · exact absurd htoken.1 (not_le.mpr hneg)
      · exact absurd htoken.2 (not_le.mpr hbig)
  | complete future =>
      rcases s.complete_cases future _ with ⟨-, h⟩ | ⟨-, h⟩ <;> rw [h]
  | _ => rfl

/-- Under the token discipline no section throws. -/
theorem act_thrown {s : Traced δ} (hs : s.Consistent) {a : Activity δ} (ha : a.Valid s)
    (htoken : a.Acknowledgeable s) (supply : Supply δ) :
    (act a supply s).1.thrown = s.thrown ∧
      ∀ b, (act a supply s).2 = some b → b.Acknowledgeable (act a supply s).1 := by
  have hchanges := Activity.act_changes hs ha supply
  refine ⟨hchanges.thrown htoken, ?_⟩
  intro b hb
  have hgoes := (Activity.act_next hs ha hb).2
  cases b with
  | acknowledgePages sequenceId next => exact hgoes.elim
  | acknowledgePagesLocked sequenceId next =>
      cases hgoes
      exact Activity.Acknowledgeable.extends (a := .acknowledgePages sequenceId next) htoken
        hchanges.extends
  | _ => trivial

/-! ## Parked reads -/

namespace Activity

/-- The parked read that a thread has in hand. -/
def heldRead : Activity δ → Option PendingRead
  | .completeWithEmpty read | .processRead read | .processReadLocked read
  | .setResult read _ => some read
  | _ => none

/-- The thread takes, or looks up, the parked read of the buffer in this section. -/
def AwaitsRead : Activity δ → Prop
  | .getPagesLocked _ _ | .pendingReadLoaded => True
  | _ => False

/-- The section belongs to an operation that has to settle parked reads. -/
def Settling : Activity δ → Prop
  | .acknowledgePages _ next | .acknowledgePagesLocked _ next => next ≠ none
  | .pendingMaxSize | .loadPendingPages _ | .pendingReadLoaded => False
  | _ => True

/-- The thread has yet to complete the future of a parked read. -/
def Owes (s : Traced δ) (a : Activity δ) (future : ℕ) : Prop :=
  (∃ read, a.heldRead = some read ∧ read.future = future) ∨
    a.AwaitsRead ∧ ∃ read, s.buffer.pendingRead = some read ∧ read.future = future

end Activity

/-- What a section does with parked reads. -/
structure ReadStep (s : Traced δ) (a : Activity δ) (s' : Traced δ) (next : Option (Activity δ)) :
    Prop where
  /-- A read is only parked while the buffer is open. -/
  parked : ∀ read, s'.buffer.pendingRead = some read →
    s.buffer.pendingRead = some read ∨
      read.future = s.futures.length ∧ s'.buffer.noMorePages = false
  /-- A parked read that is taken out of the buffer is in the hand of the thread. -/
  taken : ∀ read, s.buffer.pendingRead = some read →
    s'.buffer.pendingRead = some read ∨ ∃ b, next = some b ∧ b.heldRead = some read
  /-- A read in hand stays in hand or is done. -/
  held : ∀ read, a.heldRead = some read →
    s'.isDone read.future = true ∨ ∃ b, next = some b ∧ b.heldRead = some read
  /-- A new future belongs to the parked read. -/
  fresh : ∀ future, s.futures.length ≤ future → future < s'.futures.length →
    ∃ read, s'.buffer.pendingRead = some read ∧ read.future = future
  /-- An operation that has to settle reads leaves behind only its own or, at the end of
  the buffer, one that somebody else owes. -/
  settled : a.Settling → a.heldRead = none →
    (∀ b, next = some b → b.heldRead ≠ none) → ∀ read, s'.buffer.pendingRead = some read →
      read.future = s.futures.length ∨ s'.buffer.noMorePages = true
  /-- At the end of the buffer somebody awaits the parked read. -/
  awaited : s'.buffer.noMorePages = true → ∀ read, s'.buffer.pendingRead = some read →
    (∃ b, next = some b ∧ (b.AwaitsRead ∨ b.heldRead = some read)) ∨
      s.buffer.noMorePages = true ∧ s.buffer.pendingRead = some read ∧ ¬a.AwaitsRead
  /-- The rest of an operation that has to settle reads is again such a section. -/
  settling : a.Settling → ∀ b, next = some b → b.Settling

namespace ReadStep

variable {s s' : Traced δ} {a : Activity δ} {next : Option (Activity δ)}

/-- A section that leaves the parked read where it is. -/
theorem of_kept
    (hheld : ∀ read, a.heldRead = some read →
      s'.isDone read.future = true ∨ ∃ b, next = some b ∧ b.heldRead = some read)
    (hsettled : a.Settling → a.heldRead = none →
      (∀ b, next = some b → b.heldRead ≠ none) → s'.buffer.noMorePages = true)
    (hsettling : a.Settling → ∀ b, next = some b → b.Settling)
    (hpending : s'.buffer.pendingRead = s.buffer.pendingRead := by rfl)
    (hfutures : s'.futures.length = s.futures.length := by rfl)
    (hawaited : s'.buffer.noMorePages = true → ∀ read, s'.buffer.pendingRead = some read →
      (∃ b, next = some b ∧ (b.AwaitsRead ∨ b.heldRead = some read)) ∨
        s.buffer.noMorePages = true ∧ ¬a.AwaitsRead := by
          exact fun hno _ _ => Or.inr ⟨hno, fun h => h⟩) :
    ReadStep s a s' next where
  parked read h := Or.inl (hpending ▸ h)
  taken read h := Or.inl (hpending.symm ▸ h)
  held := hheld
  fresh future hge hlt := absurd hlt (by omega)
  settled hs hnone hnext _ _ := Or.inr (hsettled hs hnone hnext)
  awaited hno read hread :=
    (hawaited hno read hread).imp_right fun h => ⟨h.1, hpending ▸ hread, h.2⟩
  settling := hsettling

/-- A section that takes the parked read out of the buffer. -/
theorem of_taken {f : PendingRead → Activity δ} (hf : ∀ read, (f read).heldRead = some read)
    (hfs : ∀ read, (f read).Settling) (hnone : a.heldRead = none)
    (hpending : s'.buffer.pendingRead = none) (hfutures : s'.futures.length = s.futures.length)
    (hnext : next = s.buffer.pendingRead.map f) :
    ReadStep s a s' next where
  parked read h := by
    rw [hpending] at h
    cases h
  taken read h := Or.inr ⟨f read, by rw [hnext, h, map_some], hf read⟩
  held read h := by
    rw [hnone] at h
    cases h
  fresh future hge hlt := absurd hlt (by omega)
  settled _ _ _ read h := by
    rw [hpending] at h
    cases h
  awaited _ read h := by
    rw [hpending] at h
    cases h
  settling _ b hb := by
    rw [hnext] at hb
    obtain ⟨read, -, rfl⟩ := map_eq_some_iff.mp hb
    exact hfs read

/-- Completing the read in hand. -/
theorem of_complete {read : PendingRead}
    (ha : a = .completeWithEmpty read ∨ ∃ result, a = .setResult read result)
    (hread : s.ValidRead read) (result : BufferResult δ) :
    ReadStep s a (s.complete read.future result) none := by
  have hbuffer := s.complete_buffer read.future result
  have hheld : a.heldRead = some read := by
    rcases ha with rfl | ⟨result, rfl⟩ <;> rfl
  have hawaits : ¬a.AwaitsRead := by
    rcases ha with rfl | ⟨result, rfl⟩ <;> exact fun h => h
  refine of_kept ?_ ?_ nofun (by rw [hbuffer]) ?_ ?_
  · intro read' h
    rw [hheld, some.injEq] at h
    subst h
    exact Or.inl (isDone_complete hread.future result)
  · intro _ hnone
    rw [hheld] at hnone
    cases hnone
  · rcases s.complete_cases read.future result with ⟨-, h⟩ | ⟨-, h⟩ <;> simp [h]
  · intro hno _ _
    rw [hbuffer] at hno
    exact Or.inr ⟨hno, hawaits⟩

/-- What follows an acknowledgement holds no read, and settles reads if the
acknowledgement belongs to a read. -/
theorem of_acknowledged (hpending : s'.buffer.pendingRead = s.buffer.pendingRead)
    (hfutures : s'.futures.length = s.futures.length)
    (hno : s'.buffer.noMorePages = s.buffer.noMorePages)
    {sequenceId : ℤ} {request : Option ReadRequest}
    (ha : a = .acknowledgePages sequenceId request ∨
      a = .acknowledgePagesLocked sequenceId request)
    (hnext : next = Activity.afterAcknowledge sequenceId request ∨
      next = some (.acknowledgePagesLocked sequenceId request)) :
    ReadStep s a s' next := by
  have hheld : a.heldRead = none := by
    rcases ha with rfl | rfl <;> rfl
  have hsettling : a.Settling → request ≠ none := by
    rcases ha with rfl | rfl <;> exact fun h => h
  have hawaits : ¬a.AwaitsRead := by
    rcases ha with rfl | rfl <;> exact fun h => h
  have hcontinues : request ≠ none →
      ∃ b, next = some b ∧ b.heldRead = none ∧ b.Settling := by
    intro hrequest
    rcases hnext with rfl | rfl
    · rcases request with - | ⟨maxSize, supplied⟩
      · exact absurd rfl hrequest
      · cases supplied <;> exact ⟨_, rfl, rfl, trivial⟩
    · exact ⟨_, rfl, rfl, hrequest⟩
  refine of_kept ?_ ?_ ?_ hpending hfutures fun h _ _ => Or.inr ⟨hno ▸ h, hawaits⟩
  · intro read h
    rw [hheld] at h
    cases h
  · intro hs _ hall
    obtain ⟨b, hb, hnone, -⟩ := hcontinues (hsettling hs)
    exact absurd hnone (hall b hb)
  · intro hs b hb
    obtain ⟨b', hb', -, hsettles⟩ := hcontinues (hsettling hs)
    rw [hb', some.injEq] at hb
    exact hb ▸ hsettles

end ReadStep

/-- What each section does with parked reads. -/
theorem act_readStep {s : Traced δ} (hs : s.Consistent) {a : Activity δ} (ha : a.Valid s)
    (htoken : a.Acknowledgeable s) (supply : Supply δ) :
    ReadStep s a (act a supply s).1 (act a supply s).2 := by
  cases a with
  | acknowledgePages sequenceId next =>
      have hneg : ¬sequenceId < 0 := not_lt.mpr htoken.1
      cases hold : s.buffer.acknowledged sequenceId with
      | true =>
          simp only [act, hneg, hold]
          exact .of_acknowledged rfl rfl rfl (Or.inl rfl) (Or.inl rfl)
      | false =>
          simp only [act, hneg, hold]
          exact .of_acknowledged rfl rfl rfl (Or.inl rfl) (Or.inr rfl)
  | acknowledgePagesLocked sequenceId next =>
      rcases acknowledgePages_cases hs.aligned htoken.1 with
        ⟨-, hack⟩ | ⟨-, -, -, hack⟩ | ⟨-, hbig, -⟩
      · simp only [act, hack]
        exact .of_acknowledged rfl rfl rfl (Or.inr rfl) (Or.inl rfl)
      · simp only [act, hack]
        exact .of_acknowledged rfl rfl rfl (Or.inr rfl) (Or.inl rfl)
      · exact absurd htoken.2 (not_le.mpr hbig)
  | loadPages sequenceId maxSize =>
      refine .of_kept (by rintro _ ⟨⟩) ?_ ?_ ?_ rfl ?_
      · intro _ _ hall
        exact absurd rfl (hall _ rfl)
      · rintro _ b ⟨rfl⟩
        trivial
      · cases hneeds : s.buffer.needsPages with
        | true => simp [act, loadPages_of_needsPages hneeds, withPages]
        | false => simp [act, loadPages_of_not_needsPages hneeds]
      · intro _ read _
        exact Or.inl ⟨_, rfl, Or.inl trivial⟩
  | getPagesLocked sequenceId maxSize =>
      rcases getPages_cases hs.aligned ha.1 ha.2 maxSize with
        ⟨hopen, -, hpark⟩ | ⟨r, -, hnow⟩
      · simp only [act, hpark]
        refine ⟨?_, ?_, (by rintro _ ⟨⟩), ?_, ?_, ?_, ?_⟩
        · rintro read ⟨rfl⟩
          exact Or.inr ⟨rfl, hopen⟩
        · intro read h
          exact Or.inr ⟨.completeWithEmpty read, by rw [h, map_some], rfl⟩
        · intro future hge hlt
          refine ⟨_, rfl, ?_⟩
          simp only [withParked, List.length_append, List.length_singleton] at hlt ⊢
          omega
        · rintro _ _ _ read ⟨rfl⟩
          exact Or.inl rfl
        · intro hno
          rw [show s.buffer.noMorePages = true from hno] at hopen
          cases hopen
        · intro _ b hb
          obtain ⟨read, -, rfl⟩ := map_eq_some_iff.mp hb
          trivial
      · simp only [act, hnow]
        exact .of_taken (f := .completeWithEmpty) (fun _ => rfl) (fun _ => trivial) rfl rfl rfl rfl
  | completeWithEmpty read => exact .of_complete (Or.inl rfl) ha _
  | enqueuePagesLocked pages =>
      cases hno : s.buffer.noMorePages with
      | true =>
          simp only [act, enqueuePages_of_noMorePages hno]
          exact .of_kept (by rintro _ ⟨⟩) (fun _ _ _ => hno) (by rintro _ _ ⟨⟩)
      | false =>
          simp only [act, enqueuePages_of_open hno]
          exact .of_taken (f := .processRead) (fun _ => rfl) (fun _ => trivial) rfl rfl rfl rfl
  | setNoMorePagesLocked =>
      cases hno : s.buffer.noMorePages with
      | true =>
          simp only [act, setNoMorePages_of_noMorePages hno]
          exact .of_kept (by rintro _ ⟨⟩) (fun _ _ _ => hno) (by rintro _ _ ⟨⟩)
      | false =>
          simp only [act, setNoMorePages_of_open hno]
          exact .of_taken (f := .processRead) (fun _ => rfl) (fun _ => trivial) rfl rfl rfl rfl
  | destroyLocked =>
      exact .of_taken (f := .completeWithEmpty) (fun _ => rfl) (fun _ => trivial) rfl rfl rfl rfl
  | pendingMaxSize =>
      exact .of_kept (by rintro _ ⟨⟩) (fun h => h.elim) (fun h => h.elim)
  | loadPendingPages maxSize =>
      cases hneeds : s.buffer.needsPages with
      | true =>
          simp only [act, loadPages_of_needsPages hneeds]
          refine .of_kept (by rintro _ ⟨⟩) (fun h => h.elim) (fun h => h.elim) rfl rfl ?_
          intro hno read _
          have hend : supply.mayHaveMorePages = false := by
            simpa [withPages] using hno
          left
          exact ⟨.pendingReadLoaded, by simp [hend], Or.inl trivial⟩
      | false =>
          simp only [act, loadPages_of_not_needsPages hneeds]
          exact .of_kept (by rintro _ ⟨⟩) (fun h => h.elim) (fun h => h.elim)
  | pendingReadLoaded =>
      refine .of_kept (by rintro _ ⟨⟩) (fun h => h.elim) (fun h => h.elim) rfl rfl ?_
      intro _ read hread
      have hread' : s.buffer.pendingRead = some read := hread
      left
      exact ⟨.processRead read, by simp only [act, hread', map_some], Or.inr rfl⟩
  | processRead read =>
      refine .of_kept ?_ (by rintro _ ⟨⟩) ?_
      · rintro read' ⟨rfl⟩
        cases hdone : s.isDone read.future with
        | true => exact Or.inl hdone
        | false => exact Or.inr ⟨.processReadLocked read, by simp [act, hdone], rfl⟩
      · intro _ b hb
        simp only [act] at hb
        split_ifs at hb
        cases hb
        trivial
  | processReadLocked read =>
      obtain ⟨r, hread, -⟩ :=
        processRead_spec hs.aligned ha.nonneg (Or.inr ha.le) read.maxSize
      simp only [act, hread]
      refine .of_kept ?_ (by rintro _ ⟨⟩) ?_
      · rintro read' ⟨rfl⟩
        exact Or.inr ⟨_, rfl, rfl⟩
      · rintro _ b ⟨rfl⟩
        trivial
  | setResult read result => exact .of_complete (Or.inr ⟨result, rfl⟩) ha.1 _

/-! ## Every run -/

/-- The invariant of the shared state under the token discipline. -/
structure Observed.Sound (s : Observed δ) : Prop where
  consistent : s.trace.Consistent
  thrown : s.trace.thrown = []
  settled_le : s.settled ≤ s.trace.futures.length
  parked : ∀ read, s.trace.buffer.pendingRead = some read → read.future < s.settled →
    s.trace.buffer.noMorePages = true

/-- What holds of each operation in progress under the token discipline. -/
structure Call.Sound (s : Observed δ) (call : Call δ) : Prop where
  valid : call.activity.Valid s.trace
  acknowledgeable : call.activity.Acknowledgeable s.trace
  since_le : call.since ≤ s.trace.futures.length
  settling : call.settles = true → call.activity.Settling
  passed : call.settles = true → call.activity.heldRead ≠ none →
    ∀ read, s.trace.buffer.pendingRead = some read → read.future < call.since →
      s.trace.buffer.noMorePages = true

variable {s : Observed δ}

/-- A new operation is sound. -/
theorem start_sound (hs : s.Sound) (h : operation.TokenReturned s.trace) :
    Call.Sound s (clientMachine.start s operation) := by
  refine ⟨Activity.start_valid operation s.trace,
    Activity.start_acknowledgeable hs.consistent h, le_rfl, ?_, ?_⟩
  · intro hsettles
    cases operation with
    | getPages sequenceId maxSize supplied => exact nofun
    | acknowledgePages _ | loadPagesIfNecessary => cases hsettles
    | _ => trivial
  · intro _ hheld
    cases operation <;> exact absurd rfl hheld

/-- An old parked read stays parked under the same conditions. -/
theorem ReadStep.old_parked
    {s s' : Traced δ} {a : Activity δ} {next : Option (Activity δ)} {bound : ℕ}
    (h : ReadStep s a s' next) (hextends : s.Extends s') (hbound : bound ≤ s.futures.length)
    (hold : ∀ read, s.buffer.pendingRead = some read → read.future < bound →
      s.buffer.noMorePages = true) :
    ∀ read, s'.buffer.pendingRead = some read → read.future < bound →
      s'.buffer.noMorePages = true := by
  intro read hread hlt
  rcases h.parked read hread with hsame | ⟨hnew, -⟩
  · exact (hextends.noMorePages (hold read hsame hlt)).1
  · exact absurd hlt (by omega)

section Sound

variable {call : Call δ} (hs : s.Sound) (hcall : Call.Sound s call) (supply : Supply δ)

include hs hcall

/-- Once an operation that has to settle reads is past its own sections, every read parked
before it started is settled or left to the end of the buffer. -/
theorem Call.Sound.passed_step (hsettles : call.settles = true)
    (hpast : ∀ b, (act call.activity supply s.trace).2 = some b → b.heldRead ≠ none) :
    ∀ read, (act call.activity supply s.trace).1.buffer.pendingRead = some read →
      read.future < call.since →
        (act call.activity supply s.trace).1.buffer.noMorePages = true := by
  have hstep := act_readStep hs.consistent hcall.valid hcall.acknowledgeable supply
  obtain ⟨hextends, -, -⟩ := act_spec hs.consistent hcall.valid supply
  by_cases hheld : call.activity.heldRead = none
  · intro read hread hlt
    have hsince := hcall.since_le
    rcases hstep.settled (hcall.settling hsettles) hheld hpast read hread with hnew | hno
    · exact absurd hlt (by omega)
    · exact hno
  · exact hstep.old_parked hextends hcall.since_le (hcall.passed hsettles hheld)

/-- One section keeps the shared invariant. -/
theorem act_observed_sound : (clientMachine.act call supply s).1.Sound := by
  have hstep := act_readStep hs.consistent hcall.valid hcall.acknowledgeable supply
  obtain ⟨hextends, hconsistent, -⟩ := act_spec hs.consistent hcall.valid supply
  obtain ⟨hthrown, -⟩ := act_thrown hs.consistent hcall.valid hcall.acknowledgeable supply
  have hkept := hstep.old_parked hextends hs.settled_le hs.parked
  have hle := hs.settled_le.trans hextends.futures
  refine ⟨hconsistent, hthrown.trans hs.thrown, ?_, ?_⟩
  · simp only [clientMachine]
    cases hnext : (act call.activity supply s.trace).2 with
    | some b => exact hle
    | none =>
        simp only [Call.settledAfter]
        split_ifs
        · exact max_le hle (hcall.since_le.trans hextends.futures)
        · exact hle
  · intro read hread hlt
    simp only [clientMachine] at hread hlt ⊢
    cases hnext : (act call.activity supply s.trace).2 with
    | some b =>
        rw [hnext] at hlt
        exact hkept read hread hlt
    | none =>
        rw [hnext] at hlt
        simp only [Call.settledAfter] at hlt
        split_ifs at hlt with hsettles
        · rcases lt_max_iff.mp hlt with hold | hnew
          · exact hkept read hread hold
          · exact hcall.passed_step hs supply hsettles (by simp [hnext]) read hread hnew
        · exact hkept read hread hlt

/-- One section leaves its own operation sound. -/
theorem act_call_sound {next : Call δ} (hnext : (clientMachine.act call supply s).2 = some next) :
    Call.Sound (clientMachine.act call supply s).1 next := by
  have hstep := act_readStep hs.consistent hcall.valid hcall.acknowledgeable supply
  obtain ⟨hextends, -, hvalid⟩ := act_spec hs.consistent hcall.valid supply
  obtain ⟨-, htoken⟩ := act_thrown hs.consistent hcall.valid hcall.acknowledgeable supply
  obtain ⟨b, hb, rfl⟩ := map_eq_some_iff.mp hnext
  refine ⟨hvalid b hb, htoken b hb, hcall.since_le.trans hextends.futures, ?_, ?_⟩
  · intro hsettles
    exact hstep.settling (hcall.settling hsettles) b hb
  · intro hsettles hheld
    refine hcall.passed_step hs supply hsettles ?_
    intro b' hb'
    rw [hb, some.injEq] at hb'
    exact hb' ▸ hheld

/-- One section leaves the other operations sound. -/
theorem act_other_sound {other : Call δ} (hother : Call.Sound s other) :
    Call.Sound (clientMachine.act call supply s).1 other := by
  have hstep := act_readStep hs.consistent hcall.valid hcall.acknowledgeable supply
  obtain ⟨hextends, -, -⟩ := act_spec hs.consistent hcall.valid supply
  refine ⟨hother.valid.extends hextends, hother.acknowledgeable.extends hextends,
    hother.since_le.trans hextends.futures, hother.settling, ?_⟩
  intro hsettles hheld
  exact hstep.old_parked hextends hother.since_le (hother.passed hsettles hheld)

end Sound

variable {c : Config (Observed δ) (Call δ)} {taskInstanceId : String}

/-- The state and all operations in progress are sound in every run. -/
theorem sound_of_clientReaches (hc : ClientReaches taskInstanceId c) :
    Annotated Observed.Sound Call.Sound c := by
  have hstart : (⟨.create taskInstanceId, 0⟩ : Observed δ).Sound :=
    ⟨create_consistent taskInstanceId, rfl, le_rfl, nofun⟩
  refine Reaches.invariant hc (.idle hstart) ?_
  intro d d' l hd hl hstep
  refine hd.step ?_ ?_ hstep
  · rintro t operation rfl
    exact start_sound hd.shared hl
  · intro t supply call _ _ hs hcall
    exact ⟨act_observed_sound hs hcall supply, fun b hb => act_call_sound hs hcall supply hb,
      fun b hb => act_other_sound hs hcall supply hb⟩

/-- Every parked read is done, parked or in the hand of a thread, and at the end of the
buffer somebody awaits the parked one. -/
structure ReadsOwed (c : Config (Observed δ) (Call δ)) : Prop where
  futures : ∀ future, future < c.shared.trace.futures.length →
    c.shared.trace.isDone future = true ∨
      (∃ read, c.shared.trace.buffer.pendingRead = some read ∧ read.future = future) ∨
      ∃ t call read, c.threads t = some call ∧ call.activity.heldRead = some read ∧
        read.future = future
  awaited : c.shared.trace.buffer.noMorePages = true →
    ∀ read, c.shared.trace.buffer.pendingRead = some read →
      c.shared.trace.isDone read.future = true ∨
        ∃ t call, c.threads t = some call ∧
          (call.activity.AwaitsRead ∨ call.activity.heldRead = some read)

/-- Starting an operation leaves what the others owe. -/
theorem ReadsOwed.invoke (hc : ReadsOwed c) {t : ℕ} (hidle : c.threads t = none) (call : Call δ) :
    ReadsOwed (c.move c.shared t (some call)) := by
  have hthread : ∀ {u call'}, c.threads u = some call' →
      (c.move c.shared t (some call)).threads u = some call' := by
    intro u call' hu
    have hut : u ≠ t := by
      rintro rfl
      rw [hidle] at hu
      cases hu
    rw [Config.move_threads_of_ne c _ _ hut, hu]
  refine ⟨?_, ?_⟩
  · intro future hlt
    rcases hc.futures future hlt with hdone | hparked | ⟨u, call', read, hu, hheld, hfuture⟩
    · exact Or.inl hdone
    · exact Or.inr (Or.inl hparked)
    · exact Or.inr (Or.inr ⟨u, call', read, hthread hu, hheld, hfuture⟩)
  · intro hno read hread
    rcases hc.awaited hno read hread with hdone | ⟨u, call', hu, howes⟩
    · exact Or.inl hdone
    · exact Or.inr ⟨u, call', hthread hu, howes⟩

/-- A section passes on or pays what its thread owes. -/
theorem ReadsOwed.advance (hc : ReadsOwed c) {t : ℕ} (ht : c.threads t = some call)
    (hs : c.shared.Sound) (hcall : Call.Sound c.shared call) (supply : Supply δ) :
    ReadsOwed (c.move (clientMachine.act call supply c.shared).1 t
      (clientMachine.act call supply c.shared).2) := by
  have hstep := act_readStep hs.consistent hcall.valid hcall.acknowledgeable supply
  obtain ⟨hextends, -, -⟩ := act_spec hs.consistent hcall.valid supply
  set moved := c.move _ t _
  -- what this thread does next
  have hown : ∀ {b}, (act call.activity supply c.shared.trace).2 = some b →
      moved.threads t = some { call with activity := b } := by
    intro b hb
    simp only [moved, Config.move_threads_self, clientMachine, hb, map_some]
  have hothers : ∀ {u call'}, u ≠ t → c.threads u = some call' → moved.threads u = some call' := by
    intro u call' hut hu
    rw [Config.move_threads_of_ne c _ _ hut, hu]
  -- a read in the hand of a thread is done or in its hand afterwards
  have hpassed : ∀ {u call' read}, c.threads u = some call' → call'.activity.heldRead = some read →
      moved.shared.trace.isDone read.future = true ∨
        ∃ u call', moved.threads u = some call' ∧ call'.activity.heldRead = some read := by
    intro u call' read hu hheld
    by_cases hut : u = t
    · subst hut
      rw [ht, some.injEq] at hu
      subst hu
      exact (hstep.held read hheld).imp_right fun ⟨b, hb, h⟩ => ⟨u, _, hown hb, h⟩
    · exact Or.inr ⟨u, call', hothers hut hu, hheld⟩
  refine ⟨?_, ?_⟩
  · intro future hlt
    by_cases hnew : c.shared.trace.futures.length ≤ future
    · exact Or.inr (Or.inl (hstep.fresh future hnew hlt))
    · rcases hc.futures future (not_le.mp hnew) with
        hdone | ⟨read, hread, rfl⟩ | ⟨u, call', read, hu, hheld, rfl⟩
      · exact Or.inl (hextends.done future hdone)
      · rcases hstep.taken read hread with hsame | ⟨b, hb, hheld⟩
        · exact Or.inr (Or.inl ⟨read, hsame, rfl⟩)
        · exact Or.inr (Or.inr ⟨t, _, read, hown hb, hheld, rfl⟩)
      · rcases hpassed hu hheld with hdone | ⟨u', call'', hu', hheld'⟩
        · exact Or.inl hdone
        · exact Or.inr (Or.inr ⟨u', call'', read, hu', hheld', rfl⟩)
  · intro hno read hread
    rcases hstep.awaited hno read hread with ⟨b, hb, howes⟩ | ⟨hno', hread', hnot⟩
    · exact Or.inr ⟨t, _, hown hb, howes⟩
    · rcases hc.awaited hno' read hread' with hdone | ⟨u, call', hu, hawaits | hheld⟩
      · exact Or.inl (hextends.done _ hdone)
      · have hut : u ≠ t := by
          rintro rfl
          rw [ht, some.injEq] at hu
          exact hnot (hu ▸ hawaits)
        exact Or.inr ⟨u, call', hothers hut hu, Or.inl hawaits⟩
      · exact (hpassed hu hheld).imp_right fun ⟨u', call'', hu', h⟩ => ⟨u', call'', hu', Or.inr h⟩

/-- In every run the parked reads are accounted for. -/
theorem readsOwed_of_clientReaches (hc : ClientReaches taskInstanceId c) : ReadsOwed c := by
  induction hc with
  | refl =>
      refine ⟨?_, ?_⟩
      · intro future hlt
        exact absurd hlt (Nat.not_lt_zero future)
      · intro hno
        cases hno
  | tail hreach hlast ih =>
      have hsound := sound_of_clientReaches hreach
      obtain ⟨l, -, hs⟩ := hlast
      rcases step_cases hs with ⟨t, o, -, ht, rfl⟩ | ⟨t, i, call, -, ht, rfl⟩
      · exact ih.invoke ht _
      · exact ih.advance ht hsound.shared (hsound.threads t call ht) i

/-- For every interleaving of the operations of a client buffer whose tokens were returned
before: the current sequence id and the buffered pages add up to the pages added until the
buffer is destroyed, no step moves the sequence id back, no check fails, the buffered bytes
are those of the buffered pages, and a read that was parked before a later `getPages`,
`enqueuePages`, `setNoMorePages` or `destroy` started is, once that operation has finished,
completed or owed by an operation that is still in progress. -/
theorem tokenDiscipline
    (taskInstanceId : String) (c : Config (Observed δ) (Call δ))
    (hc : ClientReaches taskInstanceId c) :
    (c.shared.trace.buffer.destroyed = false →
        c.shared.trace.buffer.currentSequenceId + c.shared.trace.buffer.pages.length =
          c.shared.trace.buffer.pagesAdded) ∧
      (∀ c', Step clientMachine TokensReturned c c' →
        c.shared.trace.buffer.currentSequenceId ≤ c'.shared.trace.buffer.currentSequenceId) ∧
      c.shared.trace.thrown = [] ∧
      c.shared.trace.buffer.bufferedBytes = totalBytes c.shared.trace.buffer.pages ∧
      ∀ future, future < c.shared.settled →
        c.shared.trace.isDone future = true ∨
          ∃ t call, c.threads t = some call ∧ call.activity.Owes c.shared.trace future := by
  have hsound := sound_of_clientReaches hc
  have howed := readsOwed_of_clientReaches hc
  have haligned := hsound.shared.consistent.aligned
  refine ⟨?_, ?_, hsound.shared.thrown, haligned.bytes, ?_⟩
  · intro halive
    have hle := haligned.le
    have hnonneg := haligned.nonneg
    rw [haligned.pages halive, List.length_drop, haligned.pagesAdded]
    omega
  · rintro c' ⟨l, -, hs⟩
    rcases step_cases hs with ⟨t, o, -, -, rfl⟩ | ⟨t, i, call, -, ht, rfl⟩
    · exact le_rfl
    · have hvalid := (hsound.threads t call ht).valid
      exact (act_spec hsound.shared.consistent hvalid i).1.currentSequenceId
  · intro future hlt
    rcases howed.futures future (hlt.trans_le hsound.shared.settled_le) with
      hdone | ⟨read, hread, rfl⟩ | ⟨t, call, read, ht, hheld, rfl⟩
    · exact Or.inl hdone
    · have hno := hsound.shared.parked read hread hlt
      rcases howed.awaited hno read hread with hdone | ⟨t, call, ht, hawaits | hheld⟩
      · exact Or.inl hdone
      · exact Or.inr ⟨t, call, ht, Or.inr ⟨hawaits, read, hread, rfl⟩⟩
      · exact Or.inr ⟨t, call, ht, Or.inl ⟨read, hheld, rfl⟩⟩
    · exact Or.inr ⟨t, call, ht, Or.inl ⟨read, hheld, rfl⟩⟩

/-- Two reads are parked one after the other and a page is enqueued.  The second read has
taken the first one out of the buffer and stops before it completes its future. -/
def overtakenRead : List (Label (Operation Unit) (Supply Unit)) :=
  [.invoke 0 (.getPages 0 1 false), .advance 0 ⟨[], true⟩, .advance 0 ⟨[], true⟩,
    .advance 0 ⟨[], true⟩,
    .invoke 1 (.getPages 0 1 false), .advance 1 ⟨[], true⟩, .advance 1 ⟨[], true⟩,
    .advance 1 ⟨[], true⟩,
    .invoke 2 (.enqueuePages [⟨0, ⟨(), 1, 1⟩, .taskWide⟩]), .advance 2 ⟨[], true⟩,
    .advance 2 ⟨[], true⟩, .advance 2 ⟨[], true⟩, .advance 2 ⟨[], true⟩]

/-- The configuration after `overtakenRead`, in which thread 2 has finished. -/
def afterOvertakenRead : Config (Observed Unit) (Call Unit) :=
  (run clientMachine TokensReturned (.idle ⟨.create "task", 0⟩) overtakenRead).getD
    (.idle ⟨.create "task", 0⟩)

theorem clientReaches_afterOvertakenRead : ClientReaches "task" afterOvertakenRead :=
  reaches_getD_run (by decide +kernel)

/-- A later enqueue has finished while an earlier parked read is not yet completed. -/
theorem parkedRead_not_done_after_enqueue :
    ∃ c : Config (Observed Unit) (Call Unit),
      ClientReaches "task" c ∧
        ¬∀ future, future < c.shared.settled → c.shared.trace.isDone future = true := by
  refine ⟨afterOvertakenRead, clientReaches_afterOvertakenRead, ?_⟩
  intro h
  exact absurd (h 0 (by decide +kernel)) (by decide +kernel)

/-- In that configuration the page is counted and the first read is still owed. -/
theorem tokenDiscipline_overtakenRead :
    afterOvertakenRead.shared.trace.buffer.pagesAdded = 1 ∧
      afterOvertakenRead.shared.trace.buffer.currentSequenceId +
          afterOvertakenRead.shared.trace.buffer.pages.length =
        afterOvertakenRead.shared.trace.buffer.pagesAdded ∧
      (afterOvertakenRead.shared.trace.isDone 0 = true ∨
        ∃ t call, afterOvertakenRead.threads t = some call ∧
          call.activity.Owes afterOvertakenRead.shared.trace 0) := by
  have h := tokenDiscipline "task" afterOvertakenRead clientReaches_afterOvertakenRead
  exact ⟨by decide +kernel, h.1 (by decide +kernel), h.2.2.2.2 0 (by decide +kernel)⟩

end Presto.Execution.Buffer
