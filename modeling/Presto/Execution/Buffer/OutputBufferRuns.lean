import Presto.Execution.Buffer.OutputBufferSteps

/-!
# Runs of an output buffer

Every step of every operation satisfies its specification, so in every run the clients keep
their invariants, every thread knows what its place in the code implies, and every token is
held by exactly one thread.
-/

namespace Presto.Execution.Buffer

open StepSpec Interleaving Work List

variable {δ : Type*} {s s' : OutputBuffer δ} {w w' : Work δ}

/-- A valid transition does not take back that there are no more clients. -/
theorem OutputBuffers.noMoreBufferIds_of_checkValidTransition
    {o new : OutputBuffers} (h : o.checkValidTransition new = .ok ())
    (hold : o.noMoreBufferIds = true) : new.noMoreBufferIds = true := by
  simp only [checkValidTransition] at h
  split_ifs at h with htype hequals
  simp only [equals, Bool.and_eq_true, decide_eq_true_eq] at hequals
  exact hequals.1.2 ▸ hold

namespace OutputBuffer

theorem snapshot_perm (s : OutputBuffer δ) (order : List ℕ) :
    (s.safeGetBuffersSnapshot order).Perm s.buffers.ids := by
  rw [safeGetBuffersSnapshot]
  split_ifs with h
  · exact isPerm_iff.mp h
  · exact List.Perm.refl _

variable {id : ℕ}

theorem mem_of_snapshot {order : List ℕ} (h : id ∈ s.safeGetBuffersSnapshot order) :
    id ∈ s.buffers.ids :=
  (s.snapshot_perm order).mem_iff.mp h

/-! ## Adding pages -/

variable {pages : List (SerializedPage δ)} {lifespan : Lifespan} {partition : ℕ}

theorem enqueue_spec :
    Performs (.enqueue lifespan partition pages) s (s.enqueue lifespan partition pages) := by
  intro hready
  rw [enqueue]
  split_ifs
  · exact addThrown_spec hready _ fun _ => False.elim
  · exact stay hready trivial rfl
  · have hfresh : ¬s.Outstanding (.enqueue s.enqueues.length) := by simp [Outstanding]
    refine moved (.enqueue s.enqueues.length) hready (.of_core rfl)
      (hready.sound.of_buffers rfl) ?_ ?_ (Or.inr hfresh) ?_ fun x hx => by simp [holds, hx]
    · simp [Work.Valid]
    · refine onlyToken_of (fun _ => rfl) ?_ (fun _ _ => rfl) (fun _ _ => rfl) (fun _ _ h => h)
        fun _ _ => Or.inl rfl
      intro n hn
      exact getElem?_append_of_ne _ _ fun heq => hn (congrArg Token.enqueue heq.symm)
    · simp [Outstanding, holds, EnqueueStage.inProgress]

variable {call : ℕ}

theorem enqueueTested_spec :
    Performs (.enqueueTested call lifespan partition pages) s
      (s.enqueueTested call lifespan partition pages) := by
  intro hready
  cases htype : s.type with
  | partitioned | discarding =>
      have hne : s.type ≠ .arbitrary := by rw [htype]; decide
      simp only [enqueueTested, htype]
      exact StepSpec.call hready rfl rfl rfl rfl fun hentry => ⟨hne, hentry⟩
  | broadcast | arbitrary =>
      simp only [enqueueTested, htype]
      exact StepSpec.call hready rfl rfl rfl rfl fun hentry => ⟨htype, hentry⟩

variable {references : List (SerializedPageReference δ)} {ids : List ℕ}

theorem deliver_spec :
    Performs (.deliver call references ids) s (s.deliver call references ids) := by
  intro hready
  cases ids with
  | nil => exact StepSpec.call hready rfl rfl rfl rfl fun _ => trivial
  | cons id ids =>
      cases hclient : s.buffers.get id with
      | none =>
          simp only [deliver, hclient]
          exact StepSpec.call hready rfl rfl rfl rfl fun _ => trivial
      | some client =>
          simp only [deliver, hclient]
          split_ifs with hloading
          · exact wait hready
          · have hnone : client.loading = none := by simpa using hloading
            have hcall : StepSpec (.deliver call references (id :: ids)) s
                (s.setCall call ⟨references, .delivering ids⟩, .deliver call references ids) :=
              StepSpec.call hready rfl rfl rfl rfl fun hentry =>
                ⟨hready.valid.1, hentry⟩
            refine hcall.trans ?_
            rw [← hnone]
            exact runSection_spec (a := .enqueuePagesLocked references) hcall.ready hclient
              trivial (Or.inr ⟨references, rfl⟩) nofun
              (fun h => by rw [hnone] at h; cases h) _ hcall.valid rfl

theorem poll_spec {index remaining : ℕ} :
    Performs (.poll ids index remaining) s (s.poll ids index remaining) := by
  intro hready
  obtain ⟨htype, hids, hindex⟩ := hready.valid
  cases remaining with
  | zero => exact stay hready trivial rfl
  | succ remaining =>
      simp only [poll]
      split_ifs
      · exact quiet hready (.of_core rfl) trivial rfl rfl
      · have hlt : index < ids.length := hindex.resolve_right (Nat.succ_ne_zero remaining)
        have hmem : ids.getD index 0 ∈ s.buffers.ids := by
          rw [getD_eq_getElem?_getD, getElem?_eq_getElem hlt]
          exact hids _ (getElem_mem hlt)
        obtain ⟨client, hclient⟩ := s.buffers.exists_get_of_mem hmem
        refine stay hready ?_ rfl
        refine ⟨⟨client, hclient, trivial⟩, htype, fun _ _ => False.elim, htype, hids, ?_⟩
        exact Or.inl (Nat.mod_lt _ (Nat.zero_lt_of_lt hlt))

/-! ## The end of the pages -/

theorem endClient_spec : Performs (.endClient ids) s (s.endClient ids) := by
  intro hready
  obtain ⟨hclosed, hmaster, hids⟩ := hready.valid
  cases ids with
  | nil =>
      exact quiet hready (.of_buffers (.refl _) rfl rfl id rfl (fun _ => rfl) id) trivial rfl rfl
  | cons id ids =>
      have hrest : (Work.endClient ids).Valid s :=
        ⟨hclosed, hmaster, fun other hother => hids other (mem_cons_of_mem id hother)⟩
      obtain ⟨client, hclient⟩ := s.buffers.exists_get_of_mem (hids id mem_cons_self)
      simp only [endClient, hclient]
      split_ifs with htype hloading
      · refine stay hready ?_ rfl
        exact ⟨⟨client, hclient, trivial⟩, htype, fun _ _ => False.elim, hrest⟩
      · exact wait hready
      · have hnone : client.loading = none := by simpa using hloading
        rw [← hnone]
        exact runSection_spec (a := .setNoMorePagesLocked) hready hclient trivial
          (Or.inl ⟨htype, hclosed⟩) nofun
          (fun h => by rw [hnone] at h; cases h) _ hrest rfl

/-! ## Clients -/

theorem broadcastClient_consistent (s : OutputBuffer δ) : s.broadcastClient.Consistent := by
  have hnew := Traced.create_consistent (δ := δ) s.taskInstanceId
  have hfilled := (act_spec (a := .enqueuePagesLocked s.initialPagesForNewBuffers) hnew trivial
    ⟨[], true⟩).2.1
  have hended := (act_spec (a := .setNoMorePagesLocked) hfilled trivial ⟨[], true⟩).2.1
  simp only [broadcastClient]
  split_ifs
  · exact hnew
  · exact (Activity.Changes.destroy rfl).consistent hfilled
  · exact (Activity.Changes.destroy rfl).consistent hended
  · exact hfilled
  · exact hended

theorem arbitraryClient_consistent (s : OutputBuffer δ) : s.arbitraryClient.Consistent := by
  have hnew := Traced.create_consistent (δ := δ) s.taskInstanceId
  simp only [arbitraryClient]
  split_ifs
  · exact (Activity.Changes.destroy rfl).consistent hnew
  · exact hnew

section GetBuffer

/-- A new client extends the state. -/
theorem evolves_create {client : Client δ} (hnew : s.buffers.get id = none)
    (h : { s' with buffers := s.buffers }.core = s.core)
    (hbuffers : s'.buffers = s.buffers.set id client) : s.Evolves s' := by
  refine .of_set h hbuffers ?_
  intro old hold
  rw [hnew] at hold
  cases hold

variable {held : Bool} {id : ℕ} {activity : Option (Activity δ)} {next : Work δ}

theorem newBuffer_spec :
    Performs (.newBuffer held id activity next) s (s.newBuffer held id activity next) := by
  intro hready
  obtain ⟨hactivity, -, hnew, hresumes, hnext⟩ := hready.valid
  have hevolves : s.Evolves { s.setClient id ⟨s.arbitraryClient, none⟩ with locked := held } :=
    evolves_create hnew rfl rfl
  have hlocked : held = true ↔ (afterGetBuffer id activity next).holds .lock := by
    rw [afterGetBuffer_holds, hresumes.holds]
    simp
  refine StepSpec.create hready hevolves ?_ (Or.inl hresumes.lock) hlocked hnew
    s.arbitraryClient_consistent rfl ?_ rfl
  · refine afterGetBuffer_valid (s.buffers.get_set_self _) ?_ ?_
    · intro a ha
      obtain ⟨hvalid, hpermitted, halone⟩ := hactivity a ha
      exact ⟨hvalid _, hpermitted.evolves hevolves, halone⟩
    · exact hresumes.valid hnext hevolves
  · intro x hx
    rw [afterGetBuffer_holds]
    simp [holds, hx]

/-- What `getBuffer` can do. -/
theorem getBuffer_cases
    (s : OutputBuffer δ) (held : Bool) (id : ℕ) (activity : Option (Activity δ)) (next : Work δ) :
    (s.type = .partitioned ∧ s.buffers.get id = none ∧
        s.getBuffer held id activity next = (s.addThrown .indexOutOfBounds, .done)) ∨
      s.getBuffer held id activity next = (s, .getBuffer held id activity next) ∨
      (∃ client, s.buffers.get id = some client ∧
        s.getBuffer held id activity next = (s, .afterGetBuffer id activity next)) ∨
      (s.buffers.get id = none ∧ (held = true ∨ s.locked = false) ∧
        ((s.mayCreateBuffer = false ∧
            s.getBuffer held id activity next =
              ({ s with locked := false }.addThrown
                (.illegalState "No more buffers already set"), .done)) ∨
          (s.type = .arbitrary ∧ s.mayCreateBuffer = true ∧
            s.getBuffer held id activity next =
              ({ s with locked := true }, .newBuffer held id activity next)) ∨
          (s.type ≠ .partitioned ∧ s.type ≠ .arbitrary ∧ s.mayCreateBuffer = true ∧
            s.getBuffer held id activity next =
              (s.withBroadcastClient id, .afterGetBuffer id activity next)))) := by
  simp only [getBuffer]
  by_cases htype : s.type = .partitioned
  · cases hclient : s.buffers.get id <;> simp [htype]
  · by_cases hblocked : (s.locked && !held) = true
    · simp [htype, hblocked]
    · have hheld : held = true ∨ s.locked = false := by
        cases held <;> simp_all
      cases hclient : s.buffers.get id with
      | some client => simp [htype, hblocked]
      | none =>
          cases hmay : s.mayCreateBuffer with
          | false => simp [htype, hblocked, hheld]
          | true =>
              by_cases harbitrary : s.type = .arbitrary <;>
                simp [htype, hblocked, hheld, harbitrary]

theorem getBuffer_spec :
    Performs (.getBuffer held id activity next) s (s.getBuffer held id activity next) := by
  intro hready
  obtain ⟨hactivity, hpartitioned, hresumes, hnext⟩ := hready.valid
  have howned : held = true ∨ s.locked = false →
      (Work.getBuffer held id activity next).holds .lock ∨ s.locked = false :=
    fun h => h.imp_left fun hheld => (hresumes.holds .lock).mpr ⟨hheld, rfl⟩
  rcases s.getBuffer_cases held id activity next with
    ⟨htype, -, h⟩ | h | ⟨client, hclient, h⟩ | ⟨hnew, hheld, ⟨-, h⟩ | ⟨htype, -, h⟩ | ⟨-, -, -, h⟩⟩
  · rw [h]
    refine addThrown_spec hready _ ?_
    intro x hx
    have hheld := ((hresumes.holds x).mp hx).1
    rw [hpartitioned htype] at hheld
    cases hheld
  · rw [h]
    exact wait hready
  · rw [h]
    refine stay hready ?_ (afterGetBuffer_holds id activity next)
    refine afterGetBuffer_valid hclient ?_ hnext
    intro a ha
    obtain ⟨hvalid, hpermitted, halone⟩ := hactivity a ha
    exact ⟨hvalid _, hpermitted, halone⟩
  · rw [h]
    refine lock hready (.of_core rfl) trivial (howned hheld) ?_ ?_ rfl
    · simp [addThrown, holds]
    · intro x hx
      exact ⟨False.elim, fun h => hx ((hresumes.holds x).mp h).2⟩
  · rw [h]
    have hevolves : s.Evolves { s with locked := true } := .of_core rfl
    refine lock hready hevolves ?_ (howned hheld) ?_
      (fun x hx => by simp [holds, hx]) rfl
    · refine ⟨?_, htype, hnew, hresumes, hresumes.valid hnext hevolves⟩
      intro a ha
      obtain ⟨hvalid, hpermitted, halone⟩ := hactivity a ha
      exact ⟨hvalid, hpermitted.evolves hevolves, halone⟩
    · exact ⟨fun _ => hresumes.lock, fun _ => rfl⟩
  · rw [h]
    have hevolves : s.Evolves (s.withBroadcastClient id) :=
      evolves_create hnew rfl rfl
    refine StepSpec.create hready hevolves ?_ (howned hheld) ?_ hnew
      s.broadcastClient_consistent rfl (fun x _ => by rw [afterGetBuffer_holds]; rfl) rfl
    · refine afterGetBuffer_valid (s.buffers.get_set_self _) ?_
        (hresumes.valid hnext hevolves)
      intro a ha
      obtain ⟨hvalid, hpermitted, halone⟩ := hactivity a ha
      exact ⟨hvalid _, hpermitted.evolves hevolves, halone⟩
    · rw [afterGetBuffer_holds, hresumes.holds]
      constructor
      · intro hlocked
        exact ⟨hheld.resolve_right fun hfree => Bool.eq_false_iff.mp hfree hlocked, rfl⟩
      · rintro ⟨hheld, -⟩
        exact hready.known .lock ((hresumes.holds _).mpr ⟨hheld, rfl⟩)

end GetBuffer

/-! ## Declaring clients -/

/-- What the start of `setOutputBuffers` can do. -/
theorem setOutputBuffers_cases (s : OutputBuffer δ) (newOutputBuffers : OutputBuffers) :
    s.setOutputBuffers newOutputBuffers = (s, .setOutputBuffers newOutputBuffers) ∨
      s.setOutputBuffers newOutputBuffers = (s, .done) ∨
      (∃ e, s.setOutputBuffers newOutputBuffers = (s.addThrown e, .done)) ∨
      (s.type ≠ .partitioned ∧ s.locked = false ∧ s.state.isTerminal = false ∧
        s.outputBuffers.checkValidTransition newOutputBuffers = .ok () ∧
        s.setOutputBuffers newOutputBuffers =
          ({ s with outputBuffers := newOutputBuffers, locked := true },
            .addBuffers s.state.canAddPages newOutputBuffers.ids)) := by
  simp only [setOutputBuffers]
  by_cases hblocked : (s.locked && decide (s.type ≠ .partitioned)) = true
  · rw [if_pos hblocked]
    exact Or.inl rfl
  · rw [if_neg hblocked]
    by_cases hignored :
        (s.state.isTerminal || decide (s.outputBuffers.version ≥ newOutputBuffers.version)) = true
    · rw [if_pos hignored]
      exact Or.inr (Or.inl rfl)
    · rw [if_neg hignored]
      cases s.outputBuffers.checkValidTransition newOutputBuffers with
      | error e => exact Or.inr (Or.inr (Or.inl ⟨e, rfl⟩))
      | ok _ =>
          by_cases htype : s.type = .partitioned
          · exact Or.inr (Or.inl (if_pos htype))
          · refine Or.inr (Or.inr (Or.inr ⟨htype, ?_, ?_, rfl, if_neg htype⟩))
            · simpa [htype] using hblocked
            · simp only [Bool.or_eq_true, not_or, Bool.not_eq_true] at hignored
              exact hignored.1

theorem setOutputBuffers_spec {newOutputBuffers : OutputBuffers} :
    Performs (.setOutputBuffers newOutputBuffers) s (s.setOutputBuffers newOutputBuffers) := by
  intro hready
  rcases s.setOutputBuffers_cases newOutputBuffers with
    h | h | ⟨e, h⟩ | ⟨htype, hfree, -, hcheck, h⟩
  · rw [h]
    exact wait hready
  · rw [h]
    exact stay hready trivial rfl
  · rw [h]
    exact addThrown_spec hready e fun _ => False.elim
  · rw [h]
    refine lock hready ?_ ⟨htype, fun h => h⟩ (Or.inr hfree) (by simp [holds])
      (fun x hx => by simp [holds, hx]) rfl
    exact .of_buffers (.refl _) rfl rfl
      (OutputBuffers.noMoreBufferIds_of_checkValidTransition hcheck) rfl id id

theorem addBuffers_spec {canAddPages : Bool} :
    Performs (.addBuffers canAddPages ids) s (s.addBuffers canAddPages ids) := by
  intro hready
  cases ids with
  | nil =>
      simp only [addBuffers]
      by_cases hno : s.outputBuffers.noMoreBufferIds = true
      · rw [if_pos hno]
        exact quiet hready (.of_core rfl) hno rfl rfl
      · rw [if_neg hno]
        exact lock hready (.of_core rfl) trivial (Or.inl rfl) (by simp [holds])
          (fun x hx => by simp [holds, hx]) rfl
  | cons id ids =>
      have hrest : (Work.addBuffers canAddPages ids).Valid s := hready.valid
      have hnot : s.type = .partitioned → true = false := fun h => absurd h hready.valid.1
      have hnone : (Work.getBuffer true id none (.addBuffers canAddPages ids)).Valid s := by
        refine ⟨?_, hnot, Or.inl ⟨rfl, _, _, rfl⟩, hrest⟩
        intro a h
        cases h
      simp only [addBuffers]
      split_ifs with harbitrary hmem hadd
      · exact stay hready hnone rfl
      · exact stay hready hrest rfl
      · exact stay hready hnone rfl
      · refine stay hready ?_ rfl
        refine ⟨?_, hnot, Or.inl ⟨rfl, _, _, rfl⟩, hrest⟩
        rintro a ⟨rfl⟩
        exact ⟨fun _ => trivial, ⟨harbitrary, hready.valid.2 (by simpa using hadd)⟩,
          by rintro ⟨⟩⟩

variable {next : Work δ}

theorem forgetPages_spec : Performs (.noMoreBuffers next) s (s.forgetPages, next) := by
  intro hready
  obtain ⟨-, hnone, hnext⟩ := hready.valid
  rw [forgetPages]
  split_ifs
  · have hevolves : s.Evolves { s with initialPagesForNewBuffers := [] } :=
      .of_core rfl
    exact quiet hready hevolves
      (hnext.evolves hevolves fun x hx => absurd hx (hnone x)) rfl rfl
  · exact stay hready hnext rfl

theorem noMoreBuffers_spec : Performs (.noMoreBuffers next) s (s.noMoreBuffers next) := by
  intro hready
  have hforget := forgetPages_spec hready
  rw [noMoreBuffers]
  split_ifs
  · exact wait hready
  · exact hforget.trans (addThrown_spec hforget.ready _ hready.valid.2.1)
  · exact hforget.trans (lend_spec hforget.ready _)

/-! ## Finishing -/

theorem checkFlushComplete_valid (s : OutputBuffer δ) : s.checkFlushComplete.Valid s := by
  rw [checkFlushComplete]
  split_ifs with hflushing harbitrary hno
  · intro _
    rw [hflushing]
    rfl
  · intro _
    rw [hno]
    rfl
  · trivial
  · exact fun h => absurd h harbitrary

theorem flushClients_spec (hready : Ready (.flushClients : Work δ) s) (order : List ℕ) :
    StepSpec .flushClients s
      ({ s with flushes := s.flushes ++ [true] },
        .flushClient s.flushes.length (s.safeGetBuffersSnapshot order)) := by
  have hfresh : ¬s.Outstanding (.flush s.flushes.length) := by simp [Outstanding]
  refine moved (.flush s.flushes.length) hready (.of_core rfl)
    (hready.sound.of_buffers rfl) ?_ ?_ (Or.inr hfresh) ?_ fun x hx => by simp [holds, hx]
  · exact ⟨by simp, hready.valid, fun id hid => mem_of_snapshot hid⟩
  · refine onlyToken_of (fun _ => rfl) (fun _ _ => rfl) ?_ (fun _ _ => rfl) (fun _ _ h => h)
      fun _ _ => Or.inl rfl
    intro n hn
    exact getElem?_append_of_ne _ _ fun heq => hn (congrArg Token.flush heq.symm)
  · simp [Outstanding, holds]

theorem flushClient_spec {flush : ℕ} :
    Performs (.flushClient flush ids) s (s.flushClient flush ids) := by
  intro hready
  obtain ⟨hflush, hclosed, hids⟩ := hready.valid
  cases ids with
  | nil =>
      refine stay hready ?_ ?_
      · rintro n ⟨rfl⟩
        exact ⟨hflush, hclosed⟩
      · exact funext fun x => by simp [holds]
  | cons id ids =>
      obtain ⟨client, hclient⟩ := s.buffers.exists_get_of_mem (hids id mem_cons_self)
      simp only [flushClient, hclient]
      split_ifs
      · refine stay hready ?_ rfl
        exact ⟨hflush, hclosed, fun other hother => hids other (mem_cons_of_mem id hother)⟩
      · exact StepSpec.endFlush hready rfl rfl (fun _ h => h) rfl

theorem destroy_spec {flush : Option ℕ} : Performs (.destroy flush) s (s.destroy flush) := by
  intro hready
  have hended : StepSpec (.destroy flush) s (s.endFlush flush, .done) := by
    cases flush with
    | none =>
        refine StepSpec.stay hready trivial ?_
        exact funext fun x => by simp [holds]
    | some n =>
        refine StepSpec.endFlush hready rfl ⟨n, rfl, rfl⟩ ?_ rfl
        rintro x ⟨_, ⟨rfl⟩, rfl⟩
        rfl
  have hstate : (s.endFlush flush).state = s.state := by cases flush <;> rfl
  have htype : (s.endFlush flush).type = s.type := by cases flush <;> rfl
  simp only [destroy]
  split_ifs with hterminal
  · exact hended
  · have hevolves : (s.endFlush flush).Evolves ((s.endFlush flush).setState .finished) :=
      .setState (BufferState.later_of_terminal (by simpa [hstate] using hterminal) rfl)
    refine hended.trans ?_
    refine StepSpec.quiet hended.ready hevolves ?_ ?_ rfl
    · cases hs : s.type with
      | partitioned | discarding => rfl
      | broadcast => exact ⟨rfl, fun _ => False.elim, rfl⟩
      | arbitrary => exact ⟨rfl, fun _ => False.elim, htype.trans hs, rfl⟩
    · cases s.type <;> rfl

theorem destroyMaster_spec (hready : Ready (.destroyMaster : Work δ) s) :
    StepSpec .destroyMaster s s.destroyMaster := by
  have hcleared : StepSpec .destroyMaster s ({ s with masterBuffer := [] }, .destroyClients) :=
    quiet hready (.of_core rfl) hready.valid.2 rfl rfl
  exact hcleared.trans (lend_spec hcleared.ready _)

theorem destroyClient_spec : Performs (.destroyClient ids) s (s.destroyClient ids) := by
  intro hready
  cases ids with
  | nil =>
      exact quiet hready (.of_core rfl) trivial rfl rfl
  | cons id ids =>
      obtain ⟨client, hclient⟩ := s.buffers.exists_get_of_mem (hready.valid.2 id mem_cons_self)
      refine stay hready ?_ rfl
      exact ⟨⟨client, hclient, trivial⟩, trivial, nofun, hready.valid.1,
        fun other hother => hready.valid.2 other (mem_cons_of_mem id hother)⟩

theorem dereference_spec {loan : ℕ} {pages : List (SerializedPageReference δ)} :
    Performs (.dereference loan pages next) s ({ s with
          loans := s.loans.set loan []
          pageTracker := s.pageTracker.dereferencePages pages }, next) := by
  intro hready
  obtain ⟨hloan, -, hnot, hnext⟩ := hready.valid
  have hlt : loan < s.loans.length := (List.getElem?_eq_some_iff.mp hloan).1
  have hevolves : s.Evolves { s with
      loans := s.loans.set loan []
      pageTracker := s.pageTracker.dereferencePages pages } :=
    .of_core rfl
  have hothers : s.OnlyToken { s with
      loans := s.loans.set loan []
      pageTracker := s.pageTracker.dereferencePages pages } (.loan loan) := by
    refine onlyToken_of (fun _ => rfl) (fun _ _ => rfl) (fun _ _ => rfl) ?_ (fun _ _ h => h)
      fun _ _ => Or.inl rfl
    intro n hn
    exact getElem?_set_ne fun heq => hn (congrArg Token.loan heq)
  refine moved (.loan loan) hready hevolves (hready.sound.of_buffers rfl) ?_ hothers
    (Or.inl (Or.inl rfl)) ?_ fun x hx => by simp [holds, hx]
  · refine hnext.evolves hevolves fun x hx => (hothers x ?_).2
    rintro rfl
    exact hnot hx
  · simp [Outstanding, getElem?_set_self hlt, hnot]

theorem snapshot_spec {waiting : Work δ} {next : List ℕ → Work δ} (hready : Ready waiting s)
    (order : List ℕ) (hnext : ∀ ids : List ℕ, (∀ id ∈ ids, id ∈ s.buffers.ids) → (next ids).Valid s)
    (hholds : ∀ ids, (next ids).holds = waiting.holds) :
    StepSpec waiting s (s.snapshot order waiting next) := by
  rw [snapshot]
  split_ifs
  · exact wait hready
  · exact stay hready (hnext _ fun id hid => mem_of_snapshot hid) (hholds _)

theorem fail_spec (hready : Ready (.fail) s) : StepSpec .fail s (s.fail, .done) := by
  rw [fail]
  split_ifs with hterminal
  · exact stay hready trivial rfl
  · have hlater : s.state.Later .failed :=
      BufferState.later_of_terminal (by simpa using hterminal) rfl
    exact quiet hready (.of_buffers hlater rfl rfl id rfl id id) trivial rfl rfl

/-! ## Every step -/

theorem step_spec (hready : Ready w s) (order : List ℕ) : StepSpec w s (s.step order w) := by
  obtain ⟨hnoMorePages, hflushing, hnoMoreBuffers, hflushing'⟩ := s.state.later_compareAndSet
  cases w with
  | done => exact wait hready
  | throw e => exact addThrown_spec hready e fun _ => False.elim
  | registerLifespanCompletionCallback =>
      simp only [step]
      split_ifs
      · exact addThrown_spec hready _ fun _ => False.elim
      · exact quiet hready (.of_core rfl) trivial rfl rfl
  | setNoMorePagesForLifespan lifespan =>
      exact quiet hready (.of_core rfl) trivial rfl rfl
  | enqueue lifespan partition pages => exact enqueue_spec hready
  | enqueueTested call lifespan partition pages => exact enqueueTested_spec hready
  | rememberPages call references =>
      simp only [step]
      split_ifs
      · exact wait hready
      · have hne : s.type ≠ .arbitrary := by rw [hready.valid.1]; decide
        simp only [rememberPages]
        split_ifs <;>
          exact StepSpec.call hready rfl rfl rfl rfl fun hentry => ⟨hne, hentry⟩
  | deliver call references ids => exact deliver_spec hready
  | addToMaster call references =>
      exact StepSpec.call hready rfl rfl rfl rfl fun _ => hready.valid.1
  | pollClients | destroyClients =>
      exact snapshot_spec hready order (fun ids hids => ⟨hready.valid, hids⟩) fun _ => rfl
  | pollFrom ids =>
      simp only [step]
      split_ifs with hempty
      · exact stay hready trivial rfl
      · have hpos : 0 < ids.length := length_pos_of_ne_nil (by simpa using hempty)
        refine stay hready ?_ rfl
        exact ⟨hready.valid.1, hready.valid.2, Or.inl (Nat.mod_lt _ hpos)⟩
  | poll ids index remaining => exact poll_spec hready
  | dereference loan pages next => exact dereference_spec hready
  | getBuffer held id activity next => exact getBuffer_spec hready
  | newBuffer held id activity next => exact newBuffer_spec hready
  | inClient id a next => exact inClient_spec hready
  | loadClient id a next => exact loadClient_spec hready
  | setNoMorePages =>
      refine quiet hready (.setState hnoMorePages) ?_ rfl rfl
      cases hstate : s.state <;> simp [Work.Valid, setState, BufferState.compareAndSet]
  | setNoMorePagesAgain =>
      have hclosed : (s.state.compareAndSet .noMoreBuffers .flushing).canAddPages = false := by
        have hopen : s.state ≠ .open := hready.valid
        cases hstate : s.state <;> first | exact absurd hstate hopen | rfl
      simp only [step]
      split_ifs with htype
      · exact quiet hready (.setState hflushing) ⟨htype, hclosed⟩ rfl rfl
      · exact quiet hready (.setState hflushing) ⟨hclosed, fun h => absurd h htype⟩ rfl rfl
  | masterNoMorePages =>
      exact quiet hready (.of_buffers (.refl _) rfl rfl id rfl id fun _ => rfl)
        ⟨hready.valid.2, fun _ => rfl⟩ rfl rfl
  | endClients =>
      exact snapshot_spec hready order
        (fun ids hids => ⟨hready.valid.1, hready.valid.2, hids⟩) fun _ => rfl
  | endClient ids => exact endClient_spec hready
  | setOutputBuffers newOutputBuffers => exact setOutputBuffers_spec hready
  | addBuffers canAddPages ids => exact addBuffers_spec hready
  | noMoreBuffersOpen =>
      refine quiet hready (.setState hnoMoreBuffers) ⟨hready.valid, ?_⟩ rfl rfl
      cases hstate : s.state <;> simp [setState, BufferState.compareAndSet]
  | noMoreBuffersNoMorePages =>
      exact lock hready (.of_buffers hflushing' rfl rfl id rfl id id) trivial (Or.inl rfl)
        (by simp [holds]) (fun x hx => by simp [holds, hx]) rfl
  | buffersSet =>
      simp only [step]
      split_ifs with hadd
      · exact stay hready trivial rfl
      · exact stay hready ⟨by simpa using hadd, fun _ => False.elim, trivial⟩ rfl
  | noMoreBuffers next => exact noMoreBuffers_spec hready
  | checkFlushComplete =>
      refine stay hready s.checkFlushComplete_valid ?_
      rw [checkFlushComplete]
      split_ifs <;> rfl
  | checkFlushCompleteAgain =>
      simp only [step, checkFlushCompleteAgain]
      split_ifs <;> first | exact stay hready hready.valid rfl | exact stay hready trivial rfl
  | flushClients =>
      simp only [step]
      split_ifs
      · exact wait hready
      · exact flushClients_spec hready order
  | flushClient flush ids => exact flushClient_spec hready
  | destroy flush => exact destroy_spec hready
  | destroyMaster => exact destroyMaster_spec hready
  | destroyClient ids => exact destroyClient_spec hready
  | fail => exact fail_spec hready

end OutputBuffer

/-! ## Runs -/

/-- The invariants that every run of an output buffer keeps. -/
structure Orderly (c : Config (OutputBuffer δ) (Work δ)) : Prop where
  annotated : Annotated OutputBuffer.Sound (fun s w => Work.Valid s w) c
  custody : Custody Work.holds OutputBuffer.Outstanding c

theorem Work.running_eq_some {b : Work δ} (h : w.running = some b) : b = w := by
  cases w <;> first | exact (Option.some.inj h).symm | cases h

theorem Work.holds_iff_running (x : Token) : w.holds x ↔ ∃ b, w.running = some b ∧ b.holds x := by
  constructor
  · intro hx
    cases w <;> first | exact ⟨_, rfl, hx⟩ | cases hx
  · rintro ⟨b, hb, hx⟩
    exact running_eq_some hb ▸ hx

theorem BufferOperation.start_valid (operation : BufferOperation δ) :
    (operation.start s.type).Valid s ∧ ∀ x, ¬(operation.start s.type).holds x := by
  cases operation with
  | registerLifespanCompletionCallback | fail => exact ⟨trivial, fun _ => False.elim⟩
  | enqueue lifespan partition pages =>
      simp only [BufferOperation.start]
      split_ifs <;> exact ⟨trivial, fun _ => False.elim⟩
  | get bufferId startingSequenceId maxSize =>
      simp only [BufferOperation.start]
      split_ifs
      · exact ⟨trivial, fun _ => False.elim⟩
      · refine ⟨⟨?_, fun _ => rfl, Or.inr ⟨rfl, fun _ => False.elim⟩, trivial⟩, fun _ => False.elim⟩
        rintro a ⟨rfl⟩
        refine ⟨fun _ => trivial, ?_, fun _ _ => False.elim⟩
        rintro request ⟨rfl⟩ hsupplied
        exact of_decide_eq_true hsupplied
  | acknowledge bufferId sequenceId =>
      refine ⟨⟨?_, fun _ => rfl, Or.inr ⟨rfl, fun _ => False.elim⟩, trivial⟩, fun _ => False.elim⟩
      rintro a ⟨rfl⟩
      refine ⟨fun _ => trivial, ?_, fun _ _ => False.elim⟩
      intro request hrequest
      cases hrequest
  | abort bufferId =>
      refine ⟨⟨?_, fun _ => rfl, Or.inr ⟨rfl, fun _ => False.elim⟩, trivial⟩, fun _ => False.elim⟩
      rintro a ⟨rfl⟩
      exact ⟨fun _ => trivial, trivial, fun _ _ => False.elim⟩
  | setOutputBuffers _ | setNoMorePages | setNoMorePagesForLifespan _ =>
      exact ⟨trivial, fun _ => False.elim⟩
  | destroy =>
      refine ⟨?_, ?_⟩
      · intro n hn
        cases hn
      · rintro x ⟨n, hn, -⟩
        cases hn

/-- An annotation of the threads that holds when an operation starts, and that each step
establishes for its own thread and keeps for a thread with other tokens, is kept by every
step of a run. -/
theorem Orderly.annotated_step
    {c c' : Config (OutputBuffer δ) (Work δ)} {l : Label (BufferOperation δ) (List ℕ)}
    {I : OutputBuffer δ → Prop} {J : OutputBuffer δ → Work δ → Prop}
    (hc : Orderly c) (hannotated : Annotated I J c) (hstep : step bufferMachine c l = some c')
    (hinvoke : ∀ t o, l = .invoke t o → J c.shared (o.start c.shared.type))
    (hact : ∀ t order w, l = .advance t order → c.threads t = some w → w.Valid c.shared →
      (∀ x, w.holds x → c.shared.Outstanding x) → StepSpec w c.shared (c.shared.step order w) →
      I c.shared → J c.shared w →
      I (c.shared.step order w).1 ∧
        J (c.shared.step order w).1 (c.shared.step order w).2 ∧
        ∀ b, b.Valid c.shared → (∀ x, b.holds x → c.shared.Outstanding x ∧ ¬w.holds x) →
          J c.shared b → J (c.shared.step order w).1 b) :
    Annotated I J c' := by
  rcases step_cases hstep with ⟨t, o, hl, -, rfl⟩ | ⟨t, order, w, hl, ht, rfl⟩
  · refine hannotated.move hannotated.shared ?_ fun b hb => hb
    rintro b ⟨rfl⟩
    exact hinvoke t o hl
  · have hw := hc.annotated.threads t w ht
    have hknown : ∀ x, w.holds x → c.shared.Outstanding x :=
      fun x hx => hc.custody.known t w x ht hx
    have hspec := OutputBuffer.step_spec ⟨hw, hknown, hc.annotated.shared⟩ order
    obtain ⟨hshared, hown, hother⟩ :=
      hact t order w hl ht hw hknown hspec hannotated.shared (hannotated.threads t w ht)
    refine hannotated.move_of_ne hshared ?_ ?_
    · intro b hb
      rw [running_eq_some hb]
      exact hown
    · intro u b hut hu hb
      refine hother b (hc.annotated.threads u b hu) ?_ hb
      intro x hx
      exact ⟨hc.custody.known u b x hu hx,
        fun hwx => hut (hc.custody.unique u t b w x hu ht hx hwx)⟩

theorem Orderly.step
    {c c' : Config (OutputBuffer δ) (Work δ)} {l : Label (BufferOperation δ) (List ℕ)}
    (hc : Orderly c) (hstep : step bufferMachine c l = some c') : Orderly c' := by
  constructor
  · refine hc.annotated_step hc.annotated hstep (fun _ o _ => o.start_valid.1) ?_
    intro t order w _ _ _ _ hspec _ _
    refine ⟨hspec.sound, hspec.valid, ?_⟩
    intro b hb htokens _
    exact hb.evolves hspec.evolves fun x hx => hspec.same x (htokens x hx).1 (htokens x hx).2
  · rcases step_cases hstep with ⟨t, o, -, ht, rfl⟩ | ⟨t, order, w, -, ht, rfl⟩
    · exact hc.custody.invoke ht o.start_valid.2
    · have hspec := OutputBuffer.step_spec ⟨hc.annotated.threads t w ht,
        fun x hx => hc.custody.known t w x ht hx, hc.annotated.shared⟩ order
      refine hc.custody.advance ht ⟨?_, ?_⟩
      · intro x
        refine (hspec.after x).trans (or_congr_left ?_)
        exact holds_iff_running x
      · intro b x hb hx
        exact hspec.drawn x (running_eq_some hb ▸ hx)

theorem orderly_create (type : BufferType) (taskInstanceId : String) :
    Orderly (.idle (OutputBuffer.create type taskInstanceId : OutputBuffer δ)) := by
  have hsound : (OutputBuffer.create type taskInstanceId : OutputBuffer δ).Sound := by
    constructor <;>
      · intro id client hclient
        cases hclient
  refine ⟨.idle hsound, .idle ?_⟩
  intro x
  cases x <;> simp [OutputBuffer.Outstanding, OutputBuffer.create, Registry.empty]

/-- A thread runs the next steps of its operation; its snapshots list the clients as they
were created. -/
def advances (thread steps : ℕ) : List (Label (BufferOperation δ) (List ℕ)) :=
  List.replicate steps (.advance thread [])

/-- A thread starts an operation and runs its first steps. -/
def calls (thread : ℕ) (operation : BufferOperation δ) (steps : ℕ) :
    List (Label (BufferOperation δ) (List ℕ)) :=
  .invoke thread operation :: advances thread steps

end Presto.Execution.Buffer
