import Presto.Execution.Buffer.OutputBufferFlow

/-!
# The lifecycle of a partitioned output buffer

A partitioned buffer has its clients from the start.  Its state only moves forward, a flush
check finishes it only when every client is destroyed, and its descriptor stays.
-/

namespace Presto.Execution.Buffer

open Interleaving OutputBuffer

variable {δ : Type*}

namespace OutputBuffers

/-- A later descriptor declares the clients again, with their partitions, and no other ones
after the last declaration. -/
structure Continues (o new : OutputBuffers) : Prop where
  version : o.version ≤ new.version
  buffers : o.buffers ⊆ new.buffers
  final : o.noMoreBufferIds = true → new.buffers ⊆ o.buffers

theorem continues_of_checkValidTransition
    {o new : OutputBuffers} (h : o.checkValidTransition new = .ok ()) : o.Continues new := by
  simp only [checkValidTransition] at h
  split_ifs at h with htype hno hequals hversion hsame
  · simp only [equals, Bool.and_eq_true, decide_eq_true_eq] at hequals
    obtain ⟨⟨hversion, -⟩, hperm⟩ := hequals
    have hbuffers := List.isPerm_iff.mp hperm
    exact ⟨hversion.le, hbuffers.subset, fun _ => hbuffers.symm.subset⟩
  · refine ⟨not_lt.mp hversion, ?_, fun hold => absurd hold hno⟩
    intro entry hentry
    split at h
    · cases h
    · rename_i hfound
      have hlookup := List.find?_eq_none.mp hfound entry hentry
      simp only [decide_eq_true_eq, not_not] at hlookup
      obtain ⟨before, after, hnew, -⟩ := List.lookup_eq_some_iff.mp hlookup
      rw [hnew]
      exact List.mem_append_right before List.mem_cons_self

end OutputBuffers

namespace OutputBuffer

/-- The buffer that the constructor makes over the given state for a final descriptor.  Its
flush check finds every client destroyed only when there is none. -/
def newPartitioned (state : BufferState) (taskInstanceId : String)
    (outputBuffers : OutputBuffers) : OutputBuffer δ :=
  let state := (state.compareAndSet .open .noMoreBuffers).compareAndSet .noMorePages .flushing
  let finished := (state = .flushing || state = .noMoreBuffers) && outputBuffers.buffers.isEmpty
  let s := createPartitioned taskInstanceId outputBuffers
  { s with
    state := if finished then .finished else state
    pageTracker := if finished then s.pageTracker.close else s.pageTracker }

theorem partitions_get {taskInstanceId : String} {n id : ℕ} {client : Client δ}
    (h : (partitions taskInstanceId n).get id = some client) :
    client = ⟨.create taskInstanceId, none⟩ := by
  induction n with
  | zero => cases h
  | succ n ih =>
      rcases Registry.get_set_cases _ _ h with ⟨-, hnew⟩ | ⟨-, hold⟩
      · exact hnew
      · exact ih hold

end OutputBuffer

variable {state : BufferState} {taskInstanceId : String} {outputBuffers : OutputBuffers}

theorem orderly_newPartitioned :
    Orderly (.idle (.newPartitioned state taskInstanceId outputBuffers : OutputBuffer δ)) := by
  refine ⟨.idle ⟨?_, ?_⟩, .idle ?_⟩
  · intro id client hclient
    rw [partitions_get hclient]
    exact Traced.create_consistent taskInstanceId
  · intro id client hclient hloading
    rw [partitions_get hclient] at hloading
    cases hloading
  · intro x hx
    cases x with
    | load id =>
        obtain ⟨client, hclient, hloading⟩ := hx
        rw [partitions_get hclient] at hloading
        cases hloading
    | _ =>
        simp [Outstanding, newPartitioned, createPartitioned, create] at hx

theorem BufferOperation.start_checking
    {s : OutputBuffer δ} {type : BufferType} (operation : BufferOperation δ) :
    (operation.start type).Checking s := by
  cases operation with
  | enqueue _ _ _ | get _ _ _ =>
      simp only [BufferOperation.start]
      split_ifs <;> exact .of_plain rfl
  | destroy | fail => exact .of_ne (by rintro _ _ ⟨⟩) (by rintro _ ⟨⟩)
  | _ => exact .of_plain rfl

/-- The invariants of a run of a partitioned buffer. -/
theorem checking_of_reaches {c : Config (OutputBuffer δ) (Work δ)}
    (hc : Reaches bufferMachine (fun _ _ => True)
      (.idle (.newPartitioned state taskInstanceId outputBuffers)) c) :
    Orderly c ∧ Annotated (fun s => s.type = .partitioned ∧ s.outputBuffers = outputBuffers)
      (fun s w => Work.Checking s w) c := by
  refine hc.invariant (P := fun c => Orderly c ∧ Annotated _ _ c)
    ⟨orderly_newPartitioned, .idle ⟨rfl, rfl⟩⟩ ?_
  rintro d d' l ⟨horderly, hannotated⟩ - hstep
  refine ⟨horderly.step hstep, horderly.annotated_step hannotated hstep ?_ ?_⟩
  · exact fun _ o _ => o.start_checking
  intro t order w _ _ hw _ hspec ⟨htype, houtput⟩ hchecking
  have heffect := step_effect hw order
  have hcreated := heffect.fixed htype
  refine ⟨⟨hspec.evolves.type.trans htype, (heffect.outputBuffers htype).trans houtput⟩,
    step_checking hchecking hspec.evolves fun _ _ => hcreated, ?_⟩
  intro b _ _ hb
  exact hb.evolves hspec.evolves fun _ _ => hcreated

/-- The state of a partitioned buffer only moves forward and never leaves a terminal state; a
flush check finishes the buffer only when every client is destroyed; the descriptor stays, and
the accepted ones declare what it declares. -/
theorem partitioned_lifecycle
    {c d : Config (OutputBuffer δ) (Work δ)} {l : Label (BufferOperation δ) (List ℕ)}
    (hc : Reaches bufferMachine (fun _ _ => True)
      (.idle (.newPartitioned state taskInstanceId outputBuffers)) c)
    (hstep : step bufferMachine c l = some d) :
    (d.shared = c.shared ∨ ∃ t order w, l = .advance t order ∧ c.threads t = some w ∧
      StateAfter w c.shared.state d.shared.state ∧
      ∀ flush, w = .destroy (some flush) → ∀ id client, c.shared.buffers.get id = some client →
        client.traced.buffer.destroyed = true) ∧
      d.shared.outputBuffers = outputBuffers ∧
      ∀ old new : OutputBuffers, old.checkValidTransition new = .ok () → old.Continues new := by
  obtain ⟨horderly, hannotated⟩ := checking_of_reaches hc
  obtain ⟨-, hannotated'⟩ := checking_of_reaches (hc.tail ⟨l, trivial, hstep⟩)
  refine ⟨?_, hannotated'.shared.2, fun old new => OutputBuffers.continues_of_checkValidTransition⟩
  rcases step_cases hstep with ⟨t, o, -, -, rfl⟩ | ⟨t, order, w, hl, ht, rfl⟩
  · exact Or.inl rfl
  · have heffect := step_effect (horderly.annotated.threads t w ht) order
    refine Or.inr ⟨t, order, w, hl, ht, heffect.state, ?_⟩
    rintro flush rfl
    exact (hannotated.threads t _ ht).destroy flush rfl

/-- A buffer with one client, without more pages and about to be finished after the client was
aborted. -/
def drainedPartition : Config (OutputBuffer Unit) (Work Unit) :=
  (run bufferMachine (fun _ _ => True)
    (.idle (.newPartitioned .open "task" ⟨.partitioned, 1, true, [(0, 0)], by decide⟩))
    (calls 0 .setNoMorePages 8 ++ calls 0 (.abort 0) 6)).getD
    (.idle (.newPartitioned .open "task" ⟨.partitioned, 1, true, [(0, 0)], by decide⟩))

theorem partitioned_lifecycle_drainedPartition :
    drainedPartition.shared.state = .flushing ∧
      (step bufferMachine drainedPartition (.advance 0 [])).map (fun d => d.shared.state) =
        some .finished ∧
      ∀ d, step bufferMachine drainedPartition (.advance 0 []) = some d →
        d.shared.outputBuffers.buffers = [(0, 0)] := by
  refine ⟨by decide +kernel, by decide +kernel, ?_⟩
  intro d hstep
  rw [(partitioned_lifecycle (reaches_getD_run (by decide +kernel)) hstep).2.1]

/-! ## Runs of a buffer of any type -/

namespace OutputBuffer

/-- All results for a client that cover a sequence id have the same page for it. -/
def ReadsRepeat (s : OutputBuffer δ) : Prop :=
  ∀ id client, s.buffers.get id = some client → ∀ n : ℤ, ∃ page,
    ∀ r ∈ client.traced.returned, r.token ≤ n → n < r.nextToken →
      r.serializedPages[(n - r.token).toNat]? = page

/-- A client that has been told that the buffer is complete gets no more pages, unless its buffer
is destroyed. -/
def CompleteFor (s s' : OutputBuffer δ) : Prop :=
  ∀ id client client', s.buffers.get id = some client → s'.buffers.get id = some client' →
    client'.traced.buffer.destroyed = false → ∀ r ∈ client.traced.returned,
      r.bufferComplete = true → client'.traced.added.length = r.token

end OutputBuffer

section Runs

variable (type : BufferType) {s : OutputBuffer δ} {c d : Config (OutputBuffer δ) (Work δ)}

theorem Orderly.stepSpec {t : ℕ} {w : Work δ} (hc : Orderly c) (ht : c.threads t = some w)
    (order : List ℕ) : StepSpec w c.shared (c.shared.step order w) :=
  step_spec ⟨hc.annotated.threads t w ht, fun x => hc.custody.known t w x ht, hc.annotated.shared⟩
    order

theorem Orderly.reaches (hc : Orderly c) (hd : Reaches bufferMachine (fun _ _ => True) c d) :
    Orderly d ∧ c.shared.Evolves d.shared := by
  refine hd.invariant (P := fun d => Orderly d ∧ c.shared.Evolves d.shared) ⟨hc, .refl _⟩ ?_
  rintro d d' l ⟨horderly, hevolves⟩ - hstep
  refine ⟨horderly.step hstep, hevolves.trans ?_⟩
  rcases step_cases hstep with ⟨_, _, -, -, rfl⟩ | ⟨t, order, w, -, ht, rfl⟩
  · exact .refl _
  · exact (horderly.stepSpec ht order).evolves

variable
  (hs : s = .create type taskInstanceId ∨ s = .newPartitioned state taskInstanceId outputBuffers)
  (hc : Reaches bufferMachine (fun _ _ => True) (.idle s) c)

include hs hc

theorem orderly_of_reaches : Orderly c := by
  refine (Orderly.reaches ?_ hc).1
  rcases hs with rfl | rfl
  · exact orderly_create type taskInstanceId
  · exact orderly_newPartitioned

/-- Along every run the state moves forward and a terminal one stays, the last declaration of
clients is not taken back, no client is removed, and its history is only extended. -/
theorem output_buffer_evolves (hd : Reaches bufferMachine (fun _ _ => True) c d) :
    c.shared.Evolves d.shared :=
  ((orderly_of_reaches type hs hc).reaches hd).2

/-- Each token is held by one thread, and no other thread changes what it stands for. -/
theorem output_buffer_exclusive :
    Custody Work.holds Outstanding c ∧ ∀ d t u w x order, c.threads t = some w → w.holds x →
      u ≠ t → step bufferMachine c (.advance u order) = some d → c.shared.Same d.shared x := by
  have horderly := orderly_of_reaches type hs hc
  refine ⟨horderly.custody, ?_⟩
  intro d t u w x order ht hx hut hstep
  rcases step_cases hstep with ⟨_, _, hl, -⟩ | ⟨_, _, b, hl, hb, rfl⟩
  · cases hl
  · cases hl
    refine (horderly.stepSpec hb order).same x (horderly.custody.known t w x ht hx) ?_
    exact fun hbx => hut (horderly.custody.unique u t b w x hb ht hbx hx)

theorem output_buffer_reads_repeat : c.shared.ReadsRepeat := by
  intro id client hclient n
  refine ⟨(client.traced.added.map (·.serializedPage))[n.toNat]?, fun r hr hfirst hlast => ?_⟩
  have hconsistent := (orderly_of_reaches type hs hc).annotated.shared.consistent id client hclient
  obtain ⟨hnonneg, hnext, -, hpages⟩ := (hconsistent.returned r hr).carries
  have hindex : r.token.toNat + (n - r.token).toNat = n.toNat := by omega
  conv_lhs => rw [hpages]
  rw [List.map_take, List.getElem?_take_of_lt (by omega), List.map_drop, List.getElem?_drop, hindex]

theorem output_buffer_complete (hd : Reaches bufferMachine (fun _ _ => True) c d) :
    c.shared.CompleteFor d.shared := by
  intro id client client' hclient hclient' halive r hr hcomplete
  have horderly := orderly_of_reaches type hs hc
  obtain ⟨_, hlater, hextends⟩ := (horderly.reaches hd).2.clients id client hclient
  obtain rfl := Option.some.inj (hlater.symm.trans hclient')
  have hvalid := (horderly.annotated.shared.consistent id client hclient).returned r hr
  obtain ⟨-, hno, htoken⟩ :=
    (hvalid.complete hcomplete).resolve_left (by simp [hextends.alive halive])
  rw [(hextends.noMorePages hno).2, htoken]

end Runs

theorem output_buffer_evolves_drainedPartition :
    drainedPartition.shared.Evolves
      ((run bufferMachine (fun _ _ => True) drainedPartition (advances 0 1)).getD
        drainedPartition).shared :=
  output_buffer_evolves .partitioned (Or.inr rfl) (reaches_getD_run (by decide +kernel))
    (reaches_getD_run (by decide +kernel))

theorem output_buffer_exclusive_drainedPartition :
    ∃ t w, drainedPartition.threads t = some w ∧ w.holds (.flush 1) :=
  (output_buffer_exclusive .partitioned (Or.inr rfl) (reaches_getD_run (by decide +kernel))).1.held
    (.flush 1) (by decide +kernel : drainedPartition.shared.flushes[1]? = some true)

/-- The only partition is asked twice for its page and then learns of the end. -/
def pageReadTwice : Config (OutputBuffer Unit) (Work Unit) :=
  (run bufferMachine (fun _ _ => True)
    (.idle (.newPartitioned .open "task" ⟨.partitioned, 1, true, [(0, 0)], by decide⟩))
    (calls 0 .registerLifespanCompletionCallback 1 ++
      calls 0 (.enqueue .taskWide 0 [⟨(), 1, 1⟩]) 4 ++ calls 0 (.get 0 0 1) 4 ++
      calls 0 (.get 0 0 1) 4 ++ calls 0 .setNoMorePages 8 ++ calls 0 (.get 0 1 1) 5)).getD
    (.idle (.newPartitioned .open "task" ⟨.partitioned, 1, true, [(0, 0)], by decide⟩))

theorem output_buffer_reads_repeat_pageReadTwice :
    (pageReadTwice.shared.buffers.get 0).map (·.traced.returned.map (·.token)) = some [0, 0, 1] ∧
      pageReadTwice.shared.ReadsRepeat :=
  ⟨by decide +kernel,
    output_buffer_reads_repeat .partitioned (Or.inr rfl) (reaches_getD_run (by decide +kernel))⟩

theorem output_buffer_complete_pageReadTwice :
    (pageReadTwice.shared.buffers.get 0).map (·.traced.returned.map (·.bufferComplete)) =
        some [false, false, true] ∧ pageReadTwice.shared.CompleteFor pageReadTwice.shared :=
  ⟨by decide +kernel, output_buffer_complete .partitioned (Or.inr rfl)
    (reaches_getD_run (by decide +kernel)) .refl⟩

end Presto.Execution.Buffer
