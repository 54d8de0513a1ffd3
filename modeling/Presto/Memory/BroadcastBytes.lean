import Mathlib.Logic.Relation
import Presto.Memory.MemoryContexts

/-!
# Memory under the broadcast limit

Each local context passes one flag with all its updates, and the aggregated contexts above count
the bytes of those that pass it as true.  A context that is closed gives its bytes back without the
flag, so the counts are exact only while such contexts are closed empty.
-/

namespace Presto.Memory.MemoryContexts

variable (locals : Finset ContextId) (flag : ContextId → Bool) (s : MemoryContexts)

/-- The bytes that a context counts under the broadcast limit while it is open. -/
def broadcastBytes (x : ContextId) : ℤ :=
  if flag x = true ∧ (s.context x).closed = false then (s.context x).usedBytes else 0

/-- Every open aggregated context counts what the open local contexts below it hold. -/
def BroadcastExact : Prop :=
  ∀ p ∉ locals, (s.context p).closed = false →
    (s.context p).broadcastUsedBytes = ∑ x ∈ locals with Below p x, s.broadcastBytes flag x

/-- New contexts, of which the given ones are local. -/
def newTree : MemoryContexts := ⟨fun x => ⟨decide (x ∈ locals), 0, 0, false⟩, fun _ => 0, 0⟩

/-- A call on a context of the tree, where no local context has children.  A local context passes
its flag. -/
def Flagged (call : ContextCall) : Prop :=
  (∀ y ∈ locals, ¬Below y call.context) ∧
    match call with
    | .newContext _ _ => False
    | .setBytes x _ enforce _ | .trySetBytes x _ enforce _ =>
        x ∈ locals ∧ x ≠ [] ∧ enforce = flag x
    | .close _ _ => True

/-- No sum overflows, and a local context under the broadcast limit is closed empty. -/
def ClosesEmpty : ContextCall → Prop
  | .newContext _ _ => True
  | .setBytes x bytes enforce _ | .trySetBytes x bytes enforce _ =>
      s.Fits x.tail (bytes - (s.context x).usedBytes) enforce
  | .close x _ => s.Fits x.tail (-(s.context x).usedBytes) false ∧
      (x ∈ locals → s.broadcastBytes flag x = 0)

/-- The states that the tree reaches by calls that are all allowed. -/
def TreeReaches (allowed : MemoryContexts → ContextCall → Prop) : MemoryContexts → Prop :=
  Relation.ReflTransGen
    (fun s s' => ∃ call, Flagged locals flag call ∧ allowed s call ∧ s' = s.execute call)
    (newTree locals)

variable {locals flag s} {s' : MemoryContexts} {x : ContextId} {enforce : Bool}

/-- A step that changes the counts above a context by what the context holds. -/
theorem BroadcastExact.change (h : s.BroadcastExact locals flag) (bytes : ℤ)
    (hcount : ∀ p, (s'.context p).closed = false → (s.context p).closed = false ∧
      (s'.context p).broadcastUsedBytes =
        (s.context p).broadcastUsedBytes + if Below p x then bytes else 0)
    (hheld : ∀ y ∈ locals, s'.broadcastBytes flag y =
      s.broadcastBytes flag y + if y = x then bytes else 0)
    (hx : x ∈ locals ∨ bytes = 0) : s'.BroadcastExact locals flag := by
  intro p hp hopen
  obtain ⟨hopened, hbroadcast⟩ := hcount p hopen
  have hsum : ∑ y ∈ locals with Below p y, (if y = x then bytes else 0) =
      if Below p x then bytes else 0 := by
    rcases hx with hx | rfl
    · simp [hx]
    · simp
  rw [hbroadcast, h p hp hopened, ← hsum, ← Finset.sum_add_distrib]
  exact Finset.sum_congr rfl fun y hy => (hheld y (Finset.mem_filter.mp hy).1).symm

variable (hx : ∀ y ∈ locals, ¬Below y x)

include hx

theorem BroadcastExact.changeBytes (h : s.BroadcastExact locals flag) {bytes : ℤ} {answer : Answer}
    {checked : Bool} (hcall : x ∈ locals ∧ x ≠ [] ∧ enforce = flag x)
    (hfits : s.Fits x.tail (bytes - (s.context x).usedBytes) enforce) :
    (s.changeBytes answer enforce checked x bytes).1.BroadcastExact locals flag := by
  obtain ⟨hlocal, hne, rfl⟩ := hcall
  rcases changeBytes_cases hne hfits with hsame | ⟨hclosed, -, hs'⟩
  · rw [hsame]
    exact h
  rw [hs']
  refine h.change (x := x) (if flag x then bytes - (s.context x).usedBytes else 0) ?_ ?_
    (.inl hlocal)
  · intro p
    rw [change_context]
    split_ifs <;> simp_all [MemoryContext.add, Below.irrefl]
  · intro y hy
    rw [broadcastBytes, broadcastBytes, change_context]
    split_ifs <;> simp_all

theorem BroadcastExact.close (h : s.BroadcastExact locals flag) {answer : Answer}
    (hfits : s.Fits x.tail (-(s.context x).usedBytes) false)
    (hempty : x ∈ locals → s.broadcastBytes flag x = 0) :
    (s.close answer x).1.BroadcastExact locals flag := by
  rcases Bool.eq_false_or_eq_true (s.context x).closed with hclosed | hclosed
  · rw [MemoryContexts.close, if_pos hclosed]
    exact h
  obtain ⟨bytes, f, hf, hs'⟩ : ∃ bytes f, (f (s.context x)).closed = true ∧
      (s.close answer x).1 = (s.shift x bytes false).modify x f := by
    rcases @close_cases s x answer hclosed hfits with ⟨-, -, heq⟩ | ⟨-, heq⟩
    · exact ⟨_, _, by rfl, heq⟩
    · exact ⟨0, fun c => { c with closed := true }, rfl, by simp [heq, shift]⟩
  rw [hs']
  refine h.change (x := x) 0 ?_ ?_ (.inr rfl)
  · intro p
    rw [change_context]
    split_ifs <;> simp_all [MemoryContext.add]
  · intro y hy
    by_cases hyx : y = x
    · subst hyx
      rw [hempty hy, broadcastBytes, change_context]
      simp [hf]
    · rw [broadcastBytes, broadcastBytes, change_context]
      simp [hyx, hx y hy]

omit hx

theorem BroadcastExact.execute
    (h : s.BroadcastExact locals flag) {call : ContextCall} (hcall : Flagged locals flag call)
    (hempty : s.ClosesEmpty locals flag call) : (s.execute call).BroadcastExact locals flag := by
  obtain ⟨hx, hcall⟩ := hcall
  cases call with
  | newContext p isLocal => exact absurd hcall id
  | close x answer => exact h.close hx hempty.1 hempty.2
  | setBytes x bytes enforce answer | trySetBytes x bytes enforce answer =>
      exact h.changeBytes hx hcall hempty

/-- As long as no sum overflows and the local contexts under the broadcast limit are closed empty,
every open aggregated context counts what they hold, and nothing once they hold nothing. -/
theorem broadcast_bytes_exact
    (locals : Finset ContextId) (flag : ContextId → Bool) (s : MemoryContexts)
    (hs : TreeReaches locals flag (fun s call => s.ClosesEmpty locals flag call) s) :
    s.BroadcastExact locals flag ∧
      ((∀ x ∈ locals, (s.context x).usedBytes = 0 ∨ (s.context x).closed = true) →
        ∀ p ∉ locals, (s.context p).closed = false → (s.context p).broadcastUsedBytes = 0) := by
  have hexact : s.BroadcastExact locals flag := by
    induction hs with
    | refl =>
        intro p _ _
        simp [newTree, broadcastBytes]
    | tail _ hstep ih =>
        obtain ⟨call, hcall, hempty, rfl⟩ := hstep
        exact ih.execute hcall hempty
  refine ⟨hexact, ?_⟩
  intro hzero p hp hopen
  rw [hexact p hp hopen]
  refine Finset.sum_eq_zero fun x hx => ?_
  rcases hzero x (Finset.mem_filter.mp hx).1 with h | h <;> simp [broadcastBytes, h]

/-- Of two local contexts under the limit one is emptied and closed. -/
theorem broadcast_bytes_emptied_and_closed :
    let s := [.setBytes [0] 10 true .grants, .setBytes [1] 5 true .grants,
      .setBytes [0] 0 true .grants, .close [0] .grants].foldl execute (newTree {[0], [1]})
    (s.context []).broadcastUsedBytes = 5 ∧ s.BroadcastExact {[0], [1]} fun _ => true := by
  refine ⟨by decide, (broadcast_bytes_exact _ _ _ ?_).1⟩
  refine .tail (.tail (.tail (.single ⟨.setBytes [0] 10 true .grants, ?_, ?_, rfl⟩)
    ⟨.setBytes [1] 5 true .grants, ?_, ?_, rfl⟩) ⟨.setBytes [0] 0 true .grants, ?_, ?_, rfl⟩)
    ⟨.close [0] .grants, ?_, ?_, rfl⟩ <;> simp only [Flagged, ClosesEmpty, Fits] <;> decide

/-- A local context that holds ten bytes under the limit. -/
def heldBytes : MemoryContexts := (newTree {[0]}).execute (.setBytes [0] 10 true .grants)

/-- A local context that is closed with ten bytes leaves them in the count of its parent. -/
theorem broadcast_bytes_not_exact :
    ∃ s, TreeReaches {[0]} (fun _ => true) (fun _ _ => True) s ∧
      ¬s.BroadcastExact {[0]} fun _ => true :=
  ⟨heldBytes.execute (.close [0] .grants),
    .tail (.single ⟨_, ⟨by decide, by decide⟩, trivial, rfl⟩)
      ⟨_, ⟨by decide, trivial⟩, trivial, rfl⟩,
    fun h => absurd (h [] (by decide) rfl) (by decide)⟩

end Presto.Memory.MemoryContexts
