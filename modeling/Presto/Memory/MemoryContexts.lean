import Presto.Support.PathTree

/-!
# Memory contexts

A tree of memory contexts below a root with a reservation handler.  An update walks up to the
root, where the handler is asked, and changes the counters on its way back.  An aggregated
context that is closed gives back all that its subtree holds, while the contexts below keep
their counters; `updateBytes` does not pass a closed context, `tryUpdateBytes` does.
-/

namespace Presto.Memory

open List

/-- The root is `[]`, and `n :: p` is the child of `p` that was created after `n` others. -/
abbrev ContextId := List ℕ

structure MemoryContext where
  isLocal : Bool
  usedBytes : ℤ
  broadcastUsedBytes : ℤ
  closed : Bool

/-- An update that does not overflow. -/
def MemoryContext.add (bytes : ℤ) (enforce : Bool) (c : MemoryContext) : MemoryContext :=
  { c with
    usedBytes := c.usedBytes + bytes
    broadcastUsedBytes := c.broadcastUsedBytes + if enforce then bytes else 0 }

@[simp] theorem MemoryContext.add_zero (c : MemoryContext) (enforce : Bool) :
    c.add 0 enforce = c := by
  simp [MemoryContext.add]

/-- The contexts, the number of children of each, and what the handler has granted in all. -/
@[ext] structure MemoryContexts where
  context : ContextId → MemoryContext
  children : ContextId → ℕ
  reserved : ℤ

inductive ContextFailure
  | illegalState (message : String)
  | illegalArgument (message : String)
  | overflow (usedBytes bytes : ℤ)
  | handler

/-- What the handler does when it is called. -/
inductive Answer
  | grants
  | refuses
  | throws
  deriving DecidableEq

/-- The contexts after a method, and its result or exception; the futures of `updateBytes` are
left out. -/
abbrev Outcome := MemoryContexts × Except ContextFailure Bool

def Outcome.ifGranted (outcome : Outcome) (next : MemoryContexts → Outcome) : Outcome :=
  match outcome with
  | (s, .ok true) => next s
  | outcome => outcome

def FitsLong (x : ℤ) : Prop := -2 ^ 63 ≤ x ∧ x < 2 ^ 63

instance (x : ℤ) : Decidable (FitsLong x) := inferInstanceAs (Decidable (_ ∧ _))

namespace MemoryContexts

variable (s : MemoryContexts) (answer : Answer) (enforceBroadcastMemoryLimit : Bool)

def modify (p : ContextId) (f : MemoryContext → MemoryContext) : MemoryContexts :=
  { s with context := Function.update s.context p (f (s.context p)) }

/-- `addBytes` and, for memory under the broadcast limit, `addBroadcastBytes`. -/
def addBytes (bytes : ℤ) (p : ContextId) : Outcome :=
  let c := s.context p
  let s' := s.modify p fun c => { c with usedBytes := c.usedBytes + bytes }
  if ¬FitsLong (c.usedBytes + bytes) then (s, .error (.overflow c.usedBytes bytes))
  else if ¬enforceBroadcastMemoryLimit then (s', .ok true)
  else if ¬FitsLong (c.broadcastUsedBytes + bytes) then
    (s', .error (.overflow c.broadcastUsedBytes bytes))
  else
    (s'.modify p fun c => { c with broadcastUsedBytes := c.broadcastUsedBytes + bytes }, .ok true)

/-- `tryReserveMemory` of the handler, or `reserveMemory`, which cannot refuse. -/
def reserveMemory (mayRefuse : Bool) (delta : ℤ) : Outcome :=
  match answer, mayRefuse with
  | .throws, _ => (s, .error .handler)
  | .refuses, true => (s, .ok false)
  | _, _ => ({ s with reserved := s.reserved + delta }, .ok true)

/-- The walk of `updateBytes`, which checks that each context is open, and of `tryUpdateBytes`:
the parent is updated first. -/
def walk (checked : Bool) (bytes : ℤ) (p : ContextId) : Outcome :=
  if checked && (s.context p).closed then
    (s, .error (.illegalState ((if p = [] then "Root" else "Child") ++
      "AggregatedMemoryContext is already closed")))
  else
    let outcome := match p with
      | [] => s.reserveMemory answer (!checked) bytes
      | _ :: parent => walk checked bytes parent
    outcome.ifGranted (·.addBytes enforceBroadcastMemoryLimit bytes p)

def updateBytes := s.walk answer enforceBroadcastMemoryLimit true
def tryUpdateBytes := s.walk answer enforceBroadcastMemoryLimit false

/-- `setBytes` of a local context, by a checked walk, and `trySetBytes`. -/
def changeBytes (checked : Bool) (x : ContextId) (bytes : ℤ) : Outcome :=
  let c := s.context x
  if c.closed then (s, .error (.illegalState "SimpleLocalMemoryContext is already closed"))
  else if bytes < 0 then (s, .error (.illegalArgument "bytes cannot be negative"))
  else if checked ∧ bytes = c.usedBytes then (s, .ok true)
  else
    (s.walk answer enforceBroadcastMemoryLimit checked (bytes - c.usedBytes) x.tail).ifGranted
      fun s => (s.modify x fun c => { c with usedBytes := bytes }, .ok true)

def setBytes := s.changeBytes answer enforceBroadcastMemoryLimit true
def trySetBytes := s.changeBytes answer enforceBroadcastMemoryLimit false

def closeContext (usedBytes : ℤ) : ContextId → Outcome
  | [] => s.reserveMemory answer false (-usedBytes)
  | _ :: parent => s.updateBytes answer false (-usedBytes) parent

/-- `close` of a local or an aggregated context. -/
def close (x : ContextId) : Outcome :=
  let c := s.context x
  if c.closed then (s, .ok true)
  else
    ((s.modify x fun c => { c with closed := true }).closeContext answer c.usedBytes x).ifGranted
      fun s => (s.modify x fun c => { c with usedBytes := 0 }, .ok true)

def newContext (p : ContextId) (isLocal : Bool) : MemoryContexts :=
  { s.modify (s.children p :: p) fun _ => ⟨isLocal, 0, 0, false⟩ with
    children := Function.update (Function.update s.children (s.children p :: p) 0) p
      (s.children p + 1) }

end MemoryContexts

/-- The calls on the contexts, with what the handler does if it is called. -/
inductive ContextCall
  | newContext (p : ContextId) (isLocal : Bool)
  | setBytes (x : ContextId) (bytes : ℤ) (enforceBroadcastMemoryLimit : Bool) (answer : Answer)
  | trySetBytes (x : ContextId) (bytes : ℤ) (enforceBroadcastMemoryLimit : Bool) (answer : Answer)
  | close (x : ContextId) (answer : Answer)

def ContextCall.context : ContextCall → ContextId
  | .newContext p _ => p
  | .setBytes x _ _ _ | .trySetBytes x _ _ _ | .close x _ => x

namespace MemoryContexts

variable (s : MemoryContexts)

def execute : ContextCall → MemoryContexts
  | .newContext p isLocal => s.newContext p isLocal
  | .setBytes x bytes enforce answer => (s.setBytes answer enforce x bytes).1
  | .trySetBytes x bytes enforce answer => (s.trySetBytes answer enforce x bytes).1
  | .close x answer => (s.close answer x).1

/-! ## Conservation -/

/-- The context and those above it have been created. -/
def Created (x : ContextId) : Prop := ∀ a ∈ x.tails, a ≠ [] → a.headD 0 < s.children a.tail

/-- The bytes that a context counts in its parent. -/
def openBytes (x : ContextId) : ℤ := if (s.context x).closed then 0 else (s.context x).usedBytes

def AllOpen (p : ContextId) : Prop := ∀ a ∈ p.tails, (s.context a).closed = false

/-- The sums of an update along the path fit a `long`. -/
def Fits (p : ContextId) (bytes : ℤ) (enforce : Bool) : Prop := ∀ a ∈ p.tails,
  FitsLong ((s.context a).usedBytes + bytes) ∧
    (enforce = true → FitsLong ((s.context a).broadcastUsedBytes + bytes))

structure Conserved : Prop where
  reserved : s.reserved = (s.context []).usedBytes
  sums : ∀ p, (s.context p).isLocal = false → (s.context p).closed = false →
    (s.context p).usedBytes = ∑ n ∈ Finset.range (s.children p), s.openBytes (n :: p)

/-- An update of the contexts above one. -/
def shift (x : ContextId) (bytes : ℤ) (enforce : Bool) : MemoryContexts where
  context a := (s.context a).add (if Below a x then bytes else 0) enforce
  children := s.children
  reserved := s.reserved + bytes

variable {s} {p x : ContextId} {bytes : ℤ} {enforce checked : Bool} {answer : Answer}

@[simp] theorem shift_context_self : (s.shift x bytes enforce).context x = s.context x := by
  simp [shift, Below.irrefl]

theorem shift_nil : s.shift [] bytes enforce = { s with reserved := s.reserved + bytes } := by
  have hnot : ∀ a : ContextId, ¬Below a [] := fun a ha => ha.2 (suffix_nil.mp ha.1)
  simp [shift, hnot]

theorem modify_modify (f g : MemoryContext → MemoryContext) :
    (s.modify x f).modify x g = s.modify x (g ∘ f) := by
  simp [modify]

theorem shift_modify (f : MemoryContext → MemoryContext) :
    (s.modify x f).shift x bytes enforce = (s.shift x bytes enforce).modify x f := by
  refine MemoryContexts.ext (funext fun a => ?_) rfl rfl
  by_cases ha : a = x
  · simp [ha, modify]
  · simp [ha, modify, shift]

theorem change_context (f : MemoryContext → MemoryContext) (a : ContextId) :
    ((s.shift x bytes enforce).modify x f).context a = if a = x then f (s.context x)
      else (s.context a).add (if Below a x then bytes else 0) enforce := by
  by_cases ha : a = x
  · simp [ha, modify]
  · simp [ha, modify, shift]

theorem addBytes_shift (hused : FitsLong ((s.context p).usedBytes + bytes))
    (hbroadcast : enforce = true → FitsLong ((s.context p).broadcastUsedBytes + bytes)) (n : ℕ) :
    (s.shift p bytes enforce).addBytes enforce bytes p =
      (s.shift (n :: p) bytes enforce, .ok true) := by
  have hcons : (s.shift p bytes enforce).modify p (·.add bytes enforce) =
      s.shift (n :: p) bytes enforce := by
    refine MemoryContexts.ext (funext fun a => ?_) rfl rfl
    by_cases ha : a = p
    · simp [ha, modify, shift, Below.cons_iff, Below.irrefl]
    · have hiff : Below a (n :: p) ↔ Below a p :=
        Below.cons_iff.trans ⟨fun h => ⟨h, ha⟩, And.left⟩
      simp [ha, modify, shift, hiff]
  rw [← hcons]
  cases enforce with
  | true => simp [addBytes, hused, hbroadcast, modify_modify, MemoryContext.add, Function.comp_def]
  | false => simp [addBytes, hused, MemoryContext.add]

theorem ifGranted_assoc (outcome : Outcome) (f g : MemoryContexts → Outcome) :
    (outcome.ifGranted f).ifGranted g = outcome.ifGranted fun s => (f s).ifGranted g := by
  obtain ⟨s, e | granted⟩ := outcome
  · rfl
  · cases granted <;> rfl

/-- A path that the walk passes is updated when the handler grants the bytes. -/
theorem walk_of_allOpen (hopen : checked = true → s.AllOpen p) (hfits : s.Fits p bytes enforce)
    (n : ℕ) :
    s.walk answer enforce checked bytes p =
      (s.reserveMemory answer (!checked) bytes).ifGranted
        fun _ => (s.shift (n :: p) bytes enforce, .ok true) := by
  induction p generalizing n with
  | nil =>
      obtain ⟨hused, hbroadcast⟩ := hfits [] (by simp)
      have hpass : checked = true → (s.context []).closed = false :=
        fun h => hopen h [] (by simp)
      rw [walk, if_neg (by simpa using hpass)]
      have hself := addBytes_shift (p := []) hused hbroadcast n
      rw [shift_nil] at hself
      cases answer <;> cases checked <;> first | rfl | exact hself
  | cons m parent ih =>
      simp only [AllOpen, tails_cons, forall_mem_cons] at hopen
      rw [Fits, tails_cons, forall_mem_cons] at hfits
      rw [walk, if_neg (by simpa using fun h => (hopen h).1)]
      simp only [ih (fun h => (hopen h).2) hfits.2 m, ifGranted_assoc]
      exact congrArg _ (funext fun _ => addBytes_shift hfits.1.1 hfits.1.2 n)

/-- A checked walk does not pass a closed context. -/
theorem walk_of_not_allOpen (hclosed : ¬s.AllOpen p) :
    ∃ e, s.walk answer enforce true bytes p = (s, .error e) := by
  induction p with
  | nil =>
      have hself : (s.context []).closed = true := by simpa [AllOpen] using hclosed
      exact ⟨_, by rw [walk, if_pos (by simp [hself])]⟩
  | cons n parent ih =>
      by_cases hself : (s.context (n :: parent)).closed = true
      · exact ⟨_, by rw [walk, if_pos (by simp [hself])]⟩
      · obtain ⟨e, he⟩ := ih fun h => hclosed (by simpa [AllOpen, tails_cons, hself] using h)
        refine ⟨e, ?_⟩
        rw [walk, if_neg (by simp [hself])]
        simp only [he]
        rfl

theorem AllOpen.above (h : s.AllOpen x.tail) {a : ContextId} (ha : Below a x) :
    (s.context a).closed = false := by
  cases x with
  | nil => exact absurd (suffix_nil.mp ha.1) ha.2
  | cons n p => exact h a ((mem_tails _ _).mpr (Below.cons_iff.mp ha))

/-- An open context that becomes another one, a leaf or closed, when its bytes change. -/
structure Becomes (c c' : MemoryContext) (bytes : ℤ) : Prop where
  opened : c.closed = false
  usedBytes : c'.usedBytes = c.usedBytes + bytes
  closed : c'.closed = true → c'.usedBytes = 0
  leaf : c'.isLocal = true ∨ c'.closed = true

/-- The contexts above change by what the context changes. -/
theorem Conserved.change (h : s.Conserved) (hx : s.Created x) (hopen : s.AllOpen x.tail)
    {f : MemoryContext → MemoryContext} (hf : Becomes (s.context x) (f (s.context x)) bytes) :
    ((s.shift x bytes enforce).modify x f).Conserved := by
  generalize hs' : (s.shift x bytes enforce).modify x f = s'
  have hself : s'.context x = f (s.context x) := by rw [← hs', change_context, if_pos rfl]
  have hcontext : ∀ a, a ≠ x →
      s'.context a = (s.context a).add (if Below a x then bytes else 0) enforce :=
    fun a ha => by rw [← hs', change_context, if_neg ha]
  have hreserved : s'.reserved = s.reserved + bytes := by rw [← hs']; rfl
  have hchildren : s'.children = s.children := by rw [← hs']; rfl
  have hopened : ∀ a, s'.openBytes a = s.openBytes a + if a <:+ x then bytes else 0 := by
    intro a
    rw [openBytes, openBytes]
    by_cases ha : a = x
    · subst ha
      have hcounted : (if (f (s.context a)).closed then 0 else (f (s.context a)).usedBytes) =
          (f (s.context a)).usedBytes := by
        split_ifs with hclosed
        · exact (hf.closed hclosed).symm
        · rfl
      rw [hself, hcounted, hf.usedBytes, hf.opened]
      simp
    · rw [hcontext a ha]
      by_cases hp : Below a x
      · simp [hp, hp.1, MemoryContext.add, hopen.above hp]
      · have hnot : ¬a <:+ x := fun hsuffix => hp ⟨hsuffix, ha⟩
        simp [hp, hnot]
  refine ⟨?_, ?_⟩
  · by_cases hroot : [] = x
    · subst hroot
      rw [hself, hf.usedBytes, ← h.reserved, hreserved]
    · have hbelow : Below [] x := ⟨nil_suffix, hroot⟩
      rw [hcontext [] hroot, hreserved, h.reserved]
      simp [MemoryContext.add, hbelow]
  · intro q hlocal hclosed
    have hne : q ≠ x := by
      rintro rfl
      have hleaf := hf.leaf
      simp_all
    have hsum : ∑ m ∈ Finset.range (s.children q), (if m :: q <:+ x then bytes else 0) =
        if Below q x then bytes else 0 := by
      by_cases hq : Below q x
      · obtain ⟨m, hm⟩ := hq.exists_child
        have hiff : ∀ k, k :: q <:+ x ↔ k = m :=
          fun k => ⟨fun hk => child_unique hk hm, fun heq => heq ▸ hm⟩
        have hlt : m < s.children q :=
          hx (m :: q) ((mem_tails _ _).mpr hm) (cons_ne_nil m q)
        simp [hiff, hq, hlt]
      · have hnot : ∀ k, ¬k :: q <:+ x := fun k hk => hq (below_of_child hk)
        simp [hnot, hq]
    rw [hcontext q hne] at hlocal hclosed ⊢
    simp only [hopened, hchildren, Finset.sum_add_distrib, hsum]
    exact congrArg (· + _) (h.sums q hlocal hclosed)

theorem Conserved.newContext (h : s.Conserved) (p : ContextId) (isLocal : Bool) :
    (s.newContext p isLocal).Conserved := by
  have hne : p ≠ s.children p :: p := (cons_ne_self _ _).symm
  have hopened : ∀ a, a ≠ s.children p :: p →
      (s.newContext p isLocal).openBytes a = s.openBytes a := by
    intro a ha
    simp [openBytes, MemoryContexts.newContext, modify, ha]
  have hnew : (s.newContext p isLocal).openBytes (s.children p :: p) = 0 := by
    simp [openBytes, MemoryContexts.newContext, modify]
  refine ⟨by simpa [MemoryContexts.newContext, modify] using h.reserved, ?_⟩
  intro q hlocal hclosed
  by_cases hq : q = s.children p :: p
  · subst hq
    simp [MemoryContexts.newContext, modify]
  · have hcontext : (s.newContext p isLocal).context q = s.context q := by
      simp [MemoryContexts.newContext, modify, hq]
    rw [hcontext] at hlocal hclosed ⊢
    rw [h.sums q hlocal hclosed]
    by_cases hqp : q = p
    · subst hqp
      have hchildren : (s.newContext q isLocal).children q = s.children q + 1 := by
        simp [MemoryContexts.newContext]
      rw [hchildren, Finset.sum_range_succ, hnew, add_zero]
      refine Finset.sum_congr rfl fun n hn => (hopened _ ?_).symm
      simpa using (Finset.mem_range.mp hn).ne
    · have hchildren : (s.newContext p isLocal).children q = s.children q := by
        simp [MemoryContexts.newContext, hq, hqp]
      rw [hchildren]
      exact Finset.sum_congr rfl fun n _ => (hopened _ (by simp [hqp])).symm

/-! ## Runs -/

/-- The contexts of a new root. -/
def root : MemoryContexts := ⟨fun _ => ⟨false, 0, 0, false⟩, fun _ => 0, 0⟩

/-- The call is on a context that exists, of the right kind. -/
def Valid (s : MemoryContexts) : ContextCall → Prop
  | .newContext p _ => s.Created p ∧ (s.context p).isLocal = false
  | .setBytes x _ _ _ | .trySetBytes x _ _ _ =>
      s.Created x ∧ x ≠ [] ∧ (s.context x).isLocal = true
  | .close x _ => s.Created x

/-- No sum overflows, no context below a closed one is closed or given to `trySetBytes`, and the
handler does not throw when a context is closed. -/
def Orderly (s : MemoryContexts) : ContextCall → Prop
  | .newContext _ _ => True
  | .setBytes x bytes enforce _ => s.Fits x.tail (bytes - (s.context x).usedBytes) enforce
  | .trySetBytes x bytes enforce _ =>
      s.AllOpen x.tail ∧ s.Fits x.tail (bytes - (s.context x).usedBytes) enforce
  | .close x answer => (s.context x).closed = true ∨
      s.AllOpen x.tail ∧ s.Fits x.tail (-(s.context x).usedBytes) false ∧ answer ≠ .throws

instance : DecidablePred s.Valid
  | .newContext _ _ | .close _ _ => by unfold Valid Created; infer_instance
  | .setBytes _ _ _ _ | .trySetBytes _ _ _ _ => by unfold Valid Created; infer_instance

instance : DecidablePred s.Orderly
  | .newContext _ _ => .isTrue trivial
  | .setBytes _ _ _ _ | .trySetBytes _ _ _ _ | .close _ _ => by
      unfold Orderly AllOpen Fits; infer_instance

inductive Reachable : MemoryContexts → Prop
  | root : Reachable root
  | step {s : MemoryContexts} (call : ContextCall) (hs : Reachable s) (hvalid : s.Valid call)
      (horderly : s.Orderly call) : Reachable (s.execute call)

/-- A change of an open context that is carried to all contexts above it. -/
inductive Changes (s : MemoryContexts) (x : ContextId) : MemoryContexts → Prop
  | intro (bytes : ℤ) (enforce : Bool) (f : MemoryContext → MemoryContext)
      (hopen : s.AllOpen x.tail) (hf : Becomes (s.context x) (f (s.context x)) bytes) :
      Changes s x ((s.shift x bytes enforce).modify x f)

/-- New bytes of a local context are carried to all contexts above it, or nothing changes. -/
theorem changeBytes_cases
    (hx : x ≠ []) (hfits : s.Fits x.tail (bytes - (s.context x).usedBytes) enforce) :
    (s.changeBytes answer enforce checked x bytes).1 = s ∨
      (s.context x).closed = false ∧ (checked = true → s.AllOpen x.tail) ∧
        (s.changeBytes answer enforce checked x bytes).1 =
          (s.shift x (bytes - (s.context x).usedBytes) enforce).modify x
            fun c => { c with usedBytes := bytes } := by
  obtain ⟨n, p, rfl⟩ := exists_cons_of_ne_nil hx
  rw [changeBytes]
  split_ifs with hclosed
  · exact .inl rfl
  · exact .inl rfl
  · exact .inl rfl
  by_cases hopen : checked = true → s.AllOpen p
  · rw [tail_cons, walk_of_allOpen hopen hfits n]
    cases answer <;> cases checked <;>
      first | exact .inl rfl | exact .inr ⟨by simpa using hclosed, hopen, rfl⟩
  · obtain ⟨rfl, hnot⟩ := Classical.not_imp.mp hopen
    obtain ⟨e, he⟩ := walk_of_not_allOpen hnot
    rw [tail_cons, he]
    exact .inl rfl

/-- A context is closed together with a change of all contexts above it, or by itself. -/
theorem close_cases (hclosed : (s.context x).closed = false)
    (hfits : s.Fits x.tail (-(s.context x).usedBytes) false) :
    (s.AllOpen x.tail ∧ answer ≠ .throws ∧
        (s.close answer x).1 = (s.shift x (-(s.context x).usedBytes) false).modify x
          fun c => { c with closed := true, usedBytes := 0 }) ∨
      ¬(s.AllOpen x.tail ∧ answer ≠ .throws) ∧
        (s.close answer x).1 = s.modify x fun c => { c with closed := true } := by
  have hmodified : ∀ t : MemoryContexts,
      (t.modify x fun c => { c with closed := true }).modify x
          (fun c => { c with usedBytes := 0 }) =
        t.modify x fun c => { c with closed := true, usedBytes := 0 } :=
    fun t => modify_modify _ _
  rw [close, if_neg (by simp [hclosed]), ← hmodified, ← shift_modify]
  cases x with
  | nil =>
      have hopen : s.AllOpen [] := by simpa [AllOpen] using hclosed
      rw [shift_nil]
      cases answer with
      | throws => exact .inr ⟨by simp, rfl⟩
      | _ => exact .inl ⟨hopen, by simp, rfl⟩
  | cons n p =>
      have hsame : ∀ a ∈ p.tails, (s.modify (n :: p) fun c => { c with closed := true }).context a =
          s.context a := by
        intro a ha
        have hne : a ≠ n :: p := by
          rintro rfl
          exact not_cons_suffix_self n p ((mem_tails _ _).mp ha)
        simp [modify, hne]
      generalize (s.modify (n :: p) fun c => { c with closed := true }) = s' at hsame ⊢
      rw [closeContext, updateBytes]
      by_cases hopen : s.AllOpen p
      · have hopen' : s'.AllOpen p := fun a ha => (hsame a ha).symm ▸ hopen a ha
        have hfits' : s'.Fits p (-(s.context (n :: p)).usedBytes) false :=
          fun a ha => (hsame a ha).symm ▸ hfits a ha
        rw [walk_of_allOpen (fun _ => hopen') hfits' n]
        cases answer with
        | throws => exact .inr ⟨by simp, rfl⟩
        | _ => exact .inl ⟨hopen, by simp, rfl⟩
      · have hnot : ¬s'.AllOpen p := fun h => hopen fun a ha => hsame a ha ▸ h a ha
        obtain ⟨e, he⟩ := walk_of_not_allOpen hnot
        rw [he]
        exact .inr ⟨fun h => hopen h.1, rfl⟩

theorem close_eq (hclosed : (s.context x).closed = false) (hopen : s.AllOpen x.tail)
    (hfits : s.Fits x.tail (-(s.context x).usedBytes) false) (hanswer : answer ≠ .throws) :
    (s.close answer x).1 = (s.shift x (-(s.context x).usedBytes) false).modify x
      fun c => { c with closed := true, usedBytes := 0 } :=
  ((close_cases hclosed hfits).resolve_right fun h => h.1 ⟨hopen, hanswer⟩).2.2

theorem Changes.of_set {s' : MemoryContexts} (hlocal : (s.context x).isLocal = true)
    (hclosed : (s.context x).closed = false) (hopen : s.AllOpen x.tail)
    (hs' : s' = (s.shift x (bytes - (s.context x).usedBytes) enforce).modify x
      fun c => { c with usedBytes := bytes }) :
    Changes s x s' :=
  hs' ▸ .intro _ enforce _ hopen
    ⟨hclosed, by simp, fun h => absurd (hclosed.symm.trans h) Bool.false_ne_true, .inl hlocal⟩

variable {call : ContextCall}

/-- What a call does to the contexts. -/
theorem execute_cases (hvalid : s.Valid call) (horderly : s.Orderly call) :
    (∃ p isLocal, call = .newContext p isLocal) ∨ s.execute call = s ∨
      s.Created call.context ∧ Changes s call.context (s.execute call) := by
  cases call with
  | newContext p isLocal => exact .inl ⟨p, isLocal, rfl⟩
  | setBytes x bytes enforce answer =>
      obtain ⟨hx, hne, hlocal⟩ := hvalid
      refine .inr ((changeBytes_cases hne horderly).imp_right fun h => ⟨hx, ?_⟩)
      exact .of_set hlocal h.1 (h.2.1 rfl) h.2.2
  | trySetBytes x bytes enforce answer =>
      obtain ⟨hx, hne, hlocal⟩ := hvalid
      refine .inr ((changeBytes_cases hne horderly.2).imp_right fun h => ⟨hx, ?_⟩)
      exact .of_set hlocal h.1 horderly.1 h.2.2
  | close x answer =>
      right
      rcases Bool.eq_false_or_eq_true (s.context x).closed with hclosed | hclosed
      · exact .inl (by rw [execute, close, if_pos hclosed])
      · obtain ⟨hopen, hfits, hanswer⟩ := horderly.resolve_left (by simp [hclosed])
        refine .inr ⟨hvalid, ?_⟩
        rw [execute, close_eq hclosed hopen hfits hanswer]
        exact .intro _ _ _ hopen ⟨hclosed, (add_neg_cancel _).symm, fun _ => rfl, .inr rfl⟩

theorem Conserved.execute (h : s.Conserved) (hvalid : s.Valid call) (horderly : s.Orderly call) :
    (s.execute call).Conserved := by
  rcases execute_cases hvalid horderly with ⟨p, isLocal, rfl⟩ | hsame | ⟨hx, hchanges⟩
  · exact h.newContext p isLocal
  · exact hsame.symm ▸ h
  · generalize s.execute call = s' at hchanges
    obtain ⟨bytes, enforce, f, hopen, hf⟩ := hchanges
    exact h.change hx hopen hf

/-- A context that is closed gives back what it holds, and no call below a closed context
changes the bytes of a context above. -/
structure Respects (s : MemoryContexts) (call : ContextCall) : Prop where
  released : ∀ x answer, call = .close x answer → (s.context x).closed = false →
    (s.execute call).reserved = s.reserved - (s.context x).usedBytes ∧
      ∀ a, Below a x → ((s.execute call).context a).usedBytes =
        (s.context a).usedBytes - (s.context x).usedBytes
  sheltered : ∀ a b, Below a call.context → (s.context a).closed = true → Below b call.context →
    ((s.execute call).context b).usedBytes = (s.context b).usedBytes

theorem respects (hvalid : s.Valid call) (horderly : s.Orderly call) : s.Respects call := by
  refine ⟨?_, ?_⟩
  · rintro x answer rfl hclosed
    obtain ⟨hopen, hfits, hanswer⟩ := horderly.resolve_left (by simp [hclosed])
    rw [execute, close_eq hclosed hopen hfits hanswer]
    refine ⟨rfl, ?_⟩
    intro a ha
    simp [modify, shift, ha.2, ha, MemoryContext.add, sub_eq_add_neg]
  · intro a b ha hclosed hb
    rcases execute_cases hvalid horderly with ⟨p, isLocal, rfl⟩ | hsame | ⟨-, hchanges⟩
    · have hne : b ≠ s.children p :: p := by
        rintro rfl
        exact not_cons_suffix_self _ p hb.1
      simp [execute, newContext, modify, hne]
    · rw [hsame]
    · generalize s.execute call = s' at hchanges
      obtain ⟨bytes, enforce, f, hopen, hf⟩ := hchanges
      rw [hopen.above ha] at hclosed
      cases hclosed

/-- In every run of orderly calls the handler has granted what the root holds, an open aggregated
context holds what its open children hold, and every further orderly call respects that. -/
theorem memory_contexts_conserve (hs : Reachable s) :
    s.Conserved ∧ ∀ call, s.Valid call → s.Orderly call → s.Respects call := by
  refine ⟨?_, fun call => respects⟩
  induction hs with
  | root => exact ⟨rfl, fun p _ _ => rfl⟩
  | step call _ hvalid horderly ih => exact ih.execute hvalid horderly

/-- A local context that holds ten bytes below an aggregated one that has been closed. -/
def closedSubtree : MemoryContexts :=
  [.newContext [] false, .newContext [0] true, .setBytes [0, 0] 10 false .grants,
    .close [0] .grants].foldl execute root

theorem reachable_closedSubtree : Reachable closedSubtree := by
  simp only [closedSubtree, foldl]
  refine .step _ (.step _ (.step _ (.step _ .root ?_ ?_) ?_ ?_) ?_ ?_) ?_ ?_ <;> decide

theorem memory_contexts_conserve_closedSubtree : closedSubtree.Conserved ∧
    closedSubtree.Respects (.setBytes [0, 0] 25 false .grants) := by
  obtain ⟨hconserved, hrespects⟩ := memory_contexts_conserve reachable_closedSubtree
  exact ⟨hconserved, hrespects _ (by decide) (by decide)⟩

/-- `tryUpdateBytes` passes the closed context, and the root and the handler count 15 bytes that
no open child of the root holds. -/
theorem memory_contexts_not_conserved :
    ∃ s call, Reachable s ∧ s.Valid call ∧ ¬s.Respects call ∧ ¬(s.execute call).Conserved := by
  refine ⟨closedSubtree, .trySetBytes [0, 0] 25 false .grants, reachable_closedSubtree,
    by decide, ?_, ?_⟩
  · intro h
    exact absurd (h.sheltered [0] [] (by decide) (by decide) (by decide)) (by decide)
  · intro h
    exact absurd (h.sums [] (by decide) (by decide)) (by decide)

end MemoryContexts
end Presto.Memory
