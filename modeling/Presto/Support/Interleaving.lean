import Mathlib.Data.List.Basic
import Mathlib.Logic.Function.Basic
import Mathlib.Logic.Relation

/-!
# Interleaved threads over a shared state

A thread runs an operation as a sequence of atomic sections.  What is left of
the operation is the thread's activity; the machine says with which activity an
operation starts, what the next section does to the shared state and which
activity remains, if any.  Between two sections of one thread every other thread
may run.  An invariant of the shared state and an
assertion about each activity hold in every run when each section keeps both,
for its own thread and for the others.
-/

namespace Presto.Interleaving

/-- How operations run over a shared state: what they start with, and what each section
does on an outside input. -/
structure Machine (σ ω α ι : Type*) where
  start : σ → ω → α
  act : α → ι → σ → σ × Option α

/-- A shared state and what each thread still has to do. -/
structure Config (σ α : Type*) where
  shared : σ
  threads : ℕ → Option α

open Config

/-- A thread starts an operation, or runs its next section on an outside input. -/
inductive Label (ω ι : Type*)
  | invoke (thread : ℕ) (operation : ω)
  | advance (thread : ℕ) (input : ι)

variable {σ ω α ι : Type*}

/-- No thread is running. -/
def Config.idle (s : σ) : Config σ α := ⟨s, fun _ => none⟩

/-- The configuration after thread `t` has moved to `next` and the state to `s`. -/
def Config.move (c : Config σ α) (s : σ) (t : ℕ) (next : Option α) : Config σ α :=
  ⟨s, Function.update c.threads t next⟩

/-- One step of a run; `none` when the label is not enabled. -/
def step (M : Machine σ ω α ι) (c : Config σ α) : Label ω ι → Option (Config σ α)
  | .invoke t o =>
      match c.threads t with
      | none => some (c.move c.shared t (some (M.start c.shared o)))
      | some _ => none
  | .advance t i =>
      match c.threads t with
      | none => none
      | some a => some (c.move (M.act a i c.shared).1 t (M.act a i c.shared).2)

/-- A step that the environment allows. -/
def Step (M : Machine σ ω α ι) (allowed : Config σ α → Label ω ι → Prop)
    (c c' : Config σ α) : Prop :=
  ∃ l, allowed c l ∧ step M c l = some c'

/-- Some run of allowed steps leads from one configuration to another. -/
def Reaches (M : Machine σ ω α ι) (allowed : Config σ α → Label ω ι → Prop) :
    Config σ α → Config σ α → Prop :=
  Relation.ReflTransGen (Step M allowed)

/-- The configuration after a list of labels; `none` when one of them is not possible. -/
def run (M : Machine σ ω α ι) (allowed : Config σ α → Label ω ι → Prop)
    [∀ c l, Decidable (allowed c l)] (c : Config σ α) :
    List (Label ω ι) → Option (Config σ α)
  | [] => some c
  | l :: ls =>
      if allowed c l then
        match step M c l with
        | none => none
        | some c' => run M allowed c' ls
      else none

variable {M : Machine σ ω α ι} {allowed : Config σ α → Label ω ι → Prop}
  {c c' : Config σ α} {l : Label ω ι}

/-- What a step can do. -/
theorem step_cases (h : step M c l = some c') :
    (∃ t o, l = .invoke t o ∧ c.threads t = none ∧
        c' = c.move c.shared t (some (M.start c.shared o))) ∨
      ∃ t i a, l = .advance t i ∧ c.threads t = some a ∧
        c' = c.move (M.act a i c.shared).1 t (M.act a i c.shared).2 := by
  cases l with
  | invoke t o =>
      cases ht : c.threads t with
      | none =>
          simp only [step, ht, Option.some.injEq] at h
          exact Or.inl ⟨t, o, rfl, ht, h.symm⟩
      | some b => simp [step, ht] at h
  | advance t i =>
      cases ht : c.threads t with
      | none => simp [step, ht] at h
      | some a =>
          simp only [step, ht, Option.some.injEq] at h
          exact Or.inr ⟨t, i, a, rfl, ht, h.symm⟩

@[simp]
theorem Config.move_threads_self (c : Config σ α) (s : σ) (t : ℕ) (next : Option α) :
    (c.move s t next).threads t = next := by
  simp [move]

variable {t : ℕ}

theorem Config.move_threads_of_ne (c : Config σ α) (s : σ) (next : Option α) {u : ℕ} (h : u ≠ t) :
    (c.move s t next).threads u = c.threads u := by
  simp [move, h]

/-- A property that every allowed step keeps holds along every run. -/
theorem Reaches.invariant {P : Config σ α → Prop} (hreach : Reaches M allowed c c') (hstart : P c)
    (hstep : ∀ d d' l, P d → allowed d l → step M d l = some d' → P d') : P c' := by
  induction hreach with
  | refl => exact hstart
  | tail _ hlast ih =>
      obtain ⟨l, hl, hs⟩ := hlast
      exact hstep _ _ l ih hl hs

variable {ls : List (Label ω ι)}

theorem reaches_of_run [∀ c l, Decidable (allowed c l)] (h : run M allowed c ls = some c') :
    Reaches M allowed c c' := by
  induction ls generalizing c with
  | nil =>
      simp only [run, Option.some.injEq] at h
      rw [h]
      exact Relation.ReflTransGen.refl
  | cons l ls ih =>
      by_cases hl : allowed c l
      · cases hs : step M c l with
        | none => simp [run, hl, hs] at h
        | some d =>
            simp only [run, hl, hs] at h
            exact Relation.ReflTransGen.head ⟨l, hl, hs⟩ (ih h)
      · simp [run, hl] at h

theorem reaches_getD_run [∀ c l, Decidable (allowed c l)] (h : (run M allowed c ls).isSome = true) :
    Reaches M allowed c ((run M allowed c ls).getD c) := by
  obtain ⟨c', hc⟩ := Option.isSome_iff_exists.mp h
  rw [hc]
  exact reaches_of_run hc

/-! ## The invariant rule -/

/-- The shared state satisfies `I` and each running activity its assertion `J`. -/
structure Annotated (I : σ → Prop) (J : σ → α → Prop) (c : Config σ α) : Prop where
  shared : I c.shared
  threads : ∀ t a, c.threads t = some a → J c.shared a

variable {J : σ → α → Prop} {s : σ} {I : σ → Prop}

theorem Annotated.idle (h : I s) : Annotated I J (idle s) := by
  refine ⟨h, ?_⟩
  intro t a ht
  simp [Config.idle] at ht

variable {next : Option α}

/-- Moving one thread keeps the annotation when the new state keeps what the other
threads assert. -/
theorem Annotated.move_of_ne (hc : Annotated I J c)
    (hshared : I s) (hown : ∀ a, next = some a → J s a)
    (hother : ∀ u b, u ≠ t → c.threads u = some b → J c.shared b → J s b) :
    Annotated I J (c.move s t next) := by
  refine ⟨hshared, ?_⟩
  intro u a hu
  by_cases hut : u = t
  · subst hut
    rw [move_threads_self] at hu
    exact hown a hu
  · rw [move_threads_of_ne c s next hut] at hu
    exact hother u a hut hu (hc.threads u a hu)

theorem Annotated.move (hc : Annotated I J c) (hshared : I s) (hown : ∀ a, next = some a → J s a)
    (hother : ∀ a, J c.shared a → J s a) : Annotated I J (c.move s t next) :=
  hc.move_of_ne hshared hown fun _ b _ _ hb => hother b hb

/-- Sections that keep the invariant, establish the assertion of what remains and
leave the assertions of the other threads intact keep the annotation. -/
theorem Annotated.step (hc : Annotated I J c)
    (hinvoke : ∀ t o, l = .invoke t o → J c.shared (M.start c.shared o))
    (hact : ∀ t i a, l = .advance t i → c.threads t = some a → I c.shared → J c.shared a →
      I (M.act a i c.shared).1 ∧
        (∀ b, (M.act a i c.shared).2 = some b → J (M.act a i c.shared).1 b) ∧
        ∀ b, J c.shared b → J (M.act a i c.shared).1 b)
    (hstep : Interleaving.step M c l = some c') : Annotated I J c' := by
  rcases step_cases hstep with ⟨t, o, hl, -, rfl⟩ | ⟨t, i, a, hl, ht, rfl⟩
  · refine hc.move hc.shared ?_ fun b hb => hb
    rintro b ⟨rfl⟩
    exact hinvoke t o hl
  · obtain ⟨hshared, hown, hother⟩ := hact t i a hl ht hc.shared (hc.threads t a ht)
    exact hc.move hshared hown hother

/-! ## Custody -/

section Custody

variable {τ : Type*} {holds : α → τ → Prop} {outstanding : σ → τ → Prop}

/-- Each outstanding token is held by exactly one thread, and no other token is held. -/
structure Custody (holds : α → τ → Prop) (outstanding : σ → τ → Prop)
    (c : Config σ α) : Prop where
  known : ∀ t a x, c.threads t = some a → holds a x → outstanding c.shared x
  held : ∀ x, outstanding c.shared x → ∃ t a, c.threads t = some a ∧ holds a x
  unique : ∀ t u a b x, c.threads t = some a → c.threads u = some b → holds a x → holds b x →
    t = u

theorem Custody.idle
    (h : ∀ x, ¬outstanding s x) : Custody holds outstanding (idle s) := by
  refine ⟨?_, ?_, ?_⟩
  · intro t a x ht
    simp [Config.idle] at ht
  · intro x hx
    exact absurd hx (h x)
  · intro t u a b x ht
    simp [Config.idle] at ht

/-- A section passes on, gives back or draws tokens; the tokens it draws were not
outstanding. -/
structure Transfer (holds : α → τ → Prop) (outstanding : σ → τ → Prop)
    (a : α) (s s' : σ) (next : Option α) : Prop where
  after : ∀ x, outstanding s' x ↔
    (∃ b, next = some b ∧ holds b x) ∨ outstanding s x ∧ ¬holds a x
  drawn : ∀ b x, next = some b → holds b x → holds a x ∨ ¬outstanding s x

variable {a : α}

/-- A thread moves on with the tokens that it draws or keeps. -/
theorem Custody.move (hc : Custody holds outstanding c)
    (hafter : ∀ x, outstanding s x ↔ (∃ b, next = some b ∧ holds b x) ∨
      outstanding c.shared x ∧ ∀ a, c.threads t = some a → ¬holds a x)
    (hdrawn : ∀ b x, next = some b → holds b x →
      (∃ a, c.threads t = some a ∧ holds a x) ∨ ¬outstanding c.shared x) :
    Custody holds outstanding (c.move s t next) := by
  have hother : ∀ u b b' x, u ≠ t → c.threads u = some b → next = some b' → holds b x →
      ¬holds b' x := by
    intro u b b' x hut hu hnext hb hb'
    rcases hdrawn b' x hnext hb' with ⟨a, ht, ha⟩ | hnew
    · exact hut (hc.unique u t b a x hu ht hb ha)
    · exact hnew (hc.known u b x hu hb)
  refine ⟨?_, ?_, ?_⟩
  · intro u b x hu hb
    refine (hafter x).mpr ?_
    by_cases hut : u = t
    · subst hut
      rw [move_threads_self] at hu
      exact Or.inl ⟨b, hu, hb⟩
    · rw [move_threads_of_ne c s next hut] at hu
      exact Or.inr ⟨hc.known u b x hu hb, fun a ht ha => hut (hc.unique u t b a x hu ht hb ha)⟩
  · intro x hx
    rcases (hafter x).mp hx with ⟨b, hnext, hb⟩ | ⟨hold, hnot⟩
    · exact ⟨t, b, by rw [move_threads_self, hnext], hb⟩
    · obtain ⟨u, b, hu, hb⟩ := hc.held x hold
      have hut : u ≠ t := by
        rintro rfl
        exact hnot b hu hb
      exact ⟨u, b, by rw [move_threads_of_ne c s next hut, hu], hb⟩
  · intro u v b b' x hu hv hb hb'
    by_cases hut : u = t <;> by_cases hvt : v = t
    · rw [hut, hvt]
    · subst hut
      rw [move_threads_self] at hu
      rw [move_threads_of_ne c s next hvt] at hv
      exact absurd hb (hother v b' b x hvt hv hu hb')
    · subst hvt
      rw [move_threads_self] at hv
      rw [move_threads_of_ne c s next hut] at hu
      exact absurd hb' (hother u b b' x hut hu hv hb)
    · rw [move_threads_of_ne c s next hut] at hu
      rw [move_threads_of_ne c s next hvt] at hv
      exact hc.unique u v b b' x hu hv hb hb'

theorem Custody.advance (hc : Custody holds outstanding c) (ht : c.threads t = some a)
    (h : Transfer holds outstanding a c.shared s next) :
    Custody holds outstanding (c.move s t next) :=
  hc.move (by simpa [ht] using h.after) (by simpa [ht] using h.drawn)

/-- An operation that starts with no token keeps custody. -/
theorem Custody.invoke (hc : Custody holds outstanding c) (ht : c.threads t = none)
    (ha : ∀ x, ¬holds a x) : Custody holds outstanding (c.move c.shared t (some a)) := by
  refine hc.move (by simp [ht, ha]) ?_
  rintro b x ⟨⟩ hb
  exact absurd hb (ha x)

end Custody

end Presto.Interleaving
