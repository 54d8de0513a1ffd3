import Mathlib.Data.Nat.Basic
import Mathlib.Data.Option.Basic

/-!
# Exceptions of fallible operations

A method that can throw returns `Result`.  The exception carries its class and
its message, so that which check failed stays visible in the model.
-/

namespace Presto

/-- The error codes of the exceptions that reach the user. -/
inductive StandardErrorCode
  | invalidCastArgument
  | invalidResourceGroup
  | genericInsufficientResources
  | numericValueOutOfRange
  | invalidWindowFrame
  | divisionByZero
  | invalidFunctionArgument
  deriving DecidableEq, Repr

/-- The exception classes that the modelled methods throw. -/
inductive Throwable
  | illegalArgument (message : String)
  | illegalState (message : String)
  | arithmetic (message : String)
  | nullPointer
  | negativeArraySize
  | indexOutOfBounds
  | noSuchElement
  | classCast
  | unsupportedOperation (message : String)
  | corruption (message : String)
  | encryption (message : String)
  | verify (message : String)
  | semantic (message : String)
  | prestoException (errorCode : StandardErrorCode) (message : String)
  deriving DecidableEq, Repr

/-- The outcome of a method: its value, or the exception it throws. -/
abbrev Result (α : Type*) := Except Throwable α

namespace Result

universe u

variable {α β : Type u} {ε : Type*}

theorem bind_ok (a : α) (f : α → Except ε β) : (Except.ok a : Except ε α) >>= f = f a := rfl

theorem bind_error (e : ε) (f : α → Except ε β) :
    (Except.error e : Except ε α) >>= f = .error e := rfl

/-- A sequence of two steps returns exactly when both steps return. -/
theorem bind_eq_ok_iff {x : Except ε α} {f : α → Except ε β} {b : β} :
    x >>= f = .ok b ↔ ∃ a, x = .ok a ∧ f a = .ok b := by
  cases x with
  | error e => simp [bind_error]
  | ok a => simp [bind_ok]

theorem map_ok (f : α → β) (a : α) : f <$> (Except.ok a : Result α) = .ok (f a) := rfl

theorem map_eq_ok_iff {x : Result α} {f : α → β} {b : β} :
    f <$> x = .ok b ↔ ∃ a, x = .ok a ∧ f a = b := by
  cases x with
  | error e | ok a => simp

/-- A traversal returns when the step returns on every element. -/
theorem mapM_eq_ok {f : α → Result β} {g : α → β} {as : List α} (h : ∀ a ∈ as, f a = .ok (g a)) :
    as.mapM f = .ok (as.map g) := by
  induction as with
  | nil => rfl
  | cons a as ih =>
      have hhead : f a = .ok (g a) := h a (by simp)
      have htail : as.mapM f = .ok (as.map g) := ih fun b hb => h b (by simp [hb])
      rw [List.mapM_cons, hhead, htail]
      rfl

end Result

/-- How a method can fail to return a value: it throws, or one of its loops does not end. -/
inductive Abrupt
  | throws (e : Throwable)
  | diverges
  deriving DecidableEq, Repr

/-- The outcome of a method with a loop that could go on for ever. -/
abbrev Outcome (α : Type*) := Except Abrupt α

namespace Outcome

universe u

variable {α β : Type u}

/-- A method without such a loop. -/
def ofResult : Result α → Outcome α
  | .ok a => .ok a
  | .error e => .error (.throws e)

theorem bind_ok (a : α) (f : α → Outcome β) : (Except.ok a : Outcome α) >>= f = f a := rfl

/-- The method returns a value with the given property or ends in one of the admitted ways. -/
def Meets (admitted : Abrupt → Prop) (post : α → Prop) : Outcome α → Prop
  | .ok a => post a
  | .error e => admitted e

section Meets

variable {admitted : Abrupt → Prop} {post : α → Prop} {post' : β → Prop} {x : Outcome α}

theorem Meets.bind {f : α → Outcome β} (hx : x.Meets admitted post)
    (hf : ∀ a, post a → (f a).Meets admitted post') : (x >>= f).Meets admitted post' := by
  cases x with
  | ok a => exact hf a hx
  | error e => exact hx

theorem Meets.mono {post' : α → Prop} (hx : x.Meets admitted post)
    (hpost : ∀ a, post a → post' a) : x.Meets admitted post' := by
  cases x with
  | ok a => exact hpost a hx
  | error e => exact hx

end Meets

/-- A loop over a range of numbers keeps an invariant of its rounds and returns. -/
theorem foldlM_range_spec {α : Type} {I : ℕ → α → Prop} {f : α → ℕ → Outcome α} {first count : ℕ}
    (hstep : ∀ i < first + count, ∀ a, I i a → ∃ b, f a i = .ok b ∧ I (i + 1) b)
    {a : α} (ha : I first a) :
    ∃ b, (List.range' first count).foldlM f a = .ok b ∧ I (first + count) b := by
  induction count generalizing first a with
  | zero => exact ⟨a, rfl, ha⟩
  | succ count ih =>
      obtain ⟨b, hb, hinv⟩ := hstep first (by omega) a ha
      obtain ⟨c, hc, hfinal⟩ := ih (fun i hi => hstep i (by omega)) hinv
      refine ⟨c, ?_, by rwa [show first + (count + 1) = first + 1 + count by omega]⟩
      rw [List.range'_succ, List.foldlM_cons, hb]
      exact hc

end Outcome
end Presto
