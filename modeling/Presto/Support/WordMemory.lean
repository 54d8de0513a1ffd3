import Mathlib.Logic.Function.Basic
import Presto.Support.Throwable

/-!
# A memory of 32-bit words

Methods that write their result into a slice of their caller.  A slice is the
address of its first word, so that two slices may be the same or overlap.  A
method that throws leaves behind what it has written before.
-/

namespace Presto.Support

/-- The word at every address. -/
abbrev WordMemory := ℕ → UInt32

/-- A method that reads and writes the memory and returns or throws. -/
abbrev MemoryM := ExceptT Throwable (StateM WordMemory)

namespace MemoryM

variable {α β : Type}

/-- The outcome of a method and the memory it leaves behind. -/
def runOn (method : MemoryM α) (memory : WordMemory) : Result α × WordMemory :=
  method memory

/-- What the memory holds is read and not changed. -/
def reading (f : WordMemory → α) : MemoryM α := fun memory => (.ok (f memory), memory)

def setWord (address : ℕ) (word : UInt32) : MemoryM Unit :=
  fun memory => (.ok (), Function.update memory address word)

theorem runOn_pure (a : α) (memory : WordMemory) :
    (pure a : MemoryM α).runOn memory = (.ok a, memory) := rfl

theorem runOn_reading_bind (f : WordMemory → α) (g : α → MemoryM β) (memory : WordMemory) :
    (reading f >>= g).runOn memory = (g (f memory)).runOn memory := rfl

variable {method : MemoryM α} {memory : WordMemory}

/-- The second of two methods runs on what the first one leaves behind. -/
theorem runOn_bind_of_ok {memory' : WordMemory} {a : α} (g : α → MemoryM β)
    (h : method.runOn memory = (.ok a, memory')) :
    (method >>= g).runOn memory = (g a).runOn memory' := by
  change (ExceptT.bindCont g (method memory).1) (method memory).2 = _
  rw [show method memory = (.ok a, memory') from h]
  rfl

theorem runOn_bind_of_error {e : Throwable} (g : α → MemoryM β)
    (h : (method.runOn memory).1 = .error e) : ((method >>= g).runOn memory).1 = .error e := by
  change ((ExceptT.bindCont g (method memory).1) (method memory).2).1 = _
  rw [show (method memory).1 = .error e from h]
  rfl

end MemoryM

end Presto.Support
