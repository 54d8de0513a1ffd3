import Presto.Support.WordMemory
import Presto.Types.DecimalAddition

/-!
# Addition and subtraction of decimals in slices

`add`, `addWithOverflow` and `subtract` read two slices and write a third, which
may be one of the operands or overlap them.  Every int of the operands is read
before the first int of the result is written, so the decimal that is stored is
the one that the operands held at the start.
-/

namespace Presto.Types.DecimalSlices

open Support Support.MemoryM UnscaledDecimal128

open UnscaledDecimal128 (ReturnsBelow lowInt lowIntSigned lowIntSigned_lt lowInt_lt
  overflowException packInts)

/-! ## The code -/

/-- The decimal in the four words of a slice. -/
def decimalAt (memory : WordMemory) (slice : ℕ) : UnscaledDecimal128 :=
  .ofRawLongs ((memory slice).toNat + 2 ^ 32 * (memory (slice + 1)).toNat)
    ((memory (slice + 2)).toNat + 2 ^ 32 * (memory (slice + 3)).toNat)

def getInt (decimal index : ℕ) : MemoryM ℕ :=
  reading fun memory => (decimalAt memory decimal).getInt index

def isNegative (decimal : ℕ) : MemoryM Bool :=
  reading fun memory => (decimalAt memory decimal).isNegative

def compareAbsolute (left right : ℕ) : MemoryM Ordering :=
  reading fun memory => (decimalAt memory left).compareAbsolute (decimalAt memory right)

def setRawInt (decimal index value : ℕ) : MemoryM Unit :=
  setWord (decimal + index) (UInt32.ofNat value)

def setRawLong (decimal index value : ℕ) : MemoryM Unit := do
  setRawInt decimal (2 * index) (value % 2 ^ 32)
  setRawInt decimal (2 * index + 1) (value / 2 ^ 32)

def setNegativeInt (decimal v3 : ℕ) (negative : Bool) : MemoryM Unit :=
  if 2 ^ 31 ≤ v3 then throw overflowException
  else setRawInt decimal 3 (if negative then 2 ^ 31 + v3 else v3)

/-- `pack` of four ints. -/
def pack (decimal v0 v1 v2 v3 : ℕ) (negative : Bool) : MemoryM Unit := do
  setRawInt decimal 0 v0
  setRawInt decimal 1 v1
  setRawInt decimal 2 v2
  setNegativeInt decimal v3 negative

def setToZero (decimal : ℕ) : MemoryM Unit := do
  setRawLong decimal 0 0
  setRawLong decimal 1 0

def addUnsignedReturnOverflow (left right result : ℕ) (resultNegative : Bool) :
    MemoryM ℤ := do
  let l0 ← getInt left 0
  let l1 ← getInt left 1
  let l2 ← getInt left 2
  let l3 ← getInt left 3
  let r0 ← getInt right 0
  let r1 ← getInt right 1
  let r2 ← getInt right 2
  let r3 ← getInt right 3
  let intermediate0 := l0 + r0
  let intermediate1 := l1 + r1 + intermediate0 / 2 ^ 32
  let intermediate2 := l2 + r2 + intermediate1 / 2 ^ 32
  let intermediate3 := l3 + r3 + intermediate2 / 2 ^ 32
  pack result (lowInt intermediate0) (lowInt intermediate1) (lowInt intermediate2)
    (lowInt intermediate3 % 2 ^ 31) resultNegative
  pure (intermediate3 / 2 ^ 31 : ℕ)

def subtractUnsigned (left right result : ℕ) (resultNegative : Bool) : MemoryM Unit := do
  let l0 ← getInt left 0
  let l1 ← getInt left 1
  let l2 ← getInt left 2
  let l3 ← getInt left 3
  let r0 ← getInt right 0
  let r1 ← getInt right 1
  let r2 ← getInt right 2
  let r3 ← getInt right 3
  let intermediate0 : ℤ := l0 - r0
  let intermediate1 : ℤ := l1 - r1 + intermediate0 / 2 ^ 32
  let intermediate2 : ℤ := l2 - r2 + intermediate1 / 2 ^ 32
  let intermediate3 : ℤ := l3 - r3 + intermediate2 / 2 ^ 32
  pack result (lowIntSigned intermediate0) (lowIntSigned intermediate1)
    (lowIntSigned intermediate2) (lowIntSigned intermediate3) resultNegative
  let carry := intermediate3 / 2 ^ 32
  if carry ≠ 0 then
    throw (.illegalState
      s!"Non empty carry over after subtracting [{carry}]. right > left?")
  else pure ()

/-- The difference of the magnitudes with the given sign if the left one is greater, with
the opposite one if it is less. -/
def subtractMagnitudes (left right result : ℕ) (resultNegative : Bool) : MemoryM Unit := do
  let compare ← compareAbsolute left right
  match compare with
  | .gt => subtractUnsigned left right result resultNegative
  | .lt => subtractUnsigned right left result (!resultNegative)
  | .eq => setToZero result

def addWithOverflow (left right result : ℕ) : MemoryM ℤ := do
  let leftNegative ← isNegative left
  let rightNegative ← isNegative right
  if leftNegative = rightNegative then do
    let overflow ← addUnsignedReturnOverflow left right result leftNegative
    pure (if leftNegative then -overflow else overflow)
  else do
    subtractMagnitudes left right result leftNegative
    pure 0

/-- An overflow other than zero is thrown. -/
def throwIfOverflow (overflow : ℤ) : MemoryM Unit :=
  if overflow ≠ 0 then throw overflowException else pure ()

def add (left right result : ℕ) : MemoryM Unit := do
  let overflow ← addWithOverflow left right result
  throwIfOverflow overflow

def subtract (left right result : ℕ) : MemoryM Unit := do
  let leftNegative ← isNegative left
  let rightNegative ← isNegative right
  if leftNegative ≠ rightNegative then do
    let overflow ← addUnsignedReturnOverflow left right result leftNegative
    throwIfOverflow overflow
  else subtractMagnitudes left right result (leftNegative && rightNegative)

/-! ## What is stored -/

/-- The decimal is in the slice, and no word outside of it has changed. -/
structure Stores
    (memory : WordMemory) (slice : ℕ) (decimal : UnscaledDecimal128)
    (memory' : WordMemory) : Prop where
  decimalAt_eq : decimalAt memory' slice = decimal
  frame : ∀ address, address < slice ∨ slice + 4 ≤ address → memory' address = memory address

/-- The memory after four ints have been written to a slice. -/
def writeInts (memory : WordMemory) (slice v0 v1 v2 v3 : ℕ) : WordMemory :=
  Function.update (Function.update (Function.update (Function.update memory
    slice (.ofNat v0)) (slice + 1) (.ofNat v1)) (slice + 2) (.ofNat v2)) (slice + 3) (.ofNat v3)

variable (memory : WordMemory)

theorem writeInts_stores (slice : ℕ) {v0 v1 v2 v3 : ℕ} (h0 : v0 < 2 ^ 32)
    (h1 : v1 < 2 ^ 32) (h2 : v2 < 2 ^ 32) (h3 : v3 < 2 ^ 32) :
    Stores memory slice (.ofRawLongs (v0 + 2 ^ 32 * v1) (v2 + 2 ^ 32 * v3))
      (writeInts memory slice v0 v1 v2 v3) where
  decimalAt_eq := by
    have hvalue : ∀ v : ℕ, v < 2 ^ 32 → (UInt32.ofNat v).toNat = v :=
      fun v hv => UInt32.toNat_ofNat_of_lt' hv
    have hwords : writeInts memory slice v0 v1 v2 v3 slice = .ofNat v0 ∧
        writeInts memory slice v0 v1 v2 v3 (slice + 1) = .ofNat v1 ∧
        writeInts memory slice v0 v1 v2 v3 (slice + 2) = .ofNat v2 ∧
        writeInts memory slice v0 v1 v2 v3 (slice + 3) = .ofNat v3 := by
      simp [writeInts]
    rw [decimalAt, hwords.1, hwords.2.1, hwords.2.2.1, hwords.2.2.2, hvalue v0 h0,
      hvalue v1 h1, hvalue v2 h2, hvalue v3 h3]
  frame := by
    intro address haddress
    have hne : address ≠ slice ∧ address ≠ slice + 1 ∧ address ≠ slice + 2 ∧
        address ≠ slice + 3 := by omega
    simp [writeInts, hne]

theorem pack_runOn (slice : ℕ) {v0 v1 v2 v3 : ℕ} (negative : Bool)
    {decimal : UnscaledDecimal128} (h0 : v0 < 2 ^ 32) (h1 : v1 < 2 ^ 32) (h2 : v2 < 2 ^ 32)
    (hpack : packInts v0 v1 v2 v3 negative = .ok decimal) :
    ∃ memory', (pack slice v0 v1 v2 v3 negative).runOn memory = (.ok (), memory') ∧
      Stores memory slice decimal memory' := by
  unfold packInts at hpack
  by_cases h3 : 2 ^ 31 ≤ v3
  · rw [if_pos h3] at hpack
    cases hpack
  · rw [if_neg h3, Except.ok.injEq] at hpack
    have hsigned : (if negative then 2 ^ 31 + v3 else v3) < 2 ^ 32 := by
      split <;> omega
    have hwritten : (pack slice v0 v1 v2 v3 negative).runOn memory =
        (.ok (), writeInts memory slice v0 v1 v2 (if negative then 2 ^ 31 + v3 else v3)) := by
      change (setNegativeInt slice v3 negative).runOn _ = _
      rw [setNegativeInt, if_neg h3]
      rfl
    refine ⟨_, hwritten, ?_⟩
    have hstores := writeInts_stores memory slice h0 h1 h2 hsigned
    have hdecimal : decimal = .ofRawLongs (v0 + 2 ^ 32 * v1)
        (v2 + 2 ^ 32 * (if negative then 2 ^ 31 + v3 else v3)) := by
      rw [← hpack, UnscaledDecimal128.pack, UnscaledDecimal128.withSign]
      cases negative with
      | false => rfl
      | true =>
          have hhigh : 2 ^ 63 + (v2 + 2 ^ 32 * v3) % 2 ^ 63 =
              v2 + 2 ^ 32 * (2 ^ 31 + v3) := by omega
          simp only [if_true, hhigh]
    rwa [hdecimal]

theorem setToZero_runOn (slice : ℕ) :
    ∃ memory', (setToZero slice).runOn memory = (.ok (), memory') ∧
      Stores memory slice .zero memory' := by
  have hzero : 0 < 2 ^ 32 := by norm_num
  exact ⟨writeInts memory slice 0 0 0 0, rfl, writeInts_stores memory slice hzero hzero hzero hzero⟩

/-! ## Refinement -/

/-- The method stores and returns what a function of the decimals returns, and throws what
it throws. -/
def Refines {α : Type} (method : MemoryM α) (memory : WordMemory) (slice : ℕ) :
    Result (UnscaledDecimal128 × α) → Prop
  | .ok (decimal, a) => ∃ memory', method.runOn memory = (.ok a, memory') ∧
      Stores memory slice decimal memory'
  | .error e => (method.runOn memory).1 = .error e

variable {slice : ℕ}

/-- What follows the writing of the decimal leaves the memory as it is. -/
theorem Refines.bind {α β : Type} {method : MemoryM α} {memory : WordMemory}
    {outcome : Result (UnscaledDecimal128 × α)} (h : Refines method memory slice outcome)
    {g : α → MemoryM β} {f : α → Result β}
    (hg : ∀ a memory', (g a).runOn memory' = (f a, memory')) :
    Refines (method >>= g) memory slice
      (outcome >>= fun stored => (stored.1, ·) <$> f stored.2) := by
  rcases outcome with e | ⟨decimal, a⟩
  · exact runOn_bind_of_error g h
  · obtain ⟨memory', hrun, hstores⟩ := h
    rw [Result.bind_ok]
    have hbind := (runOn_bind_of_ok g hrun).trans (hg a memory')
    cases hf : f a with
    | ok b => exact ⟨memory', hf ▸ hbind, hstores⟩
    | error e => exact (congrArg Prod.fst hbind).trans hf

theorem addUnsignedReturnOverflow_refines (left right result : ℕ) (resultNegative : Bool) :
    Refines (addUnsignedReturnOverflow left right result resultNegative) memory result
      (UnscaledDecimal128.addUnsignedReturnOverflow (decimalAt memory left)
        (decimalAt memory right) resultNegative) := by
  obtain ⟨decimal, overflow, hadd, -⟩ :=
    addUnsignedReturnOverflow_spec (decimalAt memory left)
      (decimalAt memory right) resultNegative
  rw [hadd]
  rw [UnscaledDecimal128.addUnsignedReturnOverflow, Result.bind_eq_ok_iff] at hadd
  obtain ⟨packed, hpack, hpure⟩ := hadd
  obtain ⟨hdecimal, hoverflow⟩ := Prod.mk.inj (Except.ok.inj hpure)
  obtain ⟨memory', hrun, hstores⟩ :=
    pack_runOn memory result resultNegative (lowInt_lt _)
      (lowInt_lt _) (lowInt_lt _) hpack
  refine ⟨memory', ?_, hdecimal ▸ hstores⟩
  rw [← hoverflow]
  exact runOn_bind_of_ok _ hrun

theorem subtractUnsigned_refines {left right : ℕ} (result : ℕ) (resultNegative : Bool)
    (hle : (decimalAt memory right).magnitude ≤ (decimalAt memory left).magnitude) :
    Refines (subtractUnsigned left right result resultNegative) memory result
      ((·, ()) <$> UnscaledDecimal128.subtractUnsigned (decimalAt memory left)
        (decimalAt memory right) resultNegative) := by
  obtain ⟨decimal, hsubtract, -⟩ :=
    subtractUnsigned_spec resultNegative hle
  rw [hsubtract]
  rw [UnscaledDecimal128.subtractUnsigned, Result.bind_eq_ok_iff] at hsubtract
  obtain ⟨packed, hpack, hcarry⟩ := hsubtract
  obtain ⟨memory', hrun, hstores⟩ :=
    pack_runOn memory result resultNegative (lowIntSigned_lt _)
      (lowIntSigned_lt _) (lowIntSigned_lt _)
      hpack
  -- the carry check of the pure difference has passed, and it is the one made here
  dsimp only at hcarry
  split_ifs at hcarry with hzero
  obtain rfl := Except.ok.inj hcarry
  refine ⟨memory', (runOn_bind_of_ok _ hrun).trans ?_, hstores⟩
  rw [if_neg hzero, runOn_pure]

theorem subtractMagnitudes_refines (left right result : ℕ) (resultNegative : Bool) :
    Refines (subtractMagnitudes left right result resultNegative) memory result
      ((·, ()) <$> UnscaledDecimal128.subtractMagnitudes (decimalAt memory left)
        (decimalAt memory right) resultNegative) := by
  unfold Refines
  rw [subtractMagnitudes, compareAbsolute, runOn_reading_bind,
    UnscaledDecimal128.subtractMagnitudes, UnscaledDecimal128.compareAbsolute_eq]
  rcases lt_trichotomy (decimalAt memory left).magnitude (decimalAt memory right).magnitude
    with hlt | heq | hgt
  · rw [Nat.compare_eq_lt.mpr hlt]
    exact subtractUnsigned_refines memory result (!resultNegative) hlt.le
  · rw [Nat.compare_eq_eq.mpr heq]
    exact setToZero_runOn memory result
  · rw [Nat.compare_eq_gt.mpr hgt]
    exact subtractUnsigned_refines memory result resultNegative hgt.le

/-! ## Exact sums and differences -/

/-- The method stores the value if its magnitude has at most 127 bits and throws the
overflow exception otherwise. -/
def StoresExactly
    (method : MemoryM Unit) (memory : WordMemory) (result : ℕ) (value : ℤ) : Prop :=
  if |value| < 2 ^ 127 then
    ∃ (memory' : WordMemory) (decimal : UnscaledDecimal128),
      method.runOn memory = (.ok (), memory') ∧ Stores memory result decimal memory' ∧
      decimal.toBigInteger = value
  else (method.runOn memory).1 = .error overflowException

variable {method : MemoryM Unit} {result : ℕ} {value : ℤ}

theorem storesExactly_of_refines {memory : WordMemory} {outcome : Result UnscaledDecimal128}
    (h : Refines method memory result ((·, ()) <$> outcome))
    (hreturns : ReturnsBelow (2 ^ 127) value
      overflowException outcome) :
    StoresExactly method memory result value := by
  unfold ReturnsBelow at hreturns
  rw [StoresExactly, if_congr abs_lt_two_pow_iff rfl rfl]
  split at hreturns
  next hlt =>
    obtain ⟨decimal, rfl, hvalue⟩ := hreturns
    obtain ⟨memory', hrun, hstores⟩ := h
    rw [if_pos hlt]
    exact ⟨memory', decimal, hrun, hstores, hvalue⟩
  next hlt =>
    rw [hreturns] at h
    rw [if_neg hlt]
    exact h

theorem Refines.throwIfOverflow {method : MemoryM ℤ} {memory : WordMemory}
    {outcome : Result (UnscaledDecimal128 × ℤ)} (h : Refines method memory slice outcome) :
    Refines (method >>= throwIfOverflow) memory slice
      ((·, ()) <$> (outcome >>= UnscaledDecimal128.throwIfOverflow)) := by
  have hbind := h.bind (g := DecimalSlices.throwIfOverflow) (f := fun overflow =>
    if overflow ≠ 0 then .error overflowException else .ok ()) ?_
  · convert hbind using 1
    rcases outcome with e | ⟨decimal, overflow⟩
    · rfl
    · simp only [Result.bind_ok, UnscaledDecimal128.throwIfOverflow]
      split <;> rfl
  · intro overflow memory'
    rw [DecimalSlices.throwIfOverflow]
    split <;> rfl

theorem addWithOverflow_refines (left right result : ℕ) :
    Refines (addWithOverflow left right result) memory result
      (UnscaledDecimal128.addWithOverflow (decimalAt memory left)
        (decimalAt memory right)) := by
  unfold Refines
  rw [addWithOverflow, isNegative, isNegative, runOn_reading_bind, runOn_reading_bind]
  by_cases hsign : (decimalAt memory left).isNegative = (decimalAt memory right).isNegative
  · rw [if_pos hsign, UnscaledDecimal128.addWithOverflow, if_pos hsign]
    exact (addUnsignedReturnOverflow_refines memory left right result _).bind
      (f := fun overflow => .ok (if (decimalAt memory left).isNegative then -overflow
        else overflow)) fun _ _ => rfl
  · have hbind := (subtractMagnitudes_refines memory left right result
      (decimalAt memory left).isNegative).bind (g := fun _ => pure (0 : ℤ)) fun _ _ => rfl
    rw [if_neg hsign, addWithOverflow_of_ne hsign]
    rw [bind_map_left] at hbind
    exact hbind

theorem add_storesExactly (left right result : ℕ) :
    StoresExactly (add left right result) memory result
      ((decimalAt memory left).toBigInteger + (decimalAt memory right).toBigInteger) :=
  storesExactly_of_refines (addWithOverflow_refines memory left right result).throwIfOverflow
    (add_returns _ _)

theorem subtract_storesExactly (left right result : ℕ) :
    StoresExactly (subtract left right result) memory result
      ((decimalAt memory left).toBigInteger - (decimalAt memory right).toBigInteger) := by
  refine storesExactly_of_refines ?_ (subtract_returns _ _)
  unfold Refines
  rw [subtract, isNegative, isNegative, runOn_reading_bind, runOn_reading_bind,
    UnscaledDecimal128.subtract]
  by_cases hsign : (decimalAt memory left).isNegative = (decimalAt memory right).isNegative
  · rw [if_neg (not_not.mpr hsign), if_neg (not_not.mpr hsign)]
    exact subtractMagnitudes_refines memory left right result _
  · rw [if_pos hsign, if_pos hsign]
    exact (addUnsignedReturnOverflow_refines memory left right result _).throwIfOverflow

/-- The only exception of a method that stores exactly is the overflow exception. -/
theorem StoresExactly.outcome_ne_illegalState {memory : WordMemory}
    (h : StoresExactly method memory result value) (message : String) :
    (method.runOn memory).1 ≠ .error (.illegalState message) := by
  unfold StoresExactly at h
  split at h
  · obtain ⟨memory', decimal, hrun, -⟩ := h
    rw [hrun]
    intro heq
    cases heq
  · rw [h]
    intro heq
    cases heq

/-- Sums and differences of the decimals in two slices, stored in a third one that may
be one of them or overlap them: with its overflow a sum is exact, without one the sum or
difference is stored if it fits and an overflow is thrown if it does not, and nothing else
is thrown. -/
theorem decimal_sums_are_exact (memory : WordMemory) (left right result : ℕ) :
    (∃ (memory' : WordMemory) (decimal : UnscaledDecimal128) (overflow : ℤ),
      (addWithOverflow left right result).runOn memory = (.ok overflow, memory') ∧
      Stores memory result decimal memory' ∧
      decimal.toBigInteger + overflow * 2 ^ 127 =
        (decimalAt memory left).toBigInteger + (decimalAt memory right).toBigInteger) ∧
    StoresExactly (add left right result) memory result
      ((decimalAt memory left).toBigInteger + (decimalAt memory right).toBigInteger) ∧
    StoresExactly (subtract left right result) memory result
      ((decimalAt memory left).toBigInteger - (decimalAt memory right).toBigInteger) ∧
    ∀ message,
      ((addWithOverflow left right result).runOn memory).1 ≠ .error (.illegalState message) ∧
      ((add left right result).runOn memory).1 ≠ .error (.illegalState message) ∧
      ((subtract left right result).runOn memory).1 ≠ .error (.illegalState message) := by
  obtain ⟨decimal, hadd, hvalue⟩ :=
    addWithOverflow_spec (decimalAt memory left) (decimalAt memory right)
  have hrefines := addWithOverflow_refines memory left right result
  rw [hadd] at hrefines
  obtain ⟨memory', hrun, hstores⟩ := hrefines
  have hsum := add_storesExactly memory left right result
  have hsubtract := subtract_storesExactly memory left right result
  refine ⟨⟨memory', decimal, _, hrun, hstores, by omega⟩, hsum, hsubtract, ?_⟩
  intro message
  refine ⟨?_, hsum.outcome_ne_illegalState message,
    hsubtract.outcome_ne_illegalState message⟩
  rw [hrun]
  intro heq
  cases heq

end Presto.Types.DecimalSlices
