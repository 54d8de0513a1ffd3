import Mathlib.Data.UInt
import Mathlib.Order.Basic
import Mathlib.Order.Lattice

/-!
# The type `double`

A double is the long of its bits.  The machine compares its values, while hashes and
the total order look at the bits; the three disagree on the two zeros and on the values that
are not a number.
-/

namespace Presto.Types

namespace DoubleType

variable (bits : UInt64)

/-- The bits are those of a value that is not a number. -/
def isNaN : Bool := 0x7ff0000000000000 < (bits &&& 0x7fffffffffffffff)

def isZero : Bool := (bits &&& 0x7fffffffffffffff) == 0

/-- The operator `==` of the machine. -/
def equals (left right : UInt64) : Bool :=
  !isNaN left && !isNaN right && (left == right || isZero left && isZero right)

def isDistinctFrom (left right : UInt64) : Bool :=
  if isNaN left && isNaN right then false else !equals left right

/-- The bits with one representative for the values that are not a number. -/
def doubleToLongBits : UInt64 := if isNaN bits then 0x7ff8000000000000 else bits

/-- The representative of the values that are not distinct from a value. -/
def canonical : UInt64 := if isZero bits then 0 else doubleToLongBits bits

/-- The place of a value in the order of `Double.compare`: `-0.0` is before `0.0`, and the
values that are not a number are one value after all others. -/
def orderKey : ℤ :=
  let canonicalBits := (doubleToLongBits bits).toNat
  if canonicalBits < 2 ^ 63 then canonicalBits else 2 ^ 63 - 1 - canonicalBits

variable {bits : UInt64}

theorem isNaN_of_isZero
    (h : isZero bits = true) : isNaN bits = false := by
  have hzero : bits &&& 0x7fffffffffffffff = 0 := by simpa [isZero] using h
  rw [isNaN, hzero]
  decide

theorem canonical_of_isNaN
    (h : isNaN bits = true) : canonical bits = 0x7ff8000000000000 := by
  have hzero : isZero bits = false := by
    by_contra hzero
    rw [isNaN_of_isZero (by simpa using hzero)] at h
    cases h
  rw [canonical, hzero, if_neg Bool.false_ne_true, doubleToLongBits, if_pos h]

theorem canonical_of_not_isNaN (h : isNaN bits = false) :
    canonical bits = if isZero bits then 0 else bits := by
  rw [canonical, doubleToLongBits, h, if_neg Bool.false_ne_true]

/-- A number is not distinct from a value that is not a number. -/
theorem canonical_ne_of_not_isNaN
    (h : isNaN bits = false) : canonical bits ≠ 0x7ff8000000000000 := by
  rw [canonical_of_not_isNaN h]
  split
  · decide
  · rintro rfl
    cases h

theorem isDistinctFrom_eq_false_iff {left right : UInt64} :
    isDistinctFrom left right = false ↔ canonical left = canonical right := by
  rw [isDistinctFrom]
  cases hleft : isNaN left with
  | true =>
      cases hright : isNaN right with
      | true => simp [canonical_of_isNaN hleft, canonical_of_isNaN hright]
      | false =>
          have hne := canonical_ne_of_not_isNaN hright
          simpa [equals, hleft, canonical_of_isNaN hleft] using hne.symm
  | false =>
      cases hright : isNaN right with
      | true =>
          have hne := canonical_ne_of_not_isNaN hleft
          simpa [equals, hright, canonical_of_isNaN hright] using hne
      | false =>
          -- two numbers that differ are alike only when both are zero
          rcases eq_or_ne left right with rfl | hne
          · simp [equals, hleft]
          · have hzero : isZero 0 = true := rfl
            have hboth : canonical left = canonical right ↔
                isZero left = true ∧ isZero right = true := by
              rw [canonical_of_not_isNaN hleft, canonical_of_not_isNaN hright]
              split_ifs <;> grind
            simp [equals, hleft, hright, hne, hboth]

end DoubleType

/-- A value of the type `double`, in the order of `compareTo`. -/
structure Double where
  bits : UInt64
  deriving DecidableEq

instance Double.instLE : LE Double where
  le left right := DoubleType.orderKey left.bits ≤ DoubleType.orderKey right.bits

instance Double.instPreorder : Preorder Double where
  le_refl value := Int.le_refl (DoubleType.orderKey value.bits)
  le_trans _ _ _ hleft hright := Int.le_trans hleft hright

instance Double.instDecidableLE : DecidableLE Double :=
  fun left right =>
    Int.decLe (DoubleType.orderKey left.bits) (DoubleType.orderKey right.bits)

/-- A value of the type `double`, with one representative for the values that are not a number. -/
def DoubleValue := {value : Double // DoubleType.doubleToLongBits value.bits = value.bits}

theorem DoubleValue.orderKey_injective :
    Function.Injective fun value : DoubleValue => DoubleType.orderKey value.1.bits := by
  rintro ⟨⟨left⟩, hleft⟩ ⟨⟨right⟩, hright⟩ h
  simp only [DoubleType.orderKey] at h hleft hright
  rw [hleft, hright] at h
  obtain rfl : left = right := by
    refine UInt64.toNat_inj.mp ?_
    split_ifs at h <;> omega
  rfl

/-- The order of `compareTo`. -/
instance DoubleValue.instLinearOrder : LinearOrder DoubleValue :=
  LinearOrder.lift' _ DoubleValue.orderKey_injective

/-- `equalTo`. -/
instance DoubleValue.instBEq : BEq DoubleValue where
  beq left right := DoubleType.equals left.1.bits right.1.bits

end Presto.Types
