import Mathlib.Algebra.Order.Group.Int
import Mathlib.Data.Int.Basic
import Mathlib.Data.Nat.Log
import Mathlib.Order.Basic
import Mathlib.Tactic.NormNum

/-!
# Machine integers

The order of signed 64-bit integers and of bytes, the arithmetic of the former
away from their ends, and the 32-bit operations that size tables.
-/

namespace Presto.Support

instance int64LinearOrder : LinearOrder Int64 where
  le_refl a := Int64.le_iff_toInt_le.mpr le_rfl
  le_trans a b c hab hbc := by
    rw [Int64.le_iff_toInt_le] at hab hbc ⊢
    exact hab.trans hbc
  lt_iff_le_not_ge a b := by
    rw [Int64.lt_iff_toInt_lt, Int64.le_iff_toInt_le, Int64.le_iff_toInt_le]
    omega
  le_antisymm a b hab hba := by
    rw [Int64.le_iff_toInt_le] at hab hba
    exact Int64.toInt_inj.mp (le_antisymm hab hba)
  le_total a b := by
    rw [Int64.le_iff_toInt_le, Int64.le_iff_toInt_le]
    exact le_total _ _
  toDecidableLE := inferInstance
  toDecidableEq := inferInstance
  toDecidableLT := inferInstance

instance uint8LinearOrder : LinearOrder UInt8 where
  le_refl a := UInt8.le_iff_toNat_le.mpr le_rfl
  le_trans a b c hab hbc := by
    rw [UInt8.le_iff_toNat_le] at hab hbc ⊢
    exact hab.trans hbc
  lt_iff_le_not_ge a b := by
    rw [UInt8.lt_iff_toNat_lt, UInt8.le_iff_toNat_le, UInt8.le_iff_toNat_le]
    omega
  le_antisymm a b hab hba := by
    rw [UInt8.le_iff_toNat_le] at hab hba
    exact UInt8.toNat_inj.mp (le_antisymm hab hba)
  le_total a b := by
    rw [UInt8.le_iff_toNat_le, UInt8.le_iff_toNat_le]
    exact le_total _ _
  toDecidableLE := inferInstance
  toDecidableEq := inferInstance
  toDecidableLT := inferInstance

variable {x : ℤ}

theorem bmod_eq_self {n : ℕ} (hlow : -(n : ℤ) ≤ 2 * x) (hhigh : 2 * x < n) : x.bmod n = x := by
  apply Int.bmod_eq_of_le <;> omega

/-- Division of longs divides magnitudes and keeps the sign, away from the least long. -/
theorem toInt_div_eq {x y : Int64} {d : ℕ} (hy : y.toInt = d) (hx : x.toInt.natAbs < 2 ^ 63) :
    (x / y).toInt = if x.toInt < 0 then -((x.toInt.natAbs / d : ℕ) : ℤ)
      else (x.toInt.natAbs / d : ℕ) := by
  have hle : (x.toInt.tdiv d).natAbs ≤ x.toInt.natAbs := by
    rw [Int.natAbs_tdiv]
    exact Nat.div_le_self _ _
  rw [Int64.toInt_div, hy, bmod_eq_self (by norm_num; omega) (by norm_num; omega)]
  generalize x.toInt = z at *
  generalize hn : z.natAbs = n at *
  split
  next hneg =>
    obtain rfl : z = -n := by omega
    rw [Int.neg_tdiv, ← Int.ofNat_tdiv]
  next hneg =>
    obtain rfl : z = n := by omega
    rw [← Int.ofNat_tdiv]

theorem toInt_mod_eq {x y : Int64} {d : ℕ} (hy : y.toInt = d) :
    (x % y).toInt = if x.toInt < 0 then -((x.toInt.natAbs % d : ℕ) : ℤ)
      else (x.toInt.natAbs % d : ℕ) := by
  rw [Int64.toInt_mod, hy]
  generalize x.toInt = z at *
  generalize hn : z.natAbs = n at *
  have hmod := Int.ofNat_tmod n d
  split
  next hneg =>
    obtain rfl : z = -n := by omega
    rw [Int.neg_tmod, ← hmod]
  next hneg =>
    obtain rfl : z = n := by omega
    rw [← hmod]

/-- The absolute value of a long, as `Math.abs` computes it: it is exact as an unsigned
number, also for the least long. -/
theorem toNat_toUInt64_abs (x : Int64) :
    (if x < 0 then -x else x).toUInt64.toNat = x.toInt.natAbs := by
  have hvalue : x.toInt = _ := BitVec.toInt_eq_toNat_cond x.toBitVec
  have hsign : x < 0 ↔ x.toInt < 0 := Int64.lt_iff_toInt_lt
  by_cases h : x < 0
  · have hlt := hsign.mp h
    have hneg : (-x).toUInt64.toNat = (2 ^ 64 - x.toBitVec.toNat) % 2 ^ 64 :=
      BitVec.toNat_neg x.toBitVec
    rw [if_pos h]
    split at hvalue <;> omega
  · have hge := mt hsign.mpr h
    have hbitsValue : x.toUInt64.toNat = x.toBitVec.toNat := rfl
    rw [if_neg h]
    split at hvalue <;> omega

variable {a : Int64}

theorem toInt_add_one (h : a ≠ Int64.maxValue) : (a + 1).toInt = a.toInt + 1 := by
  have hlow := a.le_toInt
  have hhigh := a.toInt_lt
  have hne : a.toInt ≠ 2 ^ 63 - 1 := by
    intro heq
    exact h (Int64.toInt_inj.mp (heq.trans Int64.toInt_maxValue.symm))
  rw [Int64.toInt_add, show (1 : Int64).toInt = 1 from rfl]
  apply bmod_eq_self <;> norm_num at * <;> omega

theorem toInt_sub_one (h : a ≠ Int64.minValue) : (a - 1).toInt = a.toInt - 1 := by
  have hlow := a.le_toInt
  have hhigh := a.toInt_lt
  have hne : a.toInt ≠ -2 ^ 63 := by
    intro heq
    exact h (Int64.toInt_inj.mp (heq.trans Int64.toInt_minValue.symm))
  rw [Int64.toInt_sub, show (1 : Int64).toInt = 1 from rfl]
  apply bmod_eq_self <;> norm_num at * <;> omega

theorem toInt_sub_of_lt
    {b : Int64} (hlow : -2 ^ 63 ≤ a.toInt - b.toInt) (hhigh : a.toInt - b.toInt < 2 ^ 63) :
    (a - b).toInt = a.toInt - b.toInt := by
  rw [Int64.toInt_sub]
  apply bmod_eq_self <;> norm_num at * <;> omega

/-- The low half of a long that fits an `int` is the long itself. -/
theorem toInt_toInt32_of_lt (hlow : -2 ^ 31 ≤ a.toInt) (hhigh : a.toInt < 2 ^ 31) :
    a.toInt32.toInt = a.toInt := by
  rw [Int64.toInt_toInt32]
  apply bmod_eq_self <;> norm_num at * <;> omega

/-! ## 32-bit sizes -/

/-- The value of a 32-bit computation: the mathematical one, wrapped around. -/
def wrapInt (x : ℤ) : ℤ := x.bmod (2 ^ 32)

theorem wrapInt_eq_self (hlow : -2 ^ 31 ≤ x) (hhigh : x < 2 ^ 31) : wrapInt x = x := by
  apply bmod_eq_self <;> norm_num at * <;> omega

theorem wrapInt_lt (x : ℤ) : wrapInt x < 2 ^ 31 := by
  have h := Int.bmod_lt (x := x) (m := 2 ^ 32) (by norm_num)
  exact h

/-- The upper half of the unsigned numbers wraps to the negative ones. -/
theorem wrapInt_neg (hlow : 2 ^ 31 ≤ x) (hhigh : x < 2 ^ 32) : wrapInt x < 0 := by
  have hwrap : wrapInt x = x - 2 ^ 32 := by
    rw [wrapInt, ← Int.sub_bmod_right]
    apply bmod_eq_self <;> norm_num at * <;> omega
  omega

/-- `Integer.highestOneBit`: of a negative number it is the sign bit. -/
def highestOneBit (i : ℤ) : ℤ :=
  if i < 0 then -2 ^ 31 else if i = 0 then 0 else 2 ^ Nat.log2 i.toNat

variable {i : ℤ}

theorem lt_two_mul_highestOneBit (h : 0 < i) : i < 2 * highestOneBit i := by
  unfold highestOneBit
  have hlt : i.toNat < 2 ^ (Nat.log2 i.toNat + 1) := Nat.lt_log2_self
  have hcast : (i.toNat : ℤ) < ((2 ^ (Nat.log2 i.toNat + 1) : ℕ) : ℤ) := by
    exact_mod_cast hlt
  push_cast at hcast
  omega

theorem highestOneBit_nonneg (h : 0 ≤ i) : 0 ≤ highestOneBit i := by
  unfold highestOneBit
  rw [if_neg (by omega)]
  split
  · exact le_rfl
  · positivity

theorem nonneg_of_highestOneBit (h : 0 ≤ highestOneBit i) : 0 ≤ i := by
  by_contra hneg
  rw [highestOneBit, if_pos (by omega)] at h
  norm_num at h

/-- A power of two below `2 ^ 31` is at most `2 ^ 30`. -/
theorem highestOneBit_le_two_pow (h : i < 2 ^ 31) : highestOneBit i ≤ 2 ^ 30 := by
  unfold highestOneBit
  split
  · norm_num
  · split
    · norm_num
    · have hlog : Nat.log2 i.toNat < 31 := by
        rw [Nat.log2_lt (by omega)]
        omega
      exact_mod_cast Nat.pow_le_pow_right (by norm_num) (by omega : Nat.log2 i.toNat ≤ 30)

/-! ## Bits that are shifted from word to word -/

theorem shift_or_eq_add {w x y k : ℕ} (hk : k ≤ w) (hy : y < 2 ^ k) :
    (x * 2 ^ k % 2 ^ w) ||| y = x * 2 ^ k % 2 ^ w + y := by
  have hmod : x * 2 ^ k % 2 ^ w = (x % 2 ^ (w - k)) <<< k := by
    rw [Nat.shiftLeft_eq, ← Nat.mul_mod_mul_right, ← pow_add, Nat.sub_add_cancel hk]
  rw [hmod, Nat.shiftLeft_add_eq_or_of_lt hy]

theorem div_two_pow_lt {w y k : ℕ} (hk : k ≤ w) (hy : y < 2 ^ w) : y / 2 ^ (w - k) < 2 ^ k := by
  apply Nat.div_lt_of_lt_mul
  rwa [← pow_add, Nat.sub_add_cancel hk]

/-- The bits of a shifted word that stay and those that move on. -/
theorem mul_two_pow_split (x : ℕ) {w k : ℕ} (hk : k ≤ w) :
    x * 2 ^ k % 2 ^ w + 2 ^ w * (x / 2 ^ (w - k)) = x * 2 ^ k := by
  have hdiv : x * 2 ^ k / 2 ^ w = x / 2 ^ (w - k) := by
    have hpow : 2 ^ w = 2 ^ (w - k) * 2 ^ k := by
      rw [← pow_add, Nat.sub_add_cancel hk]
    rw [hpow, Nat.mul_div_mul_right _ _ (by positivity)]
  rw [← hdiv]
  exact Nat.mod_add_div _ _

/-- The low word of a number of two words that is shifted down takes the bits that leave
the high word. -/
theorem shift_words_eq {w low : ℕ} (high : ℕ) {k : ℕ} (hk : k ≤ w) (hlow : low < 2 ^ w) :
    (low / 2 ^ k ||| high * 2 ^ (w - k) % 2 ^ w) + 2 ^ w * (high / 2 ^ k) =
      (low + 2 ^ w * high) / 2 ^ k := by
  have hlt := div_two_pow_lt (Nat.sub_le w k) hlow
  have hsplit := mul_two_pow_split high (Nat.sub_le w k)
  rw [Nat.sub_sub_self hk] at hlt hsplit
  have hpow : 2 ^ w * high = high * 2 ^ (w - k) * 2 ^ k := by
    rw [Nat.mul_assoc, ← pow_add, Nat.sub_add_cancel hk, Nat.mul_comm]
  rw [Nat.or_comm, shift_or_eq_add (Nat.sub_le w k) hlt, hpow,
    Nat.add_mul_div_right _ _ (by positivity), Nat.add_right_comm, hsplit, Nat.add_comm]

/-- The bit below those that a shift keeps says if at least half of a unit is lost. -/
theorem shifted_bit_ne_zero_iff (x k : ℕ) :
    x / 2 ^ k % 2 ≠ 0 ↔ 2 ^ (k + 1) ≤ 2 * (x % 2 ^ (k + 1)) := by
  rw [Nat.mod_pow_succ]
  rcases Nat.mod_two_eq_zero_or_one (x / 2 ^ k) with hbit | hbit
  · rw [hbit]
    omega
  · rw [hbit]
    omega

/-! ## The bounds of a list -/

section Bounds

variable {α : Type*} [LinearOrder α] {l : List α} {a b : α}

theorem foldl_max_le_iff : l.foldl max a ≤ b ↔ a ≤ b ∧ ∀ x ∈ l, x ≤ b := by
  induction l generalizing a with
  | nil => simp
  | cons x l ih => rw [List.foldl_cons, ih, max_le_iff, List.forall_mem_cons, and_assoc]

theorem le_foldl_min_iff : b ≤ l.foldl min a ↔ b ≤ a ∧ ∀ x ∈ l, b ≤ x :=
  foldl_max_le_iff (α := αᵒᵈ)

end Bounds

end Presto.Support
