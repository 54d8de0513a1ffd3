import Mathlib.Algebra.Order.Ring.Nat
import Mathlib.Data.List.Induction
import Mathlib.Data.Nat.Digits.Defs
import Mathlib.Tactic.Ring

/-!
# Numbers as lists of limbs

A number is the list of its digits in a base, the least significant one first,
with its value given by `Nat.ofDigits`.  Beside the rules for the parts of such a
list, this module has the bounds on the estimate of a quotient digit from the
leading limbs that long division rests on.
-/

namespace Presto.Support

open Nat List

open Nat (ofDigits)

variable {b : ℕ}

/-- Every limb is a digit of the base. -/
def Limbs (b : ℕ) (l : List ℕ) : Prop :=
  ∀ d ∈ l, d < b

variable {d : ℕ}

theorem add_mul_mod_pow_succ (n w : ℕ) (hd : d < b) :
    (d + b * w) % b ^ (n + 1) = d + b * (w % b ^ n) := by
  rw [pow_succ', mod_mul, add_mul_mod_self_left, mod_eq_of_lt hd,
    add_mul_div_left _ _ (by omega), div_eq_of_lt hd, zero_add]

theorem add_mul_div_pow_succ (n w : ℕ) (hd : d < b) : (d + b * w) / b ^ (n + 1) = w / b ^ n := by
  rw [pow_succ', ← Nat.div_div_eq_div_mul, Nat.add_mul_div_left _ _ (by omega),
    div_eq_of_lt hd, zero_add]

/-- The list has `n` limbs, which stand for the value. -/
structure Represents (b : ℕ) (l : List ℕ) (n value : ℕ) : Prop where
  one_lt : 1 < b
  length : l.length = n
  limbs : Limbs b l
  value : ofDigits b l = value

/-- The number of limbs up to the most significant one that is not zero. -/
def significantLength (l : List ℕ) : ℕ :=
  (l.reverse.dropWhile (· == 0)).length

theorem significantLength_append_singleton (l : List ℕ) (d : ℕ) :
    significantLength (l ++ [d]) = if d = 0 then significantLength l else l.length + 1 := by
  rw [significantLength, reverse_append, reverse_singleton, singleton_append, dropWhile_cons]
  by_cases hd : d = 0
  · rw [if_pos (by simpa using hd), if_pos hd, significantLength]
  · rw [if_neg (by simpa using hd), if_neg hd]
    simp

namespace Represents

variable {l m : List ℕ} {n k d u v : ℕ}

theorem congr (h : Represents b l n u) (hn : n = k) (hu : u = v) : Represents b l k v := by
  subst hn hu
  exact h

theorem zeros (hb : 1 < b) (n : ℕ) : Represents b (replicate n 0) n 0 := by
  refine ⟨hb, length_replicate, ?_, ofDigits_replicate_zero⟩
  intro d hd
  rw [eq_of_mem_replicate hd]
  exact zero_lt_of_lt hb

theorem cons (h : Represents b l n v) (hd : d < b) : Represents b (d :: l) (n + 1) (d + b * v) := by
  obtain ⟨hb, rfl, hlimbs, rfl⟩ := h
  exact ⟨hb, rfl, forall_mem_cons.mpr ⟨hd, hlimbs⟩, ofDigits_cons⟩

theorem of_cons (h : Represents b (d :: l) n v) :
    d < b ∧ ∃ m u, Represents b l m u ∧ n = m + 1 ∧ v = d + b * u := by
  obtain ⟨hb, rfl, hlimbs, rfl⟩ := h
  obtain ⟨hd, hl⟩ := forall_mem_cons.mp hlimbs
  exact ⟨hd, _, _, ⟨hb, rfl, hl, rfl⟩, rfl, ofDigits_cons⟩

theorem exists_cons (h : Represents b l n v) (hn : 0 < n) :
    ∃ d t m u, l = d :: t ∧ d < b ∧ Represents b t m u ∧ n = m + 1 ∧ v = d + b * u := by
  cases l with
  | nil => exact absurd h.length (by simp; omega)
  | cons d t =>
      obtain ⟨hd, m, u, ht, hsucc, hvalue⟩ := h.of_cons
      exact ⟨d, t, m, u, rfl, hd, ht, hsucc, hvalue⟩

theorem append (hl : Represents b l n u) (hm : Represents b m k v) :
    Represents b (l ++ m) (n + k) (u + b ^ n * v) := by
  obtain ⟨hb, rfl, hl, rfl⟩ := hl
  obtain ⟨-, rfl, hm, rfl⟩ := hm
  exact ⟨hb, length_append, forall_mem_append.mpr ⟨hl, hm⟩, ofDigits_append⟩

theorem of_concat (h : Represents b (l ++ [d]) n v) :
    d < b ∧ ∃ m u, Represents b l m u ∧ n = m + 1 ∧ v = u + b ^ m * d := by
  obtain ⟨hb, rfl, hlimbs, rfl⟩ := h
  obtain ⟨hl, hd⟩ := forall_mem_append.mp hlimbs
  refine ⟨hd d (by simp), _, _, ⟨hb, rfl, hl, rfl⟩, by simp, ?_⟩
  rw [ofDigits_append, ofDigits_singleton]

variable (h : Represents b l n v)

include h

theorem lt : v < b ^ n := by
  obtain ⟨hb, rfl, hlimbs, rfl⟩ := h
  exact ofDigits_lt_base_pow_length hb hlimbs

theorem take (hk : k ≤ n) : Represents b (l.take k) k (v % b ^ k) := by
  obtain ⟨hb, rfl, hlimbs, rfl⟩ := h
  exact ⟨hb, length_take_of_le hk, fun d hd => hlimbs d (mem_of_mem_take hd),
    (ofDigits_mod_pow_eq_ofDigits_take k (zero_lt_of_lt hb) l hlimbs).symm⟩

theorem drop (k : ℕ) : Represents b (l.drop k) (n - k) (v / b ^ k) := by
  obtain ⟨hb, rfl, hlimbs, rfl⟩ := h
  exact ⟨hb, length_drop, fun d hd => hlimbs d (mem_of_mem_drop hd),
    (ofDigits_div_pow_eq_ofDigits_drop k (zero_lt_of_lt hb) l hlimbs).symm⟩

/-- A small number is in the lower limbs. -/
theorem take_of_lt (hk : k ≤ n) (hv : v < b ^ k) : Represents b (l.take k) k v :=
  (h.take hk).congr rfl (mod_eq_of_lt hv)

theorem drop_of_lt (hv : v < b ^ k) : Represents b (l.drop k) (n - k) 0 :=
  (h.drop k).congr rfl (div_eq_of_lt hv)

/-- A limb is a digit of the number. -/
theorem getD (k : ℕ) : l.getD k 0 = v / b ^ k % b := by
  have hdrop := h.drop k
  rw [getD_eq_getElem?_getD, ← head?_drop]
  cases hl : l.drop k with
  | nil =>
      rw [hl] at hdrop
      simp [← hdrop.value]
  | cons d t =>
      rw [hl] at hdrop
      obtain ⟨hd, m, u, -, -, hvalue⟩ := hdrop.of_cons
      rw [hvalue, add_mul_mod_self_left, mod_eq_of_lt hd]
      rfl

theorem getD_eq_zero_of_lt (hv : v < b ^ k) : l.getD k 0 = 0 := by
  rw [h.getD, div_eq_of_lt hv, zero_mod]

omit h

/-- The last limb is the leading digit. -/
theorem getLastD (h : Represents b l (n + 1) v) : l.getLastD 0 = v / b ^ n := by
  have hdigit : v / b ^ n < b := Nat.div_lt_of_lt_mul h.lt
  rw [getLastD_eq_getLast?, getLast?_eq_getElem?, h.length, Nat.add_sub_cancel,
    ← getD_eq_getElem?_getD, h.getD, mod_eq_of_lt hdigit]

theorem dropLast (h : Represents b l (n + 1) v) : Represents b l.dropLast n (v % b ^ n) := by
  rw [dropLast_eq_take, h.length]
  exact h.take n.le_succ

/-- Writing a digit where all lower ones are zero. -/
theorem set (h : Represents b l n v) (hk : k < n) (hd : d < b) (hdvd : b ^ (k + 1) ∣ v) :
    Represents b (l.set k d) n (v + b ^ k * d) := by
  obtain ⟨w, rfl⟩ := hdvd
  have hpos : 0 < b ^ (k + 1) := Nat.pow_pos (by omega)
  have hmod : b ^ (k + 1) * w % b ^ k = 0 := by
    rw [pow_succ, mul_assoc, mul_mod_right]
  rw [set_eq_take_append_cons_drop, if_pos (h.length.symm ▸ hk)]
  refine ((h.take hk.le).append ((h.drop (k + 1)).cons hd)).congr (by omega) ?_
  rw [hmod, Nat.mul_div_cancel_left w hpos]
  ring

/-- The significant limbs are the digits of the value. -/
theorem significantLength_le_iff (h : Represents b l n v) :
    significantLength l ≤ k ↔ v < b ^ k := by
  induction l using reverseRecOn generalizing n v with
  | nil =>
      obtain ⟨hb, -, -, rfl⟩ := h
      exact iff_of_true (Nat.zero_le k) (Nat.pow_pos (Nat.zero_lt_of_lt hb))
  | append_singleton l d ih =>
      have hlt := h.lt
      have hb := zero_lt_of_lt h.one_lt
      obtain ⟨-, m, u, hl, rfl, rfl⟩ := h.of_concat
      rw [significantLength_append_singleton, hl.length]
      split
      next hd => rw [ih hl, hd, mul_zero, add_zero]
      next hd =>
        have hge : b ^ m ≤ b ^ m * d := Nat.le_mul_of_pos_right _ (Nat.pos_of_ne_zero hd)
        constructor
        · exact fun hk => hlt.trans_le (Nat.pow_le_pow_right hb hk)
        · intro hlt
          by_contra hk
          have hpow : b ^ k ≤ b ^ m := Nat.pow_le_pow_right hb (by omega)
          omega

theorem pow_le (h : Represents b l n v) (hk : significantLength l = k + 1) : b ^ k ≤ v := by
  by_contra hlt
  have hle := h.significantLength_le_iff.mpr (not_le.mp hlt)
  omega

end Represents

/-! ## Division by one limb

The remainder of the higher limbs is divided together with the next limb. -/

theorem add_mul_eq_stage (x n d : ℕ) : x + b * n = x + n % d * b + d * (b * (n / d)) := by
  calc x + b * n = x + b * (n % d + d * (n / d)) := by rw [mod_add_div]
    _ = _ := by ring

theorem stage_div (x n : ℕ) (hd : 0 < d) : (x + b * n) / d = (x + n % d * b) / d + b * (n / d) := by
  rw [add_mul_eq_stage x n d, add_mul_div_left _ _ hd]

theorem stage_mod (x n d : ℕ) : (x + b * n) % d = (x + n % d * b) % d := by
  rw [add_mul_eq_stage x n d, add_mul_mod_self_left]

theorem stage_div_lt {x : ℕ} (n : ℕ) (hx : x < b) (hd : 0 < d) : (x + n % d * b) / d < b := by
  apply Nat.div_lt_of_lt_mul
  calc x + n % d * b < b + n % d * b := Nat.add_lt_add_right hx _
    _ = (n % d + 1) * b := by ring
    _ ≤ d * b := mul_le_mul_right b (mod_lt n hd)

/-! ## Quotient digits

A dividend `u * B + t` and a divisor `v * B + w` are split into their leading
limbs `u`, `v` and the rest below `B`. -/

section Estimate

variable {B u t v w q : ℕ}

/-- A digit that is too large for the leading limbs is too large. -/
theorem div_lt_of_lt_mul_leading (ht : t < B) (h : u < q * v) : (u * B + t) / (v * B + w) < q := by
  apply Nat.div_lt_of_lt_mul
  calc u * B + t < (u + 1) * B := by rw [Nat.add_mul, Nat.one_mul]; omega
    _ ≤ (q * v) * B := mul_le_mul_right B h
    _ ≤ (v * B + w) * q := by rw [add_mul]; nlinarith

/-- A digit that the leading limbs allow is too large by at most one. -/
theorem le_div_add_one_of_mul_leading_le (hw : w < B) (hv : 0 < v) (hq : q ≤ v + 1)
    (h : q * v ≤ u) : q ≤ (u * B + t) / (v * B + w) + 1 := by
  rcases Nat.eq_zero_or_pos q with rfl | hpos
  · exact zero_le _
  obtain ⟨p, rfl⟩ : ∃ p, q = p + 1 := ⟨q - 1, by omega⟩
  have hB : 0 < B := by omega
  have hpositive : 0 < v * B + w := Nat.add_pos_left (Nat.mul_pos hv hB) w
  apply succ_le_succ
  rw [le_div_iff_mul_le hpositive]
  calc p * (v * B + w) ≤ p * (v * B) + p * B := by
        rw [mul_add]
        exact Nat.add_le_add_left (Nat.mul_le_mul_left p hw.le) _
    _ ≤ p * (v * B) + v * B := Nat.add_le_add_left (Nat.mul_le_mul_right B (by omega)) _
    _ = (p + 1) * v * B := by ring
    _ ≤ u * B := mul_le_mul_right B h
    _ ≤ u * B + t := le_add_right _ _

/-- The digit estimated from one limb of the divisor is too large for two limbs
by at most two, when the divisor is normalized. -/
theorem sub_two_mul_le {v₁ v₀ u₂₁ u₀ : ℕ} (hv₀ : v₀ < b) (hnormal : b ≤ 2 * v₁)
    (hq : q ≤ b) (h : q * v₁ ≤ u₂₁) : (q - 2) * (v₁ * b + v₀) ≤ u₂₁ * b + u₀ := by
  rcases lt_or_ge q 2 with hlt | hge
  · rw [Nat.sub_eq_zero_of_le hlt.le, Nat.zero_mul]
    exact zero_le _
  obtain ⟨p, rfl⟩ : ∃ p, q = p + 2 := ⟨q - 2, by omega⟩
  calc p * (v₁ * b + v₀) ≤ p * v₁ * b + b * b := by
        rw [mul_add, ← mul_assoc]
        exact Nat.add_le_add_left (Nat.mul_le_mul (by omega) hv₀.le) _
    _ ≤ p * v₁ * b + 2 * v₁ * b := Nat.add_le_add_left (Nat.mul_le_mul_right b hnormal) _
    _ = (p + 2) * v₁ * b := by ring
    _ ≤ u₂₁ * b := mul_le_mul_right b h
    _ ≤ u₂₁ * b + u₀ := le_add_right _ _

end Estimate

end Presto.Support
