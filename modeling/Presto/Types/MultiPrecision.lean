import Presto.Types.UnscaledDecimal128

/-!
# Multi-precision arithmetic

Products of 256 bits, shifts and long division over arrays of ints, as the
decimal division uses them.  An array is the list of its ints, the least
significant one first; a loop over it is a recursion over the list.
-/

namespace Presto.Types.UnscaledDecimal128

open Support Nat List

/-- The bits that a long keeps. -/
def wrapLong (x : ℕ) : ℕ := x % 2 ^ 64

/-- The difference of two longs. -/
def subtractLong (x y : ℕ) : ℕ := (x + (2 ^ 64 - y)) % 2 ^ 64

def lowInt (val : ℕ) : ℕ := val % 2 ^ 32

def highInt (val : ℕ) : ℕ := val / 2 ^ 32 % 2 ^ 32

def combineInts (high low : ℕ) : ℕ := high * 2 ^ 32 + low

def checkState (condition : Bool) : Result Unit :=
  if condition then .ok () else .error (.illegalState "")

/-- `digitsInIntegerBase`. -/
def digitsInIntegerBase (digits : List ℕ) : ℕ := significantLength digits

variable {x : ℕ}

theorem wrapLong_of_lt (h : x < 2 ^ 64) : wrapLong x = x :=
  mod_eq_of_lt h

variable {y : ℕ}

theorem subtractLong_of_le (hx : x < 2 ^ 64) (h : y ≤ x) : subtractLong x y = x - y := by
  unfold subtractLong
  omega

theorem lowInt_lt (val : ℕ) : lowInt val < 2 ^ 32 :=
  mod_lt _ (by norm_num)

theorem lowInt_of_lt (h : x < 2 ^ 32) : lowInt x = x :=
  mod_eq_of_lt h

theorem lowInt_add_mul (val : ℕ) : lowInt val + 2 ^ 32 * (val / 2 ^ 32) = val :=
  mod_add_div val (2 ^ 32)

theorem mul_lt_two_pow (hx : x < 2 ^ 32) (hy : y < 2 ^ 32) : x * y ≤ (2 ^ 32 - 1) * (2 ^ 32 - 1) :=
  Nat.mul_le_mul (by omega) (by omega)

/-! ## Products -/

/-- One row of the schoolbook product: the ints of `r` times `l`, added to those
of `z`.  The last int is the carry. -/
def multiplyRow (l : ℕ) : (r z : List ℕ) → (accumulator : ℕ) → List ℕ
  | ri :: r, zi :: z, accumulator =>
      let accumulator := wrapLong (accumulator + ri * l + zi)
      lowInt accumulator :: multiplyRow l r z (accumulator / 2 ^ 32)
  | _, _, accumulator => [accumulator]

/-- The rows of `multiply256` for the ints of the left operand, each one place
above the one before.  Rows of zero are skipped. -/
def multiplyRows (r : List ℕ) : (l z : List ℕ) → List ℕ
  | [], z => z
  | li :: l, z =>
      match if li ≠ 0 then multiplyRow li r z 0 else z ++ [0] with
      | [] => []
      | z0 :: z => z0 :: multiplyRows r l z

/-- `multiply256`: the eight ints of the product of four ints with four ints. -/
def multiply256 (left right : List ℕ) : List ℕ :=
  multiplyRows right left [0, 0, 0, 0]

theorem multiplyRow_spec {l : ℕ} (hl : l < 2 ^ 32) (r : List ℕ) :
    ∀ {z : List ℕ} {accumulator n x y : ℕ}, Ints r n x → Ints z n y → accumulator < 2 ^ 32 →
      Ints (multiplyRow l r z accumulator) (n + 1) (x * l + y + accumulator) := by
  induction r with
  | nil =>
      intro z accumulator n x y hr hz haccumulator
      obtain rfl : 0 = n := hr.length
      obtain rfl : 0 = x := hr.value
      obtain rfl : z = [] := eq_nil_of_length_eq_zero hz.length
      obtain rfl : 0 = y := hz.value
      exact (hz.cons haccumulator).congr rfl (by ring)
  | cons ri r ih =>
      intro z accumulator n x y hr hz haccumulator
      obtain ⟨hri, n, x, hr', rfl, rfl⟩ := hr.of_cons
      obtain ⟨zi, z, m, y, rfl, hzi, hz', hm, rfl⟩ := hz.exists_cons (by omega)
      obtain rfl : n = m := by omega
      have hproduct := mul_lt_two_pow hri hl
      have hwrap : wrapLong (accumulator + ri * l + zi) = accumulator + ri * l + zi :=
        wrapLong_of_lt (by omega)
      have hsplit := lowInt_add_mul (accumulator + ri * l + zi)
      rw [multiplyRow, hwrap]
      refine ((ih hr' hz' (by omega)).cons (lowInt_lt _)).congr rfl ?_
      linarith

variable {n : ℕ}

theorem multiplyRows_spec {r : List ℕ} (hr : Ints r n x) (l : List ℕ) :
    ∀ {z : List ℕ} {k y w : ℕ}, Ints l k y → Ints z n w →
      Ints (multiplyRows r l z) (k + n) (y * x + w) := by
  induction l with
  | nil =>
      intro z k y w hl hz
      obtain rfl : 0 = k := hl.length
      obtain rfl : 0 = y := hl.value
      exact hz.congr (zero_add n).symm (by ring)
  | cons li l ih =>
      intro z k y w hl hz
      obtain ⟨hli, k, y, hl', rfl, rfl⟩ := hl.of_cons
      have hrow : Ints (if li ≠ 0 then multiplyRow li r z 0 else z ++ [0]) (n + 1)
          (x * li + w) := by
        by_cases hzero : li = 0
        · rw [hzero]
          exact (hz.append (.zeros (by norm_num) 1)).congr rfl (by ring)
        · rw [if_pos hzero]
          exact multiplyRow_spec hli r hr hz (by norm_num)
      rw [multiplyRows]
      obtain ⟨z0, z', m, w', hcase, hz0, hz', hm, hvalue⟩ := hrow.exists_cons n.succ_pos
      obtain rfl : n = m := by omega
      rw [hcase]
      refine ((ih hl' hz').cons hz0).congr (by omega) ?_
      linarith

/-- `multiply256` is the product. -/
theorem multiply256_spec {left right : List ℕ} (hleft : Ints left n x) (hright : Ints right 4 y) :
    Ints (multiply256 left right) (n + 4) (x * y) :=
  multiplyRows_spec hright left hleft (.zeros (by norm_num) 4)

/-! ## Shifts -/

/-- The loop of `shiftLeftMultiPrecision`: each int takes the upper bits of the
one below. -/
def shiftLeftBits (bitShifts : ℕ) : (below : ℕ) → List ℕ → List ℕ
  | _, [] => []
  | below, x :: number =>
      ((x * 2 ^ bitShifts % 2 ^ 32) ||| (below / 2 ^ (32 - bitShifts))) ::
        shiftLeftBits bitShifts x number

def shiftLeftMultiPrecision (number : List ℕ) (length shifts : ℕ) : Result (List ℕ) :=
  if shifts = 0 then .ok number
  else do
    let wordShifts := shifts / 32
    checkState ((List.range wordShifts).all fun i => number.getD (length - i - 1) 0 == 0)
    let number :=
      List.replicate wordShifts 0 ++ number.take (length - wordShifts) ++ number.drop length
    let bitShifts := shifts % 32
    if bitShifts = 0 then pure number
    else do
      checkState (number.getD (length - 1) 0 / 2 ^ (32 - bitShifts) == 0)
      pure (shiftLeftBits bitShifts 0 (number.take length) ++ number.drop length)

/-- The loop of `shiftRightMultiPrecision`: each int takes the lower bits of the
one above. -/
def shiftRightBits (bitShifts : ℕ) : List ℕ → List ℕ
  | [] => []
  | [x] => [x / 2 ^ bitShifts]
  | x :: above :: number =>
      ((x / 2 ^ bitShifts) ||| (above * 2 ^ (32 - bitShifts) % 2 ^ 32)) ::
        shiftRightBits bitShifts (above :: number)

def shiftRightMultiPrecision (number : List ℕ) (length shifts : ℕ) : Result (List ℕ) :=
  if shifts = 0 then .ok number
  else do
    let wordShifts := shifts / 32
    checkState ((List.range wordShifts).all fun i => number.getD i 0 == 0)
    let number :=
      (number.take length).drop wordShifts ++ List.replicate wordShifts 0 ++
        number.drop length
    let bitShifts := shifts % 32
    if bitShifts = 0 then pure number
    else do
      checkState (number.getD 0 0 * 2 ^ (32 - bitShifts) % 2 ^ 32 == 0)
      pure (shiftRightBits bitShifts (number.take length) ++ number.drop length)

theorem checkState_of {condition : Bool} (h : condition = true) :
    checkState condition = .ok () := by
  rw [checkState, if_pos h]

/-- The two parts of a shifted int do not overlap. -/
theorem shiftLeftBits_spec {k : ℕ} (hk : k ≤ 32) (number : List ℕ) :
    ∀ {below n v : ℕ}, Ints number n v → below < 2 ^ 32 →
      Ints (shiftLeftBits k below number) n
        ((v * 2 ^ k + below / 2 ^ (32 - k)) % (2 ^ 32) ^ n) := by
  induction number with
  | nil =>
      intro below n v h _
      obtain rfl : 0 = n := h.length
      obtain rfl : 0 = v := h.value
      exact h.congr rfl (by rw [pow_zero, mod_one])
  | cons x number ih =>
      intro below n v h hbelow
      obtain ⟨hx, n, v, h', rfl, rfl⟩ := h.of_cons
      have hlow := div_two_pow_lt hk hbelow
      have hor := shift_or_eq_add (x := x) hk hlow
      have hdigit : (x * 2 ^ k % 2 ^ 32) ||| (below / 2 ^ (32 - k)) < 2 ^ 32 := by
        apply or_lt_two_pow (mod_lt _ (by norm_num))
        exact hlow.trans_le (Nat.pow_le_pow_right (by norm_num) hk)
      have hsplit := mul_two_pow_split x hk
      refine ((ih h' hx).cons hdigit).congr rfl ?_
      rw [← add_mul_mod_pow_succ _ _ hdigit, hor]
      congr 1
      linarith

theorem shiftRightBits_spec {k : ℕ} (hk : k ≤ 32) (number : List ℕ) :
    ∀ {n v : ℕ}, Ints number n v → Ints (shiftRightBits k number) n (v / 2 ^ k) := by
  induction number with
  | nil =>
      intro n v h
      obtain rfl : 0 = v := h.value
      exact h.congr rfl (Nat.zero_div _).symm
  | cons x number ih =>
      intro n v h
      obtain ⟨hx, n, v, h', rfl, rfl⟩ := h.of_cons
      have hpow : 2 ^ 32 = 2 ^ k * 2 ^ (32 - k) := by
        rw [← pow_add, Nat.add_sub_cancel' hk]
      have hxlow : x / 2 ^ k < 2 ^ (32 - k) := Nat.div_lt_of_lt_mul (hpow ▸ hx)
      have hxlt : x / 2 ^ k < 2 ^ 32 :=
        hxlow.trans_le (Nat.pow_le_pow_right (by norm_num) (by omega))
      -- the lower bits of the number above are moved in
      have hvalue : (x + 2 ^ 32 * v) / 2 ^ k =
          x / 2 ^ k + v % 2 ^ k * 2 ^ (32 - k) + 2 ^ 32 * (v / 2 ^ k) := by
        have hsplit := mod_add_div v (2 ^ k)
        rw [hpow, mul_assoc, add_mul_div_left _ _ (by positivity)]
        nth_rewrite 1 [← hsplit]
        ring
      cases number with
      | nil =>
          obtain rfl : 0 = v := h'.value
          exact (h'.cons hxlt).congr rfl (by rw [hvalue, Nat.zero_mod, Nat.zero_div]; ring)
      | cons above number =>
          have habove : above * 2 ^ (32 - k) % 2 ^ 32 = v % 2 ^ k * 2 ^ (32 - k) := by
            obtain ⟨-, m, w, -, -, rfl⟩ := h'.of_cons
            rw [hpow, mul_mod_mul_right, mul_assoc, add_mul_mod_self_left]
          have hdigit : (x / 2 ^ k) ||| (above * 2 ^ (32 - k) % 2 ^ 32) < 2 ^ 32 :=
            or_lt_two_pow hxlt (mod_lt _ (by norm_num))
          refine ((ih h').cons hdigit).congr rfl ?_
          rw [Nat.or_comm, shift_or_eq_add (by omega) hxlow, habove, hvalue]
          ring

/-- Shifting whole words up moves no digit out of a small number. -/
theorem shiftWords_spec
    {number : List ℕ} {length wordShifts v : ℕ} (h : Ints number n v) (hlength : length ≤ n)
    (hwords : wordShifts ≤ length) (hfits : v < (2 ^ 32) ^ (length - wordShifts)) :
    Ints (replicate wordShifts 0 ++ number.take (length - wordShifts) ++
      number.drop length) n (v * (2 ^ 32) ^ wordShifts) := by
  have htop : v < (2 ^ 32) ^ length :=
    hfits.trans_le (Nat.pow_le_pow_right (by norm_num) (by omega))
  exact (((Represents.zeros (by norm_num) _).append (h.take_of_lt (by omega) hfits)).append
    (h.drop_of_lt htop)).congr (by omega) (by ring)

section Shift

variable {number : List ℕ} {length shifts n v : ℕ} (hlength : length ≤ n)
include hlength

/-- A left shift that keeps all bits multiplies. -/
theorem shiftLeftMultiPrecision_spec (hpos : 0 < length) (hwords : shifts / 32 ≤ length)
    (h : Ints number n v) (hfits : v * 2 ^ shifts < (2 ^ 32) ^ length) :
    ∃ result, shiftLeftMultiPrecision number length shifts = .ok result ∧
      Ints result n (v * 2 ^ shifts) := by
  by_cases hshifts : shifts = 0
  · exact ⟨number, by rw [shiftLeftMultiPrecision, if_pos hshifts],
      h.congr rfl (by rw [hshifts, pow_zero, mul_one])⟩
  have hpow : 2 ^ shifts = (2 ^ 32) ^ (shifts / 32) * 2 ^ (shifts % 32) := by
    rw [← pow_mul, ← pow_add, div_add_mod]
  rw [shiftLeftMultiPrecision, if_neg hshifts]
  rw [hpow, ← mul_assoc] at hfits ⊢
  have hbits : shifts % 32 < 32 := mod_lt _ (by norm_num)
  generalize shifts / 32 = wordShifts at *
  generalize shifts % 32 = bitShifts at *
  have hword : v * (2 ^ 32) ^ wordShifts < (2 ^ 32) ^ length :=
    lt_of_le_of_lt (Nat.le_mul_of_pos_right _ (by positivity)) hfits
  have hsmall : v < (2 ^ 32) ^ (length - wordShifts) := by
    apply Nat.lt_of_mul_lt_mul_right (a := (2 ^ 32) ^ wordShifts)
    rwa [← pow_add, Nat.sub_add_cancel hwords]
  have hchecked : ((range wordShifts).all fun i =>
      number.getD (length - i - 1) 0 == 0) = true := by
    rw [all_eq_true]
    intro i hi
    have hi' := mem_range.mp hi
    rw [beq_iff_eq]
    apply h.getD_eq_zero_of_lt
    exact hsmall.trans_le (Nat.pow_le_pow_right (by norm_num) (by omega))
  have hshifted := shiftWords_spec h hlength hwords hsmall
  dsimp only
  rw [checkState_of hchecked]
  generalize replicate wordShifts 0 ++ number.take (length - wordShifts) ++
    number.drop length = shifted at *
  generalize v * (2 ^ 32) ^ wordShifts = w at *
  by_cases hzero : bitShifts = 0
  · rw [if_pos hzero]
    exact ⟨shifted, rfl, hshifted.congr rfl (by rw [hzero, pow_zero, mul_one])⟩
  -- the bits that are shifted out are zero
  have htop : shifted.getD (length - 1) 0 / 2 ^ (32 - bitShifts) = 0 := by
    have hlt : w < (2 ^ 32) ^ (length - 1) * 2 ^ (32 - bitShifts) := by
      apply Nat.lt_of_mul_lt_mul_right (a := 2 ^ bitShifts)
      rwa [Nat.mul_assoc, ← pow_add, Nat.sub_add_cancel hbits.le, ← pow_succ,
        Nat.sub_add_cancel hpos]
    rw [hshifted.getD]
    exact Nat.div_eq_of_lt ((Nat.mod_le _ _).trans_lt (Nat.div_lt_of_lt_mul hlt))
  rw [if_neg hzero, htop]
  refine ⟨_, rfl, ((shiftLeftBits_spec hbits.le _ (hshifted.take_of_lt hlength hword)
    (by norm_num)).append (hshifted.drop_of_lt hword)).congr (by omega) ?_⟩
  rw [Nat.zero_div, Nat.mul_zero, Nat.add_zero, Nat.add_zero, Nat.mod_eq_of_lt hfits]

/-- A right shift that drops only zero bits divides. -/
theorem shiftRightMultiPrecision_spec (hshifts : shifts < 32) (h : Ints number n (v * 2 ^ shifts))
    (hfits : v * 2 ^ shifts < (2 ^ 32) ^ length) :
    ∃ result, shiftRightMultiPrecision number length shifts = .ok result ∧ Ints result n v := by
  by_cases hzero : shifts = 0
  · exact ⟨number, by rw [shiftRightMultiPrecision, if_pos hzero],
      h.congr rfl (by rw [hzero, pow_zero, mul_one])⟩
  have hwords : shifts / 32 = 0 := div_eq_of_lt hshifts
  have hbits : shifts % 32 = shifts := mod_eq_of_lt hshifts
  -- the bits that are shifted out are zero
  have hchecked : number.getD 0 0 * 2 ^ (32 - shifts) % 2 ^ 32 = 0 := by
    rw [h.getD, pow_zero, Nat.div_one, Nat.mul_mod, Nat.mod_mod, ← Nat.mul_mod,
      Nat.mul_assoc, ← pow_add, Nat.add_sub_cancel' hshifts.le, Nat.mul_mod_left]
  rw [shiftRightMultiPrecision, if_neg hzero]
  dsimp only
  rw [hwords, hbits, drop_zero, replicate_zero, append_nil, take_append_drop,
    if_neg hzero, hchecked]
  refine ⟨_, rfl, ((shiftRightBits_spec hshifts.le _ (h.take_of_lt hlength hfits)).append
    (h.drop_of_lt hfits)).congr (by omega) ?_⟩
  rw [Nat.mul_zero, Nat.add_zero, Nat.mul_div_cancel _ (by positivity)]

end Shift

end Presto.Types.UnscaledDecimal128
