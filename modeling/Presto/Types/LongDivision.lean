import Presto.Types.MultiPrecision

/-!
# Long division of decimals

The division of an array of nine ints by one of eight: by a single int, or by
Knuth's algorithm after the divisor is normalized.  Either way it leaves the
quotient and the remainder.
-/

namespace Presto.Types.UnscaledDecimal128

open Support Nat

/-! ## Division by one int -/

/-- Unsigned division of longs, by signed operations. -/
def divideUnsignedLong (dividend divisor : ℕ) : ℕ :=
  if 2 ^ 63 ≤ divisor then (if dividend < divisor then 0 else 1)
  else if 0 < dividend ∧ dividend < 2 ^ 63 then dividend / divisor
  else
    let quotient := wrapLong (dividend / 2 / divisor * 2)
    let remainder := subtractLong dividend (wrapLong (quotient * divisor))
    if divisor ≤ remainder then wrapLong (quotient + 1) else quotient

/-- The loop over the ints from the most significant one down: the quotient and
the remainder. -/
def divideByInt (divisor : ℕ) : List ℕ → List ℕ × ℕ
  | [] => ([], 0)
  | x :: dividend =>
      let above := divideByInt divisor dividend
      let remainder := wrapLong (above.2 * 2 ^ 32 + x)
      let quotient := divideUnsignedLong remainder divisor
      (lowInt quotient :: above.1,
        subtractLong remainder (wrapLong (quotient * divisor)))

/-- `divideUnsignedMultiPrecision(int[], int, int)`: the quotient in place of the
dividend, and the remainder. -/
def divideUnsignedMultiPrecisionByInt (dividend : List ℕ) (dividendLength divisor : ℕ) :
    Result (List ℕ × ℕ) :=
  if divisor = 0 then .error divisionByZeroException
  else if dividendLength = 1 then
    let quotient := dividend.getD 0 0 / divisor
    let remainder :=
      subtractLong (dividend.getD 0 0) (wrapLong (divisor * quotient))
    .ok (dividend.set 0 (lowInt quotient), lowInt remainder)
  else
    let result := divideByInt divisor (dividend.take dividendLength)
    .ok (result.1 ++ dividend.drop dividendLength, lowInt result.2)

variable {divisor : ℕ}

theorem divideUnsignedLong_eq {dividend : ℕ} (hpos : 0 < divisor) (hdivisor : divisor < 2 ^ 64)
    (hdividend : dividend < 2 ^ 64) : divideUnsignedLong dividend divisor = dividend / divisor := by
  unfold divideUnsignedLong
  symm
  split
  next hlarge =>
    split
    next hlt => exact div_eq_of_lt hlt
    next hge =>
      rw [Nat.div_eq_iff hpos]
      omega
  next hsmall =>
    split
    · rfl
    next hsign =>
      -- halving the dividend loses at most one in the doubled quotient
      have hhalf := div_add_mod' (dividend / 2) divisor
      have hmod := mod_lt (dividend / 2) hpos
      generalize hq : dividend / 2 / divisor = q at *
      have hqle : q ≤ q * divisor := Nat.le_mul_of_pos_right _ hpos
      have hdouble : q * 2 * divisor = 2 * (q * divisor) := by ring
      have hquotient : wrapLong (q * 2) = q * 2 := wrapLong_of_lt (by omega)
      have hproduct : wrapLong (q * 2 * divisor) = q * 2 * divisor :=
        wrapLong_of_lt (by omega)
      have hremainder : subtractLong dividend (q * 2 * divisor) =
          dividend - q * 2 * divisor := subtractLong_of_le hdividend (by omega)
      dsimp only
      rw [hquotient, hproduct]
      split
      next hge =>
        rw [wrapLong_of_lt (by omega), Nat.div_eq_iff hpos, Nat.add_mul, Nat.one_mul]
        omega
      next hlt =>
        rw [Nat.div_eq_iff hpos]
        omega

theorem divideByInt_spec (hpos : 0 < divisor) (hdivisor : divisor < 2 ^ 32) (dividend : List ℕ) :
    ∀ {n u : ℕ}, Ints dividend n u →
      Ints (divideByInt divisor dividend).1 n (u / divisor) ∧
        (divideByInt divisor dividend).2 = u % divisor := by
  induction dividend with
  | nil =>
      intro n u h
      obtain rfl : 0 = u := h.value
      exact ⟨h.congr rfl (Nat.zero_div _).symm, (Nat.zero_mod _).symm⟩
  | cons x dividend ih =>
      intro n u h
      obtain ⟨hx, n, u, h', rfl, rfl⟩ := h.of_cons
      obtain ⟨hquotient, hremainder⟩ := ih h'
      rw [divideByInt]
      simp only [hremainder]
      have hmod : u % divisor < divisor := mod_lt _ hpos
      have hdigit := stage_div_lt u hx hpos
      have hlong : x + u % divisor * 2 ^ 32 < 2 ^ 64 := by omega
      rw [stage_div x u hpos, stage_mod x u divisor, add_comm _ x]
      generalize x + u % divisor * 2 ^ 32 = stage at *
      have hdivMod := div_add_mod' stage divisor
      rw [wrapLong_of_lt hlong, divideUnsignedLong_eq hpos (by omega) hlong,
        wrapLong_of_lt (x := _ * divisor) (by omega), subtractLong_of_le hlong (by omega),
        lowInt_of_lt hdigit]
      exact ⟨hquotient.cons hdigit, by omega⟩

variable {dividend : List ℕ} {n u : ℕ}

theorem divideUnsignedMultiPrecisionByInt_spec {dividendLength : ℕ} (hpos : 0 < divisor)
    (hdivisor : divisor < 2 ^ 32) (hle : dividendLength ≤ n) (h : Ints dividend n u)
    (hfits : u < (2 ^ 32) ^ dividendLength) :
    ∃ quotient, divideUnsignedMultiPrecisionByInt dividend dividendLength divisor =
        .ok (quotient, u % divisor) ∧ Ints quotient n (u / divisor) := by
  rw [divideUnsignedMultiPrecisionByInt, if_neg hpos.ne']
  have hmod : u % divisor < 2 ^ 32 := (mod_lt _ hpos).trans hdivisor
  by_cases hone : dividendLength = 1
  · subst hone
    obtain ⟨x, dividend, n, v, rfl, hx, h', rfl, rfl⟩ := h.exists_cons (by omega)
    obtain rfl : v = 0 := by omega
    rw [mul_zero, add_zero] at hmod ⊢
    have hdiv : x / divisor ≤ x := div_le_self _ _
    have hmul : divisor * (x / divisor) ≤ x := mul_div_le x divisor
    have hsplit := div_add_mod x divisor
    simp only [List.getD_cons_zero]
    rw [wrapLong_of_lt (by omega), subtractLong_of_le (by omega) hmul,
      lowInt_of_lt (by omega), lowInt_of_lt (by omega)]
    exact ⟨_, congrArg Except.ok (Prod.ext rfl (by dsimp only; omega)),
      h'.cons (hdiv.trans_lt hx)⟩
  · obtain ⟨hquotient, hremainder⟩ :=
      divideByInt_spec hpos hdivisor _ (h.take_of_lt hle hfits)
    rw [if_neg hone]
    dsimp only
    rw [hremainder, lowInt_of_lt hmod]
    exact ⟨_, rfl, (hquotient.append (h.drop_of_lt hfits)).congr (by omega) (by ring)⟩

/-! ## Quotient digits -/

/-- The loop of `estimateQuotient`: the digit and how often it was decreased. -/
def correctQuotient (u0 v1 v0 : ℕ) : (qhat rhat iterations : ℕ) → ℕ × ℕ
  -- the product is not above anything once the digit is zero
  | 0, _, iterations => (0, iterations)
  | qhat + 1, rhat, iterations =>
      if rhat < 2 ^ 32 ∧
          combineInts (lowInt rhat) u0 < wrapLong (v0 * (qhat + 1)) then
        correctQuotient u0 v1 v0 qhat (wrapLong (rhat + v1)) (iterations + 1)
      else (qhat + 1, iterations)

/-- The first estimate, from the leading int of the divisor. -/
def firstEstimate (u2 u1 v1 : ℕ) : ℕ :=
  let u21 := combineInts u2 u1
  if u2 = v1 then 2 ^ 32 - 1
  else if u21 < 2 ^ 63 then u21 / v1
  else divideUnsignedLong u21 v1

def estimateQuotient (u2 u1 u0 v1 v0 : ℕ) : Result ℕ :=
  let u21 := combineInts u2 u1
  let qhat := firstEstimate u2 u1 v1
  if qhat = 0 then .ok 0
  else
    let rhat := subtractLong u21 (wrapLong (v1 * qhat))
    let corrected := correctQuotient u0 v1 v0 qhat rhat 0
    if 2 < corrected.2 then
      .error (.illegalState
        ("qhat is greater than q by more than 2: " ++ toString corrected.2))
    else .ok (lowInt corrected.1)

variable {u0 v1 v0 q : ℕ}

/-- The correction stops at a digit that the two leading ints of the divisor
allow.  It passes neither the quotient `q` nor a digit `low` that they allow. -/
theorem correctQuotient_spec {u21 low : ℕ} (hu0 : u0 < 2 ^ 32) (hv1 : v1 < 2 ^ 32)
    (hv0 : v0 < 2 ^ 32) (hquotient : ∀ p, u21 * 2 ^ 32 + u0 < p * (v1 * 2 ^ 32 + v0) → q < p)
    (hlow : low * (v1 * 2 ^ 32 + v0) ≤ u21 * 2 ^ 32 + u0) (qhat : ℕ) :
    ∀ rhat iterations, q ≤ qhat → qhat < 2 ^ 32 → qhat * v1 + rhat = u21 →
      ∃ digit count, correctQuotient u0 v1 v0 qhat rhat iterations = (digit, count) ∧
        q ≤ digit ∧ digit < 2 ^ 32 ∧ digit * (v1 * 2 ^ 32 + v0) ≤ u21 * 2 ^ 32 + u0 ∧
        count ≤ iterations + (qhat - low) := by
  induction qhat with
  | zero =>
      intro rhat iterations hq hlt _
      exact ⟨0, iterations, rfl, hq, hlt, by omega, by omega⟩
  | succ qhat ih =>
      intro rhat iterations hq hlt hrhat
      have hproduct := mul_lt_two_pow hv0 hlt
      have hexpand : u21 * 2 ^ 32 + u0 =
          (qhat + 1) * (v1 * 2 ^ 32) + (rhat * 2 ^ 32 + u0) := by
        rw [← hrhat]
        ring
      have hmul : (qhat + 1) * (v1 * 2 ^ 32 + v0) =
          (qhat + 1) * (v1 * 2 ^ 32) + v0 * (qhat + 1) := by ring
      rw [correctQuotient, wrapLong_of_lt (x := v0 * (qhat + 1)) (by omega)]
      split
      next hdecrease =>
        obtain ⟨hsmall, hcompare⟩ := hdecrease
        rw [combineInts, lowInt_of_lt hsmall] at hcompare
        have htoo : u21 * 2 ^ 32 + u0 < (qhat + 1) * (v1 * 2 ^ 32 + v0) := by
          rw [hexpand, hmul]
          omega
        have hqhat := hquotient _ htoo
        have hlowLt : low < qhat + 1 := by
          by_contra hge
          have hle := mul_le_mul_right (v1 * 2 ^ 32 + v0) (not_lt.mp hge)
          omega
        have hnext : qhat * v1 + (rhat + v1) = u21 := by
          rw [← hrhat]
          ring
        rw [wrapLong_of_lt (by omega)]
        obtain ⟨digit, count, hrun, hge, hdigit, hallowed, hcount⟩ :=
          ih (rhat + v1) (iterations + 1) (by omega) (by omega) hnext
        exact ⟨digit, count, hrun, hge, hdigit, hallowed, by omega⟩
      next hdecrease =>
        refine ⟨_, _, rfl, hq, hlt, ?_, by omega⟩
        rw [hexpand, hmul]
        apply Nat.add_le_add_left
        by_cases hsmall : rhat < 2 ^ 32
        · have hcompare := not_lt.mp fun h => hdecrease ⟨hsmall, h⟩
          rw [combineInts, lowInt_of_lt hsmall] at hcompare
          omega
        · omega

variable {u2 u1 : ℕ}

/-- The first estimate is the quotient by the leading int of the divisor, cut off
at one int. -/
theorem firstEstimate_spec (hu2 : u2 ≤ v1) (hu1 : u1 < 2 ^ 32) (hu0 : u0 < 2 ^ 32)
    (hv1 : v1 < 2 ^ 32) (hpos : 0 < v1)
    (hquotient : ∀ p, combineInts u2 u1 * 2 ^ 32 + u0 < p * (v1 * 2 ^ 32 + v0) → q < p)
    (hq : q < 2 ^ 32) :
    firstEstimate u2 u1 v1 < 2 ^ 32 ∧
      firstEstimate u2 u1 v1 * v1 ≤ combineInts u2 u1 ∧ q ≤ firstEstimate u2 u1 v1 := by
  by_cases heq : u2 = v1
  · rw [firstEstimate, if_pos heq, combineInts]
    exact ⟨by norm_num, by omega, by omega⟩
  have hfirst : firstEstimate u2 u1 v1 = combineInts u2 u1 / v1 := by
    rw [firstEstimate, if_neg heq]
    split
    · rfl
    · apply divideUnsignedLong_eq hpos (by omega)
      rw [combineInts]
      omega
  have hlong : combineInts u2 u1 < v1 * 2 ^ 32 := by
    rw [combineInts]
    omega
  rw [hfirst]
  refine ⟨Nat.div_lt_of_lt_mul hlong, Nat.div_mul_le_self _ _, ?_⟩
  apply le_of_lt_succ
  apply hquotient
  have hnext : combineInts u2 u1 < (combineInts u2 u1 / v1 + 1) * v1 :=
    lt_mul_of_div_lt (lt_succ_self _) hpos
  calc combineInts u2 u1 * 2 ^ 32 + u0 < (combineInts u2 u1 + 1) * 2 ^ 32 := by omega
    _ ≤ (combineInts u2 u1 / v1 + 1) * v1 * 2 ^ 32 := mul_le_mul_right _ hnext
    _ = (combineInts u2 u1 / v1 + 1) * (v1 * 2 ^ 32) := mul_assoc _ _ _
    _ ≤ (combineInts u2 u1 / v1 + 1) * (v1 * 2 ^ 32 + v0) :=
        mul_le_mul_left _ (le_add_right _ _)

/-- The estimated digit is the quotient of the dividend `u2 : u1 : u0 : t` by the
normalized divisor `v1 : v0 : w`, or one more. -/
theorem estimateQuotient_spec {B t w : ℕ} (hu2 : u2 ≤ v1) (hu1 : u1 < 2 ^ 32) (hu0 : u0 < 2 ^ 32)
    (hv1 : v1 < 2 ^ 32) (hv0 : v0 < 2 ^ 32) (hnormal : 2 ^ 31 ≤ v1) (ht : t < B) (hw : w < B)
    (hq : ((combineInts u2 u1 * 2 ^ 32 + u0) * B + t) / ((v1 * 2 ^ 32 + v0) * B + w) = q)
    (hsmall : q < 2 ^ 32) :
    ∃ qhat, estimateQuotient u2 u1 u0 v1 v0 = .ok qhat ∧ qhat < 2 ^ 32 ∧
      q ≤ qhat ∧ qhat ≤ q + 1 := by
  have hpos : 0 < v1 := by omega
  have hu21 : combineInts u2 u1 < 2 ^ 64 := by
    rw [combineInts]
    omega
  have hquotient : ∀ p, combineInts u2 u1 * 2 ^ 32 + u0 < p * (v1 * 2 ^ 32 + v0) →
      q < p := by
    intro p hp
    rw [← hq]
    exact div_lt_of_lt_mul_leading ht hp
  obtain ⟨hqhat, hmul, hge⟩ := firstEstimate_spec hu2 hu1 hu0 hv1 hpos hquotient hsmall
  rw [estimateQuotient]
  generalize firstEstimate u2 u1 v1 = qhat at *
  by_cases hzero : qhat = 0
  · exact ⟨0, by rw [if_pos hzero], by norm_num, by omega, zero_le _⟩
  have hproduct : v1 * qhat ≤ combineInts u2 u1 := by rwa [mul_comm]
  have hrhat : qhat * v1 + (combineInts u2 u1 - v1 * qhat) = combineInts u2 u1 := by
    rw [mul_comm qhat]
    omega
  obtain ⟨digit, count, hrun, hlower, hdigit, hallowed, hcount⟩ :=
    correctQuotient_spec hu0 hv1 hv0 hquotient
      (sub_two_mul_le hv0 (by omega) hqhat.le hmul) qhat _ 0 hge hqhat hrhat
  rw [if_neg hzero, wrapLong_of_lt (by omega), subtractLong_of_le hu21 hproduct]
  dsimp only
  rw [hrun, if_neg (by omega), lowInt_of_lt hdigit]
  refine ⟨_, rfl, hdigit, hlower, ?_⟩
  rw [← hq]
  exact le_div_add_one_of_mul_leading_le hw (by omega) (by omega) hallowed

/-! ## Subtracting a multiple of the divisor -/

/-- The loop of `multiplyAndSubtractUnsignedMultiPrecision` over the ints of the
divisor and those of the remainder from the left offset on, with the last step
after it; the flag tells whether the difference is negative. -/
def multiplyAndSubtract (multiplier : ℕ) :
    (right left : List ℕ) → (multiplyAccumulator subtractAccumulator : ℕ) → List ℕ × Bool
  | r :: right, l :: left, multiplyAccumulator, subtractAccumulator =>
      let multiplyAccumulator := wrapLong (r * multiplier + multiplyAccumulator)
      let subtractAccumulator :=
        subtractLong (wrapLong (subtractAccumulator + l)) (lowInt multiplyAccumulator)
      let above := multiplyAndSubtract multiplier right left (multiplyAccumulator / 2 ^ 32)
        (wrapLong (subtractAccumulator / 2 ^ 32 + 2 ^ 32 - 1))
      (lowInt subtractAccumulator :: above.1, above.2)
  | [], l :: left, multiplyAccumulator, subtractAccumulator =>
      let subtractAccumulator :=
        wrapLong (subtractAccumulator + subtractLong l multiplyAccumulator)
      (lowInt subtractAccumulator :: left, highInt subtractAccumulator == 0)
  -- not reached, since the remainder is longer than the divisor
  | _, [], _, _ => ([], false)

def multiplyAndSubtractUnsignedMultiPrecision (left : List ℕ) (leftOffset : ℕ)
    (right : List ℕ) (length multiplier : ℕ) : List ℕ × Bool :=
  let result := multiplyAndSubtract multiplier (right.take length)
    (left.drop (leftOffset - length)) 0 (2 ^ 32)
  (left.take (leftOffset - length) ++ result.1, result.2)

/-- The loop of `addUnsignedMultiPrecision`, with the last step after it. -/
def addBack : (right left : List ℕ) → (carry : ℕ) → List ℕ
  | r :: right, l :: left, carry =>
      let accumulator := wrapLong (l + r + carry)
      lowInt accumulator :: addBack right left (highInt accumulator)
  | [], l :: left, carry => (l + carry) % 2 ^ 32 :: left
  -- not reached, since the remainder is longer than the divisor
  | _, [], _ => []

def addUnsignedMultiPrecision (left : List ℕ) (leftOffset : ℕ) (right : List ℕ)
    (length : ℕ) : List ℕ :=
  left.take (leftOffset - length) ++
    addBack (right.take length) (left.drop (leftOffset - length)) 0

variable {m : ℕ}

/-- The digits of the difference, up to the borrow that the flag reports. -/
theorem multiplyAndSubtract_spec (hm : m < 2 ^ 32) (right : List ℕ) :
    ∀ {left : List ℕ} {multiplyAccumulator borrow n k u v : ℕ}, Ints right n v →
      Ints left k u → n < k → multiplyAccumulator < 2 ^ 32 → borrow ≤ 1 →
      let result := multiplyAndSubtract m right left multiplyAccumulator (2 ^ 32 - borrow)
      ∃ difference, Ints result.1 k difference ∧
        difference + v * m + multiplyAccumulator + borrow =
          u + (if result.2 then (2 ^ 32) ^ (n + 1) else 0) ∧
        difference / (2 ^ 32) ^ (n + 1) = u / (2 ^ 32) ^ (n + 1) := by
  induction right with
  | nil =>
      intro left multiplyAccumulator borrow n k u v hright hleft hlength hacc hborrow
      obtain rfl : 0 = n := hright.length
      obtain rfl : 0 = v := hright.value
      obtain ⟨l, left, k, u, rfl, hl, hleft', rfl, rfl⟩ := hleft.exists_cons (by omega)
      have hsum : wrapLong (2 ^ 32 - borrow + subtractLong l multiplyAccumulator) =
          2 ^ 32 - borrow + l - multiplyAccumulator := by
        unfold wrapLong subtractLong
        omega
      simp only [multiplyAndSubtract, hsum]
      refine ⟨_, hleft'.cons (lowInt_lt _), ?_⟩
      simp only [lowInt, highInt, beq_iff_eq]
      exact ⟨by split <;> omega, by omega⟩
  | cons r right ih =>
      intro left multiplyAccumulator borrow n k u v hright hleft hlength hacc hborrow
      obtain ⟨hr, n, v, hright', rfl, rfl⟩ := hright.of_cons
      obtain ⟨l, left, k, u, rfl, hl, hleft', rfl, rfl⟩ := hleft.exists_cons (by omega)
      have hproduct := mul_lt_two_pow hr hm
      have hmultiply : wrapLong (r * m + multiplyAccumulator) =
          r * m + multiplyAccumulator := wrapLong_of_lt (by omega)
      have hlow := lowInt_lt (r * m + multiplyAccumulator)
      have hsubtract : subtractLong (wrapLong (2 ^ 32 - borrow + l))
          (lowInt (r * m + multiplyAccumulator)) =
            2 ^ 32 - borrow + l - lowInt (r * m + multiplyAccumulator) := by
        rw [wrapLong_of_lt (by omega), subtractLong_of_le (by omega) (by omega)]
      have hsplit := lowInt_add_mul (r * m + multiplyAccumulator)
      -- the next step borrows unless the digit carried over
      obtain ⟨next, hnext, hle, hdigit⟩ : ∃ next,
          wrapLong ((2 ^ 32 - borrow + l - lowInt (r * m + multiplyAccumulator)) /
            2 ^ 32 + 2 ^ 32 - 1) = 2 ^ 32 - next ∧ next ≤ 1 ∧
          lowInt (2 ^ 32 - borrow + l - lowInt (r * m + multiplyAccumulator)) +
            lowInt (r * m + multiplyAccumulator) + borrow = l + 2 ^ 32 * next := by
        generalize lowInt (r * m + multiplyAccumulator) = low at *
        refine ⟨1 - (2 ^ 32 - borrow + l - low) / 2 ^ 32, ?_, by omega, ?_⟩
        · unfold wrapLong
          omega
        · unfold lowInt
          omega
      obtain ⟨difference, hdifference, hvalue, hupper⟩ :=
        ih hright' hleft' (by omega)
          (by omega : (r * m + multiplyAccumulator) / 2 ^ 32 < 2 ^ 32) hle
      simp only [multiplyAndSubtract, hmultiply, hsubtract, hnext]
      refine ⟨_, hdifference.cons (lowInt_lt _), ?_, ?_⟩
      · rw [pow_succ' _ (n + 1), ← mul_zero (2 ^ 32), ← mul_ite]
        linarith
      · rw [add_mul_div_pow_succ _ _ (lowInt_lt _), add_mul_div_pow_succ _ _ hl, hupper]

theorem addBack_spec (right : List ℕ) :
    ∀ {left : List ℕ} {carry n k u v : ℕ}, Ints right n v → Ints left k u → n < k →
      carry ≤ 1 →
      ∃ sum overflow, Ints (addBack right left carry) k sum ∧
        sum + (2 ^ 32) ^ (n + 1) * overflow = u + v + carry ∧
        sum / (2 ^ 32) ^ (n + 1) = u / (2 ^ 32) ^ (n + 1) := by
  induction right with
  | nil =>
      intro left carry n k u v hright hleft hlength _
      obtain rfl : 0 = n := hright.length
      obtain rfl : 0 = v := hright.value
      obtain ⟨l, left, k, u, rfl, hl, hleft', rfl, rfl⟩ := hleft.exists_cons (by omega)
      refine ⟨_, (l + carry) / 2 ^ 32, hleft'.cons (mod_lt _ (by norm_num)), ?_⟩
      omega
  | cons r right ih =>
      intro left carry n k u v hright hleft hlength hcarry
      obtain ⟨hr, n, v, hright', rfl, rfl⟩ := hright.of_cons
      obtain ⟨l, left, k, u, rfl, hl, hleft', rfl, rfl⟩ := hleft.exists_cons (by omega)
      have hwrap : wrapLong (l + r + carry) = l + r + carry := wrapLong_of_lt (by omega)
      obtain ⟨sum, overflow, hsum, hvalue, hupper⟩ :=
        ih hright' hleft' (by omega)
          (by unfold highInt; omega : highInt (l + r + carry) ≤ 1)
      have hsplit : lowInt (l + r + carry) + 2 ^ 32 * highInt (l + r + carry) =
          l + r + carry := by
        unfold lowInt highInt
        omega
      simp only [addBack, hwrap]
      refine ⟨_, overflow, hsum.cons (lowInt_lt _), ?_, ?_⟩
      · rw [pow_succ' _ (n + 1)]
        linarith
      · rw [add_mul_div_pow_succ _ _ (lowInt_lt _), add_mul_div_pow_succ _ _ hl, hupper]

/-- A multiple of the divisor is subtracted, and the divisor added back if that was too
much: the digit and the remainder. -/
def subtractMultiple (qHat : ℕ) (right left : List ℕ) : ℕ × List ℕ :=
  let subtracted := multiplyAndSubtract qHat right left 0 (2 ^ 32)
  if subtracted.2 then (qHat - 1, addBack right subtracted.1 0) else (qHat, subtracted.1)

variable {k v : ℕ}

theorem subtractMultiple_spec {right left : List ℕ} {qHat : ℕ} (hright : Ints right n v)
    (hleft : Ints left k u) (hlength : n < k) (hfits : u < (2 ^ 32) ^ (n + 1))
    (hqHat : qHat < 2 ^ 32) (hge : u / v ≤ qHat) (hle : qHat ≤ u / v + 1) (hpos : 0 < v) :
    ∃ result, subtractMultiple qHat right left = (u / v, result) ∧ Ints result k (u % v) := by
  obtain ⟨difference, hdifference, hvalue, hupper⟩ :=
    multiplyAndSubtract_spec hqHat right hright hleft hlength (Nat.two_pow_pos 32)
      (zero_le 1)
  obtain ⟨sum, overflow, hsum, hvalueBack, hupperBack⟩ :=
    addBack_spec right hright hdifference hlength (zero_le 1)
  have hsize : 0 < (2 ^ 32) ^ (n + 1) := by positivity
  rw [div_eq_of_lt hfits] at hupper
  rw [hupper] at hupperBack
  have hsmall := (div_eq_zero_iff_lt hsize).mp hupper
  have hsmallBack := (div_eq_zero_iff_lt hsize).mp hupperBack
  have hsplit := div_add_mod u v
  have hlt := mod_lt u hpos
  have hmod := (mod_le u v).trans_lt hfits
  rw [subtractMultiple]
  generalize multiplyAndSubtract qHat right left 0 (2 ^ 32) = subtracted at *
  generalize (2 ^ 32) ^ (n + 1) = size at *
  generalize u / v = q at *
  have hproduct : v * qHat = v * q + v * (qHat - q) := by
    rw [← Nat.mul_add, Nat.add_sub_cancel' hge]
  cases hflag : subtracted.2 with
  | true =>
      rw [hflag, if_pos rfl] at hvalue
      -- the difference is negative, so the digit was one too large
      have hone : qHat - q = 1 := by
        by_contra hne
        have hzero : qHat - q = 0 := by omega
        rw [hzero] at hproduct
        omega
      rw [hone] at hproduct
      rw [if_pos rfl]
      refine ⟨_, Prod.ext (by dsimp only; omega) rfl, hsum.congr rfl ?_⟩
      have htotal : sum + size * overflow = u % v + size := by linarith
      have hmodSize := congrArg (· % size) htotal
      simp only [add_mul_mod_self_left, add_mod_right] at hmodSize
      rwa [mod_eq_of_lt hsmallBack, mod_eq_of_lt hmod] at hmodSize
  | false =>
      rw [hflag, if_neg Bool.false_ne_true] at hvalue
      have hzero : qHat - q = 0 := by
        by_contra hne
        have hone : qHat - q = 1 := by omega
        rw [hone] at hproduct
        omega
      rw [hzero] at hproduct
      rw [if_neg Bool.false_ne_true]
      exact ⟨_, Prod.ext (by dsimp only; omega) rfl, hdifference.congr rfl (by linarith)⟩

/-! ## Knuth's algorithm -/

/-- The body of the loop of `divideKnuthNormalized` for one digit of the quotient,
whose remainder index is that digit plus the length of the divisor. -/
def knuthStep (divisor : List ℕ) (divisorLength digit : ℕ) (remainder : List ℕ) :
    Result (ℕ × List ℕ) := do
  let reminderIndex := digit + divisorLength
  let v1 := divisor.getD (divisorLength - 1) 0
  let v0 := divisor.getD (divisorLength - 2) 0
  let qHat ← estimateQuotient (remainder.getD reminderIndex 0)
    (remainder.getD (reminderIndex - 1) 0) (remainder.getD (reminderIndex - 2) 0) v1 v0
  if qHat = 0 then pure (qHat, remainder)
  else
    let subtracted := multiplyAndSubtractUnsignedMultiPrecision remainder reminderIndex
      divisor divisorLength qHat
    if subtracted.2 then
      pure (qHat - 1,
        addUnsignedMultiPrecision subtracted.1 reminderIndex divisor divisorLength)
    else pure (qHat, subtracted.1)

/-- The loop over the digits of the quotient, from the most significant one down:
the remainder and the quotient. -/
def divideKnuthNormalized (divisor : List ℕ) (divisorLength : ℕ) :
    (digits : ℕ) → (remainder quotient : List ℕ) → Result (List ℕ × List ℕ)
  | 0, remainder, quotient => .ok (remainder, quotient)
  | digit + 1, remainder, quotient => do
      let step ← knuthStep divisor divisorLength digit remainder
      divideKnuthNormalized divisor divisorLength digit step.2 (quotient.set digit step.1)

/-- `Integer.numberOfLeadingZeros`. -/
def numberOfLeadingZeros (i : ℕ) : ℕ :=
  if i = 0 then 32 else 31 - Nat.log2 i

/-- The quotient and the remainder of two arrays. -/
def divideUnsignedMultiPrecision (dividend divisor : List ℕ) :
    Result (List ℕ × List ℕ) :=
  let divisorLength := digitsInIntegerBase divisor
  let dividendLength := digitsInIntegerBase dividend
  if dividendLength < divisorLength then .ok (List.replicate 8 0, dividend)
  else if divisorLength = 1 then do
    let result ← divideUnsignedMultiPrecisionByInt dividend dividendLength
      (divisor.getD 0 0)
    checkState (result.1.getD (dividend.length - 1) 0 == 0)
    pure (result.1.take 8, result.2 :: List.replicate (dividend.length - 1) 0)
  else do
    let nlz := numberOfLeadingZeros (divisor.getD (divisorLength - 1) 0)
    let divisor ← shiftLeftMultiPrecision divisor divisorLength nlz
    let normalizedDividendLength := min dividend.length (dividendLength + 1)
    let dividend ← shiftLeftMultiPrecision dividend normalizedDividendLength nlz
    let result ← divideKnuthNormalized divisor divisorLength
      (normalizedDividendLength - divisorLength) dividend (List.replicate 8 0)
    let remainder ← shiftRightMultiPrecision result.1 normalizedDividendLength nlz
    pure (result.2, remainder)

/-- A divisor of at least two ints, the leading one with its top bit set. -/
structure Normalized (divisor : List ℕ) (length : ℕ) : Prop where
  two_le : 2 ≤ length
  length_le : length ≤ divisor.length
  limbs : Limbs (2 ^ 32) divisor
  leading : 2 ^ 31 ≤ divisor.getD (length - 1) 0

/-- The three leading ints of a number. -/
theorem combine_leading {w j : ℕ} (hw : w < (2 ^ 32) ^ (j + 3)) :
    combineInts (w / (2 ^ 32) ^ (j + 2) % 2 ^ 32) (w / (2 ^ 32) ^ (j + 1) % 2 ^ 32) * 2 ^ 32 +
      w / (2 ^ 32) ^ j % 2 ^ 32 = w / (2 ^ 32) ^ j := by
  have hlt : w / (2 ^ 32) ^ j < (2 ^ 32) ^ 3 := Nat.div_lt_of_lt_mul (by rwa [← pow_add])
  rw [pow_succ _ (j + 1), pow_succ _ j, ← Nat.div_div_eq_div_mul, ← Nat.div_div_eq_div_mul,
    combineInts]
  generalize w / (2 ^ 32) ^ j = x at *
  omega

variable {divisor : List ℕ}

/-- One step divides the upper part of the remainder by the divisor. -/
theorem knuthStep_spec {remainder : List ℕ} {digit : ℕ} (hnormal : Normalized divisor n)
    (hdivisor : Ints divisor m v) (hv : v < (2 ^ 32) ^ n) (hremainder : Ints remainder k u)
    (hlength : digit + n < k) (hlt : u / (2 ^ 32) ^ digit < v * 2 ^ 32) :
    ∃ result, knuthStep divisor n digit remainder = .ok (u / (2 ^ 32) ^ digit / v, result) ∧
      Ints result k
        (u % (2 ^ 32) ^ digit + (2 ^ 32) ^ digit * (u / (2 ^ 32) ^ digit % v)) := by
  obtain ⟨htwo, hnm, -, hleading⟩ := hnormal
  rw [hdivisor.length] at hnm
  obtain ⟨j, rfl⟩ : ∃ j, n = j + 2 := ⟨n - 2, by omega⟩
  have hleft := hremainder.drop digit
  have hints : ∀ i, remainder.getD (digit + i) 0 =
      u / (2 ^ 32) ^ digit / (2 ^ 32) ^ i % 2 ^ 32 := by
    intro i
    rw [hremainder.getD, pow_add, ← Nat.div_div_eq_div_mul]
  have hsplit := mod_add_div u ((2 ^ 32) ^ digit)
  generalize u / (2 ^ 32) ^ digit = w at *
  have hfits : w < (2 ^ 32) ^ (j + 3) := by
    exact hlt.trans_le (mul_le_mul_right _ hv.le)
  -- the leading ints of the divisor and of the remainder
  have htop : v / (2 ^ 32) ^ (j + 1) < 2 ^ 32 := Nat.div_lt_of_lt_mul (by rwa [← pow_succ])
  have hvalue : v / (2 ^ 32) ^ (j + 1) % 2 ^ 32 * 2 ^ 32 + v / (2 ^ 32) ^ j % 2 ^ 32 =
      v / (2 ^ 32) ^ j := by
    rw [pow_succ, ← Nat.div_div_eq_div_mul] at htop ⊢
    generalize v / (2 ^ 32) ^ j = x at *
    omega
  have hleadingLe : w / (2 ^ 32) ^ (j + 2) % 2 ^ 32 ≤ v / (2 ^ 32) ^ (j + 1) % 2 ^ 32 := by
    rw [Nat.mod_eq_of_lt htop, pow_succ', ← Nat.div_div_eq_div_mul]
    refine (Nat.mod_le _ _).trans (Nat.div_le_div_right ?_)
    omega
  rw [hdivisor.getD] at hleading
  have hpos : 0 < v := by omega
  have hmod : ∀ x : ℕ, x % 2 ^ 32 < 2 ^ 32 := fun x => mod_lt x (by norm_num)
  obtain ⟨qHat, hestimate, hqHat, hge, hle⟩ :=
    estimateQuotient_spec (B := (2 ^ 32) ^ j) hleadingLe (hmod _) (hmod _) (hmod _) (hmod _)
      hleading (mod_lt w (by positivity)) (mod_lt v (by positivity))
      (by rw [combine_leading hfits, hvalue, div_add_mod', div_add_mod'])
      (Nat.div_lt_of_lt_mul hlt)
  have hstep : knuthStep divisor (j + 2) digit remainder =
      if qHat = 0 then .ok (qHat, remainder)
      else
        let next := subtractMultiple qHat (divisor.take (j + 2)) (remainder.drop digit)
        .ok (next.1, remainder.take digit ++ next.2) := by
    have htake := (hremainder.take (k := digit) (by omega)).length
    rw [knuthStep]
    dsimp only
    rw [show digit + (j + 2) - 1 = digit + (j + 1) by omega,
      show digit + (j + 2) - 2 = digit + j by omega, show j + 2 - 1 = j + 1 by omega,
      show j + 2 - 2 = j by omega, hints, hints, hints, hdivisor.getD, hdivisor.getD,
      hestimate, Result.bind_ok]
    simp only [multiplyAndSubtractUnsignedMultiPrecision, addUnsignedMultiPrecision,
      Nat.add_sub_cancel, List.take_left' htake, List.drop_left' htake, subtractMultiple]
    split
    · rfl
    · split <;> rfl
  rw [hstep]
  by_cases hzero : qHat = 0
  · have hsmall : w < v :=
      (div_eq_zero_iff_lt hpos).mp (le_zero.mp (hzero ▸ hge))
    rw [hzero, div_eq_of_lt hsmall, mod_eq_of_lt hsmall, hsplit]
    exact ⟨remainder, rfl, hremainder⟩
  · obtain ⟨result, hresult, hints⟩ :=
      subtractMultiple_spec (hdivisor.take_of_lt hnm hv) hleft (by omega) hfits hqHat hge hle
        hpos
    rw [if_neg hzero, hresult]
    exact ⟨_, rfl, ((hremainder.take (by omega)).append hints).congr (by omega) rfl⟩

/-- The loop leaves the remainder, and adds the quotient to the digits that are there. -/
theorem divideKnuthNormalized_spec (hnormal : Normalized divisor n) (hdivisor : Ints divisor m v)
    (hv : v < (2 ^ 32) ^ n) (digits : ℕ) :
    ∀ {remainder quotient : List ℕ} {k j u q : ℕ}, Ints remainder k u → Ints quotient j q →
      digits + n ≤ k → digits ≤ j → (2 ^ 32) ^ digits ∣ q → u / (2 ^ 32) ^ digits < v →
      ∃ remainder' quotient', divideKnuthNormalized divisor n digits remainder quotient =
          .ok (remainder', quotient') ∧
        Ints remainder' k (u % v) ∧ Ints quotient' j (q + u / v) := by
  induction digits with
  | zero =>
      intro remainder quotient k j u q hremainder hquotient _ _ _ hlt
      rw [pow_zero, Nat.div_one] at hlt
      rw [mod_eq_of_lt hlt, div_eq_of_lt hlt]
      exact ⟨remainder, quotient, rfl, hremainder, hquotient⟩
  | succ digit ih =>
      intro remainder quotient k j u q hremainder hquotient hk hj hdvd hlt
      have htwo := hnormal.two_le
      have hpos : 0 < v := zero_lt_of_lt hlt
      have hupper : u / (2 ^ 32) ^ digit < v * 2 ^ 32 := by
        rw [pow_succ, ← Nat.div_div_eq_div_mul] at hlt
        exact lt_mul_of_div_lt hlt (by norm_num)
      obtain ⟨result, hstep, hresult⟩ :=
        knuthStep_spec hnormal hdivisor hv hremainder (by omega) hupper
      have hset := hquotient.set hj (Nat.div_lt_of_lt_mul hupper) hdvd
      have hlower := (pow_dvd_pow (2 ^ 32) digit.le_succ).trans hdvd
      have hsize : 0 < (2 ^ 32) ^ digit := by positivity
      generalize (2 ^ 32) ^ digit = size at *
      have hnext : (u % size + size * (u / size % v)) / size < v := by
        rw [add_mul_div_left _ _ hsize, div_eq_of_lt (mod_lt u hsize), zero_add]
        exact mod_lt _ hpos
      -- the step takes a multiple of the divisor away
      have hsplit : u = u % size + size * (u / size % v) + v * (size * (u / size / v)) := by
        rw [mul_comm size (_ % v), ← add_mul_eq_stage, mod_add_div]
      obtain ⟨remainder', quotient', hrun, hremainder', hquotient'⟩ :=
        ih hresult hset (by omega) (by omega) (Nat.dvd_add hlower (dvd_mul_right _ _)) hnext
      generalize u % size + size * (u / size % v) = u' at *
      generalize u / size / v = qHat at *
      refine ⟨remainder', quotient', ?_, hremainder'.congr rfl ?_, hquotient'.congr rfl ?_⟩
      · rw [divideKnuthNormalized, hstep]
        exact hrun
      · rw [hsplit, add_mul_mod_self_left]
      · rw [hsplit, add_mul_div_left _ _ hpos]
        ring

/-- Shifting out the leading zeros sets the top bit. -/
theorem numberOfLeadingZeros_spec {i : ℕ} (hne : i ≠ 0) (hi : i < 2 ^ 32) :
    numberOfLeadingZeros i < 32 ∧ 2 ^ 31 ≤ i * 2 ^ numberOfLeadingZeros i ∧
      i * 2 ^ numberOfLeadingZeros i < 2 ^ 32 := by
  have hlog : log2 i < 32 := (log2_lt hne).mpr hi
  have hle := log2_self_le hne
  have hlt := lt_log2_self (n := i)
  rw [numberOfLeadingZeros, if_neg hne]
  refine ⟨by omega, ?_, ?_⟩
  · calc 2 ^ 31 = 2 ^ log2 i * 2 ^ (31 - log2 i) := by
          rw [← pow_add]
          congr 1
          omega
      _ ≤ i * 2 ^ (31 - log2 i) := mul_le_mul_right _ hle
  · calc i * 2 ^ (31 - log2 i) < 2 ^ (log2 i + 1) * 2 ^ (31 - log2 i) :=
          mul_lt_mul_of_pos_right hlt (by positivity)
      _ = 2 ^ 32 := by
          rw [← pow_add]
          congr 1
          omega

/-- Shifting a divisor of `n` ints by the leading zeros of its top int normalizes it. -/
theorem exists_normalized
    {nlz : ℕ} (h : Ints divisor k v) (hlength : digitsInIntegerBase divisor = n + 1)
    (hn : 1 ≤ n) (hzeros : numberOfLeadingZeros (divisor.getD n 0) = nlz) :
    nlz < 32 ∧ ∃ shifted, shiftLeftMultiPrecision divisor (n + 1) nlz = .ok shifted ∧
      Normalized shifted (n + 1) ∧ Ints shifted k (v * 2 ^ nlz) ∧
      v * 2 ^ nlz < (2 ^ 32) ^ (n + 1) := by
  have hlt : v < (2 ^ 32) ^ (n + 1) := h.significantLength_le_iff.mp hlength.le
  have hge : (2 ^ 32) ^ n ≤ v := h.pow_le hlength
  have hk : n < k := (Nat.pow_lt_pow_iff_right (by norm_num)).mp (hge.trans_lt h.lt)
  have hdigit : v / (2 ^ 32) ^ n < 2 ^ 32 := Nat.div_lt_of_lt_mul (by rwa [← pow_succ])
  rw [h.getD, mod_eq_of_lt hdigit] at hzeros
  obtain ⟨hnlz, htop, hfits⟩ :=
    numberOfLeadingZeros_spec (div_pos hge (by positivity)).ne' hdigit
  rw [hzeros] at hnlz htop hfits
  have hnext : (v / (2 ^ 32) ^ n + 1) * 2 ^ nlz ≤ 2 ^ 32 := by
    have hpow : 2 ^ 32 = 2 ^ (32 - nlz) * 2 ^ nlz := by
      rw [← pow_add, Nat.sub_add_cancel hnlz.le]
    rw [hpow] at hfits ⊢
    exact Nat.mul_le_mul_right _ (Nat.lt_of_mul_lt_mul_right hfits)
  have hshiftFits : v * 2 ^ nlz < (2 ^ 32) ^ (n + 1) := by
    calc v * 2 ^ nlz < ((2 ^ 32) ^ n * (v / (2 ^ 32) ^ n + 1)) * 2 ^ nlz :=
          mul_lt_mul_of_pos_right (lt_mul_div_succ v (by positivity)) (by positivity)
      _ = (2 ^ 32) ^ n * ((v / (2 ^ 32) ^ n + 1) * 2 ^ nlz) := mul_assoc _ _ _
      _ ≤ (2 ^ 32) ^ n * 2 ^ 32 := mul_le_mul_left _ hnext
      _ = (2 ^ 32) ^ (n + 1) := (pow_succ _ n).symm
  obtain ⟨shifted, hshift, hshifted⟩ :=
    shiftLeftMultiPrecision_spec hk (succ_pos n)
      (by rw [div_eq_of_lt hnlz]; omega) h hshiftFits
  refine ⟨hnlz, shifted, hshift, ⟨by omega, hshifted.length.symm ▸ hk, hshifted.limbs, ?_⟩,
    hshifted, hshiftFits⟩
  rw [hshifted.getD, Nat.mod_eq_of_lt (Nat.div_lt_of_lt_mul (by rwa [← pow_succ])),
    le_div_iff_mul_le (by positivity)]
  calc 2 ^ 31 * (2 ^ 32) ^ n ≤ v / (2 ^ 32) ^ n * 2 ^ nlz * (2 ^ 32) ^ n :=
        mul_le_mul_right _ htop
    _ = v / (2 ^ 32) ^ n * (2 ^ 32) ^ n * 2 ^ nlz := by ring
    _ ≤ v * 2 ^ nlz := mul_le_mul_right _ (div_mul_le_self v _)

/-- Knuth's algorithm on a normalized divisor, with the shifts before and after it. -/
theorem divideNormalized_spec {nlz : ℕ} (hnormal : Normalized divisor n)
    (hdivisor : Ints divisor k (v * 2 ^ nlz)) (hv : v * 2 ^ nlz < (2 ^ 32) ^ n) (hnlz : nlz < 32)
    (hdividend : Ints dividend 9 u) (hfits : u < (2 ^ 32) ^ m) (hnm : n ≤ m) (hm : m ≤ 8) :
    ∃ quotient remainder,
      (shiftLeftMultiPrecision dividend (m + 1) nlz >>= fun dividend =>
        divideKnuthNormalized divisor n (m + 1 - n) dividend (List.replicate 8 0) >>=
          fun result =>
            shiftRightMultiPrecision result.1 (m + 1) nlz >>= fun remainder =>
              pure (result.2, remainder)) = .ok (quotient, remainder) ∧
      Ints quotient 8 (u / v) ∧ Ints remainder 9 (u % v) := by
  have htwo := hnormal.two_le
  have hpow : 2 ^ nlz ≤ 2 ^ 31 := Nat.pow_le_pow_right (by norm_num) (by omega)
  have hshiftLt : u * 2 ^ nlz < (2 ^ 32) ^ m * 2 ^ nlz :=
    mul_lt_mul_of_pos_right hfits (by positivity)
  have hshiftFits : u * 2 ^ nlz < (2 ^ 32) ^ (m + 1) := by
    exact hshiftLt.trans_le (mul_le_mul_left _ (by omega))
  obtain ⟨shifted, hshift, hshifted⟩ :=
    shiftLeftMultiPrecision_spec (by omega) (succ_pos m)
      (by rw [div_eq_of_lt hnlz]; omega) hdividend hshiftFits
  -- before the first digit the upper part is below the divisor
  have hleading : 2 ^ 31 * (2 ^ 32) ^ (n - 1) ≤ v * 2 ^ nlz := by
    have htop := hnormal.leading
    rw [hdivisor.getD] at htop
    exact (le_div_iff_mul_le (by positivity)).mp (htop.trans (mod_le _ _))
  have hstart : u * 2 ^ nlz / (2 ^ 32) ^ (m + 1 - n) < v * 2 ^ nlz := by
    apply Nat.div_lt_of_lt_mul
    calc u * 2 ^ nlz < (2 ^ 32) ^ m * 2 ^ nlz := hshiftLt
      _ ≤ (2 ^ 32) ^ m * 2 ^ 31 := mul_le_mul_left _ hpow
      _ = (2 ^ 32) ^ (m + 1 - n) * (2 ^ 31 * (2 ^ 32) ^ (n - 1)) := by
          have hexp : (2 ^ 32) ^ m = (2 ^ 32) ^ (m + 1 - n) * (2 ^ 32) ^ (n - 1) := by
            rw [← pow_add]
            congr 1
            omega
          rw [hexp, mul_assoc, mul_comm ((2 ^ 32) ^ (n - 1))]
      _ ≤ (2 ^ 32) ^ (m + 1 - n) * (v * 2 ^ nlz) := mul_le_mul_left _ hleading
  obtain ⟨remainder, quotient, hrun, hremainder, hquotient⟩ :=
    divideKnuthNormalized_spec hnormal hdivisor hv (m + 1 - n) hshifted
      (.zeros (by norm_num) 8) (by omega) (by omega) (dvd_zero _) hstart
  rw [mul_mod_mul_right] at hremainder
  rw [Nat.zero_add, Nat.mul_div_mul_right _ _ (by positivity)] at hquotient
  obtain ⟨result, hresult, hresultInts⟩ :=
    shiftRightMultiPrecision_spec (by omega) hnlz hremainder
      ((mul_le_mul_right _ (mod_le u v)).trans_lt hshiftFits)
  refine ⟨quotient, result, ?_, hquotient, hresultInts⟩
  rw [hshift, Result.bind_ok, hrun, Result.bind_ok, hresult]
  rfl

/-- The division leaves the quotient and the remainder. -/
theorem divideUnsignedMultiPrecision_spec (hdividend : Ints dividend 9 u)
    (hfits : u < (2 ^ 32) ^ 8) (hdivisor : Ints divisor k v) (hpos : 0 < v) :
    ∃ quotient remainder,
      divideUnsignedMultiPrecision dividend divisor = .ok (quotient, remainder) ∧
      Ints quotient 8 (u / v) ∧ Ints remainder 9 (u % v) := by
  have hdividendLt : u < (2 ^ 32) ^ digitsInIntegerBase dividend :=
    hdividend.significantLength_le_iff.mp le_rfl
  have hlengthLe : digitsInIntegerBase dividend ≤ 8 :=
    hdividend.significantLength_le_iff.mpr hfits
  obtain ⟨n, hn⟩ : ∃ n, digitsInIntegerBase divisor = n + 1 := by
    refine exists_eq_succ_of_ne_zero fun hzero => ?_
    have hlt := hdivisor.significantLength_le_iff.mp hzero.le
    rw [pow_zero] at hlt
    omega
  have hdivisorLt := hdivisor.significantLength_le_iff.mp hn.le
  rw [divideUnsignedMultiPrecision]
  dsimp only
  rw [hn]
  by_cases hshort : digitsInIntegerBase dividend < n + 1
  · have hlt : u < v :=
      (hdividend.significantLength_le_iff.mp (le_of_lt_succ hshort)).trans_le
        (hdivisor.pow_le hn)
    rw [if_pos hshort, div_eq_of_lt hlt, mod_eq_of_lt hlt]
    exact ⟨_, _, rfl, .zeros (by norm_num) 8, hdividend⟩
  rw [if_neg hshort]
  by_cases hone : n + 1 = 1
  · rw [hone, pow_one] at hdivisorLt
    have hvalue : divisor.getD 0 0 = v := by
      rw [hdivisor.getD, pow_zero, Nat.div_one, Nat.mod_eq_of_lt hdivisorLt]
    obtain ⟨quotient, hrun, hquotient⟩ :=
      divideUnsignedMultiPrecisionByInt_spec hpos hdivisorLt (hlengthLe.trans (by norm_num))
        hdividend hdividendLt
    have hquotientLt := (div_le_self u v).trans_lt hfits
    have htop : quotient.getD (9 - 1) 0 = 0 := hquotient.getD_eq_zero_of_lt hquotientLt
    rw [if_pos hone, hvalue, hrun, Result.bind_ok, hdividend.length]
    rw [htop]
    exact ⟨_, _, rfl, hquotient.take_of_lt (by norm_num) hquotientLt,
      (Represents.zeros (by norm_num) 8).cons ((mod_lt u hpos).trans hdivisorLt)⟩
  · rw [if_neg hone]
    obtain ⟨hnlz, shifted, hshift, hnormal, hshifted, hshiftedLt⟩ :=
      exists_normalized hdivisor hn (by omega) rfl
    have hmin : min dividend.length (digitsInIntegerBase dividend + 1) =
        digitsInIntegerBase dividend + 1 := by
      rw [hdividend.length]
      exact min_eq_right (succ_le_succ hlengthLe)
    obtain ⟨quotient, remainder, hrun, hresult⟩ :=
      divideNormalized_spec hnormal hshifted hshiftedLt hnlz hdividend hdividendLt
        (not_lt.mp hshort) hlengthLe
    refine ⟨quotient, remainder, ?_, hresult⟩
    rw [Nat.add_sub_cancel, hshift, hmin]
    exact hrun

end Presto.Types.UnscaledDecimal128
