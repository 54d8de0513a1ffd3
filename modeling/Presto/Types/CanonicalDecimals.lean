import Presto.Types.DecimalModulus

/-!
# Canonical decimals

Sign and magnitude admit two zeros.  Comparison takes them for equal, their bytes and
`XX_HASH_64` tell them apart, so all of them agree only while no operation makes a
negative zero.
-/

namespace Presto.Types.UnscaledDecimal128

open Support

/-! ## Operations -/

def negate (decimal : UnscaledDecimal128) : UnscaledDecimal128 :=
  decimal.setNegative (!decimal.isNegative)

/-- An operation with its operands.  A decimal is scaled down by at most 38 digits. -/
inductive Operation
  | add (left right : UnscaledDecimal128)
  | subtract (left right : UnscaledDecimal128)
  | multiply (left right : UnscaledDecimal128)
  | divide (dividend : UnscaledDecimal128) (rescaleFactor : ℕ) (divisor : UnscaledDecimal128)
  | modulus (dividend : UnscaledDecimal128) (dividendRescaleFactor : ℕ)
      (divisor : UnscaledDecimal128) (divisorRescaleFactor : ℕ)
  | rescale (decimal : UnscaledDecimal128) (rescaleFactor : ℤ) (hlow : -38 ≤ rescaleFactor)
  | negate (decimal : UnscaledDecimal128)

namespace Operation

def operands : Operation → List UnscaledDecimal128
  | add left right => [left, right]
  | subtract left right => [left, right]
  | multiply left right => [left, right]
  | divide dividend _ divisor => [dividend, divisor]
  | modulus dividend _ divisor _ => [dividend, divisor]
  | rescale decimal _ _ => [decimal]
  | negate decimal => [decimal]

def run : Operation → Result UnscaledDecimal128
  | add left right => left.add right
  | subtract left right => left.subtract right
  | multiply left right => left.multiply right
  | divide dividend rescaleFactor divisor =>
      divideRoundUp (.slice dividend) rescaleFactor (.slice divisor)
  | modulus dividend dividendRescaleFactor divisor divisorRescaleFactor =>
      remainder (.slice dividend) dividendRescaleFactor (.slice divisor) divisorRescaleFactor
  | rescale decimal rescaleFactor _ => decimal.rescale rescaleFactor
  | negate decimal => .ok decimal.negate

/-- A result that is zero does not get a negative sign. -/
def AvoidsNegativeZero : Operation → Prop
  | add _ _ => True
  | subtract _ _ => True
  | multiply left right =>
      left.magnitude * right.magnitude = 0 → left.isNegative = right.isNegative
  | divide dividend rescaleFactor divisor =>
      2 * (dividend.magnitude * 10 ^ rescaleFactor) < divisor.magnitude →
        dividend.isNegative = divisor.isNegative
  | modulus dividend dividendRescaleFactor divisor divisorRescaleFactor =>
      divisor.magnitude * 10 ^ divisorRescaleFactor ∣
        dividend.magnitude * 10 ^ dividendRescaleFactor → dividend.isNegative = false
  | rescale decimal rescaleFactor _ =>
      2 * decimal.magnitude < 10 ^ (-rescaleFactor).toNat → decimal.isNegative = false
  | negate decimal => decimal.magnitude ≠ 0

end Operation

/-- A decimal that is not the negative zero. -/
abbrev Canonical (decimal : UnscaledDecimal128) : Prop :=
  decimal.magnitude = 0 → decimal.isNegative = false

/-- The decimals that operations which meet a condition make of canonical ones. -/
inductive Produced (condition : Operation → Prop) : UnscaledDecimal128 → Prop
  | input {decimal : UnscaledDecimal128} (h : Canonical decimal) : Produced condition decimal
  | step {operation : Operation} {result : UnscaledDecimal128}
      (hoperands : ∀ operand ∈ operation.operands, Produced condition operand)
      (hcondition : condition operation) (hrun : operation.run = .ok result) :
      Produced condition result

/-! ## Results of operations -/

variable {negative : Bool} {decimal : UnscaledDecimal128}

theorem Signed.canonical_iff {n : ℕ} (h : Signed n negative decimal) :
    Canonical decimal ↔ (n = 0 → negative = false) := by
  rw [Canonical, h.1, h.2]

section Results

variable {left right result : UnscaledDecimal128} {k j : ℕ}

theorem canonical_of_addUnsigned (hleft : Canonical left)
    (h : addUnsignedReturnOverflow left right left.isNegative >>= throwIfOverflow =
      .ok result) : Canonical result := by
  obtain ⟨sum, overflow, hadd, hmagnitude, hnegative⟩ :=
    addUnsignedReturnOverflow_spec left right left.isNegative
  rw [hadd, Result.bind_ok, throwIfOverflow] at h
  split at h
  next => cases h
  next hoverflow =>
    cases h
    intro (hzero : sum.magnitude = 0)
    rw [hnegative]
    exact hleft (by omega)

theorem canonical_of_subtractMagnitudes (h : subtractMagnitudes left right negative = .ok result) :
    Canonical result := by
  rw [subtractMagnitudes, compareAbsolute_eq] at h
  intro hzero
  rcases lt_trichotomy left.magnitude right.magnitude with hlt | heq | hgt
  · obtain ⟨difference, hsubtract, hmagnitude, -⟩ := subtractUnsigned_spec (!negative) hlt.le
    rw [Nat.compare_eq_lt.mpr hlt, hsubtract] at h
    cases h
    omega
  · rw [Nat.compare_eq_eq.mpr heq] at h
    cases h
    rfl
  · obtain ⟨difference, hsubtract, hmagnitude, -⟩ := subtractUnsigned_spec negative hgt.le
    rw [Nat.compare_eq_gt.mpr hgt, hsubtract] at h
    cases h
    omega

theorem canonical_of_add (hleft : Canonical left) (h : add left right = .ok result) :
    Canonical result := by
  by_cases hsign : left.isNegative = right.isNegative
  · obtain ⟨sum, overflow, hadd, -⟩ := addUnsignedReturnOverflow_spec left right left.isNegative
    have hsum : addUnsignedReturnOverflow left right left.isNegative >>= throwIfOverflow =
        .ok result := by
      rw [add, addWithOverflow, if_pos hsign, hadd, Result.bind_ok] at h
      rw [hadd, Result.bind_ok, ← h]
      cases left.isNegative <;> simp [withOverflowSign, throwIfOverflow]
    exact canonical_of_addUnsigned hleft hsum
  · rw [add, addWithOverflow_of_ne hsign] at h
    obtain ⟨difference, hsubtract, -⟩ := subtractMagnitudes_spec left right left.isNegative
    rw [hsubtract] at h
    cases h
    exact canonical_of_subtractMagnitudes hsubtract

theorem canonical_of_subtract (hleft : Canonical left) (h : subtract left right = .ok result) :
    Canonical result := by
  rw [subtract] at h
  split at h
  · exact canonical_of_addUnsigned hleft h
  · exact canonical_of_subtractMagnitudes h

/-- A division that returns had scale factors in range and a divisor. -/
theorem divide_eq_ok {results : UnscaledDecimal128 × UnscaledDecimal128}
    (h : divide left k right j = .ok results) : k < 38 ∧ j < 38 ∧ 0 < right.magnitude := by
  rw [divide] at h
  split_ifs at h with hzero hk hj
  rw [compare_zero_iff] at hzero
  omega

theorem signed_of_divideRoundUp (h : divideRoundUp (.slice left) k (.slice right) = .ok result) :
    ∃ n, Signed n (left.isNegative != right.isNegative) result ∧
      (n = 0 ↔ 2 * (left.magnitude * 10 ^ k) < right.magnitude) := by
  obtain ⟨results, hdivide, -⟩ := Result.bind_eq_ok_iff.mp h
  obtain ⟨hk, -, hpos⟩ := divide_eq_ok hdivide
  exact ⟨_, (divideRoundUpRaw_spec left right hk hpos rfl rfl).of_eq_ok h,
    roundedMagnitude_eq_zero_iff hpos⟩

theorem signed_of_remainder (h : remainder (.slice left) k (.slice right) j = .ok result) :
    Signed (left.magnitude * 10 ^ k % (right.magnitude * 10 ^ j)) left.isNegative result := by
  obtain ⟨results, hdivide, hresult⟩ := Result.bind_eq_ok_iff.mp h
  obtain ⟨hk, hj, hpos⟩ := divide_eq_ok hdivide
  cases hresult
  exact ((divide_spec left right hk hj hpos rfl rfl).of_eq_ok hdivide).2

theorem signed_of_scaleDownRoundUp {scale : ℕ} (hpos : 0 < scale) (hscale : scale < 64)
    (h : left.scaleDownRoundUp scale = .ok result) :
    ∃ n, Signed n left.isNegative result ∧ (n = 0 ↔ 2 * left.magnitude < 10 ^ scale) := by
  have hten : 0 < 10 ^ scale := by positivity
  rw [scaleDownRoundUp] at h
  split_ifs at h with hsmall hfive
  · cases h
    exact ⟨_, scaleDownLongRoundUp_spec hpos hsmall, roundedQuotient_eq_zero_iff hten⟩
  · obtain ⟨rounded, hrounded, hsigned⟩ := left.scaleDownFiveAndShift_spec hpos hscale true
    rw [hrounded] at h
    cases h
    exact ⟨_, hsigned, roundedQuotient_eq_zero_iff hten⟩
  · obtain ⟨rounded, hrounded, hsigned⟩ := left.scaleDownTenRoundUp_spec hpos
    rw [hrounded] at h
    cases h
    exact ⟨_, hsigned, roundedMagnitude_eq_zero_iff hten⟩

/-- Scaling up a canonical decimal and scaling down to a number that is not zero keep it
canonical. -/
theorem canonical_of_rescale_iff {factor : ℤ} (hlow : -38 ≤ factor) (hleft : Canonical left)
    (h : left.rescale factor = .ok result) :
    Canonical result ↔ (2 * left.magnitude < 10 ^ (-factor).toNat → left.isNegative = false) := by
  by_cases hneg : factor < 0
  · rw [rescale, rescaleWith_down _ left hneg] at h
    obtain ⟨n, hsigned, hn⟩ := signed_of_scaleDownRoundUp (by omega) (by omega) h
    rw [hsigned.canonical_iff, hn]
  · have hscale : (-factor).toNat = 0 := by omega
    have hzero : 2 * left.magnitude < 10 ^ 0 → left.isNegative = false :=
      fun hlt => hleft (by omega)
    rw [hscale]
    refine iff_of_true ?_ hzero
    rw [rescale, rescaleWith] at h
    split_ifs at h with heq hpos hmax
    · cases h
      exact hleft
    · obtain ⟨hmagnitude, hnegative⟩ := powerOfTen_spec (k := factor.toNat) (by omega)
      have hsigned := (multiply_spec left (powerOfTen factor.toNat)).of_eq_ok h
      rw [hmagnitude, hnegative] at hsigned
      rw [hsigned.canonical_iff, Nat.mul_eq_zero, Bool.bne_false]
      rintro (hzero | hpow)
      · exact hleft hzero
      · exact absurd hpow (by positivity)
    · omega

end Results

/-- On canonical operands an operation returns a canonical decimal exactly when it avoids the
negative zero. -/
theorem Operation.canonical_iff {operation : Operation} {result : UnscaledDecimal128}
    (hoperands : ∀ operand ∈ operation.operands, Canonical operand)
    (h : operation.run = .ok result) : Canonical result ↔ operation.AvoidsNegativeZero := by
  cases operation with
  | add left right =>
      exact iff_of_true (canonical_of_add (hoperands left (by simp [operands])) h) trivial
  | subtract left right =>
      exact iff_of_true (canonical_of_subtract (hoperands left (by simp [operands])) h) trivial
  | multiply left right =>
      rw [((multiply_spec left right).of_eq_ok h).canonical_iff, AvoidsNegativeZero,
        bne_eq_false_iff_eq]
  | divide dividend rescaleFactor divisor =>
      obtain ⟨n, hsigned, hn⟩ := signed_of_divideRoundUp h
      rw [hsigned.canonical_iff, hn, AvoidsNegativeZero, bne_eq_false_iff_eq]
  | modulus dividend dividendRescaleFactor divisor divisorRescaleFactor =>
      rw [(signed_of_remainder h).canonical_iff, AvoidsNegativeZero, Nat.dvd_iff_mod_eq_zero]
  | rescale decimal rescaleFactor hlow =>
      exact canonical_of_rescale_iff hlow (hoperands decimal (by simp [operands])) h
  | negate decimal =>
      have hdecimal := hoperands decimal (by simp [operands])
      cases h
      rw [Canonical, UnscaledDecimal128.negate, magnitude_setNegative, isNegative_setNegative,
        Bool.not_eq_false']
      refine ⟨fun hnegative hzero => ?_, fun hne hzero => absurd hzero hne⟩
      exact Bool.false_ne_true ((hdecimal hzero).symm.trans (hnegative hzero))

/-! ## Equality -/

/-- A canonical decimal is determined by the number that it represents. -/
theorem Canonical.eq_of_toBigInteger_eq
    {left right : UnscaledDecimal128} (hleft : Canonical left) (hright : Canonical right)
    (h : left.toBigInteger = right.toBigInteger) : left = right := by
  have hmagnitude : left.magnitude = right.magnitude := by
    rw [← natAbs_toBigInteger, h, natAbs_toBigInteger]
  have hnegative : left.isNegative = right.isNegative := by
    by_cases hzero : left.magnitude = 0
    · rw [hleft hzero, hright (hmagnitude ▸ hzero)]
    · rw [toBigInteger, toBigInteger] at h
      cases hl : left.isNegative <;> cases hr : right.isNegative <;> simp_all
  have hlow := left.rawLow_lt
  have hlow' := right.rawLow_lt
  have hhigh := left.rawHigh_lt
  have hhigh' := right.rawHigh_lt
  simp only [magnitude, lowLong, highLong, unpackUnsignedLong, isNegative,
    decide_eq_decide] at hmagnitude hnegative
  ext <;> omega

theorem Produced.canonical
    (h : Produced Operation.AvoidsNegativeZero decimal) : Canonical decimal := by
  induction h with
  | input h => exact h
  | step hoperands hcondition hrun ih => exact (Operation.canonical_iff ih hrun).mpr hcondition

/-- Comparison agrees with the two longs, and so with the bytes and their hashes, on the
decimals of all runs that avoid the negative zero. -/
theorem produced_compare_eq_iff
    (a b : UnscaledDecimal128) (ha : Produced Operation.AvoidsNegativeZero a)
    (hb : Produced Operation.AvoidsNegativeZero b) :
    UnscaledDecimal128.compare a b = .eq ↔ a = b := by
  rw [compare_eq_iff]
  exact ⟨ha.canonical.eq_of_toBigInteger_eq hb.canonical, fun h => h ▸ rfl⟩

theorem produced_product {condition : Operation → Prop} (left right : UnscaledDecimal128)
    {product : UnscaledDecimal128} (hleft : Canonical left) (hright : Canonical right)
    (hcondition : condition (.multiply left right)) (h : left.multiply right = .ok product) :
    Produced condition product := by
  refine .step (fun operand hoperand => .input ?_) hcondition h
  simp only [Operation.operands, List.mem_cons, List.not_mem_nil, or_false] at hoperand
  rcases hoperand with rfl | rfl
  · exact hleft
  · exact hright

/-- The product of minus one with itself has a positive sign. -/
theorem square_compare_eq_iff :
    UnscaledDecimal128.compare (ofLong 1) (ofLong 1) = .eq ↔ ofLong 1 = ofLong 1 :=
  produced_compare_eq_iff _ _
    (produced_product (ofLong (-1)) (ofLong (-1)) (by decide) (by decide)
      (fun _ => rfl) (by decide))
    (.input (by decide))

/-- The product of zero and minus one compares as zero and has other bytes. -/
theorem negativeZero_compare_eq :
    ∃ product, Produced (fun _ => True) product ∧ Produced (fun _ => True) zero ∧
      UnscaledDecimal128.compare product zero = .eq ∧ product ≠ zero :=
  ⟨ofRawLongs 0 (2 ^ 63),
    produced_product zero (ofLong (-1)) (by decide) (by decide) trivial (by decide),
    .input (by decide), by decide, by decide⟩

end Presto.Types.UnscaledDecimal128
