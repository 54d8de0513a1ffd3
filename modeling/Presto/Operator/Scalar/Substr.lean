import Presto.Operator.Scalar.Utf8Text

/-!
# Substrings

`substr` on UTF-8 slices.  Its arguments are saturated to 32 bits, so a start or an end past the
range of the 32-bit integers is taken for another one.
-/

namespace Presto.Operator.Scalar

open Support

/-- `Ints.saturatedCast`. -/
def saturatedCast (value : Int64) : ℤ := max (-2 ^ 31) (min (2 ^ 31 - 1) value.toInt)

/-! ## The functions -/

/-- Where either function starts, as a code point and as an offset, if it returns anything. -/
def substrStart (bytes : List UInt8) (start : Int64) : Option (ℤ × ℤ) :=
  if start.toInt = 0 ∨ bytes.length = 0 then none
  else
    let startCodePoint := saturatedCast start
    if 0 < startCodePoint then
      let indexStart := offsetOfCodePoint bytes 0 (startCodePoint - 1)
      if indexStart < 0 then none else some (startCodePoint - 1, indexStart)
    else
      let startCodePoint := wrapInt (startCodePoint + countCodePoints bytes)
      if startCodePoint < 0 then none
      else some (startCodePoint, offsetOfCodePoint bytes 0 startCodePoint)

/-- `substr` without a length. -/
def substrFrom (bytes : List UInt8) (start : Int64) : Result (List UInt8) :=
  match substrStart bytes start with
  | none => .ok []
  | some (_, indexStart) => slice bytes indexStart (bytes.length - indexStart)

def substr (bytes : List UInt8) (start length : Int64) : Result (List UInt8) :=
  if length.toInt ≤ 0 then .ok []
  else
    match substrStart bytes start with
    | none => .ok []
    | some (startCodePoint, indexStart) =>
        let lengthCodePoints := saturatedCast length
        let indexEnd := offsetOfCodePoint bytes indexStart lengthCodePoints
        let indexEnd :=
          if 0 < saturatedCast start then
            if indexEnd < 0 then (bytes.length : ℤ) else indexEnd
          else if wrapInt (startCodePoint + lengthCodePoints) < countCodePoints bytes then indexEnd
          else bytes.length
        slice bytes indexStart (indexEnd - indexStart)

/-- The code points at the positions that a call asks for: positions count from one, and a
negative start from the end. -/
def requested (s : List Char) (start length : ℤ) : List Char :=
  let position := if 0 < start then start else s.length + start + 1
  if start = 0 ∨ length ≤ 0 ∨ position < 1 then []
  else (s.drop (position - 1).toNat).take length.toNat

/-! ## What they return -/

variable (s : Utf8Slice) (start length : Int64)

/-- The code point that a call starts at, by its 32-bit start. -/
def Utf8Slice.first : ℤ :=
  if 0 < saturatedCast start then saturatedCast start - 1
  else s.codePoints.length + saturatedCast start

theorem Utf8Slice.first_spec :
    (0 < start.toInt → s.first start = min start.toInt (2 ^ 31 - 1) - 1) ∧
      (start.toInt ≤ 0 → s.first start = s.codePoints.length + max start.toInt (-2 ^ 31)) := by
  rw [Utf8Slice.first, saturatedCast]
  split_ifs <;> omega

theorem substrStart_spell :
    substrStart s.bytes start =
      if start.toInt ≠ 0 ∧ 0 ≤ s.first start ∧ s.first start < s.codePoints.length then
        some (s.first start, ((utf8.spell (s.codePoints.take (s.first start).toNat)).length : ℤ))
      else none := by
  have hbytes := s.length_le
  have hfits : s.bytes.length < 2 ^ 31 := s.fits
  have hlow : -2 ^ 31 ≤ saturatedCast start := le_max_left _ _
  by_cases hcall : start.toInt = 0 ∨ s.bytes.length = 0
  · rw [substrStart, if_pos hcall, if_neg]
    rintro ⟨hstart, hinside⟩
    omega
  · rw [substrStart, if_neg hcall]
    by_cases hpos : 0 < saturatedCast start
    · have hfirst : s.first start = saturatedCast start - 1 := if_pos hpos
      obtain ⟨i, hi⟩ := Int.eq_ofNat_of_zero_le (by omega : 0 ≤ saturatedCast start - 1)
      simp only [hpos, hfirst, hi, Utf8Slice.bytes, offsetOfCodePoint_zero]
      by_cases hin : i < s.codePoints.length
      · simp [hin, not_or.mp hcall]
      · simp [hin]
    · have hfirst : s.first start = s.codePoints.length + saturatedCast start := if_neg hpos
      have hwrap : wrapInt (saturatedCast start + countCodePoints s.bytes) = s.first start := by
        rw [Utf8Slice.bytes, countCodePoints_spell, wrapInt_eq_self] <;> omega
      by_cases hbefore : s.first start < 0
      · simp [hpos, hwrap, hbefore]
      · obtain ⟨i, hi⟩ := Int.eq_ofNat_of_zero_le (Int.not_lt.mp hbefore)
        have hin : i < s.codePoints.length := by
          rw [saturatedCast] at hpos hfirst
          omega
        rw [if_neg hpos, hwrap, hi]
        simp [Utf8Slice.bytes, offsetOfCodePoint_zero, hin, not_or.mp hcall]

variable {s start length}

/-- A call that starts at a code point returns from there, unless its end overflows. -/
theorem substr_of_first {i : ℕ} (hstart : start.toInt ≠ 0) (hi : s.first start = i)
    (hin : i < s.codePoints.length) (hlength : 0 < length.toInt) :
    substr s.bytes start length =
        (if 0 < start.toInt ∨ i + min length.toInt (2 ^ 31 - 1) < 2 ^ 31 then
          .ok (utf8.spell ((s.codePoints.drop i).take length.toInt.toNat))
        else .error .indexOutOfBounds) ∧
      substrFrom s.bytes start = .ok (utf8.spell (s.codePoints.drop i)) := by
  have hfits : s.bytes.length < 2 ^ 31 := s.fits
  have hbytes := s.length_le
  obtain ⟨k, hk⟩ := Int.eq_ofNat_of_zero_le (by omega : 0 ≤ min length.toInt (2 ^ 31 - 1))
  have htake : (s.codePoints.drop i).take length.toInt.toNat = (s.codePoints.drop i).take k := by
    by_cases hsmall : length.toInt < 2 ^ 31
    · congr 1
      omega
    · rw [List.take_of_length_le, List.take_of_length_le] <;> rw [List.length_drop] <;> omega
  have hsaturated : saturatedCast length = k := by
    rw [saturatedCast]
    omega
  have hpos : 0 < saturatedCast start ↔ 0 < start.toInt := by
    rw [saturatedCast]
    omega
  have hcall : substrStart s.bytes start =
      some ((i : ℤ), ((utf8.spell (s.codePoints.take i)).length : ℤ)) := by
    rw [substrStart_spell, hi, if_pos ⟨hstart, by omega, by omega⟩, Int.toNat_natCast]
  rw [substr, substrFrom, hcall, if_neg (Int.not_le.mpr hlength), htake, hk]
  simp only [hsaturated, hpos, Utf8Slice.bytes, countCodePoints_spell, offsetOfCodePoint_spell,
    slice_spell_rest, and_true]
  by_cases hoverflow : 0 < start.toInt ∨ (i : ℤ) + k < 2 ^ 31
  · rw [if_pos hoverflow, ← slice_spell]
    congr 2
    by_cases hpositive : 0 < start.toInt
    · split_ifs <;> omega
    · rw [wrapInt_eq_self (by omega) (hoverflow.resolve_left hpositive)]
      split_ifs <;> omega
  · have hwraps : wrapInt (i + k) < 0 := wrapInt_neg (by omega) (by omega)
    rw [if_neg hoverflow, if_neg (not_or.mp hoverflow).1, if_pos (by omega), slice,
      if_neg (by omega)]

theorem requested_eq {s : List Char} {start length : ℤ} {i : ℕ} (hlength : 0 < length)
    (hi : start = i + 1 ∨ start < 0 ∧ s.length + start = i) :
    requested s start length = (s.drop i).take length.toNat := by
  have hposition : (if 0 < start then start else s.length + start + 1) = i + 1 := by
    split_ifs <;> omega
  rw [requested, hposition, if_neg (by omega)]
  simp

/-- `substr` returns the requested code points exactly when no code point is requested, or neither
a start past the longest slice is taken for its last code point nor the end overflows. -/
theorem substr_exact_iff (s : Utf8Slice) (start length : Int64) :
    (substr s.bytes start length =
        .ok (utf8.spell (requested s.codePoints start.toInt length.toInt)) ∧
      (s.codePoints.length ≤ length.toInt →
        substrFrom s.bytes start = substr s.bytes start length)) ↔
    (0 < length.toInt →
      (2 ^ 31 ≤ start.toInt → s.codePoints.length ≠ 2 ^ 31 - 1) ∧
      (start.toInt < 0 → 0 < s.codePoints.length + start.toInt →
        s.codePoints.length + start.toInt + min length.toInt (2 ^ 31 - 1) < 2 ^ 31)) := by
  have hfits : s.bytes.length < 2 ^ 31 := s.fits
  have hbytes := s.length_le
  have hfirst := s.first_spec start
  by_cases hlength : 0 < length.toInt
  · by_cases hinside : start.toInt ≠ 0 ∧ 0 ≤ s.first start ∧ s.first start < s.codePoints.length
    · obtain ⟨i, hi⟩ := Int.eq_ofNat_of_zero_le hinside.2.1
      obtain ⟨hsubstr, hfrom⟩ := substr_of_first hinside.1 hi (by omega) hlength
      rw [hsubstr, hfrom]
      by_cases hexact : start.toInt = i + 1 ∨
          start.toInt < 0 ∧ s.codePoints.length + start.toInt = i
      · rw [requested_eq hlength hexact]
        by_cases hoverflow : 0 < start.toInt ∨ i + min length.toInt (2 ^ 31 - 1) < 2 ^ 31
        · rw [if_pos hoverflow]
          refine iff_of_true ⟨rfl, fun hle => ?_⟩ fun _ => ⟨by omega, by omega⟩
          rw [List.take_of_length_le (by rw [List.length_drop]; omega)]
        · rw [if_neg hoverflow]
          exact iff_of_false (fun h => nomatch h.1) (by omega)
      · have hlongest : 2 ^ 31 ≤ start.toInt ∧ s.codePoints.length = 2 ^ 31 - 1 := by omega
        refine iff_of_false (fun h => ?_) fun h => (h hlength).1 hlongest.1 hlongest.2
        have hnext : start.toInt = (start.toInt - 1).toNat + 1 := by omega
        have hnone := h.1
        rw [if_pos (.inl (by omega)), requested_eq hlength (.inl hnext),
          List.drop_eq_nil_of_le (by omega : _ ≤ (start.toInt - 1).toNat), List.take_nil] at hnone
        have hempty := TextCode.spell_eq_nil_iff.mp (Except.ok.inj hnone)
        rw [List.take_eq_nil_iff, List.drop_eq_nil_iff] at hempty
        omega
    · have hcall : substrStart s.bytes start = none := by rw [substrStart_spell, if_neg hinside]
      have hrequested : requested s.codePoints start.toInt length.toInt = [] := by
        simp only [requested]
        split_ifs
        all_goals first | rfl | rw [List.drop_eq_nil_of_le (by omega), List.take_nil]
      rw [substr, substrFrom, hcall, hrequested, if_neg (Int.not_le.mpr hlength)]
      refine iff_of_true ⟨rfl, fun _ => rfl⟩ fun _ => ?_
      omega
  · refine iff_of_true ⟨?_, fun hle => ?_⟩ fun h => absurd h hlength
    · simp [substr, requested, Int.not_lt.mp hlength, TextCode.spell]
    · have hnil : s.codePoints = [] := List.eq_nil_of_length_eq_zero (by omega)
      simp [substr, substrFrom, substrStart, Utf8Slice.bytes, TextCode.spell, hnil]

/-- The last code point of `ab`, up to the largest length, is past the end of the slice. -/
theorem substr_throws_on_overflow :
    let s : Utf8Slice := ⟨['a', 'b'], by decide⟩
    requested s.codePoints (-1) Int64.maxValue.toInt = ['b'] ∧
      substr s.bytes (-1) Int64.maxValue = .error .indexOutOfBounds := by
  decide

end Presto.Operator.Scalar
