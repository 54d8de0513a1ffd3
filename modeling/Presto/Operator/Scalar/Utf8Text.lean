import Presto.Support.MachineInteger
import Presto.Support.TextCode
import Presto.Support.Throwable

/-!
# Slices of UTF-8 text

What the string functions use of the slice library, on slices that hold valid UTF-8.
-/

namespace Presto.Operator.Scalar

open Support TextCode List

theorem continuation_unit (v : ℕ) : UInt8.ofNat (v % 64) + 128 &&& 192 = 128 := by
  have h : ∀ r < 64, UInt8.ofNat r + 128 &&& 192 = 128 := by decide
  exact h _ (Nat.mod_lt _ (by norm_num))

def utf8 : TextCode Char UInt8 where
  encode := String.utf8EncodeChar
  continues byte := byte &&& 0xC0 == 0x80
  encode_units c := by
    have hfirst : ∀ v < 128, (UInt8.ofNat v &&& 0xC0 == 0x80) = false := by decide
    have hfirst' : ∀ v < 64, (UInt8.ofNat (v + 192) &&& 0xC0 == 0x80) = false := by decide
    rw [String.utf8EncodeChar]
    split_ifs
    · exact ⟨_, _, rfl, hfirst _ (by omega), by simp⟩
    · exact ⟨_, _, rfl, hfirst' _ (by omega), by simp [continuation_unit]⟩
    · exact ⟨_, _, rfl, hfirst' (_ % 16 + 32) (by omega), by simp [continuation_unit]⟩
    · exact ⟨_, _, rfl, hfirst' (_ % 8 + 48) (by omega), by simp [continuation_unit]⟩
  prefixFree := by
    rintro a b ⟨rest, hrest⟩
    have hdecode := ByteArray.utf8DecodeChar?_utf8EncodeChar_append (b := ByteArray.empty) (c := b)
    rw [← hrest, List.toByteArray_append, ByteArray.append_assoc,
      ByteArray.utf8DecodeChar?_utf8EncodeChar_append] at hdecode
    exact Option.some.inj hdecode

/-- A text whose UTF-8 bytes fit in a slice. -/
structure Utf8Slice where
  codePoints : List Char
  fits : (utf8.spell codePoints).length < 2 ^ 31

def Utf8Slice.bytes (s : Utf8Slice) : List UInt8 := utf8.spell s.codePoints

/-- `SliceUtf8.countCodePoints`: the bytes that do not continue a code point. -/
def countCodePoints (bytes : List UInt8) : ℕ :=
  bytes.countP fun byte => byte &&& 0xC0 != 0x80

/-- `Slice.slice`. -/
def slice (bytes : List UInt8) (index length : ℤ) : Result (List UInt8) :=
  if 0 ≤ index ∧ 0 ≤ length ∧ index + length ≤ bytes.length then
    .ok ((bytes.drop index.toNat).take length.toNat)
  else .error .indexOutOfBounds

/-- `SliceUtf8.offsetOfCodePoint`, for arguments that are not negative. -/
def offsetOfCodePoint (bytes : List UInt8) (position codePointCount : ℤ) : ℤ :=
  match utf8.offset (bytes.drop position.toNat) codePointCount.toNat with
  | some offset => position + offset
  | none => -1

/-- `Slice.indexOf`: the first occurrence at or after the offset. -/
def indexOf (bytes pattern : List UInt8) (offset : ℤ) : ℤ :=
  ((occurrences pattern bytes).find? fun index : ℕ => offset ≤ index).elim (-1) (↑)

variable (s : List Char)

theorem countCodePoints_spell : countCodePoints (utf8.spell s) = s.length :=
  utf8.countP_spell s

theorem offsetOfCodePoint_spell (i k : ℕ) :
    offsetOfCodePoint (utf8.spell s) (utf8.spell (s.take i)).length k =
      if i + k < s.length then ((utf8.spell (s.take (i + k))).length : ℤ) else -1 := by
  rw [offsetOfCodePoint, Int.toNat_natCast, drop_spell, offset_spell, length_drop]
  by_cases hk : i + k < s.length
  · rw [if_pos (by omega), if_pos hk, take_add, spell_append, length_append]
    rfl
  · rw [if_neg (by omega), if_neg hk]

theorem offsetOfCodePoint_zero (i : ℕ) :
    offsetOfCodePoint (utf8.spell s) 0 i =
      if i < s.length then ((utf8.spell (s.take i)).length : ℤ) else -1 := by
  simpa [spell] using offsetOfCodePoint_spell s 0 i

/-- A slice from the start of a code point, up to another one or the end. -/
theorem slice_spell (i k : ℕ) :
    slice (utf8.spell s) (utf8.spell (s.take i)).length
        ((if i + k < s.length then ((utf8.spell (s.take (i + k))).length : ℤ)
          else (utf8.spell s).length) - (utf8.spell (s.take i)).length) =
      .ok (utf8.spell ((s.drop i).take k)) := by
  have hlast : (if i + k < s.length then ((utf8.spell (s.take (i + k))).length : ℤ)
      else (utf8.spell s).length) = (utf8.spell (s.take i)).length +
        (utf8.spell ((s.drop i).take k)).length := by
    rw [← Nat.cast_add, ← length_append, ← spell_append, ← take_add]
    split_ifs with hk
    · rfl
    · rw [take_of_length_le (by omega)]
  have htotal : (utf8.spell (s.take i)).length + (utf8.spell ((s.drop i).take k)).length ≤
      (utf8.spell s).length := by
    rw [← length_append, ← spell_append, ← take_add, ← take_spell]
    exact length_take_le' _ _
  rw [hlast, slice, if_pos (by omega), Int.toNat_natCast, drop_spell]
  simp [take_spell]

/-- The rest from the start of a code point. -/
theorem slice_spell_rest (i : ℕ) :
    slice (utf8.spell s) (utf8.spell (s.take i)).length
        ((utf8.spell s).length - (utf8.spell (s.take i)).length) =
      .ok (utf8.spell (s.drop i)) := by
  have hrest := slice_spell s i s.length
  rwa [if_neg (by omega), take_of_length_le (by simp : (s.drop i).length ≤ _)] at hrest

theorem Utf8Slice.length_le (s : Utf8Slice) : s.codePoints.length ≤ s.bytes.length := by
  rw [← countCodePoints_spell s.codePoints]
  exact countP_le_length

end Presto.Operator.Scalar
