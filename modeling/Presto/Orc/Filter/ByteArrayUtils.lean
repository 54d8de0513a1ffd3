import Mathlib.Data.BitVec
import Presto.Support.Bytes

/-!
# Comparing and hashing byte ranges

`compareRanges` compares eight bytes at a time and the rest byte by byte.  A range
is the list of the bytes from the current address on.
-/

namespace Presto.Orc.ByteArrayUtils

open Support List BitVec

/-- The eight bytes at an address, in little-endian order. -/
def getLong (bytes : List UInt8) : BitVec 64 :=
  BitVec.ofNat 64 (decodeLE (bytes.take 8))

def getByte (bytes : List UInt8) : UInt8 :=
  bytes.headD 0

/-- `Long.reverseBytes`. -/
def reverseBytes (word : BitVec 64) : BitVec 64 :=
  BitVec.ofNat 64 (decodeBE (encodeLE 8 word.toNat))

def longBytesToLong (bytes : BitVec 64) : BitVec 64 :=
  reverseBytes bytes ^^^ BitVec.intMin 64

def compareUnsignedBytes (thisByte thatByte : UInt8) : ℤ :=
  (thisByte.toNat : ℤ) - thatByte.toNat

/-- `Integer.compare` of two lengths. -/
def compareLengths (leftLength rightLength : ℕ) : ℤ :=
  if leftLength < rightLength then -1 else if leftLength = rightLength then 0 else 1

/-- The second loop, over the bytes that do not fill a long. -/
def compareBytes (leftLength rightLength : ℕ) :
    (lengthToCompare : ℕ) → (left right : List UInt8) → ℤ
  | 0, _, _ => compareLengths leftLength rightLength
  | lengthToCompare + 1, left, right =>
      let compareResult := compareUnsignedBytes (getByte left) (getByte right)
      if compareResult ≠ 0 then compareResult
      else compareBytes leftLength rightLength lengthToCompare left.tail right.tail

/-- The first loop, over longs. -/
def compareLongs (leftLength rightLength lengthToCompare : ℕ) (left right : List UInt8) :
    ℤ :=
  if 8 ≤ lengthToCompare then
    let leftLong := getLong left
    let rightLong := getLong right
    if leftLong ≠ rightLong then
      if (longBytesToLong leftLong).slt (longBytesToLong rightLong) then -1 else 1
    else
      compareLongs leftLength rightLength (lengthToCompare - 8)
        (left.drop 8) (right.drop 8)
  else
    compareBytes leftLength rightLength lengthToCompare left right
termination_by lengthToCompare

def compareRanges (left right : List UInt8) : ℤ :=
  compareLongs left.length right.length (min left.length right.length) left right

/-- The multiplier of the hash. -/
def M : BitVec 64 := 0xc6a4a7935bd1e995#64

/-- The bytes that do not fill a long, shifted together. -/
def lastWord (bytes : List UInt8) : BitVec 64 :=
  bytes.foldl (fun word byte => byte.toBitVec.signExtend 64 ||| (word <<< 8)) 0

def hashLoop (seed : BitVec 64) (bytes : List UInt8) : BitVec 64 :=
  if 8 ≤ bytes.length then
    hashLoop ((seed * M * getLong bytes) ^^^ seed.sshiftRight 27) (bytes.drop 8)
  else
    (seed * M * lastWord bytes) ^^^ (seed <<< 27)
termination_by bytes.length

def hash (bytes : List UInt8) : BitVec 64 :=
  hashLoop 1 bytes

end Presto.Orc.ByteArrayUtils
