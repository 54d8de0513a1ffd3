import Presto.Orc.Filter.ByteArrayUtils
import Presto.Support.BinarySearch
import Presto.Support.OpenAddressing
import Presto.Support.Throwable

/-!
# Filters of the reader

The filters that column readers apply to decoded values.  Each class keeps the
data of the source; the checks of its constructor are made by `of`.  A test
that a class does not support throws.
-/

namespace Presto.Orc

open Support

/-- `Preconditions.checkArgument`. -/
def checkArgument (condition : Bool) (message : String) : Result Unit :=
  if condition then .ok () else .error (.illegalArgument message)

structure BooleanValue where
  value : Bool
  nullAllowed : Bool

/-! ## Filters on longs -/

/-- A nonempty range of longs, both ends included. -/
structure BigintRange where
  lower : Int64
  upper : Int64
  nullAllowed : Bool
  le : lower ≤ upper

namespace BigintRange

def of (lower upper : Int64) (nullAllowed : Bool) : Result BigintRange :=
  if h : lower ≤ upper then .ok ⟨lower, upper, nullAllowed, h⟩
  else .error (.illegalArgument "lower must be less than or equal to upper")

def testLong (f : BigintRange) (value : Int64) : Bool :=
  f.lower ≤ value && value ≤ f.upper

def isSingleValue (f : BigintRange) : Bool :=
  f.upper == f.lower

end BigintRange

/-- A set of longs in an open-addressing table; a slot is free when it holds
the empty marker. -/
structure BigintValuesUsingHashTable where
  min : Int64
  max : Int64
  hashTable : List Int64
  containsEmptyMarker : Bool
  nullAllowed : Bool

namespace BigintValuesUsingHashTable

def EMPTY_MARKER : Int64 := Int64.ofBitVec 0xdeadbeefbadefeed#64

def M : Int64 := Int64.ofBitVec 0xc6a4a7935bd1e995#64

def isEmptyMarker (slot : Int64) : Bool := slot == EMPTY_MARKER

/-- The home position `(value * M) & (size - 1)` in a table of `size` slots. -/
def position (size : ℕ) (value : Int64) : ℕ :=
  ((value * M).toBitVec &&& BitVec.ofInt 64 ((size : ℤ) - 1)).toNat

/-- One turn of the loop of the constructor. -/
def add (state : List Int64 × Bool) (value : Int64) : List Int64 × Bool :=
  if value == EMPTY_MARKER then (state.1, true)
  else
    (OpenAddressing.insert isEmptyMarker (fun _ => false) state.1
      (position state.1.length value) value, state.2)

def of (min max : Int64) (values : List Int64) (nullAllowed : Bool) :
    Result BigintValuesUsingHashTable := do
  checkArgument (min < max) "min must be less than max"
  checkArgument (1 < values.length) "values must contain at least 2 entries"
  let size := highestOneBit (wrapInt (values.length * 3))
  if size < 0 then
    .error .negativeArraySize
  else
    let state := values.foldl add (List.replicate size.toNat EMPTY_MARKER, false)
    pure ⟨min, max, state.1, state.2, nullAllowed⟩

def testLong (f : BigintValuesUsingHashTable) (value : Int64) : Bool :=
  if f.containsEmptyMarker && value == EMPTY_MARKER then true
  else if value < f.min || f.max < value then false
  else
    OpenAddressing.lookup isEmptyMarker (· == value) f.hashTable
      (position f.hashTable.length value)

end BigintValuesUsingHashTable

/-- A set of longs as a bit set of the distances from the least one. -/
structure BigintValuesUsingBitmask where
  bitmask : ℕ
  min : Int64
  max : Int64
  nullAllowed : Bool

namespace BigintValuesUsingBitmask

/-- `bitmask.set((int) (value - min))`. -/
def setBit (min : Int64) (bitmask : ℕ) (value : Int64) : Result ℕ :=
  let bitIndex := (value - min).toInt32.toInt
  if bitIndex < 0 then .error .indexOutOfBounds
  else .ok (bitmask ||| 2 ^ bitIndex.toNat)

def of (min max : Int64) (values : List Int64) (nullAllowed : Bool) :
    Result BigintValuesUsingBitmask := do
  checkArgument (min < max) "min must be less than max"
  checkArgument (1 < values.length) "values must contain at least 2 entries"
  -- `toIntExact(max - min + 1)`
  let bits := (max - min + 1).toInt
  if bits ≠ (max - min + 1).toInt32.toInt then
    .error (.arithmetic "integer overflow")
  else if bits < 0 then
    .error .negativeArraySize
  else do
    let bitmask ← values.foldlM (setBit min) 0
    pure ⟨bitmask, min, max, nullAllowed⟩

/-- `bitmask.get((int) (value - min))`. -/
def getBit (f : BigintValuesUsingBitmask) (value : Int64) : Result Bool :=
  let bitIndex := (value - f.min).toInt32.toInt
  if bitIndex < 0 then .error .indexOutOfBounds
  else .ok (f.bitmask.testBit bitIndex.toNat)

def testLong (f : BigintValuesUsingBitmask) (value : Int64) : Result Bool :=
  if value < f.min || f.max < value then .ok false
  else f.getBit value

end BigintValuesUsingBitmask

/-- Several ranges of longs, found by binary search of their lower bounds. -/
structure BigintMultiRange where
  ranges : List BigintRange
  nullAllowed : Bool

namespace BigintMultiRange

def longLowerBounds (ranges : List BigintRange) : List Int64 :=
  ranges.map BigintRange.lower

/-- The check of the constructor on neighbouring ranges. -/
def checkDisjoint : List BigintRange → Result Unit
  | previous :: next :: rest => do
      checkArgument (previous.upper ≤ next.lower) "bigint ranges must not overlap"
      checkDisjoint (next :: rest)
  | _ => .ok ()

def of (ranges : List BigintRange) (nullAllowed : Bool) : Result BigintMultiRange := do
  checkArgument (!ranges.isEmpty) "ranges is empty"
  checkDisjoint ranges
  pure ⟨ranges, nullAllowed⟩

def testLong (f : BigintMultiRange) (value : Int64) : Result Bool :=
  let i := binarySearch (longLowerBounds f.ranges) value
  if 0 ≤ i then .ok true
  else
    let place := (-i) - 1
    if place = 0 then .ok false
    else
      match f.ranges[(place - 1).toNat]? with
      | some range => .ok (range.testLong value)
      | none => .error .indexOutOfBounds

end BigintMultiRange

/-! ## Filters on bytes -/

/-- A range of byte strings; an absent bound is a missing array. -/
structure BytesRange where
  lower : Option (List UInt8)
  lowerExclusive : Bool
  upper : Option (List UInt8)
  upperExclusive : Bool
  nullAllowed : Bool

namespace BytesRange

variable (f : BytesRange)

def singleValue : Bool :=
  !f.lowerExclusive && !f.upperExclusive && f.upper == f.lower

end BytesRange

/-- A set of byte strings: a Bloom filter in front of an open-addressing table,
and the lengths that occur. -/
structure BytesValues where
  values : List (List UInt8)
  hashTable : List (Option (List UInt8))
  bloom : List (BitVec 64)
  lengthExists : List Bool
  nullAllowed : Bool

namespace BytesValues

open ByteArrayUtils (compareRanges)

def bloomMask (hashCode : BitVec 64) : BitVec 64 :=
  (1#64 <<< ((hashCode.sshiftRight 20) &&& 63).toNat) |||
    (1#64 <<< ((hashCode.sshiftRight 26) &&& 63).toNat) |||
    (1#64 <<< ((hashCode.sshiftRight 32) &&& 63).toNat)

def bloomIndex (bloomSize : ℕ) (hashCode : BitVec 64) : ℕ :=
  ((hashCode.sshiftRight 38) &&& BitVec.ofNat 64 (bloomSize - 1)).toNat

/-- The home position `hashCode & hashTableSizeMask`. -/
def position (hashTableSize : ℕ) (value : List UInt8) : ℕ :=
  (ByteArrayUtils.hash value &&& BitVec.ofInt 64 ((hashTableSize : ℤ) - 1)).toNat

/-- A slot whose entry compares equal to the value. -/
def sameEntry (value : List UInt8) (slot : Option (List UInt8)) : Bool :=
  match slot with
  | none => false
  | some entry => compareRanges value entry == 0

/-- One turn of the loop of the constructor. -/
def add (f : BytesValues) (value : List UInt8) : BytesValues :=
  let hashCode := ByteArrayUtils.hash value
  let index := bloomIndex f.bloom.length hashCode
  { f with
    lengthExists := f.lengthExists.set value.length true
    bloom := f.bloom.modify index (· ||| bloomMask hashCode)
    hashTable :=
      OpenAddressing.insert Option.isNone (sameEntry value) f.hashTable
        (position f.hashTable.length value) (some value) }

def maxLength (values : List (List UInt8)) : ℕ :=
  (values.map List.length).foldl max 0

def of (values : List (List UInt8)) (nullAllowed : Bool) : Result BytesValues := do
  checkArgument (0 < values.length) "values must not be empty"
  let hashTableSize := highestOneBit (wrapInt (values.length * 4))
  -- the number of lengths is an `int`
  if 2 ^ 31 ≤ maxLength values + 1 then
    .error .negativeArraySize
  else if hashTableSize < 0 then
    .error .negativeArraySize
  else
    let bloomSize := max 1 (hashTableSize.toNat / 8)
    pure (values.foldl add
      { values := values
        hashTable := List.replicate hashTableSize.toNat none
        bloom := List.replicate bloomSize 0
        lengthExists := List.replicate (maxLength values + 1) false
        nullAllowed := nullAllowed })

end BytesValues

/-- All byte strings but those of a set. -/
structure BytesValuesExclusive where
  delegate : BytesValues
  nullAllowed : Bool

namespace BytesValuesExclusive

def of (values : List (List UInt8)) (nullAllowed : Bool) :
    Result BytesValuesExclusive := do
  let delegate ← BytesValues.of values nullAllowed
  pure ⟨delegate, nullAllowed⟩

end BytesValuesExclusive

/-! ## Filters -/

inductive TupleDomainFilter
  | alwaysFalse
  | isNull
  | isNotNull
  | booleanValue (f : BooleanValue)
  | bigintRange (f : BigintRange)
  | bigintValuesUsingHashTable (f : BigintValuesUsingHashTable)
  | bigintValuesUsingBitmask (f : BigintValuesUsingBitmask)
  | bigintMultiRange (f : BigintMultiRange)
  | bytesRange (f : BytesRange)
  | bytesValues (f : BytesValues)
  | bytesValuesExclusive (f : BytesValuesExclusive)
  | multiRange (filters : List TupleDomainFilter) (nullAllowed nanAllowed : Bool)

namespace TupleDomainFilter

def multiRangeOf (filters : List TupleDomainFilter) (nullAllowed nanAllowed : Bool) :
    Result TupleDomainFilter := do
  checkArgument (1 < filters.length) "filters must contain at least 2 entries"
  pure (.multiRange filters nullAllowed nanAllowed)

def isAlwaysFalse : TupleDomainFilter → Bool
  | .alwaysFalse => true
  | _ => false

def testNull : TupleDomainFilter → Bool
  | .alwaysFalse => false
  | .isNull => true
  | .isNotNull => false
  | .booleanValue f => f.nullAllowed
  | .bigintRange f => f.nullAllowed
  | .bigintValuesUsingHashTable f => f.nullAllowed
  | .bigintValuesUsingBitmask f => f.nullAllowed
  | .bigintMultiRange f => f.nullAllowed
  | .bytesRange f => f.nullAllowed
  | .bytesValues f => f.nullAllowed
  | .bytesValuesExclusive f => f.nullAllowed
  | .multiRange _ nullAllowed _ => nullAllowed

def unsupported : Result Bool :=
  .error (.unsupportedOperation "")

def testBoolean : TupleDomainFilter → Bool → Result Bool
  | .alwaysFalse, _ => .ok false
  | .isNull, _ => .ok false
  | .isNotNull, _ => .ok true
  | .booleanValue f, value => .ok (f.value == value)
  | _, _ => unsupported

def testLong : TupleDomainFilter → Int64 → Result Bool
  | .alwaysFalse, _ => .ok false
  | .isNull, _ => .ok false
  | .isNotNull, _ => .ok true
  | .bigintRange f, value => .ok (f.testLong value)
  | .bigintValuesUsingHashTable f, value => .ok (f.testLong value)
  | .bigintValuesUsingBitmask f, value => f.testLong value
  | .bigintMultiRange f, value => f.testLong value
  | _, _ => unsupported

end TupleDomainFilter
end Presto.Orc
