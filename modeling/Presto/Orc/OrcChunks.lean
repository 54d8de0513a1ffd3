import Mathlib.Algebra.Order.Group.Int
import Presto.Support.Bytes
import Presto.Support.Throwable

/-!
# Chunks of an ORC stream

The writer collects bytes in a buffer and puts them out in chunks.  Unless the stream is neither
compressed nor encrypted, each chunk has a header of three bytes with its length and a flag.  The
reader takes the chunks apart again.
-/

namespace Presto.Orc

open Support

/-- A compressor with the decompressor that undoes it. -/
structure Compression where
  compress : List UInt8 → List UInt8
  decompress : List UInt8 → Result (List UInt8)
  decompress_compress : ∀ bytes, decompress (compress bytes) = .ok bytes

/-- An encryptor with the decryptor that undoes it. -/
structure Encryption where
  encrypt : List UInt8 → List UInt8
  decrypt : List UInt8 → List UInt8
  decrypt_encrypt : ∀ bytes, decrypt (encrypt bytes) = bytes

/-- What a stream is written and read with; the constructor of the writer refuses other sizes. -/
structure CompressionParameters where
  compression : Option Compression
  encryption : Option Encryption
  maxBufferSize : ℕ
  pageHeaderSize_lt : 3 < maxBufferSize
  maxBufferSize_lt : maxBufferSize < 2 ^ 31

/-- The stream has no chunks. -/
def CompressionParameters.plain (parameters : CompressionParameters) : Bool :=
  parameters.compression.isNone && parameters.encryption.isNone

/-- The 32 bits of a sum or a product. -/
def toInt (value : ℤ) : ℤ := value.bmod (2 ^ 32)

def directFlushSize : ℕ := 32 * 1024

/-! ## The writer -/

/-- The writer; `chunkLengths` records the lengths that were put in headers. -/
structure OrcOutputBuffer (parameters : CompressionParameters) where
  bufferLength : ℕ
  buffer : List UInt8
  compressedOutputStream : List UInt8
  chunkLengths : List ℕ

namespace OrcOutputBuffer

variable {parameters : CompressionParameters}

def new (parameters : CompressionParameters) : OrcOutputBuffer parameters := ⟨256, [], [], []⟩

/-- The largest buffer; a chunk with its header has the size that was asked for. -/
def maxBufferSize (parameters : CompressionParameters) : ℕ :=
  if parameters.compression.isNone then parameters.maxBufferSize else parameters.maxBufferSize - 3

/-- A chunk as it is stored, and whether it is compressed. -/
def storedChunk (parameters : CompressionParameters) (chunk : List UInt8) : Bool × List UInt8 :=
  let (isCompressed, bytes) : Bool × List UInt8 :=
    match parameters.compression with
    | none => (false, chunk)
    | some compressor =>
        if (compressor.compress chunk).length < chunk.length then
          (true, compressor.compress chunk)
        else (false, chunk)
  match parameters.encryption with
  | none => (isCompressed, bytes)
  | some encryptor => (isCompressed, encryptor.encrypt bytes)

def writeChunkedOutput
    (s : OrcOutputBuffer parameters) (bytes : List UInt8) (header : ℕ) :
    OrcOutputBuffer parameters :=
  { s with
    compressedOutputStream := s.compressedOutputStream ++ encodeLE 3 header ++ bytes
    chunkLengths := s.chunkLengths ++ [bytes.length] }

variable (s : OrcOutputBuffer parameters)

def writeChunkToOutputStream (chunk : List UInt8) : Result (OrcOutputBuffer parameters) :=
  if parameters.plain then
    .ok { s with compressedOutputStream := s.compressedOutputStream ++ chunk }
  else if s.bufferLength < chunk.length then
    .error (.illegalArgument "Write chunk length must be less than compression buffer size")
  else
    let (isCompressed, bytes) := storedChunk parameters chunk
    if parameters.encryption.isSome ∧ 8388608 < bytes.length then
      .error (.encryption s!"Encrypted data size {bytes.length} exceeds limit of 2^23")
    else
      .ok (s.writeChunkedOutput bytes
        (if isCompressed then 2 * bytes.length else 2 * bytes.length + 1))

def flushBufferToOutputStream : Result (OrcOutputBuffer parameters) :=
  if s.buffer = [] then .ok s
  else do
    let s ← s.writeChunkToOutputStream s.buffer
    pure { s with buffer := [] }

/-- The size of the buffer that replaces one that is too small. -/
def newBufferSize (minWritableBytes : ℕ) : ℕ :=
  (min (max (toInt (s.bufferLength * 2)) minWritableBytes) (maxBufferSize parameters)).toNat

def ensureWritableBytes (minWritableBytes : ℕ) : Result (OrcOutputBuffer parameters) :=
  if maxBufferSize parameters < minWritableBytes then
    .error (.illegalArgument "Min writable bytes must not exceed max buffer size")
  else
    let neededBufferSize := toInt (s.buffer.length + minWritableBytes)
    if neededBufferSize ≤ s.bufferLength then .ok s
    else if maxBufferSize parameters ≤ s.bufferLength then s.flushBufferToOutputStream
    else if neededBufferSize ≤ s.newBufferSize minWritableBytes then
      .ok { s with bufferLength := s.newBufferSize minWritableBytes }
    else do
      let flushed ← s.flushBufferToOutputStream
      pure { flushed with bufferLength := s.newBufferSize minWritableBytes }

/-- Bytes are stored in the buffer at its position. -/
def setBytes (bytes : List UInt8) : Result (OrcOutputBuffer parameters) :=
  if s.buffer.length + bytes.length ≤ s.bufferLength then
    .ok { s with buffer := s.buffer ++ bytes }
  else .error .indexOutOfBounds

/-- A value of one, two, four or eight bytes, or bytes that are not written directly. -/
def writeValue (bytes : List UInt8) : Result (OrcOutputBuffer parameters) := do
  let s ← s.ensureWritableBytes bytes.length
  s.setBytes bytes

def writeByte (value : UInt8) : Result (OrcOutputBuffer parameters) := s.writeValue [value]

def writeShort (value : UInt16) : Result (OrcOutputBuffer parameters) :=
  s.writeValue (encodeLE 2 value.toNat)

def writeInt (value : UInt32) : Result (OrcOutputBuffer parameters) :=
  s.writeValue (encodeLE 4 value.toNat)

def writeLong (value : UInt64) : Result (OrcOutputBuffer parameters) :=
  s.writeValue (encodeLE 8 value.toNat)

/-- The loop of `writeDirectlyToOutputStream`. -/
def writePieces : (fuel : ℕ) → OrcOutputBuffer parameters → List UInt8 →
    Outcome (OrcOutputBuffer parameters)
  | _, s, [] => .ok s
  | 0, _, _ :: _ => .error .diverges
  | fuel + 1, s, bytes => do
      let s' ← Outcome.ofResult (s.writeChunkToOutputStream (bytes.take s.bufferLength))
      writePieces fuel s' (bytes.drop s.bufferLength)

def writeDirectlyToOutputStream (bytes : List UInt8) : Outcome (OrcOutputBuffer parameters) :=
  if parameters.plain then
    .ok { s with compressedOutputStream := s.compressedOutputStream ++ bytes }
  else s.writePieces bytes.length bytes

def writeBytes (bytes : List UInt8) : Outcome (OrcOutputBuffer parameters) :=
  if directFlushSize ≤ bytes.length then do
    let s ← Outcome.ofResult s.flushBufferToOutputStream
    s.writeDirectlyToOutputStream bytes
  else Outcome.ofResult (s.writeValue bytes)

/-- The loop that fills the buffer batch after batch, from an input stream or with zeros. -/
def writeBatches : (fuel : ℕ) → OrcOutputBuffer parameters → List UInt8 →
    Outcome (OrcOutputBuffer parameters)
  | _, s, [] => .ok s
  | 0, _, _ :: _ => .error .diverges
  | fuel + 1, s, bytes => do
      let s ← Outcome.ofResult (s.ensureWritableBytes (min directFlushSize bytes.length))
      let batch := min bytes.length (s.bufferLength - s.buffer.length)
      let s ← Outcome.ofResult (s.setBytes (bytes.take batch))
      writeBatches fuel s (bytes.drop batch)

/-- The bytes of an input stream. -/
def writeFrom (bytes : List UInt8) : Outcome (OrcOutputBuffer parameters) :=
  s.writeBatches bytes.length bytes

def writeZero (length : ℕ) : Outcome (OrcOutputBuffer parameters) :=
  s.writeFrom (List.replicate length 0)

end OrcOutputBuffer

/-! ## The reader -/

/-- The reader; `compressedSliceInput` is what has not been read of its input. -/
structure OrcInputStream (parameters : CompressionParameters) where
  compressedSliceInput : List UInt8
  buffer : Option (List UInt8)
  position : ℕ

namespace OrcInputStream

variable {parameters : CompressionParameters}

def new (parameters : CompressionParameters) (input : List UInt8) : OrcInputStream parameters :=
  if parameters.plain then ⟨[], some input, 0⟩ else ⟨input, some [], 0⟩

/-- A chunk as it was before it was stored. -/
def loadedChunk (parameters : CompressionParameters) (isUncompressed : Bool)
    (bytes : List UInt8) : Result (List UInt8) :=
  let bytes := (parameters.encryption.map fun encryptor => encryptor.decrypt bytes).getD bytes
  if isUncompressed then .ok bytes
  else
    match parameters.compression with
    | none => .error .noSuchElement
    | some compressor => compressor.decompress bytes

def advance (s : OrcInputStream parameters) : Result (OrcInputStream parameters) :=
  match s.compressedSliceInput with
  | [] => .ok ⟨[], none, 0⟩
  | b0 :: b1 :: b2 :: remaining =>
      let isUncompressed := b0.toNat % 2 = 1
      let chunkLength := b2.toNat * 2 ^ 15 + b1.toNat * 2 ^ 7 + b0.toNat / 2
      if remaining.length < chunkLength then
        .error (.corruption (s!"The chunkLength ({chunkLength}) must not be negative or " ++
          s!"greater than remaining size ({remaining.length})"))
      else do
        let chunk ← loadedChunk parameters isUncompressed (remaining.take chunkLength)
        pure ⟨remaining.drop chunkLength, some chunk, 0⟩
  | _ => .error .indexOutOfBounds

/-- `read()`; the end of the data is `none`. -/
def read : (fuel : ℕ) → OrcInputStream parameters →
    Outcome (Option UInt8 × OrcInputStream parameters)
  | 0, _ => .error .diverges
  | fuel + 1, s =>
      match s.buffer with
      | none => .ok (none, s)
      | some buffer =>
          match buffer[s.position]? with
          | some byte => .ok (some byte, { s with position := s.position + 1 })
          | none => do
              let s ← Outcome.ofResult s.advance
              read fuel s

/-- `read(b, off, length)` with what it puts in the array. -/
def readBytes (s : OrcInputStream parameters) (length : ℕ) :
    Result (Option (List UInt8) × OrcInputStream parameters) := do
  match s.buffer with
  | none => pure (none, s)
  | some buffer =>
      let s ← if buffer.length - s.position = 0 then s.advance else pure s
      match s.buffer with
      | none => pure (none, s)
      | some buffer =>
          let bytes := (buffer.drop s.position).take length
          pure (some bytes, { s with position := s.position + bytes.length })

end OrcInputStream

end Presto.Orc
