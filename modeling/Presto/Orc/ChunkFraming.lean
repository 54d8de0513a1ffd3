import Presto.Orc.OrcChunks

/-!
# Reading back the chunks that were written

A chunk can be read back when what is stored of it is shorter than `2 ^ 23` bytes, as its header
has no room for more.  The writer checks this for encrypted chunks only, and lets `2 ^ 23` itself
pass.  A run of writes is read back when all its chunks are that short and its writes fit the
buffer.
-/

namespace Presto.Orc

open OrcOutputBuffer Outcome List

open Support

variable {parameters : CompressionParameters}

/-- What is stored of the chunk has a length that the header can hold. -/
def StoredFits (parameters : CompressionParameters) (chunk : List UInt8) : Prop :=
  parameters.plain = true ∨ (storedChunk parameters chunk).2.length < 2 ^ 23

/-! ## Frames -/

/-- The bytes of a chunk with its header. -/
def frame (parameters : CompressionParameters) (chunk : List UInt8) : List UInt8 :=
  let (isCompressed, bytes) := storedChunk parameters chunk
  encodeLE 3 (if isCompressed then 2 * bytes.length else 2 * bytes.length + 1) ++ bytes

/-- The output consists of chunks that hold the content. -/
inductive Framed (parameters : CompressionParameters) : List UInt8 → List UInt8 → Prop
  | nil : Framed parameters [] []
  | cons {chunk output content : List UInt8}
      (hchunk : chunk ≠ [])
      (hfits : (storedChunk parameters chunk).2.length < 2 ^ 23)
      (hrest : Framed parameters output content) :
      Framed parameters (frame parameters chunk ++ output) (chunk ++ content)

variable {output chunk : List UInt8}

theorem Framed.snoc {content : List UInt8} (h : Framed parameters output content)
    (hchunk : chunk ≠ []) (hfits : (storedChunk parameters chunk).2.length < 2 ^ 23) :
    Framed parameters (output ++ frame parameters chunk) (content ++ chunk) := by
  induction h with
  | nil => simpa using Framed.cons hchunk hfits .nil
  | cons hfirst hfirstFits _ ih =>
      rw [append_assoc, append_assoc]
      exact .cons hfirst hfirstFits ih

/-- Loading undoes storing. -/
theorem loadedChunk_storedChunk (chunk : List UInt8) :
    OrcInputStream.loadedChunk parameters (!(storedChunk parameters chunk).1)
      (storedChunk parameters chunk).2 = .ok chunk := by
  unfold OrcInputStream.loadedChunk storedChunk
  rcases hencryption : parameters.encryption with _ | encryptor <;>
    rcases hcompression : parameters.compression with _ | compressor
  · rfl
  · by_cases hless : (compressor.compress chunk).length < chunk.length
    · simp [hless, compressor.decompress_compress]
    · simp [hless]
  · simp [encryptor.decrypt_encrypt]
  · by_cases hless : (compressor.compress chunk).length < chunk.length
    · simp [hless, encryptor.decrypt_encrypt, compressor.decompress_compress]
    · simp [hless, encryptor.decrypt_encrypt]

/-- A header of less than 24 bits gives its length and its flag back. -/
theorem encodeLE_header {length : ℕ} {flag : ℕ} (hlength : length < 2 ^ 23) (hflag : flag < 2) :
    ∃ b0 b1 b2 : UInt8, encodeLE 3 (2 * length + flag) = [b0, b1, b2] ∧
      b2.toNat * 2 ^ 15 + b1.toNat * 2 ^ 7 + b0.toNat / 2 = length ∧ b0.toNat % 2 = flag := by
  refine ⟨_, _, _, rfl, ?_, ?_⟩
  · simp only [UInt8.toNat_ofNat']
    omega
  · simp only [UInt8.toNat_ofNat']
    omega

/-- The reader takes the first chunk from its input. -/
theorem advance_frame {s : OrcInputStream parameters}
    (hfits : (storedChunk parameters chunk).2.length < 2 ^ 23)
    (hinput : s.compressedSliceInput = frame parameters chunk ++ output) :
    s.advance = .ok ⟨output, some chunk, 0⟩ := by
  have hload : OrcInputStream.loadedChunk parameters _ _ = .ok chunk :=
    loadedChunk_storedChunk chunk
  rcases hstored : storedChunk parameters chunk with ⟨isCompressed, bytes⟩
  rw [hstored] at hload hfits
  have hflag : (if isCompressed then 0 else 1) < 2 := by split <;> decide
  obtain ⟨b0, b1, b2, hheader, hlength, hbit⟩ := encodeLE_header hfits hflag
  have hinput' : s.compressedSliceInput = b0 :: b1 :: b2 :: (bytes ++ output) := by
    rw [hinput, frame, hstored]
    cases isCompressed with
    | true | false => simpa using congrArg (· ++ (bytes ++ output)) hheader
  have huncompressed : decide (b0.toNat % 2 = 1) = !isCompressed := by
    cases isCompressed <;> simp [hbit]
  rw [OrcInputStream.advance, hinput']
  dsimp only
  rw [hlength, if_neg (by simp), huncompressed, take_left, drop_left, hload]
  rfl

/-! ## Reading -/

namespace OrcInputStream

variable {s : OrcInputStream parameters} {bytes content : List UInt8}

/-- What the reader has still to give out. -/
def Holds (s : OrcInputStream parameters) (bytes : List UInt8) : Prop :=
  match s.buffer with
  | none => bytes = []
  | some buffer => ∃ content, Framed parameters s.compressedSliceInput content ∧
      bytes = buffer.drop s.position ++ content

/-- The reader comes to the end of the data or to a chunk with data. -/
theorem advance_framed (h : Framed parameters s.compressedSliceInput content) :
    (content = [] ∧ s.advance = .ok ⟨[], none, 0⟩) ∨
      ∃ byte chunk output rest, content = byte :: chunk ++ rest ∧
        Framed parameters output rest ∧ s.advance = .ok ⟨output, some (byte :: chunk), 0⟩ := by
  generalize hinput : s.compressedSliceInput = input at h
  cases h with
  | nil => exact Or.inl ⟨rfl, by rw [advance, hinput]⟩
  | @cons chunk output rest hchunk hfits hrest =>
      obtain ⟨byte, chunk, rfl⟩ := exists_cons_of_ne_nil hchunk
      exact Or.inr ⟨byte, chunk, output, rest, rfl, hrest, advance_frame hfits hinput⟩

/-- `read()` gives out the next byte, or the end of the data when there is none. -/
theorem read_holds (h : s.Holds bytes) (fuel : ℕ) :
    ∃ s', read (fuel + 2) s = .ok (bytes.head?, s') ∧ s'.Holds bytes.tail := by
  rcases hbuffer : s.buffer with _ | buffer
  · simp only [Holds, hbuffer] at h
    subst h
    exact ⟨s, by rw [read, hbuffer]; rfl, by simp [Holds, hbuffer]⟩
  · simp only [Holds, hbuffer] at h
    obtain ⟨content, hframed, rfl⟩ := h
    rcases hbyte : buffer[s.position]? with _ | byte
    · have hend : buffer.drop s.position = [] :=
        drop_eq_nil_of_le (getElem?_eq_none_iff.mp hbyte)
      have hread {s' : OrcInputStream parameters} (hadvance : s.advance = .ok s') :
          read (fuel + 2) s = read (fuel + 1) s' := by
        rw [read, hbuffer]
        dsimp only
        rw [hbyte, hadvance]
        rfl
      rw [hend]
      rcases advance_framed hframed with
        ⟨rfl, hadvance⟩ | ⟨byte, chunk, output, rest, rfl, hrest, hadvance⟩
      · exact ⟨_, hread hadvance, rfl⟩
      · exact ⟨⟨output, some (byte :: chunk), 1⟩, hread hadvance, rest, hrest, rfl⟩
    · have hdrop : buffer.drop s.position = byte :: buffer.drop (s.position + 1) := by
        obtain ⟨hlt, hget⟩ := List.getElem?_eq_some_iff.mp hbyte
        rw [← hget, getElem_cons_drop]
      refine ⟨{ s with position := s.position + 1 }, ?_, ?_⟩
      · rw [read, hbuffer]
        dsimp only
        rw [hbyte, hdrop]
        rfl
      · rw [hdrop]
        simp only [hbuffer]
        exact ⟨content, hframed, rfl⟩

/-- A request of a reader: one byte, or up to a number of bytes. -/
abbrev Request := Option ℕ

/-- A request gives out some of the next bytes, at least one if any is asked for and there. -/
def Gives (request : Request) (given rest bytes : List UInt8) : Prop :=
  given ++ rest = bytes ∧ (request ≠ some 0 → given = [] → bytes = [])

theorem holds_take {buffer : List UInt8} (length : ℕ) (hbuffer : s.buffer = some buffer)
    (hframed : Framed parameters s.compressedSliceInput content)
    (hnonempty : buffer.drop s.position ≠ []) :
    ∃ rest, ({ s with position := s.position + ((buffer.drop s.position).take length).length } :
        OrcInputStream parameters).Holds rest ∧
      Gives (some length) ((buffer.drop s.position).take length) rest
        (buffer.drop s.position ++ content) := by
  refine ⟨(buffer.drop s.position).drop length ++ content, ?_, ?_, ?_⟩
  · simp only [hbuffer]
    refine ⟨content, hframed, ?_⟩
    rw [length_take, ← drop_drop]
    rcases Nat.le_total length (buffer.drop s.position).length with hle | hle
    · rw [Nat.min_eq_left hle]
    · rw [Nat.min_eq_right hle, drop_length, drop_eq_nil_of_le hle]
  · rw [← append_assoc, take_append_drop]
  · intro hlength hnil
    rcases take_eq_nil_iff.mp hnil with hzero | hdrop
    · exact absurd (congrArg some hzero) hlength
    · exact absurd hdrop hnonempty

theorem readBytes_holds (h : s.Holds bytes) (length : ℕ) :
    ∃ given rest s', readBytes s length = .ok (given, s') ∧ s'.Holds rest ∧
      Gives (some length) (given.getD []) rest bytes := by
  rcases hbuffer : s.buffer with _ | buffer
  · simp only [Holds, hbuffer] at h
    subst h
    exact ⟨none, [], s, by rw [readBytes, hbuffer]; rfl, by simp [Holds, hbuffer], rfl,
      fun _ _ => rfl⟩
  · simp only [Holds, hbuffer] at h
    obtain ⟨content, hframed, rfl⟩ := h
    by_cases havailable : buffer.length - s.position = 0
    · have hend : buffer.drop s.position = [] := drop_eq_nil_of_le (by omega)
      rw [hend, readBytes, hbuffer]
      dsimp only
      rw [if_pos havailable]
      rcases advance_framed hframed with
        ⟨rfl, hadvance⟩ | ⟨byte, chunk, output, rest, rfl, hrest, hadvance⟩
      · exact ⟨none, [], ⟨[], none, 0⟩, by rw [hadvance]; rfl, rfl, rfl, fun _ _ => rfl⟩
      · obtain ⟨left, hholds, hgives⟩ :=
          holds_take (s := ⟨output, some (byte :: chunk), 0⟩) length rfl hrest (by simp)
        exact ⟨some _, left, _, by rw [hadvance]; rfl, hholds, hgives⟩
    · have hnonempty : buffer.drop s.position ≠ [] := by
        rw [ne_eq, drop_eq_nil_iff]
        omega
      obtain ⟨left, hholds, hgives⟩ := holds_take length hbuffer hframed hnonempty
      refine ⟨some _, left, _, ?_, hholds, hgives⟩
      rw [readBytes, hbuffer]
      dsimp only
      rw [if_neg havailable]
      simp only [pure_bind, hbuffer]
      rfl

/-- What is given out for a request. -/
def answer (s : OrcInputStream parameters) :
    Request → Outcome (List UInt8 × OrcInputStream parameters)
  | none => do
      let (byte, s) ← read (s.compressedSliceInput.length + 2) s
      pure (byte.toList, s)
  | some length => do
      let (given, s) ← ofResult (s.readBytes length)
      pure (given.getD [], s)

theorem answer_holds (h : s.Holds bytes) (request : Request) :
    ∃ given rest s', s.answer request = .ok (given, s') ∧ s'.Holds rest ∧
      Gives request given rest bytes := by
  cases request with
  | none =>
      obtain ⟨s', hread, hholds⟩ := read_holds h s.compressedSliceInput.length
      refine ⟨bytes.head?.toList, bytes.tail, s', by rw [answer, hread]; rfl, hholds, ?_⟩
      cases bytes <;> simp [Gives]
  | some length =>
      obtain ⟨given, rest, s', hread, hholds, hgives⟩ := readBytes_holds h length
      exact ⟨given.getD [], rest, s', by rw [answer, hread]; rfl, hholds, hgives⟩

/-- Requests one after another, with all bytes that they give out. -/
def readAll : List Request → OrcInputStream parameters →
    Outcome (List UInt8 × OrcInputStream parameters)
  | [], s => .ok ([], s)
  | request :: requests, s => do
      let (given, s) ← s.answer request
      let (bytes, s) ← readAll requests s
      pure (given ++ bytes, s)

/-- Requests give out the bytes in order, and enough of them give out all bytes. -/
def Delivers (s : OrcInputStream parameters) (bytes : List UInt8) : Prop :=
  ∀ requests : List Request, ∃ given rest s', readAll requests s = .ok (given, s') ∧
    given ++ rest = bytes ∧
    (bytes.length ≤ requests.countP (fun request => request != some 0) → rest = [])

theorem Holds.delivers (h : s.Holds bytes) : s.Delivers bytes := by
  intro requests
  induction requests generalizing s bytes with
  | nil =>
      refine ⟨[], bytes, s, rfl, rfl, ?_⟩
      intro hlength
      exact length_eq_zero_iff.mp (Nat.le_zero.mp hlength)
  | cons request requests ih =>
      obtain ⟨part, left, s₁, hanswer, hholds, hpart, hprogress⟩ := answer_holds h request
      obtain ⟨given, rest, s₂, hall, hgiven, henough⟩ := ih hholds
      refine ⟨part ++ given, rest, s₂, ?_, ?_, ?_⟩
      · rw [readAll, hanswer, bind_ok]
        dsimp only
        rw [hall]
        rfl
      · rw [append_assoc, hgiven, hpart]
      · intro hlength
        apply henough
        rw [← hpart] at hlength
        by_cases hzero : request = some 0
        · simp [hzero] at hlength
          omega
        · by_cases hnil : part = []
          · rw [hnil, hprogress hzero hnil] at hpart
            have hleft : left = [] := hpart
            simp [hleft]
          · have hpos := length_pos_iff.mpr hnil
            simp [hzero] at hlength
            omega

end OrcInputStream

/-! ## Writing -/

namespace OrcOutputBuffer

variable {s : OrcOutputBuffer parameters} {n fuel : ℕ} {bytes total : List UInt8}

/-- Every length that was put in a header fits there. -/
def LengthsFit (s : OrcOutputBuffer parameters) : Prop :=
  ∀ length ∈ s.chunkLengths, length < 2 ^ 23

/-- The output of the writer holds the content. -/
def Written (s : OrcOutputBuffer parameters) (content : List UInt8) : Prop :=
  if parameters.plain then s.compressedOutputStream = content
  else Framed parameters s.compressedOutputStream content

/-- All that was written is in the output or in the buffer, which has room for it. -/
structure Keeps (s : OrcOutputBuffer parameters) (total : List UInt8) : Prop where
  length_le : s.buffer.length ≤ s.bufferLength
  pos : 0 < s.bufferLength
  lt : s.bufferLength < 2 ^ 31
  fit : s.LengthsFit
  written : ∃ content, s.Written content ∧ content ++ s.buffer = total

/-- A chunk with all of the buffer and some more leaves the buffer to be emptied. -/
theorem Keeps.writeChunk (h : s.Keeps total) (added : List UInt8) (hne : s.buffer ++ added ≠ [])
    (hlength : (s.buffer ++ added).length ≤ s.bufferLength)
    (hfits : StoredFits parameters (s.buffer ++ added)) :
    ∃ s', s.writeChunkToOutputStream (s.buffer ++ added) = .ok s' ∧ s'.buffer = s.buffer ∧
      s'.bufferLength = s.bufferLength ∧
      Keeps ({ s' with buffer := [] } : OrcOutputBuffer parameters) (total ++ added) := by
  obtain ⟨content, hwritten, rfl⟩ := h.written
  unfold writeChunkToOutputStream
  by_cases hplain : parameters.plain = true
  · refine ⟨_, if_pos hplain, rfl, rfl, Nat.zero_le _, h.pos, h.lt, h.fit,
      content ++ (s.buffer ++ added), ?_, by simp⟩
    simp only [Written, hplain, if_true] at hwritten ⊢
    rw [hwritten]
  · have hstored := hfits.resolve_left hplain
    rw [if_neg hplain, if_neg (by omega)]
    dsimp only
    rw [if_neg (by omega)]
    refine ⟨_, rfl, rfl, rfl, Nat.zero_le _, h.pos, h.lt, ?_, content ++ (s.buffer ++ added), ?_,
      by simp⟩
    · intro length hmem
      rcases mem_append.mp hmem with hold | hnew
      · exact h.fit length hold
      · rwa [mem_singleton.mp hnew]
    · simp only [Written, if_neg hplain] at hwritten ⊢
      have hframed := hwritten.snoc hne hstored
      rw [frame, ← append_assoc] at hframed
      exact hframed

/-- What is in the buffer can be put out. -/
def FlushFits (s : OrcOutputBuffer parameters) : Prop :=
  s.buffer = [] ∨ StoredFits parameters s.buffer

theorem Keeps.flush (h : s.Keeps total) (hfits : s.FlushFits) :
    ∃ s', s.flushBufferToOutputStream = .ok s' ∧ s'.Keeps total ∧ s'.buffer = [] ∧
      s'.bufferLength = s.bufferLength := by
  by_cases hempty : s.buffer = []
  · exact ⟨s, if_pos hempty, h, hempty, rfl⟩
  · obtain ⟨s', hchunk, -, hsize, hkeeps⟩ := h.writeChunk [] (by simpa using hempty)
      (by simpa using h.length_le) (by simpa using hfits.resolve_left hempty)
    rw [append_nil] at hchunk hkeeps
    refine ⟨_, ?_, hkeeps, rfl, hsize⟩
    rw [flushBufferToOutputStream, if_neg hempty, hchunk]
    rfl

/-- The buffer is flushed to make room. -/
def Flushes (s : OrcOutputBuffer parameters) (n : ℕ) : Prop :=
  s.bufferLength < s.buffer.length + n ∧
    (maxBufferSize parameters ≤ s.bufferLength ∨ s.newBufferSize n < s.buffer.length + n)

/-- The buffer may be asked for that many bytes, and can be flushed if it has to be. -/
structure EnsureFits (s : OrcOutputBuffer parameters) (n : ℕ) : Prop where
  le : n ≤ maxBufferSize parameters
  lt : s.buffer.length + n < 2 ^ 31
  flush : s.Flushes n → s.FlushFits

theorem Keeps.ensure (h : s.Keeps total) (hfits : s.EnsureFits n) :
    ∃ s', s.ensureWritableBytes n = .ok s' ∧ s'.Keeps total ∧
      s'.buffer.length + n ≤ s'.bufferLength := by
  have hle := hfits.le
  have hlt := hfits.lt
  have hmax : maxBufferSize parameters < 2 ^ 31 := by
    have hlt := parameters.maxBufferSize_lt
    unfold maxBufferSize
    split <;> omega
  have hnew : n ≤ s.newBufferSize n ∧ s.newBufferSize n ≤ maxBufferSize parameters := by
    unfold newBufferSize
    omega
  have hneeded : toInt (s.buffer.length + n) = s.buffer.length + n := by
    unfold toInt
    exact bmod_eq_self (by omega) (by omega)
  have hresize : ∀ {s' : OrcOutputBuffer parameters} {size : ℕ}, s'.Keeps total →
      s'.buffer.length ≤ size → 0 < size → size < 2 ^ 31 →
      Keeps ({ s' with bufferLength := size } : OrcOutputBuffer parameters) total :=
    fun h' hsize hpos hlt => ⟨hsize, hpos, hlt, h'.fit, h'.written⟩
  rw [ensureWritableBytes, if_neg (by omega), hneeded]
  by_cases hroom : s.buffer.length + n ≤ s.bufferLength
  · exact ⟨s, if_pos (by omega), h, hroom⟩
  rw [if_neg (by omega)]
  by_cases hfull : maxBufferSize parameters ≤ s.bufferLength
  · obtain ⟨s', hflush, hkeeps, hempty, hsize⟩ :=
      h.flush (hfits.flush ⟨by omega, Or.inl hfull⟩)
    refine ⟨s', by rw [if_pos hfull, hflush], hkeeps, ?_⟩
    simp only [hempty, length_nil]
    omega
  rw [if_neg hfull]
  by_cases hgrow : s.buffer.length + n ≤ s.newBufferSize n
  · have hsize : s.newBufferSize n < 2 ^ 31 := by omega
    have hlength : s.buffer.length ≤ s.newBufferSize n := by omega
    refine ⟨{ s with bufferLength := s.newBufferSize n }, if_pos ?_,
      hresize h hlength (by omega) hsize, ?_⟩
    · exact_mod_cast hgrow
    · dsimp only
      exact hgrow
  · obtain ⟨s', hflush, hkeeps, hempty, -⟩ :=
      h.flush (hfits.flush ⟨by omega, Or.inr (by omega)⟩)
    have hzero : s'.buffer.length = 0 := by simp [hempty]
    refine ⟨_, by rw [if_neg (by omega), hflush]; rfl,
      hresize hkeeps (by omega) ?_ (by omega), by dsimp only; omega⟩
    by_contra hno
    have hlength := h.length_le
    omega

theorem Keeps.setBytes (h : s.Keeps total) (bytes : List UInt8)
    (hroom : s.buffer.length + bytes.length ≤ s.bufferLength) :
    ∃ s', s.setBytes bytes = .ok s' ∧ s'.Keeps (total ++ bytes) := by
  obtain ⟨content, hwritten, rfl⟩ := h.written
  refine ⟨_, if_pos hroom, ?_, h.pos, h.lt, h.fit, content, hwritten, by simp⟩
  simpa using hroom

theorem Keeps.writeValue (h : s.Keeps total) (hfits : s.EnsureFits bytes.length) :
    ∃ s', s.writeValue bytes = .ok s' ∧ s'.Keeps (total ++ bytes) := by
  obtain ⟨t, hensure, hkeeps, hroom⟩ := h.ensure hfits
  obtain ⟨s', hset, hkeeps'⟩ := hkeeps.setBytes bytes hroom
  exact ⟨s', by rw [OrcOutputBuffer.writeValue, hensure, Result.bind_ok, hset], hkeeps'⟩

/-- The pieces of bytes that are written directly can be put out. -/
def PiecesFit (parameters : CompressionParameters) (size : ℕ) : ℕ → List UInt8 → Prop
  | _, [] => True
  | 0, _ :: _ => True
  | fuel + 1, bytes => StoredFits parameters (bytes.take size) ∧
      PiecesFit parameters size fuel (bytes.drop size)

theorem Keeps.writePieces (h : s.Keeps total) (hempty : s.buffer = []) (hfuel : bytes.length ≤ fuel)
    (hfits : PiecesFit parameters s.bufferLength fuel bytes) :
    ∃ s', s.writePieces fuel bytes = .ok s' ∧ s'.Keeps (total ++ bytes) := by
  induction fuel generalizing s total bytes with
  | zero =>
      obtain rfl : bytes = [] := length_eq_zero_iff.mp (by omega)
      exact ⟨s, rfl, by simpa using h⟩
  | succ fuel ih =>
      cases bytes with
      | nil => exact ⟨s, rfl, by simpa using h⟩
      | cons byte rest =>
          have hpos := h.pos
          obtain ⟨hpiece, hrest⟩ := hfits
          obtain ⟨t, hchunk, hbuffer, hsize, hkeeps⟩ :=
            h.writeChunk ((byte :: rest).take s.bufferLength)
              (by simp [hempty]; omega) (by simp [hempty]) (by simpa [hempty] using hpiece)
          rw [hempty, nil_append] at hchunk
          have hsame : ({ t with buffer := [] } : OrcOutputBuffer parameters) = t := by
            rw [← hempty, ← hbuffer]
          rw [hsame] at hkeeps
          have hshort : ((byte :: rest).drop s.bufferLength).length ≤ fuel := by
            simp only [length_drop]
            omega
          rw [← hsize] at hrest
          rw [← hsize] at hshort
          obtain ⟨s', hwrite, hkeeps'⟩ := ih hkeeps (hbuffer.trans hempty) hshort hrest
          rw [hsize] at hwrite hkeeps'
          refine ⟨s', ?_, by rwa [append_assoc, take_append_drop] at hkeeps'⟩
          rw [writePieces, hchunk]
          · exact hwrite
          · simp

/-- The batches can be written. -/
def BatchesFit : ℕ → OrcOutputBuffer parameters → List UInt8 → Prop
  | _, _, [] => True
  | 0, _, _ :: _ => True
  | fuel + 1, s, bytes => s.EnsureFits (min directFlushSize bytes.length) ∧
      ∀ t u batch, s.ensureWritableBytes (min directFlushSize bytes.length) = .ok t →
        batch = min bytes.length (t.bufferLength - t.buffer.length) →
        t.setBytes (bytes.take batch) = .ok u → BatchesFit fuel u (bytes.drop batch)

theorem Keeps.writeBatches
    (h : s.Keeps total) (hfuel : bytes.length ≤ fuel) (hfits : s.BatchesFit fuel bytes) :
    ∃ s', s.writeBatches fuel bytes = .ok s' ∧ s'.Keeps (total ++ bytes) := by
  induction fuel generalizing s total bytes with
  | zero =>
      obtain rfl : bytes = [] := length_eq_zero_iff.mp (by omega)
      exact ⟨s, rfl, by simpa using h⟩
  | succ fuel ih =>
      cases bytes with
      | nil => exact ⟨s, rfl, by simpa using h⟩
      | cons byte rest =>
          obtain ⟨t, hensure, hkeeps, hroom⟩ := h.ensure hfits.1
          have hasked : 0 < min directFlushSize (byte :: rest).length := by
            simp [directFlushSize]
          generalize hbatch : min (byte :: rest).length (t.bufferLength - t.buffer.length) = batch
          obtain ⟨u, hset, hkeeps'⟩ := hkeeps.setBytes ((byte :: rest).take batch)
            (by simp only [length_take]; omega)
          obtain ⟨s', hwrite, hkeeps''⟩ := ih hkeeps'
            (by simp only [length_drop]; omega) (hfits.2 t u batch hensure hbatch.symm hset)
          refine ⟨s', ?_, by rwa [append_assoc, take_append_drop] at hkeeps''⟩
          rw [writeBatches, hensure, ofResult, bind_ok]
          · dsimp only
            rw [hbatch, hset, ofResult, bind_ok, hwrite]
          · simp

end OrcOutputBuffer

/-! ## Runs -/

/-- The writes; those of floating point numbers write the bits of an int or a long. -/
inductive Write
  | byte (value : UInt8)
  | short (value : UInt16)
  | int (value : UInt32)
  | long (value : UInt64)
  | bytes (source : List UInt8)
  | stream (source : List UInt8)
  | zero (length : ℕ)
  | flush

namespace Write

open OrcOutputBuffer

/-- The bytes of a write. -/
def content : Write → List UInt8
  | byte value => [value]
  | short value => encodeLE 2 value.toNat
  | int value => encodeLE 4 value.toNat
  | long value => encodeLE 8 value.toNat
  | bytes source => source
  | stream source => source
  | zero length => List.replicate length 0
  | flush => []

def apply (s : OrcOutputBuffer parameters) : Write → Outcome (OrcOutputBuffer parameters)
  | byte value => ofResult (s.writeByte value)
  | short value => ofResult (s.writeShort value)
  | int value => ofResult (s.writeInt value)
  | long value => ofResult (s.writeLong value)
  | bytes source => s.writeBytes source
  | stream source => s.writeFrom source
  | zero length => s.writeZero length
  | flush => ofResult s.flushBufferToOutputStream

/-- The write fits the buffer, and every chunk that it puts out fits its header. -/
def Fits (s : OrcOutputBuffer parameters) : Write → Prop
  | bytes source =>
      if directFlushSize ≤ source.length then
        s.FlushFits ∧ (parameters.plain = true ∨
          PiecesFit parameters s.bufferLength source.length source)
      else s.EnsureFits source.length
  | stream source => s.BatchesFit source.length source
  | zero length =>
      s.BatchesFit (List.replicate length (0 : UInt8)).length (List.replicate length 0)
  | flush => s.FlushFits
  | write => s.EnsureFits write.content.length

variable {s : OrcOutputBuffer parameters} {total : List UInt8}

theorem keeps_apply (h : s.Keeps total) {write : Write} (hfits : write.Fits s) :
    ∃ s', write.apply s = .ok s' ∧ s'.Keeps (total ++ write.content) := by
  have hvalue : ∀ {bytes : List UInt8}, s.EnsureFits bytes.length →
      ∃ s', ofResult (s.writeValue bytes) = .ok s' ∧ s'.Keeps (total ++ bytes) := by
    intro bytes hensure
    obtain ⟨s', hwrite, hkeeps⟩ := h.writeValue hensure
    exact ⟨s', by rw [hwrite]; rfl, hkeeps⟩
  cases write with
  | byte _ | short _ | int _ | long _ => exact hvalue hfits
  | stream _ | zero _ => exact h.writeBatches le_rfl hfits
  | flush =>
      obtain ⟨s', hflush, hkeeps, -, -⟩ := h.flush hfits
      exact ⟨s', by rw [apply, hflush]; rfl, by simpa [content] using hkeeps⟩
  | bytes source =>
      dsimp only [apply, Fits, content] at hfits ⊢
      unfold writeBytes
      by_cases hdirect : directFlushSize ≤ source.length
      · rw [if_pos hdirect] at hfits ⊢
        obtain ⟨t, hflush, hkeeps, hempty, hsize⟩ := h.flush hfits.1
        rw [hflush, ofResult, bind_ok, writeDirectlyToOutputStream]
        by_cases hplain : parameters.plain = true
        · obtain ⟨written, hwritten, rfl⟩ := hkeeps.written
          refine ⟨_, if_pos hplain, hkeeps.length_le, hkeeps.pos, hkeeps.lt, hkeeps.fit,
            written ++ source, ?_, by simp [hempty]⟩
          simp only [Written, hplain, if_true] at hwritten ⊢
          rw [hwritten]
        · rw [if_neg hplain]
          rw [← hsize] at hfits
          exact hkeeps.writePieces hempty le_rfl (hfits.2.resolve_left hplain)
      · rw [if_neg hdirect] at hfits ⊢
        exact hvalue hfits

end Write

/-- Writes to a new writer. -/
def run (parameters : CompressionParameters) (writes : List Write) :
    Outcome (OrcOutputBuffer parameters) :=
  writes.foldlM Write.apply (new parameters)

/-- Every write fits the writer that the writes before it leave. -/
def RunFits : OrcOutputBuffer parameters → List Write → Prop
  | _, [] => True
  | s, write :: writes => write.Fits s ∧ ∀ s', write.apply s = .ok s' → RunFits s' writes

/-- Nothing is lost in a run whose writes fit. -/
theorem keeps_foldlM {writes : List Write} (h : s.Keeps total) (hfits : RunFits s writes) :
    ∃ s', writes.foldlM Write.apply s = .ok s' ∧
      s'.Keeps (total ++ writes.flatMap Write.content) := by
  induction writes generalizing s total with
  | nil => exact ⟨s, rfl, by simpa using h⟩
  | cons write writes ih =>
      obtain ⟨t, happly, hkeeps⟩ := Write.keeps_apply h hfits.1
      obtain ⟨s', hrun, hkeeps'⟩ := ih hkeeps (hfits.2 t happly)
      refine ⟨s', ?_, by simpa using hkeeps'⟩
      rw [foldlM_cons, happly, bind_ok, hrun]

theorem keeps_new : (new parameters).Keeps [] := by
  refine ⟨Nat.zero_le _, by simp [new], by simp [new],
    fun _ hmem => absurd hmem not_mem_nil, [], ?_, rfl⟩
  unfold OrcOutputBuffer.Written
  split
  · rfl
  · exact .nil

/-- The run returns, every length fits its header, and a reader of the output is given all that
was written and is not in the buffer. -/
def RoundTrips (parameters : CompressionParameters) (writes : List Write) : Prop :=
  ∃ s readable, run parameters writes = .ok s ∧ s.LengthsFit ∧
    readable ++ s.buffer = writes.flatMap Write.content ∧
    (OrcInputStream.new parameters s.compressedOutputStream).Delivers readable

/-- An encryption that makes a chunk longer by some bytes. -/
def padding (k : ℕ) : Encryption where
  encrypt bytes := bytes ++ List.replicate k 0
  decrypt bytes := bytes.take (bytes.length - k)
  decrypt_encrypt bytes := by
    rw [List.length_append, List.length_replicate, Nat.add_sub_cancel, List.take_left]

def paddedParameters (k : ℕ) : CompressionParameters :=
  ⟨none, some (padding k), 1024, by decide, by decide⟩

theorem apply_byte {parameters : CompressionParameters} {s : OrcOutputBuffer parameters}
    (hroom : s.buffer.length < s.bufferLength) (hlt : s.bufferLength < 2 ^ 31) (value : UInt8) :
    Write.apply s (.byte value) = .ok { s with buffer := s.buffer ++ [value] } := by
  have hmax : ¬maxBufferSize parameters < 1 := by
    have hheader := parameters.pageHeaderSize_lt
    unfold maxBufferSize
    split <;> omega
  have hneeded : toInt (s.buffer.length + (1 : ℕ)) ≤ s.bufferLength := by
    rw [toInt, bmod_eq_self (by omega) (by omega)]
    omega
  rw [Write.apply, writeByte, writeValue, length_singleton, ensureWritableBytes, if_neg hmax]
  dsimp only
  rw [if_pos hneeded, Result.bind_ok, setBytes, if_pos (by simp; omega), ofResult]

/-- A run whose writes all fit is read back. -/
theorem writes_are_read_back
    (parameters : CompressionParameters) (writes : List Write)
    (h : RunFits (.new parameters) writes) :
    RoundTrips parameters writes := by
  obtain ⟨s, hrun, hkeeps⟩ := keeps_foldlM keeps_new h
  obtain ⟨content, hwritten, hcontent⟩ := hkeeps.written
  refine ⟨s, content, hrun, hkeeps.fit, hcontent, OrcInputStream.Holds.delivers ?_⟩
  unfold OrcOutputBuffer.Written at hwritten
  unfold OrcInputStream.new
  by_cases hplain : parameters.plain = true
  · rw [if_pos hplain] at hwritten ⊢
    rw [hwritten]
    exact ⟨[], .nil, by simp⟩
  · rw [if_neg hplain] at hwritten ⊢
    exact ⟨content, hwritten, by simp⟩

/-- A compression that shortens two zeros. -/
def twoZeros : Compression where
  compress bytes := if bytes = [0, 0] then [0] else 1 :: bytes
  decompress bytes := if bytes = [0] then .ok [0, 0] else .ok bytes.tail
  decompress_compress bytes := by
    by_cases h : bytes = [0, 0] <;> simp [h]

/-- A chunk that is compressed and one that is not, each with three bytes of padding. -/
theorem compressed_chunks_are_read_back :
    RoundTrips ⟨some twoZeros, some (padding 3), 1024, by decide, by decide⟩
      [.byte 0, .byte 0, .flush, .byte 1, .flush, .byte 2] := by
  refine writes_are_read_back _ _ ⟨?_, ?_⟩
  · exact ⟨by decide, by decide, fun hflushes => absurd hflushes.1 (by decide)⟩
  rw [apply_byte (by decide) (by decide)]
  rintro s ⟨⟩
  refine ⟨⟨by decide, by decide, fun hflushes => absurd hflushes.1 (by decide)⟩, ?_⟩
  rw [apply_byte (by decide) (by decide)]
  rintro s ⟨⟩
  refine ⟨Or.inr (Or.inr (by decide)), ?_⟩
  rintro s ⟨⟩
  refine ⟨⟨by decide, by decide, fun hflushes => absurd hflushes.1 (by decide)⟩, ?_⟩
  rw [apply_byte (by decide) (by decide)]
  rintro s ⟨⟩
  refine ⟨Or.inr (Or.inr (by decide)), ?_⟩
  rintro s ⟨⟩
  exact ⟨⟨by decide, by decide, fun hflushes => absurd hflushes.1 (by decide)⟩, fun _ _ => trivial⟩

/-- A length of `2 ^ 23` passes the check of the writer and is `0` in the header. -/
theorem run_padded {k : ℕ} (hk : k + 1 = 2 ^ 23) :
    run (paddedParameters k) [.byte 0, .flush] =
      .ok ⟨256, [], [1, 0, 0] ++ (0 :: replicate k 0), [k + 1]⟩ := by
  have hlength : (0 :: replicate k (0 : UInt8)).length = k + 1 := by simp
  have hheader : encodeLE 3 (2 * (k + 1) + 1) = [1, 0, 0] := by rw [hk]; rfl
  have hchunk : (⟨256, [0], [], []⟩ : OrcOutputBuffer (paddedParameters k)).writeChunkToOutputStream
      [0] = .ok ⟨256, [0], [1, 0, 0] ++ (0 :: replicate k 0), [k + 1]⟩ := by
    have hstored : storedChunk (paddedParameters k) [0] =
        (false, 0 :: replicate k 0) := rfl
    rw [writeChunkToOutputStream, if_neg (by simp [CompressionParameters.plain,
      paddedParameters]), if_neg (by simp), hstored]
    dsimp only
    rw [if_neg (by omega), writeChunkedOutput]
    simp [hheader]
  have hflush : Write.apply (⟨256, [0], [], []⟩ : OrcOutputBuffer (paddedParameters k)) .flush =
      .ok ⟨256, [], [1, 0, 0] ++ (0 :: replicate k 0), [k + 1]⟩ := by
    rw [Write.apply, flushBufferToOutputStream, hchunk]
    rfl
  rw [run, foldlM_cons, apply_byte (by simp [new]) (by simp [new]), bind_ok, foldlM_cons]
  exact congrArg (· >>= _) hflush

/-- The reader takes the padding for a header. -/
theorem read_padded {k : ℕ} (hk : 2 ≤ k) (fuel : ℕ) :
    OrcInputStream.read (fuel + 2) (.new (paddedParameters k)
      ([1, 0, 0] ++ (0 :: replicate k 0))) = .error (.throws .noSuchElement) := by
  obtain ⟨k, rfl⟩ := Nat.exists_eq_add_of_le' hk
  simp [OrcInputStream.read, OrcInputStream.new, OrcInputStream.advance,
    OrcInputStream.loadedChunk, padding, paddedParameters, CompressionParameters.plain,
    replicate_succ, ofResult, bind_ok]
  rfl

/-- One byte whose encrypted chunk has `2 ^ 23` bytes is not read back. -/
theorem padded_byte_is_not_read :
    ∃ s, run (paddedParameters (2 ^ 23 - 1)) [.byte 0, .flush] = .ok s ∧ ¬s.LengthsFit ∧
      s.buffer = [] ∧ OrcInputStream.readAll [none]
        (.new (paddedParameters (2 ^ 23 - 1)) s.compressedOutputStream) =
          .error (.throws .noSuchElement) ∧
      ¬RoundTrips (paddedParameters (2 ^ 23 - 1)) [.byte 0, .flush] := by
  generalize hk : 2 ^ 23 - 1 = k
  have hsize : k + 1 = 2 ^ 23 := by omega
  have hunfit : ¬(⟨256, [], [1, 0, 0] ++ (0 :: replicate k 0), [k + 1]⟩ :
      OrcOutputBuffer (paddedParameters k)).LengthsFit := by
    intro hfit
    have hlt := hfit (k + 1) (by simp)
    omega
  refine ⟨_, run_padded hsize, hunfit, rfl, ?_, ?_⟩
  · rw [OrcInputStream.readAll, OrcInputStream.answer, read_padded (by omega)]
    rfl
  · rintro ⟨s, readable, hrun, hfit, -, -⟩
    rw [run_padded hsize] at hrun
    cases hrun
    exact hunfit hfit

end Presto.Orc
