import Presto.Operator.Scalar.Utf8Text

/-!
# Positions of substrings

`strpos` searches the bytes of the string and counts the code points before the match.  `strrpos`
searches the UTF-16 units instead, but counts code points in as many bytes.
-/

namespace Presto.Operator.Scalar

open Support List

/-! ## The functions -/

/-- The units of a Java string. -/
def utf16 : TextCode Char ℕ where
  encode c :=
    if c.toNat < 0x10000 then [c.toNat]
    else [0xD800 + (c.toNat - 0x10000) / 0x400, 0xDC00 + (c.toNat - 0x10000) % 0x400]
  continues unit := 0xDC00 ≤ unit ∧ unit < 0xE000
  encode_units c := by
    have hvalid : c.toNat < 0xD800 ∨ 0xDFFF < c.toNat ∧ c.toNat < 0x110000 := c.valid
    split_ifs
    · exact ⟨_, _, rfl, by simp; omega, by simp⟩
    · exact ⟨_, _, rfl, by simp; omega, by simp; omega⟩
  prefixFree := by
    intro a b h
    have ha : a.toNat < 0xD800 ∨ 0xDFFF < a.toNat ∧ a.toNat < 0x110000 := a.valid
    have hb : b.toNat < 0xD800 ∨ 0xDFFF < b.toNat ∧ b.toNat < 0x110000 := b.valid
    apply Char.toNat_inj.mp
    split_ifs at h <;> simp at h <;> omega

/-- `String.lastIndexOf`: the last occurrence at or before the index. -/
def lastIndexOf (chars str : List ℕ) (fromIndex : ℤ) : ℤ :=
  ((occurrences str chars).reverse.find? fun index : ℕ => index ≤ fromIndex).elim (-1) (↑)

/-- The loop of either function, with the number of instances that it has not found yet. -/
def findInstance (next : ℤ → ℤ) : ℕ → ℤ → ℤ
  | 0, index => index
  | missing + 1, index =>
      if next index < 0 then -1 else findInstance next missing (next index)

/-- What either function does around its loop. -/
def stringPositionBy (next : ℤ → ℤ) (start : ℤ) (string substring : List UInt8)
    (nth : Int64) : Result ℤ :=
  if nth.toInt ≤ 0 then
    .error (.prestoException .invalidFunctionArgument "'instance' must be a positive number.")
  else if substring.length = 0 then .ok 1
  else
    let index := findInstance next nth.toInt.toNat start
    if index < 0 then .ok 0 else .ok (countCodePoints (string.take index.toNat) + 1)

def stringPositionFromStart (string substring : List UInt8) (nth : Int64) : Result ℤ :=
  stringPositionBy (fun index => indexOf string substring (index + 1)) (-1) string substring nth

/-- The Java strings are those of the texts that the slices hold. -/
def stringPositionFromEnd (string substring : Utf8Slice) (nth : Int64) : Result ℤ :=
  stringPositionBy
    (fun index => lastIndexOf (utf16.spell string.codePoints) (utf16.spell substring.codePoints)
      (index - 1))
    string.bytes.length string.bytes substring.bytes nth

/-- The position of a code point, counted from one, or zero. -/
def position (codePoint : Option ℕ) : ℤ := codePoint.elim 0 (· + 1)

/-! ## What they return -/

variable {next : ℤ → ℤ} {l : List ℕ} {start : ℤ}

/-- The loop visits the occurrences one by one when each search finds the next one. -/
theorem findInstance_eq {r : ℤ → ℕ → Prop} [∀ i, DecidablePred (r i)]
    (hnext : ∀ i, next i = (l.find? (r i ·)).elim (-1) (↑))
    (hsorted : l.Pairwise fun a b : ℕ => r a b ∧ ¬r b a) (hirrefl : ∀ a : ℕ, ¬r a a)
    (hstart : ∀ a ∈ l, r start a) (missing : ℕ) :
    findInstance next (missing + 1) start = (l[missing]?).elim (-1) (↑) := by
  have hrest : ∀ after before index missing, l = before ++ after → (∀ a ∈ before, ¬r index a) →
      (∀ a ∈ after, r index a) →
      findInstance next (missing + 1) index = (after[missing]?).elim (-1) (↑) := by
    intro after
    induction after with
    | nil =>
        intro before index missing hl hbefore _
        have hskip : before.find? (r index ·) = none := by simpa using hbefore
        simp [findInstance, hnext, hl, hskip]
    | cons first after ih =>
        intro before index missing hl hbefore hafter
        have hskip : before.find? (r index ·) = none := by simpa using hbefore
        have hfound : next index = first := by simp [hnext, hl, hskip, hafter first (by simp)]
        rw [findInstance, hfound]
        cases missing with
        | zero => rfl
        | succ missing =>
            rw [hl, pairwise_append, pairwise_cons] at hsorted
            refine ih (before ++ [first]) first missing (by simp [hl]) ?_
              fun a ha => (hsorted.2.1.1 a ha).1
            simp only [mem_append, mem_singleton]
            rintro a (ha | rfl)
            · exact (hsorted.2.2 a ha first (by simp)).2
            · exact hirrefl a
  exact hrest l [] start missing rfl (by simp) hstart

theorem length_utf16_le (s : List Char) : (utf16.spell s).length ≤ (utf8.spell s).length := by
  have hencode : ∀ c, (utf16.encode c).length ≤ (utf8.encode c).length := by
    intro c
    simp only [utf16, utf8, String.utf8EncodeChar, Char.toNat]
    split_ifs <;> simp
    omega
  induction s with
  | nil => rfl
  | cons c s ih =>
      simp only [TextCode.spell, flatMap_cons, length_append] at ih ⊢
      exact Nat.add_le_add (hencode c) ih

/-- As many bytes as the text before a match has UTF-16 units reach its last code point. -/
def ReachesLast (s : List Char) (i : ℕ) : Prop :=
  i = 0 ∨ (utf8.spell (s.take (i - 1))).length < (utf16.spell (s.take i)).length

theorem countCodePoints_take_eq_iff (s : List Char) {i : ℕ} (hi : i < s.length) :
    countCodePoints ((utf8.spell s).take (utf16.spell (s.take i)).length) = i ↔
      ReachesLast s i := by
  cases i with
  | zero => simp [TextCode.spell, countCodePoints, ReachesLast]
  | succ i =>
      have hshort := length_utf16_le (s.take (i + 1))
      have hcount := utf8.countP_take_spell_eq_iff (s.take i) s[i]
        (utf16.spell (s.take (i + 1))).length
      rw [take_concat_get' _ _ (by omega), ← TextCode.take_spell (C := utf8) s (i + 1),
        take_take,
        min_eq_left hshort, length_take, min_eq_left (by omega)] at hcount
      exact hcount.trans (by simp [ReachesLast])

variable {s t : Utf8Slice} {n : Int64}

theorem mem_occurrences_lt {i : ℕ} (h : i ∈ occurrences t.codePoints s.codePoints) :
    i < s.codePoints.length :=
  mem_range.mp (mem_filter.mp h).1

section Exact

variable (ht : t.codePoints ≠ []) (hn : 0 < n.toInt)

include ht hn

theorem stringPositionBy_eq {found : List ℕ} {offset : ℕ → ℕ} (hl : l = found.map offset)
    (hfound : ∀ missing, findInstance next (missing + 1) start = (l[missing]?).elim (-1) (↑)) :
    stringPositionBy next start s.bytes t.bytes n =
      .ok (found[n.toInt.toNat - 1]?.elim 0 fun i =>
        (countCodePoints (s.bytes.take (offset i)) + 1 : ℤ)) := by
  have hlength : t.bytes.length ≠ 0 := by
    simpa [Utf8Slice.bytes, TextCode.spell_eq_nil_iff] using ht
  obtain ⟨missing, hmissing⟩ : ∃ missing, n.toInt.toNat = missing + 1 :=
    Nat.exists_eq_succ_of_ne_zero (by omega)
  rw [stringPositionBy, if_neg (by omega), if_neg hlength, hmissing, hfound, hl,
    getElem?_map, Nat.add_sub_cancel]
  cases found[missing]? with
  | none => rfl
  | some i => exact if_neg (by simp)

/-- `strpos` is the position of the occurrence that it is asked for. -/
theorem stringPositionFromStart_eq :
    stringPositionFromStart s.bytes t.bytes n =
      .ok (position (occurrences t.codePoints s.codePoints)[n.toInt.toNat - 1]?) := by
  have hfound : ∀ missing, findInstance (fun index => indexOf s.bytes t.bytes (index + 1))
      (missing + 1) (-1) = ((occurrences t.bytes s.bytes)[missing]?).elim (-1) (↑) :=
    findInstance_eq (r := fun i a => i + 1 ≤ a) (fun _ => by rfl)
      ((occurrences_sorted _ _).imp fun h => ⟨by omega, by omega⟩) (fun _ => by omega)
      fun _ _ => by omega
  rw [stringPositionFromStart, stringPositionBy_eq ht hn (TextCode.occurrences_spell ht _) hfound,
    position]
  cases h : (occurrences t.codePoints s.codePoints)[n.toInt.toNat - 1]? with
  | none => rfl
  | some i =>
      have hi := mem_occurrences_lt (mem_of_getElem? h)
      rw [Option.elim_some, Option.elim_some, Utf8Slice.bytes, TextCode.take_spell,
        countCodePoints_spell, length_take, min_eq_left hi.le]

/-- `strrpos` counts the code points in a prefix that may be too short. -/
theorem stringPositionFromEnd_eq :
    stringPositionFromEnd s t n =
      .ok ((occurrences t.codePoints s.codePoints).reverse[n.toInt.toNat - 1]?.elim 0 fun i =>
        (countCodePoints (s.bytes.take (utf16.spell (s.codePoints.take i)).length) + 1 : ℤ)) := by
  refine stringPositionBy_eq ht hn
    (l := (occurrences (utf16.spell t.codePoints) (utf16.spell s.codePoints)).reverse)
    (by rw [TextCode.occurrences_spell ht, map_reverse])
    (findInstance_eq (r := fun i a => a ≤ i - 1) (fun _ => by rfl) (pairwise_reverse.mpr
      ((occurrences_sorted _ _).imp fun h => ⟨by omega, by omega⟩)) (fun _ => by omega) ?_)
  intro a ha
  have hmem := (mem_filter.mp (mem_reverse.mp ha)).1
  have hlt := (mem_range.mp hmem).trans_le (length_utf16_le s.codePoints)
  rw [Utf8Slice.bytes]
  omega

end Exact

/-- Both functions return the positions of the occurrences, counted from either end, exactly when
before a match the bytes that `strrpos` looks at reach the last code point. -/
theorem string_positions_exact_iff
    (s t : Utf8Slice) (n : Int64) (ht : t.codePoints ≠ []) (hn : 0 < n.toInt) :
    let found := occurrences t.codePoints s.codePoints
    (stringPositionFromStart s.bytes t.bytes n = .ok (position found[n.toInt.toNat - 1]?) ∧
      stringPositionFromEnd s t n = .ok (position found.reverse[n.toInt.toNat - 1]?) ∧
      (n.toInt ≤ found.length → stringPositionFromStart s.bytes t.bytes n =
        stringPositionFromEnd s t (Int64.ofInt (found.length - n.toInt + 1)))) ↔
    ∀ i, found[n.toInt.toNat - 1]? = some i ∨ found.reverse[n.toInt.toNat - 1]? = some i →
      ReachesLast s.codePoints i := by
  intro found
  have hreported : ∀ o : Option ℕ, (∀ i, o = some i → i ∈ found) →
      ((.ok (o.elim 0 fun i => (countCodePoints (s.bytes.take
        (utf16.spell (s.codePoints.take i)).length) + 1 : ℤ)) : Result ℤ) = .ok (position o) ↔
      ∀ i, o = some i → ReachesLast s.codePoints i) := by
    intro o ho
    cases o with
    | none => simp [position]
    | some i =>
        have hi := countCodePoints_take_eq_iff _ (mem_occurrences_lt (ho i rfl))
        simpa [position, Utf8Slice.bytes] using hi
  have hfits : found.length < 2 ^ 31 :=
    (((length_filter_le _ _).trans_eq length_range).trans s.length_le).trans_lt s.fits
  have hmirrored : (n.toInt ≤ found.length →
      (.ok (position found[n.toInt.toNat - 1]?) : Result ℤ) =
        stringPositionFromEnd s t (Int64.ofInt (found.length - n.toInt + 1))) ↔
      ∀ i, found[n.toInt.toNat - 1]? = some i → ReachesLast s.codePoints i := by
    rw [← hreported _ fun i => mem_of_getElem?]
    by_cases hle : n.toInt ≤ found.length
    · have hcount : (Int64.ofInt (found.length - n.toInt + 1)).toInt =
          found.length - n.toInt + 1 := Int64.toInt_ofInt_of_le (by omega) (by omega)
      have hindex : found.reverse[(found.length - n.toInt + 1).toNat - 1]? =
          found[n.toInt.toNat - 1]? := by
        rw [getElem?_reverse (by omega)]
        congr 1
        omega
      rw [stringPositionFromEnd_eq ht (by omega), hcount, hindex, eq_comm]
      exact imp_iff_right hle
    · rw [getElem?_eq_none (by omega)]
      exact iff_of_true (fun h => absurd h hle) rfl
  rw [stringPositionFromStart_eq ht hn, hmirrored, stringPositionFromEnd_eq ht hn,
    hreported _ fun i h => mem_reverse.mp (mem_of_getElem? h)]
  simp only [or_imp, forall_and, and_comm]
  exact and_iff_right rfl

/-- The `a` of `éab` is at position 2, from either end. -/
theorem string_positions_agree :
    let s : Utf8Slice := ⟨['é', 'a', 'b'], by decide⟩
    let t : Utf8Slice := ⟨['a'], by decide⟩
    stringPositionFromStart s.bytes t.bytes 1 = .ok 2 ∧ stringPositionFromEnd s t 1 = .ok 2 := by
  intro s t
  have hexact := (string_positions_exact_iff s t 1 (by decide) (by decide)).mpr (by
    rintro i (hi | hi) <;> cases hi <;> exact .inr (by decide))
  exact ⟨hexact.1, hexact.2.1⟩

/-- The `b` of `éab` is at position 3, but its first two bytes are one code point. -/
theorem string_positions_differ :
    let s : Utf8Slice := ⟨['é', 'a', 'b'], by decide⟩
    let t : Utf8Slice := ⟨['b'], by decide⟩
    occurrences t.codePoints s.codePoints = [2] ∧
      stringPositionFromStart s.bytes t.bytes 1 = .ok 3 ∧ stringPositionFromEnd s t 1 = .ok 2 := by
  decide

end Presto.Operator.Scalar
