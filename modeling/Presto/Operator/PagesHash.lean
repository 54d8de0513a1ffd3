import Mathlib.Data.Nat.Log
import Presto.Support.OpenAddressing
import Presto.Support.Throwable

/-!
# The hash table of a join

`PagesHash` indexes the rows of the build side of a join by the hash of their key.  A slot
holds one row for each different key, the head; the other rows with that key are chained to
the head by a `PositionLinks` builder.  Rows are numbered by their position; the address of a
row and the channels it is read from are not part of the model, the strategy answers the
questions about a row.
-/

namespace Presto.Operator

open Presto.Support OpenAddressing Outcome List Nat Option

/-- What the table asks about keys: whether a key channel is null, the hash of a key, and
whether two keys are equal when none of their channels is null. -/
structure PagesHashStrategy (κ : Type*) where
  isNull : κ → Bool
  hash : κ → UInt64
  equalIgnoreNulls : κ → κ → Bool

/-- Equality of keys is an equivalence and equal keys have equal hashes. -/
structure PagesHashStrategy.Lawful {κ : Type*} (strategy : PagesHashStrategy κ) : Prop where
  refl : ∀ a, strategy.isNull a = false → strategy.equalIgnoreNulls a a = true
  symm : ∀ a b, strategy.isNull a = false → strategy.isNull b = false →
    strategy.equalIgnoreNulls a b = true → strategy.equalIgnoreNulls b a = true
  trans : ∀ a b c, strategy.isNull a = false → strategy.isNull b = false →
    strategy.isNull c = false → strategy.equalIgnoreNulls a b = true →
    strategy.equalIgnoreNulls b c = true → strategy.equalIgnoreNulls a c = true
  hash : ∀ a b, strategy.isNull a = false → strategy.isNull b = false →
    strategy.equalIgnoreNulls a b = true → strategy.hash a = strategy.hash b

/-- The rows of the build side: the key and the value of the sort channel at each position. -/
structure BuildSide (κ σ : Type*) where
  positionCount : ℕ
  key : ℕ → κ
  sortValue : ℕ → Option σ

/-- The builder of position links: `link` chains a row to a head and returns the head of the
new chain. -/
structure LinksBuilder (β : Type) where
  empty : β
  link : β → ℕ → ℕ → Result (β × ℕ)

/-- What the tables ask of `HashCommon`, which is not part of the repository: the size for an
expected number of elements at a load factor of three quarters. -/
structure HashCommon where
  arraySize : ℕ → Result ℕ
  powerOfTwo : ∀ {expected size}, arraySize expected = .ok size → ∃ k, size = 2 ^ (k + 1)
  above : ∀ {expected size}, arraySize expected = .ok size → expected < size
  refuses : ∀ {expected e}, arraySize expected = .error e →
    3 * 2 ^ 28 < expected ∧ ∃ message, e = .illegalArgument message

theorem HashCommon.two_le (hashCommon : HashCommon) {expected size : ℕ}
    (h : hashCommon.arraySize expected = .ok size) : 2 ≤ size := by
  obtain ⟨k, rfl⟩ := hashCommon.powerOfTwo h
  exact le_self_pow (succ_ne_zero k) 2

/-- The least power of two above the expected number. -/
def HashCommon.leastAbove : HashCommon where
  arraySize expected := .ok (2 ^ (Nat.log 2 expected + 1))
  powerOfTwo := by
    rintro expected size ⟨⟩
    exact ⟨_, rfl⟩
  above := by
    rintro expected size ⟨⟩
    exact lt_pow_succ_log_self one_lt_two expected
  refuses := by
    rintro expected e ⟨⟩

namespace PagesHash

variable {κ σ : Type*} {β : Type}

/-- Avalanches the bits of the hash and takes the low ones. -/
def getHashPosition (rawHash : UInt64) (hashSize : ℕ) : ℕ :=
  let rawHash := rawHash ^^^ (rawHash >>> 33)
  let rawHash := rawHash * 0xff51afd7ed558ccd
  let rawHash := rawHash ^^^ (rawHash >>> 33)
  let rawHash := rawHash * 0xc4ceb9fe1a85ec53
  let rawHash := rawHash ^^^ (rawHash >>> 33)
  rawHash.toNat % hashSize

/-- The state of the constructor.  A slot of `key` holds a position, or nothing where the code
has `-1`. -/
structure Building (β : Type) where
  key : List (Option ℕ)
  positionToHashes : ℕ → UInt8
  positionLinks : β

variable (strategy : PagesHashStrategy κ) (build : BuildSide κ σ)

/-- The first loop over a batch reads the hashes. -/
def readHashes (state : Building β) (positions : List ℕ) : Building β :=
  positions.foldl (fun state realPosition =>
    { state with
      positionToHashes := Function.update state.positionToHashes realPosition
        (strategy.hash (build.key realPosition)).toUInt8 }) state

/-- The slot holds a row whose key is the given one. -/
def holdsKey (positionToHashes : ℕ → UInt8) (hash : UInt64) (key : κ) : Option ℕ → Bool
  | none => false
  | some currentKey =>
      positionToHashes currentKey == hash.toUInt8 &&
        strategy.equalIgnoreNulls (build.key currentKey) key

/-- The loop that looks for an empty slot or for the slot of a key. -/
def findSlot (positionToHashes : ℕ → UInt8) (slots : List (Option ℕ)) (hash : UInt64) (key : κ) :
    Outcome ℕ :=
  match probe slots
      (fun slot => slot.isNone || holdsKey strategy build positionToHashes hash key slot)
      slots.length (getHashPosition hash slots.length) with
  | none => .error .diverges
  | some pos => .ok pos

/-- The second loop over a batch indexes one row; rows with a null key are left out. -/
def indexPosition (links : LinksBuilder β) (state : Building β) (realPosition : ℕ) (hash : UInt64) :
    Outcome (Building β) :=
  if strategy.isNull (build.key realPosition) then .ok state
  else do
    let pos ← findSlot strategy build state.positionToHashes state.key hash
      (build.key realPosition)
    match state.key[pos]?.join with
    | none => pure { state with key := state.key.set pos (some realPosition) }
    | some currentKey =>
        let linked ← ofResult (links.link state.positionLinks realPosition currentKey)
        pure { state with
          key := state.key.set pos (some linked.2)
          positionLinks := linked.1 }

/-- One batch of the constructor's loop. -/
def indexBatch (links : LinksBuilder β) (state : Building β) (positions : List ℕ) :
    Outcome (Building β) :=
  let positionToFullHashes := positions.map fun position => strategy.hash (build.key position)
  (positions.zip positionToFullHashes).foldlM
    (fun state entry => indexPosition strategy build links state entry.1 entry.2)
    (readHashes strategy build state positions)

/-- The number of rows of a batch: as many integers as the cache of 128 kilobytes has room
for at 32 bytes each. -/
def positionsInStep (positionCount : ℕ) : ℕ := min (positionCount + 1) (128 * 1024 / 32)

/-- The rows of a batch. -/
def stepPositions (positionCount step : ℕ) : List ℕ :=
  let stepBeginPosition := step * positionsInStep positionCount
  let stepEndPosition := min ((step + 1) * positionsInStep positionCount) positionCount
  List.range' stepBeginPosition (stepEndPosition - stepBeginPosition)

end PagesHash

/-- The finished table. -/
structure PagesHash where
  key : List (Option ℕ)
  positionToHashes : ℕ → UInt8

namespace PagesHash

variable {κ σ : Type*} {β : Type}

/-- The constructor, with the links it has built.  Its loop runs over the steps that begin no
later than at the number of rows. -/
def create (hashCommon : HashCommon) (strategy : PagesHashStrategy κ) (build : BuildSide κ σ)
    (links : LinksBuilder β) : Outcome (PagesHash × β) := do
  let hashSize ← ofResult (hashCommon.arraySize build.positionCount)
  let state ← (List.range (build.positionCount / positionsInStep build.positionCount + 1)).foldlM
    (fun state step =>
      indexBatch strategy build links state (stepPositions build.positionCount step))
    (⟨List.replicate hashSize none, fun _ => 0, links.empty⟩ : Building β)
  pure (⟨state.key, state.positionToHashes⟩, state.positionLinks)

/-- The head of the chain for the key of a probe row, or nothing where the code returns `-1`. -/
def getAddressIndex (pagesHash : PagesHash) (strategy : PagesHashStrategy κ)
    (build : BuildSide κ σ) (rowKey : κ) (rawHash : UInt64) : Outcome (Option ℕ) := do
  let pos ← findSlot strategy build pagesHash.positionToHashes pagesHash.key rawHash rowKey
  pure pagesHash.key[pos]?.join

end PagesHash

/-! ## The table while it is filled -/

/-- The laws of a builder of links.  `Chain b head l` says that the rows `l` are chained under
`head`; a row that is not `kept` may be dropped from a chain. -/
structure LinksBuilder.Lawful {β : Type} (links : LinksBuilder β)
    (Chain : β → ℕ → List ℕ → Prop) (kept : ℕ → Bool) : Prop where
  head_mem : ∀ {b head l}, Chain b head l → head ∈ l
  empty : ∀ position, Chain links.empty position [position]
  link : ∀ {b new head l}, Chain b head l → l.Nodup → new ∉ l → Chain b new [new] →
    ∃ b' head' l', links.link b new head = .ok (b', head') ∧ (head' = new ∨ head' = head) ∧
      Chain b' head' l' ∧ l'.Nodup ∧ (∀ p ∈ l', p = new ∨ p ∈ l) ∧
      (∀ p, kept p = true → p = new ∨ p ∈ l → p ∈ l') ∧
      ∀ other rest, Chain b other rest → new ∉ rest → head ∉ rest → Chain b' other rest

namespace PagesHash

variable {κ σ : Type*} {β : Type}

section Filling

variable (strategy : PagesHashStrategy κ) (build : BuildSide κ σ)

/-- The row at a position can be indexed. -/
def NonNull (position : ℕ) : Prop := strategy.isNull (build.key position) = false

/-- The rows at two positions have equal keys. -/
def SameKey (position other : ℕ) : Prop :=
  strategy.equalIgnoreNulls (build.key position) (build.key other) = true

/-- Where probing for the row of a slot starts. -/
def home (hashSize : ℕ) : Option ℕ → ℕ
  | none => 0
  | some position => getHashPosition (strategy.hash (build.key position)) hashSize

/-- The hashes of the first rows have been read. -/
def HashesRead (count : ℕ) (positionToHashes : ℕ → UInt8) : Prop :=
  ∀ position < count,
    positionToHashes position = (strategy.hash (build.key position)).toUInt8

/-- What the constructor has built from the first `n` rows: each of them is in the chain of
one slot, the slot of its key. -/
structure Indexed (Chain : β → ℕ → List ℕ → Prop) (kept : ℕ → Bool) (hashSize n : ℕ)
    (slots : List (Option ℕ)) (positionLinks : β) : Prop where
  length : slots.length = hashSize
  reachable : Reachable Option.isNone (home strategy build hashSize) slots
  room : hashSize ≤ slots.countP Option.isNone + n
  chain : ∀ head, some head ∈ slots → ∃ l, Chain positionLinks head l ∧ l.Nodup ∧
    (∀ p ∈ l, p < n ∧ NonNull strategy build p ∧ SameKey strategy build head p) ∧
    ∀ p < n, NonNull strategy build p → SameKey strategy build head p → kept p = true → p ∈ l
  covered : ∀ p < n, NonNull strategy build p →
    ∃ head, some head ∈ slots ∧ SameKey strategy build head p
  apart : ∀ (i j head head' : ℕ), slots[i]? = some (some head) → slots[j]? = some (some head') →
    SameKey strategy build head head' → i = j
  fresh : ∀ p, n ≤ p → Chain positionLinks p [p]

end Filling

variable {strategy : PagesHashStrategy κ} {build : BuildSide κ σ} {links : LinksBuilder β}
  {Chain : β → ℕ → List ℕ → Prop} {kept : ℕ → Bool} {hashSize n : ℕ}
  {slots : List (Option ℕ)} {positionLinks : β} {positionToHashes : ℕ → UInt8}

theorem indexed_empty (hlinks : links.Lawful Chain kept) :
    Indexed strategy build Chain kept hashSize 0 (replicate hashSize none) links.empty where
  length := length_replicate
  reachable := reachable_replicate rfl hashSize
  room := by simp [countP_replicate]
  chain := by simp
  covered := by simp
  apart := by
    intro i j head head' hi
    have hmem := mem_of_getElem? hi
    simp at hmem
  fresh := fun p _ => hlinks.empty p

theorem SameKey.symm (hstrategy : strategy.Lawful) {p q : ℕ} (hp : NonNull strategy build p)
    (hq : NonNull strategy build q) (h : SameKey strategy build p q) : SameKey strategy build q p :=
  hstrategy.symm _ _ hp hq h

theorem SameKey.trans (hstrategy : strategy.Lawful) {p q r : ℕ} (hp : NonNull strategy build p)
    (hq : NonNull strategy build q) (hr : NonNull strategy build r)
    (hpq : SameKey strategy build p q) (hqr : SameKey strategy build q r) :
    SameKey strategy build p r :=
  hstrategy.trans _ _ _ hp hq hr hpq hqr

/-- A row with a null key is left out. -/
theorem Indexed.skip (h : Indexed strategy build Chain kept hashSize n slots positionLinks)
    (hnull : ¬NonNull strategy build n) :
    Indexed strategy build Chain kept hashSize (n + 1) slots positionLinks := by
  have hlt : ∀ p < n + 1, NonNull strategy build p → p < n := by
    intro p hp hnonnull
    refine lt_of_le_of_ne (le_of_lt_succ hp) ?_
    rintro rfl
    exact hnull hnonnull
  refine ⟨h.length, h.reachable, h.room.trans (le_succ _), ?_, ?_, h.apart, ?_⟩
  · intro head hhead
    obtain ⟨l, hchain, hnodup, hmembers, hall⟩ := h.chain head hhead
    refine ⟨l, hchain, hnodup, ?_, ?_⟩
    · intro p hp
      obtain ⟨hpn, hrest⟩ := hmembers p hp
      exact ⟨hpn.trans (lt_succ_self n), hrest⟩
    · intro p hp hnonnull
      exact hall p (hlt p hp hnonnull) hnonnull
  · intro p hp hnonnull
    exact h.covered p (hlt p hp hnonnull) hnonnull
  · intro p hp
    exact h.fresh p (by omega)

section Keys

variable (h : Indexed strategy build Chain kept hashSize n slots positionLinks)
  (hlinks : links.Lawful Chain kept)

include h hlinks

variable {head : ℕ}

/-- A head is one of the rows that are already indexed. -/
theorem Indexed.head_spec (hhead : some head ∈ slots) : head < n ∧ NonNull strategy build head := by
  obtain ⟨l, hchain, -, hmembers, -⟩ := h.chain head hhead
  obtain ⟨hlt, hnonnull, -⟩ := hmembers head (hlinks.head_mem hchain)
  exact ⟨hlt, hnonnull⟩

variable (hstrategy : strategy.Lawful)

include hstrategy

/-- The comparison of one hash byte never hides an equal key. -/
theorem Indexed.holdsKey (hhashes : HashesRead strategy build n positionToHashes)
    (hhead : some head ∈ slots) {key : κ} (hkey : strategy.isNull key = false) :
    holdsKey strategy build positionToHashes (strategy.hash key) key (some head) =
      strategy.equalIgnoreNulls (build.key head) key := by
  obtain ⟨hlt, hnonnull⟩ := h.head_spec hlinks hhead
  rw [PagesHash.holdsKey, hhashes head hlt]
  cases hequal : strategy.equalIgnoreNulls (build.key head) key with
  | false => exact Bool.and_false _
  | true =>
      rw [hstrategy.hash _ _ hnonnull hkey hequal, Bool.and_true]
      exact beq_self_eq_true _

/-- Looking for a non-null key ends, at the slot of the key if there is one. -/
theorem Indexed.findSlot (hhashes : HashesRead strategy build n positionToHashes)
    (hn : n < hashSize) {key : κ} (hkey : strategy.isNull key = false) :
    ∃ pos slot,
      findSlot strategy build positionToHashes slots (strategy.hash key) key = .ok pos ∧
      Found isNone
        (PagesHash.holdsKey strategy build positionToHashes (strategy.hash key) key) slots
        (getHashPosition (strategy.hash key) hashSize) pos slot ∧
      (slot = none → ∀ head, some head ∈ slots →
        strategy.equalIgnoreNulls (build.key head) key = false) ∧
      ∀ head, slot = some head →
        some head ∈ slots ∧ strategy.equalIgnoreNulls (build.key head) key = true := by
  have hroom := h.room
  have hfree : ∃ slot ∈ slots, slot.isNone = true := countP_pos_iff.mp (by omega)
  have hhome : ∀ slot ∈ slots, slot.isNone = false →
      PagesHash.holdsKey strategy build positionToHashes (strategy.hash key) key slot = true →
      home strategy build hashSize slot = getHashPosition (strategy.hash key) hashSize := by
    intro slot hslot hsome hholds
    cases slot with
    | none => cases hsome
    | some head =>
        rw [h.holdsKey hlinks hstrategy hhashes hslot hkey] at hholds
        rw [home, hstrategy.hash _ _ (h.head_spec hlinks hslot).2 hkey hholds]
  obtain ⟨pos, slot, hprobe, hfound⟩ :=
    exists_probe_key h.reachable
      (hfree.imp fun _ hslot => ⟨hslot.1, .inl hslot.2⟩) hhome
  refine ⟨pos, slot, ?_, hfound, ?_, ?_⟩
  · rw [h.length] at hprobe
    rw [PagesHash.findSlot, h.length, hprobe]
  · rintro rfl head hhead
    rw [← h.holdsKey hlinks hstrategy hhashes hhead hkey]
    exact hfound.missing rfl (some head) hhead rfl
  · rintro head rfl
    have hhead : some head ∈ slots := mem_of_getElem? hfound.getElem?
    rw [← h.holdsKey hlinks hstrategy hhashes hhead hkey]
    exact ⟨hhead, hfound.stored rfl⟩

/-- The slot that was found gets a head with the key that was looked for; the chain of that
head and the chains of the other slots are as they should be. -/
theorem Indexed.set {same : Option ℕ → Bool} {pos : ℕ} {slot : Option ℕ} {positionLinks' : β}
    {l : List ℕ} (hnonnull : NonNull strategy build n)
    (hfound : Found isNone same slots
      (getHashPosition (strategy.hash (build.key n)) hashSize) pos slot)
    (hslot : ∀ old, slot = some old → SameKey strategy build old n)
    (hothers : ∀ other i, slots[i]? = some (some other) → i ≠ pos →
      ¬SameKey strategy build other n)
    (hchain : Chain positionLinks' head l) (hnodup : l.Nodup)
    (hmembers : ∀ p ∈ l, p < n + 1 ∧ NonNull strategy build p ∧ SameKey strategy build n p)
    (hall : ∀ p < n + 1, NonNull strategy build p → SameKey strategy build n p →
      kept p = true → p ∈ l)
    (hframe : ∀ other i rest, slots[i]? = some (some other) → i ≠ pos →
      Chain positionLinks other rest → (∀ p ∈ rest, p < n ∧ NonNull strategy build p ∧
        SameKey strategy build other p) → Chain positionLinks' other rest)
    (hfresh : ∀ p, n + 1 ≤ p → Chain positionLinks' p [p]) :
    Indexed strategy build Chain kept hashSize (n + 1) (slots.set pos (some head))
      positionLinks' := by
  have hpos : pos < slots.length := (List.getElem?_eq_some_iff.mp hfound.getElem?).1
  obtain ⟨-, hheadNonnull, hheadSame⟩ := hmembers head (hlinks.head_mem hchain)
  have hhome : home strategy build hashSize (some head) =
      getHashPosition (strategy.hash (build.key n)) hashSize := by
    rw [home, hstrategy.hash _ _ hnonnull hheadNonnull hheadSame]
  have hheadTrans : ∀ p, NonNull strategy build p →
      (SameKey strategy build head p ↔ SameKey strategy build n p) := by
    intro p hp
    constructor
    · exact SameKey.trans hstrategy hnonnull hheadNonnull hp hheadSame
    · exact SameKey.trans hstrategy hheadNonnull hnonnull hp
        (hheadSame.symm hstrategy hnonnull hheadNonnull)
  have hcases : ∀ (other i : ℕ), (slots.set pos (some head))[i]? = some (some other) →
      i = pos ∧ other = head ∨ i ≠ pos ∧ slots[i]? = some (some other) := by
    intro other i hi
    simpa only [some.injEq] using ListUpdates.getElem?_set_cases hi
  refine ⟨?_, ?_, ?_, ?_, ?_, ?_, hfresh⟩
  · rw [length_set, h.length]
  · exact reachable_set h.reachable (hhome ▸ hfound) rfl
  · have hcount : slots.countP isNone ≤
        (slots.set pos (some head)).countP isNone + 1 :=
      countP_free_set hfound.getElem?
    have hroom := h.room
    omega
  · intro other hother
    obtain ⟨i, hi⟩ := mem_iff_getElem?.mp hother
    rcases hcases other i hi with ⟨-, rfl⟩ | ⟨hne, hi⟩
    · refine ⟨l, hchain, hnodup, ?_, ?_⟩
      · intro p hp
        obtain ⟨hpn, hpnonnull, hsame⟩ := hmembers p hp
        exact ⟨hpn, hpnonnull, (hheadTrans p hpnonnull).mpr hsame⟩
      · intro p hpn hpnonnull hsame
        exact hall p hpn hpnonnull ((hheadTrans p hpnonnull).mp hsame)
    · obtain ⟨rest, hrest, hrestNodup, hrestMembers, hrestAll⟩ :=
        h.chain other (mem_of_getElem? hi)
      refine ⟨rest, hframe other i rest hi hne hrest hrestMembers, hrestNodup, ?_, ?_⟩
      · intro p hp
        obtain ⟨hpn, hp'⟩ := hrestMembers p hp
        exact ⟨hpn.trans (lt_succ_self n), hp'⟩
      · intro p hpn hpnonnull hsame hkept
        rcases Nat.lt_succ_iff_lt_or_eq.mp hpn with hlt | rfl
        · exact hrestAll p hlt hpnonnull hsame hkept
        · exact absurd hsame (hothers other i hi hne)
  · intro p hpn hpnonnull
    by_cases hsame : SameKey strategy build n p
    · exact ⟨head, mem_set hpos _, (hheadTrans p hpnonnull).mpr hsame⟩
    · have hlt : p < n := by
        refine lt_of_le_of_ne (le_of_lt_succ hpn) ?_
        rintro rfl
        exact hsame (hstrategy.refl _ hpnonnull)
      obtain ⟨other, hother, hotherSame⟩ := h.covered p hlt hpnonnull
      obtain ⟨i, hi⟩ := mem_iff_getElem?.mp hother
      by_cases heq : pos = i
      · have hold : slot = some other := by
          rw [← heq, hfound.getElem?] at hi
          exact some.inj hi
        obtain ⟨-, hotherNonnull⟩ := h.head_spec hlinks hother
        have hsymm := (hslot other hold).symm hstrategy hotherNonnull hnonnull
        exact absurd (hsymm.trans hstrategy hnonnull hotherNonnull hpnonnull hotherSame) hsame
      · refine ⟨other, mem_of_getElem? (i := i) ?_, hotherSame⟩
        rw [getElem?_set_ne heq]
        exact hi
  · intro i j first second hi hj hsame
    have hne : ∀ other k, slots[k]? = some (some other) → k ≠ pos →
        ¬SameKey strategy build head other := by
      intro other k hk hkpos hheadOther
      obtain ⟨-, hotherNonnull⟩ := h.head_spec hlinks (mem_of_getElem? hk)
      have hother := (hheadTrans other hotherNonnull).mp hheadOther
      exact hothers other k hk hkpos (hother.symm hstrategy hnonnull hotherNonnull)
    rcases hcases first i hi, hcases second j hj with
      ⟨⟨rfl, rfl⟩ | ⟨hipos, hi'⟩, ⟨rfl, rfl⟩ | ⟨hjpos, hj'⟩⟩
    · rfl
    · exact absurd hsame (hne second j hj' hjpos)
    · obtain ⟨-, hfirstNonnull⟩ := h.head_spec hlinks (mem_of_getElem? hi')
      exact absurd (hsame.symm hstrategy hfirstNonnull hheadNonnull) (hne first i hi' hipos)
    · exact h.apart i j first second hi' hj' hsame

end Keys

variable {state : Building β}

/-- Indexing one row. -/
theorem Indexed.indexPosition
    (h : Indexed strategy build Chain kept hashSize n state.key state.positionLinks)
    (hstrategy : strategy.Lawful) (hlinks : links.Lawful Chain kept)
    (hhashes : HashesRead strategy build n state.positionToHashes) (hn : n < hashSize) :
    ∃ state',
      indexPosition strategy build links state n (strategy.hash (build.key n)) = .ok state' ∧
      Indexed strategy build Chain kept hashSize (n + 1) state'.key state'.positionLinks ∧
      state'.positionToHashes = state.positionToHashes := by
  rw [PagesHash.indexPosition]
  by_cases hnull : strategy.isNull (build.key n) = true
  · exact ⟨state, if_pos hnull, h.skip (by simp [NonNull, hnull]), rfl⟩
  have hnonnull : NonNull strategy build n := Bool.eq_false_iff.mpr hnull
  obtain ⟨pos, slot, hfind, hfound, hmissing, hstored⟩ :=
    h.findSlot hlinks hstrategy hhashes hn hnonnull
  rw [if_neg hnull, hfind, bind_ok, hfound.getElem?]
  cases slot with
  | none =>
      -- a new key
      have hnew : ∀ other, some other ∈ state.key → ¬SameKey strategy build other n := by
        intro other hother hsame
        exact Bool.false_ne_true ((hmissing rfl other hother).symm.trans hsame)
      refine ⟨_, rfl, h.set hlinks hstrategy (l := [n]) hnonnull hfound nofun ?_ ?_ ?_ ?_ ?_ ?_ ?_,
        rfl⟩
      · intro other i hi _
        exact hnew other (mem_of_getElem? hi)
      · exact h.fresh n le_rfl
      · simp
      · intro p hp
        obtain rfl := mem_singleton.mp hp
        exact ⟨lt_succ_self p, hnonnull, hstrategy.refl _ hnonnull⟩
      · intro p hp hpnonnull hsame _
        rcases Nat.lt_succ_iff_lt_or_eq.mp hp with hlt | rfl
        · obtain ⟨other, hother, hotherSame⟩ := h.covered p hlt hpnonnull
          obtain ⟨-, hotherNonnull⟩ := h.head_spec hlinks hother
          exact absurd (hotherSame.trans hstrategy hotherNonnull hpnonnull hnonnull
            (hsame.symm hstrategy hnonnull hpnonnull)) (hnew other hother)
        · exact mem_singleton_self p
      · intro other i rest _ _ hrest _
        exact hrest
      · intro p hp
        exact h.fresh p (by omega)
  | some head =>
      obtain ⟨hmem, (hsame : SameKey strategy build head n)⟩ := hstored head rfl
      obtain ⟨-, hheadNonnull⟩ := h.head_spec hlinks hmem
      have hsame' := hsame.symm hstrategy hheadNonnull hnonnull
      obtain ⟨l, hchain, hnodup, hmembers, hall⟩ := h.chain head hmem
      have hfreshN : n ∉ l := fun hin => absurd (hmembers n hin).1 (lt_irrefl n)
      obtain ⟨links', head', l', hlink, hhead', hchain', hnodup', hsub, hkept, hframe⟩ :=
        hlinks.link hchain hnodup hfreshN (h.fresh n le_rfl)
      have hothers : ∀ other i, state.key[i]? = some (some other) → i ≠ pos →
          ¬SameKey strategy build other n := by
        intro other i hi hne hother
        obtain ⟨-, hotherNonnull⟩ := h.head_spec hlinks (mem_of_getElem? hi)
        exact hne (h.apart i pos other head hi hfound.getElem?
          (hother.trans hstrategy hotherNonnull hnonnull hheadNonnull hsame'))
      simp only [hlink, join_some]
      refine ⟨_, rfl, h.set hlinks hstrategy hnonnull hfound ?_ hothers hchain' hnodup' ?_ ?_ ?_ ?_,
        rfl⟩
      · intro old hold
        exact some.inj hold ▸ hsame
      · intro p hp
        rcases hsub p hp with rfl | hpl
        · exact ⟨lt_succ_self p, hnonnull, hstrategy.refl _ hnonnull⟩
        · obtain ⟨hpn, hpnonnull, hheadSame⟩ := hmembers p hpl
          exact ⟨hpn.trans (lt_succ_self n), hpnonnull,
            hsame'.trans hstrategy hnonnull hheadNonnull hpnonnull hheadSame⟩
      · intro p hp hpnonnull hpsame hpkept
        rcases Nat.lt_succ_iff_lt_or_eq.mp hp with hlt | rfl
        · refine hkept p hpkept (Or.inr (hall p hlt hpnonnull ?_ hpkept))
          exact hsame.trans hstrategy hheadNonnull hnonnull hpnonnull hpsame
        · exact hkept p hpkept (Or.inl rfl)
      · intro other i rest hi hne hrest hrestMembers
        refine hframe other rest hrest ?_ ?_
        · intro hin
          exact absurd (hrestMembers n hin).1 (lt_irrefl n)
        · intro hin
          obtain ⟨-, hotherNonnull⟩ := h.head_spec hlinks (mem_of_getElem? hi)
          obtain ⟨-, -, hotherHead⟩ := hrestMembers head hin
          exact hothers other i hi hne
            (hotherHead.trans hstrategy hotherNonnull hheadNonnull hnonnull hsame)
      · intro p hp
        refine hframe p [p] (h.fresh p (by omega)) ?_ ?_
        · rw [mem_singleton]
          omega
        · rw [mem_singleton]
          have hheadLt := (h.head_spec hlinks hmem).1
          omega

/-! ## The constructor -/

theorem readHashes_spec (state : Building β) (first count : ℕ)
    (hhashes : HashesRead strategy build first state.positionToHashes) :
    ∃ positionToHashes',
      readHashes strategy build state (range' first count) =
        { state with positionToHashes := positionToHashes' } ∧
      HashesRead strategy build (first + count) positionToHashes' := by
  induction count generalizing first state with
  | zero => exact ⟨state.positionToHashes, rfl, hhashes⟩
  | succ count ih =>
      have hread : HashesRead strategy build (first + 1)
          (Function.update state.positionToHashes first
            (strategy.hash (build.key first)).toUInt8) := by
        intro position hposition
        by_cases heq : position = first
        · rw [heq, Function.update_self]
        · rw [Function.update_of_ne heq]
          exact hhashes position (by omega)
      obtain ⟨positionToHashes', heq, hall⟩ :=
        ih { state with positionToHashes := _ } (first + 1) hread
      refine ⟨positionToHashes', ?_, by rwa [show first + (count + 1) = first + 1 + count by omega]⟩
      exact heq

/-- Indexing one batch. -/
theorem Indexed.indexBatch {count : ℕ}
    (h : Indexed strategy build Chain kept hashSize n state.key state.positionLinks)
    (hstrategy : strategy.Lawful) (hlinks : links.Lawful Chain kept)
    (hhashes : HashesRead strategy build n state.positionToHashes) (hn : n + count ≤ hashSize) :
    ∃ state', indexBatch strategy build links state (range' n count) = .ok state' ∧
      Indexed strategy build Chain kept hashSize (n + count) state'.key state'.positionLinks ∧
      HashesRead strategy build (n + count) state'.positionToHashes := by
  obtain ⟨positionToHashes', hread, hall⟩ := readHashes_spec state n count hhashes
  rw [PagesHash.indexBatch]
  simp only [zip, zipWith_map_right, zipWith_self, foldlM_map, hread]
  refine foldlM_range_spec (I := fun i (state : Building β) =>
    Indexed strategy build Chain kept hashSize i state.key state.positionLinks ∧
      HashesRead strategy build (n + count) state.positionToHashes) ?_ ⟨h, hall⟩
  rintro i hi state ⟨hindexed, hknown⟩
  obtain ⟨state', hstate', hnext, hsame⟩ := hindexed.indexPosition hstrategy hlinks
    (fun position hposition => hknown position (hposition.trans hi)) (by omega)
  exact ⟨state', hstate', hnext, hsame ▸ hknown⟩

theorem stepPositions_eq (positionCount step : ℕ)
    (hstep : step * positionsInStep positionCount ≤ positionCount) :
    ∃ count, stepPositions positionCount step =
        range' (step * positionsInStep positionCount) count ∧
      step * positionsInStep positionCount + count =
        min ((step + 1) * positionsInStep positionCount) positionCount := by
  refine ⟨_, rfl, ?_⟩
  have hle : step * positionsInStep positionCount ≤ (step + 1) * positionsInStep positionCount :=
    mul_le_mul_right _ (le_succ step)
  omega

/-- The constructor returns unless there are too many rows, and has indexed all of them. -/
theorem create_spec (hashCommon : HashCommon)
    (hstrategy : strategy.Lawful) (build : BuildSide κ σ) (hlinks : links.Lawful Chain kept) :
    (∃ pagesHash positionLinks hashSize,
      create hashCommon strategy build links = .ok (pagesHash, positionLinks) ∧
      build.positionCount < hashSize ∧
      HashesRead strategy build build.positionCount pagesHash.positionToHashes ∧
      Indexed strategy build Chain kept hashSize build.positionCount pagesHash.key
        positionLinks) ∨
    3 * 2 ^ 28 < build.positionCount ∧
      ∃ message,
        create hashCommon strategy build links = .error (.throws (.illegalArgument message)) := by
  cases hsize : hashCommon.arraySize build.positionCount with
  | error e =>
      obtain ⟨hlarge, message, rfl⟩ := hashCommon.refuses hsize
      refine Or.inr ⟨hlarge, message, ?_⟩
      rw [create, hsize]
      rfl
  | ok hashSize =>
    have hroom := hashCommon.above hsize
    refine Or.inl ?_
    obtain ⟨step, hstepEq⟩ : ∃ step, step = positionsInStep build.positionCount := ⟨_, rfl⟩
    have hpositive : 0 < step := by
      rw [hstepEq, positionsInStep]
      omega
    let I : ℕ → Building β → Prop := fun i state =>
      Indexed strategy build Chain kept hashSize (min (i * step) build.positionCount)
          state.key state.positionLinks ∧
        HashesRead strategy build (min (i * step) build.positionCount) state.positionToHashes
    have hround : ∀ i < 0 + (build.positionCount / step + 1), ∀ state, I i state →
        ∃ state', indexBatch strategy build links state
          (stepPositions build.positionCount i) = .ok state' ∧ I (i + 1) state' := by
      rintro i hi state ⟨hindexed, hhashes⟩
      have hbegin : i * step ≤ build.positionCount :=
        (Nat.mul_le_mul_right step (by omega)).trans (Nat.div_mul_le_self _ _)
      rw [hstepEq] at hbegin
      obtain ⟨count, hpositions, hcount⟩ := stepPositions_eq build.positionCount i hbegin
      rw [← hstepEq] at hpositions hcount hbegin
      rw [min_eq_left hbegin] at hindexed hhashes
      simp only [I, hpositions, ← hcount]
      exact hindexed.indexBatch hstrategy hlinks hhashes (by omega)
    have hstart : I 0 ⟨replicate hashSize none, fun _ => 0, links.empty⟩ := by
      simp only [I, zero_mul]
      exact ⟨indexed_empty hlinks, nofun⟩
    obtain ⟨state, hfold, hindexed, hhashes⟩ := foldlM_range_spec hround hstart
    have hend : min ((0 + (build.positionCount / step + 1)) * step) build.positionCount =
        build.positionCount := by
      refine min_eq_right ?_
      have hdiv := lt_div_mul_add hpositive (a := build.positionCount)
      rw [zero_add, add_mul, one_mul]
      exact hdiv.le
    rw [hend] at hindexed hhashes
    refine ⟨⟨state.key, state.positionToHashes⟩, state.positionLinks, hashSize, ?_, hroom, hhashes,
      hindexed⟩
    rw [create, hsize, range_eq_range', ← hstepEq]
    simp only [ofResult, bind_ok, hfold]
    rfl

/-- Looking up a non-null key returns the head of the chain of all rows with that key. -/
theorem getAddressIndex_spec {pagesHash : PagesHash} {positionLinks : β}
    (h : Indexed strategy build Chain kept hashSize n pagesHash.key positionLinks)
    (hstrategy : strategy.Lawful) (hlinks : links.Lawful Chain kept)
    (hhashes : HashesRead strategy build n pagesHash.positionToHashes) (hn : n < hashSize)
    {key : κ} (hkey : strategy.isNull key = false) :
    (pagesHash.getAddressIndex strategy build key (strategy.hash key) = .ok none ∧
      ∀ p < n, NonNull strategy build p →
        strategy.equalIgnoreNulls (build.key p) key = false) ∨
    ∃ head l, pagesHash.getAddressIndex strategy build key (strategy.hash key) = .ok (some head) ∧
      Chain positionLinks head l ∧ l.Nodup ∧
      (∀ p ∈ l, p < n ∧ NonNull strategy build p ∧
        strategy.equalIgnoreNulls (build.key p) key = true) ∧
      ∀ p < n, NonNull strategy build p → strategy.equalIgnoreNulls (build.key p) key = true →
        kept p = true → p ∈ l := by
  obtain ⟨pos, slot, hfind, hfound, hmissing, hstored⟩ :=
    h.findSlot hlinks hstrategy hhashes hn hkey
  have hget : pagesHash.getAddressIndex strategy build key (strategy.hash key) = .ok slot := by
    rw [getAddressIndex, hfind, bind_ok, hfound.getElem?]
    rfl
  rw [hget]
  cases slot with
  | none =>
      refine Or.inl ⟨rfl, ?_⟩
      intro p hp hnonnull
      by_contra hequal
      rw [Bool.not_eq_false] at hequal
      obtain ⟨head, hhead, hsame⟩ := h.covered p hp hnonnull
      obtain ⟨-, hheadNonnull⟩ := h.head_spec hlinks hhead
      have hnot := hmissing rfl head hhead
      rw [hstrategy.trans _ _ _ hheadNonnull hnonnull hkey hsame hequal] at hnot
      cases hnot
  | some head =>
      obtain ⟨hmem, hequal⟩ := hstored head rfl
      obtain ⟨-, hheadNonnull⟩ := h.head_spec hlinks hmem
      obtain ⟨l, hchain, hnodup, hmembers, hall⟩ := h.chain head hmem
      refine Or.inr ⟨head, l, rfl, hchain, hnodup, ?_, ?_⟩
      · intro p hp
        obtain ⟨hpn, hpnonnull, hsame⟩ := hmembers p hp
        have hsymm := hsame.symm hstrategy hheadNonnull hpnonnull
        exact ⟨hpn, hpnonnull, hstrategy.trans _ _ _ hpnonnull hheadNonnull hkey hsymm hequal⟩
      · intro p hpn hpnonnull hpequal hkept
        refine hall p hpn hpnonnull ?_ hkept
        exact hstrategy.trans _ _ _ hheadNonnull hkey hpnonnull hequal
          (hstrategy.symm _ _ hpnonnull hkey hpequal)

end PagesHash
end Presto.Operator
