import Mathlib.Data.List.Perm.Subperm
import Presto.Operator.PagesHash

/-!
# Join lookup

`JoinHash` answers a probe row with the build rows of its key, one after the other: the first
from the table, the following ones from the position links.  Without a sort channel the links
are one array, `ArrayPositionLinks`.
-/

namespace Presto.Operator

open List

variable {κ σ : Type*} {ρ : Type}

/-! ## Position links -/

/-- The links as a lookup uses them, for a probe row; nothing is returned where the code
returns `-1`. -/
structure PositionLinks (ρ : Type) where
  start : ℕ → ρ → Result (Option ℕ)
  next : ℕ → ρ → Result (Option ℕ)

/-- The builder of links in one array. -/
structure ArrayPositionLinks where
  positionLinks : ℕ → Option ℕ
  size : ℕ

namespace ArrayPositionLinks

def empty : ArrayPositionLinks := ⟨fun _ => none, 0⟩

def link (builder : ArrayPositionLinks) (left right : ℕ) : ArrayPositionLinks × ℕ :=
  (⟨Function.update builder.positionLinks left (some right), builder.size + 1⟩, left)

def builder : LinksBuilder ArrayPositionLinks where
  empty := empty
  link b left right := .ok (b.link left right)

def create (builder : ArrayPositionLinks) : PositionLinks ρ where
  start position _ := .ok (some position)
  next position _ := .ok (builder.positionLinks position)

end ArrayPositionLinks

/-! ## Lookup -/

structure JoinHash (ρ : Type) where
  pagesHash : PagesHash
  positionLinks : Option (PositionLinks ρ)

namespace JoinHash

def startJoinPosition (joinHash : JoinHash ρ) (row : ρ) : Option ℕ → Result (Option ℕ)
  | none => .ok none
  | some currentJoinPosition =>
      match joinHash.positionLinks with
      | none => .ok (some currentJoinPosition)
      | some links => links.start currentJoinPosition row

def getJoinPosition (joinHash : JoinHash ρ) (strategy : PagesHashStrategy κ)
    (build : BuildSide κ σ) (rowKey : κ) (row : ρ) : Outcome (Option ℕ) := do
  let addressIndex ← joinHash.pagesHash.getAddressIndex strategy build rowKey
    (strategy.hash rowKey)
  Outcome.ofResult (joinHash.startJoinPosition row addressIndex)

def getNextJoinPosition (joinHash : JoinHash ρ) (currentJoinPosition : ℕ) (row : ρ) :
    Result (Option ℕ) :=
  match joinHash.positionLinks with
  | none => .ok none
  | some links => links.next currentJoinPosition row

/-- The positions from the given one on that a caller visits in the given number of rounds. -/
def follow (joinHash : JoinHash ρ) (row : ρ) : ℕ → Option ℕ → Outcome (List ℕ)
  | _, none => .ok []
  | 0, some _ => .error .diverges
  | rounds + 1, some position => do
      let nextPosition ← Outcome.ofResult (joinHash.getNextJoinPosition position row)
      let positions ← joinHash.follow row rounds nextPosition
      pure (position :: positions)

/-- The positions that a caller visits for a probe row, with a round for each build row. -/
def joinPositions (joinHash : JoinHash ρ) (strategy : PagesHashStrategy κ)
    (build : BuildSide κ σ) (rowKey : κ) (row : ρ) : Outcome (List ℕ) := do
  let position ← joinHash.getJoinPosition strategy build rowKey row
  joinHash.follow row build.positionCount position

end JoinHash

/-- The supplier of a lookup without a sort channel. -/
def joinHashSupplier (hashCommon : HashCommon) (strategy : PagesHashStrategy κ)
    (build : BuildSide κ σ) : Outcome (JoinHash ρ) := do
  let built ← PagesHash.create hashCommon strategy build ArrayPositionLinks.builder
  pure ⟨built.1, if built.2.size = 0 then none else some built.2.create⟩

/-! ## The chains of the array -/

namespace ArrayPositionLinks

/-- The rows are linked one after the other and the last one has no link. -/
def Linked (positionLinks : ℕ → Option ℕ) : List ℕ → Prop
  | [] => False
  | [position] => positionLinks position = none
  | position :: next :: rest =>
      positionLinks position = some next ∧ Linked positionLinks (next :: rest)

/-- The rows chained under a head. -/
def Chain (builder : ArrayPositionLinks) (head : ℕ) (l : List ℕ) : Prop :=
  l.head? = some head ∧ Linked builder.positionLinks l ∧
    (builder.size = 0 → l = [head])

variable {l : List ℕ}

/-- Only the links of its own rows matter to a chain. -/
theorem Linked.congr {positionLinks other : ℕ → Option ℕ} (h : Linked positionLinks l)
    (hsame : ∀ p ∈ l, other p = positionLinks p) : Linked other l := by
  induction l with
  | nil => exact h
  | cons first rest ih =>
      cases rest with
      | nil =>
          rw [Linked, hsame first mem_cons_self]
          exact h
      | cons second rest =>
          rw [Linked, hsame first mem_cons_self]
          exact ⟨h.1, ih h.2 fun p hp => hsame p (mem_cons_of_mem _ hp)⟩

variable {positionLinks : ℕ → Option ℕ}

theorem Linked.of_append {before after : List ℕ} {p : ℕ}
    (h : Linked positionLinks (before ++ p :: after)) : Linked positionLinks (p :: after) := by
  induction before with
  | nil => exact h
  | cons first before ih =>
      refine ih ?_
      cases before with
      | nil | cons _ _ => exact h.2

theorem Linked.update (h : Linked positionLinks l) {position : ℕ}
    (hposition : position ∉ l) (link : Option ℕ) :
    Linked (Function.update positionLinks position link) l := by
  refine h.congr fun p hp => Function.update_of_ne ?_ _ _
  rintro rfl
  exact hposition hp

/-- Links that stop at the first row failing a test link the rows before it. -/
theorem Linked.takeWhile {p : ℕ} {after : List ℕ} (h : Linked positionLinks (p :: after))
    (test : ℕ → Bool) :
    Linked (fun q => (positionLinks q).filter test) (p :: after.takeWhile test) := by
  induction after generalizing p with
  | nil =>
      have hnone : positionLinks p = none := h
      simp [Linked, hnone]
  | cons q after ih =>
      cases hq : test q with
      | false =>
          simp [Linked, h.1, hq]
      | true =>
          rw [takeWhile_cons_of_pos hq]
          exact ⟨by simp [h.1, hq], ih h.2⟩

theorem builder_lawful : builder.Lawful Chain fun _ => true where
  head_mem := fun h => mem_of_mem_head? h.1
  empty := fun position => ⟨rfl, rfl, fun _ => rfl⟩
  link := by
    intro b new head l hchain hnodup hnew hsingle
    obtain ⟨hhead, hlinked, -⟩ := hchain
    refine ⟨(b.link new head).1, new, new :: l, rfl, Or.inl rfl, ⟨rfl, ?_, ?_⟩, ?_, ?_, ?_, ?_⟩
    · cases l with
      | nil => cases hhead
      | cons first rest =>
          obtain rfl : first = head := Option.some.inj hhead
          exact ⟨Function.update_self _ _ _, hlinked.update hnew _⟩
    · intro hsize
      exact absurd hsize (Nat.succ_ne_zero _)
    · exact nodup_cons.mpr ⟨hnew, hnodup⟩
    · intro p hp
      exact mem_cons.mp hp
    · intro p _ hp
      exact mem_cons.mpr hp
    · rintro other rest ⟨hother, hrest, -⟩ hnotin -
      exact ⟨hother, hrest.update hnotin _, fun hsize => absurd hsize (Nat.succ_ne_zero _)⟩

end ArrayPositionLinks

/-! ## Following a chain -/

namespace JoinHash

theorem follow_none (joinHash : JoinHash ρ) (row : ρ) (rounds : ℕ) :
    joinHash.follow row rounds none = .ok [] := by
  cases rounds <;> rfl

variable {joinHash : JoinHash ρ} {strategy : PagesHashStrategy κ} {row : ρ}

/-- Following the links of a lookup visits the whole chain. -/
theorem follow_linked {positionLinks : ℕ → Option ℕ}
    (hnext : ∀ position, joinHash.getNextJoinPosition position row = .ok (positionLinks position))
    (hl : ArrayPositionLinks.Linked positionLinks l) {rounds : ℕ}
    (hrounds : l.length ≤ rounds) : joinHash.follow row rounds l.head? = .ok l := by
  induction l generalizing rounds with
  | nil => exact absurd hl id
  | cons first rest ih =>
      obtain ⟨rounds, rfl⟩ : ∃ n, rounds = n + 1 :=
        Nat.exists_eq_succ_of_ne_zero (by rw [length_cons] at hrounds; omega)
      rw [length_cons, Nat.add_le_add_iff_right] at hrounds
      rw [head?_cons, follow, hnext first]
      cases rest with
      | nil =>
          rw [show positionLinks first = none from hl]
          simp only [Outcome.ofResult, Outcome.bind_ok, follow_none]
          rfl
      | cons second rest =>
          rw [hl.1]
          simp only [Outcome.ofResult, Outcome.bind_ok]
          rw [show some second = (second :: rest).head? from rfl, ih hl.2 hrounds]
          rfl

/-- A lookup visits the rows with the key of the probe row when, from the head of each chain, it
visits rows of that chain, among them all that pass. -/
theorem joinPositions_of_visited (passes : ℕ → Prop) {β : Type} {links : LinksBuilder β}
    {Chain : β → ℕ → List ℕ → Prop} {kept : ℕ → Bool}
    {build : BuildSide κ σ} {hashSize : ℕ} {positionLinks : β} {rowKey : κ}
    (hstrategy : strategy.Lawful) (hlinks : links.Lawful Chain kept)
    (hroom : build.positionCount < hashSize)
    (hhashes : PagesHash.HashesRead strategy build build.positionCount
      joinHash.pagesHash.positionToHashes)
    (hindexed : PagesHash.Indexed strategy build Chain kept hashSize build.positionCount
      joinHash.pagesHash.key positionLinks)
    (hrow : strategy.isNull rowKey = false) (hkept : ∀ p, passes p → kept p = true)
    (hvisited : ∀ head l, Chain positionLinks head l → l.Nodup → l.length ≤ build.positionCount →
      ∃ start positions, joinHash.startJoinPosition row (some head) = .ok start ∧
        joinHash.follow row build.positionCount start = .ok positions ∧ positions.Nodup ∧
        (∀ p ∈ positions, p ∈ l) ∧ ∀ p ∈ l, passes p → p ∈ positions) :
    ∃ positions, joinHash.joinPositions strategy build rowKey row = .ok positions ∧
      positions.Nodup ∧ ∀ position, passes position →
        (position ∈ positions ↔ position < build.positionCount ∧
          strategy.isNull (build.key position) = false ∧
          strategy.equalIgnoreNulls (build.key position) rowKey = true) := by
  rcases PagesHash.getAddressIndex_spec hindexed hstrategy hlinks hhashes hroom hrow with
    ⟨hget, hnone⟩ | ⟨head, l, hget, hchain, hnodup, hmembers, hall⟩
  · refine ⟨[], ?_, nodup_nil, ?_⟩
    · rw [joinPositions, getJoinPosition, hget]
      exact follow_none _ _ _
    intro position _
    refine iff_of_false not_mem_nil ?_
    rintro ⟨hlt, hnonnull, hequal⟩
    rw [hnone position hlt hnonnull] at hequal
    cases hequal
  · have hsubset : l ⊆ range build.positionCount :=
      fun p hp => mem_range.mpr (hmembers p hp).1
    have hlength : l.length ≤ build.positionCount := by
      simpa using (subperm_of_subset hnodup hsubset).length_le
    obtain ⟨start, positions, hstart, hfollow, hpositions, hsub, hpass⟩ :=
      hvisited head l hchain hnodup hlength
    refine ⟨positions, ?_, hpositions, ?_⟩
    · rw [joinPositions, getJoinPosition, hget, Outcome.bind_ok, hstart]
      exact hfollow
    intro position hposition
    constructor
    · intro hmem
      exact hmembers position (hsub position hmem)
    · rintro ⟨hlt, hnonnull, hequal⟩
      exact hpass position (hall position hlt hnonnull hequal (hkept position hposition)) hposition

end JoinHash

/-- A lookup without sort channel visits exactly the build rows with the key of the probe row,
each once; rows with a null key are never visited.  The supplier fails only for more rows than
the table can hold. -/
theorem joinPositions_eq_matching_rows (hashCommon : HashCommon)
    {strategy : PagesHashStrategy κ} (hstrategy : strategy.Lawful) (build : BuildSide κ σ)
    {rowKey : κ} (hrow : strategy.isNull rowKey = false) (row : ρ) :
    (∃ joinHash positions, joinHashSupplier hashCommon strategy build = .ok joinHash ∧
      joinHash.joinPositions strategy build rowKey row = .ok positions ∧ positions.Nodup ∧
      ∀ position, position ∈ positions ↔ position < build.positionCount ∧
        strategy.isNull (build.key position) = false ∧
        strategy.equalIgnoreNulls (build.key position) rowKey = true) ∨
    3 * 2 ^ 28 < build.positionCount ∧ ∃ message,
      (joinHashSupplier hashCommon strategy build : Outcome (JoinHash ρ)) =
        .error (.throws (.illegalArgument message)) := by
  rcases PagesHash.create_spec hashCommon hstrategy build ArrayPositionLinks.builder_lawful with
    ⟨pagesHash, links, hashSize, hcreate, hroom, hhashes, hindexed⟩ | ⟨hlarge, message, hcreate⟩
  · refine Or.inl ?_
    obtain ⟨joinHash, hjoin⟩ : ∃ joinHash : JoinHash ρ,
        joinHash = ⟨pagesHash, if links.size = 0 then none else some links.create⟩ := ⟨_, rfl⟩
    have hsupplier : joinHashSupplier hashCommon strategy build = .ok joinHash := by
      rw [joinHashSupplier, hcreate, hjoin]
      rfl
    obtain rfl : joinHash.pagesHash = pagesHash := by rw [hjoin]
    have hvisited : ∀ head l, links.Chain head l → l.length ≤ build.positionCount →
        joinHash.startJoinPosition row (some head) = .ok (some head) ∧
          joinHash.follow row build.positionCount l.head? = .ok l := by
      rintro head l ⟨-, hlinked, hsingle⟩ hlength
      rw [hjoin]
      by_cases hsize : links.size = 0
      · rw [if_pos hsize, hsingle hsize]
        rw [hsingle hsize] at hlength
        have halone : ArrayPositionLinks.Linked (fun _ => none) [head] := rfl
        exact ⟨rfl, JoinHash.follow_linked (fun _ => rfl) halone hlength⟩
      · rw [if_neg hsize]
        exact ⟨rfl, JoinHash.follow_linked (fun _ => rfl) hlinked hlength⟩
    obtain ⟨positions, hpositions, hnodup, hmem⟩ := JoinHash.joinPositions_of_visited
      (fun _ => True) hstrategy ArrayPositionLinks.builder_lawful hroom hhashes hindexed hrow
      (fun _ _ => rfl) (by
        intro head l hchain hnodup hlength
        obtain ⟨hstart, hfollow⟩ := hvisited head l hchain hlength
        exact ⟨some head, l, hstart, hchain.1 ▸ hfollow, hnodup, fun _ hp => hp,
          fun _ hp _ => hp⟩)
    exact ⟨joinHash, positions, hsupplier, hpositions, hnodup,
      fun position => hmem position trivial⟩
  · refine Or.inr ⟨hlarge, message, ?_⟩
    rw [joinHashSupplier, hcreate]
    rfl

/-- Keys of one nullable number. -/
def numberStrategy : PagesHashStrategy (Option ℕ) where
  isNull := Option.isNone
  hash key := UInt64.ofNat (key.getD 0)
  equalIgnoreNulls key other := key == other

theorem numberStrategy_lawful : numberStrategy.Lawful where
  refl := fun a _ => beq_self_eq_true a
  symm := fun a b _ _ h => by rw [numberStrategy, beq_iff_eq] at h ⊢; exact h.symm
  trans := fun a b c _ _ _ hab hbc => by
    rw [numberStrategy, beq_iff_eq] at hab hbc ⊢
    exact hab.trans hbc
  hash := fun a b _ _ h => by rw [numberStrategy, beq_iff_eq] at h; rw [h]

/-- The key seven is at the positions zero and two of four rows. -/
theorem joinPositions_eq_matching_rows_of_four :
    ∃ (joinHash : JoinHash Unit) (positions : List ℕ),
      joinHashSupplier .leastAbove numberStrategy
          (⟨4, fun p => [some 7, none, some 7, some 8].getD p none, fun _ => none⟩ :
            BuildSide (Option ℕ) ℕ) = .ok joinHash ∧
        joinHash.joinPositions numberStrategy
          (⟨4, fun p => [some 7, none, some 7, some 8].getD p none, fun _ => none⟩ :
            BuildSide (Option ℕ) ℕ) (some 7) () = .ok positions ∧
        positions.Nodup ∧ 0 ∈ positions ∧ 2 ∈ positions ∧ 1 ∉ positions ∧ 3 ∉ positions := by
  rcases joinPositions_eq_matching_rows .leastAbove numberStrategy_lawful
    (⟨4, fun p => [some 7, none, some 7, some 8].getD p none, fun _ => none⟩ :
      BuildSide (Option ℕ) ℕ) (show numberStrategy.isNull (some 7) = false from rfl) () with
    ⟨joinHash, positions, hsupplier, hvisit, hnodup, hmem⟩ | ⟨hlarge, -⟩
  · refine ⟨joinHash, positions, hsupplier, hvisit, hnodup, ?_, ?_, ?_, ?_⟩
    · exact (hmem 0).mpr (by decide)
    · exact (hmem 2).mpr (by decide)
    · rw [hmem]
      decide
    · rw [hmem]
      decide
  · exact absurd hlarge (by decide)

end Presto.Operator
