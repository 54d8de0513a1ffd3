import Presto.Operator.GroupBy.MultiChannelGroupByHash

/-!
# The groups of a multi-channel table

Rows that are not distinct are meant to have the same hash.  For rows that do, the table holds
every group once, in a slot that is found from the hash of each of its rows.
-/

namespace Presto.Operator.GroupBy

open Presto.Support OpenAddressing FirstOccurrence List

open Option hiding mem_map

theorem ChannelType.distinct_equivalence {V : Type} (type : ChannelType V) :
    Equivalence fun a b => type.distinct a b = false where
  refl := by
    intro a
    cases a with
    | none => rfl
    | some a => exact type.equivalence.refl a
  symm := by
    rintro (_ | a) (_ | b) h
    · rfl
    · cases h
    · cases h
    · exact type.equivalence.symm h
  trans := by
    rintro (_ | a) (_ | b) c hab hbc
    · exact hbc
    · cases hab
    · cases hab
    · cases c with
      | none => cases hbc
      | some c => exact type.equivalence.trans hab hbc

variable {n : ℕ} {V : Fin (n + 1) → Type} {types : ChannelTypes V} {inputHashChannel : Bool}

theorem notDistinctFromRow_iff {left right : Row V} :
    notDistinctFromRow types left right = true ↔
      ∀ i, (types i).distinct (left i) (right i) = false := by
  simp [notDistinctFromRow]

theorem notDistinctFromRow_equivalence (types : ChannelTypes V) :
    Equivalence fun a b => notDistinctFromRow types a b = true := by
  simp only [notDistinctFromRow_iff]
  exact (@piSetoid _ _ fun i => ⟨_, (types i).distinct_equivalence⟩).iseqv

/-- Among the given rows, those that are not distinct have the same hash. -/
def HashesAgree (types : ChannelTypes V) (Allowed : Row V → Prop) : Prop :=
  ∀ a b, Allowed a → Allowed b → notDistinctFromRow types a b = true →
    hashRow types a = hashRow types b

namespace MultiChannelGroupByHash

/-- The slot of a group. -/
def groupSlot (types : ChannelTypes V) (address : ℕ → ℕ × ℕ) (group : Row V × ℕ) : GroupSlot :=
  ⟨address group.2, group.2, (hashRow types group.1).toUInt8⟩

/-- The slots of the groups. -/
def groupSlots (types : ChannelTypes V) (address : ℕ → ℕ × ℕ) (groups : List (Row V)) :
    List GroupSlot :=
  groups.zipIdx.map (groupSlot types address)

/-- Where probing for the row of a slot starts. -/
def home (types : ChannelTypes V) (groups : List (Row V)) (hashCapacity : ℕ) (slot : GroupSlot) :
    ℕ :=
  getHashPosition (groups[slot.groupId]?.elim 0 (hashRow types)) hashCapacity

variable {slot : GroupSlot} {address : ℕ → ℕ × ℕ} {groups : List (Row V)}

theorem mem_groupSlots_iff :
    slot ∈ groupSlots types address groups ↔
      ∃ row, groups[slot.groupId]? = some row ∧
        slot = groupSlot types address (row, slot.groupId) := by
  rw [groupSlots, mem_map]
  constructor
  · rintro ⟨⟨row, groupId⟩, hmem, rfl⟩
    exact ⟨row, mem_zipIdx_iff_getElem?.mp hmem, rfl⟩
  · rintro ⟨row, hrow, hslot⟩
    exact ⟨(row, slot.groupId), mem_zipIdx_iff_getElem?.mpr hrow, hslot.symm⟩

theorem length_groupSlots (address : ℕ → ℕ × ℕ) (groups : List (Row V)) :
    (groupSlots types address groups).length = groups.length := by
  rw [groupSlots, length_map, length_zipIdx]

/-- The slots after a group was added. -/
theorem groupSlots_concat
    (address : ℕ → ℕ × ℕ) (groups : List (Row V)) (row : Row V) (new : ℕ × ℕ) :
    groupSlots types (Function.update address groups.length new) (groups ++ [row]) =
      groupSlots types address groups ++
        [⟨new, groups.length, (hashRow types row).toUInt8⟩] := by
  have hold : groups.zipIdx.map
      (groupSlot types (Function.update address groups.length new)) =
      groups.zipIdx.map (groupSlot types address) := by
    apply map_congr_left
    rintro ⟨other, groupId⟩ hmem
    have hget : groups[groupId]? = some other := mem_zipIdx_iff_getElem?.mp hmem
    have hne : groupId ≠ groups.length := (List.getElem?_eq_some_iff.mp hget).1.ne
    rw [groupSlot, groupSlot, Function.update_of_ne hne]
  rw [groupSlots, zipIdx_append, map_append, hold]
  simp [groupSlots, groupSlot]

/-- Adding a group leaves the others where they are. -/
theorem home_concat (row : Row V) (hashCapacity : ℕ) (h : slot ∈ groupSlots types address groups) :
    home types groups hashCapacity slot = home types (groups ++ [row]) hashCapacity slot := by
  obtain ⟨other, hget, -⟩ := mem_groupSlots_iff.mp h
  have hnew : (groups ++ [row])[slot.groupId]? = some other :=
    getElem?_concat_eq_some.mpr (.inl hget)
  rw [home, home, hget, hnew]

/-! ## The stored rows -/

variable {hash : MultiChannelGroupByHash types inputHashChannel} {groups : List (Row V)}

theorem storedRow_startNewPage
    {address : ℕ × ℕ} {stored : StoredRow V} (h : hash.storedRow address = some stored) :
    hash.startNewPage.storedRow address = some stored := by
  rw [storedRow, bind_eq_some_iff] at h
  obtain ⟨page, hpage, hrow⟩ := h
  have hkept : (hash.completedPages ++ [hash.currentPage] ++ [[]])[address.1]? = some page :=
    getElem?_concat_eq_some.mpr (.inl hpage)
  rw [storedRow, startNewPage, hkept, bind_some, hrow]

/-- The row of a group as it is stored. -/
def groupRow (types : ChannelTypes V) (inputHashChannel : Bool) (row : Row V) : StoredRow V :=
  ⟨row, if inputHashChannel then some (hashRow types row) else none⟩

/-- The hash that a stored row has when the table grows is that of the row. -/
theorem rawHash_groupRow (row : Row V) :
    (groupRow types inputHashChannel row).rawHash.getD (hashRow types row) = hashRow types row := by
  cases inputHashChannel with
  | false | true => rfl

/-- The table, as it is between two calls, holds the groups that start with the given rows. -/
structure Represents (Allowed : Row V → Prop)
    (hash : MultiChannelGroupByHash types inputHashChannel) (groups : List (Row V)) : Prop where
  count : hash.nextGroupId = groups.length
  stored : ∀ groupId row, groups[groupId]? = some row →
    hash.storedRow (hash.groupAddressByGroupId groupId) =
      some (groupRow types inputHashChannel row)
  stores : Stores (home types groups hash.hashCapacity) hash.hashCapacity
    hash.slots (groupSlots types hash.groupAddressByGroupId groups)
  capacity : 2 ≤ hash.hashCapacity
  maxFill : hash.maxFill = min ((3 * hash.hashCapacity + 3) / 4) (hash.hashCapacity - 1)
  fill : hash.nextGroupId ≤ hash.maxFill
  allowed : ∀ group ∈ groups, Allowed group
  lookBack : ∀ lookBack, hash.dictionaryLookBack = some lookBack → ∀ position groupId,
    lookBack.processed position = some groupId → ∃ group value,
      groups[groupId]? = some group ∧ lookBack.dictionary.values[position]? = some value ∧
        notDistinctFromRow types group (dictionaryRow value) = true

variable {Allowed : Row V → Prop} (h : Represents Allowed hash groups)

include h

theorem Represents.room : groups.length < hash.hashCapacity := by
  have hcount := h.count
  have hcapacity := h.capacity
  have hmaxFill := h.maxFill
  have hfill := h.fill
  omega

variable {row : Row V}

/-- Comparing one byte of the hash first never hides a group. -/
theorem Represents.positionNotDistinct_iff (hagree : HashesAgree types Allowed)
    (hrow : Allowed row) (hslot : some slot ∈ hash.slots) :
    hash.positionNotDistinctFromCurrentRow row (hashRow types row) (some slot) = true ↔
      ∃ group, groups[slot.groupId]? = some group ∧
        notDistinctFromRow types group row = true := by
  obtain ⟨group, hgroup, heq⟩ := mem_groupSlots_iff.mp (h.stores.mem_iff.mp hslot)
  have haddress : slot.address = hash.groupAddressByGroupId slot.groupId := by
    rw [heq]
    rfl
  have hbyte : slot.rawHash = (hashRow types group).toUInt8 := by
    rw [heq]
    rfl
  rw [positionNotDistinctFromCurrentRow, haddress, h.stored _ group hgroup, hgroup, hbyte,
    Bool.and_eq_true]
  constructor
  · rintro ⟨-, hsame⟩
    exact ⟨group, rfl, hsame⟩
  · rintro ⟨other, hother, hsame⟩
    cases hother
    have hhash := hagree group row (h.allowed group (mem_of_getElem? hgroup)) hrow hsame
    exact ⟨by rw [hhash]; exact beq_self_eq_true _, hsame⟩

/-- While there is room, looking for a row ends at the slot of its group or at an empty one. -/
theorem Represents.findSlot (hagree : HashesAgree types Allowed) (hrow : Allowed row) :
    ∃ hashPosition slot, hash.findSlot row (hashRow types row) = .ok hashPosition ∧
      Found isNone
        (hash.positionNotDistinctFromCurrentRow row (hashRow types row)) hash.slots
        (getHashPosition (hashRow types row) hash.hashCapacity) hashPosition slot := by
  have hhome : ∀ slot ∈ hash.slots, slot.isNone = false →
      hash.positionNotDistinctFromCurrentRow row (hashRow types row) slot = true →
      slot.elim 0 (home types groups hash.hashCapacity) =
        getHashPosition (hashRow types row) hash.hashCapacity := by
    intro slot hslot hoccupied hsame
    cases slot with
    | none => cases hoccupied
    | some slot =>
        obtain ⟨group, hgroup, hnot⟩ :=
          (h.positionNotDistinct_iff hagree hrow hslot).mp hsame
        have hhash := hagree group row (h.allowed group (mem_of_getElem? hgroup)) hrow hnot
        rw [elim_some, home, hgroup, elim_some, hhash]
  have hfree := h.stores.exists_free (by rw [length_groupSlots]; exact h.room)
  obtain ⟨hashPosition, slot, hprobe, hfound⟩ :=
    exists_probe_key h.stores.reachable
      (hfree.imp fun _ hslot => ⟨hslot.1, .inl hslot.2⟩) hhome
  refine ⟨hashPosition, slot, ?_, hfound⟩
  rw [← h.stores.length] at hprobe
  rw [MultiChannelGroupByHash.findSlot, hprobe]

omit h in
theorem create_represents {hashCommon : HashCommon}
    {expectedSize : ℕ} {processDictionary : Bool} {isFull : List (StoredRow V) → Bool}
    {updateMemory : UpdateMemory}
    (h : create hashCommon types inputHashChannel expectedSize processDictionary isFull
      updateMemory = .ok hash) :
    Represents Allowed hash [] := by
  unfold create at h
  split at h
  · cases h
  obtain ⟨hashCapacity, hsize, h⟩ := Result.bind_eq_ok_iff.mp h
  have hcapacity := hashCommon.two_le hsize
  rw [calculateMaxFill_eq hcapacity] at h
  cases h
  exact {
    count := rfl
    stored := by simp
    stores := Stores.empty _ hashCapacity
    capacity := hcapacity
    maxFill := rfl
    fill := Nat.zero_le _
    allowed := by simp
    lookBack := by
      rintro lookBack ⟨⟩ }

/-! ## Growing -/

variable {newCapacity : ℕ}

/-- One round of the loop that fills the new table. -/
theorem Represents.moveSlot {slots : List (Option GroupSlot)} {moved : List GroupSlot}
    (hslots : Stores (home types groups newCapacity) newCapacity slots moved)
    (hroom : moved.length < newCapacity)
    (hslot : slot ∈ groupSlots types hash.groupAddressByGroupId groups) :
    ∃ slots', hash.moveSlot slots slot = .ok slots' ∧
      Stores (home types groups newCapacity) newCapacity slots'
        (moved ++ [slot]) := by
  obtain ⟨group, hgroup, heq⟩ := mem_groupSlots_iff.mp hslot
  have haddress : hash.storedRow slot.address = some (groupRow types inputHashChannel group) := by
    rw [heq]
    exact h.stored _ group hgroup
  obtain ⟨pos, free, hprobe, hfree, hfound⟩ :=
    exists_probe_free hslots.reachable (hslots.exists_free hroom)
      (getHashPosition (hashRow types group) slots.length)
  have hmoved : (⟨slot.address, slot.groupId, (hashRow types group).toUInt8⟩ : GroupSlot) =
      slot := by
    rw [heq]
    rfl
  rw [MultiChannelGroupByHash.moveSlot, haddress]
  dsimp only
  rw [show (groupRow types inputHashChannel group).row = group from rfl, rawHash_groupRow, hprobe,
    hmoved]
  have hhome : home types groups newCapacity slot =
      getHashPosition (hashRow types group) newCapacity := by
    rw [home, hgroup, elim_some]
  rw [hslots.length, ← hhome] at hfound
  exact ⟨_, rfl, hslots.set hfound hfree⟩

omit h in
/-- Skipping empty slots loses no group. -/
theorem flatMap_toList_dropWhile (slots : List (Option GroupSlot)) :
    (slots.dropWhile isNone).flatMap toList = slots.flatMap toList := by
  induction slots with
  | nil => rfl
  | cons slot slots ih =>
      cases slot with
      | none => simpa using ih
      | some slot => rfl

theorem Represents.moveSlots (count : ℕ) :
    ∀ {oldSlots slots : List (Option GroupSlot)} {moved : List GroupSlot},
      Stores (home types groups newCapacity) newCapacity slots moved →
      (∀ slot ∈ oldSlots.flatMap toList,
        slot ∈ groupSlots types hash.groupAddressByGroupId groups) →
      (oldSlots.flatMap toList).length = count →
      moved.length + count < newCapacity →
      ∃ slots', hash.moveSlots count oldSlots slots = .ok slots' ∧
        Stores (home types groups newCapacity) newCapacity slots'
          (moved ++ oldSlots.flatMap toList) := by
  induction count with
  | zero =>
      intro oldSlots slots moved hslots _ hlength _
      rw [length_eq_zero_iff.mp hlength, append_nil]
      exact ⟨slots, rfl, hslots⟩
  | succ count ih =>
      intro oldSlots slots moved hslots hold hlength hroom
      rw [← flatMap_toList_dropWhile] at hold hlength ⊢
      rw [MultiChannelGroupByHash.moveSlots]
      cases hrest : oldSlots.dropWhile isNone with
      | nil => simp [hrest] at hlength
      | cons first rest =>
          rw [hrest] at hold hlength
          cases first with
          | none =>
              have hhead := head_dropWhile_not isNone (l := oldSlots) (by simp [hrest])
              simp [hrest] at hhead
          | some slot =>
              rw [flatMap_cons, toList_some, singleton_append] at hold hlength ⊢
              obtain ⟨slots', hmove, hstores⟩ :=
                h.moveSlot hslots (by omega) (hold slot mem_cons_self)
              dsimp only
              rw [hmove, append_cons]
              apply ih hstores
              · intro other hother
                exact hold other (mem_cons_of_mem _ hother)
              · simpa using hlength
              · rw [length_append, length_singleton]
                omega

theorem Represents.tryRehash :
    hash.tryRehash.Meets TooLarge fun r =>
      Represents Allowed r.1 groups ∧ r.1.dictionaryLookBack = hash.dictionaryLookBack ∧
        (r.2 = true → r.1.needRehash = false) := by
  rw [MultiChannelGroupByHash.tryRehash]
  by_cases hlarge : hash.hashCapacity * 2 > 2147483647
  · rw [if_pos hlarge]
    exact rfl
  rw [if_neg hlarge]
  have hcalled : Represents Allowed { hash with memoryUpdates := hash.memoryUpdates + 1 } groups :=
    { h with }
  cases hgranted : hash.updateMemory hash.memoryUpdates with
  | false => exact ⟨hcalled, rfl, by rintro ⟨⟩⟩
  | true =>
      have hroom := h.room
      have hused : (hash.slots.flatMap toList).length = hash.nextGroupId := by
        rw [h.stores.perm.length_eq, length_groupSlots, h.count]
      have hcount := h.count
      obtain ⟨slots, hslots, hstores⟩ := hcalled.moveSlots hash.nextGroupId
        (Stores.empty (home types groups (hash.hashCapacity * 2))
          (hash.hashCapacity * 2))
        (fun slot hslot => h.stores.perm.mem_iff.mp hslot) hused
        (by rw [length_nil]; omega)
      have hmaxFill := calculateMaxFill_eq (by omega : 2 ≤ hash.hashCapacity * 2)
      simp only [hslots, Outcome.bind_ok, hmaxFill, Outcome.ofResult]
      refine ⟨?_, rfl, fun _ => ?_⟩
      · exact { h with
          stores := { hstores with perm := hstores.perm.trans h.stores.perm }
          capacity := by
            dsimp only
            omega
          maxFill := rfl
          fill := by
            dsimp only
            omega }
      · rw [needRehash, decide_eq_false_iff_not]
        dsimp only
        omega

/-! ## Rows and groups -/

section NewGroup

variable (hneed : hash.needRehash = false)
  (hrow : Allowed row) {same : Option GroupSlot → Bool} {hashPosition : ℕ}
  {slot : Option GroupSlot}
  (hfound : Found isNone same hash.slots
    (getHashPosition (hashRow types row) hash.hashCapacity) hashPosition slot)
  (hfree : slot.isNone = true)

include hneed hrow hfound hfree

/-- The table after a group was recorded. -/
theorem Represents.recordGroup :
    Represents Allowed (hash.recordGroup hashPosition row (hashRow types row))
      (groups ++ [row]) := by
  have hlt : hash.nextGroupId < hash.maxFill := by simpa [needRehash] using hneed
  have hcount := h.count
  refine { h with
    count := by
      rw [length_append, MultiChannelGroupByHash.recordGroup, hcount]
      rfl
    stored := ?_
    stores := ?_
    fill := hlt
    allowed := ?_
    lookBack := ?_ }
  · intro groupId other hother
    rw [MultiChannelGroupByHash.recordGroup, hcount]
    rcases getElem?_concat_eq_some.mp hother with hold | ⟨rfl, rfl⟩
    · have hne : groupId ≠ groups.length := (List.getElem?_eq_some_iff.mp hold).1.ne
      dsimp only
      rw [Function.update_of_ne hne]
      obtain ⟨page, hpage, hrow⟩ := bind_eq_some_iff.mp (h.stored groupId other hold)
      rcases getElem?_concat_eq_some.mp hpage with hcompleted | ⟨hlast, rfl⟩
      · rw [storedRow, getElem?_concat_eq_some.mpr (.inl hcompleted), bind_some, hrow]
      · rw [storedRow, getElem?_concat_eq_some.mpr (.inr ⟨hlast, rfl⟩)]
        exact getElem?_concat_eq_some.mpr (.inl hrow)
    · dsimp only
      rw [storedRow]
      simp [groupRow]
  · have hhome : home types (groups ++ [row]) hash.hashCapacity
        ⟨(hash.completedPages.length, hash.currentPage.length), groups.length,
          (hashRow types row).toUInt8⟩ =
        getHashPosition (hashRow types row) hash.hashCapacity := by
      simp [home]
    have hstores := h.stores.congr_home fun slot hslot => home_concat row hash.hashCapacity hslot
    rw [MultiChannelGroupByHash.recordGroup, hcount, groupSlots_concat]
    rw [← hhome] at hfound
    exact hstores.set hfound hfree
  · intro group hgroup
    rcases mem_append.mp hgroup with hold | hnew
    · exact h.allowed group hold
    · rw [mem_singleton.mp hnew]
      exact hrow
  · intro lookBack hlookBack position groupId hprocessed
    obtain ⟨group, value, hgroup, hvalue, hsame⟩ :=
      h.lookBack lookBack hlookBack position groupId hprocessed
    exact ⟨group, value, getElem?_concat_eq_some.mpr (.inl hgroup), hvalue, hsame⟩

/-- A new group at an empty slot. -/
theorem Represents.addNewGroup :
    (hash.addNewGroup hashPosition row (hashRow types row)).Meets TooLarge fun r =>
      r.2 = groups.length ∧ Represents Allowed r.1 (groups ++ [row]) ∧
        r.1.dictionaryLookBack = hash.dictionaryLookBack := by
  have hcount := h.count
  have hrecorded := h.recordGroup hneed hrow hfound hfree
  rw [MultiChannelGroupByHash.addNewGroup]
  -- closing a full page changes nothing about the groups
  obtain ⟨next, hnext, hrepresents, hlookBack⟩ :
      ∃ next, (if (hash.recordGroup hashPosition row (hashRow types row)).isFull
          (hash.recordGroup hashPosition row (hashRow types row)).currentPage
        then (hash.recordGroup hashPosition row (hashRow types row)).startNewPage
        else hash.recordGroup hashPosition row (hashRow types row)) = next ∧
      Represents Allowed next (groups ++ [row]) ∧
      next.dictionaryLookBack = hash.dictionaryLookBack := by
    split
    · refine ⟨_, rfl, { hrecorded with stored := ?_ }, rfl⟩
      exact fun groupId row hrow => storedRow_startNewPage (hrecorded.stored groupId row hrow)
    · exact ⟨_, rfl, hrecorded, rfl⟩
  rw [hnext]
  split
  · refine Outcome.Meets.bind hrepresents.tryRehash ?_
    rintro ⟨hash', grown⟩ ⟨hhash', hsame, -⟩
    exact ⟨hcount, hhash', hsame.trans hlookBack⟩
  · exact ⟨hcount, hrepresents, hlookBack⟩

end NewGroup

/-- Looking for a row stops at an occupied slot exactly when its group exists. -/
theorem Represents.found_iff (hagree : HashesAgree types Allowed)
    (hrow : Allowed row) {position hashPosition : ℕ} {slot : Option GroupSlot}
    (hfound : Found isNone
      (hash.positionNotDistinctFromCurrentRow row (hashRow types row)) hash.slots position
      hashPosition slot) :
    slot.isSome = true ↔ ∃ group ∈ groups, notDistinctFromRow types group row = true := by
  constructor
  · intro hsome
    obtain ⟨slot, rfl⟩ := isSome_iff_exists.mp hsome
    obtain ⟨group, hgroup, hsame⟩ := (h.positionNotDistinct_iff hagree hrow
      (mem_of_getElem? hfound.getElem?)).mp (hfound.stored rfl)
    exact ⟨group, mem_of_getElem? hgroup, hsame⟩
  · rintro ⟨group, hgroup, hsame⟩
    by_contra hnone
    obtain ⟨groupId, hget⟩ := mem_iff_getElem?.mp hgroup
    have hslot : some (groupSlot types hash.groupAddressByGroupId (group, groupId)) ∈
        hash.slots :=
      h.stores.mem_iff.mpr (mem_groupSlots_iff.mpr ⟨group, hget, rfl⟩)
    have hmissing := hfound.missing (by simpa using hnone) _ hslot rfl
    rw [(h.positionNotDistinct_iff hagree hrow hslot).mpr ⟨group, hget, hsame⟩] at hmissing
    cases hmissing

theorem Represents.putIfAbsent (hagree : HashesAgree types Allowed)
    (hneed : hash.needRehash = false) (hrow : Allowed row) :
    (hash.putIfAbsent row (hashRow types row)).Meets TooLarge fun r =>
      ∃ groups', Assigned (fun a b => notDistinctFromRow types a b = true)
          groups row r.2 groups' ∧
        Represents Allowed r.1 groups' ∧ r.1.dictionaryLookBack = hash.dictionaryLookBack := by
  obtain ⟨hashPosition, slot, hfind, hfound⟩ := h.findSlot hagree hrow
  rw [MultiChannelGroupByHash.putIfAbsent, hfind, Outcome.bind_ok, hfound.getElem?]
  cases slot with
  | some slot =>
      obtain ⟨group, hgroup, hsame⟩ := (h.positionNotDistinct_iff hagree hrow
        (mem_of_getElem? hfound.getElem?)).mp (hfound.stored rfl)
      exact ⟨groups, .old hgroup hsame, h, rfl⟩
  | none =>
      have hnew : ∀ group ∈ groups, ¬notDistinctFromRow types group row = true := by
        intro group hgroup hsame
        have hsome := (h.found_iff hagree hrow hfound).mpr ⟨group, hgroup, hsame⟩
        cases hsome
      refine (h.addNewGroup hneed hrow hfound rfl).mono ?_
      rintro ⟨hash', groupId⟩ ⟨rfl, hhash', hlookBack⟩
      exact ⟨groups ++ [row], .new hnew, hhash', hlookBack⟩

theorem Represents.contains (hagree : HashesAgree types Allowed) (hrow : Allowed row) :
    ∃ found, hash.contains row = .ok found ∧
      (found = true ↔ ∃ group ∈ groups, notDistinctFromRow types group row = true) := by
  obtain ⟨hashPosition, slot, hfind, hfound⟩ := h.findSlot hagree hrow
  refine ⟨slot.isSome, ?_, h.found_iff hagree hrow hfound⟩
  rw [MultiChannelGroupByHash.contains, hfind, Outcome.bind_ok, hfound.getElem?]
  rfl

theorem Represents.appendValuesTo {groupId : ℕ} (hget : groups[groupId]? = some row) :
    ∃ values, hash.appendValuesTo groupId = .ok values ∧ values.1 = row := by
  rw [MultiChannelGroupByHash.appendValuesTo, Int.toNat_natCast, h.stored groupId row hget]
  exact ⟨_, rfl, rfl⟩

end MultiChannelGroupByHash
end Presto.Operator.GroupBy
