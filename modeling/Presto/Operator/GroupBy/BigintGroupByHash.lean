import Presto.Operator.GroupBy.GroupByHash
import Presto.Operator.PagesHash

/-!
# Grouping by one bigint column

`BigintGroupByHash` stores the values themselves in the table.  The null value is not in the
table; its group has a field of its own.
-/

namespace Presto.Operator.GroupBy

open Presto.Support OpenAddressing FirstOccurrence List Option

/-- An occupied slot: the entries of `values` and `groupIds` at one position. -/
structure BigintSlot where
  value : Int64
  groupId : ℕ

/-- The table.  A slot is empty where `groupIds` has `-1`, and there is no group of the null
value while `nullGroupId` is `-1`. -/
structure BigintGroupByHash where
  outputRawHash : Bool
  updateMemory : UpdateMemory
  memoryUpdates : ℕ
  hashCapacity : ℕ
  maxFill : ℕ
  slots : List (Option BigintSlot)
  nullGroupId : Option ℕ
  valuesByGroupId : ℕ → Int64
  nextGroupId : ℕ

namespace BigintGroupByHash

/-- The constructor. -/
def create (hashCommon : HashCommon) (outputRawHash : Bool) (expectedSize : ℕ)
    (updateMemory : UpdateMemory) : Result BigintGroupByHash :=
  if ¬0 < expectedSize then
    .error (.illegalArgument "expectedSize must be greater than zero")
  else do
    let hashCapacity ← hashCommon.arraySize expectedSize
    let maxFill ← calculateMaxFill hashCapacity
    pure {
      outputRawHash := outputRawHash
      updateMemory := updateMemory
      memoryUpdates := 0
      hashCapacity := hashCapacity
      maxFill := maxFill
      slots := List.replicate hashCapacity none
      nullGroupId := none
      valuesByGroupId := fun _ => 0
      nextGroupId := 0 }

variable (hash : BigintGroupByHash)

def needRehash : Bool := hash.maxFill ≤ hash.nextGroupId

/-- The slot holds the value. -/
def holdsValue (value : Int64) : Option BigintSlot → Bool
  | none => false
  | some slot => value == slot.value

/-- The loop that looks for an empty slot or for the slot of a value. -/
def findSlot (slots : List (Option BigintSlot)) (value : Int64) : Outcome ℕ :=
  match probe slots (fun slot => slot.isNone || holdsValue value slot)
      slots.length (getHashPosition value.toUInt64 slots.length) with
  | none => .error .diverges
  | some hashPosition => .ok hashPosition

/-- One round of the loop that fills the new table. -/
def moveGroup (slots : List (Option BigintSlot)) (groupId : ℕ) :
    Outcome (List (Option BigintSlot)) :=
  if hash.nullGroupId = some groupId then .ok slots
  else
    let value := hash.valuesByGroupId groupId
    match probe slots Option.isNone slots.length
        (getHashPosition value.toUInt64 slots.length) with
    | none => .error .diverges
    | some hashPosition => .ok (slots.set hashPosition (some ⟨value, groupId⟩))

/-- Doubles the table, if the memory for it is granted. -/
def tryRehash : Outcome (BigintGroupByHash × Bool) :=
  let newCapacity := hash.hashCapacity * 2
  if newCapacity > 2147483647 then .error (.throws tableTooLarge)
  else
    let granted := hash.updateMemory hash.memoryUpdates
    let hash := { hash with memoryUpdates := hash.memoryUpdates + 1 }
    if !granted then .ok (hash, false)
    else do
      let slots ← (List.range' 0 hash.nextGroupId).foldlM (moveGroup hash)
        (List.replicate newCapacity none)
      let maxFill ← Outcome.ofResult (calculateMaxFill newCapacity)
      pure ({ hash with hashCapacity := newCapacity, maxFill := maxFill, slots := slots }, true)

/-- Opens a group at an empty slot. -/
def addNewGroup (hashPosition : ℕ) (value : Int64) : Outcome (BigintGroupByHash × ℕ) :=
  let groupId := hash.nextGroupId
  let hash := { hash with
    nextGroupId := groupId + 1
    slots := hash.slots.set hashPosition (some ⟨value, groupId⟩)
    valuesByGroupId := Function.update hash.valuesByGroupId groupId value }
  if hash.needRehash then do
    let (hash, _) ← hash.tryRehash
    pure (hash, groupId)
  else .ok (hash, groupId)

/-- The number of the group of a value, which is opened if it does not exist. -/
def putIfAbsent : Option Int64 → Outcome (BigintGroupByHash × ℕ)
  | none =>
      match hash.nullGroupId with
      | some groupId => .ok (hash, groupId)
      | none =>
          .ok ({ hash with
            nullGroupId := some hash.nextGroupId
            nextGroupId := hash.nextGroupId + 1 }, hash.nextGroupId)
  | some value => do
      let hashPosition ← findSlot hash.slots value
      match hash.slots[hashPosition]?.join with
      | some slot => pure (hash, slot.groupId)
      | none => addNewGroup hash hashPosition value

/-- The number of the group of a row. -/
def putPosition (block : Block (Option Int64)) (hash : BigintGroupByHash) (position : ℕ) :
    Outcome (BigintGroupByHash × ℕ) :=
  match block.values[position]? with
  | none => .error (.throws .indexOutOfBounds)
  | some value => hash.putIfAbsent value

def contains : Option Int64 → Outcome Bool
  | none => .ok hash.nullGroupId.isSome
  | some value => do
      let hashPosition ← findSlot hash.slots value
      pure hash.slots[hashPosition]?.join.isSome

/-- The value of a group, with its raw hash if that is part of the output. -/
def appendValuesTo (groupId : ℤ) : Result (Option Int64 × Option UInt64) :=
  if groupId < 0 then .error (.illegalArgument "groupId is negative")
  else
    let value :=
      if hash.nullGroupId = some groupId.toNat then none
      else some (hash.valuesByGroupId groupId.toNat)
    let rawHash := value.elim 0 fun value => longHash value.toUInt64
    .ok (value, if hash.outputRawHash then some rawHash else none)

/-- The works for a page. -/
inductive Work
  | addPage (block : Block (Option Int64)) (lastPosition : ℕ)
  | getGroupIds (block : Block (Option Int64)) (blockBuilder : List ℤ) (finished : Bool)
      (lastPosition : ℕ)

def process : Work → Outcome (BigintGroupByHash × Work × Bool)
  | .addPage block lastPosition =>
      let positionCount := block.values.length
      if ¬lastPosition < positionCount then
        .error (.throws (.illegalState "position count out of bound"))
      else do
        let (hash, lastPosition, _, done) ←
          resumeRows needRehash tryRehash (putPosition block) positionCount lastPosition hash
        pure (hash, .addPage block lastPosition, done)
  | .getGroupIds block blockBuilder finished lastPosition =>
      let positionCount := block.values.length
      if ¬lastPosition < positionCount then
        .error (.throws (.illegalState "position count out of bound"))
      else if finished then .error (.throws (.illegalState ""))
      else do
        let (hash, lastPosition, groupIds, done) ←
          resumeRows needRehash tryRehash (putPosition block) positionCount lastPosition hash
        pure (hash, .getGroupIds block (blockBuilder ++ groupIds.map fun (n : ℕ) => (n : ℤ))
          finished lastPosition, done)

def getResult : Work → Result (Work × GroupByIdBlock)
  | .addPage _ _ => .error (.unsupportedOperation "")
  | .getGroupIds block blockBuilder finished lastPosition =>
      if lastPosition ≠ block.values.length then
        .error (.illegalState "process has not yet finished")
      else if finished then .error (.illegalState "result has produced")
      else
        .ok (.getGroupIds block blockBuilder true lastPosition,
          ⟨hash.nextGroupId, .plain blockBuilder⟩)

/-- The table as an implementation of the interface. -/
def groupByHash : GroupByHash (Block (Option Int64)) BigintGroupByHash Work (Option Int64)
    (Option Int64 × Option UInt64) where
  addPage hash block := (hash, .addPage block 0)
  getGroupIds hash block := (hash, .getGroupIds block [] false 0)
  process := process
  getResult := getResult
  appendValuesTo := appendValuesTo
  contains := contains

/-! ## The groups in the table -/

/-- Where probing for the value of a slot starts. -/
def home (hashCapacity : ℕ) : Option BigintSlot → ℕ
  | none => 0
  | some slot => getHashPosition slot.value.toUInt64 hashCapacity

/-- The table holds the groups of the values that are not null. -/
structure Holds (hashCapacity : ℕ) (slots : List (Option BigintSlot))
    (groups : List (Option Int64)) : Prop where
  length : slots.length = hashCapacity
  reachable : Reachable Option.isNone (home hashCapacity) slots
  mem_iff : ∀ value groupId,
    some ⟨value, groupId⟩ ∈ slots ↔ groups[groupId]? = some (some value)
  room : hashCapacity ≤ slots.countP Option.isNone + groups.length

namespace Holds

variable {hashCapacity : ℕ} {slots : List (Option BigintSlot)} {groups : List (Option Int64)}

theorem empty (hashCapacity : ℕ) : Holds hashCapacity (replicate hashCapacity none) [] where
  length := length_replicate
  reachable := reachable_replicate rfl hashCapacity
  mem_iff := by simp
  room := by simp [countP_replicate]

theorem exists_free (h : Holds hashCapacity slots groups) (hroom : groups.length < hashCapacity) :
    ∃ slot ∈ slots, isNone slot = true := by
  have hcount := h.room
  exact countP_pos_iff.mp (by omega)

theorem concat_null (h : Holds hashCapacity slots groups) :
    Holds hashCapacity slots (groups ++ [none]) where
  length := h.length
  reachable := h.reachable
  mem_iff := by
    intro value groupId
    rw [getElem?_concat_eq_some, h.mem_iff]
    simp
  room := by
    have hcount := h.room
    rw [length_append]
    omega

variable {value : Int64} {hashPosition : ℕ} {slot : Option BigintSlot}

/-- Storing the next group where probing for its value stopped. -/
theorem concat (h : Holds hashCapacity slots groups) {same : Option BigintSlot → Bool}
    (hfound : Found isNone same slots
      (getHashPosition value.toUInt64 hashCapacity) hashPosition slot)
    (hfree : slot.isNone = true) :
    Holds hashCapacity (slots.set hashPosition (some ⟨value, groups.length⟩))
      (groups ++ [some value]) where
  length := by rw [length_set, h.length]
  reachable := reachable_set h.reachable hfound rfl
  mem_iff := by
    intro other groupId
    rw [mem_set_iff hfound.getElem? hfree rfl, h.mem_iff, getElem?_concat_eq_some]
    simp only [some.injEq, BigintSlot.mk.injEq]
    tauto
  room := by
    have hcount := h.room
    have hset : slots.countP isNone ≤
        (slots.set hashPosition (some ⟨value, groups.length⟩)).countP isNone + 1 :=
      countP_free_set hfound.getElem?
    rw [length_append, length_singleton]
    omega

end Holds

theorem eq_of_holdsValue {other : Int64} {groupId : ℕ}
    (h : holdsValue value (some ⟨other, groupId⟩) = true) : value = other := by
  simpa [holdsValue] using h

/-- While there is room, looking for a value ends at its slot or at an empty one. -/
theorem Holds.findSlot
    {hashCapacity : ℕ} {slots : List (Option BigintSlot)} {groups : List (Option Int64)}
    (h : Holds hashCapacity slots groups) (hroom : groups.length < hashCapacity) (value : Int64) :
    ∃ hashPosition slot, findSlot slots value = .ok hashPosition ∧
      Found isNone (holdsValue value) slots
        (getHashPosition value.toUInt64 hashCapacity) hashPosition slot := by
  have hhome : ∀ slot ∈ slots, slot.isNone = false → holdsValue value slot = true →
      home hashCapacity slot = getHashPosition value.toUInt64 hashCapacity := by
    intro slot _ _ hholds
    cases slot with
    | none => cases hholds
    | some slot =>
        rw [home, ← eq_of_holdsValue hholds]
  obtain ⟨hashPosition, slot, hprobe, hfound⟩ :=
    exists_probe_key h.reachable
      ((h.exists_free hroom).imp fun _ hslot => ⟨hslot.1, .inl hslot.2⟩) hhome
  refine ⟨hashPosition, slot, ?_, hfound⟩
  rw [← h.length] at hprobe
  rw [BigintGroupByHash.findSlot, hprobe]

/-- The table, as it is between two calls, holds the groups that start with the given values. -/
structure Represents (hash : BigintGroupByHash) (groups : List (Option Int64)) : Prop where
  count : hash.nextGroupId = groups.length
  nullGroup : ∀ groupId, hash.nullGroupId = some groupId ↔ groups[groupId]? = some none
  values : ∀ groupId value, groups[groupId]? = some (some value) →
    hash.valuesByGroupId groupId = value
  holds : Holds hash.hashCapacity hash.slots groups
  capacity : 2 ≤ hash.hashCapacity
  maxFill : hash.maxFill = min ((3 * hash.hashCapacity + 3) / 4) (hash.hashCapacity - 1)
  fill : hash.nextGroupId ≤ hash.maxFill

variable {hash} {groups : List (Option Int64)}

theorem Represents.room (h : Represents hash groups) : groups.length < hash.hashCapacity := by
  have hcount := h.count
  have hcapacity := h.capacity
  have hmaxFill := h.maxFill
  have hfill := h.fill
  omega

theorem create_represents {hashCommon : HashCommon} {outputRawHash : Bool} {expectedSize : ℕ}
    {updateMemory : UpdateMemory}
    (h : create hashCommon outputRawHash expectedSize updateMemory = .ok hash) :
    Represents hash [] := by
  unfold create at h
  split at h
  · cases h
  obtain ⟨hashCapacity, hsize, h⟩ := Result.bind_eq_ok_iff.mp h
  have hcapacity := hashCommon.two_le hsize
  rw [calculateMaxFill_eq hcapacity] at h
  cases h
  exact {
    count := rfl
    nullGroup := by simp
    values := by simp
    holds := Holds.empty hashCapacity
    capacity := hcapacity
    maxFill := rfl
    fill := Nat.zero_le _ }

/-- The rounds of the loop that fills the new table. -/
theorem Represents.moveGroups
    (h : Represents hash groups) {newCapacity : ℕ} (hcapacity : groups.length < newCapacity) :
    ∃ slots, (range' 0 hash.nextGroupId).foldlM (moveGroup hash)
        (replicate newCapacity none) = .ok slots ∧ Holds newCapacity slots groups := by
  have hstep : ∀ i < 0 + hash.nextGroupId, ∀ slots,
      Holds newCapacity slots (groups.take i) →
      ∃ slots', moveGroup hash slots i = .ok slots' ∧
        Holds newCapacity slots' (groups.take (i + 1)) := by
    intro i hi slots hslots
    have hlt : i < groups.length := by
      rw [← h.count]
      omega
    have htake : groups.take (i + 1) = groups.take i ++ [groups[i]] :=
      (take_append_getElem hlt).symm
    have hlength : (groups.take i).length = i := by
      rw [length_take]
      omega
    rw [moveGroup, htake]
    cases hgroup : groups[i] with
    | none =>
        have hnull : hash.nullGroupId = some i :=
          (h.nullGroup i).mpr (by rw [getElem?_eq_getElem hlt, hgroup])
        rw [if_pos hnull]
        exact ⟨slots, rfl, hslots.concat_null⟩
    | some value =>
        have hget : groups[i]? = some (some value) := by
          rw [getElem?_eq_getElem hlt, hgroup]
        have hnull : ¬hash.nullGroupId = some i := by
          rw [h.nullGroup, hget]
          simp
        obtain ⟨hashPosition, slot, hprobe, hfree, hfound⟩ :=
          exists_probe_free hslots.reachable (hslots.exists_free (by omega))
            (getHashPosition value.toUInt64 slots.length)
        rw [if_neg hnull, h.values i value hget]
        dsimp only
        rw [hprobe]
        refine ⟨_, rfl, ?_⟩
        rw [hslots.length] at hfound
        have hconcat := hslots.concat hfound hfree
        rwa [hlength] at hconcat
  have hstart : Holds newCapacity (replicate newCapacity none) (groups.take 0) :=
    Holds.empty newCapacity
  obtain ⟨slots, hslots, hholds⟩ := Outcome.foldlM_range_spec hstep hstart
  refine ⟨slots, hslots, ?_⟩
  rwa [Nat.zero_add, h.count, take_length] at hholds

variable (h : Represents hash groups)

include h

theorem Represents.tryRehash : hash.tryRehash.Meets TooLarge fun r => Represents r.1 groups := by
  rw [BigintGroupByHash.tryRehash]
  by_cases hlarge : hash.hashCapacity * 2 > 2147483647
  · rw [if_pos hlarge]
    exact rfl
  rw [if_neg hlarge]
  have hcalled : Represents { hash with memoryUpdates := hash.memoryUpdates + 1 } groups :=
    { h with }
  cases hgranted : hash.updateMemory hash.memoryUpdates with
  | false => exact hcalled
  | true =>
      have hroom := h.room
      obtain ⟨slots, hslots, hholds⟩ :=
        hcalled.moveGroups (by omega : groups.length < hash.hashCapacity * 2)
      have hmaxFill := calculateMaxFill_eq (by omega : 2 ≤ hash.hashCapacity * 2)
      simp only [hslots, Outcome.bind_ok, hmaxFill, Outcome.ofResult]
      exact { h with
        holds := hholds
        capacity := by
          dsimp only
          omega
        maxFill := rfl
        fill := by
          have hfill := h.fill
          have hold := h.maxFill
          dsimp only
          omega }

/-- A new group at an empty slot. -/
theorem Represents.addNewGroup (hneed : hash.needRehash = false)
    (hfound : Found isNone (holdsValue value) hash.slots
      (getHashPosition value.toUInt64 hash.hashCapacity) hashPosition slot)
    (hfree : slot.isNone = true) :
    (hash.addNewGroup hashPosition value).Meets TooLarge fun r =>
      r.2 = groups.length ∧ Represents r.1 (groups ++ [some value]) := by
  have hlt : hash.nextGroupId < hash.maxFill := by simpa [needRehash] using hneed
  have hcount := h.count
  have hadded : Represents { hash with
      nextGroupId := hash.nextGroupId + 1
      slots := hash.slots.set hashPosition (some ⟨value, hash.nextGroupId⟩)
      valuesByGroupId := Function.update hash.valuesByGroupId hash.nextGroupId value }
      (groups ++ [some value]) := { h with
    count := by
      rw [length_append, hcount]
      rfl
    nullGroup := by
      intro groupId
      rw [getElem?_concat_eq_some, ← h.nullGroup]
      simp
    values := by
      intro groupId other hother
      rcases getElem?_concat_eq_some.mp hother with hold | ⟨rfl, hnew⟩
      · have hne : groupId ≠ hash.nextGroupId := by
          have hbound := (List.getElem?_eq_some_iff.mp hold).1
          omega
        dsimp only
        rw [Function.update_of_ne hne]
        exact h.values groupId other hold
      · cases hnew
        dsimp only
        rw [hcount, Function.update_self]
    holds := by
      have hconcat := h.holds.concat hfound hfree
      rwa [← hcount] at hconcat
    fill := hlt }
  rw [BigintGroupByHash.addNewGroup]
  split
  · refine Outcome.Meets.bind hadded.tryRehash ?_
    rintro ⟨hash', grown⟩ hhash'
    exact ⟨hcount, hhash'⟩
  · exact ⟨hcount, hadded⟩

theorem Represents.putIfAbsent (hneed : hash.needRehash = false) (value : Option Int64) :
    (hash.putIfAbsent value).Meets TooLarge fun r =>
      ∃ groups', Assigned Eq groups value r.2 groups' ∧
        Represents r.1 groups' := by
  have hcount := h.count
  cases value with
  | none =>
      rw [BigintGroupByHash.putIfAbsent]
      cases hnull : hash.nullGroupId with
      | some groupId => exact ⟨groups, .old ((h.nullGroup groupId).mp hnull) rfl, h⟩
      | none =>
          have hnew : ∀ group ∈ groups, ¬group = none := by
            rintro group hgroup rfl
            obtain ⟨groupId, hget⟩ := mem_iff_getElem?.mp hgroup
            rw [← h.nullGroup, hnull] at hget
            cases hget
          have hlt : hash.nextGroupId < hash.maxFill := by simpa [needRehash] using hneed
          refine ⟨groups ++ [none], ?_, ?_⟩
          · rw [hcount]
            exact .new hnew
          · exact { h with
              count := by
                rw [length_append, hcount]
                rfl
              nullGroup := by
                intro groupId
                rw [getElem?_concat_eq_some, ← h.nullGroup, hnull, hcount]
                simp [eq_comm]
              values := by
                intro groupId other hother
                rcases getElem?_concat_eq_some.mp hother with hold | ⟨-, hnew⟩
                · exact h.values groupId other hold
                · cases hnew
              holds := h.holds.concat_null
              fill := hlt }
  | some value =>
      obtain ⟨hashPosition, slot, hfind, hfound⟩ := h.holds.findSlot h.room value
      rw [BigintGroupByHash.putIfAbsent, hfind, Outcome.bind_ok, hfound.getElem?]
      cases slot with
      | some slot =>
          obtain ⟨other, groupId⟩ := slot
          obtain rfl := eq_of_holdsValue (hfound.stored rfl)
          have hgroup := (h.holds.mem_iff value groupId).mp
            (mem_of_getElem? hfound.getElem?)
          exact ⟨groups, .old hgroup rfl, h⟩
      | none =>
          have hnew : ∀ group ∈ groups, ¬group = some value := by
            rintro group hgroup rfl
            obtain ⟨groupId, hget⟩ := mem_iff_getElem?.mp hgroup
            have hmissing := hfound.missing rfl _ ((h.holds.mem_iff value groupId).mpr hget) rfl
            simp [holdsValue] at hmissing
          refine (h.addNewGroup hneed hfound rfl).mono ?_
          rintro ⟨hash', groupId⟩ ⟨rfl, hhash'⟩
          exact ⟨groups ++ [some value], .new hnew, hhash'⟩

theorem Represents.contains (value : Option Int64) :
    ∃ found, hash.contains value = .ok found ∧
      (found = true ↔ ∃ group ∈ groups, group = value) := by
  simp only [exists_eq_right]
  cases value with
  | none =>
      refine ⟨_, rfl, ?_⟩
      rw [isSome_iff_exists, mem_iff_getElem?]
      exact exists_congr h.nullGroup
  | some value =>
      obtain ⟨hashPosition, slot, hfind, hfound⟩ := h.holds.findSlot h.room value
      refine ⟨slot.isSome, ?_, ?_⟩
      · rw [BigintGroupByHash.contains, hfind, Outcome.bind_ok, hfound.getElem?]
        rfl
      · rw [mem_iff_getElem?]
        simp only [← h.holds.mem_iff value]
        constructor
        · intro hsome
          obtain ⟨⟨other, groupId⟩, rfl⟩ := isSome_iff_exists.mp hsome
          obtain rfl := eq_of_holdsValue (hfound.stored rfl)
          exact ⟨groupId, mem_of_getElem? hfound.getElem?⟩
        · rintro ⟨groupId, hmem⟩
          by_contra hnone
          have hmissing := hfound.missing (by simpa using hnone) _ hmem rfl
          simp [holdsValue] at hmissing

/-! ## The works -/

/-- A work has done the first rows of its block; their numbers are in the builder. -/
def Working (_ : BigintGroupByHash) (work : Work) (page : Block (Option Int64))
    (wantsGroupIds : Bool) (count : ℕ) (groupIds : List ℕ) : Prop :=
  if wantsGroupIds then
    work = .getGroupIds page (groupIds.map fun (n : ℕ) => (n : ℤ)) false count
  else work = .addPage page count

variable {first : ℕ}

theorem Represents.resumeRows {block : Block (Option Int64)}
    (hfirst : first < block.values.length) :
    (resumeRows needRehash BigintGroupByHash.tryRehash (putPosition block) block.values.length
      first hash).Meets TooLarge fun r => ∃ groups',
        WorkedOff Eq Represents block.values groups first r.1 r.2.1 r.2.2.1 groups' ∧
        (r.2.2.2 = true ↔ r.2.1 = block.values.length) := by
  refine resumeRows_spec ?_ (fun h _ => h.tryRehash) h hfirst
  intro hash groups i value hhash hneed hvalue
  rw [putPosition, hvalue]
  exact hhash.putIfAbsent hneed value

variable {work : Work} {page : Block (Option Int64)} {groupIds : List ℕ}

theorem Represents.process {wantsGroupIds : Bool}
    (hwork : Working hash work page wantsGroupIds first groupIds)
    (hfirst : first < page.values.length) :
    (hash.process work).Meets TooLarge fun r => ∃ last groupIds' groups',
      WorkedOff Eq Represents page.values groups first r.1 last groupIds' groups' ∧
      Working r.1 r.2.1 page wantsGroupIds last (groupIds ++ groupIds') ∧
      (r.2.2 = true ↔ last = page.values.length) := by
  cases wantsGroupIds with
  | false =>
      obtain rfl : work = .addPage page first := hwork
      rw [BigintGroupByHash.process]
      rw [if_neg (not_not.mpr hfirst)]
      refine Outcome.Meets.bind (h.resumeRows hfirst) ?_
      rintro ⟨hash', last, groupIds', done⟩ ⟨groups', hworked, hdone⟩
      exact ⟨last, groupIds', groups', hworked, rfl, hdone⟩
  | true =>
      obtain rfl : work = .getGroupIds page (groupIds.map fun (n : ℕ) => (n : ℤ)) false first :=
        hwork
      rw [BigintGroupByHash.process]
      rw [if_neg (not_not.mpr hfirst)]
      refine Outcome.Meets.bind (h.resumeRows hfirst) ?_
      rintro ⟨hash', last, groupIds', done⟩ ⟨groups', hworked, hdone⟩
      refine ⟨last, groupIds', groups', hworked, ?_, hdone⟩
      rw [Working, map_append]
      rfl

omit h

theorem getResult_of_working (hwork : Working hash work page true page.values.length groupIds) :
    ∃ r, hash.getResult work = .ok r ∧
      r.2.block.values = groupIds.map fun (n : ℕ) => (n : ℤ) := by
  obtain rfl : work =
      .getGroupIds page (groupIds.map fun (n : ℕ) => (n : ℤ)) false page.values.length := hwork
  rw [getResult, if_neg (not_not.mpr rfl)]
  exact ⟨_, rfl, rfl⟩

theorem Represents.appendValuesTo (h : Represents hash groups) {n : ℕ} {value : Option Int64}
    (hget : groups[n]? = some value) :
    ∃ values, hash.appendValuesTo n = .ok values ∧ values.1 = value := by
  refine ⟨_, rfl, ?_⟩
  rw [Int.toNat_natCast]
  cases value with
  | none => rw [if_pos ((h.nullGroup n).mpr hget)]
  | some value =>
      have hnull : ¬hash.nullGroupId = some n := by
        rw [h.nullGroup, hget]
        simp
      rw [if_neg hnull, h.values n value hget]

theorem groupByHash_lawful :
    groupByHash.Lawful Block.values Eq Prod.fst (fun _ => True) Represents Working where
  addPage := fun h _ => ⟨h, rfl⟩
  getGroupIds := fun h _ => ⟨h, rfl⟩
  process := fun h hwork _ hfirst => h.process hwork hfirst
  getResult := fun _ => getResult_of_working
  values := fun h hget => h.appendValuesTo hget
  contains := fun h _ => h.contains _

end BigintGroupByHash
end Presto.Operator.GroupBy
