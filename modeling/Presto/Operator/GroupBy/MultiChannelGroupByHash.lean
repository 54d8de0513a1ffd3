import Mathlib.Data.List.FinRange
import Presto.Operator.GroupBy.GroupByHash
import Presto.Operator.PagesHash

/-!
# Grouping by several columns

`MultiChannelGroupByHash` appends the first row of every group to pages of its own; a slot of
the table holds the address of that row, the number of the group and one byte of the hash.  A
page with one dictionary encoded key column is worked off through a look-back array over the
dictionary, and of a run-length encoded page only the first row is looked at.
-/

namespace Presto.Operator.GroupBy

open Presto.Support

/-- What the table asks about the type of a channel: the hash of a value, and whether two values
that are not null are distinct. -/
structure ChannelType (V : Type) where
  hash : V → UInt64
  isDistinctFrom : V → V → Bool
  equivalence : Equivalence fun a b => isDistinctFrom a b = false

/-- `IS DISTINCT FROM` with its rules for null. -/
def ChannelType.distinct {V : Type} (type : ChannelType V) : Option V → Option V → Bool
  | none, none => false
  | some a, some b => type.isDistinctFrom a b
  | _, _ => true

section Rows

variable {n : ℕ} (V : Fin (n + 1) → Type)

/-- The values of the key channels in a row. -/
abbrev Row := (i : Fin (n + 1)) → Option (V i)

abbrev ChannelTypes := (i : Fin (n + 1)) → ChannelType (V i)

/-- The key channels of a page. -/
structure KeyBlocks where
  positionCount : ℕ
  blocks : (i : Fin (n + 1)) → Block (Option (V i))
  lengths : ∀ i, (blocks i).values.length = positionCount

variable {V}

/-- The row at a position. -/
def KeyBlocks.row (page : KeyBlocks V) (position : Fin page.positionCount) : Row V :=
  fun i => (page.blocks i).values.get ⟨position, by rw [page.lengths]; exact position.isLt⟩

def KeyBlocks.rows (page : KeyBlocks V) : List (Row V) := List.ofFn page.row

variable (types : ChannelTypes V)

/-- The hash of the channels of a row, combined from left to right. -/
def hashRow (row : Row V) : UInt64 :=
  (List.finRange (n + 1)).foldl
    (fun result i => result * 31 + (row i).elim 0 (types i).hash) 0

/-- No channel of the first row is distinct from that of the second. -/
def notDistinctFromRow (left right : Row V) : Bool :=
  (List.finRange (n + 1)).all fun i => !(types i).distinct (left i) (right i)

/-- A page of the input.  If the hash comes in a channel of its own, that channel holds the
hashes of the rows; where it is encoded with the same dictionary source as a key channel, the
two have the same ids. -/
structure Page (inputHashChannel : Bool) extends KeyBlocks V where
  hashBlock : Option (Block UInt64)
  present : hashBlock.isSome = inputHashChannel
  hashes : ∀ block, hashBlock = some block → block.values = toKeyBlocks.rows.map (hashRow types)
  aligned : ∀ i dictionary ids dictionarySourceId hashDictionary hashIds,
    blocks i = .dictionary dictionary ids dictionarySourceId →
    hashBlock = some (.dictionary hashDictionary hashIds dictionarySourceId) →
    ids.map Fin.val = hashIds.map Fin.val

end Rows

/-- A row that the table keeps, with its hash if that comes from the input. -/
structure StoredRow {n : ℕ} (V : Fin (n + 1) → Type) where
  row : Row V
  rawHash : Option UInt64

/-- An occupied slot: the entries of `groupAddressByHash`, `groupIdsByHash` and
`rawHashByHashPosition` at one position. -/
structure GroupSlot where
  address : ℕ × ℕ
  groupId : ℕ
  rawHash : UInt8

/-- The groups of the entries of a dictionary that were already met. -/
structure DictionaryLookBack {n : ℕ} (V : Fin (n + 1) → Type) where
  dictionary : Dictionary (Option (V 0))
  processed : ℕ → Option ℕ

/-- The table.  A slot is empty where `groupAddressByHash` has `-1`.  When the page under
construction is full is left open. -/
structure MultiChannelGroupByHash {n : ℕ} {V : Fin (n + 1) → Type} (types : ChannelTypes V)
    (inputHashChannel : Bool) where
  processDictionary : Bool
  isFull : List (StoredRow V) → Bool
  updateMemory : UpdateMemory
  memoryUpdates : ℕ
  completedPages : List (List (StoredRow V))
  currentPage : List (StoredRow V)
  hashCapacity : ℕ
  maxFill : ℕ
  slots : List (Option GroupSlot)
  groupAddressByGroupId : ℕ → ℕ × ℕ
  nextGroupId : ℕ
  dictionaryLookBack : Option (DictionaryLookBack V)

namespace MultiChannelGroupByHash

variable {n : ℕ} {V : Fin (n + 1) → Type} {types : ChannelTypes V} {inputHashChannel : Bool}

/-- The constructor. -/
def create (hashCommon : HashCommon) (types : ChannelTypes V) (inputHashChannel : Bool)
    (expectedSize : ℕ) (processDictionary : Bool) (isFull : List (StoredRow V) → Bool)
    (updateMemory : UpdateMemory) : Result (MultiChannelGroupByHash types inputHashChannel) :=
  if ¬0 < expectedSize then
    .error (.illegalArgument "expectedSize must be greater than zero")
  else do
    let hashCapacity ← hashCommon.arraySize expectedSize
    let maxFill ← calculateMaxFill hashCapacity
    pure {
      processDictionary := processDictionary
      isFull := isFull
      updateMemory := updateMemory
      memoryUpdates := 0
      completedPages := []
      currentPage := []
      hashCapacity := hashCapacity
      maxFill := maxFill
      slots := List.replicate hashCapacity none
      groupAddressByGroupId := fun _ => (0, 0)
      nextGroupId := 0
      dictionaryLookBack := none }

variable (hash : MultiChannelGroupByHash types inputHashChannel)

/-- The row at an address: the number of a page and a position in it. -/
def storedRow (address : ℕ × ℕ) : Option (StoredRow V) :=
  (hash.completedPages ++ [hash.currentPage])[address.1]?.bind fun page => page[address.2]?

def needRehash : Bool :=
  hash.maxFill ≤ hash.nextGroupId

/-- The slot holds a row that is not distinct from the given one; one byte of the hash is
compared first. -/
def positionNotDistinctFromCurrentRow (row : Row V) (rawHash : UInt64) : Option GroupSlot → Bool
  | none => false
  | some slot =>
      slot.rawHash == rawHash.toUInt8 &&
        (hash.storedRow slot.address).any fun stored => notDistinctFromRow types stored.row row

/-- The loop that looks for an empty slot or for the slot of a row. -/
def findSlot (row : Row V) (rawHash : UInt64) : Outcome ℕ :=
  match OpenAddressing.probe hash.slots
      (fun slot => slot.isNone || hash.positionNotDistinctFromCurrentRow row rawHash slot)
      hash.slots.length (getHashPosition rawHash hash.slots.length) with
  | none => .error .diverges
  | some hashPosition => .ok hashPosition

/-- Stores the group of an old slot in the new table. -/
def moveSlot (slots : List (Option GroupSlot)) (slot : GroupSlot) :
    Outcome (List (Option GroupSlot)) :=
  match hash.storedRow slot.address with
  | none => .error (.throws .indexOutOfBounds)
  | some stored =>
      let rawHash := stored.rawHash.getD (hashRow types stored.row)
      match OpenAddressing.probe slots Option.isNone slots.length
          (getHashPosition rawHash slots.length) with
      | none => .error .diverges
      | some pos => .ok (slots.set pos (some ⟨slot.address, slot.groupId, rawHash.toUInt8⟩))

/-- The loop that fills the new table: as many rounds as there are groups, each of which seeks
the next used slot. -/
def moveSlots :
    (groups : ℕ) → (oldSlots slots : List (Option GroupSlot)) → Outcome (List (Option GroupSlot))
  | 0, _, slots => .ok slots
  | groups + 1, oldSlots, slots =>
      match oldSlots.dropWhile Option.isNone with
      | some slot :: oldSlots => do
          let slots ← hash.moveSlot slots slot
          moveSlots groups oldSlots slots
      | _ => .error (.throws .indexOutOfBounds)

/-- Doubles the table, if the memory for it is granted. -/
def tryRehash : Outcome (MultiChannelGroupByHash types inputHashChannel × Bool) :=
  let newCapacity := hash.hashCapacity * 2
  if newCapacity > 2147483647 then .error (.throws tableTooLarge)
  else
    let granted := hash.updateMemory hash.memoryUpdates
    let hash := { hash with memoryUpdates := hash.memoryUpdates + 1 }
    if !granted then .ok (hash, false)
    else do
      let slots ← hash.moveSlots hash.nextGroupId hash.slots (List.replicate newCapacity none)
      let maxFill ← Outcome.ofResult (calculateMaxFill newCapacity)
      pure ({ hash with hashCapacity := newCapacity, maxFill := maxFill, slots := slots }, true)

/-- Closes the page under construction. -/
def startNewPage : MultiChannelGroupByHash types inputHashChannel :=
  { hash with completedPages := hash.completedPages ++ [hash.currentPage], currentPage := [] }

/-- Adds the first row of a group to the open page and records the group. -/
def recordGroup (hashPosition : ℕ) (row : Row V) (rawHash : UInt64) :
    MultiChannelGroupByHash types inputHashChannel :=
  let stored : StoredRow V := ⟨row, if inputHashChannel then some rawHash else none⟩
  let address := (hash.completedPages.length, hash.currentPage.length)
  let groupId := hash.nextGroupId
  { hash with
    currentPage := hash.currentPage ++ [stored]
    nextGroupId := groupId + 1
    slots := hash.slots.set hashPosition (some ⟨address, groupId, rawHash.toUInt8⟩)
    groupAddressByGroupId := Function.update hash.groupAddressByGroupId groupId address }

/-- Opens a group at an empty slot. -/
def addNewGroup (hashPosition : ℕ) (row : Row V) (rawHash : UInt64) :
    Outcome (MultiChannelGroupByHash types inputHashChannel × ℕ) :=
  let groupId := hash.nextGroupId
  let hash := hash.recordGroup hashPosition row rawHash
  let hash := if hash.isFull hash.currentPage then hash.startNewPage else hash
  if hash.needRehash then do
    let (hash, _) ← hash.tryRehash
    pure (hash, groupId)
  else .ok (hash, groupId)

/-- The number of the group of a row, which is opened if it does not exist. -/
def putIfAbsent (row : Row V) (rawHash : UInt64) :
    Outcome (MultiChannelGroupByHash types inputHashChannel × ℕ) := do
  let hashPosition ← hash.findSlot row rawHash
  match hash.slots[hashPosition]?.join with
  | some slot => pure (hash, slot.groupId)
  | none => hash.addNewGroup hashPosition row rawHash

/-- The number of the group of a row of a page. -/
def putPosition (page : Page types inputHashChannel)
    (hash : MultiChannelGroupByHash types inputHashChannel) (position : ℕ) :
    Outcome (MultiChannelGroupByHash types inputHashChannel × ℕ) :=
  match page.rows[position]? with
  | none => .error (.throws .indexOutOfBounds)
  | some row =>
      match page.hashBlock with
      | none => hash.putIfAbsent row (hashRow types row)
      | some hashBlock =>
          match hashBlock.values[position]? with
          | none => .error (.throws .indexOutOfBounds)
          | some rawHash => hash.putIfAbsent row rawHash

/-- Whether a row like the given one was added.  The page asked about has just the key channels,
so that the hash is computed from them. -/
def contains (row : Row V) : Outcome Bool := do
  let hashPosition ← hash.findSlot row (hashRow types row)
  pure hash.slots[hashPosition]?.join.isSome

/-- The values of a group, with its raw hash if that comes from the input. -/
def appendValuesTo (groupId : ℤ) : Result (Row V × Option UInt64) :=
  if groupId < 0 then .error .indexOutOfBounds
  else
    match hash.storedRow (hash.groupAddressByGroupId groupId.toNat) with
    | none => .error .indexOutOfBounds
    | some stored => .ok (stored.row, stored.rawHash)

/-! ## Dictionary and run-length encoded pages -/

/-- The dictionary of the key channel and that of the hash channel, and the ids of the rows. -/
structure DictionaryPage (V : Fin (n + 1) → Type) where
  dictionary : Dictionary (Option (V 0))
  ids : List ℕ
  hashDictionary : Option (List UInt64)

/-- The row that has a value in the first channel; where a dictionary is processed there is no
other channel. -/
def dictionaryRow (value : Option (V 0)) : Row V :=
  fun i => if h : i = 0 then h ▸ value else none

def createPageWithExtractedDictionary (page : Page types inputHashChannel) :
    Option (DictionaryPage V) :=
  match page.blocks 0 with
  | .dictionary dictionary ids _ =>
      some ⟨dictionary, ids.map Fin.val,
        match page.hashBlock with
        | some (.dictionary hashDictionary _ _) => some hashDictionary.values
        | _ => none⟩
  | _ => none

def canProcessDictionary (page : Page types inputHashChannel) : Bool :=
  if !hash.processDictionary || decide (1 < n + 1) then false
  else
    match page.blocks 0 with
    | .dictionary _ _ dictionarySourceId =>
        match page.hashBlock with
        | none => true
        | some (.dictionary _ _ hashSourceId) => hashSourceId == dictionarySourceId
        | some _ => false
    | _ => false

def isRunLengthEncoded (page : Page types inputHashChannel) : Bool :=
  (List.finRange (n + 1)).all fun i =>
    match page.blocks i with
    | .runLengthEncoded _ _ => true
    | _ => false

/-- A look-back over another dictionary is given up. -/
def updateDictionaryLookBack [DecidableEq (V 0)]
    (hash : MultiChannelGroupByHash types inputHashChannel)
    (dictionary : Dictionary (Option (V 0))) :
    MultiChannelGroupByHash types inputHashChannel :=
  match hash.dictionaryLookBack with
  | none => { hash with dictionaryLookBack := some ⟨dictionary, fun _ => none⟩ }
  | some lookBack =>
      if lookBack.dictionary ≠ dictionary then
        { hash with dictionaryLookBack := some ⟨dictionary, fun _ => none⟩ }
      else hash

/-- The number of the group of a dictionary entry that was not met before. -/
def putDictionaryPosition (page : DictionaryPage V) (positionInDictionary : ℕ) :
    Outcome (MultiChannelGroupByHash types inputHashChannel × ℕ) :=
  match page.dictionary.values[positionInDictionary]? with
  | none => .error (.throws .indexOutOfBounds)
  | some value =>
      match page.hashDictionary with
      | none => hash.putIfAbsent (dictionaryRow value) (hashRow types (dictionaryRow value))
      | some hashDictionary =>
          match hashDictionary[positionInDictionary]? with
          | none => .error (.throws .indexOutOfBounds)
          | some rawHash => hash.putIfAbsent (dictionaryRow value) rawHash

/-- The number of the group of a dictionary entry. -/
def getGroupId (page : DictionaryPage V) (positionInDictionary : ℕ) :
    Outcome (MultiChannelGroupByHash types inputHashChannel × ℕ) :=
  match hash.dictionaryLookBack with
  | none => .error (.throws .nullPointer)
  | some lookBack =>
      match lookBack.processed positionInDictionary with
      | some groupId => .ok (hash, groupId)
      | none => do
          let (hash, groupId) ← hash.putDictionaryPosition page positionInDictionary
          let lookBack := { lookBack with
            processed := Function.update lookBack.processed positionInDictionary (some groupId) }
          pure ({ hash with dictionaryLookBack := some lookBack }, groupId)

/-- The number of the group of a row of a dictionary encoded page. -/
def getGroupIdAt (page : DictionaryPage V)
    (hash : MultiChannelGroupByHash types inputHashChannel) (position : ℕ) :
    Outcome (MultiChannelGroupByHash types inputHashChannel × ℕ) :=
  match page.ids[position]? with
  | none => .error (.throws .indexOutOfBounds)
  | some positionInDictionary => hash.getGroupId page positionInDictionary

/-! ## The works -/

/-- The works for a page. -/
inductive Work (types : ChannelTypes V) (inputHashChannel : Bool)
  | addNonDictionaryPage (page : Page types inputHashChannel) (lastPosition : ℕ)
  | addDictionaryPage (page : Page types inputHashChannel) (dictionaryPage : DictionaryPage V)
      (lastPosition : ℕ)
  | addRunLengthEncodedPage (page : Page types inputHashChannel) (finished : Bool)
  | getNonDictionaryGroupIds (page : Page types inputHashChannel) (blockBuilder : List ℤ)
      (finished : Bool) (lastPosition : ℕ)
  | getDictionaryGroupIds (page : Page types inputHashChannel)
      (dictionaryPage : DictionaryPage V) (blockBuilder : List ℤ) (finished : Bool)
      (lastPosition : ℕ)
  | getRunLengthEncodedGroupIds (page : Page types inputHashChannel) (groupId : ℤ)
      (processFinished resultProduced : Bool)

/-- The dictionaries of a page that is worked off by its dictionary. -/
def dictionaryPage (page : Page types inputHashChannel) : Option (DictionaryPage V) :=
  if hash.canProcessDictionary page then createPageWithExtractedDictionary page else none

def addPage [DecidableEq (V 0)] (hash : MultiChannelGroupByHash types inputHashChannel)
    (page : Page types inputHashChannel) :
    MultiChannelGroupByHash types inputHashChannel × Work types inputHashChannel :=
  if isRunLengthEncoded page then (hash, .addRunLengthEncodedPage page false)
  else
    match hash.dictionaryPage page with
    | some dictionaryPage =>
        (hash.updateDictionaryLookBack dictionaryPage.dictionary,
          .addDictionaryPage page dictionaryPage 0)
    | none => (hash, .addNonDictionaryPage page 0)

def getGroupIds [DecidableEq (V 0)] (hash : MultiChannelGroupByHash types inputHashChannel)
    (page : Page types inputHashChannel) :
    MultiChannelGroupByHash types inputHashChannel × Work types inputHashChannel :=
  if isRunLengthEncoded page then (hash, .getRunLengthEncodedGroupIds page (-1) false false)
  else
    match hash.dictionaryPage page with
    | some dictionaryPage =>
        (hash.updateDictionaryLookBack dictionaryPage.dictionary,
          .getDictionaryGroupIds page dictionaryPage [] false 0)
    | none => (hash, .getNonDictionaryGroupIds page [] false 0)

/-- The first row of a run-length encoded page; nothing if the memory for it is not granted. -/
def putFirstRow (page : Page types inputHashChannel)
    (hash : MultiChannelGroupByHash types inputHashChannel) :
    Outcome (MultiChannelGroupByHash types inputHashChannel × Option ℕ) := do
  let (hash, ready) ← (if hash.needRehash then hash.tryRehash else pure (hash, true))
  if !ready then pure (hash, none)
  else
    let (hash, groupId) ← putPosition page hash 0
    pure (hash, some groupId)

def process : Work types inputHashChannel →
    Outcome (MultiChannelGroupByHash types inputHashChannel × Work types inputHashChannel × Bool)
  | .addNonDictionaryPage page lastPosition =>
      if ¬lastPosition < page.positionCount then
        .error (.throws (.illegalState "position count out of bound"))
      else do
        let (hash, lastPosition, _, done) ← resumeRows needRehash tryRehash (putPosition page)
          page.positionCount lastPosition hash
        pure (hash, .addNonDictionaryPage page lastPosition, done)
  | .addDictionaryPage page dictionaryPage lastPosition =>
      if ¬lastPosition < page.positionCount then
        .error (.throws (.illegalState "position count out of bound"))
      else do
        let (hash, lastPosition, _, done) ← resumeRows needRehash tryRehash
          (getGroupIdAt dictionaryPage) page.positionCount lastPosition hash
        pure (hash, .addDictionaryPage page dictionaryPage lastPosition, done)
  | .addRunLengthEncodedPage page finished =>
      if finished then .error (.throws (.illegalState ""))
      else if page.positionCount = 0 then .ok (hash, .addRunLengthEncodedPage page true, true)
      else do
        let (hash, groupId) ← putFirstRow page hash
        match groupId with
        | none => pure (hash, .addRunLengthEncodedPage page false, false)
        | some _ => pure (hash, .addRunLengthEncodedPage page true, true)
  | .getNonDictionaryGroupIds page blockBuilder finished lastPosition =>
      if ¬lastPosition ≤ page.positionCount then
        .error (.throws (.illegalState "position count out of bound"))
      else if finished then .error (.throws (.illegalState ""))
      else do
        let (hash, lastPosition, groupIds, done) ← resumeRows needRehash tryRehash
          (putPosition page) page.positionCount lastPosition hash
        pure (hash, .getNonDictionaryGroupIds page
          (blockBuilder ++ groupIds.map fun (n : ℕ) => (n : ℤ)) finished lastPosition, done)
  | .getDictionaryGroupIds page dictionaryPage blockBuilder finished lastPosition =>
      if ¬lastPosition < page.positionCount then
        .error (.throws (.illegalState "position count out of bound"))
      else if finished then .error (.throws (.illegalState ""))
      else do
        let (hash, lastPosition, groupIds, done) ← resumeRows needRehash tryRehash
          (getGroupIdAt dictionaryPage) page.positionCount lastPosition hash
        pure (hash, .getDictionaryGroupIds page dictionaryPage
          (blockBuilder ++ groupIds.map fun (n : ℕ) => (n : ℤ)) finished lastPosition, done)
  | .getRunLengthEncodedGroupIds page groupId processFinished resultProduced =>
      if processFinished then .error (.throws (.illegalState ""))
      else if page.positionCount = 0 then
        .ok (hash, .getRunLengthEncodedGroupIds page groupId true resultProduced, true)
      else do
        let (hash, newGroupId) ← putFirstRow page hash
        match newGroupId with
        | none =>
            pure (hash, .getRunLengthEncodedGroupIds page groupId false resultProduced, false)
        | some newGroupId =>
            pure (hash, .getRunLengthEncodedGroupIds page newGroupId true resultProduced, true)

def getResult : Work types inputHashChannel → Result (Work types inputHashChannel × GroupByIdBlock)
  | .addNonDictionaryPage _ _ => .error (.unsupportedOperation "")
  | .addDictionaryPage _ _ _ => .error (.unsupportedOperation "")
  | .addRunLengthEncodedPage _ _ => .error (.unsupportedOperation "")
  | .getNonDictionaryGroupIds page blockBuilder finished lastPosition =>
      if lastPosition ≠ page.positionCount then
        .error (.illegalState "process has not yet finished")
      else if finished then .error (.illegalState "result has produced")
      else
        .ok (.getNonDictionaryGroupIds page blockBuilder true lastPosition,
          ⟨hash.nextGroupId, .plain blockBuilder⟩)
  | .getDictionaryGroupIds page dictionaryPage blockBuilder finished lastPosition =>
      if lastPosition ≠ page.positionCount then
        .error (.illegalState "process has not yet finished")
      else if finished then .error (.illegalState "result has produced")
      else
        .ok (.getDictionaryGroupIds page dictionaryPage blockBuilder true lastPosition,
          ⟨hash.nextGroupId, .plain blockBuilder⟩)
  | .getRunLengthEncodedGroupIds page groupId processFinished resultProduced =>
      if !processFinished then .error (.illegalState "")
      else if resultProduced then .error (.illegalState "")
      else
        .ok (.getRunLengthEncodedGroupIds page groupId processFinished true,
          ⟨hash.nextGroupId, .runLengthEncoded groupId page.positionCount⟩)

/-- The table as an implementation of the interface. -/
def groupByHash [DecidableEq (V 0)] (types : ChannelTypes V) (inputHashChannel : Bool) :
    GroupByHash (Page types inputHashChannel) (MultiChannelGroupByHash types inputHashChannel)
      (Work types inputHashChannel) (Row V) (Row V × Option UInt64) where
  addPage := addPage
  getGroupIds := getGroupIds
  process := process
  getResult := getResult
  appendValuesTo := appendValuesTo
  contains := contains

end MultiChannelGroupByHash
end Presto.Operator.GroupBy
