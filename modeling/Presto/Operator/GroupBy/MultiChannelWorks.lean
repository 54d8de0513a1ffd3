import Presto.Operator.GroupBy.MultiChannelTable

/-!
# The works of a multi-channel table

Whatever the encoding of a page, its work gives every row the number that `putIfAbsent` would
have given it: a dictionary entry is put once and remembered, a run-length encoded page is put
once for all its rows.
-/

namespace Presto.Operator.GroupBy.MultiChannelGroupByHash

open MultiChannelGroupByHash Outcome.Meets List

open Presto.Support

variable {n : ℕ} {V : Fin (n + 1) → Type} {types : ChannelTypes V} {inputHashChannel : Bool}
  {hash : MultiChannelGroupByHash types inputHashChannel} {groups : List (Row V)}
  {Allowed : Row V → Prop} {page : Page types inputHashChannel}

/-- Rows that belong to one group. -/
abbrev SameRow (types : ChannelTypes V) (a b : Row V) : Prop :=
  notDistinctFromRow types a b = true

/-! ## The rows of a page -/

theorem length_rows (page : KeyBlocks V) : page.rows.length = page.positionCount :=
  length_ofFn

variable {row : Row V} {i : ℕ}

theorem getElem?_rows_iff {page : KeyBlocks V} :
    page.rows[i]? = some row ↔
      i < page.positionCount ∧
        ∀ channel, (page.blocks channel).values[i]? = some (row channel) := by
  rw [KeyBlocks.rows, List.getElem?_ofFn]
  by_cases hi : i < page.positionCount
  · have hlt : ∀ channel, i < (page.blocks channel).values.length := by
      intro channel
      rw [page.lengths]
      exact hi
    rw [dif_pos hi, Option.some.injEq, and_iff_right hi, funext_iff]
    simp only [getElem?_eq_getElem (hlt _), Option.some.injEq]
    rfl
  · simp [hi]

/-- All rows of a run-length encoded page are like its first one. -/
theorem rows_eq_replicate (h : isRunLengthEncoded page = true) (hrow : page.rows[0]? = some row) :
    page.rows = replicate page.rows.length row := by
  rw [eq_replicate_iff]
  refine ⟨rfl, ?_⟩
  intro other hother
  obtain ⟨i, hi⟩ := mem_iff_getElem?.mp hother
  funext channel
  have hfirst := (getElem?_rows_iff.mp hrow).2 channel
  have hlast := (getElem?_rows_iff.mp hi).2 channel
  have hencoded := all_eq_true.mp h channel (mem_finRange channel)
  cases hblock : page.blocks channel with
  | plain _ | dictionary _ _ _ => simp [hblock] at hencoded
  | runLengthEncoded value count =>
      rw [hblock] at hfirst hlast
      have hvalue := eq_of_mem_replicate (mem_of_getElem? hfirst)
      have hvalue' := eq_of_mem_replicate (mem_of_getElem? hlast)
      rw [hvalue, hvalue']

theorem Represents.putPosition
    (h : Represents Allowed hash groups) (hagree : HashesAgree types Allowed)
    (hneed : hash.needRehash = false) (hrow : page.rows[i]? = some row) (hallowed : Allowed row) :
    (putPosition page hash i).Meets TooLarge fun r =>
      ∃ groups', FirstOccurrence.Assigned (SameRow types) groups row r.2 groups' ∧
        Represents Allowed r.1 groups' := by
  have hput := (h.putIfAbsent hagree hneed hallowed).mono
    fun r hr => hr.imp fun _ hgroups => And.intro hgroups.1 hgroups.2.1
  rw [MultiChannelGroupByHash.putPosition, hrow]
  cases hblock : page.hashBlock with
  | none => exact hput
  | some block =>
      have hvalue : block.values[i]? = some (hashRow types row) := by
        rw [page.hashes block hblock, getElem?_map, hrow]
        rfl
      dsimp only
      rw [hvalue]
      exact hput

/-! ## Dictionaries -/

/-- The dictionaries of a page and the ids of its rows. -/
structure Extracted (page : Page types inputHashChannel) (dictionaryPage : DictionaryPage V) :
    Prop where
  entry : ∀ (i : ℕ) (row : Row V), page.rows[i]? = some row →
    ∃ (position : ℕ) (value : Option (V 0)),
    dictionaryPage.ids[i]? = some position ∧
      dictionaryPage.dictionary.values[position]? = some value ∧ row = dictionaryRow value ∧
      ∀ hashes, dictionaryPage.hashDictionary = some hashes →
        hashes[position]? = some (hashRow types row)

variable {dictionaryPage : DictionaryPage V}

/-- What makes a page one that is worked off by its dictionary. -/
theorem dictionaryPage_eq_some (h : hash.dictionaryPage page = some dictionaryPage) :
    n = 0 ∧ ∃ dictionary ids source, page.blocks 0 = .dictionary dictionary ids source ∧
      dictionaryPage.dictionary = dictionary ∧ dictionaryPage.ids = ids.map Fin.val ∧
      ∀ hashes, dictionaryPage.hashDictionary = some hashes →
        ∃ hashDictionary hashIds,
          page.hashBlock = some (.dictionary hashDictionary hashIds source) ∧
            hashes = hashDictionary.values := by
  unfold MultiChannelGroupByHash.dictionaryPage at h
  split at h
  · rename_i hcan
    unfold canProcessDictionary at hcan
    split at hcan
    · cases hcan
    rename_i hsingle
    have hn : n = 0 := by
      simp only [Bool.or_eq_true, decide_eq_true_eq] at hsingle
      omega
    unfold createPageWithExtractedDictionary at h
    cases hblock : page.blocks 0 with
    | plain _ | runLengthEncoded _ _ => simp [hblock] at h
    | dictionary dictionary ids source =>
        simp only [hblock, Option.some.injEq] at h hcan
        subst h
        refine ⟨hn, dictionary, ids, source, rfl, rfl, rfl, ?_⟩
        intro hashes hhashes
        cases hhash : page.hashBlock with
        | none => simp [hhash] at hhashes
        | some block =>
            cases block with
            | plain _ | runLengthEncoded _ _ => simp [hhash] at hhashes
            | dictionary hashDictionary hashIds hashSource =>
                simp only [hhash, Option.some.injEq, beq_iff_eq] at hhashes hcan
                subst hcan
                exact ⟨hashDictionary, hashIds, rfl, hhashes.symm⟩
  · cases h

theorem extracted_dictionaryPage (h : hash.dictionaryPage page = some dictionaryPage) :
    Extracted page dictionaryPage := by
  obtain ⟨hn, dictionary, ids, source, hblock, hdictionary, hids, hhashes⟩ :=
    dictionaryPage_eq_some h
  constructor
  intro i row hrow
  have hvalue := (getElem?_rows_iff.mp hrow).2 0
  rw [hblock, Block.values, getElem?_map, Option.map_eq_some_iff] at hvalue
  obtain ⟨id, hid, hget⟩ := hvalue
  refine ⟨id, row 0, ?_, ?_, ?_, ?_⟩
  · rw [hids, getElem?_map, hid]
    rfl
  · rw [hdictionary, getElem?_eq_getElem id.isLt, ← hget]
    rfl
  · funext channel
    have hchannel : channel = 0 := Fin.ext (by omega)
    subst hchannel
    rw [dictionaryRow, dif_pos rfl]
  · intro hashes hdictionaryHashes
    obtain ⟨hashDictionary, hashIds, hhashBlock, rfl⟩ := hhashes hashes hdictionaryHashes
    have haligned := page.aligned 0 dictionary ids source hashDictionary hashIds hblock hhashBlock
    have hrowHash : (Block.dictionary hashDictionary hashIds source).values[i]? =
        some (hashRow types row) := by
      rw [page.hashes _ hhashBlock, getElem?_map, hrow]
      rfl
    rw [Block.values, getElem?_map, Option.map_eq_some_iff] at hrowHash
    obtain ⟨hashId, hhashId, hgetHash⟩ := hrowHash
    have hsame : id.val = hashId.val := by
      have hat := congrArg (fun l => l[i]?) haligned
      simpa [hid, hhashId] using hat
    rw [hsame, getElem?_eq_getElem hashId.isLt, ← hgetHash]
    rfl

/-- The look-back of the table is one over the given dictionary. -/
structure HasLookBack (hash : MultiChannelGroupByHash types inputHashChannel)
    (dictionary : Dictionary (Option (V 0))) : Prop where
  exists_lookBack : ∃ lookBack, hash.dictionaryLookBack = some lookBack ∧
    lookBack.dictionary = dictionary

/-- The table while a page is worked off by its dictionary. -/
structure LooksBack (Allowed : Row V → Prop) (dictionary : Dictionary (Option (V 0)))
    (hash : MultiChannelGroupByHash types inputHashChannel) (groups : List (Row V)) : Prop where
  represents : Represents Allowed hash groups
  lookBack : hash.HasLookBack dictionary

/-- An entry that was met before has its group in the look-back. -/
theorem LooksBack.getGroupId (h : LooksBack Allowed dictionaryPage.dictionary hash groups)
    (hagree : HashesAgree types Allowed) (hneed : hash.needRehash = false) {position : ℕ}
    {value : Option (V 0)} (hvalue : dictionaryPage.dictionary.values[position]? = some value)
    (hallowed : Allowed (dictionaryRow value))
    (hhash : ∀ hashes, dictionaryPage.hashDictionary = some hashes →
      hashes[position]? = some (hashRow types (dictionaryRow value))) :
    (hash.getGroupId dictionaryPage position).Meets TooLarge fun r =>
      ∃ groups', FirstOccurrence.Assigned (SameRow types) groups (dictionaryRow value) r.2
          groups' ∧ LooksBack Allowed dictionaryPage.dictionary r.1 groups' := by
  obtain ⟨lookBack, hlookBack, hdictionary⟩ := h.lookBack.exists_lookBack
  rw [MultiChannelGroupByHash.getGroupId, hlookBack]
  dsimp only
  cases hprocessed : lookBack.processed position with
  | some groupId =>
      obtain ⟨group, other, hgroup, hother, hsame⟩ :=
        h.represents.lookBack lookBack hlookBack position groupId hprocessed
      rw [hdictionary, hvalue, Option.some.injEq] at hother
      subst hother
      exact ⟨groups, .old hgroup hsame, h⟩
  | none =>
      have hput : hash.putDictionaryPosition dictionaryPage position =
          hash.putIfAbsent (dictionaryRow value) (hashRow types (dictionaryRow value)) := by
        rw [putDictionaryPosition, hvalue]
        cases hhashes : dictionaryPage.hashDictionary with
        | none => rfl
        | some hashes =>
            dsimp only
            rw [hhash hashes hhashes]
      rw [hput]
      refine bind (h.represents.putIfAbsent hagree hneed hallowed) ?_
      rintro ⟨hash', groupId⟩ ⟨groups', hassigned, hhash', hsame⟩
      refine ⟨groups', hassigned, ?_, ⟨⟨_, rfl, hdictionary⟩⟩⟩
      refine { hhash' with lookBack := ?_ }
      rintro lookBack' ⟨⟩ other otherId hother
      dsimp only at hother hsame hhash'
      by_cases heq : other = position
      · subst heq
        obtain rfl : groupId = otherId := by simpa using hother
        obtain ⟨group, hgroup, hnot⟩ := hassigned.group (notDistinctFromRow_equivalence types)
        refine ⟨group, value, hgroup, ?_, hnot⟩
        rw [hdictionary]
        exact hvalue
      · rw [Function.update_of_ne heq] at hother
        exact hhash'.lookBack lookBack (hsame.trans hlookBack) other otherId hother

theorem LooksBack.getGroupIdAt (h : LooksBack Allowed dictionaryPage.dictionary hash groups)
    (hagree : HashesAgree types Allowed) (hextracted : Extracted page dictionaryPage)
    (hneed : hash.needRehash = false) (hrow : page.rows[i]? = some row) (hallowed : Allowed row) :
    (getGroupIdAt dictionaryPage hash i).Meets TooLarge fun r =>
      ∃ groups', FirstOccurrence.Assigned (SameRow types) groups row r.2 groups' ∧
        LooksBack Allowed dictionaryPage.dictionary r.1 groups' := by
  obtain ⟨position, value, hid, hvalue, rfl, hhash⟩ := hextracted.entry i row hrow
  rw [getGroupIdAt, hid]
  exact h.getGroupId hagree hneed hvalue hallowed hhash

/-- The look-back of another dictionary is not used. -/
theorem Represents.updateDictionaryLookBack [DecidableEq (V 0)] (h : Represents Allowed hash groups)
    (dictionary : Dictionary (Option (V 0))) :
    LooksBack Allowed dictionary (hash.updateDictionaryLookBack dictionary) groups := by
  have hfresh : LooksBack Allowed dictionary ({ hash with
      dictionaryLookBack := some ⟨dictionary, fun _ => none⟩ } :
        MultiChannelGroupByHash types inputHashChannel) groups := by
    refine ⟨{ h with lookBack := ?_ }, ⟨⟨_, rfl, rfl⟩⟩⟩
    rintro lookBack ⟨⟩ position groupId ⟨⟩
  unfold MultiChannelGroupByHash.updateDictionaryLookBack
  cases hlookBack : hash.dictionaryLookBack with
  | none => exact hfresh
  | some lookBack =>
      dsimp only
      by_cases hsame : lookBack.dictionary = dictionary
      · rw [if_neg (not_not.mpr hsame)]
        exact ⟨h, ⟨lookBack, hlookBack, hsame⟩⟩
      · rw [if_pos hsame]
        exact hfresh

/-! ## Run-length encoded pages -/

/-- What putting the first row leaves when the memory was granted, and when it was not. -/
def FirstRowPut (Allowed : Row V → Prop) (groups : List (Row V)) (row : Row V)
    (hash : MultiChannelGroupByHash types inputHashChannel) : Option ℕ → Prop
  | none => Represents Allowed hash groups
  | some groupId => ∃ groups', Represents Allowed hash groups' ∧
      FirstOccurrence.Assigned (SameRow types) groups row groupId groups'

theorem Represents.putFirstRow
    (h : Represents Allowed hash groups) (hagree : HashesAgree types Allowed)
    (hrow : page.rows[0]? = some row) (hallowed : Allowed row) :
    (putFirstRow page hash).Meets TooLarge fun r => FirstRowPut Allowed groups row r.1 r.2 := by
  have hready : (if hash.needRehash then hash.tryRehash
      else pure (hash, true)).Meets TooLarge fun r =>
        Represents Allowed r.1 groups ∧ (r.2 = true → r.1.needRehash = false) := by
    by_cases hneed : hash.needRehash = true
    · rw [if_pos hneed]
      exact h.tryRehash.mono fun r hr => ⟨hr.1, hr.2.2⟩
    · rw [if_neg hneed]
      exact ⟨h, fun _ => Bool.eq_false_iff.mpr hneed⟩
  refine bind hready ?_
  rintro ⟨hash', ready⟩ ⟨hhash', hneed⟩
  cases ready with
  | false => exact hhash'
  | true =>
      refine bind (hhash'.putPosition hagree (hneed rfl) hrow hallowed) ?_
      rintro ⟨hash'', groupId⟩ ⟨groups', hassigned, hhash''⟩
      exact ⟨groups', hhash'', hassigned⟩

/-- The number of the first row is that of all rows of the page. -/
theorem workedOff_of_runLengthEncoded
    (h : isRunLengthEncoded page = true) (hrow : page.rows[0]? = some row)
    {groupId : ℕ} {groups' : List (Row V)} (hhash : Represents Allowed hash groups')
    (hassigned : FirstOccurrence.Assigned (SameRow types) groups row groupId groups') :
    WorkedOff (SameRow types) (Represents Allowed) page.rows groups 0 hash page.rows.length
      (replicate page.rows.length groupId) groups' := by
  refine ⟨Nat.zero_le _, le_rfl, ?_, hhash⟩
  have hpos : 0 < page.rows.length := (List.getElem?_eq_some_iff.mp hrow).1
  obtain ⟨count, hcount⟩ := Nat.exists_eq_add_of_lt hpos
  obtain ⟨group, hgroup, hsame⟩ := hassigned.group (notDistinctFromRow_equivalence types)
  have hrest : FirstOccurrence.Numbering (SameRow types) groups' (replicate count row)
      (replicate count groupId) groups' := .replicate hgroup hsame count
  have hall := (FirstOccurrence.Numbering.single hassigned).trans hrest
  rw [take_length, rows_eq_replicate h hrow, length_replicate, hcount, Nat.zero_add]
  exact hall

/-! ## The laws of the interface -/

/-- A work has done the first rows of its page, and their numbers are in its builder. -/
def Working (hash : MultiChannelGroupByHash types inputHashChannel)
    (work : Work types inputHashChannel) (page : Page types inputHashChannel)
    (wantsGroupIds : Bool) (count : ℕ) (groupIds : List ℕ) : Prop :=
  match work with
  | .addNonDictionaryPage page' lastPosition =>
      wantsGroupIds = false ∧ page' = page ∧ lastPosition = count
  | .addDictionaryPage page' dictionaryPage lastPosition =>
      wantsGroupIds = false ∧ page' = page ∧ lastPosition = count ∧
        Extracted page dictionaryPage ∧ hash.HasLookBack dictionaryPage.dictionary
  | .addRunLengthEncodedPage page' finished =>
      wantsGroupIds = false ∧ page' = page ∧ isRunLengthEncoded page = true ∧
        count = if finished then page.rows.length else 0
  | .getNonDictionaryGroupIds page' blockBuilder finished lastPosition =>
      wantsGroupIds = true ∧ page' = page ∧ lastPosition = count ∧ finished = false ∧
        blockBuilder = groupIds.map fun (n : ℕ) => (n : ℤ)
  | .getDictionaryGroupIds page' dictionaryPage blockBuilder finished lastPosition =>
      wantsGroupIds = true ∧ page' = page ∧ lastPosition = count ∧ finished = false ∧
        blockBuilder = (groupIds.map fun (n : ℕ) => (n : ℤ)) ∧
        Extracted page dictionaryPage ∧ hash.HasLookBack dictionaryPage.dictionary
  | .getRunLengthEncodedGroupIds page' groupId processFinished resultProduced =>
      wantsGroupIds = true ∧ page' = page ∧ isRunLengthEncoded page = true ∧
        resultProduced = false ∧
        (if processFinished then ∃ id : ℕ, groupId = id ∧ count = page.rows.length ∧
            groupIds = List.replicate count id
          else count = 0 ∧ groupIds = [])

section Laws

variable (hagree : HashesAgree types Allowed) (hallowed : ∀ row ∈ page.rows, Allowed row)
  {first : ℕ} {groupIds : List ℕ}

include hagree hallowed

theorem Represents.resumeRows (h : Represents Allowed hash groups)
    (hfirst : first < page.rows.length) :
    (resumeRows needRehash MultiChannelGroupByHash.tryRehash
      (MultiChannelGroupByHash.putPosition page) page.positionCount first hash).Meets TooLarge
        fun r => ∃ groups', WorkedOff (SameRow types) (Represents Allowed) page.rows groups first
            r.1 r.2.1 r.2.2.1 groups' ∧
          (r.2.2.2 = true ↔ r.2.1 = page.rows.length) := by
  rw [← length_rows page.toKeyBlocks]
  refine resumeRows_spec ?_ (fun h _ => h.tryRehash.mono fun r hr => hr.1) h hfirst
  intro hash groups i row hhash hneed hrow
  exact hhash.putPosition hagree hneed hrow (hallowed row (mem_of_getElem? hrow))

theorem LooksBack.resumeRows (h : LooksBack Allowed dictionaryPage.dictionary hash groups)
    (hextracted : Extracted page dictionaryPage) (hfirst : first < page.rows.length) :
    (resumeRows needRehash tryRehash
      (MultiChannelGroupByHash.getGroupIdAt dictionaryPage) page.positionCount first hash).Meets
        TooLarge fun r => ∃ groups', WorkedOff (SameRow types)
            (LooksBack Allowed dictionaryPage.dictionary) page.rows groups first
            r.1 r.2.1 r.2.2.1 groups' ∧
          (r.2.2.2 = true ↔ r.2.1 = page.rows.length) := by
  rw [← length_rows page.toKeyBlocks]
  refine resumeRows_spec ?_ ?_ h hfirst
  · intro hash groups i row hhash hneed hrow
    exact hhash.getGroupIdAt hagree hextracted hneed hrow
      (hallowed row (mem_of_getElem? hrow))
  · intro hash groups hhash _
    refine hhash.represents.tryRehash.mono ?_
    rintro ⟨hash', grown⟩ ⟨hhash', hsame, -⟩
    obtain ⟨lookBack, hlookBack, hdictionary⟩ := hhash.lookBack.exists_lookBack
    exact ⟨hhash', ⟨lookBack, hsame.trans hlookBack, hdictionary⟩⟩

omit hagree hallowed in
/-- What a call of `process` leaves. -/
def Processed (Allowed : Row V → Prop) (page : Page types inputHashChannel)
    (wantsGroupIds : Bool) (groups : List (Row V)) (first : ℕ) (groupIds : List ℕ)
    (r : MultiChannelGroupByHash types inputHashChannel × Work types inputHashChannel × Bool) :
    Prop :=
  ∃ last groupIds' groups',
    WorkedOff (SameRow types) (Represents Allowed) page.rows groups first r.1 last groupIds'
      groups' ∧
    Working r.1 r.2.1 page wantsGroupIds last (groupIds ++ groupIds') ∧
    (r.2.2 = true ↔ last = page.rows.length)

/-- A run-length encoded page is worked off by its first row. -/
theorem Represents.process_firstRow
    (h : Represents Allowed hash groups) (hencoded : isRunLengthEncoded page = true)
    (hrows : 0 < page.rows.length) {wantsGroupIds : Bool}
    {finish : MultiChannelGroupByHash types inputHashChannel × Option ℕ →
      Outcome (MultiChannelGroupByHash types inputHashChannel × Work types inputHashChannel × Bool)}
    (hrefused : ∀ hash, ∃ work, finish (hash, none) = .ok (hash, work, false) ∧
      Working hash work page wantsGroupIds 0 (groupIds ++ []))
    (hgranted : ∀ hash groupId, ∃ work, finish (hash, some groupId) = .ok (hash, work, true) ∧
      Working hash work page wantsGroupIds page.rows.length
        (groupIds ++ replicate page.rows.length groupId)) :
    (MultiChannelGroupByHash.putFirstRow page hash >>= finish).Meets TooLarge
      (Processed Allowed page wantsGroupIds groups 0 groupIds) := by
  have hrow : page.rows[0]? = some page.rows[0] := getElem?_eq_getElem hrows
  refine bind (h.putFirstRow hagree hrow (hallowed _ (getElem_mem _))) ?_
  rintro ⟨hash', groupId⟩ hput
  cases groupId with
  | none =>
      obtain ⟨work, hfinish, hworking⟩ := hrefused hash'
      rw [hfinish]
      exact ⟨0, [], groups, ⟨le_rfl, Nat.zero_le _, .nil, hput⟩, hworking, by simpa using hrows.ne⟩
  | some groupId =>
      obtain ⟨work, hfinish, hworking⟩ := hgranted hash' groupId
      obtain ⟨groups', hhash', hassigned⟩ := hput
      rw [hfinish]
      exact ⟨_, _, groups', workedOff_of_runLengthEncoded hencoded hrow hhash' hassigned, hworking,
        by simp⟩

variable {work : Work types inputHashChannel}

theorem Represents.process (h : Represents Allowed hash groups)
    {wantsGroupIds : Bool} (hwork : Working hash work page wantsGroupIds first groupIds)
    (hfirst : first < page.rows.length) :
    (hash.process work).Meets TooLarge
      (Processed Allowed page wantsGroupIds groups first groupIds) := by
  have hposition : first < page.positionCount := by
    rw [← length_rows page.toKeyBlocks]
    exact hfirst
  cases work with
  | addNonDictionaryPage page' lastPosition =>
      obtain ⟨rfl, rfl, rfl⟩ := hwork
      rw [process, if_neg (not_not.mpr hposition)]
      refine bind (h.resumeRows hagree hallowed hfirst) ?_
      rintro ⟨hash', last, groupIds', done⟩ ⟨groups', hworked, hdone⟩
      exact ⟨last, groupIds', groups', hworked, ⟨rfl, rfl, rfl⟩, hdone⟩
  | addDictionaryPage page' dictionaryPage lastPosition =>
      obtain ⟨rfl, rfl, rfl, hextracted, hlookBack⟩ := hwork
      rw [process, if_neg (not_not.mpr hposition)]
      refine bind
        (LooksBack.resumeRows hagree hallowed ⟨h, hlookBack⟩ hextracted hfirst) ?_
      rintro ⟨hash', last, groupIds', done⟩ ⟨groups', hworked, hdone⟩
      exact ⟨last, groupIds', groups', { hworked with represents := hworked.represents.represents },
        ⟨rfl, rfl, rfl, hextracted, hworked.represents.lookBack⟩, hdone⟩
  | addRunLengthEncodedPage page' finished =>
      obtain ⟨rfl, rfl, hencoded, hcount⟩ := hwork
      cases finished with
      | true => exact absurd hcount hfirst.ne
      | false =>
          obtain rfl : first = 0 := hcount
          rw [process, if_neg hposition.ne']
          exact h.process_firstRow hagree hallowed hencoded hfirst
            (fun _ => ⟨_, rfl, rfl, rfl, hencoded, rfl⟩)
            fun _ _ => ⟨_, rfl, rfl, rfl, hencoded, rfl⟩
  | getNonDictionaryGroupIds page' blockBuilder finished lastPosition =>
      obtain ⟨rfl, rfl, rfl, rfl, rfl⟩ := hwork
      rw [process, if_neg (not_not.mpr hposition.le)]
      refine bind (h.resumeRows hagree hallowed hfirst) ?_
      rintro ⟨hash', last, groupIds', done⟩ ⟨groups', hworked, hdone⟩
      exact ⟨last, groupIds', groups', hworked, ⟨rfl, rfl, rfl, rfl, map_append.symm⟩, hdone⟩
  | getDictionaryGroupIds page' dictionaryPage blockBuilder finished lastPosition =>
      obtain ⟨rfl, rfl, rfl, rfl, rfl, hextracted, hlookBack⟩ := hwork
      rw [process, if_neg (not_not.mpr hposition)]
      refine bind
        (LooksBack.resumeRows hagree hallowed ⟨h, hlookBack⟩ hextracted hfirst) ?_
      rintro ⟨hash', last, groupIds', done⟩ ⟨groups', hworked, hdone⟩
      exact ⟨last, groupIds', groups', { hworked with represents := hworked.represents.represents },
        ⟨rfl, rfl, rfl, rfl, map_append.symm, hextracted, hworked.represents.lookBack⟩, hdone⟩
  | getRunLengthEncodedGroupIds page' groupId processFinished resultProduced =>
      obtain ⟨rfl, rfl, hencoded, rfl, hcount⟩ := hwork
      cases processFinished with
      | true =>
          obtain ⟨id, -, hcount, -⟩ := hcount
          exact absurd hcount hfirst.ne
      | false =>
          obtain ⟨rfl, rfl⟩ := hcount
          rw [process, if_neg hposition.ne']
          exact h.process_firstRow hagree hallowed hencoded hfirst
            (fun _ => ⟨_, rfl, rfl, rfl, hencoded, rfl, rfl, rfl⟩)
            fun _ groupId => ⟨_, rfl, rfl, rfl, hencoded, rfl, groupId, rfl, rfl, rfl⟩

omit hagree hallowed in
theorem getResult_of_working (hrows : page.rows ≠ [])
    (hwork : Working hash work page true page.rows.length groupIds) :
    ∃ r, hash.getResult work = .ok r ∧
      r.2.block.values = groupIds.map fun (n : ℕ) => (n : ℤ) := by
  have hlength := length_rows page.toKeyBlocks
  cases work with
  | addNonDictionaryPage _ _ | addDictionaryPage _ _ _ | addRunLengthEncodedPage _ _ =>
      obtain ⟨hwants, -⟩ := hwork
      cases hwants
  | getNonDictionaryGroupIds page' blockBuilder finished lastPosition =>
      obtain ⟨-, rfl, rfl, rfl, rfl⟩ := hwork
      rw [getResult, if_neg (not_not.mpr hlength)]
      exact ⟨_, rfl, rfl⟩
  | getDictionaryGroupIds page' dictionaryPage blockBuilder finished lastPosition =>
      obtain ⟨-, rfl, rfl, rfl, rfl, -⟩ := hwork
      rw [getResult, if_neg (not_not.mpr hlength)]
      exact ⟨_, rfl, rfl⟩
  | getRunLengthEncodedGroupIds page' groupId processFinished resultProduced =>
      obtain ⟨-, rfl, hencoded, rfl, hcount⟩ := hwork
      cases processFinished with
      | false => exact absurd (length_eq_zero_iff.mp hcount.1) hrows
      | true =>
          obtain ⟨id, rfl, -, rfl⟩ := hcount
          refine ⟨_, rfl, ?_⟩
          rw [map_replicate, hlength]
          rfl

end Laws

variable [DecidableEq (V 0)]

theorem Represents.addPage (h : Represents Allowed hash groups) :
    Represents Allowed (hash.addPage page).1 groups ∧
      Working (hash.addPage page).1 (hash.addPage page).2 page false 0 [] := by
  unfold MultiChannelGroupByHash.addPage
  split
  · rename_i hencoded
    exact ⟨h, rfl, rfl, hencoded, rfl⟩
  cases hdictionary : hash.dictionaryPage page with
  | none => exact ⟨h, rfl, rfl, rfl⟩
  | some dictionaryPage =>
      have hlooksBack := h.updateDictionaryLookBack dictionaryPage.dictionary
      exact ⟨hlooksBack.represents, rfl, rfl, rfl, extracted_dictionaryPage hdictionary,
        hlooksBack.lookBack⟩

theorem Represents.getGroupIds (h : Represents Allowed hash groups) :
    Represents Allowed (hash.getGroupIds page).1 groups ∧
      Working (hash.getGroupIds page).1 (hash.getGroupIds page).2 page true 0 [] := by
  unfold MultiChannelGroupByHash.getGroupIds
  split
  · rename_i hencoded
    exact ⟨h, rfl, rfl, hencoded, rfl, rfl, rfl⟩
  cases hdictionary : hash.dictionaryPage page with
  | none => exact ⟨h, rfl, rfl, rfl, rfl, rfl⟩
  | some dictionaryPage =>
      have hlooksBack := h.updateDictionaryLookBack dictionaryPage.dictionary
      exact ⟨hlooksBack.represents, rfl, rfl, rfl, rfl, rfl,
        extracted_dictionaryPage hdictionary, hlooksBack.lookBack⟩

/-- On rows whose hashes agree the table keeps the laws of the interface. -/
theorem groupByHash_lawful (hagree : HashesAgree types Allowed) :
    (groupByHash types inputHashChannel).Lawful (fun page => page.rows) (SameRow types) Prod.fst
      Allowed (Represents Allowed) Working where
  addPage := fun h _ => h.addPage
  getGroupIds := fun h _ => h.getGroupIds
  process := fun h hwork hallowed hfirst => h.process hagree hallowed hwork hfirst
  getResult := getResult_of_working
  values := fun h hget => h.appendValuesTo hget
  contains := fun h hkey => h.contains hagree hkey

end Presto.Operator.GroupBy.MultiChannelGroupByHash
