import Mathlib.Data.List.Forall2
import Presto.Support.FirstOccurrence
import Presto.Support.Throwable

/-!
# Hash tables for grouping

A `GroupByHash` gives every row of its input the number of the row's group.  It is handed pages;
a page is worked off by a `Work`, whose `process` stops in the middle of the page when the table
has to grow and the memory for it is not granted, and goes on there when it is called again.

This module has the blocks of a page, the interface and its use page by page, and the loop that
the works share.
-/

namespace Presto.Operator.GroupBy

open Presto.Support FirstOccurrence List

/-- A dictionary object; two dictionaries with different values are different objects. -/
structure Dictionary (α : Type) where
  reference : ℕ
  values : List α
  deriving DecidableEq

/-- A column of a page in one of the encodings. -/
inductive Block (α : Type)
  | plain (values : List α)
  | dictionary (dictionary : Dictionary α) (ids : List (Fin dictionary.values.length))
      (dictionarySourceId : ℕ)
  | runLengthEncoded (value : α) (positionCount : ℕ)

/-- The values of a block by position. -/
def Block.values {α : Type} : Block α → List α
  | .plain values => values
  | .dictionary entries ids _ => ids.map fun id => entries.values.get id
  | .runLengthEncoded value positionCount => List.replicate positionCount value

/-- The group numbers of the rows of a page. -/
structure GroupByIdBlock where
  groupCount : ℕ
  block : Block ℤ

/-- The callback that reserves memory: the answers to its calls, in order. -/
abbrev UpdateMemory := ℕ → Bool

/-- The finalizer of MurmurHash3 for 64 bits. -/
def murmurHash3 (x : UInt64) : UInt64 :=
  let x := x ^^^ (x >>> 33)
  let x := x * 0xff51afd7ed558ccd
  let x := x ^^^ (x >>> 33)
  let x := x * 0xc4ceb9fe1a85ec53
  x ^^^ (x >>> 33)

/-- The slot where probing starts.  The capacity is a power of two, so that the mask takes the
remainder. -/
def getHashPosition (rawHash : UInt64) (hashCapacity : ℕ) : ℕ :=
  (murmurHash3 rawHash).toNat % hashCapacity

/-- The hash of a `long`, as `AbstractLongType` has it. -/
def longHash (value : UInt64) : UInt64 :=
  let product := value * 0xC2B2AE3D27D4EB4F
  ((product <<< 31) ||| (product >>> 33)) * 0x9E3779B185EBCA87

/-- How many groups a table may hold before it has to grow. -/
def calculateMaxFill (hashSize : ℕ) : Result ℕ :=
  if ¬0 < hashSize then .error (.illegalArgument "hashSize must be greater than 0")
  else
    let maxFill := (3 * hashSize + 3) / 4
    let maxFill := if maxFill = hashSize then maxFill - 1 else maxFill
    if ¬maxFill < hashSize then
      .error (.illegalArgument "hashSize must be larger than maxFill")
    else .ok maxFill

/-- The exception when a table would have to grow beyond the largest array. -/
def tableTooLarge : Throwable :=
  .prestoException .genericInsufficientResources
    "Size of hash table cannot exceed 1 billion entries"

/-- The only way in which working off a page may fail. -/
def TooLarge (e : Abrupt) : Prop := e = .throws tableTooLarge

theorem calculateMaxFill_eq {hashSize : ℕ} (h : 2 ≤ hashSize) :
    calculateMaxFill hashSize = .ok (min ((3 * hashSize + 3) / 4) (hashSize - 1)) := by
  rw [calculateMaxFill, if_neg (by omega)]
  dsimp only
  by_cases hfull : (3 * hashSize + 3) / 4 = hashSize
  · rw [if_pos hfull, if_neg (by omega)]
    congr 1
    omega
  · rw [if_neg hfull, if_neg (by omega)]
    congr 1
    omega

/-! ## The rows of a page -/

section Rows

variable {State : Type}

/-- The loop of a work: the rows get their numbers until the table has to grow. -/
def putRows (needRehash : State → Bool) (putIfAbsent : State → ℕ → Outcome (State × ℕ)) :
    (remaining : ℕ) → State → (lastPosition : ℕ) → Outcome (State × ℕ × List ℕ)
  | 0, hash, lastPosition => .ok (hash, lastPosition, [])
  | remaining + 1, hash, lastPosition =>
      if needRehash hash then .ok (hash, lastPosition, [])
      else do
        let (hash, groupId) ← putIfAbsent hash lastPosition
        let (hash, lastPosition, groupIds) ←
          putRows needRehash putIfAbsent remaining hash (lastPosition + 1)
        pure (hash, lastPosition, groupId :: groupIds)

/-- The body of `process`: the state, the next position, the numbers of the rows that were
worked off and whether the page is finished. -/
def resumeRows (needRehash : State → Bool) (tryRehash : State → Outcome (State × Bool))
    (putIfAbsent : State → ℕ → Outcome (State × ℕ)) (positionCount lastPosition : ℕ)
    (hash : State) : Outcome (State × ℕ × List ℕ × Bool) := do
  let (hash, ready) ← (if needRehash hash then tryRehash hash else pure (hash, true))
  if !ready then
    pure (hash, lastPosition, [], false)
  else
    let (hash, lastPosition, groupIds) ←
      putRows needRehash putIfAbsent (positionCount - lastPosition) hash lastPosition
    pure (hash, lastPosition, groupIds, lastPosition == positionCount)

variable {κ : Type} {same : κ → κ → Prop} {Represents : State → List κ → Prop}
  {needRehash : State → Bool} {tryRehash : State → Outcome (State × Bool)}
  {putIfAbsent : State → ℕ → Outcome (State × ℕ)} {rows : List κ} {hash : State}
  {groups : List κ}

/-- What working off a part of the rows leaves. -/
structure WorkedOff (same : κ → κ → Prop) (Represents : State → List κ → Prop)
    (rows groups : List κ) (first : ℕ) (hash : State) (last : ℕ) (groupIds : List ℕ)
    (groups' : List κ) : Prop where
  le : first ≤ last
  le_length : last ≤ rows.length
  numbering : Numbering same groups ((rows.take last).drop first) groupIds groups'
  represents : Represents hash groups'

variable {first : ℕ}

theorem WorkedOff.none (h : Represents hash groups) (hfirst : first ≤ rows.length) :
    WorkedOff same Represents rows groups first hash first [] groups := by
  refine ⟨le_rfl, hfirst, ?_, h⟩
  rw [drop_take_self]
  exact .nil

variable (hput : ∀ {hash groups i a}, Represents hash groups → needRehash hash = false →
  rows[i]? = some a → (putIfAbsent hash i).Meets TooLarge fun r =>
    ∃ groups', Assigned same groups a r.2 groups' ∧ Represents r.1 groups')

include hput

theorem putRows_spec :
    ∀ (remaining : ℕ) {hash : State} {groups : List κ} {first : ℕ},
      Represents hash groups → first + remaining = rows.length →
      (putRows needRehash putIfAbsent remaining hash first).Meets TooLarge fun r =>
        ∃ groups', WorkedOff same Represents rows groups first r.1 r.2.1 r.2.2 groups' := by
  intro remaining
  induction remaining with
  | zero =>
      intro hash groups first hhash hlength
      exact ⟨groups, .none hhash (by omega)⟩
  | succ remaining ih =>
      intro hash groups first hhash hlength
      rw [putRows]
      by_cases hneed : needRehash hash = true
      · rw [if_pos hneed]
        exact ⟨groups, .none hhash (by omega)⟩
      · rw [if_neg hneed]
        have hfirst : first < rows.length := by omega
        refine Outcome.Meets.bind
          (hput hhash (by simpa using hneed) (getElem?_eq_getElem hfirst)) ?_
        rintro ⟨hash', groupId⟩ ⟨groups', hassigned, hhash'⟩
        refine Outcome.Meets.bind (ih hhash' (by omega)) ?_
        rintro ⟨hash'', last, groupIds⟩ ⟨groups'', hworked⟩
        refine ⟨groups'', Nat.le_of_succ_le hworked.le, hworked.le_length, ?_, hworked.represents⟩
        have hlt : first < (rows.take last).length := by
          have hle : first + 1 ≤ last := hworked.le
          rw [length_take]
          omega
        rw [drop_eq_getElem_cons hlt, getElem_take]
        exact (Numbering.single hassigned).trans hworked.numbering

theorem resumeRows_spec
    (hrehash : ∀ {hash groups}, Represents hash groups → needRehash hash = true →
      (tryRehash hash).Meets TooLarge fun r => Represents r.1 groups)
    (hhash : Represents hash groups) (hfirst : first < rows.length) :
    (resumeRows needRehash tryRehash putIfAbsent rows.length first hash).Meets TooLarge fun r =>
      ∃ groups', WorkedOff same Represents rows groups first r.1 r.2.1 r.2.2.1 groups' ∧
        (r.2.2.2 = true ↔ r.2.1 = rows.length) := by
  have hready : (if needRehash hash then tryRehash hash
      else pure (hash, true)).Meets TooLarge fun r => Represents r.1 groups := by
    by_cases hneed : needRehash hash = true
    · rw [if_pos hneed]
      exact hrehash hhash hneed
    · rw [if_neg hneed]
      exact hhash
  refine Outcome.Meets.bind hready ?_
  rintro ⟨hash', ready⟩ hhash'
  cases ready with
  | false =>
      refine ⟨groups, .none hhash' hfirst.le, ?_⟩
      simp only [Bool.false_eq_true, false_iff]
      exact hfirst.ne
  | true =>
      refine Outcome.Meets.bind (putRows_spec hput (rows.length - first) hhash' (by omega)) ?_
      rintro ⟨hash'', last, groupIds⟩ ⟨groups', hworked⟩
      exact ⟨groups', hworked, beq_iff_eq⟩

end Rows

/-! ## The interface and its use -/

/-- The interface `GroupByHash`: starting a work for a page, running it, taking its result, and
the questions about the groups. -/
structure GroupByHash (Page State Work Key Values : Type) where
  addPage : State → Page → State × Work
  getGroupIds : State → Page → State × Work
  process : State → Work → Outcome (State × Work × Bool)
  getResult : State → Work → Result (Work × GroupByIdBlock)
  appendValuesTo : State → ℤ → Result Values
  contains : State → Key → Outcome Bool

/-- A page that is being worked off. -/
structure PendingPage (Page Work : Type) where
  page : Page
  wantsGroupIds : Bool
  work : Work

/-- The use of a table: pages are handed over one after the other, and the next page only when
the work for the last one is finished. -/
structure Session (Page State Work : Type) where
  hash : State
  pending : Option (PendingPage Page Work)
  finished : List (Page × Option GroupByIdBlock)

section Use

variable {Page State Work Key Values : Type} (impl : GroupByHash Page State Work Key Values)
  (rows : Page → List Key)

namespace Session

variable (session : Session Page State Work)

/-- Hands over a page whose groups are only added. -/
def addPage (page : Page) : Session Page State Work :=
  let (hash, work) := impl.addPage session.hash page
  { session with hash := hash, pending := some ⟨page, false, work⟩ }

/-- Hands over a page whose group numbers are asked for. -/
def getGroupIds (page : Page) : Session Page State Work :=
  let (hash, work) := impl.getGroupIds session.hash page
  { session with hash := hash, pending := some ⟨page, true, work⟩ }

/-- Runs the pending work; when it is finished, its result is taken. -/
def process : Outcome (Session Page State Work) :=
  match session.pending with
  | none => .ok session
  | some pending => do
      let (hash, work, done) ← impl.process session.hash pending.work
      if !done then
        pure { session with hash := hash, pending := some { pending with work := work } }
      else if pending.wantsGroupIds then
        let (_, block) ← Outcome.ofResult (impl.getResult hash work)
        pure ⟨hash, none, session.finished ++ [(pending.page, some block)]⟩
      else
        pure ⟨hash, none, session.finished ++ [(pending.page, none)]⟩

/-- The sessions that start with a given table, for any number of attempts at each page. -/
inductive Reachable (start : State) : Session Page State Work → Prop
  | start : Reachable start ⟨start, none, []⟩
  | addPage {session : Session Page State Work} {page : Page} (h : Reachable start session)
      (hidle : session.pending = none) (hrows : rows page ≠ []) :
      Reachable start (session.addPage impl page)
  | getGroupIds {session : Session Page State Work} {page : Page}
      (h : Reachable start session) (hidle : session.pending = none) (hrows : rows page ≠ []) :
      Reachable start (session.getGroupIds impl page)
  | process {session session' : Session Page State Work} (h : Reachable start session)
      (hprocess : session.process impl = .ok session') : Reachable start session'

/-- The rows of the page that is being worked off. -/
def pendingRows : List Key :=
  session.pending.elim [] fun pending => rows pending.page

/-- The rows of all pages that were handed over. -/
def input : List Key :=
  session.finished.flatMap (fun entry => rows entry.1) ++ session.pendingRows rows

/-- The rows that have their number, when these are `count` rows of the pending page. -/
def numbered (count : ℕ) : List Key :=
  session.finished.flatMap (fun entry => rows entry.1) ++ (session.pendingRows rows).take count

end Session

/-- The results for the finished pages are the numbers of their rows. -/
def ResultsMatch (finished : List (Page × Option GroupByIdBlock)) (pageIds : List (List ℕ)) :
    Prop :=
  List.Forall₂ (fun entry groupIds => groupIds.length = (rows entry.1).length ∧
    ∀ block : GroupByIdBlock, entry.2 = some block →
      block.block.values = groupIds.map fun (n : ℕ) => (n : ℤ)) finished pageIds

variable (same : Key → Key → Prop)

/-- The groups of the rows that have their number. -/
structure CorrectGroups (keyOf : Values → Key) (Asked : Key → Prop) (hash : State) (done : List Key)
    (groupIds : List ℕ) : Prop where
  length : groupIds.length = done.length
  sameGroup : ∀ (i j m n : ℕ) (a b : Key), done[i]? = some a → done[j]? = some b →
    groupIds[i]? = some m → groupIds[j]? = some n → (m = n ↔ same a b)
  dense : ∀ i n : ℕ, groupIds[i]? = some n → n ∉ groupIds.take i →
    ∀ m, m ∈ groupIds.take i ↔ m < n
  values : ∀ (i n : ℕ) (a : Key), done[i]? = some a → groupIds[i]? = some n →
    n ∉ groupIds.take i → ∃ values, impl.appendValuesTo hash n = .ok values ∧ keyOf values = a
  contains : ∀ key, Asked key → ∃ found, impl.contains hash key = .ok found ∧
    (found = true ↔ ∃ a ∈ done, same a key)

/-- The rows that were worked off have the right groups, the results are the numbers of the rows,
and the next attempt returns unless the table would grow beyond its limit. -/
def Session.Correct (keyOf : Values → Key) (Asked : Key → Prop)
    (session : Session Page State Work) : Prop :=
  (∃ (pageIds : List (List ℕ)) (current : List ℕ),
    ResultsMatch rows session.finished pageIds ∧
    CorrectGroups impl same keyOf Asked session.hash (session.numbered rows current.length)
      (pageIds.flatten ++ current)) ∧
  (session.process impl).Meets TooLarge fun _ => True

/-- The laws of an implementation: `Represents` relates a table to the first rows of its groups,
`Working` a work to the number of rows it has done and to their numbers.  The rows and the keys
asked for are `Allowed`. -/
structure GroupByHash.Lawful (keyOf : Values → Key) (Allowed : Key → Prop)
    (Represents : State → List Key → Prop)
    (Working : State → Work → Page → Bool → ℕ → List ℕ → Prop) : Prop where
  addPage : ∀ {hash groups page}, Represents hash groups → rows page ≠ [] →
    Represents (impl.addPage hash page).1 groups ∧
      Working (impl.addPage hash page).1 (impl.addPage hash page).2 page false 0 []
  getGroupIds : ∀ {hash groups page}, Represents hash groups → rows page ≠ [] →
    Represents (impl.getGroupIds hash page).1 groups ∧
      Working (impl.getGroupIds hash page).1 (impl.getGroupIds hash page).2 page true 0 []
  process : ∀ {hash groups work page wantsGroupIds first groupIds}, Represents hash groups →
    Working hash work page wantsGroupIds first groupIds → (∀ a ∈ rows page, Allowed a) →
    first < (rows page).length → (impl.process hash work).Meets TooLarge fun r =>
      ∃ last groupIds' groups',
        WorkedOff same Represents (rows page) groups first r.1 last groupIds' groups' ∧
        Working r.1 r.2.1 page wantsGroupIds last (groupIds ++ groupIds') ∧
        (r.2.2 = true ↔ last = (rows page).length)
  getResult : ∀ {hash work page groupIds}, rows page ≠ [] →
    Working hash work page true (rows page).length groupIds →
    ∃ r, impl.getResult hash work = .ok r ∧
      r.2.block.values = groupIds.map fun (n : ℕ) => (n : ℤ)
  values : ∀ {hash groups} {n : ℕ} {a : Key}, Represents hash groups → groups[n]? = some a →
    ∃ values, impl.appendValuesTo hash n = .ok values ∧ keyOf values = a
  contains : ∀ {hash groups key}, Represents hash groups → Allowed key →
    ∃ found, impl.contains hash key = .ok found ∧ (found = true ↔ ∃ g ∈ groups, same g key)

/-- What holds between two calls of a session. -/
structure Session.Invariant (Represents : State → List Key → Prop)
    (Working : State → Work → Page → Bool → ℕ → List ℕ → Prop) (session : Session Page State Work)
    (groups : List Key) (pageIds : List (List ℕ)) (current : List ℕ) : Prop where
  represents : Represents session.hash groups
  numbering : Numbering same [] (session.numbered rows current.length)
    (pageIds.flatten ++ current) groups
  results : ResultsMatch rows session.finished pageIds
  idle : session.pending = none → current = []
  working : ∀ pending, session.pending = some pending →
    current.length < (rows pending.page).length ∧
      Working session.hash pending.work pending.page pending.wantsGroupIds current.length current

variable {impl rows same} {keyOf : Values → Key} {Allowed : Key → Prop}
  {Represents : State → List Key → Prop}
  {Working : State → Work → Page → Bool → ℕ → List ℕ → Prop}
  {session : Session Page State Work} {groups : List Key} {pageIds : List (List ℕ)}
  {current : List ℕ}

namespace Session

variable (h : session.Invariant rows same Represents Working groups pageIds current)

include h

variable {hash : State}

/-- A session whose page has been handed over just now. -/
theorem Invariant.begin (hidle : session.pending = none) {page : Page} {wantsGroupIds : Bool}
    {work : Work} (hrows : rows page ≠ []) (hhash : Represents hash groups)
    (hwork : Working hash work page wantsGroupIds 0 []) :
    Invariant rows same Represents Working
      { session with hash := hash, pending := some ⟨page, wantsGroupIds, work⟩ }
      groups pageIds [] := by
  refine ⟨hhash, ?_, h.results, fun _ => rfl, ?_⟩
  · have hnumbering := h.numbering
    rw [h.idle hidle] at hnumbering
    simpa [numbered] using hnumbering
  · rintro pending ⟨⟩
    exact ⟨length_pos_of_ne_nil hrows, hwork⟩

/-- The numbers of the rows of the pending page that were worked off are added to those that
were there. -/
theorem Invariant.numbering_append
    {pending : PendingPage Page Work} (hpending : session.pending = some pending)
    {last : ℕ} {groupIds : List ℕ} {groups' : List Key}
    (hworked : WorkedOff same Represents (rows pending.page) groups current.length hash last
      groupIds groups') :
    Numbering same []
      (session.finished.flatMap (fun entry => rows entry.1) ++ (rows pending.page).take last)
      (pageIds.flatten ++ (current ++ groupIds)) groups' ∧
    (current ++ groupIds).length = last := by
  have hnumbering := h.numbering.trans hworked.numbering
  have hle := hworked.le
  have hlast := hworked.le_length
  have htake : (rows pending.page).take current.length ++
      ((rows pending.page).take last).drop current.length = (rows pending.page).take last := by
    conv_rhs => rw [← take_append_drop current.length ((rows pending.page).take last)]
    rw [take_take, Nat.min_eq_left hle]
  constructor
  · rw [Session.numbered, pendingRows, hpending, Option.elim_some, append_assoc, htake,
      append_assoc] at hnumbering
    exact hnumbering
  · have hlength := hworked.numbering.length_eq
    rw [length_append, hlength, length_drop, length_take]
    omega

theorem Invariant.process (himpl : impl.Lawful rows same keyOf Allowed Represents Working)
    (hallowed : ∀ a ∈ session.pendingRows rows, Allowed a) :
    (session.process impl).Meets TooLarge fun session' =>
      ∃ groups' pageIds' current',
        session'.Invariant rows same Represents Working groups' pageIds' current' := by
  rw [Session.process]
  cases hpending : session.pending with
  | none => exact ⟨groups, pageIds, current, h⟩
  | some pending =>
      rw [pendingRows, hpending] at hallowed
      obtain ⟨hfirst, hworking⟩ := h.working pending hpending
      refine Outcome.Meets.bind (himpl.process h.represents hworking hallowed hfirst) ?_
      rintro ⟨hash, work, done⟩ ⟨last, groupIds, groups', hworked, hworking', hdone⟩
      obtain ⟨hnumbering, hlength⟩ := h.numbering_append hpending hworked
      cases done with
      | false =>
          refine ⟨groups', pageIds, current ++ groupIds, hworked.represents, ?_, h.results, ?_, ?_⟩
          · rw [hlength]
            exact hnumbering
          · rintro ⟨⟩
          · rintro pending' ⟨⟩
            have hne : last ≠ (rows pending.page).length := fun heq => by simp [heq] at hdone
            have hle := hworked.le_length
            rw [hlength]
            exact ⟨by dsimp only; omega, hworking'⟩
      | true =>
          obtain rfl : last = (rows pending.page).length := hdone.mp rfl
          -- the numbers of the finished page
          have hfinish : ∀ result : Option GroupByIdBlock,
              (∀ block, result = some block →
                block.block.values = (current ++ groupIds).map fun (n : ℕ) => (n : ℤ)) →
              Invariant rows same Represents Working
                ⟨hash, none, session.finished ++ [(pending.page, result)]⟩ groups'
                (pageIds ++ [current ++ groupIds]) [] := by
            intro result hresult
            refine ⟨hworked.represents, ?_, ?_, fun _ => rfl, ?_⟩
            · simpa [numbered, pendingRows] using hnumbering
            · exact rel_append h.results (.cons ⟨hlength, hresult⟩ .nil)
            · rintro pending' ⟨⟩
          cases hwants : pending.wantsGroupIds with
          | false => exact ⟨groups', _, _, hfinish none (by simp)⟩
          | true =>
              rw [hwants] at hworking'
              obtain ⟨⟨work', block⟩, hresult, hvalues⟩ := himpl.getResult
                (ne_nil_of_length_pos (Nat.zero_lt_of_lt hfirst)) hworking'
              have hok : Outcome.ofResult (impl.getResult hash work) = .ok (work', block) := by
                rw [hresult]
                rfl
              simp only [if_true, hok, Outcome.bind_ok]
              refine ⟨groups', _, _, hfinish (some block) ?_⟩
              rintro block' ⟨⟩
              exact hvalues

omit h

/-- The rows of the pages handed over before a call are among those handed over after it. -/
theorem input_subset_process
    {session' : Session Page State Work} (h : session.process impl = .ok session') :
    session.input rows ⊆ session'.input rows := by
  rw [Session.process] at h
  cases hpending : session.pending with
  | none =>
      rw [hpending] at h
      cases h
      exact List.Subset.refl _
  | some pending =>
      rw [hpending] at h
      obtain ⟨⟨hash, work, done⟩, -, h⟩ := Result.bind_eq_ok_iff.mp h
      dsimp only at h
      split_ifs at h
      · cases h
        simp [input, pendingRows, hpending]
      · obtain ⟨result, -, h⟩ := Result.bind_eq_ok_iff.mp h
        cases h
        simp [input, pendingRows, hpending]
      · cases h
        simp [input, pendingRows, hpending]

variable {start : State}

theorem Reachable.exists_invariant (himpl : impl.Lawful rows same keyOf Allowed Represents Working)
    (hstart : Represents start []) (h : Reachable impl rows start session)
    (hallowed : ∀ a ∈ session.input rows, Allowed a) :
    ∃ groups pageIds current,
      session.Invariant rows same Represents Working groups pageIds current := by
  induction h with
  | start =>
      refine ⟨[], [], [], hstart, .nil, .nil, fun _ => rfl, ?_⟩
      rintro pending ⟨⟩
  | @addPage session page h hidle hrows ih =>
      obtain ⟨groups, pageIds, current, hinv⟩ := ih fun a ha => hallowed a (by
        simpa [input, pendingRows, hidle, Session.addPage] using Or.inl ha)
      obtain ⟨hhash, hwork⟩ := himpl.addPage hinv.represents hrows
      exact ⟨groups, pageIds, [], hinv.begin hidle hrows hhash hwork⟩
  | @getGroupIds session page h hidle hrows ih =>
      obtain ⟨groups, pageIds, current, hinv⟩ := ih fun a ha => hallowed a (by
        simpa [input, pendingRows, hidle, Session.getGroupIds] using Or.inl ha)
      obtain ⟨hhash, hwork⟩ := himpl.getGroupIds hinv.represents hrows
      exact ⟨groups, pageIds, [], hinv.begin hidle hrows hhash hwork⟩
  | @process session session' h hprocess ih =>
      have hbefore : ∀ a ∈ session.input rows, Allowed a :=
        fun a ha => hallowed a (input_subset_process hprocess ha)
      obtain ⟨groups, pageIds, current, hinv⟩ := ih hbefore
      have hmeets := hinv.process himpl fun a ha => hbefore a (mem_append_right _ ha)
      rw [hprocess] at hmeets
      exact hmeets

/-- An implementation that keeps the laws is right in every session. -/
theorem Reachable.correct (heq : Equivalence same)
    (himpl : impl.Lawful rows same keyOf Allowed Represents Working) (hstart : Represents start [])
    (h : Reachable impl rows start session) (hallowed : ∀ a ∈ session.input rows, Allowed a) :
    session.Correct impl rows same keyOf Allowed := by
  obtain ⟨groups, pageIds, current, hinv⟩ := h.exists_invariant himpl hstart hallowed
  have hgrouped := hinv.numbering.grouped heq
  have hlength := hinv.numbering.length_eq
  refine ⟨⟨pageIds, current, hinv.results, hlength, ?_, ?_, ?_, ?_⟩, ?_⟩
  · intro i j m n a b ha hb hm hn
    exact hgrouped.number_eq_iff heq ha hb hm hn
  · intro i n hn hfirst m
    exact hgrouped.dense hn hfirst m
  · intro i n a ha hn hfirst
    exact himpl.values hinv.represents (hgrouped.groups_of_first ha hn hfirst)
  · intro key hkey
    obtain ⟨found, hfound, hiff⟩ := himpl.contains hinv.represents hkey
    exact ⟨found, hfound, hiff.trans (hgrouped.exists_group_iff hlength heq)⟩
  · exact (hinv.process himpl fun a ha => hallowed a (mem_append_right _ ha)).mono
      fun _ _ => trivial

end Session

end Use

end Presto.Operator.GroupBy
