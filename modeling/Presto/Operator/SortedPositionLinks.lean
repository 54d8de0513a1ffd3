import Mathlib.Data.List.AList
import Mathlib.Data.List.Sort
import Presto.Operator.JoinHash

/-!
# Join lookup with a sort channel

With a sort channel the build rows of one key are chained in the order of their sort value,
so that a lookup can search for the first row that passes its search functions and stop at
the first row that fails one.  Rows whose sort value is null are dropped from the chains; no
search function is true on them.
-/

namespace Presto.Operator

open ArrayPositionLinks

open List hiding head

variable {κ σ : Type*} [LinearOrder σ] {ρ : Type}

/-! ## Building -/

/-- The chains while the table is filled: the other rows of the key of a head. -/
structure SortedLinksBuilder where
  positionLinks : AList fun _ : ℕ => List ℕ

/-- The comparator of positions finds the first one greater; it is only asked about rows with
a sort value. -/
def BuildSide.sortsAfter (build : BuildSide κ σ) (left right : ℕ) : Bool :=
  match build.sortValue left, build.sortValue right with
  | some leftValue, some rightValue => decide (rightValue < leftValue)
  | some _, none => true
  | none, _ => false

namespace SortedLinksBuilder

def empty : SortedLinksBuilder := ⟨∅⟩

def link (build : BuildSide κ σ) (builder : SortedLinksBuilder) (source target : ℕ) :
    Result (SortedLinksBuilder × ℕ) :=
  if (build.sortValue source).isNone then .ok (builder, target)
  else if (build.sortValue target).isNone then .ok (builder, source)
  else if build.sortsAfter source target then
    let links := (builder.positionLinks.lookup target).getD []
    .ok (⟨builder.positionLinks.insert target (links ++ [source])⟩, target)
  else
    let links := (builder.positionLinks.lookup target).getD []
    let remaining := builder.positionLinks.erase target
    if (remaining.lookup source).isSome then .error (.illegalState "sorted links is corrupted")
    else .ok (⟨remaining.insert source (links ++ [target])⟩, source)

def builder (build : BuildSide κ σ) : LinksBuilder SortedLinksBuilder where
  empty := empty
  link b source target := link build b source target

/-- The rows of a chain in the order of the comparator. -/
def sort (build : BuildSide κ σ) (positions : List ℕ) : List ℕ :=
  positions.mergeSort fun left right => !build.sortsAfter left right

/-- Links a chain from its tail to its head. -/
def linkChain (links : ArrayPositionLinks) : ℕ → List ℕ → ArrayPositionLinks
  | _, [] => links
  | key, position :: positions => ((linkChain links position positions).link key position).1

/-- The array of links and, by head, the sorted chain. -/
def build (side : BuildSide κ σ) (builder : SortedLinksBuilder) :
    ArrayPositionLinks × (ℕ → Option (List ℕ)) :=
  (builder.positionLinks.entries.foldl
      (fun links entry => linkChain links entry.1 (sort side entry.2)) ArrayPositionLinks.empty,
    fun key => (builder.positionLinks.lookup key).map (sort side))

end SortedLinksBuilder

/-! ## Searching -/

/-- A search function tests a build row against the probe row. -/
abbrev SearchFunction (ρ : Type) := ℕ → ρ → Bool

structure SortedPositionLinks (ρ : Type) where
  positionLinks : ArrayPositionLinks
  sortedPositionLinks : ℕ → Option (List ℕ)
  searchFunctions : List (SearchFunction ρ)

namespace SortedPositionLinks

def create (built : ArrayPositionLinks × (ℕ → Option (List ℕ)))
    (searchFunctions : List (SearchFunction ρ)) : Result (SortedPositionLinks ρ) :=
  if searchFunctions.isEmpty then
    .error (.illegalState "Using sortedPositionLinks with no search functions")
  else .ok ⟨built.1, built.2, searchFunctions⟩

variable (links : SortedPositionLinks ρ)

def applyAllSearchFunctions (buildPosition : ℕ) (row : ρ) : Bool :=
  links.searchFunctions.all fun searchFunction => searchFunction buildPosition row

def applySearchFunction (searchFunction : SearchFunction ρ) (links : List ℕ) (linkOffset : ℕ)
    (row : ρ) : Result Bool :=
  match links[linkOffset]? with
  | none => .error .indexOutOfBounds
  | some buildPosition => .ok (searchFunction buildPosition row)

/-- The binary search for the first offset at which a search function applies; the last
offset is returned without a test. -/
def lowerBound (searchFunction : SearchFunction ρ) (links : List ℕ) (row : ρ)
    (first count : ℕ) : Result ℕ :=
  if 0 < count then do
    let step := count / 2
    let middle := first + step
    let applies ← applySearchFunction searchFunction links middle row
    if !applies then lowerBound searchFunction links row (middle + 1) (count - (step + 1))
    else lowerBound searchFunction links row first step
  else .ok first
termination_by count

def findStartPositionForFunction (searchFunction : SearchFunction ρ) (links : List ℕ)
    (startOffset : ℕ) (row : ρ) : Result (Option ℕ) := do
  let applies ← applySearchFunction searchFunction links startOffset row
  -- a function that is true on the smaller values does not constrain the start
  if applies then pure (some startOffset)
  else
    let offset ← lowerBound searchFunction links row startOffset (links.length - 1 - startOffset)
    let found ← applySearchFunction searchFunction links offset row
    if !found then pure none else pure (some offset)

/-- The loop of `start` over the search functions. -/
def findStart (links : List ℕ) (row : ρ) : List (SearchFunction ρ) → ℕ → Result (Option ℕ)
  | [], currentStartOffset =>
      match links[currentStartOffset]? with
      | none => .error .indexOutOfBounds
      | some position => .ok (some position)
  | searchFunction :: searchFunctions, currentStartOffset => do
      match ← findStartPositionForFunction searchFunction links currentStartOffset row with
      | none => pure none
      | some offset => findStart links row searchFunctions offset

def start (startingPosition : ℕ) (row : ρ) : Result (Option ℕ) :=
  if links.applyAllSearchFunctions startingPosition row then .ok (some startingPosition)
  else
    match links.sortedPositionLinks startingPosition with
    | none => .ok none
    | some positions => findStart positions row links.searchFunctions 0

/-- The chain ends at the first row that fails a search function. -/
def next (position : ℕ) (row : ρ) : Result (Option ℕ) :=
  match links.positionLinks.positionLinks position with
  | none => .ok none
  | some nextPosition =>
      if !links.applyAllSearchFunctions nextPosition row then .ok none
      else .ok (some nextPosition)

def toPositionLinks : PositionLinks ρ := ⟨links.start, links.next⟩

end SortedPositionLinks

/-- The supplier of a lookup with a sort channel. -/
def sortedJoinHashSupplier (hashCommon : HashCommon) (strategy : PagesHashStrategy κ)
    (build : BuildSide κ σ) (searchFunctions : List (SearchFunction ρ)) : Outcome (JoinHash ρ) := do
  let built ← PagesHash.create hashCommon strategy build (SortedLinksBuilder.builder build)
  if built.2.positionLinks.entries.isEmpty then pure ⟨built.1, none⟩
  else
    let links ← Outcome.ofResult
      (SortedPositionLinks.create (built.2.build build) searchFunctions)
    pure ⟨built.1, some links.toPositionLinks⟩

/-! ## The chains while the table is filled -/

namespace SortedLinksBuilder

variable {side : BuildSide κ σ} {b : SortedLinksBuilder}

/-- The rows of an entry. -/
def members (entry : Σ _ : ℕ, List ℕ) : List ℕ := entry.1 :: entry.2

variable (side)

/-- An entry has a head with the least sort value, none of its rows has a null sort value, and
no row is in two entries. -/
structure WellFormed (b : SortedLinksBuilder) : Prop where
  nonempty : ∀ entry ∈ b.positionLinks.entries, entry.2 ≠ []
  nodup : ∀ entry ∈ b.positionLinks.entries, (members entry).Nodup
  least : ∀ entry ∈ b.positionLinks.entries, ∃ value, side.sortValue entry.1 = some value ∧
    ∀ p ∈ entry.2, ∃ other, side.sortValue p = some other ∧ value ≤ other
  apart : ∀ entry ∈ b.positionLinks.entries, ∀ other ∈ b.positionLinks.entries,
    ∀ p ∈ members entry, p ∈ members other → entry = other

/-- The rows chained under a head. -/
def Chain (b : SortedLinksBuilder) (head : ℕ) (l : List ℕ) : Prop :=
  WellFormed side b ∧
    ((l = [head] ∧ ∀ entry ∈ b.positionLinks.entries, head ∉ members entry) ∨
      ∃ rest, ⟨head, rest⟩ ∈ b.positionLinks.entries ∧ l = head :: rest)

/-- The chains of other rows are as they were. -/
def KeepsOthers (b c : SortedLinksBuilder) (new head : ℕ) : Prop :=
  ∀ other rest, Chain side b other rest → new ∉ rest → head ∉ rest → Chain side c other rest

/-- The sort value of a row is not null and not below the given one. -/
def AtLeast (value : σ) (p : ℕ) : Prop :=
  ∃ other, side.sortValue p = some other ∧ value ≤ other

/-- A row joins a chain, whose head is then the given one. -/
def Joins (b : SortedLinksBuilder) (new head head' : ℕ) (l : List ℕ) : Prop :=
  ∃ c l', link side b new head = .ok (c, head') ∧ l'.Perm (new :: l) ∧ Chain side c head' l' ∧
    KeepsOthers side b c new head

variable {side} {l : List ℕ} {head : ℕ}

theorem Chain.lookup (h : Chain side b head l) :
    l = head :: (b.positionLinks.lookup head).getD [] := by
  rcases h.2 with ⟨hl, hnone⟩ | ⟨rest, hrest, hl⟩
  · cases hlookup : b.positionLinks.lookup head with
    | none => exact hl
    | some rest =>
        exact absurd mem_cons_self (hnone _ (AList.mem_lookup_iff.mp hlookup))
  · rw [AList.mem_lookup_iff.mpr hrest]
    exact hl

variable {entry : Σ _ : ℕ, List ℕ} {positions : List ℕ} {links : AList fun _ : ℕ => List ℕ}
  {key : ℕ}

theorem mem_entries_erase :
    entry ∈ (links.erase key).entries ↔ entry ∈ links.entries ∧ entry.1 ≠ key := by
  obtain ⟨other, rest⟩ := entry
  rw [← AList.mem_lookup_iff]
  by_cases hkey : other = key
  · subst hkey
    simp
  · rw [AList.lookup_erase_ne hkey, AList.mem_lookup_iff]
    simp [hkey]

/-- An entry of a map after `insert` is the new one or an old one under another key. -/
theorem mem_entries_insert :
    entry ∈ (links.insert key positions).entries ↔
      entry = ⟨key, positions⟩ ∨ entry ∈ links.entries ∧ entry.1 ≠ key := by
  rw [AList.entries_insert, mem_cons, ← mem_entries_erase]
  rfl

theorem Chain.mem_head (h : Chain side b head l) : head ∈ l := by
  rw [h.lookup]
  exact mem_cons_self

/-- A row without a chain is in no entry. -/
theorem Chain.not_mem_members {position : ℕ} (h : Chain side b position [position])
    (hentry : entry ∈ b.positionLinks.entries) : position ∉ members entry := by
  rcases h.2 with ⟨-, hnone⟩ | ⟨rest, hrest, hl⟩
  · exact hnone entry hentry
  · exact absurd (cons.inj hl).2.symm (h.1.nonempty _ hrest)

variable {p : ℕ}

/-- The rows of a chain are in no entry of another head. -/
theorem Chain.disjoint (h : Chain side b head l)
    (hentry : entry ∈ b.positionLinks.entries) (hne : entry.1 ≠ head) (hp : p ∈ l) :
    p ∉ members entry := by
  intro hmem
  rcases h.2 with ⟨hl, hnone⟩ | ⟨rest, hrest, hl⟩
  · rw [hl, mem_singleton] at hp
    exact hnone entry hentry (hp ▸ hmem)
  · rw [hl] at hp
    exact hne (congrArg Sigma.fst (h.1.apart _ hentry _ hrest p hmem hp))

variable {value : σ}

theorem Chain.least (h : Chain side b head l)
    (hvalue : side.sortValue head = some value) : ∀ p ∈ l, AtLeast side value p := by
  intro p hp
  rcases h.2 with ⟨hl, -⟩ | ⟨rest, hrest, hl⟩
  · rw [hl, mem_singleton] at hp
    exact ⟨value, hp ▸ hvalue, le_rfl⟩
  · obtain ⟨first, hfirst, hall⟩ := h.1.least _ hrest
    obtain rfl : first = value := Option.some.inj (hfirst.symm.trans hvalue)
    rw [hl, mem_cons] at hp
    rcases hp with rfl | hp
    · exact ⟨first, hvalue, le_rfl⟩
    · exact hall p hp

variable {l : List ℕ}

/-- The entry of a chain is replaced by one with a new row. -/
theorem Chain.replace {new head' : ℕ} {rest' : List ℕ} {c : SortedLinksBuilder}
    (h : Chain side b head l) (hnew : Chain side b new [new])
    (hentries : ∀ entry, entry ∈ c.positionLinks.entries ↔
      entry = ⟨head', rest'⟩ ∨ entry ∈ b.positionLinks.entries ∧ entry.1 ≠ head)
    (hperm : (head' :: rest').Perm (new :: l)) (hnodup : (new :: l).Nodup)
    (hnonempty : rest' ≠ []) (hvalue : side.sortValue head' = some value)
    (hleast : ∀ p ∈ new :: l, AtLeast side value p) :
    Chain side c head' (head' :: rest') ∧ KeepsOthers side b c new head := by
  have hcases := fun entry => (hentries entry).mp
  have hmembers : ∀ p ∈ head' :: rest', p = new ∨ p ∈ l := fun p hp =>
    mem_cons.mp (hperm.mem_iff.mp hp)
  have hapart : ∀ entry ∈ b.positionLinks.entries, entry.1 ≠ head → ∀ p ∈ head' :: rest',
      p ∉ members entry := by
    intro entry hentry hne p hp
    rcases hmembers p hp with rfl | hpl
    · exact hnew.not_mem_members hentry
    · exact h.disjoint hentry hne hpl
  have hall : ∀ {P : (Σ _ : ℕ, List ℕ) → Prop}, P ⟨head', rest'⟩ →
      (∀ entry ∈ b.positionLinks.entries, P entry) →
      ∀ entry ∈ c.positionLinks.entries, P entry := by
    intro P hthis hold entry hentry
    rcases hcases entry hentry with rfl | ⟨hkept, -⟩
    · exact hthis
    · exact hold entry hkept
  have hwell : WellFormed side c := by
    refine ⟨hall hnonempty h.1.nonempty, hall (hperm.nodup_iff.mpr hnodup) h.1.nodup,
      hall ⟨value, hvalue, fun p hp => hleast p (hperm.subset (mem_cons_of_mem _ hp))⟩
        h.1.least, ?_⟩
    intro entry hentry other hother p hp hp'
    rcases hcases entry hentry with rfl | ⟨hold, hne⟩
    · rcases hcases other hother with rfl | ⟨hold', hne'⟩
      · rfl
      · exact absurd hp' (hapart other hold' hne' p hp)
    · rcases hcases other hother with rfl | ⟨hold', hne'⟩
      · exact absurd hp (hapart entry hold hne p hp')
      · exact h.1.apart entry hold other hold' p hp hp'
  refine ⟨⟨hwell, Or.inr ⟨rest', (hentries _).mpr (Or.inl rfl), rfl⟩⟩, ?_⟩
  intro other rest hother hnotNew hnotHead
  have hmem := hother.mem_head
  have hneNew : other ≠ new := fun heq => hnotNew (heq ▸ hmem)
  have hneHead : other ≠ head := fun heq => hnotHead (heq ▸ hmem)
  refine ⟨hwell, ?_⟩
  rcases hother.2 with ⟨hrest, hnone⟩ | ⟨tail, htail, hrest⟩
  · refine Or.inl ⟨hrest, ?_⟩
    intro entry hentry hin
    rcases hcases entry hentry with rfl | ⟨hold, -⟩
    · rcases hmembers other hin with heq | hl
      · exact hneNew heq
      · rcases h.2 with ⟨hl', -⟩ | ⟨tail, htail, hl'⟩
        · rw [hl', mem_singleton] at hl
          exact hneHead hl
        · rw [hl'] at hl
          exact hnone _ htail hl
    · exact hnone entry hold hin
  · exact Or.inr ⟨tail, (hentries _).mpr (Or.inr ⟨htail, hneHead⟩), hrest⟩

section Link

variable {head new : ℕ} (h : Chain side b head l) (hsingle : Chain side b new [new])
  (hnodup : (new :: l).Nodup) {headValue newValue : σ}
  (hheadValue : side.sortValue head = some headValue)
  (hnewValue : side.sortValue new = some newValue)

include h hsingle hnodup hheadValue hnewValue

/-- A greater row joins the chain of the head. -/
theorem Chain.link_of_lt (hlt : headValue < newValue) : Joins side b new head head l := by
  obtain ⟨rest, hrest⟩ : ∃ rest, rest = (b.positionLinks.lookup head).getD [] := ⟨_, rfl⟩
  have hl : l = head :: rest := by rw [hrest, ← h.lookup]
  have hperm : (head :: (rest ++ [new])).Perm (new :: l) := by
    rw [hl]
    exact perm_append_singleton new (head :: rest)
  have hleast : ∀ p ∈ new :: l, AtLeast side headValue p :=
    forall_mem_cons.mpr ⟨⟨newValue, hnewValue, hlt.le⟩, h.least hheadValue⟩
  obtain ⟨hchain, hframe⟩ := h.replace
    (c := ⟨b.positionLinks.insert head (rest ++ [new])⟩) hsingle
    (fun entry => mem_entries_insert) hperm hnodup (by simp) hheadValue hleast
  refine ⟨_, _, ?_, hperm, hchain, hframe⟩
  simp [link, hnewValue, hheadValue, BuildSide.sortsAfter, hlt, hrest]

/-- The chain moves to a row that is not greater than the head. -/
theorem Chain.link_of_le (hle : newValue ≤ headValue) : Joins side b new head new l := by
  obtain ⟨rest, hrest⟩ : ∃ rest, rest = (b.positionLinks.lookup head).getD [] := ⟨_, rfl⟩
  have hl : l = head :: rest := by rw [hrest, ← h.lookup]
  have hperm : (new :: (rest ++ [head])).Perm (new :: l) := by
    rw [hl]
    exact (perm_append_singleton head rest).cons new
  have hmissing : (b.positionLinks.erase head).lookup new = none := by
    rw [Option.eq_none_iff_forall_not_mem]
    intro positions hpositions
    rw [AList.mem_lookup_iff, mem_entries_erase] at hpositions
    exact hsingle.not_mem_members hpositions.1 mem_cons_self
  have hleast : ∀ p ∈ new :: l, AtLeast side newValue p := by
    refine forall_mem_cons.mpr ⟨⟨newValue, hnewValue, le_rfl⟩, fun p hp => ?_⟩
    obtain ⟨other, hother, hother'⟩ := h.least hheadValue p hp
    exact ⟨other, hother, hle.trans hother'⟩
  have hentries : ∀ entry,
      entry ∈ ((b.positionLinks.erase head).insert new (rest ++ [head])).entries ↔
        entry = ⟨new, rest ++ [head]⟩ ∨ entry ∈ b.positionLinks.entries ∧ entry.1 ≠ head := by
    intro entry
    rw [mem_entries_insert, mem_entries_erase]
    refine or_congr_right (and_iff_left_of_imp ?_)
    rintro ⟨hold, -⟩ rfl
    exact hsingle.not_mem_members hold mem_cons_self
  obtain ⟨hchain, hframe⟩ := h.replace
    (c := ⟨(b.positionLinks.erase head).insert new (rest ++ [head])⟩) hsingle hentries
    hperm hnodup (by simp) hnewValue hleast
  refine ⟨_, _, ?_, hperm, hchain, hframe⟩
  simp [link, hnewValue, hheadValue, BuildSide.sortsAfter, hle, hrest, hmissing]

end Link

theorem chain_empty (side : BuildSide κ σ) (position : ℕ) : Chain side empty position [position] :=
  ⟨⟨nofun, nofun, nofun, nofun⟩, Or.inl ⟨rfl, nofun⟩⟩

theorem builder_lawful (side : BuildSide κ σ) :
    (builder side).Lawful (Chain side) fun position => (side.sortValue position).isSome where
  head_mem := Chain.mem_head
  empty := chain_empty side
  link := by
    intro b new head l hchain hnodup hnotin hsingle
    have hall : (new :: l).Nodup := nodup_cons.mpr ⟨hnotin, hnodup⟩
    cases hnewValue : side.sortValue new with
    | none =>
        refine ⟨b, head, l, ?_, Or.inr rfl, hchain, hnodup, fun p hp => Or.inr hp, ?_,
          fun _ _ hother _ _ => hother⟩
        · simp [builder, link, hnewValue]
        · rintro p hkept (rfl | hp)
          · rw [hnewValue] at hkept
            cases hkept
          · exact hp
    | some newValue =>
        cases hheadValue : side.sortValue head with
        | none =>
            refine ⟨b, new, [new], ?_, Or.inl rfl, hsingle, by simp, ?_, ?_,
              fun _ _ hother _ _ => hother⟩
            · simp [builder, link, hnewValue, hheadValue]
            · exact fun p hp => Or.inl (mem_singleton.mp hp)
            · rintro p hkept (rfl | hp)
              · exact mem_singleton_self p
              · -- a head with a null sort value is alone in its chain
                rcases hchain.2 with ⟨hl, -⟩ | ⟨rest, hrest, -⟩
                · rw [hl, mem_singleton] at hp
                  rw [hp, hheadValue] at hkept
                  cases hkept
                · obtain ⟨value, hvalue, -⟩ := hchain.1.least _ hrest
                  rw [hheadValue] at hvalue
                  cases hvalue
        | some headValue =>
            obtain ⟨head', hhead', c, l', hlink, hperm, hchain', hframe⟩ :
                ∃ head', (head' = new ∨ head' = head) ∧ Joins side b new head head' l := by
              rcases lt_or_ge headValue newValue with hlt | hle
              · exact ⟨head, Or.inr rfl, hchain.link_of_lt hsingle hall hheadValue hnewValue hlt⟩
              · exact ⟨new, Or.inl rfl, hchain.link_of_le hsingle hall hheadValue hnewValue hle⟩
            exact ⟨c, head', l', hlink, hhead', hchain', hperm.nodup_iff.mpr hall,
              fun p hp => mem_cons.mp (hperm.mem_iff.mp hp),
              fun p _ hp => hperm.mem_iff.mpr (mem_cons.mpr hp), hframe⟩

/-! ## The finished chains -/

theorem linkChain_spec (links : ArrayPositionLinks) (key : ℕ) (positions : List ℕ)
    (hnodup : (key :: positions).Nodup)
    (hfree : ∀ p ∈ key :: positions, links.positionLinks p = none) :
    Linked (linkChain links key positions).positionLinks (key :: positions) ∧
      ∀ p, p ∉ key :: positions →
        (linkChain links key positions).positionLinks p = links.positionLinks p := by
  induction positions generalizing key with
  | nil => exact ⟨hfree key mem_cons_self, fun _ _ => rfl⟩
  | cons position positions ih =>
      obtain ⟨hkey, htail⟩ := nodup_cons.mp hnodup
      obtain ⟨hlinked, houtside⟩ := ih position htail fun p hp =>
        hfree p (mem_cons_of_mem _ hp)
      refine ⟨⟨Function.update_self _ _ _, hlinked.update hkey _⟩, ?_⟩
      intro p hp
      rw [mem_cons, not_or] at hp
      exact (Function.update_of_ne hp.1 _ _).trans (houtside p hp.2)

theorem mem_sort : p ∈ sort side positions ↔ p ∈ positions :=
  (mergeSort_perm _ _).mem_iff

theorem mem_members_sort : p ∈ entry.1 :: sort side entry.2 ↔ p ∈ members entry := by
  rw [members, mem_cons, mem_cons, mem_sort]

/-- Every entry becomes a chain of the array; the other rows have no link. -/
theorem foldl_linkChain_spec (side : BuildSide κ σ)
    (entries : List (Σ _ : ℕ, List ℕ)) (links : ArrayPositionLinks)
    (hapart : entries.Pairwise fun entry other => ∀ p ∈ members entry, p ∉ members other)
    (hnodup : ∀ entry ∈ entries, (members entry).Nodup)
    (hfree : ∀ entry ∈ entries, ∀ p ∈ members entry, links.positionLinks p = none) :
    let built := entries.foldl (fun links entry => linkChain links entry.1 (sort side entry.2))
      links
    (∀ entry ∈ entries, Linked built.positionLinks (entry.1 :: sort side entry.2)) ∧
    ∀ p, (∀ entry ∈ entries, p ∉ members entry) →
      built.positionLinks p = links.positionLinks p := by
  induction entries generalizing links with
  | nil => exact ⟨nofun, fun _ _ => rfl⟩
  | cons entry entries ih =>
      obtain ⟨hfirst, hrest⟩ := pairwise_cons.mp hapart
      obtain ⟨hentry, hnodup⟩ := forall_mem_cons.mp hnodup
      obtain ⟨hfreeEntry, hfree⟩ := forall_mem_cons.mp hfree
      obtain ⟨hlinked, hother⟩ := linkChain_spec links entry.1 (sort side entry.2)
        (((mergeSort_perm entry.2 _).cons entry.1).nodup_iff.mpr hentry)
        fun p hp => hfreeEntry p (mem_members_sort.mp hp)
      simp only [mem_members_sort] at hother
      obtain ⟨hchains, houtside⟩ := ih (linkChain links entry.1 (sort side entry.2)) hrest hnodup
        fun other hin p hp =>
          (hother p fun hp' => hfirst other hin p hp' hp).trans (hfree other hin p hp)
      refine ⟨forall_mem_cons.mpr ⟨?_, hchains⟩, ?_⟩
      · -- the chains linked later leave the rows of this one alone
        refine hlinked.congr fun p hp => houtside p fun other hin => ?_
        exact hfirst other hin p (mem_members_sort.mp hp)
      · intro p hp
        obtain ⟨hp, hothers⟩ := forall_mem_cons.mp hp
        exact (houtside p hothers).trans (hother p hp)

/-- Two rows have sort values in ascending order. -/
def Ascends (side : BuildSide κ σ) (p q : ℕ) : Prop :=
  ∃ v w, side.sortValue p = some v ∧ side.sortValue q = some w ∧ v ≤ w

theorem sort_ascending (hvalues : ∀ p ∈ positions, ∃ value, side.sortValue p = some value) :
    (sort side positions).Pairwise (Ascends side) := by
  have hpairwise : (sort side positions).Pairwise fun p q => (!side.sortsAfter p q) = true := by
    refine pairwise_mergeSort ?_ ?_ positions
    · intro p q r hpq hqr
      simp only [BuildSide.sortsAfter] at hpq hqr ⊢
      generalize side.sortValue p = a at *
      generalize side.sortValue q = b at *
      generalize side.sortValue r = c at *
      cases a <;> cases b <;> cases c <;> simp_all
      exact hpq.trans hqr
    · intro p q
      simp only [BuildSide.sortsAfter]
      cases side.sortValue p <;> cases side.sortValue q <;> simp [le_total]
  refine hpairwise.imp_of_mem fun {p q} hp hq hle => ?_
  obtain ⟨v, hv⟩ := hvalues p (mem_sort.mp hp)
  obtain ⟨w, hw⟩ := hvalues q (mem_sort.mp hq)
  refine ⟨v, w, hv, hw, ?_⟩
  simpa [BuildSide.sortsAfter, hv, hw] using hle

end SortedLinksBuilder

/-! ## The search in a chain -/

/-- For the probe row, the search function compares the sort value of a build row with a value
from one side, and is false on a null. -/
structure SearchFunction.OneSided (side : BuildSide κ σ) (row : ρ) (f : SearchFunction ρ) :
    Prop where
  null : ∀ p, side.sortValue p = none → f p row = false
  monotone :
    (∀ p q v w, side.sortValue p = some v → side.sortValue q = some w → v ≤ w →
      f p row = true → f q row = true) ∨
    ∀ p q v w, side.sortValue p = some v → side.sortValue q = some w → v ≤ w →
      f q row = true → f p row = true

/-- Along a chain the search function is true from some row on. -/
def Rises (f : SearchFunction ρ) (row : ρ) (links : List ℕ) : Prop :=
  ∀ i j p q : ℕ, i ≤ j → links[i]? = some p → links[j]? = some q → f p row = true → f q row = true

/-- Along a chain the search function is true up to some row. -/
def Falls (f : SearchFunction ρ) (row : ρ) (links : List ℕ) : Prop :=
  ∀ i j p q : ℕ, i ≤ j → links[i]? = some p → links[j]? = some q → f q row = true → f p row = true

/-- Along a chain the search function changes at most once. -/
def Directed (row : ρ) (links : List ℕ) (f : SearchFunction ρ) : Prop :=
  Rises f row links ∨ Falls f row links

variable {side : BuildSide κ σ} {row : ρ}

theorem SearchFunction.OneSided.directed {f : SearchFunction ρ} (h : f.OneSided side row)
    {links : List ℕ} (hlinks : links.Pairwise (SortedLinksBuilder.Ascends side)) :
    Directed row links f := by
  have hpair : ∀ {i j p q : ℕ}, i ≤ j → links[i]? = some p → links[j]? = some q →
      p = q ∨ SortedLinksBuilder.Ascends side p q := by
    intro i j p q hij hp hq
    rcases Nat.lt_or_eq_of_le hij with hlt | rfl
    · obtain ⟨hi, rfl⟩ := List.getElem?_eq_some_iff.mp hp
      obtain ⟨hj, rfl⟩ := List.getElem?_eq_some_iff.mp hq
      exact Or.inr (pairwise_iff_getElem.mp hlinks i j hi hj hlt)
    · exact Or.inl (Option.some.inj (hp.symm.trans hq))
  refine h.monotone.imp ?_ ?_ <;>
    · intro hmonotone i j p q hij hp hq hf
      rcases hpair hij hp hq with rfl | ⟨v, w, hv, hw, hle⟩
      · exact hf
      · exact hmonotone p q v w hv hw hle hf

namespace SortedPositionLinks

variable {f : SearchFunction ρ} {row : ρ} {links : List ℕ} {offset : ℕ}

theorem applySearchFunction_of_getElem? (hp : links[offset]? = some p) :
    applySearchFunction f links offset row = .ok (f p row) := by
  rw [applySearchFunction, hp]

/-- The search ends at the first offset at which the function applies, or at the last. -/
theorem lowerBound_spec
    {first count last : ℕ} (hlast : last < links.length) (hcount : first + count ≤ last)
    (hrises : ∀ i j p q, first ≤ i → i ≤ j → links[i]? = some p → links[j]? = some q →
      f p row = true → f q row = true)
    (hhigh : ∀ i p, first + count ≤ i → i < last → links[i]? = some p → f p row = true) :
    ∃ offset, lowerBound f links row first count = .ok offset ∧ first ≤ offset ∧
      offset ≤ last ∧
      (∀ i p, first ≤ i → i < offset → links[i]? = some p → f p row = false) ∧
      ∀ p, offset < last → links[offset]? = some p → f p row = true := by
  induction count using Nat.strong_induction_on generalizing first with
  | _ count ih =>
      rw [lowerBound]
      by_cases hpositive : 0 < count
      · rw [if_pos hpositive]
        have hmiddle : first + count / 2 < links.length := by omega
        obtain ⟨p, hp⟩ : ∃ p, links[first + count / 2]? = some p :=
          ⟨_, getElem?_eq_getElem hmiddle⟩
        simp only [applySearchFunction_of_getElem? hp]
        cases hf : f p row with
        | false =>
            obtain ⟨offset, hoffset, hfirst, hle, hbelow, hat⟩ :=
              @ih (count - (count / 2 + 1)) (by omega) (first + count / 2 + 1) (by omega)
                (fun i j p q hi => hrises i j p q (by omega))
                (fun i p hi => hhigh i p (by omega))
            refine ⟨offset, hoffset, by omega, hle, ?_, hat⟩
            intro i q hi hlt hq
            by_cases him : i ≤ first + count / 2
            · by_contra hne
              rw [Bool.not_eq_false] at hne
              rw [hrises i _ q p hi him hq hp hne] at hf
              cases hf
            · exact hbelow i q (by omega) hlt hq
        | true =>
            exact ih (count / 2) (by omega) (by omega) hrises
              (fun i q hi _ hq => hrises _ i p q (by omega) hi hp hq hf)
      · rw [if_neg hpositive]
        refine ⟨first, rfl, le_rfl, by omega, ?_, ?_⟩
        · intro i p hi hlt
          omega
        · intro p hlt hp
          exact hhigh first p (by omega) hlt hp

variable {startOffset : ℕ}

/-- The start for one function: the first offset at which it applies, from the given one. -/
theorem findStartPositionForFunction_spec (hf : Directed row links f)
    (hstart : startOffset < links.length) :
    ∃ offset, findStartPositionForFunction f links startOffset row =
        .ok (if offset < links.length then some offset else none) ∧
      startOffset ≤ offset ∧
      (∀ i q, startOffset ≤ i → i < offset → links[i]? = some q → f q row = false) ∧
      ∀ p, links[offset]? = some p → f p row = true := by
  obtain ⟨p, hp⟩ : ∃ p, links[startOffset]? = some p := ⟨_, getElem?_eq_getElem hstart⟩
  rw [findStartPositionForFunction, applySearchFunction_of_getElem? hp]
  cases hfp : f p row with
  | true =>
      refine ⟨startOffset, by rw [if_pos hstart]; rfl, le_rfl, ?_, ?_⟩
      · intro i q hi hlt
        omega
      · intro q hq
        exact Option.some.inj (hp.symm.trans hq) ▸ hfp
  | false =>
      -- a function that falls is false on all that follows
      have hrises : ∀ i j p q, startOffset ≤ i → i ≤ j → links[i]? = some p →
          links[j]? = some q → f p row = true → f q row = true := by
        intro i j q r hi hij hq hr hfq
        rcases hf with hrises | hfalls
        · exact hrises i j q r hij hq hr hfq
        · rw [hfalls _ i p q hi hp hq hfq] at hfp
          cases hfp
      have hcount : startOffset + (links.length - 1 - startOffset) = links.length - 1 := by omega
      obtain ⟨offset, hoffset, hfirst, hle, hbelow, hat⟩ :=
        lowerBound_spec (by omega) hcount.le hrises (fun i q hi hlt => by omega)
      have hlt : offset < links.length := by omega
      obtain ⟨r, hr⟩ : ∃ r, links[offset]? = some r := ⟨_, getElem?_eq_getElem hlt⟩
      simp only [hoffset, Result.bind_ok, applySearchFunction_of_getElem? hr]
      cases hfr : f r row with
      | true =>
          refine ⟨offset, by rw [if_pos hlt]; rfl, hfirst, hbelow, ?_⟩
          intro q hq
          exact Option.some.inj (hr.symm.trans hq) ▸ hfr
      | false =>
          -- only the last offset is returned without a test
          have hlast : offset = links.length - 1 := by
            by_contra hne
            rw [hat r (by omega) hr] at hfr
            cases hfr
          refine ⟨links.length, by rw [if_neg (Nat.lt_irrefl _)]; rfl, hstart.le, ?_, by simp⟩
          intro i q hi hi' hq
          rcases Nat.lt_or_ge i offset with hlt | hge
          · exact hbelow i q hi hlt hq
          · obtain rfl : i = offset := by omega
            exact Option.some.inj (hr.symm.trans hq) ▸ hfr

/-- The start for all functions: what is skipped fails one of them, and every function that
rises applies at the start. -/
theorem findStart_spec {functions : List (SearchFunction ρ)}
    (hfunctions : ∀ f ∈ functions, Directed row links f) (hstart : startOffset < links.length) :
    ∃ offset, findStart links row functions startOffset = .ok links[offset]? ∧
      startOffset ≤ offset ∧
      (∀ i q, startOffset ≤ i → i < offset → links[i]? = some q →
        functions.all (fun f => f q row) = false) ∧
      ∀ p, links[offset]? = some p → ∀ f ∈ functions, Rises f row links → f p row = true := by
  induction functions generalizing startOffset with
  | nil =>
      refine ⟨startOffset, by rw [findStart, getElem?_eq_getElem hstart], le_rfl, ?_, nofun⟩
      intro i q hi hlt
      omega
  | cons f functions ih =>
      obtain ⟨hf, hrest⟩ := forall_mem_cons.mp hfunctions
      obtain ⟨offset, hfind, hle, hbefore, hat⟩ := findStartPositionForFunction_spec hf hstart
      rw [findStart, hfind]
      have hskipped : ∀ i q, startOffset ≤ i → i < offset → links[i]? = some q →
          (f :: functions).all (fun f => f q row) = false := by
        intro i q hi hlt hq
        rw [all_cons, hbefore i q hi hlt hq, Bool.false_and]
      by_cases hlt : offset < links.length
      · rw [if_pos hlt]
        obtain ⟨final, hfinal, hle', hbetween, hriseAt⟩ := ih hrest hlt
        refine ⟨final, hfinal, hle.trans hle', ?_, ?_⟩
        · intro i q hi hi' hq
          rcases Nat.lt_or_ge i offset with hbelow | hge
          · exact hskipped i q hi hbelow hq
          · rw [all_cons, hbetween i q hge hi' hq, Bool.and_false]
        · intro q hq
          refine forall_mem_cons.mpr ⟨fun hrises => ?_, hriseAt q hq⟩
          have hp := getElem?_eq_getElem hlt
          exact hrises offset final _ q hle' hp hq (hat _ hp)
      · have hnone : links[offset]? = none := getElem?_eq_none (not_lt.mp hlt)
        refine ⟨offset, by rw [if_neg hlt, hnone]; rfl, hle, hskipped, ?_⟩
        rw [hnone]
        nofun

end SortedPositionLinks

/-! ## The visited rows -/

/-- Where a test that fails once fails from there on, stopping loses nothing. -/
theorem takeWhile_eq_filter {α : Type*} {test : α → Bool} {l : List α}
    (h : l.Pairwise fun a b => test b = true → test a = true) :
    l.takeWhile test = l.filter test := by
  induction l with
  | nil => rfl
  | cons a l ih =>
      obtain ⟨hfirst, hrest⟩ := pairwise_cons.mp h
      cases htest : test a with
      | true => rw [takeWhile_cons_of_pos htest, filter_cons_of_pos htest, ih hrest]
      | false =>
          have hnot : ¬test a = true := by rw [htest]; exact Bool.false_ne_true
          rw [takeWhile_cons_of_neg hnot, filter_cons_of_neg hnot, eq_comm, filter_eq_nil_iff]
          exact fun b hb hpass => hnot (hfirst b hb hpass)

namespace SortedPositionLinks

variable {row : ρ} {sorted : SortedPositionLinks ρ} {links : List ℕ}

/-- A row passes if a later one does. -/
def PassesFirst (sorted : SortedPositionLinks ρ) (row : ρ) (l : List ℕ) : Prop :=
  l.Pairwise fun q r => sorted.applyAllSearchFunctions r row = true →
    sorted.applyAllSearchFunctions q row = true

/-- After a row at which every rising function applies, a row passes if a later one does. -/
theorem pairwise_of_rising (offset : ℕ)
    (hfunctions : ∀ f ∈ sorted.searchFunctions, Directed row links f)
    (hrising : ∀ p, links[offset]? = some p →
      ∀ f ∈ sorted.searchFunctions, Rises f row links → f p row = true) :
    sorted.PassesFirst row (links.drop (offset + 1)) := by
  rw [PassesFirst, pairwise_iff_getElem]
  intro i j hi hj hij hall
  simp only [applyAllSearchFunctions, all_eq_true, getElem_drop] at hall ⊢
  rw [length_drop] at hi hj
  intro f hf
  have hp := getElem?_eq_getElem (l := links) (i := offset) (by omega)
  have hq := getElem?_eq_getElem (l := links) (i := offset + 1 + i) (by omega)
  have hr := getElem?_eq_getElem (l := links) (i := offset + 1 + j) (by omega)
  rcases hfunctions f hf with hrises | hfalls
  · exact hrises offset _ _ _ (by omega) hp hq (hrising _ hp f hf hrises)
  · exact hfalls _ _ _ _ (by omega) hq hr (hall f hf)

/-- The lookup starts at a row of the chain before which no row passes, or no row passes. -/
theorem start_spec (sorted : SortedPositionLinks ρ) (row : ρ) {rest : List ℕ}
    (hhead : ∀ f ∈ sorted.searchFunctions, Directed row (head :: rest) f)
    (hrest : ∀ f ∈ sorted.searchFunctions, Directed row rest f)
    (hsorted : sorted.sortedPositionLinks head = none ∧ rest = [] ∨
      sorted.sortedPositionLinks head = some rest ∧ rest ≠ []) :
    ∃ before after, head :: rest = before ++ after ∧ sorted.start head row = .ok after.head? ∧
      (∀ q ∈ before, sorted.applyAllSearchFunctions q row = false) ∧
      sorted.PassesFirst row after.tail := by
  rw [start]
  cases hall : sorted.applyAllSearchFunctions head row with
  | true =>
      refine ⟨[], head :: rest, rfl, rfl, by simp, ?_⟩
      refine pairwise_of_rising 0 hhead ?_
      rintro _ ⟨⟩ f hf _
      exact all_eq_true.mp hall f hf
  | false =>
      rcases hsorted with ⟨hnone, rfl⟩ | ⟨hsome, hne⟩
      · exact ⟨[head], [], rfl, by rw [hnone]; rfl, by simpa using hall, List.Pairwise.nil⟩
      · obtain ⟨offset, hfind, -, hskipped, hrising⟩ :=
          findStart_spec hrest (length_pos_iff.mpr hne)
        refine ⟨head :: rest.take offset, rest.drop offset, ?_, ?_, ?_, ?_⟩
        · rw [cons_append, take_append_drop]
        · simp only [hsome, Bool.false_eq_true, if_false, hfind, head?_drop]
        · refine forall_mem_cons.mpr ⟨hall, fun q hq => ?_⟩
          obtain ⟨i, hi, rfl⟩ := mem_take_iff_getElem.mp hq
          have hbound := hi.trans_le (Nat.min_le_left _ _)
          exact hskipped i _ (Nat.zero_le i) hbound (getElem?_eq_getElem _)
        · rw [tail_drop]
          exact pairwise_of_rising _ hrest hrising

variable {rounds : ℕ}

/-- Following the links visits the chain up to the first row that fails a function. -/
theorem follow_sorted
    (row : ρ) {joinHash : JoinHash ρ} (hjoin : joinHash.positionLinks = some sorted.toPositionLinks)
    {after : List ℕ} (hlinked : Linked sorted.positionLinks.positionLinks (p :: after))
    (hrounds : after.length < rounds) :
    joinHash.follow row rounds (some p) =
      .ok (p :: after.takeWhile fun q => sorted.applyAllSearchFunctions q row) := by
  have hnext : ∀ position, joinHash.getNextJoinPosition position row =
      .ok ((sorted.positionLinks.positionLinks position).filter fun q =>
        sorted.applyAllSearchFunctions q row) := by
    intro position
    simp only [JoinHash.getNextJoinPosition, hjoin, toPositionLinks, next]
    cases sorted.positionLinks.positionLinks position with
    | none => rfl
    | some q => cases hq : sorted.applyAllSearchFunctions q row <;> simp [hq, Option.filter]
  refine JoinHash.follow_linked hnext (hlinked.takeWhile _) ?_
  exact Nat.succ_le_of_lt ((takeWhile_sublist _).length_le.trans_lt hrounds)

end SortedPositionLinks

variable {b : SortedLinksBuilder}

/-- The chain of a head in the finished links, in the order of the sort values. -/
theorem SortedLinksBuilder.Chain.finished (h : Chain side b head l) :
    ∃ rest, (head :: rest).Perm l ∧
      Linked (b.build side).1.positionLinks (head :: rest) ∧
      ((b.build side).2 head = none ∧ rest = [] ∨ (b.build side).2 head = some rest ∧ rest ≠ []) ∧
      (head :: rest).Pairwise (Ascends side) := by
  have hapart : b.positionLinks.entries.Pairwise fun entry other =>
      ∀ p ∈ members entry, p ∉ members other :=
    b.positionLinks.nodupKeys.nodup.pairwise_of_forall_ne fun entry hentry other hother hne p hp
      hp' => hne (h.1.apart entry hentry other hother p hp hp')
  obtain ⟨hlinked, houtside⟩ :=
    foldl_linkChain_spec side _ .empty hapart h.1.nodup fun _ _ _ _ => rfl
  rcases h.2 with ⟨hl, hnone⟩ | ⟨rest, hrest, hl⟩
  · refine ⟨[], by rw [hl], houtside head hnone, Or.inl ⟨?_, rfl⟩, pairwise_singleton _ _⟩
    have hlookup : b.positionLinks.lookup head = none := by
      rw [Option.eq_none_iff_forall_not_mem]
      intro positions hpositions
      exact hnone _ (AList.mem_lookup_iff.mp hpositions) mem_cons_self
    simp only [build, hlookup, Option.map_none]
  · obtain ⟨value, hvalue, hleast⟩ := h.1.least _ hrest
    have hlookup : b.positionLinks.lookup head = some rest := AList.mem_lookup_iff.mpr hrest
    refine ⟨sort side rest, ?_, hlinked _ hrest, Or.inr ⟨?_, ?_⟩, ?_⟩
    · rw [hl]
      exact (mergeSort_perm _ _).cons head
    · simp only [build, hlookup, Option.map_some]
    · intro hnil
      have hperm := (mergeSort_perm rest fun left right => !side.sortsAfter left right)
      rw [show rest.mergeSort _ = [] from hnil] at hperm
      exact h.1.nonempty _ hrest hperm.symm.eq_nil
    · refine pairwise_cons.mpr ⟨?_, ?_⟩
      · intro p hp
        obtain ⟨other, hother, hle⟩ := hleast p (mem_sort.mp hp)
        exact ⟨value, other, hvalue, hother, hle⟩
      · refine sort_ascending fun p hp => ?_
        obtain ⟨other, hother, -⟩ := hleast p hp
        exact ⟨other, hother⟩

variable {searchFunctions : List (SearchFunction ρ)}

/-- The rows visited from a head are rows of its chain, among them all that pass. -/
def JoinHash.Visits (joinHash : JoinHash ρ) (searchFunctions : List (SearchFunction ρ)) (row : ρ)
    (rounds head : ℕ) (l : List ℕ) : Prop :=
  ∃ start positions, joinHash.startJoinPosition row (some head) = .ok start ∧
    joinHash.follow row rounds start = .ok positions ∧ positions.Nodup ∧
    (∀ p ∈ positions, p ∈ l) ∧
    ∀ p ∈ l, (∀ f ∈ searchFunctions, f p row = true) → p ∈ positions

theorem SortedPositionLinks.visited_spec
    (hchain : SortedLinksBuilder.Chain side b head l) (hnodup : l.Nodup)
    (hfunctions : ∀ f ∈ searchFunctions, f.OneSided side row) {joinHash : JoinHash ρ}
    (hjoin : joinHash.positionLinks = some (toPositionLinks
      ⟨(b.build side).1, (b.build side).2, searchFunctions⟩))
    (hrounds : l.length ≤ rounds) : joinHash.Visits searchFunctions row rounds head l := by
  obtain ⟨rest, hperm, hlinked, hsorted, hascending⟩ := hchain.finished
  let sorted : SortedPositionLinks ρ := ⟨(b.build side).1, (b.build side).2, searchFunctions⟩
  have hstartEq : joinHash.startJoinPosition row (some head) = sorted.start head row := by
    rw [JoinHash.startJoinPosition, hjoin]
    rfl
  obtain ⟨before, after, hsplit, hstart, hbefore, hafter⟩ :=
    start_spec sorted row (fun f hf => (hfunctions f hf).directed hascending)
      (fun f hf => (hfunctions f hf).directed (pairwise_cons.mp hascending).2) hsorted
  rw [JoinHash.Visits, hstartEq]
  have hfails : ∀ q ∈ before, ¬∀ f ∈ searchFunctions, f q row = true := fun q hq hq' =>
    Bool.false_ne_true ((hbefore q hq).symm.trans (all_eq_true.mpr hq'))
  cases after with
  | nil =>
      rw [append_nil] at hsplit
      refine ⟨none, [], hstart, JoinHash.follow_none _ _ _, nodup_nil, by simp, ?_⟩
      intro p hp hp'
      exact absurd hp' (hfails p (hsplit ▸ hperm.mem_iff.mpr hp))
  | cons p after =>
      have hlength : after.length < rounds := by
        have hsame := hperm.length_eq
        rw [hsplit, length_append, length_cons] at hsame
        omega
      rw [hsplit] at hperm hlinked
      have hvisited := follow_sorted row hjoin hlinked.of_append hlength
      rw [tail_cons] at hafter
      rw [takeWhile_eq_filter hafter] at hvisited
      have hsublist : (p :: after.filter fun q => sorted.applyAllSearchFunctions q row).Sublist
          (before ++ p :: after) :=
        (filter_sublist.cons_cons p).trans (sublist_append_right before _)
      refine ⟨some p, _, hstart, hvisited, (hperm.nodup_iff.mpr hnodup).sublist hsublist, ?_, ?_⟩
      · intro q hq
        exact hperm.mem_iff.mp (hsublist.subset hq)
      · intro q hq hq'
        rcases mem_append.mp (hperm.mem_iff.mpr hq) with hq | hq
        · exact absurd hq' (hfails q hq)
        · rcases mem_cons.mp hq with rfl | hq
          · exact mem_cons_self
          · exact mem_cons_of_mem _ (mem_filter.mpr ⟨hq, all_eq_true.mpr hq'⟩)

/-- How the supplied lookup follows the chains: without links when there is no chain. -/
def Supplied (side : BuildSide κ σ) (links : SortedLinksBuilder)
    (searchFunctions : List (SearchFunction ρ)) (joinHash : JoinHash ρ) : Prop :=
  joinHash.positionLinks = none ∧ links.positionLinks.entries = [] ∨
    joinHash.positionLinks = some (SortedPositionLinks.toPositionLinks
      ⟨(links.build side).1, (links.build side).2, searchFunctions⟩)

variable {links : SortedLinksBuilder}

theorem sortedJoinHashSupplier_eq
    {hashCommon : HashCommon} {strategy : PagesHashStrategy κ} {build : BuildSide κ σ}
    {pagesHash : PagesHash}
    (hcreate : PagesHash.create hashCommon strategy build (SortedLinksBuilder.builder build) =
      .ok (pagesHash, links)) (hne : searchFunctions ≠ []) :
    ∃ joinHash : JoinHash ρ,
      sortedJoinHashSupplier hashCommon strategy build searchFunctions = .ok joinHash ∧
      joinHash.pagesHash = pagesHash ∧ Supplied build links searchFunctions joinHash := by
  rw [sortedJoinHashSupplier, hcreate, Outcome.bind_ok]
  by_cases hentries : links.positionLinks.entries = []
  · exact ⟨⟨pagesHash, none⟩, by rw [hentries]; rfl, rfl, Or.inl ⟨rfl, hentries⟩⟩
  · refine ⟨⟨pagesHash, some (SortedPositionLinks.toPositionLinks
      ⟨(links.build build).1, (links.build build).2, searchFunctions⟩)⟩, ?_, rfl, Or.inr rfl⟩
    simp only [List.isEmpty_iff, hentries, SortedPositionLinks.create, hne]
    rfl

theorem visited_of_supplied (hchain : SortedLinksBuilder.Chain side links head l) (hnodup : l.Nodup)
    (hfunctions : ∀ f ∈ searchFunctions, f.OneSided side row) {joinHash : JoinHash ρ}
    (hsupplied : Supplied side links searchFunctions joinHash) (hrounds : l.length ≤ rounds) :
    joinHash.Visits searchFunctions row rounds head l := by
  rcases hsupplied with ⟨hnolinks, hentries⟩ | hsome
  · have hl : l = [head] := by
      rcases hchain.2 with ⟨hl, -⟩ | ⟨rest, hrest, -⟩
      · exact hl
      · rw [hentries] at hrest
        cases hrest
    obtain ⟨pagesHash, positionLinks⟩ := joinHash
    subst hnolinks
    have hlinked : Linked (fun _ => none) [head] := rfl
    rw [hl] at hrounds hnodup ⊢
    exact ⟨some head, [head], rfl, JoinHash.follow_linked (fun _ => rfl) hlinked hrounds, hnodup,
      fun p hp => hp, fun p hp _ => hp⟩
  · exact SortedPositionLinks.visited_spec hchain hnodup hfunctions hsome hrounds

/-- A lookup with a sort channel visits, among the rows that pass all search functions, exactly
those with the key of the probe row, each once, when every search function is one-sided.  The
supplier fails only for more rows than the table can hold; sorted links are not created for an
empty list of search functions. -/
theorem sortedJoinPositions_eq_matching_rows (hashCommon : HashCommon)
    {strategy : PagesHashStrategy κ} (hstrategy : strategy.Lawful) (build : BuildSide κ σ)
    {rowKey : κ} (hrow : strategy.isNull rowKey = false) (row : ρ)
    (searchFunctions : List (SearchFunction ρ))
    (hfunctions : ∀ f ∈ searchFunctions, f.OneSided build row) :
    (∃ joinHash positions,
      sortedJoinHashSupplier hashCommon strategy build searchFunctions = .ok joinHash ∧
      joinHash.joinPositions strategy build rowKey row = .ok positions ∧ positions.Nodup ∧
      ∀ position, (∀ f ∈ searchFunctions, f position row = true) →
        (position ∈ positions ↔ position < build.positionCount ∧
          strategy.isNull (build.key position) = false ∧
          strategy.equalIgnoreNulls (build.key position) rowKey = true)) ∨
    searchFunctions = [] ∧ (∀ built, SortedPositionLinks.create built searchFunctions =
      .error (.illegalState "Using sortedPositionLinks with no search functions")) ∨
    3 * 2 ^ 28 < build.positionCount ∧ ∃ message,
      sortedJoinHashSupplier hashCommon strategy build searchFunctions =
        .error (.throws (.illegalArgument message)) := by
  by_cases hempty : searchFunctions = []
  · exact Or.inr (Or.inl ⟨hempty, fun built => by rw [hempty]; rfl⟩)
  rcases PagesHash.create_spec hashCommon hstrategy build
    (SortedLinksBuilder.builder_lawful build) with
    ⟨pagesHash, links, hashSize, hcreate, hroom, hhashes, hindexed⟩ | ⟨hlarge, message, hcreate⟩
  · refine Or.inl ?_
    -- a row that passes has a sort value, so it was not dropped
    have hkept : ∀ p, (∀ f ∈ searchFunctions, f p row = true) →
        (build.sortValue p).isSome = true := by
      intro p hp
      obtain ⟨f, hf⟩ := List.exists_mem_of_ne_nil _ hempty
      rw [Option.isSome_iff_ne_none]
      intro hnull
      have htrue := hp f hf
      rw [(hfunctions f hf).null p hnull] at htrue
      cases htrue
    obtain ⟨joinHash, hsupplier, rfl, hlinks⟩ := sortedJoinHashSupplier_eq hcreate hempty
    obtain ⟨positions, hpositions⟩ := JoinHash.joinPositions_of_visited
      (fun p => ∀ f ∈ searchFunctions, f p row = true) hstrategy
      (SortedLinksBuilder.builder_lawful build) hroom hhashes hindexed hrow hkept
      fun head l hchain hnodup hlength =>
        visited_of_supplied hchain hnodup hfunctions hlinks hlength
    exact ⟨joinHash, positions, hsupplier, hpositions⟩
  · refine Or.inr (Or.inr ⟨hlarge, message, ?_⟩)
    rw [sortedJoinHashSupplier, hcreate]
    rfl

/-- Five rows with one key, one of them without a sort value. -/
def fiveRows : BuildSide (Option ℕ) ℕ :=
  ⟨5, fun _ => some 7, fun p => [some 8, none, some 2, some 5, some 9].getD p none⟩

variable (bound : ℕ)

def fiveRowsAbove : SearchFunction Unit := fun p _ =>
  (fiveRows.sortValue p).any (bound < ·)

def fiveRowsBelow : SearchFunction Unit := fun p _ =>
  (fiveRows.sortValue p).any (· < bound)

theorem fiveRowsAbove_oneSided : (fiveRowsAbove bound).OneSided fiveRows () where
  null := fun p hnull => by rw [fiveRowsAbove, hnull]; rfl
  monotone := by
    refine Or.inl ?_
    intro p q v w hv hw hle
    simp only [fiveRowsAbove, hv, hw, Option.any_some, decide_eq_true_eq]
    exact fun h => h.trans_le hle

theorem fiveRowsBelow_oneSided : (fiveRowsBelow bound).OneSided fiveRows () where
  null := fun p hnull => by rw [fiveRowsBelow, hnull]; rfl
  monotone := by
    refine Or.inr ?_
    intro p q v w hv hw hle
    simp only [fiveRowsBelow, hv, hw, Option.any_some, decide_eq_true_eq]
    exact fun h => hle.trans_lt h

/-- A lookup for the sort values below nine and above three visits the two rows that pass. -/
theorem sortedJoinPositions_eq_matching_rows_of_five :
    ∃ (joinHash : JoinHash Unit) (positions : List ℕ),
      sortedJoinHashSupplier .leastAbove numberStrategy fiveRows
        [fiveRowsBelow 9, fiveRowsAbove 3] =
        .ok joinHash ∧
      joinHash.joinPositions numberStrategy fiveRows (some 7) () = .ok positions ∧
        positions.Nodup ∧ 0 ∈ positions ∧ 3 ∈ positions := by
  have hfunctions : ∀ f ∈ [fiveRowsBelow 9, fiveRowsAbove 3], f.OneSided fiveRows () := by
    intro f hf
    rcases List.mem_pair.mp hf with rfl | rfl
    · exact fiveRowsBelow_oneSided 9
    · exact fiveRowsAbove_oneSided 3
  have hrow : numberStrategy.isNull (some 7) = false := rfl
  rcases sortedJoinPositions_eq_matching_rows .leastAbove numberStrategy_lawful fiveRows hrow () _
    hfunctions with ⟨joinHash, positions, hsupplier, hvisit, hnodup, hmem⟩ | ⟨hnil, -⟩ | ⟨hlarge, -⟩
  · refine ⟨joinHash, positions, hsupplier, hvisit, hnodup, ?_, ?_⟩
    · exact (hmem 0 (by decide)).mpr (by decide)
    · exact (hmem 3 (by decide)).mpr (by decide)
  · cases hnil
  · exact absurd hlarge (by decide)

end Presto.Operator
