import Mathlib.Data.List.Basic
import Mathlib.Data.List.Count
import Mathlib.Tactic.Ring
import Presto.Support.ListUpdates

/-!
# Open addressing with linear probing

A table is a list of slots, some of them free.  A value is stored in the first
free slot at or after its home position, cyclically.  Every slot that a stored
value was moved past stays occupied, so probing from the home position finds
the value before it meets a free slot.
-/

namespace Presto.Support.OpenAddressing

open List Option

variable {σ : Type*}

/-- The first slot at or after a position, cyclically, that passes a test;
at most `steps` slots are visited. -/
def probe (table : List σ) (test : σ → Bool) : (steps position : ℕ) → Option ℕ
  | 0, _ => none
  | steps + 1, position =>
      match table[position % table.length]? with
      | none => none
      | some slot =>
          if test slot then some (position % table.length)
          else probe table test steps (position + 1)

/-- Stores a value in the first free slot, unless a slot on the way shows that
it is already present. -/
def insert (free present : σ → Bool) (table : List σ) (position : ℕ) (value : σ) :
    List σ :=
  match probe table (fun slot => free slot || present slot) table.length position with
  | none => table
  | some index =>
      match table[index]? with
      | none => table
      | some slot => if free slot then table.set index value else table

/-- Whether probing meets a slot that matches before a free one. -/
def lookup (free same : σ → Bool) (table : List σ) (position : ℕ) : Bool :=
  match probe table (fun slot => free slot || same slot) table.length position with
  | none => false
  | some index =>
      match table[index]? with
      | none => false
      | some slot => !free slot

/-! ## Probing -/

/-- Probing is a search among the offsets of the slots. -/
theorem probe_eq (table : List σ) (test : σ → Bool) (steps position : ℕ) :
    probe table test steps position =
      ((range steps).find? fun j => table[(position + j) % table.length]?.any test).map
        fun j => (position + j) % table.length := by
  induction steps generalizing position with
  | zero => rfl
  | succ steps ih =>
      rw [probe, range_succ_eq_map, find?_cons]
      cases hslot : table[position % table.length]? with
      | none =>
          have hnil : table = [] := by
            by_contra hne
            exact absurd (getElem?_eq_none_iff.mp hslot)
              (not_le.mpr (Nat.mod_lt _ (length_pos_of_ne_nil hne)))
          simp [hnil]
      | some slot =>
          by_cases htest : test slot = true
          · simp [htest]
          · simp [htest, ih, Function.comp_def, Nat.add_assoc, Nat.add_comm 1]

theorem probe_spec {table : List σ} {test : σ → Bool} {steps position index : ℕ}
    (h : probe table test steps position = some index) :
    ∃ j < steps, index = (position + j) % table.length ∧
      (∃ slot, table[index]? = some slot ∧ test slot = true) ∧
      ∀ i < j, ∃ slot, table[(position + i) % table.length]? = some slot ∧
        test slot = false := by
  rw [probe_eq, map_eq_some_iff] at h
  obtain ⟨j, hfind, rfl⟩ := h
  obtain ⟨hfound, hj, hbefore⟩ := find?_range_eq_some.mp hfind
  obtain ⟨slot, hslot, htest⟩ := (any_eq_true _ _).mp hfound
  refine ⟨j, mem_range.mp hj, rfl, ⟨slot, hslot, htest⟩, ?_⟩
  intro i hi
  have hlt := Nat.mod_lt (position + i) (length_pos_of_mem (mem_of_getElem? hslot))
  have hfails := hbefore i hi
  rw [getElem?_eq_getElem hlt] at hfails ⊢
  exact ⟨_, rfl, by simpa using hfails⟩

variable {index : ℕ}

/-- Probing as many slots as the table has reaches every slot. -/
theorem exists_offset (position : ℕ) {size : ℕ} (hindex : index < size) :
    ∃ j < size, (position + j) % size = index := by
  have hpos : 0 < size := by omega
  have hmod : position % size < size := Nat.mod_lt _ hpos
  refine ⟨(index + size - position % size) % size, Nat.mod_lt _ hpos, ?_⟩
  have hsum : position % size + (index + size - position % size) = index + size := by omega
  rw [Nat.add_mod_mod, ← Nat.mod_add_mod, hsum, Nat.add_mod_right, Nat.mod_eq_of_lt hindex]

/-! ## The table invariant -/

/-- Every stored value can be reached from its home position over occupied
slots. -/
def Reachable (free : σ → Bool) (home : σ → ℕ) (table : List σ) : Prop :=
  ∀ (index : ℕ) (value : σ), table[index]? = some value → free value = false →
    ∃ j < table.length, index = (home value + j) % table.length ∧
      ∀ i < j, ∃ slot, table[(home value + i) % table.length]? = some slot ∧
        free slot = false

variable {free : σ → Bool} {home : σ → ℕ}

theorem reachable_replicate {marker : σ} (hmarker : free marker = true) (size : ℕ) :
    Reachable free home (replicate size marker) := by
  intro index value hvalue hfree
  have heq : value = marker :=
    eq_of_mem_replicate (mem_of_getElem? hvalue)
  simp [heq, hmarker] at hfree

/-! ## Probing for a key -/

variable {table : List σ} {same : σ → Bool} {slot : σ}

theorem exists_probe_of_mem (test : σ → Bool) (hmem : slot ∈ table) (htest : test slot = true)
    (position : ℕ) : ∃ index, probe table test table.length position = some index := by
  obtain ⟨k, hk, rfl⟩ := mem_iff_getElem.mp hmem
  obtain ⟨offset, hoffset, hoffsetEq⟩ := exists_offset position hk
  have hfind : ((range table.length).find? fun j =>
      table[(position + j) % table.length]?.any test).isSome = true :=
    find?_isSome.mpr ⟨offset, mem_range.mpr hoffset, by simp [hoffsetEq, hk, htest]⟩
  obtain ⟨j, hj⟩ := isSome_iff_exists.mp hfind
  exact ⟨_, by rw [probe_eq, hj, map_some]⟩

/-- Where probing for a key stops: at the slot of the key or, if the key is not stored, at a
free slot; every slot before is occupied. -/
structure Found (free same : σ → Bool) (table : List σ) (position index : ℕ) (slot : σ) :
    Prop where
  getElem? : table[index]? = some slot
  path : ∃ j < table.length, index = (position + j) % table.length ∧
    ∀ i < j, ∃ s, table[(position + i) % table.length]? = some s ∧ free s = false
  stored : free slot = false → same slot = true
  missing : free slot = true → ∀ other ∈ table, free other = false → same other = false

variable {position : ℕ}

/-- In a table with a free slot or with the key, probing for the key ends. -/
theorem exists_probe_key (htable : Reachable free home table)
    (hstop : ∃ slot ∈ table, free slot = true ∨ same slot = true)
    (hhome : ∀ slot ∈ table, free slot = false → same slot = true → home slot = position) :
    ∃ index slot,
      probe table (fun slot => free slot || same slot) table.length position = some index ∧
        Found free same table position index slot := by
  obtain ⟨last, hlast, hlastStop⟩ := hstop
  obtain ⟨index, hprobe⟩ := exists_probe_of_mem
    (fun slot => free slot || same slot) hlast (by simpa using hlastStop) position
  obtain ⟨j, hj, hindex, ⟨slot, hslot, htest⟩, hbefore⟩ := probe_spec hprobe
  refine ⟨index, slot, hprobe, hslot, ⟨j, hj, hindex, ?_⟩, ?_, ?_⟩
  · intro i hi
    obtain ⟨s, hs, hstop⟩ := hbefore i hi
    exact ⟨s, hs, (Bool.or_eq_false_iff.mp hstop).1⟩
  · intro hslotFree
    simpa [hslotFree] using htest
  · intro hslotFree other hother hotherFree
    by_contra hsame
    rw [Bool.not_eq_false] at hsame
    obtain ⟨n, hn, rfl⟩ := mem_iff_getElem.mp hother
    obtain ⟨m, -, hnEq, hpath⟩ :=
      htable n table[n] (getElem?_eq_getElem hn) hotherFree
    rw [hhome _ hother hotherFree hsame] at hnEq hpath
    -- the probe met the free slot before, at or after the slot of the key
    rcases Nat.lt_trichotomy j m with hlt | rfl | hgt
    · obtain ⟨s, hs, hsfree⟩ := hpath j hlt
      rw [← hindex, hslot, some.injEq] at hs
      rw [hs, hsfree] at hslotFree
      cases hslotFree
    · rw [hindex, ← hnEq, getElem?_eq_getElem hn, some.injEq] at hslot
      rw [hslot, hslotFree] at hotherFree
      cases hotherFree
    · obtain ⟨s, hs, hstop⟩ := hbefore m hgt
      rw [← hnEq, getElem?_eq_getElem hn, some.injEq] at hs
      rw [hs, (Bool.or_eq_false_iff.mp hstop).2] at hsame
      cases hsame

/-- In a table with a free slot, probing for a free slot ends. -/
theorem exists_probe_free (htable : Reachable free home table)
    (hroom : ∃ slot ∈ table, free slot = true) (position : ℕ) :
    ∃ index slot, probe table free table.length position = some index ∧ free slot = true ∧
      Found free (fun _ => false) table position index slot := by
  have hhome : ∀ slot ∈ table, free slot = false → false = true → home slot = position := by
    rintro slot - - ⟨⟩
  obtain ⟨index, slot, hprobe, hfound⟩ := exists_probe_key htable
    (hroom.imp fun _ h => ⟨h.1, .inl h.2⟩) hhome
  refine ⟨index, slot, by simpa only [Bool.or_false] using hprobe, ?_, hfound⟩
  by_contra hoccupied
  have hstored := hfound.stored (Bool.eq_false_iff.mpr hoccupied)
  cases hstored

variable {value : σ}

/-- Storing a value where probing from its home position stopped. -/
theorem reachable_set (htable : Reachable free home table)
    (hfound : Found free same table (home value) index slot) (hvalue : free value = false) :
    Reachable free home (table.set index value) := by
  obtain ⟨j, hj, hindex, hbefore⟩ := hfound.path
  have hlt : index < table.length := (List.getElem?_eq_some_iff.mp hfound.getElem?).1
  have hkeep : ∀ {n : ℕ}, (∃ s, table[n]? = some s ∧ free s = false) →
      ∃ s, (table.set index value)[n]? = some s ∧ free s = false := by
    rintro n ⟨s, hs, hsfree⟩
    by_cases hn : index = n
    · exact ⟨value, by rw [← hn, getElem?_set_self hlt], hvalue⟩
    · exact ⟨s, by rw [getElem?_set_ne hn]; exact hs, hsfree⟩
  intro n stored hstored hstoredFree
  rw [length_set]
  rcases ListUpdates.getElem?_set_cases hstored with ⟨rfl, rfl⟩ | ⟨-, hstored⟩
  · exact ⟨j, hj, hindex, fun i hi => hkeep (hbefore i hi)⟩
  · obtain ⟨k, hk, hnEq, hpath⟩ := htable n stored hstored hstoredFree
    exact ⟨k, hk, hnEq, fun i hi => hkeep (hpath i hi)⟩

/-! ## Insertion -/

/-- What an insertion can do: nothing, when no slot is free or one shows the value, or fill
the first free slot that the probe reaches. -/
theorem insert_cases (free present : σ → Bool) (table : List σ) (position : ℕ) (value : σ) :
    (insert free present table position value = table ∧
        ((∀ slot ∈ table, free slot = false) ∨ ∃ slot ∈ table, present slot = true)) ∨
      ∃ index slot, Found free (fun _ => false) table position index slot ∧
        free slot = true ∧
        insert free present table position value = table.set index value := by
  unfold insert
  cases hprobe : probe table (fun slot => free slot || present slot)
      table.length position with
  | none =>
      refine Or.inl ⟨rfl, Or.inl fun slot hslot => ?_⟩
      by_contra hfree
      obtain ⟨index, hindex⟩ := exists_probe_of_mem
        (fun slot => free slot || present slot) hslot (by simp [hfree]) position
      rw [hprobe] at hindex
      cases hindex
  | some index =>
      obtain ⟨j, hj, hindex, ⟨slot, hslot, htest⟩, hbefore⟩ := probe_spec hprobe
      simp only [hslot]
      by_cases hfree : free slot = true
      · refine Or.inr ⟨index, slot, ⟨hslot, ⟨j, hj, hindex, ?_⟩, ?_, ?_⟩, hfree, if_pos hfree⟩
        · intro i hi
          obtain ⟨s, hs, htest⟩ := hbefore i hi
          exact ⟨s, hs, (Bool.or_eq_false_iff.mp htest).1⟩
        · simp [hfree]
        · intros
          rfl
      · have hpresent : present slot = true := by simpa [hfree] using htest
        exact Or.inl ⟨if_neg hfree, Or.inr ⟨slot, mem_of_getElem? hslot, hpresent⟩⟩

theorem length_insert (present : σ → Bool) (table : List σ) (position : ℕ) (value : σ) :
    (insert free present table position value).length = table.length := by
  rcases insert_cases free present table position value with ⟨heq, -⟩ | ⟨index, slot, -, -, heq⟩
  · rw [heq]
  · rw [heq, length_set]

/-- Filling a free slot stores the value and keeps the others. -/
theorem mem_set_iff {s : σ} (hslot : table[index]? = some slot)
    (hslotFree : free slot = true) (hs : free s = false) :
    s ∈ table.set index value ↔ s = value ∨ s ∈ table := by
  obtain ⟨htable, hset⟩ := ListUpdates.set_eq_of_getElem? hslot value
  -- the slot that is overwritten is free, so it does not hold the other value
  have hne : s ≠ slot := by
    rintro rfl
    exact Bool.false_ne_true (hs.symm.trans hslotFree)
  rw [hset]
  conv_rhs => rw [htable]
  simp only [mem_append, mem_cons, hne, false_or]
  exact or_left_comm

/-- While a slot is free, an insertion stores the value and keeps the others. -/
theorem mem_insert_iff {present : σ → Bool} (hpresent : ∀ s, present s = true → s = value)
    (hvalue : free value = false) (hroom : ∃ slot ∈ table, free slot = true)
    {s : σ} (hs : free s = false) :
    s ∈ insert free present table position value ↔ s = value ∨ s ∈ table := by
  rcases insert_cases free present table position value with
    ⟨heq, hfull | ⟨slot, hslot, hsame⟩⟩ | ⟨index, slot, hfound, hslotFree, heq⟩
  · obtain ⟨room, hmem, hfree⟩ := hroom
    rw [hfull room hmem] at hfree
    cases hfree
  · rw [heq, or_iff_right_of_imp]
    rintro rfl
    exact hpresent slot hsame ▸ hslot
  · rw [heq]
    exact mem_set_iff hfound.getElem? hslotFree hs

theorem countP_free_set (hslot : table[index]? = some slot) :
    table.countP free ≤ (table.set index value).countP free + 1 := by
  rw [List.countP_set (List.getElem?_eq_some_iff.mp hslot).1]
  split <;> split <;> omega

/-- An insertion uses up at most one free slot. -/
theorem countP_free_insert (free present : σ → Bool) (table : List σ) (position : ℕ) (value : σ) :
    table.countP free ≤ (insert free present table position value).countP free + 1 := by
  rcases insert_cases free present table position value with
    ⟨heq, -⟩ | ⟨index, slot, hfound, -, heq⟩
  · rw [heq]
    omega
  · rw [heq]
    exact countP_free_set hfound.getElem?

/-! ## Filling a table -/

/-- Inserts values one after the other. -/
def insertAll (free : σ → Bool) (present : σ → σ → Bool) (home : σ → ℕ)
    (table : List σ) (values : List σ) : List σ :=
  values.foldl (fun t value => insert free (present value) t (home value) value) table

variable {present : σ → σ → Bool}

theorem length_insertAll (values : List σ) :
    ∀ table : List σ, (insertAll free present home table values).length = table.length := by
  induction values with
  | nil => simp [insertAll]
  | cons value rest ih =>
      intro table
      have hrest := ih (insert free (present value) table (home value) value)
      rw [length_insert] at hrest
      exact hrest

/-- While the free slots suffice, every value is stored and reachable. -/
theorem insertAll_spec
    (hpresent : ∀ value s, present value s = true → s = value) (values : List σ) :
    ∀ {table : List σ}, Reachable free home table →
      (∀ value ∈ values, free value = false) →
      values.length ≤ table.countP free →
      Reachable free home (insertAll free present home table values) ∧
        ∀ s, free s = false →
          (s ∈ insertAll free present home table values ↔ s ∈ values ∨ s ∈ table) := by
  induction values with
  | nil =>
      intro table htable _ _
      exact ⟨htable, by simp [insertAll]⟩
  | cons value rest ih =>
      intro table htable hvalues hroom
      rw [length_cons] at hroom
      have hvalue : free value = false := hvalues value (by simp)
      have hslot : ∃ slot ∈ table, free slot = true := countP_pos_iff.mp (by omega)
      have hcount := countP_free_insert free (present value) table (home value) value
      have hfirstReachable :
          Reachable free home (insert free (present value) table (home value) value) := by
        rcases insert_cases free (present value) table (home value) value with
          ⟨heq, -⟩ | ⟨index, slot, hfound, -, heq⟩
        · rw [heq]
          exact htable
        · rw [heq]
          exact reachable_set htable hfound hvalue
      obtain ⟨hreachable, hmem⟩ := ih hfirstReachable
        (fun v hv => hvalues v (by simp [hv])) (by omega)
      refine ⟨hreachable, ?_⟩
      intro s hs
      have hfirst : s ∈ insert free (present value) table (home value) value ↔
          s = value ∨ s ∈ table :=
        mem_insert_iff (hpresent value) hvalue hslot hs
      rw [show insertAll free present home table (value :: rest) = insertAll free present home
        (insert free (present value) table (home value) value) rest from rfl, hmem s hs, mem_cons]
      tauto

/-! ## Lookup -/

theorem exists_mem_of_lookup (h : lookup free same table position = true) :
    ∃ slot ∈ table, free slot = false ∧ same slot = true := by
  unfold lookup at h
  cases hprobe : probe table (fun slot => free slot || same slot)
      table.length position with
  | none => simp [hprobe] at h
  | some index =>
      obtain ⟨-, -, -, ⟨slot, hslot, htest⟩, -⟩ := probe_spec hprobe
      simp only [hprobe, hslot] at h
      have hfree : free slot = false := by simpa using h
      exact ⟨slot, mem_of_getElem? hslot, hfree, by simpa [hfree] using htest⟩

/-- In a table whose values are reachable, lookup is membership. -/
theorem lookup_eq_true_iff (htable : Reachable free home table) (hvalue : free value = false)
    (hsame : ∀ slot, free slot = false → (same slot = true ↔ slot = value)) :
    lookup free same table (home value) = true ↔ value ∈ table := by
  constructor
  · intro h
    obtain ⟨slot, hslot, hfree, hmatch⟩ := exists_mem_of_lookup h
    rw [← (hsame slot hfree).mp hmatch]
    exact hslot
  intro hmem
  have hmatch : same value = true := (hsame value hvalue).mpr rfl
  obtain ⟨index, slot, hprobe, hfound⟩ := exists_probe_key htable ⟨value, hmem, .inr hmatch⟩
    fun slot _ hfree hslot => congrArg home ((hsame slot hfree).mp hslot)
  have hslotFree : free slot = false := by
    by_contra hfree
    have hmissing := hfound.missing (by simpa using hfree) value hmem hvalue
    rw [hmatch] at hmissing
    cases hmissing
  unfold lookup
  simp [hprobe, hfound.getElem?, hslotFree]

/-- A new table with room for the values finds these and no others. -/
theorem lookup_insertAll_iff (value : σ) {marker : σ} {values : List σ} {size : ℕ}
    (hmarker : free marker = true) (hpresent : ∀ value s, present value s = true → s = value)
    (hvalues : ∀ v ∈ values, free v = false) (hroom : values.length ≤ size)
    (hvalue : free value = false)
    (hsame : ∀ slot, free slot = false → (same slot = true ↔ slot = value)) :
    lookup free same (insertAll free present home (replicate size marker) values)
      (home value) = true ↔ value ∈ values := by
  obtain ⟨hreachable, hmem⟩ := insertAll_spec hpresent values
    (reachable_replicate hmarker size) hvalues (by rwa [countP_replicate, if_pos hmarker])
  rw [lookup_eq_true_iff hreachable hvalue hsame, hmem value hvalue]
  refine or_iff_left fun hin => ?_
  rw [eq_of_mem_replicate hin, hmarker] at hvalue
  cases hvalue

/-! ## The values of a table -/

section Stores

variable {τ : Type*} {home home' : τ → ℕ} {capacity : ℕ} {table : List (Option τ)}
  {values : List τ}

/-- A table of optional slots stores the given values, each where it can be found. -/
structure Stores (home : τ → ℕ) (capacity : ℕ) (table : List (Option τ)) (values : List τ) :
    Prop where
  length : table.length = capacity
  reachable : Reachable Option.isNone (fun slot => slot.elim 0 home) table
  perm : (table.flatMap Option.toList).Perm values

namespace Stores

theorem empty (home : τ → ℕ) (capacity : ℕ) :
    Stores home capacity (replicate capacity none) [] where
  length := length_replicate
  reachable := reachable_replicate rfl capacity
  perm := by simp

variable (h : Stores home capacity table values)

include h

variable {value : τ}

theorem mem_iff : some value ∈ table ↔ value ∈ values := by
  rw [← h.perm.mem_iff, mem_flatMap]
  constructor
  · intro hmem
    exact ⟨some value, hmem, by simp⟩
  · rintro ⟨slot, hslot, hvalue⟩
    rwa [← mem_toList.mp hvalue]

theorem exists_free (hroom : values.length < capacity) : ∃ slot ∈ table, isNone slot = true := by
  by_contra hfull
  -- a table without a free slot has as many values as slots
  have hlength : (table.filterMap id).length = table.length := by
    refine filterMap_length_eq_length.mpr fun slot hslot => isSome_iff_ne_none.mpr ?_
    rintro rfl
    exact hfull ⟨none, hslot, rfl⟩
  rw [filterMap_eq_flatMap_toList, h.length] at hlength
  exact hroom.ne (h.perm.length_eq.symm.trans hlength)

/-- Storing a value where probing for it stopped. -/
theorem set {same : Option τ → Bool} {slot : Option τ}
    (hfound : Found isNone same table (home value) index slot) (hfree : slot.isNone = true) :
    Stores home capacity (table.set index (some value)) (values ++ [value]) where
  length := by rw [length_set, h.length]
  reachable := reachable_set h.reachable hfound rfl
  perm := by
    have hslot : toList slot = [] := by simpa using hfree
    exact (ListUpdates.flatMap_set_perm hfound.getElem? hslot).trans (h.perm.append_right _)

theorem congr_home (hhome : ∀ value ∈ values, home value = home' value) :
    Stores home' capacity table values := by
  refine { h with reachable := ?_ }
  intro index slot hslot hoccupied
  cases slot with
  | none => cases hoccupied
  | some value =>
      have hmem : value ∈ values := h.mem_iff.mp (mem_of_getElem? hslot)
      have hreachable := h.reachable index (some value) hslot hoccupied
      simpa only [elim_some, hhome value hmem] using hreachable

end Stores
end Stores

end Presto.Support.OpenAddressing
