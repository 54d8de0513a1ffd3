import Mathlib.Data.List.Sort
import Mathlib.Order.Lattice

/-!
# Sorted association lists

A navigable map keeps its entries in increasing order of their keys.  `put`
replaces the entry of an equal key, and `floorEntry` is the entry with the
greatest key at or below the argument.  Two sorted maps are equal as maps
exactly when they are equal as lists of entries.
-/

namespace Presto.Support

open List

/-- The entries of a navigable map, in the order in which it iterates. -/
abbrev NavigableMap (κ ν : Type*) := List (κ × ν)

namespace NavigableMap

variable {κ ν : Type*} [LinearOrder κ]

/-- Keys increase strictly along the entries. -/
def Sorted (m : NavigableMap κ ν) : Prop :=
  m.Pairwise fun e f => e.1 < f.1

def put (m : NavigableMap κ ν) (key : κ) (value : ν) : NavigableMap κ ν :=
  match m with
  | [] => [(key, value)]
  | e :: rest =>
      if key < e.1 then (key, value) :: e :: rest
      else if key = e.1 then (key, value) :: rest
      else e :: put rest key value

def floorEntry (m : NavigableMap κ ν) (key : κ) : Option (κ × ν) :=
  match m with
  | [] => none
  | e :: rest =>
      if e.1 ≤ key then
        match floorEntry rest key with
        | some f => some f
        | none => some e
      else none

def values (m : NavigableMap κ ν) : List ν :=
  m.map Prod.snd

def get (m : NavigableMap κ ν) (key : κ) : Option ν :=
  match m with
  | [] => none
  | e :: rest => if e.1 = key then some e.2 else get rest key

/-- `Map.equals`: the same number of entries, and for every key of the one an equal value in the
other. -/
def equals (equal : ν → ν → Bool) (m n : NavigableMap κ ν) : Bool :=
  m.length == n.length && m.all fun e => (n.get e.1).any (equal e.2)

variable {m : NavigableMap κ ν} {key : κ}

/-- A key above every stored key is appended. -/
theorem put_of_forall_lt (value : ν) (h : ∀ e ∈ m, e.1 < key) :
    m.put key value = m ++ [(key, value)] := by
  induction m with
  | nil => rfl
  | cons e rest ih =>
      have he : e.1 < key := h e (by simp)
      have hrest : put rest key value = rest ++ [(key, value)] :=
        ih fun f hf => h f (by simp [hf])
      rw [put, if_neg (not_lt.mpr he.le), if_neg (ne_of_gt he), hrest]
      rfl

/-- The entry found is the last of those that start at or below the argument. -/
theorem exists_split_of_floorEntry (hm : m.Sorted) (key : κ) :
    ∃ before after, m = before ++ after ∧ m.floorEntry key = before.getLast? ∧
      (∀ e ∈ before, e.1 ≤ key) ∧ ∀ f ∈ after, key < f.1 := by
  induction m with
  | nil => exact ⟨[], [], rfl, rfl, by simp, by simp⟩
  | cons e rest ih =>
      obtain ⟨hlt, hrest⟩ := pairwise_cons.mp hm
      rw [floorEntry]
      by_cases he : e.1 ≤ key
      · obtain ⟨before, after, rfl, hfloor, hbefore, hafter⟩ := ih hrest
        refine ⟨e :: before, after, rfl, ?_, forall_mem_cons.mpr ⟨he, hbefore⟩, hafter⟩
        rw [if_pos he, hfloor, getLast?_cons]
        cases before.getLast? <;> rfl
      · rw [if_neg he]
        rw [not_le] at he
        refine ⟨[], e :: rest, rfl, rfl, by simp, forall_mem_cons.mpr ⟨he, ?_⟩⟩
        exact fun f hf => he.trans (hlt f hf)

variable {e : κ × ν}

theorem mem_of_get_eq_some {value : ν} (h : m.get key = some value) : (key, value) ∈ m := by
  induction m with
  | nil => simp [get] at h
  | cons e rest ih =>
      rw [get] at h
      split at h
      next hkey =>
        obtain rfl : e.2 = value := by simpa using h
        rw [← hkey]
        exact mem_cons_self
      next => exact mem_cons_of_mem e (ih h)

theorem get_eq_some_of_mem (hm : m.Sorted) (he : e ∈ m) : m.get e.1 = some e.2 := by
  induction m with
  | nil => simp at he
  | cons f rest ih =>
      obtain ⟨hlt, hrest⟩ := pairwise_cons.mp hm
      rw [get]
      rcases mem_cons.mp he with rfl | he
      · rw [if_pos rfl]
      · rw [if_neg (hlt e he).ne]
        exact ih hrest he

theorem Sorted.nodup (hm : m.Sorted) : m.Nodup :=
  hm.imp fun hlt heq => absurd (congrArg Prod.fst heq) hlt.ne

/-- Equal maps have the same entries in the same order. -/
theorem equals_iff {equal : ν → ν → Bool} (hequal : ∀ v w, equal v w = true ↔ v = w)
    {m n : NavigableMap κ ν} (hm : m.Sorted) (hn : n.Sorted) : m.equals equal n = true ↔ m = n := by
  rw [equals, Bool.and_eq_true, beq_iff_eq, all_eq_true]
  constructor
  · rintro ⟨hlength, hget⟩
    have hsubset : m ⊆ n := by
      intro e he
      obtain ⟨value, hvalue, hsame⟩ := (Option.any_eq_true _ _).mp (hget e he)
      rw [← (hequal e.2 value).mp hsame] at hvalue
      exact mem_of_get_eq_some hvalue
    have hperm : m.Perm n :=
      (subperm_of_subset hm.nodup hsubset).perm_of_length_le hlength.ge
    refine hperm.eq_of_pairwise ?_ hm hn
    intro e f _ _ hef hfe
    exact absurd hef hfe.not_gt
  · rintro rfl
    refine ⟨rfl, ?_⟩
    intro e he
    rw [get_eq_some_of_mem hm he, Option.any_some]
    exact (hequal _ _).mpr rfl

end NavigableMap
end Presto.Support
