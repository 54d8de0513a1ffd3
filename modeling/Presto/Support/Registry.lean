import Mathlib.Data.List.Nodup
import Mathlib.Data.List.Pairwise
import Mathlib.Data.List.Perm.Basic
import Mathlib.Data.Option.Basic
import Mathlib.Logic.Function.Basic

/-!
# Registries

A registry maps numbers to entries and remembers the numbers in the order in which they
were registered.
-/

namespace Presto

open List

/-- Entries by number; `ids` lists the registered numbers, each once. -/
structure Registry (κ : Type*) where
  ids : List ℕ
  get : ℕ → Option κ
  nodup : ids.Nodup
  mem_ids : ∀ id, id ∈ ids ↔ get id ≠ none

namespace Registry

variable {κ : Type*}

def empty : Registry κ := ⟨[], fun _ => none, List.nodup_nil, fun _ => by simp⟩

/-- Registers an entry, or replaces it. -/
def set (r : Registry κ) (id : ℕ) (entry : κ) : Registry κ where
  ids := if id ∈ r.ids then r.ids else r.ids ++ [id]
  get := Function.update r.get id (some entry)
  nodup := by
    split_ifs with h
    · exact r.nodup
    · rw [List.nodup_append_comm, List.singleton_append, List.nodup_cons]
      exact ⟨h, r.nodup⟩
  mem_ids := by
    intro other
    by_cases hother : other = id
    · subst hother
      split_ifs with h <;> simp [h]
    · rw [Function.update_of_ne hother]
      split_ifs with h
      · exact r.mem_ids other
      · rw [List.mem_append, List.mem_singleton]
        simp only [hother, or_false]
        exact r.mem_ids other

variable (r : Registry κ) {id other : ℕ} (entry : κ)

@[simp]
theorem get_set_self : (r.set id entry).get id = some entry := by
  simp [set]

theorem get_set_of_ne (h : other ≠ id) : (r.set id entry).get other = r.get other := by
  simp [set, h]

theorem get_set_eq_none {e : κ} (hid : r.get id = some e) (hother : r.get other = none) :
    (r.set id entry).get other = none := by
  have hne : other ≠ id := by
    rintro rfl
    rw [hother] at hid
    cases hid
  rw [get_set_of_ne r entry hne, hother]

theorem ids_set_of_mem (h : id ∈ r.ids) : (r.set id entry).ids = r.ids := by
  simp [set, h]

theorem ids_set_of_not_mem (h : id ∉ r.ids) : (r.set id entry).ids = r.ids ++ [id] := by
  simp [set, h]

theorem mem_ids_set : other ∈ (r.set id entry).ids ↔ other = id ∨ other ∈ r.ids := by
  rw [(r.set id entry).mem_ids, r.mem_ids]
  by_cases h : other = id
  · simp [h]
  · simp [get_set_of_ne r entry h, h]

variable {e : κ}

theorem mem_ids_of_get (h : r.get id = some e) : id ∈ r.ids :=
  (r.mem_ids id).mpr (by rw [h]; exact Option.some_ne_none e)

theorem exists_get_of_mem (h : id ∈ r.ids) : ∃ e, r.get id = some e :=
  Option.ne_none_iff_exists'.mp ((r.mem_ids id).mp h)

/-- An entry after registration is the new one or an old one. -/
theorem get_set_cases (h : (r.set id entry).get other = some e) :
    other = id ∧ e = entry ∨ other ≠ id ∧ r.get other = some e := by
  by_cases hother : other = id
  · subst hother
    rw [get_set_self, Option.some.injEq] at h
    exact Or.inl ⟨rfl, h.symm⟩
  · rw [get_set_of_ne r entry hother] at h
    exact Or.inr ⟨hother, h⟩

/-! ## Collecting from the entries -/

section Collect

variable {β : Type*} {f : κ → List β} {entry : κ}

/-- What the entries hold together. -/
def collect (r : Registry κ) (f : κ → List β) : List β :=
  r.ids.flatMap fun id => (r.get id).elim [] f

variable {r}

theorem mem_collect {b : β} : b ∈ r.collect f ↔ ∃ id e, r.get id = some e ∧ b ∈ f e := by
  rw [collect, mem_flatMap]
  constructor
  · rintro ⟨id, hid, hb⟩
    obtain ⟨e, he⟩ := r.exists_get_of_mem hid
    rw [he] at hb
    exact ⟨id, e, he, hb⟩
  · rintro ⟨id, e, he, hb⟩
    exact ⟨id, r.mem_ids_of_get he, by rw [he]; exact hb⟩

variable {old : κ}

/-- What one entry holds can be told apart from the rest, whatever the entry. -/
theorem collect_perm (h : r.get id = some old) :
    ∃ rest, (r.collect f).Perm (f old ++ rest) ∧
      ∀ entry, ((r.set id entry).collect f).Perm (f entry ++ rest) := by
  have hmem := r.mem_ids_of_get h
  have hperm := perm_cons_erase hmem
  refine ⟨(r.ids.erase id).flatMap fun other => (r.get other).elim [] f, ?_, ?_⟩
  · refine (hperm.flatMap_right _).trans (List.Perm.of_eq ?_)
    rw [flatMap_cons, h]
    rfl
  · intro entry
    rw [collect, r.ids_set_of_mem entry hmem]
    refine (hperm.flatMap_right _).trans (List.Perm.of_eq ?_)
    rw [flatMap_cons, get_set_self]
    refine congrArg (f entry ++ ·) (flatMap_congr fun other hother => ?_)
    rw [r.get_set_of_ne entry (r.nodup.mem_erase_iff.mp hother).1]

theorem collect_set_of_eq (h : r.get id = some old) (hf : f entry = f old) :
    (r.set id entry).collect f = r.collect f := by
  rw [collect, r.ids_set_of_mem entry (r.mem_ids_of_get h)]
  refine flatMap_congr fun other _ => ?_
  by_cases hother : other = id
  · subst hother
    rw [get_set_self, h]
    exact hf
  · rw [r.get_set_of_ne entry hother]

theorem collect_set_append
    {more : List β} (h : r.get id = some old) (hf : f entry = f old ++ more) :
    ((r.set id entry).collect f).Perm (r.collect f ++ more) := by
  obtain ⟨rest, hold, hnew⟩ := collect_perm (f := f) h
  calc
    List.Perm ((r.set id entry).collect f) (f old ++ more ++ rest) := hf ▸ hnew entry
    List.Perm _ (f old ++ rest ++ more) := by
      rw [append_assoc, append_assoc]
      exact perm_append_comm.append_left (f old)
    List.Perm _ (r.collect f ++ more) := hold.symm.append_right more

theorem collect_set_new (h : r.get id = none) :
    (r.set id entry).collect f = r.collect f ++ f entry := by
  have hnot : id ∉ r.ids := fun hmem => (r.mem_ids id).mp hmem h
  rw [collect, r.ids_set_of_not_mem entry hnot, flatMap_append, flatMap_singleton, get_set_self]
  refine congrArg (· ++ f entry) (flatMap_congr fun other hother => ?_)
  have hne : other ≠ id := fun heq => hnot (heq ▸ hother)
  rw [r.get_set_of_ne entry hne]

/-- What no two entries hold has one holder. -/
theorem unique_of_nodup_collect
    (hnodup : (r.collect f).Nodup) {e' : κ} {b : β} (h : r.get id = some e)
    (h' : r.get other = some e') (hb : b ∈ f e) (hb' : b ∈ f e') : other = id := by
  by_contra hne
  obtain ⟨-, hdisjoint⟩ := nodup_flatMap.mp hnodup
  have hsymm : Std.Symm (Function.onFun List.Disjoint fun id => (r.get id).elim [] f) :=
    ⟨fun _ _ hapart => disjoint_comm.mp hapart⟩
  have happart := hdisjoint.forall (r.mem_ids_of_get h') (r.mem_ids_of_get h) hne
  simp only [Function.onFun, h, h'] at happart
  exact happart hb' hb

end Collect

end Registry
end Presto
