import Mathlib.Data.List.MinMax
import Mathlib.Data.List.Nodup
import Mathlib.Data.Int.Order.Basic

/-!
# The queues of a resource group

A group keeps its queued queries and its eligible sub groups in a queue that
depends on its scheduling policy.  All of them hold every element at most once
and keep the place of an element that is added again, so one list of elements
with their priorities, in the order of insertion, serves for all.  They differ
in the element that `poll` takes: the oldest one, the one of highest priority,
or one that is drawn by lot.
-/

namespace Presto.ResourceGroups

open List

/-- The implementations of `Queue`. -/
inductive QueueKind
  | fifo
  | stochastic
  | weightedFair
  | indexedPriority
  deriving DecidableEq, Repr

/-- A queue: its elements with their priorities, oldest first. -/
structure Queue (E : Type) where
  kind : QueueKind
  entries : List (E × ℤ)
  nodup : (entries.map Prod.fst).Nodup

namespace Queue

variable {E : Type} (q : Queue E)

/-- The elements of a queue, oldest first. -/
def elements : List E := q.entries.map Prod.fst

def size : ℕ := q.entries.length

def isEmpty : Bool := q.entries.isEmpty

/-- A new queue. -/
def empty (kind : QueueKind) : Queue E := ⟨kind, [], List.nodup_nil⟩

/--
The element in front of the `TreeSet` of an `IndexedPriorityQueue`: the highest
priority comes first, and the generation breaks ties in favour of the oldest.
-/
def peek : Option E :=
  (@List.argmax (E × ℤ) ℤ Int.instLinearOrder.toPreorder _ Prod.snd q.entries).map Prod.fst

/--
The element that `poll` takes.  Where the source draws it by lot, or compares
shares in floating point, the element is the one of number `draw`.
-/
def first (draw : ℕ) : Option E :=
  match q.kind with
  | .fifo => q.elements.head?
  | .indexedPriority => q.peek
  | .stochastic | .weightedFair => q.elements[draw % q.size]?

variable {q : Queue E} {e : E}

theorem mem_elements : e ∈ q.elements ↔ ∃ v, (e, v) ∈ q.entries := by
  simp [elements]

theorem isEmpty_eq_false_iff : q.isEmpty = false ↔ ∃ e, e ∈ q.elements := by
  rw [isEmpty, isEmpty_eq_false_iff_exists_mem]
  simp [elements]

theorem size_eq_length : q.size = q.elements.length := by
  simp [size, elements]

theorem peek_eq_none_iff : q.peek = none ↔ q.entries = [] := by
  rw [peek, Option.map_eq_none_iff, argmax_eq_none]

/-- The front of the tree has the highest priority of the queue. -/
theorem peek_spec (h : q.peek = some e) :
    ∃ v, (e, v) ∈ q.entries ∧ ∀ x w, (x, w) ∈ q.entries → w ≤ v := by
  rw [peek, Option.map_eq_some_iff] at h
  obtain ⟨entry, hentry, rfl⟩ := h
  refine ⟨entry.2, argmax_mem hentry, ?_⟩
  intro x w hw
  exact le_of_mem_argmax hw hentry

theorem first_of_indexedPriority
    (h : q.kind = .indexedPriority) (draw : ℕ) : q.first draw = q.peek := by
  rw [first, h]

variable {draw : ℕ}

theorem first_mem (h : q.first draw = some e) : e ∈ q.elements := by
  unfold first at h
  split at h
  · exact mem_of_mem_head? h
  · obtain ⟨v, hv, -⟩ := peek_spec h
    exact mem_elements.mpr ⟨v, hv⟩
  · exact mem_of_getElem? h
  · exact mem_of_getElem? h

/-- A queue that is not empty has an element to poll, whatever is drawn. -/
theorem first_eq_none_iff : q.first draw = none ↔ q.entries = [] := by
  have hdraw : q.elements[draw % q.size]? = none ↔ q.entries = [] := by
    rw [getElem?_eq_none_iff, ← size_eq_length]
    constructor
    · intro hle
      by_contra hne
      have hpos : 0 < q.size := length_pos_of_ne_nil hne
      exact absurd (Nat.mod_lt draw hpos) (by omega)
    · intro hempty
      simp [size, hempty]
  unfold first
  split
  · rw [head?_eq_none_iff, elements, map_eq_nil_iff]
  · exact peek_eq_none_iff
  · exact hdraw
  · exact hdraw

section Updates

variable [DecidableEq E]

def contains (q : Queue E) (e : E) : Bool := e ∈ q.elements

/-- Add an element, or change the priority of one that is there. -/
def addOrUpdate (q : Queue E) (e : E) (priority : ℤ) : Queue E :=
  if h : e ∈ q.elements then
    { q with
      entries := q.entries.map fun entry => if entry.1 = e then (e, priority) else entry
      nodup := by
        have hkeys : (Prod.fst ∘ fun entry : E × ℤ =>
            if entry.1 = e then (e, priority) else entry) = Prod.fst := by
          funext entry
          by_cases hentry : entry.1 = e <;> simp [hentry]
        rw [List.map_map, hkeys]
        exact q.nodup }
  else
    { q with
      entries := q.entries ++ [(e, priority)]
      nodup := by
        rw [List.map_append]
        exact List.nodup_append'.mpr ⟨q.nodup, by simp, by simpa [elements] using h⟩ }

/-- Remove an element if it is there. -/
def remove (q : Queue E) (e : E) : Queue E :=
  { q with
    entries := q.entries.filter fun entry => decide (entry.1 ≠ e)
    nodup := q.nodup.sublist (List.filter_sublist.map _) }

/-- Take an element out of the queue. -/
def poll (q : Queue E) (draw : ℕ) : Option (E × Queue E) :=
  (q.first draw).map fun e => (e, q.remove e)

@[simp] theorem addOrUpdate_kind (q : Queue E) (e : E) (priority : ℤ) :
    (q.addOrUpdate e priority).kind = q.kind := by
  unfold addOrUpdate
  split <;> rfl

variable {x : E} {v : ℤ}

theorem mem_remove : (x, v) ∈ (q.remove e).entries ↔ x ≠ e ∧ (x, v) ∈ q.entries := by
  simp [remove, and_comm]

variable {priority : ℤ}

theorem mem_addOrUpdate :
    (x, v) ∈ (q.addOrUpdate e priority).entries ↔
      (x = e ∧ v = priority) ∨ (x ≠ e ∧ (x, v) ∈ q.entries) := by
  unfold addOrUpdate
  split
  · rename_i h
    obtain ⟨w, hw⟩ := mem_elements.mp h
    rw [mem_map]
    constructor
    · rintro ⟨entry, hentry, heq⟩
      by_cases hx : entry.1 = e
      · rw [if_pos hx] at heq
        exact .inl ⟨(congrArg Prod.fst heq).symm, (congrArg Prod.snd heq).symm⟩
      · rw [if_neg hx] at heq
        subst heq
        exact .inr ⟨hx, hentry⟩
    · rintro (⟨rfl, rfl⟩ | ⟨hx, hmem⟩)
      · exact ⟨(x, w), hw, if_pos rfl⟩
      · exact ⟨(x, v), hmem, if_neg hx⟩
  · rename_i h
    rw [mem_append, mem_singleton, Prod.mk.injEq]
    constructor
    · rintro (hmem | hnew)
      · exact .inr ⟨fun hx => h (mem_elements.mpr ⟨v, hx ▸ hmem⟩), hmem⟩
      · exact .inl hnew
    · rintro (hnew | ⟨-, hmem⟩)
      · exact .inr hnew
      · exact .inl hmem

theorem mem_elements_remove : x ∈ (q.remove e).elements ↔ x ≠ e ∧ x ∈ q.elements := by
  simp [mem_elements, mem_remove]

theorem mem_elements_addOrUpdate :
    x ∈ (q.addOrUpdate e priority).elements ↔ x = e ∨ x ∈ q.elements := by
  simp only [mem_elements, mem_addOrUpdate]
  constructor
  · rintro ⟨v, ⟨rfl, -⟩ | ⟨-, hmem⟩⟩
    · exact .inl rfl
    · exact .inr ⟨v, hmem⟩
  · rintro (rfl | ⟨v, hmem⟩)
    · exact ⟨priority, .inl ⟨rfl, rfl⟩⟩
    · by_cases hx : x = e
      · exact ⟨priority, .inl ⟨hx, rfl⟩⟩
      · exact ⟨v, .inr ⟨hx, hmem⟩⟩

theorem elements_remove (q : Queue E) (e : E) : (q.remove e).elements = q.elements.erase e := by
  have hfilter : (q.remove e).elements = q.elements.filter fun x => decide (x ≠ e) := by
    rw [elements, elements, filter_map]
    rfl
  have hnodup : q.elements.Nodup := q.nodup
  rw [hfilter, hnodup.erase_eq_filter]
  congr 1
  funext x
  by_cases hx : x = e <;> simp [hx]

theorem poll_eq_none_iff : q.poll draw = none ↔ q.entries = [] := by
  rw [poll, Option.map_eq_none_iff, first_eq_none_iff]

theorem poll_eq_some {q q' : Queue E} (h : q.poll draw = some (e, q')) :
    e ∈ q.elements ∧ q' = q.remove e := by
  rw [poll, Option.map_eq_some_iff] at h
  obtain ⟨x, hfirst, heq⟩ := h
  obtain ⟨rfl, rfl⟩ := Prod.mk.inj heq
  exact ⟨first_mem hfirst, rfl⟩

/-! ## Changing the implementation -/

/-- The elements in the order in which repeated polls return them. -/
def drain (draws : ℕ → ℕ) : ℕ → Queue E → List E
  | 0, _ => []
  | count + 1, q =>
      match q.poll (draws count) with
      | none => []
      | some (e, rest) => e :: drain draws count rest

/-- Poll all elements of a queue and add them to a new one. -/
def requeue (q : Queue E) (draws : ℕ → ℕ) (kind : QueueKind) (priority : E → ℤ) : Queue E :=
  (drain draws q.size q).foldl (fun queue e => queue.addOrUpdate e (priority e)) (empty kind)

/-- Polling a queue as often as it has elements returns each of them once. -/
theorem drain_perm (draws : ℕ → ℕ) (count : ℕ) (q : Queue E) (hcount : q.size = count) :
    (drain draws count q).Perm q.elements := by
  induction count generalizing q with
  | zero =>
      have hempty : q.elements = [] := eq_nil_of_length_eq_zero (by
        rw [← size_eq_length, hcount])
      rw [drain, hempty]
  | succ count ih =>
      cases hpoll : q.poll (draws count) with
      | none =>
          rw [poll_eq_none_iff] at hpoll
          simp [size, hpoll] at hcount
      | some taken =>
          obtain ⟨e, rest⟩ := taken
          obtain ⟨hmem, rfl⟩ := poll_eq_some hpoll
          have hsize : (q.remove e).size = count := by
            rw [size_eq_length, elements_remove, length_erase_of_mem hmem, ← size_eq_length, hcount]
            rfl
          have hperm := ih (q.remove e) hsize
          rw [elements_remove] at hperm
          simp only [drain, hpoll]
          exact (hperm.cons e).trans (perm_cons_erase hmem).symm

theorem foldl_addOrUpdate_kind (priority : E → ℤ) (l : List E) (q : Queue E) :
    (l.foldl (fun queue e => queue.addOrUpdate e (priority e)) q).kind = q.kind := by
  induction l generalizing q with
  | nil => rfl
  | cons e l ih => rw [foldl_cons, ih, addOrUpdate_kind]

/-- Adding new elements one by one appends them with their priorities. -/
theorem entries_foldl_addOrUpdate (priority : E → ℤ) (l : List E) (q : Queue E)
    (hl : l.Nodup) (hnew : ∀ e ∈ l, e ∉ q.elements) :
    (l.foldl (fun queue e => queue.addOrUpdate e (priority e)) q).entries =
      q.entries ++ l.map fun e => (e, priority e) := by
  induction l generalizing q with
  | nil => simp
  | cons e l ih =>
      have hfresh : e ∉ q.elements := hnew e (by simp)
      have hentries : (q.addOrUpdate e (priority e)).entries = q.entries ++ [(e, priority e)] := by
        rw [addOrUpdate, dif_neg hfresh]
      obtain ⟨hhead, htail⟩ := nodup_cons.mp hl
      rw [foldl_cons, ih _ htail, hentries, append_assoc]
      · rfl
      · intro x hx
        rw [mem_elements_addOrUpdate, not_or]
        exact ⟨fun hxe => hhead (hxe ▸ hx), hnew x (by simp [hx])⟩

@[simp] theorem requeue_kind (q : Queue E) (draws : ℕ → ℕ) (kind : QueueKind) (priority : E → ℤ) :
    (q.requeue draws kind priority).kind = kind :=
  foldl_addOrUpdate_kind priority _ _

/-- The new queue has the elements of the old one, with the new priorities. -/
theorem requeue_entries (q : Queue E) (draws : ℕ → ℕ) (kind : QueueKind) (priority : E → ℤ) :
    ∃ l : List E, l.Perm q.elements ∧
      (q.requeue draws kind priority).entries = l.map fun e => (e, priority e) := by
  have hperm := drain_perm draws q.size q rfl
  refine ⟨_, hperm, ?_⟩
  rw [requeue, entries_foldl_addOrUpdate priority _ _ (hperm.nodup_iff.mpr q.nodup)]
  · rfl
  · intro e _
    simp [elements, empty]

theorem requeue_elements_perm (q : Queue E) (draws : ℕ → ℕ) (kind : QueueKind) (priority : E → ℤ) :
    (q.requeue draws kind priority).elements.Perm q.elements := by
  obtain ⟨l, hperm, hentries⟩ := q.requeue_entries draws kind priority
  rw [elements, hentries]
  simpa [Function.comp_def] using hperm

theorem mem_requeue {draws : ℕ → ℕ} {kind : QueueKind} {priority : E → ℤ} :
    (x, v) ∈ (q.requeue draws kind priority).entries ↔ x ∈ q.elements ∧ v = priority x := by
  obtain ⟨l, hperm, hentries⟩ := q.requeue_entries draws kind priority
  rw [hentries, mem_map, ← hperm.mem_iff]
  constructor
  · rintro ⟨e, he, heq⟩
    obtain ⟨rfl, rfl⟩ := Prod.mk.inj heq
    exact ⟨he, rfl⟩
  · rintro ⟨hx, rfl⟩
    exact ⟨x, hx, rfl⟩

end Updates

end Queue
end Presto.ResourceGroups
