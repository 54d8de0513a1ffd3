import Mathlib.Data.List.AList
import Mathlib.Data.Set.Basic
import Presto.Predicate.DomainDecisions

/-!
# Tuple domains

A tuple domain maps columns to domains; a column it does not mention is
unconstrained.  The map is kept free of empty domains, which make the whole
tuple domain `none`, and of full ones, which are dropped.  The meaning of a
tuple domain is the set of tuples it allows.
-/

namespace Presto.Predicate

universe u

variable {C : Type u} [DecidableEq C] {value : C → Type u}
  {types : (c : C) → ColumnType (value c)}

/-- A map of columns to domains of their types.  The order in which the source's
map iterates is left out. -/
abbrev ColumnDomains (types : (c : C) → ColumnType (value c)) :=
  AList fun c => Domain (types c)

namespace ColumnDomains

variable (domains : ColumnDomains types)

def containsNoneDomain : Bool :=
  domains.entries.any fun entry => entry.2.isNone

def normalizeAndCopy : ColumnDomains types :=
  ⟨domains.entries.filter fun entry => !entry.2.isAll,
    domains.nodupKeys.sublist List.filter_sublist⟩

/-- The column is not mentioned, or its domain includes the value. -/
def Allows (c : C) (v : Option (value c)) : Prop :=
  ∀ d ∈ domains.lookup c, d.includesNullableValue v = true

/-- `Map.equals`: as many columns, and the same domain for each of them. -/
def equals (domains other : ColumnDomains types) : Bool :=
  domains.entries.length == other.entries.length &&
    domains.entries.all fun entry =>
      match other.lookup entry.1 with
      | some d => entry.2.equals d
      | none => false

end ColumnDomains

/-- The domains of the mentioned columns, or nothing if no tuple is allowed. -/
structure TupleDomain (types : (c : C) → ColumnType (value c)) where
  domains : Option (ColumnDomains types)
  normalized : ∀ m ∈ domains, ∀ entry ∈ m.entries,
    entry.2.isNone = false ∧ entry.2.isAll = false

namespace TupleDomain

/-- The constructor of the source, which normalizes its argument. -/
def create (domains : Option (ColumnDomains types)) : TupleDomain types :=
  match domains with
  | none => ⟨none, by simp⟩
  | some map =>
      if h : map.containsNoneDomain then ⟨none, by simp⟩
      else
        ⟨some map.normalizeAndCopy, by
          intro m hm entry hentry
          obtain rfl : map.normalizeAndCopy = m := by simpa using hm
          obtain ⟨hmem, hall⟩ := List.mem_filter.mp hentry
          refine ⟨?_, by simpa using hall⟩
          rw [Bool.eq_false_iff]
          intro hnone
          exact h (List.any_eq_true.mpr ⟨entry, hmem, hnone⟩)⟩

def withColumnDomains (domains : ColumnDomains types) : TupleDomain types :=
  create (some domains)

def none : TupleDomain types := create .none

def all : TupleDomain types := withColumnDomains ∅

def isAll (d : TupleDomain types) : Bool :=
  d.domains.any fun m => m.entries.isEmpty

def isNone (d : TupleDomain types) : Bool :=
  d.domains.isNone

/-! ## Intersection -/

/-- The loop body of `intersect`. -/
def intersectEntry (intersected : ColumnDomains types)
    (entry : Sigma fun c => Domain (types c)) : Result (ColumnDomains types) :=
  match intersected.lookup entry.1 with
  | .none => .ok (intersected.insert entry.1 entry.2)
  | some intersectionDomain => do
      let domain ← intersectionDomain.intersect entry.2
      pure (intersected.insert entry.1 domain)

/-- `identical` says whether the two tuple domains are one object. -/
def intersect (d other : TupleDomain types) (identical : Bool) :
    Result (TupleDomain types) :=
  match d.domains, other.domains with
  | some map, some otherMap =>
      if identical then .ok d
      else if d.isAll then .ok other
      else if other.isAll then .ok d
      else do
        let intersected ← otherMap.entries.foldlM intersectEntry map
        pure (withColumnDomains intersected)
  | _, _ => .ok none

def overlaps (d other : TupleDomain types) (identical : Bool) : Result Bool :=
  (d.intersect other identical).map fun common => !common.isNone

/-! ## Column-wise union -/

/-- The first loop: the columns of the first tuple domain that is not none,
and the tuple domains after it. -/
def findColumns :
    List (TupleDomain types) → Option (List C × List (TupleDomain types))
  | [] => .none
  | d :: rest =>
      match d.domains with
      | some m => some (m.keys, rest)
      | .none => findColumns rest

/-- The second loop. -/
def retainColumns (commonColumns : List C) : List (TupleDomain types) → List C
  | [] => commonColumns
  | d :: rest =>
      match d.domains with
      | some m => retainColumns (commonColumns.filter fun c => c ∈ m.keys) rest
      | .none => retainColumns commonColumns rest

/-- Domains grouped by column. -/
abbrev DomainsByColumn (types : (c : C) → ColumnType (value c)) :=
  AList fun c => List (Domain (types c))

def groupEntry (commonColumns : List C) (domainsByColumn : DomainsByColumn types)
    (entry : Sigma fun c => Domain (types c)) : DomainsByColumn types :=
  if entry.1 ∈ commonColumns then
    domainsByColumn.insert entry.1
      ((domainsByColumn.lookup entry.1).getD [] ++ [entry.2])
  else domainsByColumn

/-- The third loop. -/
def groupByColumn (commonColumns : List C) (domainsByColumn : DomainsByColumn types) :
    List (TupleDomain types) → DomainsByColumn types
  | [] => domainsByColumn
  | d :: rest =>
      match d.domains with
      | some m =>
          groupByColumn commonColumns
            (m.entries.foldl (groupEntry commonColumns) domainsByColumn) rest
      | .none => groupByColumn commonColumns domainsByColumn rest

/-- The loop body of the final column-wise union. -/
def unionEntry (result : ColumnDomains types)
    (entry : Sigma fun c => List (Domain (types c))) : Result (ColumnDomains types) := do
  let domain ← Domain.unionAll entry.2
  pure (result.insert entry.1 domain)

def columnWiseUnion (tupleDomains : List (TupleDomain types)) :
    Result (TupleDomain types) :=
  match tupleDomains with
  | [] => .error (.illegalArgument "tupleDomains must have at least one element")
  | [d] => .ok d
  | _ =>
      match findColumns tupleDomains with
      | .none => .ok none
      | some (columns, rest) => do
          let domainsByColumn :=
            groupByColumn (retainColumns columns rest) ∅ tupleDomains
          let result ← domainsByColumn.entries.foldlM unionEntry ∅
          pure (withColumnDomains result)

def equals (d other : TupleDomain types) : Bool :=
  match d.domains, other.domains with
  | some m, some n => m.equals n
  | .none, .none => true
  | _, _ => false

def contains (d other : TupleDomain types) : Result Bool :=
  if other.isNone then .ok true
  else (columnWiseUnion [d, other]).map fun united => united.equals d

/-! ## Meaning -/

/-- The tuple domain is not none and allows the value at the column. -/
def Allows (d : TupleDomain types) (c : C) (v : Option (value c)) : Prop :=
  ∃ m, d.domains = some m ∧ m.Allows c v

/-- The tuples that satisfy every column's domain. -/
def tuples (d : TupleDomain types) : Set ((c : C) → Option (value c)) :=
  {t | d.isNone = false ∧ ∀ c, d.Allows c (t c)}

end TupleDomain
end Presto.Predicate
