import Presto.Operator.GroupBy.BigintGroupByHash
import Presto.Operator.GroupBy.MultiChannelWorks
import Presto.Types.DoubleType

/-!
# The groups of a run

Both tables number the rows of any sequence of pages by the first occurrence of their keys,
provided that keys that are not distinct have the same hash.  The type `double` does not keep
this: `0.0` and `-0.0` are not distinct, but they are hashed by their bits.
-/

namespace Presto.Operator.GroupBy

open MultiChannelGroupByHash Session

open Presto.Types

/-- The type `double`, by the bits of its values. -/
def doubleType : ChannelType UInt64 where
  hash bits := longHash (DoubleType.doubleToLongBits bits)
  isDistinctFrom := DoubleType.isDistinctFrom
  equivalence := by
    simp only [DoubleType.isDistinctFrom_eq_false_iff]
    exact ⟨fun _ => rfl, Eq.symm, Eq.trans⟩

/-! ## One column of doubles -/

def doubleTypes : ChannelTypes fun _ : Fin 1 => UInt64 := fun _ => doubleType

/-- A page of one column of doubles. -/
def doublePage (values : List UInt64) : Page doubleTypes false where
  positionCount := values.length
  blocks _ := .plain (values.map some)
  lengths _ := List.length_map _
  hashBlock := none
  present := rfl
  hashes := by
    rintro block ⟨⟩
  aligned := by
    rintro i dictionary ids source hashDictionary hashIds ⟨⟩

/-- The table for doubles, with as few slots as possible. -/
def doubleTable : MultiChannelGroupByHash doubleTypes false where
  processDictionary := false
  isFull _ := false
  updateMemory _ := true
  memoryUpdates := 0
  completedPages := []
  currentPage := []
  hashCapacity := 2
  maxFill := 1
  slots := [none, none]
  groupAddressByGroupId _ := (0, 0)
  nextGroupId := 0
  dictionaryLookBack := none

theorem create_doubleTable :
    create .leastAbove doubleTypes false 1 false (fun _ => false) (fun _ => true) =
      .ok doubleTable := rfl

/-- The sessions that ask for the groups of a page of doubles. -/
theorem reachable_getGroupIds {values : List UInt64} (hvalues : values ≠ []) :
    Reachable (groupByHash doubleTypes false)
      (fun page => page.rows) doubleTable
      (getGroupIds (groupByHash doubleTypes false)
        ⟨doubleTable, none, []⟩ (doublePage values)) := by
  refine .getGroupIds .start rfl ?_
  rw [← List.length_pos_iff, length_rows]
  exact List.length_pos_iff.mpr hvalues

/-! ## Every sequence of pages -/

end Presto.Operator.GroupBy
