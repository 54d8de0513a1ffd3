import Mathlib.Data.Int.Basic
import Mathlib.Data.List.Range
import Presto.Support.Throwable

/-!
# Aggregates over window frames

An aggregate as a window function keeps its accumulator from row to row: while the frames
start at the same row and grow, only the new rows are added, and for any other frame the
accumulator is made anew.
-/

namespace Presto.Operator.Window

/-! ## The code -/

/-- The accumulators of an aggregate over rows.  `evaluateFinal` is given the live state and may
change it: `max(x, n)` takes the values out of its heap. -/
structure AccumulatorFactory (ρ σ ω : Type) where
  createAccumulator : σ
  addInput : σ → ρ → σ
  evaluateFinal : σ → ω × σ

namespace AccumulatorFactory

variable {ρ σ ω : Type} (factory : AccumulatorFactory ρ σ ω)

/-- The states of an accumulator that was given the rows, whenever it was evaluated. -/
inductive Reached : σ → List ρ → Prop
  | createAccumulator : Reached factory.createAccumulator []
  | addInput {state rows} (row : ρ) : Reached state rows →
      Reached (factory.addInput state row) (rows ++ [row])
  | evaluateFinal {state rows} : Reached state rows → Reached (factory.evaluateFinal state).2 rows

/-- The aggregate of the rows. -/
def aggregate (rows : List ρ) : ω :=
  (factory.evaluateFinal (rows.foldl factory.addInput factory.createAccumulator)).1

/-- That an accumulator was evaluated before does not show in what it returns. -/
def Repeatable : Prop :=
  ∀ state rows, factory.Reached state rows →
    (factory.evaluateFinal state).1 = factory.aggregate rows

end AccumulatorFactory

/-- An aggregate as a window function.  Without a current frame the accumulator has no
input. -/
structure AggregateWindowFunction (ρ σ ω : Type) where
  accumulatorFactory : AccumulatorFactory ρ σ ω
  windowIndex : Option (ℕ → ρ)
  accumulator : Option σ
  currentStart : ℤ
  currentEnd : ℤ
  idle : currentStart < 0 → ∃ state, accumulator = some state ∧ accumulatorFactory.Reached state []

namespace AggregateWindowFunction

variable {ρ σ ω : Type}

/-- A new function, whose fields are null and zero before the first call of `reset`. -/
def new (accumulatorFactory : AccumulatorFactory ρ σ ω) : AggregateWindowFunction ρ σ ω where
  accumulatorFactory := accumulatorFactory
  windowIndex := none
  accumulator := none
  currentStart := 0
  currentEnd := 0
  idle := fun h => absurd h (Int.lt_irrefl 0)

variable (f : AggregateWindowFunction ρ σ ω)

def resetAccumulator : AggregateWindowFunction ρ σ ω :=
  if 0 ≤ f.currentStart then
    { f with
      accumulator := some f.accumulatorFactory.createAccumulator
      currentStart := -1
      currentEnd := -1
      idle := fun _ => ⟨_, rfl, .createAccumulator⟩ }
  else f

def reset (windowIndex : ℕ → ρ) : AggregateWindowFunction ρ σ ω :=
  { f with windowIndex := some windowIndex }.resetAccumulator

/-- The positions from the first to the last one, which may be before it. -/
def positions (first last : ℤ) : List ℕ :=
  List.range' first.toNat (last + 1 - first).toNat

/-- `accumulate`, after which the current frame is the given one. -/
def accumulate (first last currentStart currentEnd : ℤ) (hcurrent : 0 ≤ currentStart) :
    Result (AggregateWindowFunction ρ σ ω) :=
  match f.accumulator, f.windowIndex with
  | some accumulator, some windowIndex =>
      .ok { f with
        accumulator := some (((positions first last).map windowIndex).foldl
          f.accumulatorFactory.addInput accumulator)
        currentStart := currentStart
        currentEnd := currentEnd
        idle := fun hlt => absurd hcurrent (Int.not_le.mpr hlt) }
  | _, _ => .error .nullPointer

/-- The accumulator with the rows of the frame. -/
def advance (frameStart frameEnd : ℤ) : Result (AggregateWindowFunction ρ σ ω) :=
  if hempty : frameStart < 0 then .ok f.resetAccumulator
  else if frameStart = f.currentStart ∧ f.currentEnd ≤ frameEnd then
    f.accumulate (f.currentEnd + 1) frameEnd frameStart frameEnd (Int.not_lt.mp hempty)
  else
    f.resetAccumulator.accumulate frameStart frameEnd frameStart frameEnd (Int.not_lt.mp hempty)

/-- `evaluateFinal` of the accumulator. -/
def evaluateFinal : Result (AggregateWindowFunction ρ σ ω × ω) :=
  match h : f.accumulator with
  | some accumulator =>
      let evaluated := f.accumulatorFactory.evaluateFinal accumulator
      .ok ({ f with
        accumulator := some evaluated.2
        idle := fun hlt => by
          obtain ⟨_, hstate, hreached⟩ := f.idle hlt
          cases h.symm.trans hstate
          exact ⟨_, rfl, hreached.evaluateFinal⟩ }, evaluated.1)
  | none => .error .nullPointer

def processRow (_peerGroupStart _peerGroupEnd frameStart frameEnd : ℤ) :
    Result (AggregateWindowFunction ρ σ ω × ω) := do
  let f ← f.advance frameStart frameEnd
  f.evaluateFinal

/-! ## What the accumulator holds -/

/-- The function is set up for the rows, and its accumulator holds those of the current
frame. -/
structure Holds
    (f : AggregateWindowFunction ρ σ ω) (factory : AccumulatorFactory ρ σ ω)
    (windowIndex : ℕ → ρ) : Prop where
  factory_eq : f.accumulatorFactory = factory
  windowIndex_eq : f.windowIndex = some windowIndex
  nonempty : 0 ≤ f.currentStart → f.currentStart ≤ f.currentEnd
  accumulator : 0 ≤ f.currentStart → ∃ state, f.accumulator = some state ∧
    factory.Reached state ((positions f.currentStart f.currentEnd).map windowIndex)

variable {f : AggregateWindowFunction ρ σ ω} {factory : AccumulatorFactory ρ σ ω}
  {windowIndex : ℕ → ρ}

/-- The positions of the frame that is passed to a function; it is empty if its start is
negative. -/
def framePositions (frameStart frameEnd : ℤ) : List ℕ :=
  if frameStart < 0 then [] else positions frameStart frameEnd

variable {first last : ℤ}

theorem positions_append {middle : ℤ} (hfirst : 0 ≤ first) (hmiddle : first ≤ middle)
    (hlast : middle ≤ last) :
    positions first middle ++ positions (middle + 1) last = positions first last := by
  have hnext : (middle + 1).toNat = first.toNat + 1 * (middle + 1 - first).toNat := by omega
  have hcount : (last + 1 - first).toNat =
      (middle + 1 - first).toNat + (last + 1 - (middle + 1)).toNat := by omega
  rw [positions, positions, positions, hnext, List.range'_append, hcount]

/-- After a reset there is no current frame, and the accumulator has no input. -/
theorem resetAccumulator_spec (f : AggregateWindowFunction ρ σ ω) :
    f.resetAccumulator.currentStart < 0 ∧
      (∃ state, f.resetAccumulator.accumulator = some state ∧
        f.accumulatorFactory.Reached state []) ∧
      f.resetAccumulator.accumulatorFactory = f.accumulatorFactory ∧
      f.resetAccumulator.windowIndex = f.windowIndex := by
  unfold resetAccumulator
  by_cases hcurrent : 0 ≤ f.currentStart
  · rw [if_pos hcurrent]
    exact ⟨(by decide : (-1 : ℤ) < 0), ⟨_, rfl, .createAccumulator⟩, rfl, rfl⟩
  · rw [if_neg hcurrent]
    exact ⟨by omega, f.idle (by omega), rfl, rfl⟩

theorem holds_of_idle
    (hfactory : f.accumulatorFactory = factory) (hindex : f.windowIndex = some windowIndex)
    (hidle : f.currentStart < 0) : f.Holds factory windowIndex where
  factory_eq := hfactory
  windowIndex_eq := hindex
  nonempty h := absurd h (Int.not_le.mpr hidle)
  accumulator h := absurd h (Int.not_le.mpr hidle)

/-- Whatever the function has done before, a reset sets it up for the rows. -/
theorem reset_holds (f : AggregateWindowFunction ρ σ ω) (windowIndex : ℕ → ρ) :
    (f.reset windowIndex).Holds f.accumulatorFactory windowIndex := by
  obtain ⟨hidle, -, hfactory, hindex⟩ :=
    resetAccumulator_spec
      ({ f with windowIndex := some windowIndex } : AggregateWindowFunction ρ σ ω)
  exact holds_of_idle hfactory hindex hidle

theorem Reached.foldl {state : σ} {rows : List ρ} (h : factory.Reached state rows) (l : List ρ) :
    factory.Reached (l.foldl factory.addInput state) (rows ++ l) := by
  induction l generalizing state rows with
  | nil => rwa [List.append_nil]
  | cons row l ih =>
      rw [List.append_cons]
      exact ih (h.addInput row)

theorem accumulate_spec {state : σ} {rows : List ρ} {currentStart currentEnd : ℤ}
    (hcurrent : 0 ≤ currentStart) (hle : currentStart ≤ currentEnd)
    (hfactory : f.accumulatorFactory = factory) (hindex : f.windowIndex = some windowIndex)
    (haccumulator : f.accumulator = some state) (hrows : factory.Reached state rows)
    (hframe : rows ++ (positions first last).map windowIndex =
      (positions currentStart currentEnd).map windowIndex) :
    ∃ f' state', f.accumulate first last currentStart currentEnd hcurrent = .ok f' ∧
      f'.Holds factory windowIndex ∧ f'.accumulator = some state' ∧
      factory.Reached state' ((positions currentStart currentEnd).map windowIndex) := by
  have hreached := Reached.foldl hrows ((positions first last).map windowIndex)
  rw [hframe, ← hfactory] at hreached
  rw [accumulate, haccumulator, hindex]
  exact ⟨_, _, rfl, ⟨hfactory, rfl, fun _ => hle, fun _ => ⟨_, rfl, hfactory ▸ hreached⟩⟩, rfl,
    hfactory ▸ hreached⟩

variable {frameStart frameEnd : ℤ}

/-- The accumulator is brought to the rows of the frame, whatever the frame before was. -/
theorem advance_spec (h : f.Holds factory windowIndex)
    (hframe : 0 ≤ frameStart → frameStart ≤ frameEnd) :
    ∃ f' state, f.advance frameStart frameEnd = .ok f' ∧ f'.Holds factory windowIndex ∧
      f'.accumulator = some state ∧
      factory.Reached state ((framePositions frameStart frameEnd).map windowIndex) := by
  obtain ⟨hidle, ⟨fresh, hfresh, hreached⟩, hfactory, hindex⟩ := resetAccumulator_spec f
  rw [h.factory_eq] at hfactory hreached
  rw [h.windowIndex_eq] at hindex
  unfold advance framePositions
  by_cases hempty : frameStart < 0
  · rw [dif_pos hempty, if_pos hempty]
    exact ⟨_, fresh, rfl, holds_of_idle hfactory hindex hidle, hfresh, hreached⟩
  · have hstart : 0 ≤ frameStart := Int.not_lt.mp hempty
    rw [dif_neg hempty, if_neg hempty]
    by_cases hgrow : frameStart = f.currentStart ∧ f.currentEnd ≤ frameEnd
    · rw [if_pos hgrow]
      have hcurrent : 0 ≤ f.currentStart := hgrow.1 ▸ hstart
      obtain ⟨state, hstate, hrows⟩ := h.accumulator hcurrent
      apply accumulate_spec hstart (hframe hstart) h.factory_eq h.windowIndex_eq hstate hrows
      rw [← List.map_append, positions_append hcurrent (h.nonempty hcurrent) hgrow.2, hgrow.1]
    · rw [if_neg hgrow]
      exact accumulate_spec hstart (hframe hstart) hfactory hindex hfresh hreached rfl

/-- The output for a row is the aggregate of the rows of its frame. -/
theorem processRow_spec (h : f.Holds factory windowIndex) (hrepeatable : factory.Repeatable)
    (peerGroupStart peerGroupEnd : ℤ) (hframe : 0 ≤ frameStart → frameStart ≤ frameEnd) :
    ∃ f', f.processRow peerGroupStart peerGroupEnd frameStart frameEnd =
        .ok (f', factory.aggregate ((framePositions frameStart frameEnd).map windowIndex)) ∧
      f'.Holds factory windowIndex := by
  obtain ⟨f', state, hadvance, hholds, haccumulator, hreached⟩ := advance_spec h hframe
  obtain rfl := hholds.factory_eq
  rw [processRow, hadvance, Result.bind_ok, evaluateFinal]
  split
  · next accumulator hsome =>
      cases haccumulator.symm.trans hsome
      refine ⟨_, congrArg (fun output => Except.ok (_, output)) (hrepeatable _ _ hreached),
        rfl,
        hholds.windowIndex_eq, hholds.nonempty, ?_⟩
      intro hcurrent
      obtain ⟨_, hstate, hrows⟩ := hholds.accumulator hcurrent
      cases haccumulator.symm.trans hstate
      exact ⟨_, rfl, hrows.evaluateFinal⟩
  · next hnone => cases haccumulator.symm.trans hnone

end AggregateWindowFunction

end Presto.Operator.Window
