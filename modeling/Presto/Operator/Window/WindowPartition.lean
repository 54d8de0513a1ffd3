import Presto.Operator.Window.AggregateWindowFunction
import Presto.Support.MachineInteger

/-!
# The partitions of a window

A partition is a range of the rows.  Its rows are processed one after another; for
every row and every function the range of rows of its frame is computed and passed to the
function.
-/

namespace Presto.Operator.Window

/-! ## Frames -/

inductive WindowType
  | range
  | rows
  deriving DecidableEq, Repr

inductive BoundType
  | unboundedPreceding
  | preceding
  | currentRow
  | following
  | unboundedFollowing
  deriving DecidableEq, Repr

/-- The frame of a window function.  The offsets of its bounds are columns of the rows. -/
structure FrameInfo where
  type : WindowType
  startType : BoundType
  startChannel : ℤ
  endType : BoundType
  endChannel : ℤ
  deriving DecidableEq, Repr

/-- The frames that the analyzer accepts. -/
def analyzeWindowFrame (frame : FrameInfo) : Result Unit :=
  if frame.startType = .unboundedFollowing then
    .error (.semantic "Window frame start cannot be UNBOUNDED FOLLOWING")
  else if frame.endType = .unboundedPreceding then
    .error (.semantic "Window frame end cannot be UNBOUNDED PRECEDING")
  else if frame.startType = .currentRow ∧ frame.endType = .preceding then
    .error (.semantic "Window frame starting from CURRENT ROW cannot end with PRECEDING")
  else if frame.startType = .following ∧ frame.endType = .preceding then
    .error (.semantic "Window frame starting from FOLLOWING cannot end with PRECEDING")
  else if frame.startType = .following ∧ frame.endType = .currentRow then
    .error (.semantic "Window frame starting from FOLLOWING cannot end with CURRENT ROW")
  else if frame.type = .range ∧ (frame.startType = .preceding ∨ frame.endType = .preceding) then
    .error (.semantic "Window frame RANGE PRECEDING is only supported with UNBOUNDED")
  else if frame.type = .range ∧ (frame.startType = .following ∨ frame.endType = .following) then
    .error (.semantic "Window frame RANGE FOLLOWING is only supported with UNBOUNDED")
  else .ok ()

/-! ## Partitions -/

/-- The rows of an index by their positions, and the offsets in their columns. -/
structure PagesIndex (ρ : Type) where
  row : ℕ → ρ
  getLong : (channel : ℤ) → (position : ℕ) → Option Int64

/-- A range of positions.  The strategy decides which rows are peers. -/
structure PartitionRows (ρ : Type) where
  pagesIndex : PagesIndex ρ
  partitionStart : ℕ
  partitionEnd : ℕ
  positionEqualsRow : ρ → ρ → Bool
  nonempty : partitionStart < partitionEnd
  partitionEnd_lt : partitionEnd < 2 ^ 31

/-- A frame, from its first to its last row; `-1` for an empty one. -/
structure Range where
  start : ℤ
  stop : ℤ
  deriving DecidableEq, Repr

/-- The partition while its rows are processed. -/
structure WindowPartition (ρ σ ω : Type) where
  rows : PartitionRows ρ
  windowFunctions : List (FrameInfo × AggregateWindowFunction ρ σ ω)
  peerGroupStart : ℕ
  peerGroupEnd : ℕ
  currentPosition : ℕ

namespace PartitionRows

variable {ρ : Type} (rows : PartitionRows ρ)

def positionEqualsPosition (left right : ℕ) : Bool :=
  rows.positionEqualsRow (rows.pagesIndex.row left) (rows.pagesIndex.row right)

/-- The end of the peer group of a row: the loop of `updatePeerGroup`, of which at most the
given number of rounds is left. -/
def findPeerGroupEnd (peerGroupStart : ℕ) : (rounds peerGroupEnd : ℕ) → ℕ
  | 0, peerGroupEnd => peerGroupEnd
  | rounds + 1, peerGroupEnd =>
      if rows.positionEqualsPosition peerGroupStart peerGroupEnd then
        findPeerGroupEnd peerGroupStart rounds (peerGroupEnd + 1)
      else peerGroupEnd

/-- The offset of a bound in the row at a position. -/
def getFrameValue (position : ℕ) (channel : ℤ) (type : String) : Result ℤ :=
  match rows.pagesIndex.getLong channel position with
  | none =>
      .error (.prestoException .invalidWindowFrame
        s!"Window frame {type} offset must not be null")
  | some value =>
      let number := value.toInt
      if number < 0 then
        .error (.prestoException .invalidWindowFrame
          s!"Window frame {number} offset must not be negative")
      else .ok number

def getStartValue (position : ℕ) (frameInfo : FrameInfo) : Result ℤ :=
  rows.getFrameValue position frameInfo.startChannel "starting"

def getEndValue (position : ℕ) (frameInfo : FrameInfo) : Result ℤ :=
  rows.getFrameValue position frameInfo.endChannel "ending"

end PartitionRows

/-- `Math.toIntExact`. -/
def toIntExact (value : ℤ) : Result ℤ :=
  if -2 ^ 31 ≤ value ∧ value < 2 ^ 31 then .ok value else .error (.arithmetic "integer overflow")

def preceding (rowPosition value : ℤ) : Result ℤ :=
  if rowPosition < value then .ok 0 else toIntExact (rowPosition - value)

def following (rowPosition endPosition value : ℤ) : Result ℤ :=
  if endPosition - rowPosition < value then .ok endPosition else toIntExact (rowPosition + value)

namespace WindowPartition

variable {ρ σ ω : Type} (partition : WindowPartition ρ σ ω)

def updatePeerGroup : WindowPartition ρ σ ω :=
  let peerGroupStart := partition.currentPosition
  { partition with
    peerGroupStart := peerGroupStart
    peerGroupEnd := partition.rows.findPeerGroupEnd peerGroupStart
      (partition.rows.partitionEnd - (peerGroupStart + 1)) (peerGroupStart + 1) }

/-- The constructor, which resets the functions. -/
def new (rows : PartitionRows ρ)
    (windowFunctions : List (FrameInfo × AggregateWindowFunction ρ σ ω)) :
    WindowPartition ρ σ ω :=
  let windowIndex position := rows.pagesIndex.row (rows.partitionStart + position)
  updatePeerGroup
    { rows := rows
      windowFunctions := windowFunctions.map fun framedFunction =>
        (framedFunction.1, framedFunction.2.reset windowIndex)
      peerGroupStart := 0
      peerGroupEnd := 0
      currentPosition := rows.partitionStart }

def hasNext : Bool :=
  partition.currentPosition < partition.rows.partitionEnd

def emptyFrame (frameInfo : FrameInfo) (rowPosition endPosition : ℤ) : Result Bool := do
  let positions := endPosition - rowPosition
  if frameInfo.startType = .unboundedPreceding ∧ frameInfo.endType = .preceding then
    let stop ← partition.rows.getEndValue partition.currentPosition frameInfo
    pure (decide (rowPosition < stop))
  else if frameInfo.startType = .following ∧ frameInfo.endType = .unboundedFollowing then
    let start ← partition.rows.getStartValue partition.currentPosition frameInfo
    pure (decide (positions < start))
  else if frameInfo.startType ≠ frameInfo.endType then pure false
  else if frameInfo.startType ≠ .preceding ∧ frameInfo.startType ≠ .following then pure false
  else
    let start ← partition.rows.getStartValue partition.currentPosition frameInfo
    let stop ← partition.rows.getEndValue partition.currentPosition frameInfo
    if frameInfo.startType = .preceding then
      pure (decide (start < stop ∨ rowPosition < start ∧ rowPosition < stop))
    else pure (decide (stop < start ∨ positions < start ∧ positions < stop))

def frameStart (frameInfo : FrameInfo) (rowPosition endPosition : ℤ) : Result ℤ :=
  match frameInfo.startType with
  | .unboundedPreceding => .ok 0
  | .preceding => do
      let value ← partition.rows.getStartValue partition.currentPosition frameInfo
      preceding rowPosition value
  | .following => do
      let value ← partition.rows.getStartValue partition.currentPosition frameInfo
      following rowPosition endPosition value
  | _ =>
      .ok (if frameInfo.type = .range then partition.peerGroupStart - partition.rows.partitionStart
        else rowPosition)

def frameEnd (frameInfo : FrameInfo) (rowPosition endPosition : ℤ) : Result ℤ :=
  match frameInfo.endType with
  | .unboundedFollowing => .ok endPosition
  | .preceding => do
      let value ← partition.rows.getEndValue partition.currentPosition frameInfo
      preceding rowPosition value
  | .following => do
      let value ← partition.rows.getEndValue partition.currentPosition frameInfo
      following rowPosition endPosition value
  | _ =>
      .ok (if frameInfo.type = .range then
        partition.peerGroupEnd - partition.rows.partitionStart - 1 else rowPosition)

def getFrameRange (frameInfo : FrameInfo) : Result Range := do
  let rowPosition : ℤ := partition.currentPosition - partition.rows.partitionStart
  let endPosition : ℤ := partition.rows.partitionEnd - partition.rows.partitionStart - 1
  let empty ← partition.emptyFrame frameInfo rowPosition endPosition
  if empty then pure ⟨-1, -1⟩
  else
    let start ← partition.frameStart frameInfo rowPosition endPosition
    let stop ← partition.frameEnd frameInfo rowPosition endPosition
    pure ⟨start, stop⟩

/-- One function is called for the current row: the frame that is passed to it, its output,
and the function afterwards. -/
def processFunction (framedFunction : FrameInfo × AggregateWindowFunction ρ σ ω) :
    Result ((FrameInfo × AggregateWindowFunction ρ σ ω) × Range × ω) := do
  let range ← partition.getFrameRange framedFunction.1
  let (function, output) ← framedFunction.2.processRow
    (partition.peerGroupStart - partition.rows.partitionStart)
    (partition.peerGroupEnd - partition.rows.partitionStart - 1) range.start range.stop
  pure ((framedFunction.1, function), range, output)

/-- The frames and the outputs of the functions for the current row. -/
def processNextRow : Result (List (Range × ω) × WindowPartition ρ σ ω) := do
  if !partition.hasNext then .error (.illegalState "No more rows in partition")
  else
    let partition :=
      if partition.currentPosition = partition.peerGroupEnd then partition.updatePeerGroup
      else partition
    let calls ← partition.windowFunctions.mapM partition.processFunction
    pure (calls.map (·.2),
      { partition with
        windowFunctions := calls.map (·.1)
        currentPosition := partition.currentPosition + 1 })

/-- The given number of rows is processed. -/
def processRows : (count : ℕ) → (partition : WindowPartition ρ σ ω) →
    Result (List (List (Range × ω)) × WindowPartition ρ σ ω)
  | 0, partition => .ok ([], partition)
  | count + 1, partition => do
      let (calls, partition) ← partition.processNextRow
      let (rest, partition) ← processRows count partition
      pure (calls :: rest, partition)

end WindowPartition

end Presto.Operator.Window
