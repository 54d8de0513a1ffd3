import Presto.Operator.Window.WindowPartition
import Presto.Support.Runs
import Presto.Types.DoubleType

/-!
# The frames of a window

The rows of a frame are those between its bounds.  A bound at the current row of a `RANGE`
frame includes the rows that tie with it in the order of the window; the code includes the
peers that the strategy finds equal, which is the same if the strategy and the order agree.
-/

namespace Presto.Operator.Window

open PartitionRows Result

open AggregateWindowFunction

open Support Support.Runs

/-! ## Frames as sets of rows -/

namespace PartitionRows

variable {ρ : Type} (rows : PartitionRows ρ) (frame : FrameInfo)

def count : ℕ := rows.partitionEnd - rows.partitionStart

def row (p : ℕ) : ρ := rows.pagesIndex.row (rows.partitionStart + p)

/-- The offset of the lower bound of a frame in a row. -/
def startOffset (i : ℕ) : ℤ :=
  ((rows.pagesIndex.getLong frame.startChannel (rows.partitionStart + i)).map
    Int64.toInt).getD 0

/-- The offset of the upper bound of a frame in a row. -/
def endOffset (i : ℕ) : ℤ :=
  ((rows.pagesIndex.getLong frame.endChannel (rows.partitionStart + i)).map Int64.toInt).getD 0

/-- The row `p` is not before the lower bound of the frame of the row `i`. -/
def reachesStart (notAfter : ℕ → ℕ → Bool) (frame : FrameInfo) (i p : ℕ) : Bool :=
  match frame.startType with
  | .unboundedPreceding => true
  | .preceding => decide ((i : ℤ) - rows.startOffset frame i ≤ p)
  | .currentRow => if frame.type = .range then notAfter i p else decide (i ≤ p)
  | .following => decide ((i : ℤ) + rows.startOffset frame i ≤ p)
  | .unboundedFollowing => false

/-- The row `p` is not after the upper bound of the frame of the row `i`. -/
def withinEnd (notAfter : ℕ → ℕ → Bool) (frame : FrameInfo) (i p : ℕ) : Bool :=
  match frame.endType with
  | .unboundedPreceding => false
  | .preceding => decide ((p : ℤ) ≤ i - rows.endOffset frame i)
  | .currentRow => if frame.type = .range then notAfter p i else decide (p ≤ i)
  | .following => decide ((p : ℤ) ≤ i + rows.endOffset frame i)
  | .unboundedFollowing => true

/-- The rows of the frame of a row, in their order. -/
def frameRows (notAfter : ℕ → ℕ → Bool) (frame : FrameInfo) (i : ℕ) : List ℕ :=
  (List.range rows.count).filter fun p =>
    rows.reachesStart notAfter frame i p && rows.withinEnd notAfter frame i p

/-- The rows come in the order of the window.  The code sorts them by the keys of the partition
first, and by `Type.compareTo`; it ends a partition by `Type.equalTo`. -/
def Sorted [Preorder ρ] : Prop := ∀ p q, p ≤ q → q < rows.count → rows.row p ≤ rows.row q

/-- The order of the rows in the window. -/
def notAfter [Preorder ρ] [DecidableLE ρ] (rows : PartitionRows ρ) (p q : ℕ) : Bool :=
  decide (rows.row p ≤ rows.row q)

/-- A row ties with an earlier one in the order of the window. -/
def ties [Preorder ρ] [DecidableLE ρ] (rows : PartitionRows ρ) (p q : ℕ) : Bool := rows.notAfter q p

/-- The strategy finds the rows equal. -/
def peers (p q : ℕ) : Bool :=
  rows.positionEqualsPosition (rows.partitionStart + p) (rows.partitionStart + q)

/-- The order of the peer groups that the code finds. -/
def groupNotAfter (p q : ℕ) : Bool :=
  decide (runStart rows.peers p ≤ runStart rows.peers q)

/-- The strategy finds a row equal to the first of the rows that tie with the row before if
and only if it ties with it. -/
def PeersAgree [Preorder ρ] [DecidableLE ρ] (rows : PartitionRows ρ) : Prop :=
  ∀ i, i + 1 < rows.count →
    rows.peers (runStart rows.ties i) (i + 1) = rows.ties (runStart rows.ties i) (i + 1)

/-- The frame is accepted by the analyzer, and the offsets that it needs are neither null nor
negative. -/
structure Accepts : Prop where
  analyzed : analyzeWindowFrame frame = .ok ()
  startValue : frame.startType = .preceding ∨ frame.startType = .following →
    ∀ i, i < rows.count → ∃ value,
      rows.pagesIndex.getLong frame.startChannel (rows.partitionStart + i) = some value ∧
        0 ≤ value.toInt
  endValue : frame.endType = .preceding ∨ frame.endType = .following →
    ∀ i, i < rows.count → ∃ value,
      rows.pagesIndex.getLong frame.endChannel (rows.partitionStart + i) = some value ∧
        0 ≤ value.toInt

/-! ## Ties in a sorted partition -/

variable [Preorder ρ] [DecidableLE ρ]

theorem row_le_runStart (i : ℕ) : rows.row i ≤ rows.row (runStart rows.ties i) := by
  induction i with
  | zero => exact le_rfl
  | succ i ih =>
      rw [runStart]
      by_cases hties : rows.ties (runStart rows.ties i) (i + 1) = true
      · rw [if_pos hties]
        exact of_decide_eq_true hties
      · rw [if_neg hties]

/-- In a sorted partition the rows come in the order of their ties. -/
theorem notAfter_iff (hsorted : rows.Sorted) {p q : ℕ} (hp : p < rows.count)
    (hq : q < rows.count) :
    rows.notAfter p q = true ↔ runStart rows.ties p ≤ runStart rows.ties q := by
  rw [notAfter, decide_eq_true_eq]
  constructor
  · intro hle
    rw [← runStart_le_iff]
    by_contra hlt
    -- the start of the run of `p` is a row after `q`, but not after the run before it
    obtain ⟨k, hk⟩ : ∃ k, runStart rows.ties p = k + 1 := ⟨runStart rows.ties p - 1, by omega⟩
    have hstart : runStart rows.ties (k + 1) = k + 1 := by
      rw [← hk, runStart_runStart]
    have hbelow := runStart_le rows.ties p
    have hprevious := runStart_le rows.ties k
    have htie : rows.row (k + 1) ≤ rows.row (runStart rows.ties k) :=
      calc rows.row (k + 1) ≤ rows.row p := hsorted _ _ (by omega) hp
        _ ≤ rows.row q := hle
        _ ≤ rows.row k := hsorted _ _ (by omega) (by omega)
        _ ≤ rows.row (runStart rows.ties k) := rows.row_le_runStart k
    have hties : rows.ties (runStart rows.ties k) (k + 1) = true := decide_eq_true htie
    rw [runStart, if_pos hties] at hstart
    omega
  · intro hle
    calc rows.row p ≤ rows.row (runStart rows.ties p) := rows.row_le_runStart p
      _ ≤ rows.row (runStart rows.ties q) :=
          hsorted _ _ hle (lt_of_le_of_lt (runStart_le _ q) hq)
      _ ≤ rows.row q := hsorted _ _ (runStart_le _ q) hq

end PartitionRows

/-! ## The frames of the code -/

namespace PartitionRows

variable {ρ : Type} {rows : PartitionRows ρ} {frame : FrameInfo} {i p start stop : ℕ}

/-- The lower bound of a frame as a position, where `start` is that of the peer group. -/
def lowerBound (rows : PartitionRows ρ) (frame : FrameInfo) (i start : ℕ) : ℤ :=
  match frame.startType with
  | .unboundedPreceding => 0
  | .preceding => i - rows.startOffset frame i
  | .currentRow => if frame.type = .range then start else i
  | .following => i + rows.startOffset frame i
  | .unboundedFollowing => rows.count

/-- The upper bound of a frame as a position, where `stop` is the end of the peer group. -/
def upperBound (rows : PartitionRows ρ) (frame : FrameInfo) (i stop : ℕ) : ℤ :=
  match frame.endType with
  | .unboundedPreceding => -1
  | .preceding => i - rows.endOffset frame i
  | .currentRow => if frame.type = .range then stop - 1 else i
  | .following => i + rows.endOffset frame i
  | .unboundedFollowing => rows.count - 1

theorem reachesStart_iff (hrun : IsRun rows.peers rows.count start stop) (hstart : start ≤ i)
    (hstop : i < stop) (hp : p < rows.count) :
    rows.reachesStart rows.groupNotAfter frame i p = true ↔ rows.lowerBound frame i start ≤ p := by
  unfold reachesStart lowerBound
  cases frame.startType with
  | unboundedPreceding => simp
  | preceding | following => exact decide_eq_true_iff
  | currentRow =>
      dsimp only
      split
      · rw [groupNotAfter, decide_eq_true_eq, ← runStart_le_iff,
          hrun.runStart_eq hstart hstop, Nat.cast_le]
      · rw [decide_eq_true_eq, Nat.cast_le]
  | unboundedFollowing =>
      simp only [Bool.false_eq_true, false_iff, not_le]
      exact_mod_cast hp

theorem withinEnd_iff (hrun : IsRun rows.peers rows.count start stop) (hstart : start ≤ i)
    (hstop : i < stop) (hp : p < rows.count) :
    rows.withinEnd rows.groupNotAfter frame i p = true ↔
      (p : ℤ) ≤ rows.upperBound frame i stop := by
  unfold withinEnd upperBound
  cases frame.endType with
  | unboundedPreceding =>
      simp only [Bool.false_eq_true, false_iff]
      omega
  | preceding | following => exact decide_eq_true_iff
  | currentRow =>
      dsimp only
      split
      · rw [groupNotAfter, decide_eq_true_eq, hrun.runStart_eq hstart hstop, ← hrun.lt_stop_iff hp]
        omega
      · rw [decide_eq_true_eq, Nat.cast_le]
  | unboundedFollowing =>
      simp only [true_iff]
      omega

theorem getFrameValue_eq {channel : ℤ} {position : ℕ} (type : String)
    (h : ∃ value, rows.pagesIndex.getLong channel position = some value ∧ 0 ≤ value.toInt) :
    rows.getFrameValue position channel type =
        .ok (((rows.pagesIndex.getLong channel position).map Int64.toInt).getD 0) ∧
      0 ≤ ((rows.pagesIndex.getLong channel position).map Int64.toInt).getD 0 := by
  obtain ⟨value, hvalue, hnonneg⟩ := h
  rw [getFrameValue, hvalue]
  exact ⟨if_neg (not_lt.mpr hnonneg), hnonneg⟩

theorem getStartValue_eq (haccepts : rows.Accepts frame) (hi : i < rows.count)
    (htype : frame.startType = .preceding ∨ frame.startType = .following) :
    rows.getStartValue (rows.partitionStart + i) frame = .ok (rows.startOffset frame i) ∧
      0 ≤ rows.startOffset frame i :=
  getFrameValue_eq _ (haccepts.startValue htype i hi)

theorem getEndValue_eq (haccepts : rows.Accepts frame) (hi : i < rows.count)
    (htype : frame.endType = .preceding ∨ frame.endType = .following) :
    rows.getEndValue (rows.partitionStart + i) frame = .ok (rows.endOffset frame i) ∧
      0 ≤ rows.endOffset frame i :=
  getFrameValue_eq _ (haccepts.endValue htype i hi)

end PartitionRows

theorem toIntExact_of_le {value : ℤ} (hlow : 0 ≤ value) (hhigh : value < 2 ^ 31) :
    toIntExact value = .ok value :=
  if_pos ⟨by omega, hhigh⟩

/-- What the analyzer has checked. -/
theorem analyzed_spec {frame : FrameInfo} (h : analyzeWindowFrame frame = .ok ()) :
    frame.startType ≠ .unboundedFollowing ∧ frame.endType ≠ .unboundedPreceding ∧
      ¬(frame.startType = .currentRow ∧ frame.endType = .preceding) ∧
      ¬(frame.startType = .following ∧ frame.endType = .preceding) ∧
      ¬(frame.startType = .following ∧ frame.endType = .currentRow) ∧
      ¬(frame.type = .range ∧ (frame.startType = .preceding ∨ frame.endType = .preceding)) ∧
      ¬(frame.type = .range ∧ (frame.startType = .following ∨ frame.endType = .following)) := by
  unfold analyzeWindowFrame at h
  split_ifs at h with h1 h2 h3 h4 h5 h6 h7
  exact ⟨h1, h2, h3, h4, h5, h6, h7⟩

/-- A partition at the row `i`, whose peer group is known. -/
structure AtRow {ρ σ ω : Type}
    (partition : WindowPartition ρ σ ω) (rows : PartitionRows ρ) (i start stop : ℕ) : Prop where
  rows_eq : partition.rows = rows
  position_eq : partition.currentPosition = rows.partitionStart + i
  peerGroupStart_eq : partition.peerGroupStart = rows.partitionStart + start
  peerGroupEnd_eq : partition.peerGroupEnd = rows.partitionStart + stop
  run : IsRun rows.peers rows.count start stop
  start_le : start ≤ i
  lt_stop : i < stop

namespace AtRow

variable {ρ σ ω : Type} {partition : WindowPartition ρ σ ω}
  {rows : PartitionRows ρ} {frame : FrameInfo} {i start stop : ℕ}
  (h : AtRow partition rows i start stop) (haccepts : rows.Accepts frame)

include h

theorem lt_count : i < rows.count :=
  lt_of_lt_of_le h.lt_stop h.run.le

include haccepts

theorem emptyFrame_eq :
    partition.emptyFrame frame i (rows.count - 1) =
      .ok (decide (min (rows.upperBound frame i stop) (rows.count - 1) <
        max (rows.lowerBound frame i start) 0)) := by
  have hlt := h.lt_count
  have hstart := h.start_le
  have hstop := h.lt_stop
  have hstartValue := getStartValue_eq haccepts hlt
  have hendValue := getEndValue_eq haccepts hlt
  have hanalyzed := analyzed_spec haccepts.analyzed
  -- a bound at the current row leaves the row itself in the frame
  have hhigh : (i : ℤ) ≤ if frame.type = .range then (stop : ℤ) - 1 else i := by
    split <;> omega
  unfold WindowPartition.emptyFrame upperBound lowerBound
  rw [h.rows_eq, h.position_eq]
  cases hs : frame.startType <;> cases he : frame.endType <;>
    simp only [hs, he, reduceCtorEq, ne_eq, not_true_eq_false, and_false, true_and, false_and,
      or_true, or_false, forall_const] at hanalyzed hstartValue hendValue ⊢
  case unboundedPreceding.preceding =>
    rw [hendValue.1]
    exact congrArg Except.ok (decide_eq_decide.mpr (by omega))
  case preceding.preceding | following.following =>
    rw [hstartValue.1, hendValue.1]
    exact congrArg Except.ok (decide_eq_decide.mpr (by omega))
  case following.unboundedFollowing =>
    rw [hstartValue.1]
    exact congrArg Except.ok (decide_eq_decide.mpr (by omega))
  all_goals exact congrArg Except.ok (decide_eq_false (by omega)).symm

omit h haccepts in
theorem count_lt (rows : PartitionRows ρ) : (rows.count : ℤ) < 2 ^ 31 := by
  have hcount : rows.count = rows.partitionEnd - rows.partitionStart := rfl
  have hlt := rows.partitionEnd_lt
  omega

theorem frameStart_eq (hle : rows.lowerBound frame i start ≤ rows.count - 1) :
    partition.frameStart frame i (rows.count - 1) =
      .ok (max (rows.lowerBound frame i start) 0) := by
  have hlt := h.lt_count
  have hcount := count_lt rows
  have hvalue := getStartValue_eq haccepts hlt
  have hanalyzed := (analyzed_spec haccepts.analyzed).1
  unfold WindowPartition.frameStart lowerBound at *
  rw [h.rows_eq, h.position_eq, h.peerGroupStart_eq]
  cases hs : frame.startType with
  | unboundedPreceding => rfl
  | preceding =>
      obtain ⟨hstart, hnonneg⟩ := hvalue (.inl hs)
      dsimp only
      rw [hstart, bind_ok, preceding]
      by_cases hbefore : (i : ℤ) < rows.startOffset frame i
      · rw [if_pos hbefore, max_eq_right (by omega)]
      · rw [if_neg hbefore, toIntExact_of_le (by omega) (by omega), max_eq_left (by omega)]
  | currentRow =>
      dsimp only
      rw [max_eq_left (by split <;> omega)]
      congr 2
      omega
  | following =>
      obtain ⟨hstart, hnonneg⟩ := hvalue (.inr hs)
      rw [hs] at hle
      dsimp only at hle ⊢
      rw [hstart, bind_ok, following, if_neg (by omega),
        toIntExact_of_le (by omega) (by omega), max_eq_left (by omega)]
  | unboundedFollowing => exact absurd hs hanalyzed

theorem frameEnd_eq (hle : 0 ≤ rows.upperBound frame i stop) :
    partition.frameEnd frame i (rows.count - 1) =
      .ok (min (rows.upperBound frame i stop) (rows.count - 1)) := by
  have hlt := h.lt_count
  have hcount := count_lt rows
  have hstop := h.run.le
  have hvalue := getEndValue_eq haccepts hlt
  have hanalyzed := (analyzed_spec haccepts.analyzed).2.1
  unfold WindowPartition.frameEnd upperBound at *
  rw [h.rows_eq, h.position_eq, h.peerGroupEnd_eq]
  cases hs : frame.endType with
  | unboundedPreceding => exact absurd hs hanalyzed
  | preceding =>
      obtain ⟨hend, hnonneg⟩ := hvalue (.inl hs)
      rw [hs] at hle
      dsimp only at hle ⊢
      rw [hend, bind_ok, preceding, if_neg (by omega),
        toIntExact_of_le (by omega) (by omega), min_eq_left (by omega)]
  | currentRow =>
      dsimp only
      rw [min_eq_left (by split <;> omega)]
      congr 2
      omega
  | following =>
      obtain ⟨hend, hnonneg⟩ := hvalue (.inr hs)
      dsimp only
      rw [hend, bind_ok, following]
      by_cases hafter : (rows.count : ℤ) - 1 - i < rows.endOffset frame i
      · rw [if_pos hafter, min_eq_right (by omega)]
      · rw [if_neg hafter, toIntExact_of_le (by omega) (by omega), min_eq_left (by omega)]
  | unboundedFollowing =>
      rw [min_self]

omit h haccepts in
/-- The positions of a range that are between two bounds. -/
theorem filter_range_eq_positions
    {count : ℕ} {first last : ℤ} (hfirst : 0 ≤ first) (hle : first ≤ last) (hlast : last < count)
    {q : ℕ → Bool} (hq : ∀ p, p < count → (q p = true ↔ first ≤ p ∧ (p : ℤ) ≤ last)) :
    (List.range count).filter q = positions first last := by
  have hfilter : ((List.range count).filter q).Pairwise (· < ·) :=
    List.pairwise_lt_range.filter q
  refine hfilter.eq_of_mem_iff List.pairwise_lt_range' ?_
  intro p
  rw [List.mem_filter, List.mem_range, positions, List.mem_range'_1]
  constructor
  · rintro ⟨hp, hqp⟩
    have hbetween := (hq p hp).mp hqp
    omega
  · intro hp
    have hlt : p < count := by omega
    exact ⟨hlt, (hq p hlt).mpr (by omega)⟩

/-- The frame that is passed to a function has the rows between its bounds. -/
theorem getFrameRange_spec :
    ∃ range, partition.getFrameRange frame = .ok range ∧
      (0 ≤ range.start → range.start ≤ range.stop) ∧
      framePositions range.start range.stop =
        rows.frameRows rows.groupNotAfter frame i := by
  have hrow : (partition.currentPosition : ℤ) - partition.rows.partitionStart = i := by
    rw [h.rows_eq, h.position_eq]
    omega
  have hlast : (partition.rows.partitionEnd : ℤ) - partition.rows.partitionStart - 1 =
      rows.count - 1 := by
    have hnonempty := rows.nonempty
    rw [h.rows_eq, count]
    omega
  have hbounds : ∀ p, p < rows.count →
      ((rows.reachesStart rows.groupNotAfter frame i p &&
        rows.withinEnd rows.groupNotAfter frame i p) = true ↔
        max (rows.lowerBound frame i start) 0 ≤ p ∧
          (p : ℤ) ≤ min (rows.upperBound frame i stop) (rows.count - 1)) := by
    intro p hp
    rw [Bool.and_eq_true, reachesStart_iff h.run h.start_le h.lt_stop hp,
      withinEnd_iff h.run h.start_le h.lt_stop hp]
    omega
  rw [WindowPartition.getFrameRange, hrow, hlast, h.emptyFrame_eq haccepts, bind_ok]
  by_cases hempty : min (rows.upperBound frame i stop) (rows.count - 1) <
      max (rows.lowerBound frame i start) 0
  · refine ⟨⟨-1, -1⟩, if_pos (decide_eq_true hempty), fun hnonneg => absurd hnonneg (by decide), ?_⟩
    symm
    rw [frameRows, framePositions, if_pos (by decide),
      List.filter_eq_nil_iff]
    intro p hp hq
    have hinside := (hbounds p (List.mem_range.mp hp)).mp hq
    omega
  · refine ⟨⟨max (rows.lowerBound frame i start) 0,
      min (rows.upperBound frame i stop) (rows.count - 1)⟩, ?_, fun _ => not_lt.mp hempty, ?_⟩
    · rw [if_neg (by simpa using hempty), h.frameStart_eq haccepts (by omega),
        h.frameEnd_eq haccepts (by omega)]
      rfl
    · rw [framePositions, if_neg (not_lt.mpr (le_max_right _ _))]
      exact (filter_range_eq_positions (by omega) (not_lt.mp hempty) (by omega) hbounds).symm

end AtRow

end Presto.Operator.Window
