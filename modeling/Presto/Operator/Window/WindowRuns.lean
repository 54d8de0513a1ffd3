import Presto.Operator.Window.WindowFrames
import Presto.Types.DoubleType

/-!
# The rows of a partition one after another

For every row of a partition each function gets the rows between the bounds of its frame and
outputs the aggregate of exactly these rows.  Only a `RANGE` frame with a bound at the current
row depends on the peer strategy: the type `double` finds values that are not a number unequal,
although they tie in the order.
-/

namespace Presto.Operator.Window

open Support Support.Runs Presto.Types WindowPartition PartitionRows Result

/-! ## Peer groups -/

namespace PartitionRows

variable {ρ : Type} {rows : PartitionRows ρ}

theorem findPeerGroupEnd_spec {start : ℕ} (hstarts : runStart rows.peers start = start) :
    ∀ rounds stop, start < stop → stop + rounds = rows.count →
      (∀ p, start < p → p < stop → rows.peers start p = true) →
      ∃ stop', rows.findPeerGroupEnd (rows.partitionStart + start) rounds
          (rows.partitionStart + stop) = rows.partitionStart + stop' ∧
        IsRun rows.peers rows.count start stop' := by
  intro rounds
  induction rounds with
  | zero =>
      intro stop hlt hcount hwithin
      exact ⟨stop, rfl, ⟨hstarts, hlt, by omega, hwithin, .inl (by omega)⟩⟩
  | succ rounds ih =>
      intro stop hlt hcount hwithin
      rw [findPeerGroupEnd, show rows.positionEqualsPosition (rows.partitionStart + start)
        (rows.partitionStart + stop) = rows.peers start stop from rfl]
      by_cases hpeers : rows.peers start stop = true
      · rw [if_pos hpeers]
        apply ih (stop + 1) (by omega) (by omega)
        intro p hstart hstop
        rcases Nat.lt_succ_iff_lt_or_eq.mp hstop with hbefore | rfl
        · exact hwithin p hstart hbefore
        · exact hpeers
      · rw [if_neg hpeers]
        exact ⟨stop, rfl, ⟨hstarts, hlt, by omega, hwithin, .inr (by simpa using hpeers)⟩⟩

end PartitionRows

namespace WindowPartition

variable {ρ σ ω : Type} {rows : PartitionRows ρ} {partition : WindowPartition ρ σ ω}

theorem updatePeerGroup_atRow {i : ℕ} (hrows : partition.rows = rows)
    (hposition : partition.currentPosition = rows.partitionStart + i) (hi : i < rows.count)
    (hstarts : runStart rows.peers i = i) :
    ∃ stop, AtRow partition.updatePeerGroup rows i i stop := by
  have hrounds : i + 1 + (rows.partitionEnd - (rows.partitionStart + i + 1)) = rows.count := by
    rw [count] at hi ⊢
    omega
  obtain ⟨stop, hstop, hrun⟩ :=
    findPeerGroupEnd_spec hstarts _ (i + 1) (Nat.lt_succ_self i) hrounds
      (fun p hstart hlt => absurd hstart (by omega))
  refine ⟨stop, hrows, hposition, hposition, ?_, hrun, le_rfl, hrun.lt⟩
  change partition.rows.findPeerGroupEnd partition.currentPosition _ _ = _
  rw [hrows, hposition]
  exact hstop

end WindowPartition

/-! ## Rows -/

section Rows

variable {ρ σ ω : Type}

/-- A frame and an aggregate over it. -/
abbrev FramedAggregate (ρ σ ω : Type) := FrameInfo × AccumulatorFactory ρ σ ω

/-- A call of a function is given the rows of its frame, in their order, and returns their
aggregate. -/
structure CallCorrect
    (rows : PartitionRows ρ) (notAfter : ℕ → ℕ → Bool) (i : ℕ)
    (aggregate : FramedAggregate ρ σ ω) (call : Range × ω) : Prop where
  frame : AggregateWindowFunction.framePositions call.1.start call.1.stop =
    rows.frameRows notAfter aggregate.1 i
  output : call.2 = aggregate.2.aggregate ((rows.frameRows notAfter aggregate.1 i).map rows.row)

/-- A partition before its row `i`: the functions are set up, and the peer group is that of
the row or ends there. -/
structure BeforeRow
    (partition : WindowPartition ρ σ ω) (rows : PartitionRows ρ)
    (aggregates : List (FramedAggregate ρ σ ω)) (i : ℕ) : Prop where
  rows_eq : partition.rows = rows
  position_eq : partition.currentPosition = rows.partitionStart + i
  functions : List.Forall₂ (fun aggregate framed => framed.1 = aggregate.1 ∧
    framed.2.Holds aggregate.2 rows.row) aggregates partition.windowFunctions
  peers : ∃ start stop, partition.peerGroupStart = rows.partitionStart + start ∧
    partition.peerGroupEnd = rows.partitionStart + stop ∧
    IsRun rows.peers rows.count start stop ∧ start ≤ i ∧ i ≤ stop

variable {rows : PartitionRows ρ} {aggregates : List (FramedAggregate ρ σ ω)}
  {partition : WindowPartition ρ σ ω} {i start stop : ℕ} {aggregate : FramedAggregate ρ σ ω}

theorem processFunction_spec (h : AtRow partition rows i start stop)
    {framed : FrameInfo × AggregateWindowFunction ρ σ ω} (hframe : framed.1 = aggregate.1)
    (hholds : framed.2.Holds aggregate.2 rows.row)
    (haccepts : rows.Accepts aggregate.1 ∧ aggregate.2.Repeatable) :
    ∃ framed' call, partition.processFunction framed = .ok (framed', call) ∧
      framed'.1 = aggregate.1 ∧ framed'.2.Holds aggregate.2 rows.row ∧
      CallCorrect rows rows.groupNotAfter i aggregate call := by
  obtain ⟨range, hrange, hnonempty, hpositions⟩ := h.getFrameRange_spec haccepts.1
  obtain ⟨function, hprocess, hholds'⟩ :=
    AggregateWindowFunction.processRow_spec hholds haccepts.2
      (partition.peerGroupStart - partition.rows.partitionStart)
      (partition.peerGroupEnd - partition.rows.partitionStart - 1) hnonempty
  rw [hpositions] at hprocess
  refine ⟨(framed.1, function), (range, _), ?_, hframe, hholds', ⟨hpositions, rfl⟩⟩
  rw [processFunction, hframe, hrange, bind_ok, hprocess]
  rfl

variable {functions : List (FrameInfo × AggregateWindowFunction ρ σ ω)}

theorem mapM_processFunction_spec (h : AtRow partition rows i start stop)
    (haccepts : ∀ aggregate ∈ aggregates, rows.Accepts aggregate.1 ∧ aggregate.2.Repeatable)
    (hfunctions : List.Forall₂ (fun aggregate framed => framed.1 = aggregate.1 ∧
      framed.2.Holds aggregate.2 rows.row) aggregates functions) :
    ∃ results, functions.mapM partition.processFunction = .ok results ∧
      List.Forall₂ (fun aggregate framed => framed.1 = aggregate.1 ∧
        framed.2.Holds aggregate.2 rows.row) aggregates (results.map (·.1)) ∧
      List.Forall₂ (CallCorrect rows rows.groupNotAfter i) aggregates (results.map (·.2)) := by
  induction hfunctions with
  | nil => exact ⟨[], rfl, .nil, .nil⟩
  | cons hhead htail ih =>
      obtain ⟨framed', call, hcall, hframe', hholds', hcorrect⟩ :=
        processFunction_spec h hhead.1 hhead.2 (haccepts _ (by simp))
      obtain ⟨results, hresults, hfunctions', hcalls⟩ :=
        ih fun aggregate hmem => haccepts aggregate (by simp [hmem])
      refine ⟨(framed', call) :: results, ?_, .cons ⟨hframe', hholds'⟩ hfunctions',
        .cons hcorrect hcalls⟩
      rw [List.mapM_cons, hcall, hresults]
      rfl

/-- The peer group is brought to the current row. -/
theorem BeforeRow.atRow (h : BeforeRow partition rows aggregates i) (hi : i < rows.count) :
    ∃ start stop, AtRow (if partition.currentPosition = partition.peerGroupEnd then
      partition.updatePeerGroup else partition) rows i start stop := by
  obtain ⟨start, stop, hstart, hstop, hrun, hle, hbefore⟩ := h.peers
  rw [h.position_eq, hstop]
  by_cases hend : rows.partitionStart + i = rows.partitionStart + stop
  · obtain rfl : i = stop := by omega
    obtain ⟨stop', hat⟩ :=
      updatePeerGroup_atRow h.rows_eq h.position_eq hi (hrun.starts_next hi)
    rw [if_pos hend]
    exact ⟨i, stop', hat⟩
  · rw [if_neg hend]
    exact ⟨start, stop, h.rows_eq, h.position_eq, hstart, hstop, hrun, hle, by omega⟩

theorem processNextRow_spec (h : BeforeRow partition rows aggregates i) (hi : i < rows.count)
    (haccepts : ∀ aggregate ∈ aggregates, rows.Accepts aggregate.1 ∧ aggregate.2.Repeatable) :
    ∃ calls partition', partition.processNextRow = .ok (calls, partition') ∧
      BeforeRow partition' rows aggregates (i + 1) ∧
      List.Forall₂ (CallCorrect rows rows.groupNotAfter i) aggregates calls := by
  obtain ⟨start, stop, hat⟩ := h.atRow hi
  have hnext : partition.hasNext = true := by
    rw [count] at hi
    rw [hasNext, h.rows_eq, h.position_eq, decide_eq_true_eq]
    omega
  have hfunctions : (if partition.currentPosition = partition.peerGroupEnd then
      partition.updatePeerGroup else partition).windowFunctions = partition.windowFunctions := by
    split <;> rfl
  rw [processNextRow, hnext]
  generalize (if partition.currentPosition = partition.peerGroupEnd then
    partition.updatePeerGroup else partition) = current at hat hfunctions ⊢
  obtain ⟨results, hresults, hfunctions', hcalls⟩ :=
    mapM_processFunction_spec hat haccepts (hfunctions ▸ h.functions)
  refine ⟨results.map (·.2), { current with
      windowFunctions := results.map (·.1)
      currentPosition := current.currentPosition + 1 }, by dsimp only; rw [hresults]; rfl,
    ⟨hat.rows_eq, ?_, hfunctions', start, stop, hat.peerGroupStart_eq, hat.peerGroupEnd_eq,
      hat.run, hat.start_le.trans (Nat.le_succ i), hat.lt_stop⟩, hcalls⟩
  rw [hat.position_eq, Nat.add_assoc]

theorem processRows_spec (n : ℕ)
    (haccepts : ∀ aggregate ∈ aggregates, rows.Accepts aggregate.1 ∧ aggregate.2.Repeatable) :
    ∀ {partition : WindowPartition ρ σ ω} {i : ℕ}, BeforeRow partition rows aggregates i →
      i + n ≤ rows.count →
      ∃ outputs final, partition.processRows n = .ok (outputs, final) ∧
        BeforeRow final rows aggregates (i + n) ∧ outputs.length = n ∧
        ∀ k calls, outputs[k]? = some calls →
          List.Forall₂ (CallCorrect rows rows.groupNotAfter (i + k)) aggregates calls := by
  induction n with
  | zero =>
      intro partition i h _
      exact ⟨[], partition, rfl, h, rfl, by simp⟩
  | succ n ih =>
      intro partition i h hle
      obtain ⟨calls, partition', hnext, hbefore, hcorrect⟩ :=
        processNextRow_spec h (by omega) haccepts
      obtain ⟨outputs, final, hrest, hfinal, hlength, houtputs⟩ := ih hbefore (by omega)
      refine ⟨calls :: outputs, final, ?_, ?_, by rw [List.length_cons, hlength], ?_⟩
      · rw [processRows, hnext, bind_ok]
        dsimp only
        rw [hrest, bind_ok]
        rfl
      · rwa [Nat.add_assoc, Nat.add_comm 1 n] at hfinal
      · intro k calls' hcalls'
        cases k with
        | zero =>
            obtain rfl : calls = calls' := by simpa using hcalls'
            exact hcorrect
        | succ k =>
            have hrow := houtputs k calls' (by simpa using hcalls')
            rwa [Nat.add_assoc, Nat.add_comm 1 k] at hrow

/-- The frames and aggregates of the functions. -/
def framedAggregates (functions : List (FrameInfo × AggregateWindowFunction ρ σ ω)) :
    List (FramedAggregate ρ σ ω) :=
  functions.map fun framed => (framed.1, framed.2.accumulatorFactory)

/-- A new partition is before its first row. -/
theorem new_beforeRow
    (rows : PartitionRows ρ) (functions : List (FrameInfo × AggregateWindowFunction ρ σ ω)) :
    BeforeRow (new rows functions) rows (framedAggregates functions) 0 := by
  have hcount : 0 < rows.count := Nat.sub_pos_of_lt rows.nonempty
  have hat : ∃ stop, AtRow (new rows functions) rows 0 0 stop :=
    updatePeerGroup_atRow rfl rfl hcount rfl
  obtain ⟨stop, hat⟩ := hat
  refine ⟨hat.rows_eq, hat.position_eq, ?_, 0, stop, hat.peerGroupStart_eq, hat.peerGroupEnd_eq,
    hat.run, le_rfl, hat.lt_stop.le⟩
  change List.Forall₂ _ (functions.map _) (functions.map _)
  rw [List.forall₂_map_left_iff, List.forall₂_map_right_iff, List.forall₂_same]
  intro framed _
  exact ⟨rfl, framed.2.reset_holds rows.row⟩

/-- All rows of the partition are processed, and every call is given the rows of its frame
and returns their aggregate. -/
def ProcessesCorrectly
    (rows : PartitionRows ρ) (notAfter : ℕ → ℕ → Bool)
    (functions : List (FrameInfo × AggregateWindowFunction ρ σ ω)) : Prop :=
  ∃ outputs final,
    (new rows functions).processRows rows.count = .ok (outputs, final) ∧
    final.hasNext = false ∧ outputs.length = rows.count ∧
    ∀ i calls, outputs[i]? = some calls →
      List.Forall₂ (CallCorrect rows notAfter i) (framedAggregates functions) calls

/-- The code processes the frames of its peer groups. -/
theorem processes_groups (rows : PartitionRows ρ)
    (haccepts : ∀ framed ∈ functions, rows.Accepts framed.1)
    (hrepeatable : ∀ framed ∈ functions, framed.2.accumulatorFactory.Repeatable) :
    ProcessesCorrectly rows rows.groupNotAfter functions := by
  have haggregates : ∀ aggregate ∈ framedAggregates functions,
      rows.Accepts aggregate.1 ∧ aggregate.2.Repeatable := by
    intro aggregate hmem
    obtain ⟨framed, hframed, rfl⟩ := List.mem_map.mp hmem
    exact ⟨haccepts framed hframed, hrepeatable framed hframed⟩
  obtain ⟨outputs, final, hrun, hfinal, hlength, houtputs⟩ :=
    processRows_spec rows.count haggregates (new_beforeRow rows functions) (by omega)
  refine ⟨outputs, final, hrun, ?_, hlength, ?_⟩
  · rw [hasNext, hfinal.rows_eq, hfinal.position_eq, count, decide_eq_false_iff_not]
    omega
  · intro i calls hcalls
    have hrow := houtputs i calls hcalls
    rwa [Nat.zero_add] at hrow

/-! ## When the strategy matters -/

/-- A bound of the frame is at the peers of the current row. -/
def FrameInfo.UsesPeers (frame : FrameInfo) : Prop :=
  frame.type = .range ∧ (frame.startType = .currentRow ∨ frame.endType = .currentRow)

variable {notAfter notAfter' : ℕ → ℕ → Bool} {frame : FrameInfo}

theorem frameRows_congr (hi : i < rows.count)
    (h : frame.UsesPeers → ∀ p q, p < rows.count → q < rows.count →
      notAfter p q = notAfter' p q) :
    rows.frameRows notAfter frame i = rows.frameRows notAfter' frame i := by
  apply List.filter_congr
  intro p hp
  have hp' : p < rows.count := List.mem_range.mp hp
  have hstart : rows.reachesStart notAfter frame i p = rows.reachesStart notAfter' frame i p := by
    unfold reachesStart
    split <;> try rfl
    next htype =>
      split
      · exact h ⟨‹_›, .inl htype⟩ i p hi hp'
      · rfl
  have hend : rows.withinEnd notAfter frame i p = rows.withinEnd notAfter' frame i p := by
    unfold withinEnd
    split <;> try rfl
    next htype =>
      split
      · exact h ⟨‹_›, .inr htype⟩ p i hp' hi
      · rfl
  rw [hstart, hend]

/-- The accepted frames with a bound at the peers of the current row. -/
theorem usesPeers_cases (hanalyzed : analyzeWindowFrame frame = .ok ()) (huses : frame.UsesPeers) :
    frame.startType = .unboundedPreceding ∧ frame.endType = .currentRow ∨
      frame.startType = .currentRow ∧ frame.endType = .currentRow ∨
      frame.startType = .currentRow ∧ frame.endType = .unboundedFollowing := by
  obtain ⟨hstart, hend, -, -, -, hpreceding, hfollowing⟩ := analyzed_spec hanalyzed
  obtain ⟨hrange, hcurrent⟩ := huses
  cases hs : frame.startType <;> cases he : frame.endType <;> simp_all

/-- Two rows are in the frames of each other if they come at the same place of the order. -/
theorem mem_frameRows_iff_of_usesPeers (haccepts : rows.Accepts frame)
    (huses : frame.UsesPeers) {rank : ℕ → ℕ} {i p : ℕ} (hi : i < rows.count) (hp : p < rows.count)
    (hrank : ∀ p q, p < rows.count → q < rows.count →
      (notAfter p q = true ↔ rank p ≤ rank q)) :
    p ∈ rows.frameRows notAfter frame i ∧ i ∈ rows.frameRows notAfter frame p ↔
      rank p = rank i := by
  have hequal : rank p = rank i ↔ notAfter p i = true ∧ notAfter i p = true := by
    rw [hrank p i hp hi, hrank i p hi hp, le_antisymm_iff]
  rw [hequal]
  simp only [frameRows, reachesStart, withinEnd,
    List.mem_filter, List.mem_range, Bool.and_eq_true, hi, hp, huses.1, true_and, if_true]
  rcases usesPeers_cases haccepts.analyzed huses with ⟨hs, he⟩ | ⟨hs, he⟩ | ⟨hs, he⟩
  · simp only [hs, he, true_and]
  · simp only [hs, he]
    tauto
  · simp only [hs, he, and_true]
    exact and_comm

section Order

variable [Preorder ρ] [DecidableLE ρ]

/-- If the strategy finds the right frames, it finds the ties of the order. -/
theorem peersAgree_of_frameRows_eq (hsorted : rows.Sorted) (haccepts : rows.Accepts frame)
    (huses : frame.UsesPeers) (h : ∀ i, i < rows.count →
      rows.frameRows rows.groupNotAfter frame i = rows.frameRows rows.notAfter frame i) :
    rows.PeersAgree := by
  apply agree_of_runStart_eq
  apply runStart_eq_of_classes
  intro i p hi hp
  have hgroups : p ∈ rows.frameRows rows.groupNotAfter frame i ∧
      i ∈ rows.frameRows rows.groupNotAfter frame p ↔
        runStart rows.peers p = runStart rows.peers i :=
    mem_frameRows_iff_of_usesPeers haccepts huses hi hp fun p q _ _ => decide_eq_true_iff
  have hties : p ∈ rows.frameRows rows.notAfter frame i ∧
      i ∈ rows.frameRows rows.notAfter frame p ↔
        runStart rows.ties p = runStart rows.ties i :=
    mem_frameRows_iff_of_usesPeers haccepts huses hi hp
      fun p q hp hq => rows.notAfter_iff hsorted hp hq
  rw [← hgroups, ← hties, h i hi, h p hp]

/-- All frames and outputs are right if and only if no frame has a bound at the peers of the
current row, or the strategy finds the ties of the order. -/
theorem processesCorrectly_iff (rows : PartitionRows ρ)
    (haccepts : ∀ framed ∈ functions, rows.Accepts framed.1)
    (hrepeatable : ∀ framed ∈ functions, framed.2.accumulatorFactory.Repeatable)
    (hsorted : ∀ framed ∈ functions, framed.1.UsesPeers → rows.Sorted) :
    ProcessesCorrectly rows rows.notAfter functions ↔
      ∀ framed ∈ functions, framed.1.UsesPeers → rows.PeersAgree := by
  obtain ⟨outputs, final, hrun, hfinal, hlength, houtputs⟩ :=
    processes_groups rows haccepts hrepeatable
  constructor
  · rintro ⟨outputs', final', hrun', -, -, houtputs'⟩ framed hframed huses
    obtain ⟨rfl, rfl⟩ := Prod.mk.inj (Except.ok.inj (hrun.symm.trans hrun'))
    apply peersAgree_of_frameRows_eq (hsorted framed hframed huses) (haccepts framed hframed) huses
    intro i hi
    have hcalls : outputs[i]? = some (outputs[i]) := List.getElem?_eq_getElem (hlength ▸ hi)
    have hframes : List.Forall₂ (fun aggregate _ =>
        rows.frameRows rows.groupNotAfter aggregate.1 i =
          rows.frameRows rows.notAfter aggregate.1 i ∧ True) (framedAggregates functions)
        (outputs[i]) :=
      List.Forall₂.mp (fun aggregate call h h' => ⟨h.frame.symm.trans h'.frame, trivial⟩)
        (houtputs i _ hcalls) (houtputs' i _ hcalls)
    exact ((List.forall₂_and_left _ _).mp hframes).1 _ (List.mem_map_of_mem hframed)
  · intro hagree
    refine ⟨outputs, final, hrun, hfinal, hlength, ?_⟩
    intro i calls hcalls
    have hi : i < rows.count := hlength ▸ (List.getElem?_eq_some_iff.mp hcalls).1
    have hframes : ∀ aggregate ∈ framedAggregates functions,
        rows.frameRows rows.groupNotAfter aggregate.1 i =
          rows.frameRows rows.notAfter aggregate.1 i := by
      intro aggregate hmem
      obtain ⟨framed, hframed, rfl⟩ := List.mem_map.mp hmem
      apply frameRows_congr hi
      intro huses p q hp hq
      have hruns := runStart_eq_of_agree (hagree framed hframed huses)
      rw [Bool.eq_iff_iff, rows.notAfter_iff (hsorted framed hframed huses) hp hq, groupNotAfter,
        decide_eq_true_eq, hruns p hp, hruns q hq]
    exact ((List.forall₂_and_left _ _).mpr ⟨hframes, houtputs i calls hcalls⟩).imp
      fun aggregate call h => ⟨h.2.frame.trans h.1, h.1 ▸ h.2.output⟩

end Order

end Rows

/-- A partition of two rows with the same double, which is their order. -/
def twoDoubles (bits : UInt64) : PartitionRows Double where
  pagesIndex := { row := fun _ => ⟨bits⟩, getLong := fun _ _ => none }
  partitionStart := 0
  partitionEnd := 2
  positionEqualsRow left right := DoubleType.equals left.bits right.bits
  nonempty := by decide
  partitionEnd_lt := by decide

/-- `count(*)`. -/
def countFactory : AccumulatorFactory Double ℕ ℕ := ⟨0, fun count _ => count + 1, fun n => (n, n)⟩

theorem countFactory_repeatable : countFactory.Repeatable := by
  intro state rows h
  have hcount : state = rows.foldl countFactory.addInput countFactory.createAccumulator := by
    induction h with
    | createAccumulator => rfl
    | addInput row _ ih => rw [List.foldl_append, ← ih]; rfl
    | evaluateFinal _ ih => exact ih
  rw [hcount]
  rfl

/-- `count(*)` over the peers of the current row. -/
def countOfPeers : FrameInfo × AggregateWindowFunction Double ℕ ℕ :=
  (⟨.range, .currentRow, -1, .currentRow, -1⟩, .new countFactory)

theorem twoDoubles_accepts (bits : UInt64) :
    (∀ framed ∈ [countOfPeers], (twoDoubles bits).Accepts framed.1) ∧
      (∀ framed ∈ [countOfPeers], framed.2.accumulatorFactory.Repeatable) ∧
      ∀ framed ∈ [countOfPeers], framed.1.UsesPeers → (twoDoubles bits).Sorted := by
  simp only [List.forall_mem_singleton]
  exact ⟨⟨rfl, fun h => absurd h (by decide), fun h => absurd h (by decide)⟩,
    countFactory_repeatable, fun _ _ _ _ _ => le_rfl⟩

/-- `max(x, 2)`, whose heap is empty once it was evaluated. -/
def maxTwo : AccumulatorFactory ℕ (List ℕ) (Option (List ℕ)) where
  createAccumulator := []
  addInput heap value := (heap.orderedInsert (· ≥ ·) value).take 2
  evaluateFinal heap := (if heap = [] then none else some heap, [])

/-- A partition of the rows one and two. -/
def oneAndTwo : PartitionRows ℕ where
  pagesIndex := { row := (· + 1), getLong := fun _ _ => none }
  partitionStart := 0
  partitionEnd := 2
  positionEqualsRow left right := left == right
  nonempty := by decide
  partitionEnd_lt := by decide

end Presto.Operator.Window
