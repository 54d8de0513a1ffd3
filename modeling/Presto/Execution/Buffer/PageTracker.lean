import Presto.Execution.Buffer.ClientBuffer

/-!
# Reference counts and memory of buffered pages

A page is shared by the buffers that hold it and is released when its last reference is
dropped.  The page tracker is told about released pages: it counts the outstanding pages of
each lifespan and hands the memory back.  The counts, the memory manager and the tracker of
one output buffer are one record here.  A check of the counting that fails is recorded in
`failures`; the code throws there.
-/

namespace Presto.Execution.Buffer

variable {δ : Type*}

/-- The reference counts by the identity of the reference, the memory manager, the lifespan
counters, and which references have been released. -/
structure PageTracker where
  referenceCount : ℕ → ℤ
  bufferedBytes : ℤ
  closed : Bool
  outstandingPageCountPerLifespan : Lifespan → Option ℤ
  noMorePagesForLifespan : List Lifespan
  lifespanCompletionCallback : Bool
  completedLifespans : List Lifespan
  /-- The counter of the broadcast buffer's own listener. -/
  totalBufferedPages : Option ℤ
  released : List ℕ
  failures : List Throwable

/-- The run of released pages of one lifespan that has not been reported yet. -/
structure ReleasedRun where
  lifespan : Lifespan
  pages : ℤ
  bytes : ℤ

namespace PageTracker

def create (counting : Bool) : PageTracker where
  referenceCount := fun _ => 0
  bufferedBytes := 0
  closed := false
  outstandingPageCountPerLifespan := fun _ => none
  noMorePagesForLifespan := []
  lifespanCompletionCallback := false
  completedLifespans := []
  totalBufferedPages := if counting then some 0 else none
  released := []
  failures := []

variable (t : PageTracker)

def check (condition : Bool) (failure : Throwable) : PageTracker :=
  if condition then t else { t with failures := t.failures ++ [failure] }

def updateMemoryUsage (bytesAdded : ℤ) : PageTracker :=
  if t.closed then t else { t with bufferedBytes := t.bufferedBytes + bytesAdded }

def close : PageTracker :=
  { t.updateMemoryUsage (-t.bufferedBytes) with closed := true }

def incrementLifespanPageCount (lifespan : Lifespan) (pagesAdded : ℤ) : PageTracker :=
  { t with
    outstandingPageCountPerLifespan :=
      Function.update t.outstandingPageCountPerLifespan lifespan
        (some ((t.outstandingPageCountPerLifespan lifespan).getD 0 + pagesAdded)) }

def isNoMorePagesForLifespan (lifespan : Lifespan) : Bool :=
  lifespan ∈ t.noMorePagesForLifespan

/-- The constructor of a reference, with a count of one. -/
def createReference (page : SerializedPageReference δ) : PageTracker :=
  { t with referenceCount := Function.update t.referenceCount page.id 1 }

def addReference (page : SerializedPageReference δ) : PageTracker :=
  { t with
    referenceCount :=
      Function.update t.referenceCount page.id (t.referenceCount page.id + 1) }.check
    (decide (0 < t.referenceCount page.id)) (.illegalState "Page has already been dereferenced")

def dereferencePage (page : SerializedPageReference δ) : PageTracker × Bool :=
  let remainingReferences := t.referenceCount page.id - 1
  let t := { t with
    referenceCount := Function.update t.referenceCount page.id remainingReferences
    released := if remainingReferences = 0 then t.released ++ [page.id] else t.released }
  (t.check (decide (0 ≤ remainingReferences)) (.illegalState "Page reference count is negative"),
    decide (remainingReferences = 0))

/-- The completion callback when the last page of an ended lifespan is released. -/
def completeLifespan (lifespan : Lifespan) (outstanding : ℤ) : PageTracker :=
  if outstanding = 0 && t.isNoMorePagesForLifespan lifespan then
    { t with completedLifespans := t.completedLifespans ++ [lifespan] }.check
      t.lifespanCompletionCallback (.illegalState "lifespanCompletionCallback is not null")
  else t

/-- The listener of the broadcast buffer. -/
def childListener (releasedPageCount : ℤ) : PageTracker :=
  match t.totalBufferedPages with
  | none => t
  | some total =>
      { t with totalBufferedPages := some (total - releasedPageCount) }.check
        (decide (0 ≤ total - releasedPageCount)) (.illegalState "")

def onPagesReleased (run : ReleasedRun) : PageTracker :=
  match t.outstandingPageCountPerLifespan run.lifespan with
  | none => { t with failures := t.failures ++ [.nullPointer] }
  | some count =>
      let outstanding := count - run.pages
      let t := { t with
        outstandingPageCountPerLifespan :=
          Function.update t.outstandingPageCountPerLifespan run.lifespan (some outstanding) }
      ((t.completeLifespan run.lifespan outstanding).updateMemoryUsage (-run.bytes)).childListener
        run.pages

/-- The loop of `dereferencePages`: the released pages are reported in runs of one
lifespan. -/
def dereferenceLoop (t : PageTracker) (current : Option ReleasedRun) :
    List (SerializedPageReference δ) → PageTracker
  | [] =>
      match current with
      | none => t
      | some run => t.onPagesReleased run
  | page :: pages =>
      let (t, last) := t.dereferencePage page
      if last then
        match current with
        | none => t.dereferenceLoop (some ⟨page.lifespan, 1, page.retainedSizeInBytes⟩) pages
        | some run =>
            if page.lifespan = run.lifespan then
              t.dereferenceLoop
                (some ⟨run.lifespan, run.pages + 1, run.bytes + page.retainedSizeInBytes⟩) pages
            else
              (t.onPagesReleased run).dereferenceLoop
                (some ⟨page.lifespan, 1, page.retainedSizeInBytes⟩) pages
      else t.dereferenceLoop current pages

def dereferencePages (pages : List (SerializedPageReference δ)) : PageTracker :=
  t.dereferenceLoop none pages

def addReferences (pages : List (SerializedPageReference δ)) : PageTracker :=
  pages.foldl addReference t

def createReferences (pages : List (SerializedPageReference δ)) : PageTracker :=
  pages.foldl createReference t

end PageTracker
end Presto.Execution.Buffer
