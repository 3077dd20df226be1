import Roaring.Container.Convert
import Roaring.Runs.Merge
import Roaring.Runs.Tracker
import Roaring.Sorted.Merge

/-!
# Combining containers

The four set operations on two containers, for every pair of encodings, each with a new container
in its cheapest encoding as the result. The kernel for a pair is chosen by the encodings, by the
number of values and by the thresholds: small results are built as arrays from the start, large
ones as bitsets, and a full run list is recognised before any work is done. Intersection, union
and symmetric difference treat their operands alike, so two orders of a pair share one kernel.
-/
namespace Roaring.Container

/-- The bitset of two word vectors combined. -/
def combineWords (op : SetOp) (a b : Bitset) : Bitset := .counted (Words.combine op a.words b.words)

/-- The intersection of two run lists, as runs. -/
def interRuns (a b : Array Run) : Array Run :=
  if Runs.isFull a then b else if Runs.isFull b then a else Runs.inter a b

/-- The values of both operands. A result too small for a bitset is never built as one. -/
def inter (t : Thresholds) : Container → Container → Container
  | array a, array b => compactArray t (Sorted.inter a b)
  | array a, bitset b => compactArray t (a.filter b.contains)
  | bitset b, array a => compactArray t (a.filter b.contains)
  | array a, run r => interArrayRun a r
  | run r, array a => interArrayRun a r
  | bitset a, bitset b =>
    if Words.interCount a.words b.words ≤ t.maxArraySize then
      array (Words.combine .inter a.words b.words).values
    else bitset (combineWords .inter a b)
  | bitset b, run r => interRunBitset r b
  | run r, bitset b => interRunBitset r b
  | run a, run b => compactRuns t (interRuns a b)
where
  interArrayRun (a : Array UInt16) (r : Array Run) : Container :=
    compactArray t (if Runs.isFull r then a else Runs.keepHeld r a)
  interRunBitset (r : Array Run) (b : Bitset) : Container :=
    if Runs.isFull r then compactBitset t b
    else if Runs.card r ≤ t.maxArraySize then array ((Runs.values r).filter b.contains)
    else compactBitset t (b.eraseGaps r)

/-- The union of runs with an array, as runs. -/
def unionRunsArray (r : Array Run) (a : Array UInt16) : Array Run :=
  if Runs.isFull r then r else Runs.unionValues r a

/-- The union of two run lists, as runs. -/
def unionRuns (a b : Array Run) : Array Run :=
  if Runs.isFull a then a else if Runs.isFull b then b else Runs.union a b

/-- The values of either operand. Arrays whose union may be too large for an array are united as a
bitset. -/
def union (t : Thresholds) : Container → Container → Container
  | array a, array b =>
    if a.size + b.size ≤ t.maxArraySize then array (Sorted.union a b)
    else compactBitset t ((Bitset.ofValues a).insertAll b)
  | array a, bitset b => compactBitset t (b.insertAll a)
  | bitset b, array a => compactBitset t (b.insertAll a)
  | array a, run r => compactRuns t (unionRunsArray r a)
  | run r, array a => compactRuns t (unionRunsArray r a)
  | bitset a, bitset b => compactBitset t (combineWords .union a b)
  | bitset b, run r => unionRunBitset r b
  | run r, bitset b => unionRunBitset r b
  | run a, run b => compactRuns t (unionRuns a b)
where
  unionRunBitset (r : Array Run) (b : Bitset) : Container :=
    if Runs.isFull r then run r else compactBitset t (b.insertRuns r)

/-- The values of the left operand that the right one lacks. Runs with few values are cut down to
an array. -/
def diff (t : Thresholds) : Container → Container → Container
  | array a, array b => compactArray t (Sorted.diff a b)
  | array a, bitset b => compactArray t (a.filter fun v => !b.contains v)
  | array a, run r => if Runs.isFull r then ∅ else compactArray t (Runs.dropHeld r a)
  | bitset b, array a => compactBitset t (b.eraseAll a)
  | bitset a, bitset b => compactBitset t (combineWords .diff a b)
  | bitset b, run r => compactBitset t (b.eraseRuns r)
  | run r, array a =>
    if Runs.card r ≤ t.maxArraySize then array (Sorted.dropShared (Runs.values r) a)
    else compactRuns t (Runs.diffValues r a)
  | run r, bitset b =>
    if Runs.card r ≤ t.maxArraySize then
      array ((Runs.values r).filter fun v => !b.contains v)
    else compactBitset t (combineWords .diff (.ofRuns r) b)
  | run a, run b => compactRuns t (Runs.diff a b)

/-- The symmetric difference of two arrays. -/
def symmDiffArrays (t : Thresholds) (a b : Array UInt16) : Container :=
  if a.size + b.size ≤ t.maxArraySize then array (Sorted.symmDiff a b)
  else compactBitset t ((Bitset.ofValues a).toggleAll b)

/-- The values of exactly one operand. A small array is toggled in runs directly; a larger one goes
through an array or a bitset, by the number of values in the runs. -/
def symmDiff (t : Thresholds) : Container → Container → Container
  | array a, array b => symmDiffArrays t a b
  | array a, bitset b => compactBitset t (b.toggleAll a)
  | bitset b, array a => compactBitset t (b.toggleAll a)
  | array a, run r => symmDiffRunArray r a
  | run r, array a => symmDiffRunArray r a
  | bitset a, bitset b => compactBitset t (combineWords .symmDiff a b)
  | bitset b, run r => compactBitset t (b.toggleRuns r)
  | run r, bitset b => compactBitset t (b.toggleRuns r)
  | run a, run b => compactRuns t (Runs.symmDiff a b)
where
  symmDiffRunArray (r : Array Run) (a : Array UInt16) : Container :=
    if a.size < t.xorSmallArray then compactRuns t (Runs.symmDiffValues r a)
    else if Runs.card r ≤ t.maxArraySize then symmDiffArrays t (Runs.values r) a
    else compactBitset t ((Bitset.ofRuns r).toggleAll a)

/-- The operation on two containers, with a result in its cheapest encoding. -/
def combine (t : Thresholds) (op : SetOp) (a b : Container) : Container :=
  match op with
  | .inter => inter t a b
  | .union => union t a b
  | .diff => diff t a b
  | .symmDiff => symmDiff t a b

end Roaring.Container
