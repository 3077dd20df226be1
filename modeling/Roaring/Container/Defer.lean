import Roaring.Container.Absorb

/-!
# Deferring the finish

Chains of unions and symmetric differences need not settle the encoding at every step. The deferred
operations leave bitsets uncounted and runs as they come; `compact` settles the outcome once, at
the end of the chain. Intersection and difference have nothing to defer.
-/
namespace Roaring.Container

/-- The number of values up to which two arrays together are kept an array. -/
def deferBound (t : Thresholds) : Nat := min t.lazyArrayBound t.maxArraySize

/-- The values of either operand, unfinished. -/
def deferUnion (t : Thresholds) : Container → Container → Container
  | array a, array b =>
    if a.size + b.size ≤ deferBound t then union t (array a) (array b)
    else bitset (.uncounted ((Bitset.ofValues a).words.putAll b).1)
  | array a, bitset b => bitset (.uncounted (b.words.putAll a).1)
  | bitset b, array a => bitset (.uncounted (b.words.putAll a).1)
  | array a, run r => run (unionRunsArray r a)
  | run r, array a => run (unionRunsArray r a)
  | bitset a, bitset b => bitset (.uncounted (Words.combine .union a.words b.words))
  | bitset b, run r => deferRunBitset r b
  | run r, bitset b => deferRunBitset r b
  | run a, run b => run (unionRuns a b)
where
  deferRunBitset (r : Array Run) (b : Bitset) : Container :=
    if Runs.isFull r then run r else bitset ((Bitset.uncounted b.words).insertRuns r)

/-- The symmetric difference of two arrays, unfinished. -/
def deferSymmDiffArrays (t : Thresholds) (a b : Array UInt16) : Container :=
  if a.size + b.size ≤ deferBound t then symmDiffArrays t a b
  else bitset (.uncounted ((Bitset.ofValues a).words.flipAll b).1)

/-- The values of exactly one operand, unfinished. -/
def deferSymmDiff (t : Thresholds) : Container → Container → Container
  | array a, array b => deferSymmDiffArrays t a b
  | array a, bitset b => bitset (.uncounted (b.words.flipAll a).1)
  | bitset b, array a => bitset (.uncounted (b.words.flipAll a).1)
  | array a, run r => deferRunArray r a
  | run r, array a => deferRunArray r a
  | bitset a, bitset b => bitset (.uncounted (Words.combine .symmDiff a.words b.words))
  | bitset b, run r => bitset ((Bitset.uncounted b.words).toggleRuns r)
  | run r, bitset b => bitset ((Bitset.uncounted b.words).toggleRuns r)
  | run a, run b => run (Runs.symmDiff a b)
where
  deferRunArray (r : Array Run) (a : Array UInt16) : Container :=
    if a.size < t.xorSmallArray then run (Runs.symmDiffValues r a)
    else if Runs.card r ≤ t.maxArraySize then deferSymmDiffArrays t (Runs.values r) a
    else bitset (.uncounted ((Bitset.ofRuns r).words.flipAll a).1)

/-- The operation on two containers, unfinished. -/
def defer (t : Thresholds) (op : SetOp) (a b : Container) : Container :=
  match op with
  | .inter => combine t .inter a b
  | .diff => combine t .diff a b
  | .union => deferUnion t a b
  | .symmDiff => deferSymmDiff t a b

/-- The words of a bitset after it took in the values of a container. -/
def takeIn (ws : Words) : Container → Words
  | array vs => (ws.putAll vs).1
  | bitset b => Words.combine .union ws b.words
  | run rs => rs.foldl (fun ws r => ws.putRange r.first.toNat r.stop) ws

/-- The words of a bitset after the values of a container were toggled in it. -/
def toggleIn (ws : Words) : Container → Words
  | array vs => (ws.flipAll vs).1
  | bitset b => Words.combine .symmDiff ws b.words
  | run rs => rs.foldl (fun ws r => ws.flipRange r.first.toNat r.stop) ws

/-- The operation on two containers in the place of the left one, unfinished. A bitset takes in any
operand's values without counting. -/
def absorbDeferred (t : Thresholds) (op : SetOp) (a b : Container) : Container :=
  match op, a with
  | .inter, a => absorb t .inter a b
  | .diff, a => absorb t .diff a b
  | .union, bitset s => bitset (.uncounted (takeIn s.words b))
  | .symmDiff, bitset s => bitset (.uncounted (toggleIn s.words b))
  | op, a => defer t op a b

end Roaring.Container
