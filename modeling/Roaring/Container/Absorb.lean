import Roaring.Container.Combine

/-!
# Absorbing containers

The four set operations with the left operand's storage as the place of the result: an array is
thinned out by a cursor through the other operand, a bitset is changed bit by bit, range by range
or word by word. Where the left operand's storage cannot take the result, it is built anew by
`combine`. Either way the result is in its cheapest encoding.
-/
namespace Roaring.Container

/-- Keeps the values of the left operand that the right one holds. -/
def keepFrom (t : Thresholds) : Container → Container → Container
  | array a, array b => compactArray t (Sorted.keepShared a b)
  | array a, bitset b => compactArray t (a.filter b.contains)
  | array a, run r => compactArray t (if Runs.isFull r then a else Runs.keepHeld r a)
  | bitset a, bitset b => compactBitset t (combineWords .inter a b)
  | bitset b, run r => compactBitset t (if Runs.isFull r then b else b.eraseGaps r)
  | a, b => combine t .inter a b

/-- Adds the values of the right operand. -/
def addFrom (t : Thresholds) : Container → Container → Container
  | array a, array b =>
    if t.maxArraySize < a.size + b.size then combine t .union (array a) (array b)
    else array (Sorted.union a b)
  | bitset b, array a => compactBitset t (b.insertAll a)
  | bitset a, bitset b => compactBitset t (combineWords .union a b)
  | bitset b, run r => if Runs.isFull r then run r else compactBitset t (b.insertRuns r)
  | a, b => combine t .union a b

/-- Drops the values that the right operand holds. -/
def dropFrom (t : Thresholds) : Container → Container → Container
  | array a, array b => compactArray t (Sorted.dropShared a b)
  | array a, bitset b => compactArray t (a.filter fun v => !b.contains v)
  | array a, run r => compactArray t (Runs.dropHeld r a)
  | bitset b, array a => compactBitset t (b.eraseAll a)
  | bitset a, bitset b => compactBitset t (combineWords .diff a b)
  | bitset b, run r => compactBitset t (b.eraseRuns r)
  | a, b => combine t .diff a b

/-- Toggles the values of the right operand. -/
def toggleFrom (t : Thresholds) : Container → Container → Container
  | array a, array b =>
    if t.maxArraySize < a.size + b.size then combine t .symmDiff (array a) (array b)
    else array (Sorted.symmDiff a b)
  | bitset b, array a => compactBitset t (b.toggleAll a)
  | bitset a, bitset b => compactBitset t (combineWords .symmDiff a b)
  | bitset b, run r => compactBitset t (b.toggleRuns r)
  | a, b => combine t .symmDiff a b

/-- The operation on two containers, in the place of the left one. -/
def absorb (t : Thresholds) (op : SetOp) (a b : Container) : Container :=
  match op with
  | .inter => keepFrom t a b
  | .union => addFrom t a b
  | .diff => dropFrom t a b
  | .symmDiff => toggleFrom t a b

/-- The operation on a container and itself, in the container's place. -/
def absorbSelf (t : Thresholds) (op : SetOp) (c : Container) : Container :=
  match op with
  | .inter | .union => compact t c
  | .diff | .symmDiff => ∅

end Roaring.Container
