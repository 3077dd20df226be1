import Roaring.Container.Overrun

/-!
# Operations in the left operand's storage

An operation between two encodings works in the storage of the left operand where that can hold the
result, and then chooses the cheapest encoding. A result in another encoding is handed back as a
container to move into the place; until that happens the left operand stays as the operation has
left it.
-/
namespace Roaring.Container

/-- A container as an operation leaves it, and the one that is to take its place, if any. -/
structure Left where
  own : Container
  replacement : Option Container
deriving DecidableEq

/-- What stands in the place in the end. -/
def Left.final (l : Left) : Container := l.replacement.getD l.own

/-- The choice of the cheapest encoding, with another encoding handed back. A bitset is counted
either way. -/
def compactInPlace (t : Thresholds) : Container → Left
  | array vs => ⟨array vs, if vs.size ≤ t.maxArraySize then none else some (bitset (.ofValues vs))⟩
  | bitset b =>
    let b := if b.cached.isSome then b else b.recount
    ⟨bitset b, if b.card ≤ t.maxArraySize then some (array b.words.values) else none⟩
  | run rs =>
    ⟨run rs, if runBytes rs.size ≤ plainSize t (Runs.card rs) then none else some (expandRuns t rs)⟩

/-- The same runs are written into bitsets as by `compact`. -/
def compactInPlace? (t : Thresholds) (c : Container) : Option Left :=
  unlessOverrun (compactWrites t c) (compactInPlace t c)

/-- An array edited in its own storage; none where the result is built anew. -/
def editArray? (t : Thresholds) (op : SetOp) (a : Array UInt16) (b : Container) :
    Option (Array UInt16) :=
  match op, b with
  | .inter, array b => some (Sorted.keepShared a b)
  | .inter, bitset b => some (a.filter b.contains)
  | .inter, run r => some (if Runs.isFull r then a else Runs.keepHeld r a)
  | .union, array b =>
    if t.maxArraySize < a.size + b.size then none else some (Sorted.union a b)
  | .diff, array b => some (Sorted.dropShared a b)
  | .diff, bitset b => some (a.filter fun v => !b.contains v)
  | .diff, run r => some (Runs.dropHeld r a)
  | .symmDiff, array b =>
    if t.maxArraySize < a.size + b.size then none else some (Sorted.symmDiff a b)
  | _, _ => none

/-- A bitset edited in its own storage; none where the result is built anew. -/
def editBitset? (op : SetOp) (a : Bitset) (b : Container) : Option Bitset :=
  match op, b with
  | op, bitset b => some (combineWords op a b)
  | .inter, array _ => none
  | .inter, run r => some (if Runs.isFull r then a else a.eraseGaps r)
  | .union, array vs => some (a.insertAll vs)
  | .union, run r => if Runs.isFull r then none else some (a.insertRuns r)
  | .diff, array vs => some (a.eraseAll vs)
  | .diff, run r => some (a.eraseRuns r)
  | .symmDiff, array vs => some (a.toggleAll vs)
  | .symmDiff, run r => some (a.toggleRuns r)

/-- The left operand edited in its own storage; none where the result is built anew. -/
def edit? (t : Thresholds) (op : SetOp) (a b : Container) : Option Container :=
  match a with
  | array vs => (editArray? t op vs b).map array
  | bitset s => (editBitset? op s b).map bitset
  | run _ => none

/-- The operation on two containers in the storage of the left one. -/
def absorbInPlace (t : Thresholds) (op : SetOp) (a b : Container) : Left :=
  match edit? t op a b with
  | some c => compactInPlace t c
  | none => ⟨a, some (combine t op a b)⟩

/-- The same runs are written into bitsets as in a new container. -/
def absorbInPlace? (t : Thresholds) (op : SetOp) (a b : Container) : Option Left :=
  unlessOverrun (combineWrites t op a b) (absorbInPlace t op a b)

end Roaring.Container
