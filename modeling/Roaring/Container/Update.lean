import Roaring.Container.Absorb

/-!
# Single values and ranges

Adding, removing and toggling one value or a range of values. A single value is handled by the
encoding that holds it, which changes only where a size threshold is crossed; a range is absorbed
as a container of one run.
-/
namespace Roaring.Container

/-- Adds a value; also whether it was absent. An array that is full becomes a bitset. -/
def insert (t : Thresholds) (c : Container) (v : UInt16) : Bool × Container :=
  match c with
  | array vs =>
    if Sorted.contains vs v then (false, c)
    else
      match Sorted.insertWithin t.maxArraySize vs v with
      | (true, vs) => (true, array vs)
      | (false, vs) => (true, bitset ((Bitset.ofValues vs).insert v).2)
  | bitset b =>
    let (added, b) := b.insert v
    (added, bitset b)
  | run rs =>
    let (added, rs) := Runs.insert rs v
    (added, run rs)

/-- Removes a value; also whether it was there. A bitset that becomes small becomes an array. -/
def erase (t : Thresholds) (c : Container) (v : UInt16) : Bool × Container :=
  match c with
  | array vs => (Sorted.contains vs v, array (Sorted.erase vs v))
  | bitset b =>
    match b.erase v with
    | (true, b) => (true, compactBitset t b)
    | (false, b) => (false, bitset b)
  | run rs =>
    let (removed, rs) := Runs.erase rs v
    (removed, run rs)

/-- Absorbs the values in `[start, stop)`; those past the domain are left out, and without any the
container stays as it is. -/
def absorbRange (t : Thresholds) (op : SetOp) (c : Container) (start stop : Nat) : Container :=
  if start < min stop domainSize then absorb t op c (run (Runs.ofRange start stop)) else c

/-- Adds the values in `[start, stop)`. -/
def insertRange (t : Thresholds) (c : Container) (start stop : Nat) : Container :=
  absorbRange t .union c start stop

/-- Removes the values in `[start, stop)`. -/
def eraseRange (t : Thresholds) (c : Container) (start stop : Nat) : Container :=
  absorbRange t .diff c start stop

/-- Toggles the values in `[start, stop)`. -/
def toggleRange (t : Thresholds) (c : Container) (start stop : Nat) : Container :=
  absorbRange t .symmDiff c start stop

/-- Removes every value, keeping the encoding. -/
def clear (c : Container) : Container := empty c.encoding

end Roaring.Container
