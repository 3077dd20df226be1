import Roaring.Bitmap.Basic

/-!
# Changing bitmaps

Adding and removing single values and lists of values, and the changes that touch every container
alike. A key whose container loses its last value leaves the index.
-/
namespace Roaring.Bitmap

/-! ## Single values -/

/-- Adds a value; also whether it was absent. -/
def insert (b : Bitmap) (v : UInt32) : Bool × Bitmap :=
  match Index.get? b.entries (highHalf v) with
  | some c =>
    let (added, c) := c.insert b.thresholds (lowHalf v)
    (added, b.withEntries (Index.alter b.entries (highHalf v) fun _ => some c))
  | none =>
    let (_, c) := (∅ : Container).insert b.thresholds (lowHalf v)
    (true, b.withEntries (Index.alter b.entries (highHalf v) fun _ => some c))

/-- A container, unless it is empty. -/
def nonEmpty (c : Container) : Option Container := if c.isEmpty then none else some c

/-- Removes a value; also whether it was there. -/
def erase (b : Bitmap) (v : UInt32) : Bool × Bitmap :=
  match Index.get? b.entries (highHalf v) with
  | some c =>
    let (removed, c) := c.erase b.thresholds (lowHalf v)
    (removed, b.withEntries (Index.alter b.entries (highHalf v) fun _ => nonEmpty c))
  | none => (false, b)

/-- Adds a value to the container at a known place. -/
def insertAt (b : Bitmap) (i : Nat) (low : UInt16) : Bitmap :=
  b.withEntries (b.entries.modify i fun e =>
    { e with container := (e.container.insert b.thresholds low).2 })

/-- Adds one of the values of a list. `last` is the upper half of the value before it and the place
of its container, so that a stretch of values with one upper half looks it up once. -/
def insertNext : Bitmap × Option (UInt16 × Nat) → UInt32 → Bitmap × Option (UInt16 × Nat)
  | (b, last), v =>
    match last.filter (·.1 = highHalf v) with
    | some (_, i) => (b.insertAt i (lowHalf v), last)
    | none =>
      let b := (b.insert v).2
      (b, (Index.find? b.entries (highHalf v)).map (highHalf v, ·))

/-- Adds the values of a list, in any order and with repetitions. -/
def insertAll (b : Bitmap) (vs : Array UInt32) : Bitmap := (vs.foldl insertNext (b, none)).1

/-- The bitmap of the values of a list, under the standard thresholds. -/
def ofValues (vs : Array UInt32) : Bitmap := (∅ : Bitmap).insertAll vs

/-! ## All containers -/

/-- Removes every value. -/
def clear (b : Bitmap) : Bitmap := b.withEntries #[]

/-- Changes every container. -/
def mapContainers (f : Container → Container) (b : Bitmap) : Bitmap :=
  b.withEntries (b.entries.map fun e => { e with container := f e.container })

/-- Turns containers to runs where that is smaller; also whether any consists of runs then. -/
def runOptimize (b : Bitmap) : Bool × Bitmap :=
  let b := b.mapContainers (Container.preferRuns b.thresholds)
  (b.entries.any (·.container.encoding = .run), b)

/-- Turns every run list to an array or a bitset; also whether there was any. -/
def removeRuns (b : Bitmap) : Bool × Bitmap :=
  (b.entries.any (·.container.encoding = .run),
    b.mapContainers fun c => (c.removeRuns b.thresholds).2)

end Roaring.Bitmap
