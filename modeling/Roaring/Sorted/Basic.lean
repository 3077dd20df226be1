import Roaring.Search

/-!
# Sorted values

A set of 16 bit values as the strictly increasing array of its members: membership, rank and
ranges by binary search, and the insertion or removal of one value.
-/
namespace Roaring.Sorted

/-- The invariant of an array of values: each is smaller than the next. -/
def Increasing (a : Array UInt16) : Prop := a.toList.Pairwise (· < ·)

instance (a : Array UInt16) : Decidable (Increasing a) :=
  inferInstanceAs (Decidable (a.toList.Pairwise (· < ·)))

/-- The index of the first value that is at least `v`. -/
def lowerBound (a : Array UInt16) (v : UInt16) : Nat := countWhile (· < v) a

def contains (a : Array UInt16) (v : UInt16) : Bool := a[lowerBound a v]? = some v

/-- The number of values at most `v`. -/
def rank (a : Array UInt16) (v : UInt16) : Nat :=
  lowerBound a v + if contains a v then 1 else 0

/-- Whether every value of `[start, stop)` is held. The values are distinct and sorted, so the
range is there exactly when its first value is and its last one lies as far behind as it should. -/
def containsRange (a : Array UInt16) (start stop : Nat) : Bool :=
  if stop ≤ start then true
  else if 65536 < stop then false
  else if a.size < stop - start then false
  else
    let i := lowerBound a start.toUInt16
    a[i]? = some start.toUInt16 &&
      match a[i + (stop - start) - 1]? with
      | some v => v.toNat = stop - 1
      | none => false

/-- Adds a value unless it is there. -/
def insert (a : Array UInt16) (v : UInt16) : Array UInt16 :=
  if contains a v then a else a.insertIdxIfInBounds (lowerBound a v) v

/-- Removes a value if it is there. -/
def erase (a : Array UInt16) (v : UInt16) : Array UInt16 :=
  if contains a v then a.eraseIdxIfInBounds (lowerBound a v) else a

/-- Adds a value unless the array holds `max` values without it; false when it stays absent. -/
def insertWithin (max : Nat) (a : Array UInt16) (v : UInt16) : Bool × Array UInt16 :=
  if contains a v then (true, a)
  else if max ≤ a.size then (false, a)
  else (true, insert a v)

/-- Adds to `n` the number of runs of consecutive values in a list whose values come after
`previous`. -/
def numRunsFrom : Option UInt16 → List UInt16 → Nat → Nat
  | _, [], n => n
  | previous, v :: vs, n =>
    numRunsFrom (some v) vs (if previous.any (·.toNat + 1 = v.toNat) then n else n + 1)

/-- The number of runs of consecutive values. -/
def numRuns (a : Array UInt16) : Nat := numRunsFrom none a.toList 0

end Roaring.Sorted
