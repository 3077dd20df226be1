import Roaring.Container.Combine

/-!
# Relations between containers

Inclusion, overlap and the size of the intersection, found without building a result.
-/
namespace Roaring.Container

/-- Whether every value of the left operand is in the right one. -/
def isSubset (a b : Container) : Bool :=
  if b.card < a.card then false
  else
    match a, b with
    | bitset a, bitset b => Words.isSubset a.words b.words
    | run a, run b => Runs.isSubset a b
    | run a, bitset b => a.all fun r => b.containsRange r.first.toNat r.stop
    | array a, run b => Runs.holdsAll b a
    | array a, array b => Sorted.isSubset a b
    | a, b => a.values.all b.contains

/-- Whether some value is in both operands. -/
def intersects : Container → Container → Bool
  | bitset a, bitset b => Words.intersects a.words b.words
  | run a, run b => Runs.intersects a b
  | run r, bitset b => runsMeet r b
  | bitset b, run r => runsMeet r b
  | array a, array b => 0 < Sorted.interCount a b
  | array a, b => a.any b.contains
  | a, array b => b.any a.contains
where
  runsMeet (r : Array Run) (b : Bitset) : Bool :=
    r.any fun r => 0 < b.words.countRange r.first.toNat r.stop

/-- The number of values in both operands. -/
def interCard : Container → Container → Nat
  | bitset a, bitset b => Words.interCount a.words b.words
  | run a, run b => Runs.interCount a b
  | run r, bitset b => b.countRuns r
  | bitset b, run r => b.countRuns r
  | array a, array b => Sorted.interCount a b
  | array a, b => a.countP b.contains
  | a, array b => b.countP a.contains

end Roaring.Container
