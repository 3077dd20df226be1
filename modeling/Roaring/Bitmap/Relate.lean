import Roaring.Bitmap.Basic
import Roaring.Container.Relate

/-!
# Relations between bitmaps

Inclusion, overlap and the number of values of a result, found without building it.
-/
namespace Roaring

namespace Index

/-- Whether every value of the first entries is in the second ones. -/
def isSubset : List Entry → List Entry → Bool
  | [], _ => true
  | _ :: _, [] => false
  | a :: as, b :: bs =>
    if a.key = b.key then a.container.isSubset b.container && isSubset as bs
    else if a.key < b.key then false
    else isSubset (a :: as) bs

/-- Whether some value is in both lists of entries. -/
def intersects : List Entry → List Entry → Bool
  | [], _ => false
  | _, [] => false
  | a :: as, b :: bs =>
    if a.key = b.key then a.container.intersects b.container || intersects as bs
    else if a.key < b.key then intersects as (b :: bs)
    else intersects (a :: as) bs
termination_by as bs => as.length + bs.length

/-- Adds to `n` the number of values in both lists of entries. -/
def interCardFrom : List Entry → List Entry → Nat → Nat
  | [], _, n => n
  | _, [], n => n
  | a :: as, b :: bs, n =>
    if a.key = b.key then interCardFrom as bs (n + a.container.interCard b.container)
    else if a.key < b.key then interCardFrom as (b :: bs) n
    else interCardFrom (a :: as) bs n
termination_by as bs => as.length + bs.length

end Index

namespace Bitmap

/-- Whether every value of the left operand is in the right one. -/
def isSubset (a b : Bitmap) : Bool := Index.isSubset a.entries.toList b.entries.toList

/-- Whether some value is in both operands. -/
def intersects (a b : Bitmap) : Bool := Index.intersects a.entries.toList b.entries.toList

/-- The number of values in both operands. -/
def interCard (a b : Bitmap) : Nat := Index.interCardFrom a.entries.toList b.entries.toList 0

/-- The number of values that the operation on two bitmaps yields. -/
def opCard (op : SetOp) (a b : Bitmap) : Nat :=
  match op with
  | .inter => interCard a b
  | .union => a.card + b.card - interCard a b
  | .diff => a.card - interCard a b
  | .symmDiff => a.card + b.card - 2 * interCard a b

end Bitmap

end Roaring
