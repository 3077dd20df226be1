import Roaring.Search

/-!
# Merging sorted values

The set operations on strictly increasing value lists. Each merge walks both lists once and
appends to an output that it never reads, so what is there already stays. The intersection of a
short list with a much longer one searches the long one instead of walking it.
-/
namespace Roaring.Sorted

/-- Appends the union. -/
def unionInto : List UInt16 → List UInt16 → Array UInt16 → Array UInt16
  | [], bs, out => out ++ bs
  | as, [], out => out ++ as
  | a :: as, b :: bs, out =>
    if a < b then unionInto as (b :: bs) (out.push a)
    else if b < a then unionInto (a :: as) bs (out.push b)
    else unionInto as bs (out.push a)
termination_by as bs => as.length + bs.length

/-- Appends the intersection. -/
def interInto : List UInt16 → List UInt16 → Array UInt16 → Array UInt16
  | [], _, out => out
  | _, [], out => out
  | a :: as, b :: bs, out =>
    if a < b then interInto as (b :: bs) out
    else if b < a then interInto (a :: as) bs out
    else interInto as bs (out.push a)
termination_by as bs => as.length + bs.length

/-- Appends the values of the first list that the second lacks. -/
def diffInto : List UInt16 → List UInt16 → Array UInt16 → Array UInt16
  | [], _, out => out
  | as, [], out => out ++ as
  | a :: as, b :: bs, out =>
    if a < b then diffInto as (b :: bs) (out.push a)
    else if a = b then diffInto as bs out
    else diffInto (a :: as) bs out
termination_by as bs => as.length + bs.length

/-- Appends the values of exactly one list. -/
def symmDiffInto : List UInt16 → List UInt16 → Array UInt16 → Array UInt16
  | [], bs, out => out ++ bs
  | as, [], out => out ++ as
  | a :: as, b :: bs, out =>
    if a = b then symmDiffInto as bs out
    else if a < b then symmDiffInto as (b :: bs) (out.push a)
    else symmDiffInto (a :: as) bs (out.push b)
termination_by as bs => as.length + bs.length

/-- The size of the intersection, added to `n`. -/
def interCountFrom : List UInt16 → List UInt16 → Nat → Nat
  | [], _, n => n
  | _, [], n => n
  | a :: as, b :: bs, n =>
    if a < b then interCountFrom as (b :: bs) n
    else if b < a then interCountFrom (a :: as) bs n
    else interCountFrom as bs (n + 1)
termination_by as bs => as.length + bs.length

/-- Appends the values of a list that a cursor through `large`, now at `i`, meets. -/
def gallopInto (large : Array UInt16) : List UInt16 → Nat → Array UInt16 → Array UInt16
  | [], _, out => out
  | v :: vs, i, out =>
    let j := advance (· < v) large i
    if h : j < large.size then
      gallopInto large vs j (if large[j] = v then out.push v else out)
    else out

/-- Appends the values of a list that a cursor through `other`, now at `i`, does not meet. -/
def gallopPastInto (other : Array UInt16) : List UInt16 → Nat → Array UInt16 → Array UInt16
  | [], _, out => out
  | v :: vs, i, out =>
    let j := advance (· < v) other i
    gallopPastInto other vs j (if other[j]? = some v then out else out.push v)

/-- Whether a cursor through `other`, now at `i`, meets every value of a list. -/
def gallopAll (other : Array UInt16) : List UInt16 → Nat → Bool
  | [], _ => true
  | v :: vs, i =>
    let j := advance (· < v) other i
    other[j]? = some v && gallopAll other vs j

/-- How many times longer one list has to be before the shorter one is searched in it. -/
def gallopRatio : Nat := 64

def union (a b : Array UInt16) : Array UInt16 := unionInto a.toList b.toList #[]

/-- The intersection, appended to `out`. -/
def interOnto (a b out : Array UInt16) : Array UInt16 :=
  if a.isEmpty ∨ b.isEmpty then out
  else if a.size * gallopRatio < b.size then gallopInto b a.toList 0 out
  else if b.size * gallopRatio < a.size then gallopInto a b.toList 0 out
  else interInto a.toList b.toList out

def inter (a b : Array UInt16) : Array UInt16 := interOnto a b #[]

def diff (a b : Array UInt16) : Array UInt16 := diffInto a.toList b.toList #[]

def symmDiff (a b : Array UInt16) : Array UInt16 := symmDiffInto a.toList b.toList #[]

/-- The size of the intersection. -/
def interCount (a b : Array UInt16) : Nat := interCountFrom a.toList b.toList 0

/-- The values of `a` that `b` holds too: the intersection by a cursor through `b`. -/
def keepShared (a b : Array UInt16) : Array UInt16 := gallopInto b a.toList 0 #[]

/-- The values of `a` that `b` lacks: the difference by a cursor through `b`. -/
def dropShared (a b : Array UInt16) : Array UInt16 := gallopPastInto b a.toList 0 #[]

/-- Whether `b` holds every value of `a`. -/
def isSubset (a b : Array UInt16) : Bool := gallopAll b a.toList 0

end Roaring.Sorted
