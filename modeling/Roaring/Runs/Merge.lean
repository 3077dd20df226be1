import Roaring.Runs.Append

/-!
# Merging runs

The set operations on run lists whose runs are sorted and never overlap. Union and symmetric
difference visit the runs of both operands by their start and append or toggle each; intersection
and difference walk both lists once, cutting runs where the other operand begins and ends.
Operands are oldest first; outputs, being under construction, are newest first.
-/
namespace Roaring.Runs

/-- The runs of both lists by their start, those of the first list before equal ones. -/
def byStart (as bs : List Run) : List Run := List.merge as bs fun a b => a.first ≤ b.first

def unionList (as bs : List Run) : List Run :=
  (byStart as bs).foldl (fun out r => append r out) []

def symmDiffList (as bs : List Run) : List Run :=
  (byStart as bs).foldl (fun out r => toggle r out) []

/-- Adds to `out` the parts that a run of each list share. -/
def interFrom : List Run → List Run → List Run → List Run
  | [], _, out => out
  | _, [], out => out
  | a :: as, b :: bs, out =>
    if a.stop ≤ b.first.toNat then interFrom as (b :: bs) out
    else if b.stop ≤ a.first.toNat then interFrom (a :: as) bs out
    else
      let shared := Run.ofBounds (max a.first.toNat b.first.toNat) (min a.stop b.stop)
      if a.stop < b.stop then interFrom as (b :: bs) (shared :: out)
      else if b.stop < a.stop then interFrom (a :: as) bs (shared :: out)
      else interFrom as bs (shared :: out)
termination_by as bs => as.length + bs.length

/-- Adds to `out` the values of `[start, stop)` and of the runs `as` after it that `bs` lacks. -/
def diffFrom (start stop : Nat) : List Run → List Run → List Run → List Run
  | as, [], out => as.reverse ++ .ofBounds start stop :: out
  | as, b :: bs, out =>
    if stop ≤ b.first.toNat then
      match as with
      | [] => .ofBounds start stop :: out
      | a :: as => diffFrom a.first.toNat a.stop as (b :: bs) (.ofBounds start stop :: out)
    else if b.stop ≤ start then diffFrom start stop as bs out
    else
      let out := if start < b.first.toNat then .ofBounds start b.first.toNat :: out else out
      if b.stop < stop then diffFrom b.stop stop as bs out
      else match as with
        | [] => out
        | a :: as => diffFrom a.first.toNat a.stop as (b :: bs) out
termination_by as bs => as.length + bs.length

/-- The values of the first list that the second lacks. -/
def diffList : List Run → List Run → List Run
  | [], _ => []
  | a :: as, bs => diffFrom a.first.toNat a.stop as bs []

/-- Adds to `out` the values of `[start, stop)` that a sorted list of values lacks, and returns the
values past that range too. -/
def cutValues (start stop : Nat) : List UInt16 → List Run → List Run × List UInt16
  | [], out => (if start < stop then .ofBounds start stop :: out else out, [])
  | v :: vs, out =>
    if stop ≤ v.toNat then (if start < stop then .ofBounds start stop :: out else out, v :: vs)
    else if v.toNat < start then cutValues start stop vs out
    else
      cutValues (v.toNat + 1) stop vs
        (if start < v.toNat then .ofBounds start v.toNat :: out else out)

/-- Adds to `out` the values of the runs that a sorted list of values lacks. -/
def diffValuesFrom : List Run → List UInt16 → List Run → List Run
  | [], _, out => out
  | r :: rs, vs, out =>
    let (out, vs) := cutValues r.first.toNat r.stop vs out
    diffValuesFrom rs vs out

def union (a b : Array Run) : Array Run := finish (unionList a.toList b.toList)

def inter (a b : Array Run) : Array Run := finish (interFrom a.toList b.toList [])

def diff (a b : Array Run) : Array Run := finish (diffList a.toList b.toList)

def symmDiff (a b : Array Run) : Array Run := finish (symmDiffList a.toList b.toList)

/-- The union with a sorted list of values. -/
def unionValues (runs : Array Run) (values : Array UInt16) : Array Run :=
  finish (unionList runs.toList (values.toList.map .single))

/-- The symmetric difference with a sorted list of values. -/
def symmDiffValues (runs : Array Run) (values : Array UInt16) : Array Run :=
  finish (symmDiffList runs.toList (values.toList.map .single))

/-- The values of the runs that a sorted list of values lacks. -/
def diffValues (runs : Array Run) (values : Array UInt16) : Array Run :=
  finish (diffValuesFrom runs.toList values.toList [])

/-- Whether every value of the first list is in the second. Runs never touch, so each has to lie
within a single run of the other list. -/
def isSubsetList : List Run → List Run → Bool
  | [], _ => true
  | a :: as, bs =>
    match bs.dropWhile (·.last < a.first.toNat) with
    | [] => false
    | b :: bs => b.first ≤ a.first && a.last ≤ b.last && isSubsetList as (b :: bs)

/-- Adds to `n` the number of values in both lists. -/
def interCountFrom : List Run → List Run → Nat → Nat
  | [], _, n => n
  | _, [], n => n
  | a :: as, b :: bs, n =>
    let n := n + (min a.stop b.stop - max a.first.toNat b.first.toNat)
    if a.last < b.last then interCountFrom as (b :: bs) n else interCountFrom (a :: as) bs n
termination_by as bs => as.length + bs.length

/-- Whether the lists share a value. -/
def intersectsList : List Run → List Run → Bool
  | [], _ => false
  | _, [] => false
  | a :: as, b :: bs =>
    if a.last < b.first.toNat then intersectsList as (b :: bs)
    else if b.last < a.first.toNat then intersectsList (a :: as) bs
    else true
termination_by as bs => as.length + bs.length

def isSubset (a b : Array Run) : Bool := isSubsetList a.toList b.toList

def interCount (a b : Array Run) : Nat := interCountFrom a.toList b.toList 0

def intersects (a b : Array Run) : Bool := intersectsList a.toList b.toList

end Roaring.Runs
