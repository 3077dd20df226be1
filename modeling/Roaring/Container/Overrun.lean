import Roaring.Container.Defer
import Roaring.Container.Relate
import Roaring.Container.Update

/-!
# Runs that overrun the domain

A run list that is built run by run can end in a run that goes on past the 16 bit domain. Such a
container answers queries and combines with lists of values and of runs, but a bitset has no room
for that run: an operation that has to write it into a bitset, or to count the bits under it, has
no result.

Each operation writes at most one list of runs into a bitset. The functions `…Writes` name that
list, and the operation with a question mark has the result of the plain one exactly when no run of
the list overruns.
-/
namespace Roaring.Container

/-- A result for which `written` goes into a bitset. -/
def unlessOverrun {α : Type} (written : Array Run) (result : α) : Option α :=
  if Runs.inDomain written then some result else none

theorem unlessOverrun_of_valid {α : Type} {written : Array Run} (h : Runs.Valid written)
    (result : α) : unlessOverrun written result = some result := by
  rw [unlessOverrun, if_pos (Runs.inDomain_of_valid h)]

/-! ## Conversions -/

/-- The runs that a conversion writes into a bitset. -/
def convertWrites (e : Encoding) (c : Container) : Array Run :=
  match c, e with
  | run rs, .bitset => rs
  | _, _ => #[]

/-- The runs that their expansion writes into a bitset. -/
def expandWrites (t : Thresholds) (rs : Array Run) : Array Run :=
  if Runs.card rs ≤ t.maxArraySize then #[] else rs

/-- The runs that the choice of their cheapest encoding writes into a bitset. -/
def compactRunsWrites (t : Thresholds) (rs : Array Run) : Array Run :=
  if runBytes rs.size ≤ plainSize t (Runs.card rs) then #[] else expandWrites t rs

/-- The runs that the choice of the cheapest encoding writes into a bitset. -/
def compactWrites (t : Thresholds) : Container → Array Run
  | run rs => compactRunsWrites t rs
  | _ => #[]

/-- The runs that turning away from runs writes into a bitset. -/
def removeRunsWrites (t : Thresholds) : Container → Array Run
  | run rs => expandWrites t rs
  | _ => #[]

def convert? (e : Encoding) (c : Container) : Option Container :=
  unlessOverrun (convertWrites e c) (convert e c)

def compact? (t : Thresholds) (c : Container) : Option Container :=
  unlessOverrun (compactWrites t c) (compact t c)

def runOptimize? (t : Thresholds) (c : Container) : Option (Bool × Container) :=
  unlessOverrun (compactWrites t c) (runOptimize t c)

def removeRuns? (t : Thresholds) (c : Container) : Option (Bool × Container) :=
  unlessOverrun (removeRunsWrites t c) (removeRuns t c)

/-! ## Operations on two containers -/

/-- The operation on two run lists, as runs. -/
def combineRuns : SetOp → Array Run → Array Run → Array Run
  | .inter => interRuns
  | .union => unionRuns
  | .diff => Runs.diff
  | .symmDiff => Runs.symmDiff

/-- The runs that `combine` writes into a bitset: those that a run list result is made of, or those
of an operand. An intersection clears the bits between runs and writes none. -/
def combineWrites (t : Thresholds) (op : SetOp) (a b : Container) : Array Run :=
  match op, a, b with
  | op, run a, run b => compactRunsWrites t (combineRuns op a b)
  | .union, array a, run r => compactRunsWrites t (unionRunsArray r a)
  | .union, run r, array a => compactRunsWrites t (unionRunsArray r a)
  | .union, bitset _, run r => r
  | .union, run r, bitset _ => r
  | .diff, bitset _, run r => r
  | .diff, run r, array a =>
    if Runs.card r ≤ t.maxArraySize then #[] else compactRunsWrites t (Runs.diffValues r a)
  | .diff, run r, bitset _ => expandWrites t r
  | .symmDiff, array a, run r => symmDiffRunArrayWrites r a
  | .symmDiff, run r, array a => symmDiffRunArrayWrites r a
  | .symmDiff, bitset _, run r => r
  | .symmDiff, run r, bitset _ => r
  | _, _, _ => #[]
where
  symmDiffRunArrayWrites (r : Array Run) (a : Array UInt16) : Array Run :=
    if a.size < t.xorSmallArray then compactRunsWrites t (Runs.symmDiffValues r a)
    else expandWrites t r

/-- The runs that `defer` writes into a bitset. Runs that it leaves as they come are not written. -/
def deferWrites (t : Thresholds) (op : SetOp) (a b : Container) : Array Run :=
  match op, a, b with
  | .inter, a, b => combineWrites t .inter a b
  | .diff, a, b => combineWrites t .diff a b
  | _, bitset _, run r => r
  | _, run r, bitset _ => r
  | .symmDiff, array a, run r => deferRunArrayWrites r a
  | .symmDiff, run r, array a => deferRunArrayWrites r a
  | _, _, _ => #[]
where
  deferRunArrayWrites (r : Array Run) (a : Array UInt16) : Array Run :=
    if a.size < t.xorSmallArray then #[] else expandWrites t r

def combine? (t : Thresholds) (op : SetOp) (a b : Container) : Option Container :=
  unlessOverrun (combineWrites t op a b) (combine t op a b)

/-- In the place of the left operand the same runs are written as in a new container. -/
def absorb? (t : Thresholds) (op : SetOp) (a b : Container) : Option Container :=
  unlessOverrun (combineWrites t op a b) (absorb t op a b)

def absorbSelf? (t : Thresholds) (op : SetOp) (c : Container) : Option Container :=
  match op with
  | .inter | .union => compact? t c
  | .diff | .symmDiff => some (absorbSelf t op c)

def defer? (t : Thresholds) (op : SetOp) (a b : Container) : Option Container :=
  unlessOverrun (deferWrites t op a b) (defer t op a b)

def absorbDeferred? (t : Thresholds) (op : SetOp) (a b : Container) : Option Container :=
  unlessOverrun (deferWrites t op a b) (absorbDeferred t op a b)

/-! ## Ranges of values -/

/-- The operation on a container and the values in `[start, stop)`, in the container's place. -/
def absorbRange? (t : Thresholds) (op : SetOp) (c : Container) (start stop : Nat) :
    Option Container :=
  if start < min stop domainSize then absorb? t op c (run (Runs.ofRange start stop)) else some c

def insertRange? (t : Thresholds) (c : Container) (start stop : Nat) : Option Container :=
  absorbRange? t .union c start stop

def eraseRange? (t : Thresholds) (c : Container) (start stop : Nat) : Option Container :=
  absorbRange? t .diff c start stop

def toggleRange? (t : Thresholds) (c : Container) (start stop : Nat) : Option Container :=
  absorbRange? t .symmDiff c start stop

/-! ## Relations -/

/-- Whether a bitset holds a value of one of the runs. They are asked for in order until one is
found, and a run that overruns has no answer. -/
def runsMeet? (b : Bitset) : List Run → Option Bool
  | [] => some false
  | r :: rs =>
    if r.InDomain then
      if 0 < b.words.countRange r.first.toNat r.stop then some true else runsMeet? b rs
    else none

def intersects? : Container → Container → Option Bool
  | run r, bitset b => runsMeet? b r.toList
  | bitset b, run r => runsMeet? b r.toList
  | a, b => some (intersects a b)

/-- The number of values in both operands. -/
def interCard? : Container → Container → Option Nat
  | run r, bitset b => unlessOverrun r (b.countRuns r)
  | bitset b, run r => unlessOverrun r (b.countRuns r)
  | a, b => some (interCard a b)

end Roaring.Container
