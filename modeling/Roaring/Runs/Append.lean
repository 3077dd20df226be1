import Roaring.Run

/-!
# Appending runs

A run list is built from its end: `append` joins a run to the list, `toggle` takes the symmetric
difference with one. Both look at the last run only, because the run they are given starts at or
after the start of that one. A list under construction holds its newest run first.
-/
namespace Roaring.Runs

/-- Adds the values of a run. It becomes part of the last run when the two overlap or touch. -/
def append (r : Run) : List Run → List Run
  | [] => [r]
  | last :: rest =>
    if r.first.toNat ≤ last.stop then
      { last with extra := (max r.last last.last - last.first.toNat).toUInt16 } :: rest
    else r :: last :: rest

/-- What is left over of two overlapping runs past the end of the shorter one, as a list of at
most one run. -/
def tail (a b : Run) : List Run :=
  if a.stop < b.stop then [.ofBounds a.stop b.stop]
  else if b.stop < a.stop then [.ofBounds b.stop a.stop]
  else []

/-- Toggles the values of a run. -/
def toggle (r : Run) : List Run → List Run
  | [] => [r]
  | last :: rest =>
    if last.stop < r.first.toNat then r :: last :: rest
    else if last.stop = r.first.toNat then
      { last with extra := (r.stop - last.first.toNat - 1).toUInt16 } :: rest
    else if r.first = last.first then tail r last ++ rest
    else
      tail r last ++
        { last with extra := r.first - last.first - 1 } :: rest

/-- Applies a step that changes the newest run only to the end of a run array. -/
def onLast (step : List Run → List Run) (runs : Array Run) : Array Run :=
  match runs.back? with
  | none => (step []).toArray
  | some last => runs.pop ++ (step [last]).reverse

/-- Adds to a run array a run that does not start before its last run. -/
def appendRun (runs : Array Run) (r : Run) : Array Run := onLast (append r) runs

/-- Toggles in a run array a run that does not start before its last run. -/
def toggleRun (runs : Array Run) (r : Run) : Array Run := onLast (toggle r) runs

/-- The array of a finished list under construction. -/
def finish (newestFirst : List Run) : Array Run := newestFirst.reverse.toArray

/-- The runs of a strictly increasing list of values. -/
def ofValues (values : Array UInt16) : Array Run :=
  finish (values.foldl (fun out v => append (.single v) out) [])

/-- Each value of a list with the one after it. -/
def neighbours (values : List UInt16) : List (UInt16 × UInt16) := values.zip values.tail

/-- Whether a value begins a run, given the one before it. -/
def isGap (pair : UInt16 × UInt16) : Bool := pair.1.toNat + 1 ≠ pair.2.toNat

/-- The number of runs of a strictly increasing list of values: one, and one more for each gap
between neighbours. It is how many runs room is asked for. -/
def countRuns (values : Array UInt16) : Nat :=
  if values.isEmpty then 0 else 1 + (neighbours values.toList).countP isGap

end Roaring.Runs
