import Roaring.Run

/-!
# Tracking runs

Membership in a run list for ascending queries: runs that end before a query are dropped, for
they end before every later query too.
-/
namespace Roaring.Runs

/-- Membership in sorted runs, for queries that never go back. -/
structure Tracker where
  /-- The runs that the queries so far have not passed. -/
  ahead : List Run

namespace Tracker

/-- Drops the runs that end before `v`. -/
def seek (t : Tracker) (v : UInt16) : Tracker := ⟨t.ahead.dropWhile (·.last < v.toNat)⟩

/-- Whether the first run not passed holds `v`, which no earlier query exceeds. -/
def atHead (t : Tracker) (v : UInt16) : Bool :=
  match t.ahead with
  | [] => false
  | r :: _ => r.first ≤ v

/-- The answer to a query, and the tracker for the next one. -/
def query (t : Tracker) (v : UInt16) : Bool × Tracker :=
  let t := t.seek v
  (t.atHead v, t)

/-- The values of an ascending list for which the answer is `keep`, appended to `out`. -/
def filterInto (keep : Bool) : Tracker → List UInt16 → Array UInt16 → Array UInt16
  | _, [], out => out
  | t, v :: vs, out =>
    let (held, t) := t.query v
    filterInto keep t vs (if held = keep then out.push v else out)

/-- Whether every value of an ascending list is held. -/
def all : Tracker → List UInt16 → Bool
  | _, [] => true
  | t, v :: vs =>
    let (held, t) := t.query v
    held && all t vs

end Tracker

/-- The values of a sorted array that the runs hold. -/
def keepHeld (runs : Array Run) (values : Array UInt16) : Array UInt16 :=
  Tracker.filterInto true ⟨runs.toList⟩ values.toList #[]

/-- The values of a sorted array that the runs lack. -/
def dropHeld (runs : Array Run) (values : Array UInt16) : Array UInt16 :=
  Tracker.filterInto false ⟨runs.toList⟩ values.toList #[]

/-- Whether the runs hold every value of a sorted array. -/
def holdsAll (runs : Array Run) (values : Array UInt16) : Bool :=
  Tracker.all ⟨runs.toList⟩ values.toList

end Roaring.Runs
