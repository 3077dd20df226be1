import Roaring.Run
import Roaring.Search

/-!
# Run lists

A set of 16 bit values as the array of its maximal runs: sorted, and with at least one absent
value between one run and the next. A value is looked up through the last run that starts at or
before it.
-/
namespace Roaring.Runs

/-- One run ends before the next starts, with an absent value between them. -/
def Apart (a b : Run) : Prop := a.stop < b.first.toNat

instance (a b : Run) : Decidable (Apart a b) := inferInstanceAs (Decidable (_ < _))

/-- The invariant of a run list, oldest run first. -/
def ValidList (runs : List Run) : Prop := (∀ r ∈ runs, r.InDomain) ∧ runs.Pairwise Apart

instance (runs : List Run) : Decidable (ValidList runs) := inferInstanceAs (Decidable (_ ∧ _))

/-- The invariant of a run array. -/
def Valid (runs : Array Run) : Prop := ValidList runs.toList

instance (runs : Array Run) : Decidable (Valid runs) :=
  inferInstanceAs (Decidable (ValidList runs.toList))

/-- Whether each run of a list is apart from the next one. -/
def separated : List Run → Bool
  | [] => true
  | [_] => true
  | a :: b :: rs => a.stop < b.first.toNat && separated (b :: rs)

/-- Whether no run goes on past the domain. -/
def inDomain (runs : Array Run) : Bool := runs.all fun r => decide r.InDomain

theorem inDomain_iff (runs : Array Run) : inDomain runs ↔ ∀ r ∈ runs, r.InDomain := by
  simp only [inDomain, Array.all_eq_true_iff_forall_mem, decide_eq_true_eq]

theorem inDomain_of_valid {runs : Array Run} (h : Valid runs) : inDomain runs :=
  (inDomain_iff runs).mpr fun r hr => h.1 r (Array.mem_toList_iff.mpr hr)

/-- Whether the runs lie in the domain, sorted and apart. -/
def isValid (runs : Array Run) : Bool := inDomain runs && separated runs.toList

/-! ## Queries -/

/-- The number of values. -/
def card (runs : Array Run) : Nat := runs.foldl (fun n r => n + r.card) 0

/-- Whether the one run of the list is the whole domain. -/
def isFull (runs : Array Run) : Bool := runs = #[Run.whole]

/-- The number of runs that start at or before `v`. -/
def startsUpTo (runs : Array Run) (v : UInt16) : Nat := countWhile (·.first ≤ v) runs

/-- The last run that starts at or before `v`. -/
def candidate? (runs : Array Run) (v : UInt16) : Option Run :=
  match startsUpTo runs v with
  | 0 => none
  | n + 1 => runs[n]?

def contains (runs : Array Run) (v : UInt16) : Bool :=
  match candidate? runs v with
  | some r => v - r.first ≤ r.extra
  | none => false

/-- Whether every value of `[start, stop)` is held. Runs never touch, so the whole range has to lie
within a single run. -/
def containsRange (runs : Array Run) (start stop : Nat) : Bool :=
  if stop ≤ start then true
  else if 65536 < stop then false
  else
    match candidate? runs start.toUInt16 with
    | some r => stop ≤ r.stop
    | none => false

def min? (runs : Array Run) : Option UInt16 := runs[0]?.map (·.first)

def max? (runs : Array Run) : Option UInt16 := runs.back?.map (·.last.toUInt16)

/-- Adds to `n` the number of values at most `v` in sorted runs. -/
def rankFrom (v : Nat) : List Run → Nat → Nat
  | [], n => n
  | r :: rs, n =>
    if v < r.first.toNat then n
    else if v < r.stop then n + (v - r.first.toNat) + 1
    else rankFrom v rs (n + r.card)

/-- The number of values at most `v`. -/
def rank (runs : Array Run) (v : UInt16) : Nat := rankFrom v.toNat runs.toList 0

/-- The value at position `n` in sorted runs. -/
def selectFrom : List Run → Nat → Option UInt16
  | [], _ => none
  | r :: rs, n => if n < r.card then some (r.first + n.toUInt16) else selectFrom rs (n - r.card)

/-- The value at a position, the smallest one being at position 0. -/
def select (runs : Array Run) (n : Nat) : Option UInt16 := selectFrom runs.toList n

/-- Appends `n` consecutive values from `v` on. -/
def consecutiveInto (v : Nat) : Nat → Array UInt16 → Array UInt16
  | 0, out => out
  | n + 1, out => consecutiveInto (v + 1) n (out.push v.toUInt16)

/-- The values in ascending order. -/
def values (runs : Array Run) : Array UInt16 :=
  runs.foldl (fun out r => consecutiveInto r.first.toNat r.card out) #[]

/-! ## Changes -/

/-- The runs of the values in `[start, stop)`; those past the domain are left out. -/
def ofRange (start stop : Nat) : Array Run :=
  if start < min stop 65536 then #[.ofBounds start (min stop 65536)] else #[]

/-- Adds a value; also whether it was absent. It joins the run before it, the run after it, or
both, where it touches them. -/
def insert (runs : Array Run) (v : UInt16) : Bool × Array Run :=
  let i := startsUpTo runs v
  let after := runs[i]?.filter (·.first.toNat = v.toNat + 1)
  match candidate? runs v with
  | some r =>
    if v.toNat < r.stop then (false, runs)
    else if v.toNat = r.stop then
      match after with
      | some next =>
        (true, (runs.eraseIdxIfInBounds i).setIfInBounds (i - 1)
          { r with extra := (next.last - r.first.toNat).toUInt16 })
      | none => (true, runs.setIfInBounds (i - 1) { r with extra := r.extra + 1 })
    else
      match after with
      | some next => (true, runs.setIfInBounds i ⟨v, next.extra + 1⟩)
      | none => (true, runs.insertIdxIfInBounds i (.single v))
  | none =>
    match after with
    | some next => (true, runs.setIfInBounds i ⟨v, next.extra + 1⟩)
    | none => (true, runs.insertIdxIfInBounds i (.single v))

/-- Removes a value; also whether it was there. The run that holds it disappears, loses its first
or its last value, or is split in two. -/
def erase (runs : Array Run) (v : UInt16) : Bool × Array Run :=
  let i := startsUpTo runs v
  match candidate? runs v with
  | none => (false, runs)
  | some r =>
    let offset := v - r.first
    if r.extra < offset then (false, runs)
    else if offset = 0 then
      if r.extra = 0 then (true, runs.eraseIdxIfInBounds (i - 1))
      else (true, runs.setIfInBounds (i - 1) ⟨r.first + 1, r.extra - 1⟩)
    else if offset = r.extra then
      (true, runs.setIfInBounds (i - 1) { r with extra := r.extra - 1 })
    else
      (true, (runs.setIfInBounds (i - 1) { r with extra := offset - 1 }).insertIdxIfInBounds i
        ⟨v + 1, r.extra - offset - 1⟩)

end Roaring.Runs
