import Roaring.Bitset.Scan

/-!
# Bitsets

A word vector together with the number of its values, where that is known. Operations that are
meant to be cheap leave the number unknown; all others keep it exact by counting only what they
change. Reading never fills it in: an unknown number is counted anew on each request until
`recount` stores it.
-/
namespace Roaring

/-- The values whose bits are set, and their number while it is known. -/
structure Bitset where
  words : Words
  cached : Option Nat
deriving DecidableEq

namespace Bitset

/-- A known number of values is the number of set bits. -/
def Exact (b : Bitset) : Prop := ∀ n, b.cached = some n → n = b.words.count

instance (b : Bitset) : Decidable b.Exact :=
  match h : b.cached with
  | none => isTrue fun n hn => by rw [h] at hn; cases hn
  | some n => decidable_of_iff (n = b.words.count) (by simp [Exact, h])

def empty : Bitset := ⟨Words.empty, some 0⟩

def full : Bitset := ⟨Words.full, some domainSize⟩

/-- A bitset of which the number of values is known. -/
def counted (ws : Words) : Bitset := ⟨ws, some ws.count⟩

/-- A bitset of which the number of values is left open. -/
def uncounted (ws : Words) : Bitset := ⟨ws, none⟩

theorem exact_empty : empty.Exact := by
  intro n h
  cases h
  simp [empty, Words.empty, Words.count_replicate]

theorem exact_full : full.Exact := by
  intro n h
  cases h
  simp [full, Words.full, Words.count_replicate, domainSize]

theorem exact_counted (ws : Words) : (counted ws).Exact := by
  intro n h
  cases h
  rfl

theorem exact_uncounted (ws : Words) : (uncounted ws).Exact := by
  intro n h
  cases h

/-! ## Queries -/

/-- The number of values. -/
def card (b : Bitset) : Nat := b.cached.getD b.words.count

def isEmpty (b : Bitset) : Bool :=
  match b.cached with
  | some n => n = 0
  | none => b.words.all (· = 0)

def isFull (b : Bitset) : Bool := b.card = domainSize

def contains (b : Bitset) (v : UInt16) : Bool := b.words.test v

/-- Whether every value of `[start, stop)` is held. -/
def containsRange (b : Bitset) (start stop : Nat) : Bool :=
  if stop ≤ start then true
  else if domainSize < stop then false
  else b.words.testRange start stop

/-! ## Changes -/

/-- Stores the number of values. -/
def recount (b : Bitset) : Bitset := counted b.words

/-- New words, of which there are `change` more values than before. -/
def replace (b : Bitset) (ws : Words) (change : Int) : Bitset :=
  ⟨ws, b.cached.map fun n => (n + change).toNat⟩

/-- Adds a value; also whether it was absent. -/
def insert (b : Bitset) (v : UInt16) : Bool × Bitset :=
  if b.words.test v then (false, b) else (true, b.replace (b.words.put v) 1)

/-- Removes a value; also whether it was there. -/
def erase (b : Bitset) (v : UInt16) : Bool × Bitset :=
  if b.words.test v then (true, b.replace (b.words.clear v) (-1)) else (false, b)

/-- Adds the values of a list. -/
def insertAll (b : Bitset) (vs : Array UInt16) : Bitset :=
  let (ws, n) := b.words.putAll vs
  b.replace ws n

/-- Removes the values of a list. -/
def eraseAll (b : Bitset) (vs : Array UInt16) : Bitset :=
  let (ws, n) := b.words.clearAll vs
  b.replace ws (-n)

/-- Toggles a value for each of its occurrences in a list. -/
def toggleAll (b : Bitset) (vs : Array UInt16) : Bitset :=
  let (ws, n) := b.words.flipAll vs
  b.replace ws n

/-- The set of the values of a list. -/
def ofValues (vs : Array UInt16) : Bitset := empty.insertAll vs

/-- Changes a range of values. A known number of values is kept by counting the range alone:
`after` tells how many of its values are there afterwards, given its size and how many there were
before. -/
def changeRange (change : Words → Nat → Nat → Words) (after : Nat → Nat → Nat) (b : Bitset)
    (start stop : Nat) : Bitset :=
  if start < stop then
    let cached := b.cached.map fun n =>
      let before := b.words.countRange start stop
      n + after (stop - start) before - before
    ⟨change b.words start stop, cached⟩
  else b

/-- Adds the values of `[start, stop)`. -/
def insertRange (b : Bitset) (start stop : Nat) : Bitset :=
  changeRange Words.putRange (fun size _ => size) b start stop

/-- Removes the values of `[start, stop)`. -/
def eraseRange (b : Bitset) (start stop : Nat) : Bitset :=
  changeRange Words.clearRange (fun _ _ => 0) b start stop

/-- Toggles the values of `[start, stop)`. -/
def toggleRange (b : Bitset) (start stop : Nat) : Bitset :=
  changeRange Words.flipRange (fun size before => size - before) b start stop

/-! ## Runs of values -/

/-- Changes the values of each run in turn. -/
def overRuns (change : Bitset → Nat → Nat → Bitset) (b : Bitset) (runs : Array Run) : Bitset :=
  runs.foldl (fun b r => change b r.first.toNat r.stop) b

def insertRuns (b : Bitset) (runs : Array Run) : Bitset := overRuns insertRange b runs

def eraseRuns (b : Bitset) (runs : Array Run) : Bitset := overRuns eraseRange b runs

def toggleRuns (b : Bitset) (runs : Array Run) : Bitset := overRuns toggleRange b runs

/-- The set of the values of the runs. -/
def ofRuns (runs : Array Run) : Bitset := empty.insertRuns runs

/-- Removes the values between `start` and the runs, between the runs, and after them. -/
def eraseGapsFrom (b : Bitset) (start : Nat) : List Run → Bitset
  | [] => b.eraseRange start domainSize
  | r :: rs => eraseGapsFrom (b.eraseRange start r.first.toNat) r.stop rs

/-- Removes the values that the runs lack. -/
def eraseGaps (b : Bitset) (runs : Array Run) : Bitset := b.eraseGapsFrom 0 runs.toList

/-- The number of values in the runs. -/
def countRuns (b : Bitset) (runs : Array Run) : Nat :=
  runs.foldl (fun n r => n + b.words.countRange r.first.toNat r.stop) 0

/-! ## Ranges given by a caller

A range that holds a value past the domain has no answer. -/

/-- Whether a range is empty or lies in the domain. -/
def RangeOk (start stop : Nat) : Prop := start < stop → stop ≤ domainSize

instance (start stop : Nat) : Decidable (RangeOk start stop) :=
  inferInstanceAs (Decidable (_ → _))

def insertRange? (b : Bitset) (start stop : Nat) : Option Bitset :=
  if RangeOk start stop then some (b.insertRange start stop) else none

def eraseRange? (b : Bitset) (start stop : Nat) : Option Bitset :=
  if RangeOk start stop then some (b.eraseRange start stop) else none

def toggleRange? (b : Bitset) (start stop : Nat) : Option Bitset :=
  if RangeOk start stop then some (b.toggleRange start stop) else none

def countRange? (b : Bitset) (start stop : Nat) : Option Nat :=
  if RangeOk start stop then some (b.words.countRange start stop) else none

end Bitset

end Roaring
