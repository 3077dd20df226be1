import Roaring.Container.Basic
import Roaring.Thresholds

/-!
# Conversions and the cheapest encoding

Every encoding converts into every other without loss. `compact` chooses the encoding that the
thresholds ask for: an array up to the largest array size and a bitset above it, but runs as they
are while they take no more room than that. A container that `compact` leaves alone is canonical.
-/
namespace Roaring.Container

/-- The container's values in a given encoding. In its own encoding the container stays as it
is. -/
def convert (e : Encoding) (c : Container) : Container :=
  match c, e with
  | array vs, .bitset => bitset (.ofValues vs)
  | array vs, .run => run (Runs.ofValues vs)
  | bitset b, .array => array b.words.values
  | bitset b, .run => run b.words.runs
  | run rs, .array => array (Runs.values rs)
  | run rs, .bitset => bitset (.ofRuns rs)
  | c, _ => c

/-- Bytes taken by `card` values as an array, where that is allowed, or as a bitset. -/
def plainSize (t : Thresholds) (card : Nat) : Nat :=
  if card ≤ t.maxArraySize then min (arrayBytes card) bitsetBytes else bitsetBytes

/-- An array, or above the largest array size a bitset. -/
def compactArray (t : Thresholds) (vs : Array UInt16) : Container :=
  if vs.size ≤ t.maxArraySize then array vs else bitset (.ofValues vs)

/-- A bitset of known size, or up to the largest array size an array. -/
def compactBitset (t : Thresholds) (b : Bitset) : Container :=
  let b := if b.cached.isSome then b else b.recount
  if b.card ≤ t.maxArraySize then array b.words.values else bitset b

/-- The values of runs as an array or a bitset, by their number. -/
def expandRuns (t : Thresholds) (rs : Array Run) : Container :=
  if Runs.card rs ≤ t.maxArraySize then array (Runs.values rs) else bitset (.ofRuns rs)

/-- Runs, unless their values take less room otherwise. -/
def compactRuns (t : Thresholds) (rs : Array Run) : Container :=
  if runBytes rs.size ≤ plainSize t (Runs.card rs) then run rs else expandRuns t rs

/-- The container in its cheapest encoding, with its size known. -/
def compact (t : Thresholds) : Container → Container
  | array vs => compactArray t vs
  | bitset b => compactBitset t b
  | run rs => compactRuns t rs

/-- What `compact` leaves alone. -/
def Canonical (t : Thresholds) : Container → Prop
  | array vs => vs.size ≤ t.maxArraySize
  | bitset b => ∃ n, b.cached = some n ∧ t.maxArraySize < n
  | run rs => runBytes rs.size ≤ plainSize t (Runs.card rs)

/-- The container of strictly increasing values: an array, or above the largest array size a
bitset. -/
def ofValues (t : Thresholds) (vs : Array UInt16) : Container := compactArray t vs

/-- The container of the values in `[start, stop)`; those past the domain are left out. -/
def ofRange (t : Thresholds) (start stop : Nat) : Container :=
  if start < min stop domainSize then compactRuns t (Runs.ofRange start stop) else ∅

/-- Turns to runs where they take less room than the present encoding, and away from them where
they are not the cheapest. -/
def preferRuns (t : Thresholds) (c : Container) : Container :=
  match c with
  | array vs =>
    if runBytes (Sorted.numRuns vs) < arrayBytes vs.size then run (Runs.ofValues vs) else c
  | bitset b => if runBytes b.words.numRuns < bitsetBytes then run b.words.runs else c
  | run rs => compactRuns t rs

/-- The outcome of `preferRuns`; also whether it consists of runs. -/
def runOptimize (t : Thresholds) (c : Container) : Bool × Container :=
  let c := preferRuns t c
  (c.encoding = .run, c)

/-- Turns away from runs; also whether there were any to turn away from. -/
def removeRuns (t : Thresholds) (c : Container) : Bool × Container :=
  match c with
  | run rs => (true, expandRuns t rs)
  | c => (false, c)

end Roaring.Container
