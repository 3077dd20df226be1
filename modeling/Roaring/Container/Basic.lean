import Roaring.Bitset
import Roaring.Encoding
import Roaring.Runs.Append
import Roaring.Runs.Basic
import Roaring.Sorted.Basic
import Roaring.Storage

/-!
# Containers

A container is a set of 16 bit values in one of three encodings. Each query is answered by the
encoding's own algorithm; for a valid container the answer depends on the values alone.
-/
namespace Roaring

/-- A set of 16 bit values. -/
inductive Container where
  | array (values : Array UInt16)
  | bitset (bits : Bitset)
  | run (runs : Array Run)
deriving DecidableEq

namespace Container

def encoding : Container → Encoding
  | array _ => .array
  | bitset _ => .bitset
  | run _ => .run

/-- The invariant of each encoding. -/
def Valid : Container → Prop
  | array vs => Sorted.Increasing vs
  | bitset b => b.Exact
  | run rs => Runs.Valid rs

instance : (c : Container) → Decidable c.Valid
  | array vs => inferInstanceAs (Decidable (Sorted.Increasing vs))
  | bitset b => inferInstanceAs (Decidable b.Exact)
  | run rs => inferInstanceAs (Decidable (Runs.Valid rs))

/-- The empty container of an encoding. -/
def empty : Encoding → Container
  | .array => array #[]
  | .bitset => bitset .empty
  | .run => run #[]

instance : EmptyCollection Container := ⟨array #[]⟩

instance : Inhabited Container := ⟨∅⟩

/-- The container of strictly increasing values in a given encoding. -/
def ofValuesAs : Encoding → Array UInt16 → Container
  | .array, vs => array vs
  | .bitset, vs => bitset (.ofValues vs)
  | .run, vs => run (Runs.ofValues vs)

/-! ## Queries -/

/-- The values in ascending order. -/
def values : Container → Array UInt16
  | array vs => vs
  | bitset b => b.words.values
  | run rs => Runs.values rs

instance : Membership UInt16 Container := ⟨fun c v => v ∈ c.values⟩

/-- The number of values. -/
def card : Container → Nat
  | array vs => vs.size
  | bitset b => b.card
  | run rs => Runs.card rs

def isEmpty : Container → Bool
  | array vs => vs.isEmpty
  | bitset b => b.isEmpty
  | run rs => rs.isEmpty

/-- Whether every value of the domain is held. -/
def isFull : Container → Bool
  | array vs => vs.size = domainSize
  | bitset b => b.isFull
  | run rs => Runs.isFull rs

def contains (c : Container) (v : UInt16) : Bool :=
  match c with
  | array vs => Sorted.contains vs v
  | bitset b => b.contains v
  | run rs => Runs.contains rs v

/-- Whether every value of `[start, stop)` is held; the empty range always is. -/
def containsRange (c : Container) (start stop : Nat) : Bool :=
  match c with
  | array vs => Sorted.containsRange vs start stop
  | bitset b => b.containsRange start stop
  | run rs => Runs.containsRange rs start stop

def min? : Container → Option UInt16
  | array vs => vs[0]?
  | bitset b => b.words.min?
  | run rs => Runs.min? rs

def max? : Container → Option UInt16
  | array vs => vs.back?
  | bitset b => b.words.max?
  | run rs => Runs.max? rs

/-- The number of values at most `v`. -/
def rank (c : Container) (v : UInt16) : Nat :=
  match c with
  | array vs => Sorted.rank vs v
  | bitset b => b.words.rank v
  | run rs => Runs.rank rs v

/-- The value at a position, the smallest one being at position 0. -/
def select (c : Container) (n : Nat) : Option UInt16 :=
  match c with
  | array vs => vs[n]?
  | bitset b => b.words.select n
  | run rs => Runs.select rs n

/-- The number of maximal runs of consecutive values. -/
def numRuns : Container → Nat
  | array vs => Sorted.numRuns vs
  | bitset b => b.words.numRuns
  | run rs => rs.size

/-- Bytes taken by an array of `n` values. -/
def arrayBytes (n : Nat) : Nat := 2 * n + 2

/-- Bytes taken by a bitset. -/
def bitsetBytes : Nat := 8192

/-- Bytes taken by `n` runs. -/
def runBytes (n : Nat) : Nat := 4 * n + 2

/-- Bytes taken by `n` elements of an encoding, as a 64 bit count; a number of elements that is too
large for one wraps around. -/
def bytesFor (e : Encoding) (n : Nat) : Nat :=
  match e with
  | .array => arrayBytes n % UInt64.size
  | .bitset => bitsetBytes
  | .run => runBytes n % UInt64.size

/-- Bytes taken by the container. -/
def byteSize : Container → Nat
  | array vs => arrayBytes vs.size
  | bitset _ => bitsetBytes
  | run rs => runBytes rs.size

/-- Whether two containers hold the same values, whatever their encodings. -/
def sameValues : Container → Container → Bool
  | array a, array b => a = b
  | bitset a, bitset b => a.words = b.words
  | run a, run b => a = b
  | a, b => a.card = b.card && a.values = b.values

/-! ## Storage -/

/-- The number of elements stored one by one. -/
def stored : Container → Nat
  | array vs => vs.size
  | bitset _ => 1024
  | run rs => rs.size

/-- An empty container of an encoding with room for `n` elements. -/
def withCapacity (e : Encoding) (n : Nat) : Except StorageError Container := do
  Storage.reserve e 0 n
  return empty e

/-- Makes room for `n` more elements, which changes no value. -/
def reserve (c : Container) (n : Nat) : Except StorageError Container := do
  Storage.reserve c.encoding c.stored n
  return c

end Container

end Roaring
