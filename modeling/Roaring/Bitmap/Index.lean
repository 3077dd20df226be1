import Roaring.Container.Update

/-!
# Key indexes

The upper level of a bitmap: an array of entries sorted by their keys, each with the container of
the values under its key. Keys are looked up by binary search, and every change to a single key is
one `alter`. The machine keeps the keys and the containers in two arrays, as the checked operations
do.
-/
namespace Roaring

/-- The lower halves of the values with one upper half. -/
structure Entry where
  key : UInt16
  container : Container
deriving DecidableEq

namespace Index

/-- The index of the first entry whose key is at least `k`. -/
def lowerBound (es : Array Entry) (k : UInt16) : Nat := countWhile (·.key < k) es

/-- The place of the entry of a key. -/
def find? (es : Array Entry) (k : UInt16) : Option Nat :=
  let i := lowerBound es k
  if es[i]?.any (·.key = k) then some i else none

/-- The container of a key. -/
def get? (es : Array Entry) (k : UInt16) : Option Container :=
  (find? es k).bind fun i => es[i]?.map (·.container)

/-- Changes what the index holds for one key: `f` is given the container of the key, if there is
one, and returns the container to hold from then on, if any. -/
def alter (es : Array Entry) (k : UInt16) (f : Option Container → Option Container) :
    Array Entry :=
  match find? es k with
  | some i =>
    match f (es[i]?.map (·.container)) with
    | some c => es.setIfInBounds i ⟨k, c⟩
    | none => es.eraseIdxIfInBounds i
  | none =>
    match f none with
    | some c => es.insertIdxIfInBounds (lowerBound es k) ⟨k, c⟩
    | none => es

end Index

end Roaring
