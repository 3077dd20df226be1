import Roaring.Encoding

/-!
# Storage requests

Growing a list of values or runs asks for room for a number of further elements. A request is
refused, before anything is allocated, when the room would exceed what one block of memory can
hold; the refusal names the encoding and the number of elements asked for.
-/
namespace Roaring

/-- Why storage was refused. -/
inductive StorageError where
  /-- No room for the elements of a container. -/
  | container (encoding : Encoding) (requested : Nat)
  /-- No room for the key index of a bitmap. -/
  | index (requested : Nat)
deriving DecidableEq

namespace StorageError

/-- The text shown to users. -/
def message : StorageError → String
  | container encoding requested =>
    "out of memory allocating " ++ toString requested ++ " elements for a " ++ encoding.name ++
      " container"
  | index requested =>
    "out of memory allocating " ++ toString requested ++ " entries for the bitmap index"

end StorageError

namespace Storage

/-- The largest number of bytes in one block of memory. -/
def maxBytes : Nat := 0x7fffffffffffffff

/-- Bytes taken by one stored element: a value, a word or a run. -/
def elementBytes : Encoding → Nat
  | .array => 2
  | .bitset => 8
  | .run => 4

/-- Room for `requested` elements after the `held` ones; refused when the block would be too
large. -/
def reserve (encoding : Encoding) (held requested : Nat) : Except StorageError Unit :=
  if maxBytes < (held + requested) * elementBytes encoding then
    .error (.container encoding requested)
  else
    .ok ()

theorem reserve_eq_ok_iff (encoding : Encoding) (held requested : Nat) :
    reserve encoding held requested = .ok () ↔
      (held + requested) * elementBytes encoding ≤ maxBytes := by
  unfold reserve
  split <;> simp <;> omega

end Storage

end Roaring
