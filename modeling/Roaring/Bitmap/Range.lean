import Roaring.Bitmap.Update

/-!
# Ranges of values

A range of 32 bit values is given by two bounds, each of which may include its value, exclude it or
be left open. It comes down to a half open range of natural numbers, which is cut into one piece
for each upper half that it touches; every operation on a range works piece by piece.
-/
namespace Roaring

/-- One side of a range. -/
inductive Bound where
  | unbounded
  | included (v : UInt32)
  | excluded (v : UInt32)
deriving DecidableEq

namespace Bound

/-- Whether a value is on the inner side of a lower bound. -/
def AdmitsAbove : Bound → UInt32 → Prop
  | unbounded, _ => True
  | included b, v => b ≤ v
  | excluded b, v => b < v

/-- Whether a value is on the inner side of an upper bound. -/
def AdmitsBelow : Bound → UInt32 → Prop
  | unbounded, _ => True
  | included b, v => v ≤ b
  | excluded b, v => v < b

/-- The smallest number that a lower bound admits. -/
def start : Bound → Nat
  | unbounded => 0
  | included v => v.toNat
  | excluded v => v.toNat + 1

/-- The smallest number that is past an upper bound. -/
def stop : Bound → Nat
  | unbounded => UInt32.size
  | included v => v.toNat + 1
  | excluded v => v.toNat

theorem start_le_iff (b : Bound) (v : UInt32) : b.start ≤ v.toNat ↔ b.AdmitsAbove v := by
  cases b with
  | unbounded => simp [start, AdmitsAbove]
  | included w => rw [AdmitsAbove, UInt32.le_iff_toNat_le, start]
  | excluded w => rw [AdmitsAbove, UInt32.lt_iff_toNat_lt, start, Nat.succ_le_iff]

theorem lt_stop_iff (b : Bound) (v : UInt32) : v.toNat < b.stop ↔ b.AdmitsBelow v := by
  cases b with
  | unbounded => simp [stop, AdmitsBelow, v.toNat_lt]
  | included w => rw [AdmitsBelow, UInt32.le_iff_toNat_le, stop, Nat.lt_succ_iff]
  | excluded w => rw [AdmitsBelow, UInt32.lt_iff_toNat_lt, stop]

end Bound

/-- The lower halves in `[start, stop)` under one upper half. -/
structure Piece where
  key : UInt16
  start : Nat
  stop : Nat
deriving DecidableEq

/-- The part of `[start, stop)` that lies under the upper half `key`. -/
def pieceAt (start stop key : Nat) : Piece where
  key := key.toUInt16
  start := if key = start / 65536 then start % 65536 else 0
  stop := if key = (stop - 1) / 65536 then (stop - 1) % 65536 + 1 else 65536

/-- The pieces of `[start, stop)`, one for each upper half in it. -/
def pieces (start stop : Nat) : List Piece :=
  if start < stop then
    (List.range' (start / 65536) ((stop - 1) / 65536 + 1 - start / 65536)).map
      (pieceAt start stop)
  else []

namespace Bitmap

/-- Changes the container of each piece. -/
def alterPieces (b : Bitmap) (lo hi : Bound)
    (f : Piece → Option Container → Option Container) : Bitmap :=
  b.withEntries ((pieces lo.start hi.stop).foldl (fun es p => Index.alter es p.key (f p)) b.entries)

/-- Adds every value of a range. -/
def insertRange (b : Bitmap) (lo hi : Bound) : Bitmap :=
  b.alterPieces lo hi fun p held =>
    match held with
    | some c => some (c.insertRange b.thresholds p.start p.stop)
    | none => some (Container.ofRange b.thresholds p.start p.stop)

/-- Removes every value of a range. -/
def eraseRange (b : Bitmap) (lo hi : Bound) : Bitmap :=
  b.alterPieces lo hi fun p held =>
    held.bind fun c => nonEmpty (c.eraseRange b.thresholds p.start p.stop)

/-- Toggles every value of a range. -/
def toggleRange (b : Bitmap) (lo hi : Bound) : Bitmap :=
  b.alterPieces lo hi fun p held =>
    match held with
    | some c => nonEmpty (c.toggleRange b.thresholds p.start p.stop)
    | none => some (Container.ofRange b.thresholds p.start p.stop)

/-- Whether every value of a range is held; the empty range always is. -/
def containsRange (b : Bitmap) (lo hi : Bound) : Bool :=
  (pieces lo.start hi.stop).all fun p =>
    (Index.get? b.entries p.key).any (·.containsRange p.start p.stop)

/-- The bitmap of the values of a range, under the standard thresholds. -/
def ofRange (lo hi : Bound) : Bitmap := (∅ : Bitmap).insertRange lo hi

end Bitmap

end Roaring
