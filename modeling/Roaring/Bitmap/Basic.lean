import Roaring.Bitmap.Index

/-!
# Bitmaps

A bitmap is a set of 32 bit values in two levels: an index of the upper halves that occur, sorted,
and for each of them the container of the lower halves. A key is in the index only while its
container holds a value.
-/
namespace Roaring

/-- A set of 32 bit values, with the thresholds that its containers follow. -/
structure Bitmap where
  thresholds : Thresholds := .standard
  entries : Array Entry := #[]
deriving DecidableEq

/-- The upper half of a value. -/
def highHalf (v : UInt32) : UInt16 := (v >>> 16).toUInt16

/-- The lower half of a value. -/
def lowHalf (v : UInt32) : UInt16 := v.toUInt16

/-- The value of two halves. -/
def joinHalves (high low : UInt16) : UInt32 := high.toUInt32 <<< 16 ||| low.toUInt32

theorem toNat_joinHalves (high low : UInt16) :
    (joinHalves high low).toNat = 65536 * high.toNat + low.toNat := by
  have hh := high.toNat_lt
  have hl := low.toNat_lt
  rw [joinHalves, UInt32.toNat_or, UInt32.toNat_shiftLeft, UInt16.toNat_toUInt32,
    UInt16.toNat_toUInt32, show (16 : UInt32).toNat % 32 = 16 from rfl, Nat.mod_eq_of_lt,
    ← Nat.shiftLeft_add_eq_or_of_lt hl, Nat.shiftLeft_eq, Nat.mul_comm]
  rw [Nat.shiftLeft_eq]
  omega

theorem toNat_highHalf (v : UInt32) : (highHalf v).toNat = v.toNat / 65536 := by
  have := v.toNat_lt
  rw [highHalf, UInt32.toNat_toUInt16, UInt32.toNat_shiftRight,
    show (16 : UInt32).toNat % 32 = 16 from rfl, Nat.shiftRight_eq_div_pow]
  omega

theorem toNat_lowHalf (v : UInt32) : (lowHalf v).toNat = v.toNat % 65536 := by
  rw [lowHalf, UInt32.toNat_toUInt16]

@[simp] theorem joinHalves_halves (v : UInt32) : joinHalves (highHalf v) (lowHalf v) = v := by
  rw [← UInt32.toNat_inj, toNat_joinHalves, toNat_highHalf, toNat_lowHalf]
  omega

@[simp] theorem highHalf_joinHalves (high low : UInt16) :
    highHalf (joinHalves high low) = high := by
  have := low.toNat_lt
  rw [← UInt16.toNat_inj, toNat_highHalf, toNat_joinHalves]
  omega

@[simp] theorem lowHalf_joinHalves (high low : UInt16) :
    lowHalf (joinHalves high low) = low := by
  have := low.toNat_lt
  rw [← UInt16.toNat_inj, toNat_lowHalf, toNat_joinHalves]
  omega

namespace Bitmap

/-- The invariant of the index: increasing keys, each with a valid container that holds a value. -/
def WellFormed (b : Bitmap) : Prop :=
  b.entries.toList.Pairwise (fun x y => x.key < y.key) ∧
    ∀ e ∈ b.entries, e.container.Valid ∧ e.container.isEmpty = false

instance (b : Bitmap) : Decidable b.WellFormed := inferInstanceAs (Decidable (_ ∧ _))

/-- The empty bitmap with given thresholds. -/
def empty (t : Thresholds) : Bitmap := { thresholds := t }

instance : EmptyCollection Bitmap := ⟨{}⟩

instance : Inhabited Bitmap := ⟨∅⟩

/-- The same bitmap with other entries. -/
def withEntries (b : Bitmap) (es : Array Entry) : Bitmap := { b with entries := es }

/-! ## Queries -/

/-- The number of values. -/
def card (b : Bitmap) : Nat := b.entries.foldl (fun n e => n + e.container.card) 0

def isEmpty (b : Bitmap) : Bool := b.entries.isEmpty

/-- Appends the values of an entry. -/
def valuesInto (out : Array UInt32) (e : Entry) : Array UInt32 :=
  e.container.values.foldl (fun out low => out.push (joinHalves e.key low)) out

/-- The values in ascending order. -/
def values (b : Bitmap) : Array UInt32 := b.entries.foldl valuesInto #[]

instance : Membership UInt32 Bitmap := ⟨fun b v => v ∈ b.values⟩

def contains (b : Bitmap) (v : UInt32) : Bool :=
  (Index.get? b.entries (highHalf v)).any (·.contains (lowHalf v))

/-- Adds to `n` the number of values at most `v` in sorted entries. -/
def rankFrom (v : UInt32) : List Entry → Nat → Nat
  | [], n => n
  | e :: es, n =>
    if e.key < highHalf v then rankFrom v es (n + e.container.card)
    else if e.key = highHalf v then n + e.container.rank (lowHalf v)
    else n

/-- The number of values at most `v`. -/
def rank (b : Bitmap) (v : UInt32) : Nat := rankFrom v b.entries.toList 0

/-- The value at position `n` in sorted entries. -/
def selectFrom : List Entry → Nat → Option UInt32
  | [], _ => none
  | e :: es, n =>
    if n < e.container.card then (e.container.select n).map (joinHalves e.key)
    else selectFrom es (n - e.container.card)

/-- The value at a position, the smallest one being at position 0. -/
def select (b : Bitmap) (n : Nat) : Option UInt32 := selectFrom b.entries.toList n

def min? (b : Bitmap) : Option UInt32 :=
  b.entries[0]?.bind fun e => e.container.min?.map (joinHalves e.key)

def max? (b : Bitmap) : Option UInt32 :=
  b.entries.back?.bind fun e => e.container.max?.map (joinHalves e.key)

/-- Whether two bitmaps hold the same values, whatever the encodings of their containers. -/
def sameValues (a b : Bitmap) : Bool :=
  a.entries.isEqv b.entries fun x y => x.key = y.key && x.container.sameValues y.container

end Bitmap

end Roaring
