import Roaring.Encoding
import Roaring.Word

/-!
# Word vectors

The 65536 values of the domain as 1024 words: value `v` is bit `v % 64` of word `v / 64`. Here are
the operations on one value, on a list of values, on a range of values, and on two vectors word
by word; each that changes bits tells, where it can, how the number of set bits changed.
-/
namespace Roaring

/-- One bit for each value of the 16 bit domain. -/
abbrev Words := Vector UInt64 1024

/-- The number of values of the 16 bit domain. -/
def domainSize : Nat := 65536

namespace Words

theorem slot_lt (v : UInt16) : v.toNat / 64 < 1024 := by
  have := v.toNat_lt
  omega

def empty : Words := Vector.replicate 1024 0

def full : Words := Vector.replicate 1024 Word.allOnes

/-- The number of set bits. -/
def count (ws : Words) : Nat := ws.foldl (fun n w => Word.countFrom w n) 0

theorem count_eq_foldr (ws : Words) : ws.count = (ws.toList.map Word.count).foldr (· + ·) 0 := by
  have h (l : List UInt64) (n : Nat) :
      l.foldl (fun n w => Word.countFrom w n) n = n + (l.map Word.count).foldr (· + ·) 0 := by
    induction l generalizing n with
    | nil => rfl
    | cons w l ih =>
      rw [List.foldl_cons, ih, Word.countFrom_eq, List.map_cons, List.foldr_cons, Nat.add_assoc]
  rw [count, ← Vector.foldl_toList, h, Nat.zero_add]

theorem count_replicate (w : UInt64) : count (Vector.replicate 1024 w) = 1024 * Word.count w := by
  rw [count_eq_foldr, Vector.toList_replicate, List.map_replicate, ← List.sum_eq_foldr,
    List.sum_replicate_nat]

/-! ## One value -/

/-- Whether the bit of `v` is set. -/
def test (ws : Words) (v : UInt16) : Bool :=
  have := slot_lt v
  Word.test ws[v.toNat / 64] (v.toNat % 64)

/-- Applies `f` to the word of `v` and the bit of `v` in it. -/
def update (f : UInt64 → UInt64 → UInt64) (ws : Words) (v : UInt16) : Words :=
  have := slot_lt v
  ws.set (v.toNat / 64) (f ws[v.toNat / 64] (Word.bit (v.toNat % 64)))

def put (ws : Words) (v : UInt16) : Words := update (· ||| ·) ws v

def clear (ws : Words) (v : UInt16) : Words := update (fun w b => w &&& ~~~b) ws v

def flip (ws : Words) (v : UInt16) : Words := update (· ^^^ ·) ws v

/-! ## A list of values

The values come in any order and may repeat. -/

/-- Sets the bits of all values; also the number of bits that changed. -/
def putAll (ws : Words) (vs : Array UInt16) : Words × Nat :=
  vs.foldl (fun (ws, n) v =>
    let n := if ws.test v then n else n + 1
    (ws.put v, n)) (ws, 0)

/-- Clears the bits of all values; also the number of bits that changed. -/
def clearAll (ws : Words) (vs : Array UInt16) : Words × Nat :=
  vs.foldl (fun (ws, n) v =>
    let n := if ws.test v then n + 1 else n
    (ws.clear v, n)) (ws, 0)

/-- Flips the bits of all values, once for each occurrence; also the number of bits set less the
number of bits cleared. -/
def flipAll (ws : Words) (vs : Array UInt16) : Words × Int :=
  vs.foldl (fun (ws, n) v =>
    let n := if ws.test v then n - 1 else n + 1
    (ws.flip v, n)) (ws, 0)

/-! ## A range of values

A range `[start, stop)` covers the words from `start / 64` to `(stop - 1) / 64`. In the first it
begins at bit `start % 64`, in the last it ends with bit `(stop - 1) % 64`. -/

/-- The bits of word `i` that belong to a range which reaches that word. -/
def rangeMask (start stop i : Nat) : UInt64 :=
  (if i = start / 64 then Word.maskFrom (start % 64) else Word.allOnes) &&&
    if i = (stop - 1) / 64 then Word.maskUpTo ((stop - 1) % 64) else Word.allOnes

/-- The number of words that a range reaches. -/
def rangeLength (start stop : Nat) : Nat :=
  if start < stop then (stop - 1) / 64 + 1 - start / 64 else 0

/-- Applies `f` to `n` words from word `i` on. -/
def mapFrom (f : Nat → UInt64 → UInt64) (ws : Words) (i : Nat) : Nat → Words
  | 0 => ws
  | n + 1 => if h : i < 1024 then mapFrom f (ws.set i (f i ws[i])) (i + 1) n else ws

/-- Adds to `acc` what `f` counts in `n` words from word `i` on. -/
def sumFrom (f : Nat → UInt64 → Nat) (ws : Words) (i : Nat) : Nat → Nat → Nat
  | 0, acc => acc
  | n + 1, acc => if h : i < 1024 then sumFrom f ws (i + 1) n (acc + f i ws[i]) else acc

/-- Whether `n` words from word `i` on pass `p`. -/
def allFrom (p : Nat → UInt64 → Bool) (ws : Words) (i : Nat) : Nat → Bool
  | 0 => true
  | n + 1 => if h : i < 1024 then p i ws[i] && allFrom p ws (i + 1) n else false

/-- Applies `f` to each word that a range reaches and the bits of the range in it. -/
def mapRange (f : UInt64 → UInt64 → UInt64) (ws : Words) (start stop : Nat) : Words :=
  mapFrom (fun i w => f w (rangeMask start stop i)) ws (start / 64) (rangeLength start stop)

def putRange (ws : Words) (start stop : Nat) : Words := mapRange (· ||| ·) ws start stop

def clearRange (ws : Words) (start stop : Nat) : Words :=
  mapRange (fun w m => w &&& ~~~m) ws start stop

def flipRange (ws : Words) (start stop : Nat) : Words := mapRange (· ^^^ ·) ws start stop

/-- The number of set bits in a range. -/
def countRange (ws : Words) (start stop : Nat) : Nat :=
  sumFrom (fun i w => Word.count (w &&& rangeMask start stop i)) ws (start / 64)
    (rangeLength start stop) 0

/-- Whether every bit of a range is set. -/
def testRange (ws : Words) (start stop : Nat) : Bool :=
  allFrom (fun i w => w &&& rangeMask start stop i = rangeMask start stop i) ws (start / 64)
    (rangeLength start stop)

/-! ## Two vectors -/

def combine (op : SetOp) (a b : Words) : Words := Vector.zipWith op.onWords a b

/-- The number of bits set in both vectors. -/
def interCount (a b : Words) : Nat := count (combine .inter a b)

def isSubset (a b : Words) : Bool := (combine .diff a b).all (· = 0)

def intersects (a b : Words) : Bool := (combine .inter a b).any (· ≠ 0)

end Words

end Roaring
