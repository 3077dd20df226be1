import Roaring.Bitset.Words
import Roaring.Run

/-!
# Scanning word vectors

What has to be found in a word vector by walking over its bits in order: its values, the first and
the last of them, the value at a position, and its runs. Inside a word the walk goes from set bit
to set bit; a word of zeros, or in a run a word of ones, is passed as a whole.
-/
namespace Roaring.Words

/-- Appends the values of the words from word `i` on. -/
def valuesFrom (i : Nat) : List UInt64 → Array UInt16 → Array UInt16
  | [], out => out
  | w :: ws, out => valuesFrom (i + 1) ws (Word.valuesInto (64 * i) w out)

/-- The values in ascending order. -/
def values (ws : Words) : Array UInt16 := valuesFrom 0 ws.toList #[]

/-- The smallest value of the words from word `i` on. -/
def minFrom (i : Nat) : List UInt64 → Option UInt16
  | [] => none
  | w :: ws => if w = 0 then minFrom (i + 1) ws else some (64 * i + Word.lowest w).toUInt16

def min? (ws : Words) : Option UInt16 := minFrom 0 ws.toList

/-- The largest value of the words from word `i` down. -/
def maxFrom (i : Nat) : List UInt64 → Option UInt16
  | [] => none
  | w :: ws =>
    if w = 0 then maxFrom (i - 1) ws else some (64 * i + Word.highest w).toUInt16

def max? (ws : Words) : Option UInt16 := maxFrom 1023 ws.toList.reverse

/-- The number of values at most `v`: the words before that of `v`, and its bits up to `v`. -/
def rank (ws : Words) (v : UInt16) : Nat :=
  have := slot_lt v
  sumFrom (fun _ w => Word.count w) ws 0 (v.toNat / 64) 0 +
    Word.count (ws[v.toNat / 64] &&& Word.maskUpTo (v.toNat % 64))

/-- The value at position `n` among those of the words from word `i` on. -/
def selectFrom (i : Nat) : List UInt64 → Nat → Option UInt16
  | [], _ => none
  | w :: ws, n =>
    let here := Word.count w
    if n < here then some (64 * i + Word.lowest (Word.dropLowest w n)).toUInt16
    else selectFrom (i + 1) ws (n - here)

/-- The value at a position, the smallest one being at position 0. -/
def select (ws : Words) (n : Nat) : Option UInt16 := selectFrom 0 ws.toList n

/-- Adds to `n` the number of runs that end in the words `w` and those after it. -/
def numRunsFrom (w : UInt64) : List UInt64 → Nat → Nat
  | [], n => n + Word.runEnds w false
  | next :: ws, n => numRunsFrom next ws (n + Word.runEnds w (Word.test next 0))

/-- The number of maximal runs of consecutive values, counted by their ends. -/
def numRuns (ws : Words) : Nat :=
  match ws.toList with
  | [] => 0
  | w :: ws => numRunsFrom w ws 0

/-- Adds to `out` the maximal runs of the words from word `i` on, of which `w` is what the walk has
left of word `i`. Inside a run that began at `start`, the bits of `w` below its next clear bit are
set. -/
def runsFrom (start : Option Nat) (i : Nat) (w : UInt64) (ws : List UInt64) (out : List Run) :
    List Run :=
  match start with
  | none =>
    if _ : w = 0 then
      match ws with
      | [] => out
      | w' :: ws => runsFrom none (i + 1) w' ws out
    else runsFrom (some (64 * i + Word.lowest w)) i (Word.fillBelow w) ws out
  | some first =>
    if w = Word.allOnes then
      match ws with
      | [] => .ofBounds first (64 * (i + 1)) :: out
      | w' :: ws => runsFrom (some first) (i + 1) w' ws out
    else
      runsFrom none i (Word.clearBelow w) ws
        (.ofBounds first (64 * i + Word.lowest (~~~w)) :: out)
termination_by (ws.length, if start.isSome then 2 * (Word.clearBelow w).toNat + 1 else 2 * w.toNat)
decreasing_by
  · exact Prod.Lex.left _ _ (by simp)
  · apply Prod.Lex.right
    have := Word.clearBelow_fillBelow_lt ‹_›
    simp only [Option.isSome_some, Option.isSome_none, if_true, Bool.false_eq_true, if_false]
    omega
  · exact Prod.Lex.left _ _ (by simp)
  · apply Prod.Lex.right
    simp only [Option.isSome_some, Option.isSome_none, if_true, Bool.false_eq_true, if_false]
    omega

/-- The maximal runs of consecutive values. -/
def runs (ws : Words) : Array Run :=
  match ws.toList with
  | [] => #[]
  | w :: ws => (runsFrom none 0 w ws []).reverse.toArray

end Roaring.Words
