import Roaring.Container.Basic

/-!
# Going through the values

The values of a container one at a time, in ascending order. A walk keeps what it has not yet come
to: the rest of a list, the rest of a word and the words after it, or the rest of a run and the runs
after it. A word or a run that is used up is left behind on the way to the next value. Each value
leaves one less to come, so a walk ends.
-/
namespace Roaring

namespace Words

/-- A place among the bits of words: what is left of the word at an index, and all later words. -/
structure Cursor where
  index : Nat
  word : UInt64
  ahead : List UInt64
deriving DecidableEq

namespace Cursor

/-- Before the first bit. -/
def start (ws : Words) : Cursor :=
  match ws.toList with
  | [] => ⟨0, 0, []⟩
  | w :: ws => ⟨0, w, ws⟩

/-- The next value of what is left of word `i` and the words after it, and what is left then. -/
def nextFrom (i : Nat) (w : UInt64) (ahead : List UInt64) : Option (UInt16 × Cursor) :=
  if w ≠ 0 then some ((64 * i + Word.lowest w).toUInt16, ⟨i, Word.clearLowest w, ahead⟩)
  else
    match ahead with
    | [] => none
    | w :: ahead => nextFrom (i + 1) w ahead

def next? (c : Cursor) : Option (UInt16 × Cursor) := nextFrom c.index c.word c.ahead

/-- The number of values to come. -/
def left (c : Cursor) : Nat := Word.count c.word + (c.ahead.map Word.count).foldr (· + ·) 0

theorem left_nextFrom {i : Nat} {w : UInt64} {ahead : List UInt64} {v : UInt16} {rest : Cursor}
    (h : nextFrom i w ahead = some (v, rest)) : rest.left + 1 = left ⟨i, w, ahead⟩ := by
  fun_induction nextFrom i w ahead with
  | case1 ahead i w hw =>
    cases h
    simp only [left, Word.count_eq_succ hw]
    omega
  | case2 i w hw => cases h
  | case3 i w hw w' ahead ih =>
    obtain rfl : w = 0 := Decidable.not_not.mp hw
    rw [ih h]
    simp [left]

end Cursor

end Words

namespace Runs

/-- A place among the values of runs: what is left of a run, and the runs after it. -/
structure Cursor where
  next : Nat
  stop : Nat
  ahead : List Run
deriving DecidableEq

namespace Cursor

/-- Before the first value. -/
def start (runs : Array Run) : Cursor := ⟨0, 0, runs.toList⟩

/-- The next value of `[next, stop)` and the runs after it, and what is left then. -/
def nextFrom (next stop : Nat) (ahead : List Run) : Option (UInt16 × Cursor) :=
  if next < stop then some (next.toUInt16, ⟨next + 1, stop, ahead⟩)
  else
    match ahead with
    | [] => none
    | r :: ahead => nextFrom r.first.toNat r.stop ahead

def next? (c : Cursor) : Option (UInt16 × Cursor) := nextFrom c.next c.stop c.ahead

/-- The number of values to come. -/
def left (c : Cursor) : Nat := (c.stop - c.next) + (c.ahead.map Run.card).foldr (· + ·) 0

theorem left_nextFrom {next stop : Nat} {ahead : List Run} {v : UInt16} {rest : Cursor}
    (h : nextFrom next stop ahead = some (v, rest)) : rest.left + 1 = left ⟨next, stop, ahead⟩ := by
  fun_induction nextFrom next stop ahead with
  | case1 ahead next stop hlt =>
    cases h
    simp only [left]
    omega
  | case2 next stop hge => cases h
  | case3 next stop hge r ahead ih =>
    rw [ih h]
    simp only [left, List.map_cons, List.foldr_cons]
    have := r.stop_eq
    omega

end Cursor

end Runs

namespace Container

/-- What is left of a walk over the values of a container. -/
inductive Iter where
  | array (ahead : List UInt16)
  | bitset (place : Words.Cursor)
  | run (place : Runs.Cursor)
deriving DecidableEq

/-- A walk that starts at the smallest value. -/
def iter : Container → Iter
  | array vs => .array vs.toList
  | bitset b => .bitset (.start b.words)
  | run rs => .run (.start rs)

namespace Iter

/-- The next value, and what is left after it. -/
def next? : Iter → Option (UInt16 × Iter)
  | array [] => none
  | array (v :: ahead) => some (v, array ahead)
  | bitset place => place.next?.map fun (v, rest) => (v, bitset rest)
  | run place => place.next?.map fun (v, rest) => (v, run rest)

/-- The number of values to come. -/
def left : Iter → Nat
  | array ahead => ahead.length
  | bitset place => place.left
  | run place => place.left

theorem left_next? {it rest : Iter} {v : UInt16} (h : it.next? = some (v, rest)) :
    rest.left + 1 = it.left := by
  cases it with
  | array ahead =>
    cases ahead with
    | nil => cases h
    | cons u ahead => cases h; rfl
  | bitset place =>
    obtain ⟨⟨u, place'⟩, hnext, heq⟩ := Option.map_eq_some_iff.mp h
    cases heq
    exact Words.Cursor.left_nextFrom hnext
  | run place =>
    obtain ⟨⟨u, place'⟩, hnext, heq⟩ := Option.map_eq_some_iff.mp h
    cases heq
    exact Runs.Cursor.left_nextFrom hnext

/-- The values to come. -/
def toList (it : Iter) : List UInt16 :=
  match _h : it.next? with
  | none => []
  | some (v, rest) => v :: rest.toList
termination_by it.left
decreasing_by
  have := left_next? _h
  omega

end Iter

/-- The values in ascending order, as a walk comes to them. Room for all of them is asked for
first. -/
def toSortedValues (c : Container) : Except StorageError (Array UInt16) :=
  if Storage.maxBytes < c.card * Storage.elementBytes .array then
    .error (.container c.encoding c.card)
  else
    .ok c.iter.toList.toArray

end Container

end Roaring
