import Roaring.Bitmap.Update
import Roaring.Container.Defer

/-!
# Combining bitmaps

The set operations on two bitmaps walk both indexes in step. Under a key that both hold, the
containers are combined; the entry of any other key is kept, or left out by searching ahead to the
next key that may be shared. `combine` writes a new index, by one loop for all operations. `absorb`
edits the left index at a cursor, by a loop for each: what is dropped, inserted, cut out or skipped
there differs. The union of many bitmaps defers the finish of its containers to the end.
-/
namespace Roaring

namespace Index

theorem lt_advance_key {es : Array Entry} {i : Nat} {k : UInt16} (hi : i < es.size)
    (hlt : es[i].key < k) : i < advance (·.key < k) es i := lt_advance hi (by simpa using hlt)

theorem size_cut_lt {es : Array Entry} {i : Nat} {k : UInt16} (hi : i < es.size)
    (hlt : es[i].key < k) :
    (es.take i ++ es.drop (advance (·.key < k) es i)).size < es.size := by
  have := lt_advance_key hi hlt
  simp only [Array.size_append, Array.take_eq_extract, Array.drop_eq_extract, Array.size_extract]
  omega

theorem gt_of_ne {k l : UInt16} (hne : k ≠ l) (hlt : ¬k < l) : l < k :=
  UInt16.lt_of_le_of_ne (UInt16.not_lt.mp hlt) hne.symm

/-- Appends an entry unless its container is empty. -/
def pushNonEmpty (out : Array Entry) (e : Entry) : Array Entry :=
  if e.container.isEmpty then out else out.push e

/-- Appends the entries from entry `i` on. -/
def appendFrom (out es : Array Entry) (i : Nat) : Array Entry := (es.drop i).foldl pushNonEmpty out

/-- Appends two indexes combined, from their entries `i` and `j` on. -/
def combineInto (t : Thresholds) (op : SetOp) (as bs : Array Entry) (i j : Nat)
    (out : Array Entry) : Array Entry :=
  if h : i < as.size ∧ j < bs.size then
    if hkey : as[i].key = bs[j].key then
      combineInto t op as bs (i + 1) (j + 1)
        (pushNonEmpty out ⟨as[i].key, Container.combine t op as[i].container bs[j].container⟩)
    else if hlt : as[i].key < bs[j].key then
      if op.keepsLeft then combineInto t op as bs (i + 1) j (pushNonEmpty out as[i])
      else combineInto t op as bs (advance (·.key < bs[j].key) as i) j out
    else if op.keepsRight then combineInto t op as bs i (j + 1) (pushNonEmpty out bs[j])
    else combineInto t op as bs i (advance (·.key < as[i].key) bs j) out
  else
    let out := if op.keepsLeft then appendFrom out as i else out
    if op.keepsRight then appendFrom out bs j else out
termination_by (as.size - i) + (bs.size - j)
decreasing_by
  · omega
  · omega
  · have := lt_advance_key h.1 hlt
    omega
  · omega
  · have := lt_advance_key h.2 (gt_of_ne hkey hlt)
    omega

/-! ## In the place of the left index

Each loop goes on from entry `i` of the index under edit and entry `j` of the other one. A cursor
that may drop its entry stays where it is then; one that inserts an entry goes past it. -/

section InPlace

variable (t : Thresholds) (bs : Array Entry)

/-- The intersection. Entries under keys of the index alone are cut out, and so is its end once the
other one is used up. -/
def interAt (i j : Nat) (es : Array Entry) : Array Entry :=
  if h : i < es.size ∧ j < bs.size then
    if hkey : es[i].key = bs[j].key then
      let c := Container.absorb t .inter es[i].container bs[j].container
      if c.isEmpty then interAt i (j + 1) (es.eraseIdx i)
      else interAt (i + 1) (j + 1) (es.set i ⟨es[i].key, c⟩)
    else if hlt : es[i].key < bs[j].key then
      interAt i j (es.take i ++ es.drop (advance (·.key < bs[j].key) es i))
    else interAt i (advance (·.key < es[i].key) bs j) es
  else es.take i
termination_by (bs.size - j, es.size - i)
decreasing_by
  · exact .left _ _ (by omega)
  · exact .left _ _ (by omega)
  · have := size_cut_lt h.1 hlt
    exact .right _ (by omega)
  · have := lt_advance_key h.2 (gt_of_ne hkey hlt)
    exact .left _ _ (by omega)

/-- The difference. Entries under keys of the index alone are skipped. -/
def diffAt (i j : Nat) (es : Array Entry) : Array Entry :=
  if h : i < es.size ∧ j < bs.size then
    if hkey : es[i].key = bs[j].key then
      let c := Container.absorb t .diff es[i].container bs[j].container
      if c.isEmpty then diffAt i (j + 1) (es.eraseIdx i)
      else diffAt (i + 1) (j + 1) (es.set i ⟨es[i].key, c⟩)
    else if hlt : es[i].key < bs[j].key then diffAt (advance (·.key < bs[j].key) es i) j es
    else diffAt i (advance (·.key < es[i].key) bs j) es
  else es
termination_by (bs.size - j, es.size - i)
decreasing_by
  · exact .left _ _ (by omega)
  · exact .left _ _ (by omega)
  · have := lt_advance_key h.1 hlt
    exact .right _ (by omega)
  · have := lt_advance_key h.2 (gt_of_ne hkey hlt)
    exact .left _ _ (by omega)

/-- The union. No entry becomes empty, and a full container has nothing to gain. -/
def unionAt (i j : Nat) (es : Array Entry) : Array Entry :=
  if h : i < es.size ∧ j < bs.size then
    if es[i].key = bs[j].key then
      if es[i].container.isFull then unionAt (i + 1) (j + 1) es
      else
        let c := Container.absorb t .union es[i].container bs[j].container
        unionAt (i + 1) (j + 1) (es.set i ⟨es[i].key, c⟩)
    else if es[i].key < bs[j].key then unionAt (i + 1) j es
    else unionAt (i + 1) (j + 1) (es.insertIdx i bs[j] (Nat.le_of_lt h.1))
  else appendFrom es bs j
termination_by (bs.size - j, es.size - i)

/-- The symmetric difference. -/
def symmDiffAt (i j : Nat) (es : Array Entry) : Array Entry :=
  if h : i < es.size ∧ j < bs.size then
    if es[i].key = bs[j].key then
      let c := Container.absorb t .symmDiff es[i].container bs[j].container
      if c.isEmpty then symmDiffAt i (j + 1) (es.eraseIdx i)
      else symmDiffAt (i + 1) (j + 1) (es.set i ⟨es[i].key, c⟩)
    else if es[i].key < bs[j].key then symmDiffAt (i + 1) j es
    else symmDiffAt (i + 1) (j + 1) (es.insertIdx i bs[j] (Nat.le_of_lt h.1))
  else appendFrom es bs j
termination_by (bs.size - j, es.size - i)

/-- The union of which the containers stay unfinished. A full one takes part like any other. -/
def deferUnionAt (i j : Nat) (es : Array Entry) : Array Entry :=
  if h : i < es.size ∧ j < bs.size then
    if es[i].key = bs[j].key then
      let c := Container.absorbDeferred t .union es[i].container bs[j].container
      deferUnionAt (i + 1) (j + 1) (es.set i ⟨es[i].key, c⟩)
    else if hlt : es[i].key < bs[j].key then deferUnionAt (advance (·.key < bs[j].key) es i) j es
    else deferUnionAt (i + 1) (j + 1) (es.insertIdx i bs[j] (Nat.le_of_lt h.1))
  else appendFrom es bs j
termination_by (bs.size - j, es.size - i)
decreasing_by
  · exact .left _ _ (by omega)
  · have := lt_advance_key h.1 hlt
    exact .right _ (by omega)
  · exact .left _ _ (by omega)

end InPlace

end Index

namespace Bitmap

/-- The operation on two bitmaps, with the thresholds of the left one. -/
def combine (op : SetOp) (a b : Bitmap) : Bitmap :=
  a.withEntries (Index.combineInto a.thresholds op a.entries b.entries 0 0 #[])

/-- The operation on two bitmaps, in the place of the left one. -/
def absorb (op : SetOp) (a b : Bitmap) : Bitmap :=
  a.withEntries <|
    match op with
    | .inter => Index.interAt a.thresholds b.entries 0 0 a.entries
    | .union => Index.unionAt a.thresholds b.entries 0 0 a.entries
    | .diff => Index.diffAt a.thresholds b.entries 0 0 a.entries
    | .symmDiff => Index.symmDiffAt a.thresholds b.entries 0 0 a.entries

/-- The operation on a bitmap and itself, in its place. -/
def absorbSelf (op : SetOp) (b : Bitmap) : Bitmap :=
  match op with
  | .inter | .union => b.mapContainers (Container.absorbSelf b.thresholds op)
  | .diff | .symmDiff => b.clear

/-- Takes in the values of another bitmap, leaving containers unfinished. -/
def deferUnion (a b : Bitmap) : Bitmap :=
  a.withEntries (Index.deferUnionAt a.thresholds b.entries 0 0 a.entries)

/-- The union of many bitmaps, with the thresholds of the first one. -/
def unionAll : List Bitmap → Bitmap
  | [] => ∅
  | [b] => b
  | b :: bs =>
    let u := bs.foldl deferUnion b
    u.mapContainers (Container.compact u.thresholds)

end Bitmap

end Roaring
