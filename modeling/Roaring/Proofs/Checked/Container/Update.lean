import Roaring.Container.Update
import Roaring.Proofs.Checked.Container.Defer

/-!
# Relations and changes of containers, checked

Inclusion, overlap and the size of the intersection of two containers, and the changes of a single
value or a range of values in one.
-/
namespace Roaring.Container.Checked

open Machine

/-! ## Relations -/

/-- Whether a bitset holds every value of the runs. -/
def holdsRuns (b : Bitset) (rs : Array Run) : Option Bool :=
  rs.toList.allM fun r => do
    Bitset.Checked.containsRange b r.first.toNat (← Run.Checked.stop r)

/-- Whether every value of the left operand is in the right one, which has no fewer values. -/
def isWithin : Container → Container → Option Bool
  | bitset a, bitset b => some (Words.isSubset a.words b.words)
  | run a, run b => Runs.Checked.isSubset a b
  | run a, bitset b => holdsRuns b a
  | array a, run b => Runs.Checked.holdsAll b a
  | array a, array b => Sorted.Checked.isSubset a b
  | a, b => do all (contains b) (← values a)

/-- Whether every value of the left operand is in the right one. -/
def isSubset (a b : Container) : Option Bool := do
  if (← card b) < (← card a) then some false else isWithin a b

/-- Whether a bitset holds a value of one of the runs. -/
def runsMeet (rs : Array Run) (b : Bitset) : Option Bool :=
  rs.toList.anyM fun r => do
    some (0 < (← Bitset.Checked.countRange b r.first.toNat (← Run.Checked.stop r)))

/-- Whether some value is in both operands. -/
def intersects : Container → Container → Option Bool
  | bitset a, bitset b => some (Words.intersects a.words b.words)
  | run a, run b => Runs.Checked.intersects a b
  | run r, bitset b => runsMeet r b
  | bitset b, run r => runsMeet r b
  | array a, array b => do some (0 < (← Sorted.Checked.interCount a b))
  | array a, b => any (contains b) a
  | a, array b => any (contains a) b

/-- The number of values in both operands. -/
def interCard : Container → Container → Option Nat
  | bitset a, bitset b => interCount a.words b.words
  | run a, run b => Runs.Checked.interCount a b
  | run r, bitset b => Bitset.Checked.countRuns b r
  | bitset b, run r => Bitset.Checked.countRuns b r
  | array a, array b => Sorted.Checked.interCount a b
  | array a, b => count (contains b) a
  | a, array b => count (contains a) b

section Relations

variable {a b : Container}

theorem holdsRuns_eq (b : Bitset) (rs : Array Run) :
    holdsRuns b rs = some (rs.all fun r => b.containsRange r.first.toNat r.stop) := by
  rw [holdsRuns, ← Array.all_toList]
  refine allM_eq_some fun r _ => ?_
  rw [bind_of_eq (Run.Checked.stop_eq r)]
  exact Bitset.Checked.containsRange_eq b r.first.toNat r.stop

theorem allContained_eq (ha : a.Valid) (hb : b.Valid) :
    (values a >>= fun vs => all (contains b) vs) = some (a.values.all b.contains) := by
  rw [bind_of_eq (values_eq ha)]
  exact all_eq (contains_eq hb) a.values

theorem isSubset_eq (ha : a.Valid) (hb : b.Valid) : isSubset a b = some (a.isSubset b) := by
  rw [isSubset, bind_of_eq (card_eq hb), bind_of_eq (card_eq ha)]
  unfold Container.isSubset
  split
  · rfl
  · cases a with
    | array as =>
      cases b with
      | array bs => exact Sorted.Checked.isSubset_eq hb
      | bitset b => exact allContained_eq ha hb
      | run bs => exact Runs.Checked.holdsAll_eq hb as
    | bitset a =>
      cases b with
      | array bs => exact allContained_eq ha hb
      | bitset b => rfl
      | run bs => exact allContained_eq ha hb
    | run as =>
      cases b with
      | array bs => exact allContained_eq ha hb
      | bitset b => exact holdsRuns_eq b as
      | run bs => exact Runs.Checked.isSubset_eq hb

theorem runsMeet_eq {rs : Array Run} (h : Runs.Valid rs) (b : Bitset) :
    runsMeet rs b = some (intersects.runsMeet rs b) := by
  rw [runsMeet, intersects.runsMeet, ← Array.any_toList]
  refine anyM_eq_some fun r hr => ?_
  rw [bind_of_eq (Run.Checked.stop_eq r), Bitset.Checked.countRange_eq, Bitset.countRange?,
    if_pos (Bitset.Checked.rangeOk_of_le (h.1 r hr))]
  rfl

theorem intersects_eq (ha : a.Valid) (hb : b.Valid) : intersects a b = some (a.intersects b) := by
  cases a with
  | array as =>
    cases b with
    | array bs => exact bind_of_eq (Sorted.Checked.interCount_eq ha hb) _
    | bitset b => exact any_eq (contains_eq hb) as
    | run bs => exact any_eq (contains_eq hb) as
  | bitset a =>
    cases b with
    | array bs => exact any_eq (contains_eq ha) bs
    | bitset b => rfl
    | run bs => exact runsMeet_eq hb a
  | run as =>
    cases b with
    | array bs => exact any_eq (contains_eq ha) bs
    | bitset b => exact runsMeet_eq ha b
    | run bs => exact Runs.Checked.intersects_eq ha hb

theorem countContained_eq {vs : Array UInt16} (hvs : Sorted.Increasing vs) (hb : b.Valid) :
    count (contains b) vs = some (vs.countP b.contains) := by
  have hsize := Sorted.size_le hvs
  exact count_eq (contains_eq hb) (by omega)

theorem interCard_eq (ha : a.Valid) (hb : b.Valid) : interCard a b = some (a.interCard b) := by
  cases a with
  | array as =>
    cases b with
    | array bs => exact Sorted.Checked.interCount_eq ha hb
    | bitset b => exact countContained_eq ha hb
    | run bs => exact countContained_eq ha hb
  | bitset a =>
    cases b with
    | array bs => exact countContained_eq hb ha
    | bitset b => exact interCount_eq a.words b.words
    | run bs => exact Bitset.Checked.countRuns_eq a hb
  | run as =>
    cases b with
    | array bs => exact countContained_eq hb ha
    | bitset b => exact Bitset.Checked.countRuns_eq b ha
    | run bs => exact Runs.Checked.interCount_eq ha hb

end Relations

/-! ## Changes -/

/-- An array with a value that it lacks, which a full array becomes a bitset for. -/
def insertAbsent (t : Thresholds) (vs : Array UInt16) (v : UInt16) : Option Container := do
  match ← Sorted.Checked.insertWithin t.maxArraySize vs v with
  | (true, vs) => some (array vs)
  | (false, vs) => do
    let (_, b) ← Bitset.Checked.insert (← Bitset.Checked.ofValues vs) v
    some (bitset b)

/-- Adds a value; also whether it was absent. -/
def insert (t : Thresholds) (c : Container) (v : UInt16) : Option (Bool × Container) :=
  match c with
  | array vs =>
    if Sorted.contains vs v then some (false, array vs) else do some (true, ← insertAbsent t vs v)
  | bitset b => do
    let (added, b) ← Bitset.Checked.insert b v
    some (added, bitset b)
  | run rs => do
    let (added, rs) ← Runs.Checked.insert rs v
    some (added, run rs)

/-- Removes a value; also whether it was there. A bitset that becomes small becomes an array. -/
def erase (t : Thresholds) (c : Container) (v : UInt16) : Option (Bool × Container) :=
  match c with
  | array vs => do some (Sorted.contains vs v, array (← Sorted.Checked.erase vs v))
  | bitset b => do
    match ← Bitset.Checked.erase b v with
    | (true, b) => do some (true, ← compactBitset t b)
    | (false, b) => some (false, bitset b)
  | run rs => do
    let (removed, rs) ← Runs.Checked.erase rs v
    some (removed, run rs)

/-- Absorbs the values in `[start, stop)`; those past the domain are left out. -/
def absorbRange (t : Thresholds) (op : SetOp) (c : Container) (start stop : Nat) :
    Option Container :=
  if start < min stop domainSize then do absorb t op c (run (← Runs.Checked.ofRange start stop))
  else some c

section Changes

variable (t : Thresholds) {c : Container}

theorem insertAbsent_eq (vs : Array UInt16) (v : UInt16) : insertAbsent t vs v =
    some (match Sorted.insertWithin t.maxArraySize vs v with
      | (true, vs) => array vs
      | (false, vs) => bitset ((Bitset.ofValues vs).insert v).2) := by
  rw [insertAbsent, bind_of_eq (Sorted.Checked.insertWithin_eq t.maxArraySize v)]
  rcases Sorted.insertWithin t.maxArraySize vs v with ⟨fits, us⟩
  cases fits with
  | true => rfl
  | false =>
    have hinsert := Bitset.Checked.insert_eq (Bitset.exact_ofValues us) v
    exact (bind_of_eq (Bitset.Checked.ofValues_eq us) _).trans (bind_of_eq hinsert _)

theorem insert_eq (h : c.Valid) (v : UInt16) : insert t c v = some (c.insert t v) := by
  cases c with
  | array vs =>
    rw [insert, Container.insert]
    split
    · rfl
    · rw [bind_of_eq (insertAbsent_eq t vs v)]
      rcases Sorted.insertWithin t.maxArraySize vs v with ⟨fits, us⟩
      cases fits <;> rfl
  | bitset b => exact bind_of_eq (Bitset.Checked.insert_eq h v) _
  | run rs => exact bind_of_eq (Runs.Checked.insert_eq h v) _

theorem erase_eq (h : c.Valid) (v : UInt16) : erase t c v = some (c.erase t v) := by
  cases c with
  | array vs => exact bind_of_eq (Sorted.Checked.erase_eq v) _
  | bitset b =>
    rw [erase, bind_of_eq (Bitset.Checked.erase_eq h v), Container.erase]
    rcases b.erase v with ⟨removed, b⟩
    cases removed with
    | true => exact bind_of_eq (compactBitset_eq t b) _
    | false => rfl
  | run rs => exact bind_of_eq (Runs.Checked.erase_eq h v) _

theorem absorbRange_eq (op : SetOp) (h : c.Valid) (start stop : Nat) :
    absorbRange t op c start stop = some (c.absorbRange t op start stop) := by
  unfold absorbRange Container.absorbRange
  split
  · rw [bind_of_eq (Runs.Checked.ofRange_eq start stop)]
    exact absorb_eq t op h (Runs.valid_ofRange start stop)
  · rfl

end Changes

end Roaring.Container.Checked
