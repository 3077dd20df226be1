import Roaring.Proofs.Checked.Runs.Merge
import Roaring.Proofs.Runs.Tracker

/-!
# Runs compared, checked

Cursors walk two run arrays to compare them or to count what they share, and one walks a run array
along ascending values. A count adds at most 65536 for each run passed.
-/
namespace Roaring.Runs.Checked

open Machine

variable {a b : Array Run} {as bs before before' : List Run} {i j : Nat}

/-- Passes the runs that end before `v`, from index `j` on. -/
def skipTo (b : Array Run) (v : Nat) (j : Nat) : Option Nat :=
  if h : j < b.size then do
    if (← Run.Checked.last b[j]) < v then do
      check (j + 1 < 2 ^ 64)
      skipTo b v (j + 1)
    else some j
  else some j
termination_by b.size - j

/-- Whether each run of a list lies within a single run of `b` from index `j` on. -/
def isSubsetAt (b : Array Run) : List Run → Nat → Option Bool
  | [], _ => some true
  | r :: rs, j => do
    let j ← skipTo b r.first.toNat j
    match b[j]? with
    | none => some false
    | some s => do
      if s.first ≤ r.first ∧ (← Run.Checked.last r) ≤ (← Run.Checked.last s) then isSubsetAt b rs j
      else some false

def isSubset (a b : Array Run) : Option Bool := isSubsetAt b a.toList 0

/-- Adds to `n` the number of values from `start` to `last`. -/
def addSpan (start last n : Nat) : Option Nat :=
  if start ≤ last then do to64 (n + ((← minus last start) + 1)) else some n

/-- Adds to `n` the number of values in both arrays, from their indices `i` and `j` on. -/
def interCountAt (a b : Array Run) (i j n : Nat) : Option Nat :=
  if h : i < a.size ∧ j < b.size then do
    check (i + 1 < 2 ^ 64 ∧ j + 1 < 2 ^ 64)
    let r ← a[i]?
    let s ← b[j]?
    let last ← Run.Checked.last r
    let last' ← Run.Checked.last s
    let n ← addSpan (max r.first.toNat s.first.toNat) (min last last') n
    if last < last' then interCountAt a b (i + 1) j n else interCountAt a b i (j + 1) n
  else some n
termination_by (a.size - i) + (b.size - j)

def interCount (a b : Array Run) : Option Nat := interCountAt a b 0 0 0

/-- Whether the arrays share a value, from their indices `i` and `j` on. -/
def intersectsAt (a b : Array Run) (i j : Nat) : Option Bool :=
  if h : i < a.size ∧ j < b.size then do
    check (i + 1 < 2 ^ 64 ∧ j + 1 < 2 ^ 64)
    let r ← a[i]?
    let s ← b[j]?
    if (← Run.Checked.last r) < s.first.toNat then intersectsAt a b (i + 1) j
    else if (← Run.Checked.last s) < r.first.toNat then intersectsAt a b i (j + 1)
    else some true
  else some false
termination_by (a.size - i) + (b.size - j)

def intersects (a b : Array Run) : Option Bool := intersectsAt a b 0 0

/-- Whether the run at index `j` holds `v`, which it does not end before. -/
def heldAt (b : Array Run) (j : Nat) (v : UInt16) : Bool := b[j]?.any (·.first ≤ v)

/-- Appends the values of an ascending list that the runs from index `j` on hold, or those that they
lack. -/
def filterAt (keep : Bool) (b : Array Run) :
    List UInt16 → Nat → Array UInt16 → Option (Array UInt16)
  | [], _, out => some out
  | v :: vs, j, out => do
    let j ← skipTo b v.toNat j
    filterAt keep b vs j (if heldAt b j v = keep then out.push v else out)

/-- Whether the runs from index `j` on hold every value of an ascending list. -/
def allAt (b : Array Run) : List UInt16 → Nat → Option Bool
  | [], _ => some true
  | v :: vs, j => do
    let j ← skipTo b v.toNat j
    if heldAt b j v then allAt b vs j else some false

/-- The answers of the runs from index `j` on to ascending queries in turn. -/
def answersAt (b : Array Run) : List UInt16 → Nat → Option (List Bool)
  | [], _ => some []
  | v :: vs, j => do
    let j ← skipTo b v.toNat j
    (heldAt b j v :: ·) <$> answersAt b vs j

/-- The values of a sorted array that the runs hold. -/
def keepHeld (runs : Array Run) (values : Array UInt16) : Option (Array UInt16) :=
  filterAt true runs values.toList 0 #[]

/-- The values of a sorted array that the runs lack. -/
def dropHeld (runs : Array Run) (values : Array UInt16) : Option (Array UInt16) :=
  filterAt false runs values.toList 0 #[]

/-- Whether the runs hold every value of a sorted array. -/
def holdsAll (runs : Array Run) (values : Array UInt16) : Option Bool :=
  allAt runs values.toList 0

theorem skipTo_eq (hsize : b.size < 2 ^ 63) (hb : Split b j before bs) (v : Nat) :
    ∃ n before', skipTo b v j = some n ∧ Split b n before' (bs.dropWhile (·.last < v)) := by
  induction bs generalizing j before with
  | nil =>
    rw [skipTo, dif_neg hb.not_lt_size]
    exact ⟨j, _, rfl, hb⟩
  | cons r bs ih =>
    have hj := hb.lt_size
    rw [skipTo, dif_pos hj, hb.getElem_eq, bind_of_eq (Run.Checked.last_eq r)]
    by_cases hr : r.last < v
    · rw [if_pos hr, bind_of_eq (check_of (by omega)),
        List.dropWhile_cons_of_pos (by simpa using hr)]
      exact ih hb.next
    · rw [if_neg hr, List.dropWhile_cons_of_neg (by simpa using hr)]
      exact ⟨j, _, rfl, hb⟩

theorem isSubsetAt_eq (hsize : b.size < 2 ^ 63) (as : List Run) (hb : Split b j before bs) :
    isSubsetAt b as j = some (isSubsetList as bs) := by
  induction as generalizing j before bs with
  | nil => rfl
  | cons r as ih =>
    obtain ⟨n, before, hskip, hsplit⟩ := skipTo_eq hsize hb r.first.toNat
    rw [isSubsetAt, bind_of_eq hskip, hsplit.getElem?_eq, isSubsetList]
    cases hrest : bs.dropWhile (·.last < r.first.toNat) with
    | nil => rfl
    | cons s bs' =>
      rw [hrest] at hsplit
      simp only [List.head?_cons, Run.Checked.last_eq, Option.bind_eq_bind, Option.bind_some,
        ih hsplit]
      split
      · rename_i h
        rw [decide_eq_true h.1, decide_eq_true h.2, Bool.true_and, Bool.true_and]
      · rename_i h
        rw [← Bool.decide_and, decide_eq_false h, Bool.false_and]

theorem isSubset_eq (hb : Valid b) : isSubset a b = some (Runs.isSubset a b) := by
  have hsb := size_le hb
  exact isSubsetAt_eq (by omega) _ (.zero b)

theorem shared_le (r s : Run) :
    min r.stop s.stop - max r.first.toNat s.first.toNat ≤ 65536 := by
  have hr := r.extra.toNat_lt
  unfold Run.stop Run.last
  omega

theorem addSpan_eq {r s : Run} {n : Nat} (hn : n < 2 ^ 63) :
    addSpan (max r.first.toNat s.first.toNat) (min r.last s.last) n =
      some (n + (min r.stop s.stop - max r.first.toNat s.first.toNat)) := by
  have hshared := shared_le r s
  unfold addSpan Run.stop at *
  split
  · rw [bind_of_eq (minus_of_le ‹_›), to64_of_lt (by omega)]
    exact congrArg some (by omega)
  · exact congrArg some (by omega)

theorem interCountAt_cons {n : Nat} {r s : Run} (hsa : a.size < 2 ^ 40) (hsb : b.size < 2 ^ 40)
    (hn : n ≤ (i + j) * 65536) (ha : Split a i before (r :: as))
    (hb : Split b j before' (s :: bs)) :
    interCountAt a b i j n =
      let n := n + (min r.stop s.stop - max r.first.toNat s.first.toNat)
      if r.last < s.last then interCountAt a b (i + 1) j n else interCountAt a b i (j + 1) n := by
  have hi := ha.lt_size
  have hj := hb.lt_size
  rw [interCountAt, dif_pos ⟨hi, hj⟩, bind_of_eq (check_of ⟨by omega, by omega⟩),
    bind_of_eq ha.getElem?_cons, bind_of_eq hb.getElem?_cons, bind_of_eq (Run.Checked.last_eq r),
    bind_of_eq (Run.Checked.last_eq s), bind_of_eq (addSpan_eq (by omega))]

theorem interCountAt_eq {n : Nat} (hsa : a.size < 2 ^ 40) (hsb : b.size < 2 ^ 40)
    (hn : n ≤ (i + j) * 65536) (ha : Split a i before as) (hb : Split b j before' bs) :
    interCountAt a b i j n = some (interCountFrom as bs n) := by
  fun_induction interCountFrom as bs n generalizing i j before before' with
  | case1 bs n => rw [interCountAt, dif_neg fun h => ha.not_lt_size h.1]
  | case2 as n => rw [interCountAt, dif_neg fun h => hb.not_lt_size h.2]
  | case3 r as s bs n =>
    rename_i n' hlt ih
    rw [interCountAt_cons hsa hsb hn ha hb, if_pos hlt]
    exact ih (by have := shared_le r s; omega) ha.next hb
  | case4 r as s bs n =>
    rename_i n' hlt ih
    rw [interCountAt_cons hsa hsb hn ha hb, if_neg hlt]
    exact ih (by have := shared_le r s; omega) ha hb.next

theorem interCount_eq (ha : Valid a) (hb : Valid b) :
    interCount a b = some (Runs.interCount a b) := by
  have hsa := size_le ha
  have hsb := size_le hb
  exact interCountAt_eq (by omega) (by omega) (Nat.zero_le _) (.zero a) (.zero b)

theorem intersectsAt_eq (hsa : a.size < 2 ^ 63) (hsb : b.size < 2 ^ 63)
    (ha : Split a i before as) (hb : Split b j before' bs) :
    intersectsAt a b i j = some (intersectsList as bs) := by
  fun_induction intersectsAt a b i j generalizing as bs before before' with
  | case1 i j h ihLeft ihRight =>
    obtain ⟨as, rfl⟩ := ha.exists_cons h.1
    obtain ⟨bs, rfl⟩ := hb.exists_cons h.2
    rw [read_heads h hsa hsb, bind_of_eq (Run.Checked.last_eq a[i]), intersectsList]
    split
    · exact ihLeft ha.next hb
    · rw [bind_of_eq (Run.Checked.last_eq b[j])]
      split
      · exact ihRight ha hb.next
      · rfl
  | case2 i j h =>
    rcases not_and_or.mp h with h | h
    · rw [ha.eq_nil h, intersectsList]
    · rw [hb.eq_nil h]
      cases as <;> rw [intersectsList]
      simp

theorem intersects_eq (ha : Valid a) (hb : Valid b) :
    intersects a b = some (Runs.intersects a b) := by
  have hsa := size_le ha
  have hsb := size_le hb
  exact intersectsAt_eq (by omega) (by omega) (.zero a) (.zero b)

theorem atHead_eq {rs : List Run} (hb : Split b j before rs) (v : UInt16) :
    Tracker.atHead ⟨rs⟩ v = heldAt b j v := by
  rw [heldAt, hb.getElem?_eq]
  cases rs <;> rfl

theorem filterAt_eq {keep : Bool} (hsize : b.size < 2 ^ 63) (vs : List UInt16)
    (hb : Split b j before bs) (out : Array UInt16) :
    filterAt keep b vs j out = some (Tracker.filterInto keep ⟨bs⟩ vs out) := by
  induction vs generalizing j before bs out with
  | nil => rfl
  | cons v vs ih =>
    obtain ⟨n, before, hskip, hsplit⟩ := skipTo_eq hsize hb v.toNat
    rw [filterAt, bind_of_eq hskip, Tracker.filterInto, Tracker.query, Tracker.seek,
      atHead_eq hsplit]
    exact ih hsplit _

theorem allAt_eq (hsize : b.size < 2 ^ 63) (vs : List UInt16) (hb : Split b j before bs) :
    allAt b vs j = some (Tracker.all ⟨bs⟩ vs) := by
  induction vs generalizing j before bs with
  | nil => rfl
  | cons v vs ih =>
    obtain ⟨n, before, hskip, hsplit⟩ := skipTo_eq hsize hb v.toNat
    rw [allAt, bind_of_eq hskip, Tracker.all, Tracker.query, Tracker.seek, atHead_eq hsplit,
      ih hsplit]
    cases heldAt b n v <;> rfl

theorem answersAt_eq (hsize : b.size < 2 ^ 63) (vs : List UInt16) (hb : Split b j before bs) :
    answersAt b vs j = some (Tracker.answers ⟨bs⟩ vs) := by
  induction vs generalizing j before bs with
  | nil => rfl
  | cons v vs ih =>
    obtain ⟨n, before, hskip, hsplit⟩ := skipTo_eq hsize hb v.toNat
    rw [answersAt, bind_of_eq hskip, Tracker.answers, Tracker.query, Tracker.seek,
      atHead_eq hsplit, ih hsplit]
    rfl

section Tracked

variable (hb : Valid b) (vs : Array UInt16)

include hb

theorem keepHeld_eq : keepHeld b vs = some (Runs.keepHeld b vs) := by
  have hsb := size_le hb
  exact filterAt_eq (by omega) _ (.zero b) _

theorem dropHeld_eq : dropHeld b vs = some (Runs.dropHeld b vs) := by
  have hsb := size_le hb
  exact filterAt_eq (by omega) _ (.zero b) _

theorem holdsAll_eq : holdsAll b vs = some (Runs.holdsAll b vs) := by
  have hsb := size_le hb
  exact allAt_eq (by omega) _ (.zero b)

end Tracked

end Roaring.Runs.Checked
