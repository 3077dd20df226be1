import Roaring.Encoding
import Roaring.Proofs.Checked.Machine
import Roaring.Proofs.Sorted.Query

/-!
# Sorted values, checked

Merges of two arrays by cursors, searches by a galloping cursor, the thinning of an array in its own
storage, and the edits and queries of one array. An increasing array has at most 65536 values, which
is all that keeps the cursors and counts in range.
-/
namespace Roaring.Sorted

theorem size_le {a : Array UInt16} (h : Increasing a) : a.size ≤ 65536 := by
  have hnodup : (a.toList.map UInt16.toNat).Nodup :=
    (nodup_of_increasing h).map fun _ _ => UInt16.toNat_inj.mp
  have hsub : a.toList.map UInt16.toNat ⊆ List.range 65536 := by
    intro n hn
    obtain ⟨v, -, rfl⟩ := List.mem_map.mp hn
    exact List.mem_range.mpr v.toNat_lt
  simpa using hnodup.length_le_of_subset hsub

namespace Checked

open Machine

variable {a b : Array UInt16} {v : UInt16}

/-! ## Walking two arrays -/

/-- Appends the rest of an array from index `i` on, if it is to be kept. -/
def appendRest (keep : Bool) (a : Array UInt16) (i : Nat) (out : Array UInt16) :
    Option (Array UInt16) :=
  if keep then (slice a i a.size).map (out ++ ·) else some out

/-- Appends two arrays merged, from their indices `i` and `j` on. -/
def mergeAt (op : SetOp) (a b : Array UInt16) (i j : Nat) (out : Array UInt16) :
    Option (Array UInt16) :=
  if h : i < a.size ∧ j < b.size then do
    check (i + 1 < 2 ^ 64 ∧ j + 1 < 2 ^ 64)
    if a[i] < b[j] then mergeAt op a b (i + 1) j (if op.keepsLeft then out.push a[i] else out)
    else if b[j] < a[i] then
      mergeAt op a b i (j + 1) (if op.keepsRight then out.push b[j] else out)
    else mergeAt op a b (i + 1) (j + 1) (if op.eval true true then out.push a[i] else out)
  else do
    let out ← appendRest op.keepsLeft a i out
    appendRest op.keepsRight b j out
termination_by (a.size - i) + (b.size - j)

/-- Adds to `n` the number of values in both arrays, from their indices `i` and `j` on. -/
def interCountAt (a b : Array UInt16) (i j n : Nat) : Option Nat :=
  if h : i < a.size ∧ j < b.size then do
    check (i + 1 < 2 ^ 64 ∧ j + 1 < 2 ^ 64 ∧ n + 1 < 2 ^ 64)
    if a[i] < b[j] then interCountAt a b (i + 1) j n
    else if b[j] < a[i] then interCountAt a b i (j + 1) n
    else interCountAt a b (i + 1) (j + 1) (n + 1)
  else some n
termination_by (a.size - i) + (b.size - j)

/-- The merge of two lists by one operation. -/
def listMerge : SetOp → List UInt16 → List UInt16 → Array UInt16 → Array UInt16
  | .inter => interInto
  | .union => unionInto
  | .diff => diffInto
  | .symmDiff => symmDiffInto

variable (op : SetOp) {as bs before before' : List UInt16} {i j : Nat} {out : Array UInt16}

theorem listMerge_nil_left (bs : List UInt16) (out : Array UInt16) :
    listMerge op [] bs out = if op.keepsRight then out ++ bs else out := by
  cases op with
  | inter => rw [listMerge, interInto]; rfl
  | union => rw [listMerge, unionInto]; rfl
  | diff => rw [listMerge, diffInto]; rfl
  | symmDiff => rw [listMerge, symmDiffInto]; rfl

theorem listMerge_nil_right (as : List UInt16) (out : Array UInt16) :
    listMerge op as [] out = if op.keepsLeft then out ++ as else out := by
  cases as with
  | nil => simp [listMerge_nil_left]
  | cons a as =>
    cases op with
    | inter => rw [listMerge, interInto]; rfl; simp
    | union => rw [listMerge, unionInto]; rfl; simp
    | diff => rw [listMerge, diffInto]; rfl; simp
    | symmDiff => rw [listMerge, symmDiffInto]; rfl; simp

theorem listMerge_cons (a b : UInt16) (as bs : List UInt16) (out : Array UInt16) :
    listMerge op (a :: as) (b :: bs) out =
      if a < b then listMerge op as (b :: bs) (if op.keepsLeft then out.push a else out)
      else if b < a then listMerge op (a :: as) bs (if op.keepsRight then out.push b else out)
      else listMerge op as bs (if op.eval true true then out.push a else out) := by
  have heq : ¬a < b → ¬b < a → a = b := fun h h' =>
    UInt16.le_antisymm (UInt16.not_lt.mp h') (UInt16.not_lt.mp h)
  cases op with
  | inter => rw [listMerge, interInto]; rfl
  | union => rw [listMerge, unionInto]; rfl
  | diff =>
    rw [listMerge, diffInto]
    grind [SetOp.keepsLeft, SetOp.keepsRight, SetOp.eval]
  | symmDiff =>
    rw [listMerge, symmDiffInto]
    grind [SetOp.keepsLeft, SetOp.keepsRight, SetOp.eval]

/-- What an array keeps of a split is all that comes after it. -/
theorem appendRest_eq (keep : Bool) (out : Array UInt16) (h : Split a i before as) :
    appendRest keep a i out = some (if keep then out ++ as else out) := by
  unfold appendRest
  split
  · rw [slice_of_le h.le_size (Nat.le_refl _), h.extract_eq, Option.map_some]
    exact congrArg some (Array.toList_inj.mp (by simp))
  · rfl

theorem mergeAt_eq (op : SetOp) (hsa : a.size < 2 ^ 63) (hsb : b.size < 2 ^ 63)
    (ha : Split a i before as) (hb : Split b j before' bs) :
    mergeAt op a b i j out = some (listMerge op as bs out) := by
  fun_induction mergeAt op a b i j out generalizing as bs before before' with
  | case1 i j out h ihLeft ihRight ihBoth =>
    obtain ⟨as, rfl⟩ := ha.exists_cons h.1
    obtain ⟨bs, rfl⟩ := hb.exists_cons h.2
    rw [bind_of_eq (check_of ⟨by omega, by omega⟩), listMerge_cons]
    simp only [dite_eq_ite] at ihLeft ihRight ihBoth
    split
    · exact ihLeft ha.next hb
    · split
      · exact ihRight ha hb.next
      · exact ihBoth ha.next hb.next
  | case2 i j out h =>
    rw [bind_of_eq (appendRest_eq op.keepsLeft out ha), appendRest_eq op.keepsRight _ hb]
    rcases not_and_or.mp h with h | h
    · rw [ha.eq_nil h, listMerge_nil_left]
      simp
    · rw [hb.eq_nil h, listMerge_nil_right]
      simp

theorem interCountAt_eq {n : Nat} (hsa : a.size < 2 ^ 62) (hsb : b.size < 2 ^ 62) (hn : n ≤ i)
    (ha : Split a i before as) (hb : Split b j before' bs) :
    interCountAt a b i j n = some (interCountFrom as bs n) := by
  fun_induction interCountAt a b i j n generalizing as bs before before' with
  | case1 i j n h ihLeft ihRight ihBoth =>
    obtain ⟨as, rfl⟩ := ha.exists_cons h.1
    obtain ⟨bs, rfl⟩ := hb.exists_cons h.2
    rw [bind_of_eq (check_of ⟨by omega, by omega, by omega⟩), interCountFrom]
    split
    · exact ihLeft (by omega) ha.next hb
    · split
      · exact ihRight hn ha hb.next
      · exact ihBoth (by omega) ha.next hb.next
  | case2 i j n h =>
    rcases not_and_or.mp h with h | h
    · rw [ha.eq_nil h, interCountFrom]
    · rw [hb.eq_nil h]
      cases as <;> rw [interCountFrom]
      simp

/-! ## Walking one array along another -/

/-- Whether `v` stands at an index. -/
def hits (a : Array UInt16) (i : Nat) (v : UInt16) : Bool :=
  if h : i < a.size then a[i] = v else false

@[simp] theorem hits_iff {i : Nat} : hits a i v ↔ a[i]? = some v := by
  unfold hits
  split
  · rename_i h
    simp [h]
  · rename_i h
    simp [h]

/-- Appends the values of a list that a cursor through `b`, now at `i`, meets, or those that it does
not meet. Where the former are asked for, the end of `b` ends the walk. -/
def scan (keep : Bool) (b : Array UInt16) :
    List UInt16 → Nat → Array UInt16 → Option (Array UInt16)
  | [], _, out => some out
  | v :: vs, i, out => do
    let i ← moveCursor (· < v) b i
    if keep ∧ b.size ≤ i then some out
    else scan keep b vs i (if hits b i v = keep then out.push v else out)

theorem scan_true_eq (hb : b.size < 2 ^ 62) (vs : List UInt16) (i : Nat) (out : Array UInt16) :
    scan true b vs i out = some (gallopInto b vs i out) := by
  induction vs generalizing i out with
  | nil => rfl
  | cons v vs ih =>
    rw [scan, bind_of_eq (moveCursor_eq _ i hb), gallopInto]
    simp only [true_and, ih]
    by_cases h : advance (· < v) b i < b.size
    · rw [if_neg (Nat.not_le.mpr h), dif_pos h]
      simp only [hits, dif_pos h, decide_eq_true_eq]
    · rw [if_pos (Nat.le_of_not_lt h), dif_neg h]

theorem scan_false_eq (hb : b.size < 2 ^ 62) (vs : List UInt16) (i : Nat) (out : Array UInt16) :
    scan false b vs i out = some (gallopPastInto b vs i out) := by
  induction vs generalizing i out with
  | nil => rfl
  | cons v vs ih =>
    rw [scan, bind_of_eq (moveCursor_eq _ i hb), gallopPastInto]
    simp only [Bool.false_eq_true, false_and, if_false, ih]
    by_cases hv : b[advance (· < v) b i]? = some v
    · rw [if_pos hv, if_neg (by simpa using hv)]
    · rw [if_neg hv, if_pos (Bool.eq_false_iff.mpr (mt hits_iff.mp hv))]

/-- Goes through the next `n` values of `a`, of which the cursor stands at `read`, and moves those
to be kept to `write`. -/
def thinAt (keep : Bool) (b : Array UInt16) :
    Nat → Nat → Nat → Nat → Array UInt16 → Option (Array UInt16)
  | 0, _, write, _, a => some (a.take write)
  | n + 1, read, write, i, a => do
    let v ← a[read]?
    let i ← moveCursor (· < v) b i
    if keep ∧ b.size ≤ i then some (a.take write)
    else if hits b i v = keep then do
      let a ← store a write v
      let write ← to64 (write + 1)
      thinAt keep b n (read + 1) write i a
    else thinAt keep b n (read + 1) write i a

/-- The values kept so far stand before `write`. Between them and the values still to be read lie
those that were dropped or moved. -/
theorem thinAt_eq {keep : Bool} (hb : b.size < 2 ^ 62) (vs between : List UInt16)
    {read write i : Nat} {a out : Array UInt16} (ha : a.size < 2 ^ 62)
    (hs : Split a write out.toList (between ++ vs)) (hread : read = write + between.length) :
    thinAt keep b vs.length read write i a = scan keep b vs i out := by
  induction vs generalizing between read write i a out with
  | nil => exact congrArg some (Array.toList_inj.mp hs.toList_take)
  | cons v vs ih =>
    have hat : a[read]? = some v := by
      rw [← Array.getElem?_toList, hs.eq, hread, ← hs.length, ← List.append_assoc,
        List.getElem?_append_right (by simp)]
      simp
    have hassoc : between ++ v :: vs = (between ++ [v]) ++ vs := by simp
    rw [List.length_cons, thinAt, bind_of_eq hat, bind_of_eq (moveCursor_eq _ i hb), scan,
      bind_of_eq (moveCursor_eq _ i hb)]
    split
    · exact congrArg some (Array.toList_inj.mp hs.toList_take)
    · split
      · obtain ⟨x, between', hx⟩ := List.exists_cons_of_ne_nil (l := between ++ [v]) (by simp)
        have hlength := congrArg List.length hx
        rw [hassoc, hx, List.cons_append] at hs
        have hwrite : write < a.size := by
          have := congrArg List.length hs.eq
          simp only [Array.length_toList, List.length_append, List.length_cons, hs.length] at this
          omega
        have hstored : Split (a.setIfInBounds write v) (write + 1) (out.push v).toList
            (between' ++ vs) :=
          ⟨by rw [hs.toList_set]; simp, by simp [← hs.length]⟩
        rw [bind_of_eq (store_of_lt hwrite v), bind_of_eq (to64_of_lt (by omega))]
        refine ih between' (by simpa using ha) hstored ?_
        simp only [List.length_append, List.length_cons, List.length_nil] at hlength
        omega
      · rw [hassoc] at hs
        refine ih (between ++ [v]) ha hs ?_
        simp only [List.length_append, List.length_cons, List.length_nil]
        omega

/-- Whether a cursor through `b`, now at `i`, meets every value of a list. -/
def scanAll (b : Array UInt16) : List UInt16 → Nat → Option Bool
  | [], _ => some true
  | v :: vs, i => do
    let i ← moveCursor (· < v) b i
    if hits b i v then scanAll b vs i else some false

theorem scanAll_eq (hb : b.size < 2 ^ 62) (vs : List UInt16) (i : Nat) :
    scanAll b vs i = some (gallopAll b vs i) := by
  induction vs generalizing i with
  | nil => rfl
  | cons v vs ih =>
    rw [scanAll, bind_of_eq (moveCursor_eq _ i hb), gallopAll, ih]
    by_cases hv : b[advance (· < v) b i]? = some v
    · rw [if_pos (hits_iff.mpr hv), decide_eq_true hv, Bool.true_and]
    · rw [if_neg (mt hits_iff.mp hv), decide_eq_false hv, Bool.false_and]

/-! ## Operations on two arrays -/

def union (a b : Array UInt16) : Option (Array UInt16) := mergeAt .union a b 0 0 #[]

def diff (a b : Array UInt16) : Option (Array UInt16) := mergeAt .diff a b 0 0 #[]

def symmDiff (a b : Array UInt16) : Option (Array UInt16) := mergeAt .symmDiff a b 0 0 #[]

def inter (a b : Array UInt16) : Option (Array UInt16) :=
  if a.isEmpty ∨ b.isEmpty then some #[]
  else do
    if (← to64 (a.size * gallopRatio)) < b.size then scan true b a.toList 0 #[]
    else if (← to64 (b.size * gallopRatio)) < a.size then scan true a b.toList 0 #[]
    else mergeAt .inter a b 0 0 #[]

/-- The intersection, appended to `out`. -/
def interOnto (a b out : Array UInt16) : Option (Array UInt16) :=
  if a.isEmpty ∨ b.isEmpty then some out
  else do
    if (← to64 (a.size * gallopRatio)) < b.size then scan true b a.toList 0 out
    else if (← to64 (b.size * gallopRatio)) < a.size then scan true a b.toList 0 out
    else mergeAt .inter a b 0 0 out

theorem interOnto_empty (a b : Array UInt16) : interOnto a b #[] = inter a b := rfl

def interCount (a b : Array UInt16) : Option Nat := interCountAt a b 0 0 0

/-- The values of `a` that `b` holds too, in the storage of `a`. -/
def keepShared (a b : Array UInt16) : Option (Array UInt16) := thinAt true b a.size 0 0 0 a

/-- The values of `a` that `b` lacks, in the storage of `a`. -/
def dropShared (a b : Array UInt16) : Option (Array UInt16) := thinAt false b a.size 0 0 0 a

def isSubset (a b : Array UInt16) : Option Bool := scanAll b a.toList 0

section Two

variable (ha : Increasing a) (hb : Increasing b)

include ha hb

theorem mergeAt_zero_eq (op : SetOp) :
    mergeAt op a b 0 0 out = some (listMerge op a.toList b.toList out) := by
  have hsa := size_le ha
  have hsb := size_le hb
  exact mergeAt_eq op (by omega) (by omega) (.zero a) (.zero b)

theorem union_eq : union a b = some (Sorted.union a b) := mergeAt_zero_eq ha hb .union

theorem diff_eq : diff a b = some (Sorted.diff a b) := mergeAt_zero_eq ha hb .diff

theorem symmDiff_eq : symmDiff a b = some (Sorted.symmDiff a b) := mergeAt_zero_eq ha hb .symmDiff

theorem interOnto_eq : interOnto a b out = some (Sorted.interOnto a b out) := by
  have hsa := size_le ha
  have hsb := size_le hb
  have hra : to64 (a.size * gallopRatio) = some (a.size * gallopRatio) :=
    to64_of_lt (by rw [gallopRatio]; omega)
  have hrb : to64 (b.size * gallopRatio) = some (b.size * gallopRatio) :=
    to64_of_lt (by rw [gallopRatio]; omega)
  unfold interOnto Sorted.interOnto
  split
  · rfl
  · rw [bind_of_eq hra]
    split
    · exact scan_true_eq (by omega) _ _ _
    · rw [bind_of_eq hrb]
      split
      · exact scan_true_eq (by omega) _ _ _
      · exact mergeAt_zero_eq ha hb .inter

theorem inter_eq : inter a b = some (Sorted.inter a b) := by
  rw [← interOnto_empty]
  exact interOnto_eq ha hb

theorem interCount_eq : interCount a b = some (Sorted.interCount a b) := by
  have hsa := size_le ha
  have hsb := size_le hb
  exact interCountAt_eq (by omega) (by omega) (Nat.le_refl 0) (.zero a) (.zero b)

theorem thinAt_zero_eq (keep : Bool) :
    thinAt keep b a.size 0 0 0 a = scan keep b a.toList 0 #[] := by
  have hsa := size_le ha
  have hsb := size_le hb
  rw [← Array.length_toList]
  exact thinAt_eq (by omega) a.toList [] (by omega) (.zero a) rfl

theorem keepShared_eq : keepShared a b = some (Sorted.keepShared a b) := by
  have hsb := size_le hb
  exact (thinAt_zero_eq ha hb true).trans (scan_true_eq (by omega) _ _ _)

theorem dropShared_eq : dropShared a b = some (Sorted.dropShared a b) := by
  have hsb := size_le hb
  exact (thinAt_zero_eq ha hb false).trans (scan_false_eq (by omega) _ _ _)

omit ha in
theorem isSubset_eq : isSubset a b = some (Sorted.isSubset a b) := by
  have hsb := size_le hb
  exact scanAll_eq (by omega) _ _

end Two

/-! ## One array -/

/-- The number of values at most `v`: the place of `v` if it is there, and one more for it. -/
def rank (a : Array UInt16) (v : UInt16) : Option Nat :=
  if contains a v then to64 (lowerBound a v + 1) else some (lowerBound a v)

/-- The place of the last value of a range is found from that of the first one. -/
def containsRange (a : Array UInt16) (start stop : Nat) : Option Bool :=
  if stop ≤ start then some true
  else if 65536 < stop then some false
  else do
    let length ← minus stop start
    if a.size < length then some false
    else do
      let first ← to16 start
      if contains a first then do
        let last ← minus (← to64 (lowerBound a first + length)) 1
        if h : last < a.size then do
          let n ← minus stop 1
          some (a[last].toNat = n)
        else some false
      else some false

/-- Counts the runs of a list whose values come after `previous`. -/
def numRunsFrom : Option UInt16 → List UInt16 → Nat → Option Nat
  | _, [], n => some n
  | none, v :: vs, n => do numRunsFrom (some v) vs (← to64 (n + 1))
  | some p, v :: vs, n => do
    if (← to32 (p.toNat + 1)) = v.toNat then numRunsFrom (some v) vs n
    else numRunsFrom (some v) vs (← to64 (n + 1))

def numRuns (a : Array UInt16) : Option Nat := numRunsFrom none a.toList 0

/-- Removes a value from its place, if it is there. -/
def erase (a : Array UInt16) (v : UInt16) : Option (Array UInt16) :=
  if contains a v then removeAt a (lowerBound a v) else some a

/-- Adds a value at its place, unless it is there or the array is at its largest. -/
def insertWithin (max : Nat) (a : Array UInt16) (v : UInt16) : Option (Bool × Array UInt16) :=
  if contains a v then some (true, a)
  else if max ≤ a.size then some (false, a)
  else do some (true, ← insertAt a (lowerBound a v) v)

/-- Adds a value at the end, where it has to be the largest. -/
def push (a : Array UInt16) (v : UInt16) : Option (Array UInt16) := do
  check (a.back?.all (· < v))
  some (a.push v)

theorem lowerBound_le (a : Array UInt16) (v : UInt16) : lowerBound a v ≤ a.size :=
  countWhile_le _ _

theorem lowerBound_lt (h : contains a v) : lowerBound a v < a.size := by
  have hat := of_decide_eq_true h
  exact (Array.getElem?_eq_some_iff.mp hat).1

theorem numRunsFrom_eq (previous : Option UInt16) (vs : List UInt16) (n : Nat)
    (hn : n + vs.length < 2 ^ 64) :
    numRunsFrom previous vs n = some (Sorted.numRunsFrom previous vs n) := by
  induction vs generalizing previous n with
  | nil => cases previous <;> rfl
  | cons v vs ih =>
    rw [List.length_cons] at hn
    have hmore := ih (some v) (n + 1) (by omega)
    cases previous with
    | none => rw [numRunsFrom, bind_of_eq (to64_of_lt (by omega)), hmore]; rfl
    | some p =>
      have hp := p.toNat_lt
      rw [numRunsFrom, bind_of_eq (to32_of_lt (by omega)), Sorted.numRunsFrom, Option.any_some]
      split
      · rename_i heq
        rw [ih _ _ (by omega), if_pos (decide_eq_true heq)]
      · rename_i hne
        rw [bind_of_eq (to64_of_lt (by omega)), hmore, if_neg (by simpa using hne)]

theorem erase_eq (v : UInt16) : erase a v = some (Sorted.erase a v) := by
  unfold erase Sorted.erase
  split
  · rename_i hc
    exact removeAt_of_lt (lowerBound_lt hc)
  · rfl

theorem insertWithin_eq (max : Nat) (v : UInt16) :
    insertWithin max a v = some (Sorted.insertWithin max a v) := by
  unfold insertWithin Sorted.insertWithin
  split
  · rfl
  · split
    · rfl
    · rename_i hc _
      rw [bind_of_eq (insertAt_of_le (lowerBound_le a v) v), Sorted.insert, if_neg hc]

theorem push_eq (hv : ∀ m ∈ a.back?, m < v) : push a v = some (a.push v) := by
  have hall : a.back?.all (· < v) := by simpa [Option.all_eq_true] using hv
  exact bind_of_eq (check_of hall) _

section One

variable (h : Increasing a)

include h

theorem rank_eq (v : UInt16) : rank a v = some (Sorted.rank a v) := by
  have hsize := size_le h
  have hle := lowerBound_le a v
  unfold rank Sorted.rank
  split
  · rw [to64_of_lt (by omega)]
  · rfl

theorem containsRange_eq (start stop : Nat) :
    containsRange a start stop = some (Sorted.containsRange a start stop) := by
  have hsize := size_le h
  have hle := lowerBound_le a start.toUInt16
  unfold containsRange Sorted.containsRange
  split
  · rfl
  · split
    · rfl
    · rw [bind_of_eq (minus_of_le (by omega))]
      split
      · rfl
      · rw [bind_of_eq (to16_of_lt (by omega))]
        split
        · rename_i hc
          rw [bind_of_eq (to64_of_lt (by omega)), bind_of_eq (minus_of_le (by omega))]
          simp only [show a[lowerBound a start.toUInt16]? = some start.toUInt16 from
            of_decide_eq_true hc, decide_true, Bool.true_and]
          split
          · rename_i hlast
            rw [bind_of_eq (minus_of_le (by omega)), Array.getElem?_eq_getElem hlast]
          · rename_i hlast
            rw [Array.getElem?_eq_none (Nat.le_of_not_lt hlast)]
        · rename_i hc
          have hc : ¬a[lowerBound a start.toUInt16]? = some start.toUInt16 := fun e =>
            hc (decide_eq_true e)
          simp only [hc, decide_false, Bool.false_and]

theorem numRuns_eq : numRuns a = some (Sorted.numRuns a) := by
  have hsize := size_le h
  exact numRunsFrom_eq none a.toList 0 (by rw [Array.length_toList]; omega)

end One

end Checked

end Roaring.Sorted
