import Roaring.Proofs.Buffer
import Roaring.Proofs.Checked.Sorted

/-!
# Sorted values merged in reserved room

The merges of two sorted arrays, written into a buffer with the cursors of a machine. How many
values an operation can still give depends on how many are ahead in each array, and `SetOp.most`
falls by at least one with every push. A search in the longer array pushes once for each value of
the shorter one at most.
-/
namespace Roaring

namespace SetOp

/-- The most values that an operation gives on operands of these sizes. -/
def most : SetOp → Nat → Nat → Nat
  | inter, m, n => min m n
  | union, m, n => m + n
  | diff, m, _ => m
  | symmDiff, m, n => m + n

section Most

variable (op : SetOp) (m n : Nat)

theorem most_left : op.keepsLeft.toNat + op.most m n ≤ op.most (m + 1) n := by
  cases op <;> simp only [keepsLeft, eval, most, Bool.toNat] <;> grind

theorem most_right : op.keepsRight.toNat + op.most m n ≤ op.most m (n + 1) := by
  cases op <;> simp only [keepsRight, eval, most, Bool.toNat] <;> grind

theorem most_both : (op.eval true true).toNat + op.most m n ≤ op.most (m + 1) (n + 1) := by
  cases op <;> simp only [eval, most, Bool.toNat] <;> grind

theorem le_most_zero_right (h : op.keepsLeft) : m ≤ op.most m 0 := by
  cases op <;> simp_all [keepsLeft, eval, most]

theorem le_most_zero_left (h : op.keepsRight) : n ≤ op.most 0 n := by
  cases op <;> simp_all [keepsRight, eval, most]

end Most

end SetOp

namespace Sorted.Buffered

open Buffer
open Checked (listMerge listMerge_cons listMerge_nil_left listMerge_nil_right)

variable {room : Nat}

/-! ## Walking two arrays -/

/-- Adds a value, if it is to be kept. -/
def pushIf (keep : Bool) (v : UInt16) (out : Buffer UInt16 room) : Option (Buffer UInt16 room) :=
  if keep then out.push? v else some out

/-- Adds the rest of an array from index `i` on, if it is to be kept. -/
def appendRest (keep : Bool) (a : Array UInt16) (i : Nat) (out : Buffer UInt16 room) :
    Option (Buffer UInt16 room) :=
  if keep then out.append? (a.extract i) else some out

/-- Appends two arrays merged, from their indices `i` and `j` on. -/
def mergeAt (op : SetOp) (a b : Array UInt16) (i j : Nat) (out : Buffer UInt16 room) :
    Option (Buffer UInt16 room) :=
  if h : i < a.size ∧ j < b.size then
    have hi := h.1
    have hj := h.2
    if a[i] < b[j] then do mergeAt op a b (i + 1) j (← pushIf op.keepsLeft a[i] out)
    else if b[j] < a[i] then do mergeAt op a b i (j + 1) (← pushIf op.keepsRight b[j] out)
    else do mergeAt op a b (i + 1) (j + 1) (← pushIf (op.eval true true) a[i] out)
  else do
    let out ← appendRest op.keepsLeft a i out
    appendRest op.keepsRight b j out
termination_by (a.size - i) + (b.size - j)

/-- Appends the values of a list that a cursor through `large`, now at `i`, meets. -/
def gallop (large : Array UInt16) : List UInt16 → Nat → Buffer UInt16 room →
    Option (Buffer UInt16 room)
  | [], _, out => some out
  | v :: vs, i, out =>
    let j := advance (· < v) large i
    if h : j < large.size then do gallop large vs j (← pushIf (large[j] = v) v out)
    else some out

variable {a b out : Array UInt16} {as bs before before' : List UInt16} {i j : Nat}

theorem pushIf_leaves (keep : Bool) (v : UInt16) (fits : out.size ≤ room)
    (h : out.size + keep.toNat ≤ room) :
    Leaves (pushIf keep v ⟨out, fits⟩) (if keep then out.push v else out) := by
  unfold pushIf
  split
  · rename_i hkeep
    exact leaves_push fits (by simp [hkeep] at h; omega)
  · exact leaves_some fits

theorem size_pushIf (keep : Bool) (v : UInt16) (out : Array UInt16) :
    (if keep then out.push v else out).size = out.size + keep.toNat := by
  cases keep <;> simp

theorem appendRest_leaves (keep : Bool) (ha : Split a i before as) (fits : out.size ≤ room)
    (h : keep → out.size + as.length ≤ room) :
    Leaves (appendRest keep a i ⟨out, fits⟩) (if keep then out ++ as else out) := by
  have happ : out ++ as = out ++ as.toArray := Array.toList_inj.mp (by simp)
  unfold appendRest
  split
  · rename_i hkeep
    rw [happ, ha.extract_eq]
    exact leaves_append fits (h hkeep)
  · exact leaves_some fits

/-- What is in the buffer and what the operation can still give fit into the room together. -/
theorem mergeAt_leaves (op : SetOp) (ha : Split a i before as) (hb : Split b j before' bs)
    (out : Buffer UInt16 room) (h : out.items.size + op.most as.length bs.length ≤ room) :
    Leaves (mergeAt op a b i j out) (listMerge op as bs out.items) := by
  fun_induction mergeAt op a b i j out generalizing as bs before before' with
  | case1 i j out hlt hi hj hab ih =>
    obtain ⟨as, rfl⟩ := ha.exists_cons hi
    obtain ⟨bs, rfl⟩ := hb.exists_cons hj
    have hmost := op.most_left as.length (bs.length + 1)
    rw [List.length_cons, List.length_cons] at h
    rw [listMerge_cons, if_pos hab]
    refine (pushIf_leaves _ _ out.fits (by omega)).bind fun fits => ih _ ha.next hb ?_
    rw [size_pushIf, List.length_cons]
    omega
  | case2 i j out hlt hi hj hab hba ih =>
    obtain ⟨as, rfl⟩ := ha.exists_cons hi
    obtain ⟨bs, rfl⟩ := hb.exists_cons hj
    have hmost := op.most_right (as.length + 1) bs.length
    rw [List.length_cons, List.length_cons] at h
    rw [listMerge_cons, if_neg hab, if_pos hba]
    refine (pushIf_leaves _ _ out.fits (by omega)).bind fun fits => ih _ ha hb.next ?_
    rw [size_pushIf, List.length_cons]
    omega
  | case3 i j out hlt hi hj hab hba ih =>
    obtain ⟨as, rfl⟩ := ha.exists_cons hi
    obtain ⟨bs, rfl⟩ := hb.exists_cons hj
    have hmost := op.most_both as.length bs.length
    rw [List.length_cons, List.length_cons] at h
    rw [listMerge_cons, if_neg hab, if_neg hba]
    refine (pushIf_leaves _ _ out.fits (by omega)).bind fun fits => ih _ ha.next hb.next ?_
    rw [size_pushIf]
    omega
  | case4 i j out hlt =>
    rcases not_and_or.mp hlt with hlt | hlt
    · obtain rfl := ha.eq_nil hlt
      have hfirst : Leaves (appendRest op.keepsLeft a i out) out.items := by
        simpa using appendRest_leaves op.keepsLeft ha out.fits fun _ => out.fits
      rw [listMerge_nil_left]
      refine hfirst.bind fun fits => appendRest_leaves _ hb fits fun hkeep => ?_
      have hmost := op.le_most_zero_left bs.length hkeep
      rw [List.length_nil] at h
      omega
    · obtain rfl := hb.eq_nil hlt
      rw [listMerge_nil_right]
      have hfirst : Leaves (appendRest op.keepsLeft a i out)
          (if op.keepsLeft then out.items ++ as else out.items) := by
        refine appendRest_leaves _ ha out.fits fun hkeep => ?_
        have hmost := op.le_most_zero_right as.length hkeep
        rw [List.length_nil] at h
        omega
      refine hfirst.bind fun fits => ?_
      simpa using appendRest_leaves op.keepsRight hb fits fun _ => fits

/-- A cursor meets each of the values still to come once at most. -/
theorem gallop_leaves (large : Array UInt16) (vs : List UInt16) (i : Nat) (out : Array UInt16)
    (h : out.size + vs.length ≤ room) (fits : out.size ≤ room) :
    Leaves (gallop large vs i ⟨out, fits⟩) (gallopInto large vs i out) := by
  induction vs generalizing i out with
  | nil => exact leaves_some fits
  | cons v vs ih =>
    rw [gallop, gallopInto]
    rw [List.length_cons] at h
    split
    · rename_i hlt
      have hkeep := Bool.toNat_le (decide (large[advance (· < v) large i] = v))
      have hpush := pushIf_leaves (decide (large[advance (· < v) large i] = v)) v fits
        (by omega)
      have hsize := size_pushIf (decide (large[advance (· < v) large i] = v)) v out
      simp only [decide_eq_true_eq] at hpush hsize
      exact hpush.bind (ih _ _ (by omega))
    · exact leaves_some fits

/-! ## Operations on two arrays -/

def union (a b : Array UInt16) (out : Buffer UInt16 room) : Option (Buffer UInt16 room) :=
  mergeAt .union a b 0 0 out

def diff (a b : Array UInt16) (out : Buffer UInt16 room) : Option (Buffer UInt16 room) :=
  mergeAt .diff a b 0 0 out

def symmDiff (a b : Array UInt16) (out : Buffer UInt16 room) : Option (Buffer UInt16 room) :=
  mergeAt .symmDiff a b 0 0 out

/-- The intersection. With a much longer array it goes through that one by a cursor. -/
def inter (a b : Array UInt16) (out : Buffer UInt16 room) : Option (Buffer UInt16 room) :=
  if a.isEmpty ∨ b.isEmpty then some out
  else if a.size * gallopRatio < b.size then gallop b a.toList 0 out
  else if b.size * gallopRatio < a.size then gallop a b.toList 0 out
  else mergeAt .inter a b 0 0 out

theorem mergeAt_zero_leaves (op : SetOp) :
    Leaves (mergeAt op a b 0 0 (.empty (op.most a.size b.size)))
      (listMerge op a.toList b.toList #[]) :=
  mergeAt_leaves op (.zero a) (.zero b) _ (by simp [empty])

theorem union_leaves : Leaves (union a b (.empty (a.size + b.size))) (Sorted.union a b) :=
  mergeAt_zero_leaves .union

theorem diff_leaves : Leaves (diff a b (.empty a.size)) (Sorted.diff a b) :=
  mergeAt_zero_leaves .diff

theorem symmDiff_leaves : Leaves (symmDiff a b (.empty (a.size + b.size))) (Sorted.symmDiff a b) :=
  mergeAt_zero_leaves .symmDiff

theorem inter_leaves : Leaves (inter a b (.empty (min a.size b.size))) (Sorted.inter a b) := by
  unfold inter Sorted.inter interOnto
  split
  · exact leaves_some _
  · split
    · refine gallop_leaves b a.toList 0 #[] ?_ (Nat.zero_le _)
      simp only [gallopRatio, List.size_toArray, List.length_nil, Array.length_toList] at *
      omega
    · split
      · refine gallop_leaves a b.toList 0 #[] ?_ (Nat.zero_le _)
        simp only [gallopRatio, List.size_toArray, List.length_nil, Array.length_toList] at *
        omega
      · exact mergeAt_zero_leaves .inter

end Sorted.Buffered

end Roaring
