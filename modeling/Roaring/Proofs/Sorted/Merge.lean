import Roaring.Proofs.Checked.Sorted

/-!
# Sorted values merged onto an output

A merge never reads its output, so it appends the same values to whatever is there already: those of
the operation on sets, in ascending order. An intersection that searches one of its operands appends
what the walk through both does, whichever is searched and however long they are, and an operation
in the storage of its left operand leaves what the merge appends to an empty output.
-/
namespace Roaring.Sorted

open Checked (listMerge listMerge_nil_left listMerge_nil_right listMerge_cons)

/-- What is in the output stays in front of what is appended. -/
theorem listMerge_append (op : SetOp) (as bs : List UInt16) (out vs : Array UInt16) :
    listMerge op as bs (out ++ vs) = out ++ listMerge op as bs vs := by
  have hpush (keep : Bool) (v : UInt16) (vs : Array UInt16) :
      (if keep then (out ++ vs).push v else out ++ vs) =
        out ++ if keep then vs.push v else vs := by
    cases keep <;> simp
  have hrest (keep : Bool) (l : List UInt16) (vs : Array UInt16) :
      (if keep then out ++ vs ++ l else out ++ vs) = out ++ if keep then vs ++ l else vs := by
    cases keep <;> simp [← Array.toList_inj]
  induction as generalizing bs vs with
  | nil => rw [listMerge_nil_left, listMerge_nil_left, hrest]
  | cons a as iha =>
    induction bs generalizing vs with
    | nil => rw [listMerge_nil_right, listMerge_nil_right, hrest]
    | cons b bs ihb =>
      simp only [listMerge_cons, hpush, iha, ihb]
      split_ifs <;> rfl

theorem filter_mem_comm {as bs : List UInt16} (ha : as.Pairwise (· < ·))
    (hb : bs.Pairwise (· < ·)) : bs.filter (· ∈ as) = as.filter (· ∈ bs) :=
  List.Pairwise.eq_of_mem_iff (hb.filter _) (ha.filter _) fun v => by simp [and_comm]

/-- A computation comes to an output that had `out` in it, with the values of an operation on two
arrays after that, in ascending order. -/
structure Appends (op : SetOp) (a b out : Array UInt16) (outcome : Option (Array UInt16))
    (plain : Array UInt16) : Prop where
  outcome_eq : outcome = some plain
  exists_tail : ∃ vs, plain = out ++ vs ∧ Increasing vs ∧ ∀ v, v ∈ vs ↔ op.Holds (v ∈ a) (v ∈ b)

/-- The ways to intersect two arrays: the walk through both, and the search of either one. -/
structure IntersectAlike (a b out : Array UInt16) : Prop where
  walk : Checked.mergeAt .inter a b 0 0 out = some (interInto a.toList b.toList out)
  searchRight : Checked.scan true b a.toList 0 out = some (gallopInto b a.toList 0 out)
  searchRight_eq : gallopInto b a.toList 0 out = interInto a.toList b.toList out
  searchLeft : Checked.scan true a b.toList 0 out = some (gallopInto a b.toList 0 out)
  searchLeft_eq : gallopInto a b.toList 0 out = interInto a.toList b.toList out

/-- What the operations on two arrays append to an output that may hold values already, and what
those in the storage of the left one leave there. -/
structure MergeAsSets (a b : Array UInt16) : Prop where
  union out : Appends .union a b out (Checked.mergeAt .union a b 0 0 out)
    (unionInto a.toList b.toList out)
  inter out : Appends .inter a b out (Checked.interOnto a b out) (interOnto a b out)
  diff out : Appends .diff a b out (Checked.mergeAt .diff a b 0 0 out)
    (diffInto a.toList b.toList out)
  symmDiff out : Appends .symmDiff a b out (Checked.mergeAt .symmDiff a b 0 0 out)
    (symmDiffInto a.toList b.toList out)
  intersectAlike out : IntersectAlike a b out
  keepShared : Checked.keepShared a b = some (keepShared a b)
  keepShared_eq : Sorted.keepShared a b = Sorted.inter a b
  dropShared : Checked.dropShared a b = some (dropShared a b)
  dropShared_eq : Sorted.dropShared a b = Sorted.diff a b
  interCount : Checked.interCount a b = some (interCount a b)
  interCount_eq : Sorted.interCount a b = (Sorted.inter a b).size

section Two

variable {a b : Array UInt16} (ha : Increasing a) (hb : Increasing b)

include ha hb

theorem gallop_right_eq (out : Array UInt16) :
    gallopInto b a.toList 0 out = interInto a.toList b.toList out := by
  apply Array.toList_inj.mp
  rw [toList_gallopInto hb _ _ _ (Nat.zero_le _) ha, toList_interInto _ _ _ ha hb, List.drop_zero]

theorem gallop_left_eq (out : Array UInt16) :
    gallopInto a b.toList 0 out = interInto a.toList b.toList out := by
  apply Array.toList_inj.mp
  rw [toList_gallopInto ha _ _ _ (Nat.zero_le _) hb, toList_interInto _ _ _ ha hb, List.drop_zero,
    filter_mem_comm ha hb]

theorem interOnto_eq (out : Array UInt16) :
    interOnto a b out = interInto a.toList b.toList out := by
  unfold interOnto
  split
  · rename_i hempty
    apply Array.toList_inj.mp
    rw [toList_interInto _ _ _ ha hb]
    rcases hempty with h | h <;> simp [Array.isEmpty_iff.mp h]
  · split
    · exact gallop_right_eq ha hb out
    · split
      · exact gallop_left_eq ha hb out
      · rfl

theorem intersectAlike (out : Array UInt16) : IntersectAlike a b out := by
  have hsa := size_le ha
  have hsb := size_le hb
  exact {
    walk := Checked.mergeAt_zero_eq ha hb .inter
    searchRight := Checked.scan_true_eq (by omega) _ _ _
    searchRight_eq := gallop_right_eq ha hb out
    searchLeft := Checked.scan_true_eq (by omega) _ _ _
    searchLeft_eq := gallop_left_eq ha hb out }

theorem listMerge_spec (op : SetOp) :
    Increasing (listMerge op a.toList b.toList #[]) ∧
      ∀ v, v ∈ listMerge op a.toList b.toList #[] ↔ op.Holds (v ∈ a) (v ∈ b) := by
  cases op with
  | inter =>
    have heq : listMerge .inter a.toList b.toList #[] = a.filter (· ∈ b) :=
      (interOnto_eq ha hb #[]).symm.trans (inter_eq ha hb)
    rw [heq]
    exact ⟨increasing_filter ha _, by simp [SetOp.Holds]⟩
  | union => exact ⟨increasing_union ha hb, mem_union a b⟩
  | diff =>
    have heq : listMerge .diff a.toList b.toList #[] = a.filter (· ∉ b) := diff_eq ha hb
    rw [heq]
    exact ⟨increasing_filter ha _, by simp [SetOp.Holds]⟩
  | symmDiff => exact ⟨increasing_symmDiff ha hb, mem_symmDiff ha hb⟩

theorem appends_listMerge (op : SetOp) (out : Array UInt16) :
    Appends op a b out (Checked.mergeAt op a b 0 0 out) (listMerge op a.toList b.toList out) := by
  obtain ⟨hinc, hmem⟩ := listMerge_spec ha hb op
  refine ⟨Checked.mergeAt_zero_eq ha hb op, _, ?_, hinc, hmem⟩
  rw [← listMerge_append, Array.append_empty]

theorem appends_interOnto (out : Array UInt16) :
    Appends .inter a b out (Checked.interOnto a b out) (interOnto a b out) := by
  have hwalk := appends_listMerge ha hb .inter out
  refine ⟨Checked.interOnto_eq ha hb, ?_⟩
  rw [interOnto_eq ha hb]
  exact hwalk.exists_tail

theorem size_inter : (inter a b).size = interCount a b := by
  have hsize := interCountFrom_add_size a.toList b.toList 0 #[]
  rw [inter, interOnto_eq ha hb, interCount]
  simpa using hsize.symm

/-- The operations on increasing arrays are those on the sets of their values. -/
theorem merged_as_sets : MergeAsSets a b where
  union := appends_listMerge ha hb .union
  inter := appends_interOnto ha hb
  diff := appends_listMerge ha hb .diff
  symmDiff := appends_listMerge ha hb .symmDiff
  intersectAlike := intersectAlike ha hb
  keepShared := Checked.keepShared_eq ha hb
  keepShared_eq := (keepShared_eq ha hb).trans (inter_eq ha hb).symm
  dropShared := Checked.dropShared_eq ha hb
  dropShared_eq := (dropShared_eq ha hb).trans (diff_eq ha hb).symm
  interCount := Checked.interCount_eq ha hb
  interCount_eq := (size_inter ha hb).symm

end Two

/-- The right array is just long enough to be searched for the value of the left one. -/
theorem merged_as_sets_past_ratio :
    (Increasing #[64] ∧ Increasing ((Array.range 65).map Nat.toUInt16) ∧
        #[64].size * gallopRatio < ((Array.range 65).map Nat.toUInt16).size) ∧
      MergeAsSets #[64] ((Array.range 65).map Nat.toUInt16) := by
  have ha : Increasing #[64] := by decide
  have hb : Increasing ((Array.range 65).map Nat.toUInt16) := by decide +kernel
  exact ⟨⟨ha, hb, by simp [gallopRatio]⟩, merged_as_sets ha hb⟩

end Roaring.Sorted
