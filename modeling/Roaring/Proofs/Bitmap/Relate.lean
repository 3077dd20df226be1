import Mathlib.Data.Finset.Card
import Roaring.Proofs.Bitmap.Absorb
import Roaring.Proofs.Checked.Bitmap.Relate
import Roaring.Proofs.Container.Relate

/-!
# Relations and the bitmaps they stand for

The relations between two bitmaps walk both indexes as the operations do, so each of them is a
question about the merge that the operation writes: whether it is empty, or how many values it has.
The sizes of the other results follow from that of the intersection.
-/
namespace Roaring

/-! ## Sizes of results -/

/-- The number of values of a result, from those of the operands and of their intersection. -/
def SetOp.resultSize (op : SetOp) (a b shared : Nat) : Nat :=
  match op with
  | inter => shared
  | union => a + b - shared
  | diff => a - shared
  | symmDiff => a + b - 2 * shared

theorem SetOp.card_eq_resultSize {α : Type} [DecidableEq α] (op : SetOp) {a b c : Finset α}
    (h : ∀ v, v ∈ c ↔ op.Holds (v ∈ a) (v ∈ b)) :
    c.card = op.resultSize a.card b.card (a ∩ b).card := by
  have hleft := Finset.card_sdiff_add_card_inter a b
  have hright := Finset.card_sdiff_add_card_inter b a
  rw [Finset.inter_comm] at hright
  cases op with
  | inter =>
    obtain rfl : c = a ∩ b := Finset.ext fun v => by simp [h, Holds]
    rfl
  | union =>
    obtain rfl : c = a ∪ b := Finset.ext fun v => by simp [h, Holds]
    exact Finset.card_union a b
  | diff =>
    obtain rfl : c = a \ b := Finset.ext fun v => by simp [h, Holds]
    rw [resultSize]
    omega
  | symmDiff =>
    obtain rfl : c = a \ b ∪ b \ a := Finset.ext fun v => by simp [h, Holds]
    rw [resultSize, Finset.card_union_of_disjoint disjoint_sdiff_sdiff]
    omega

/-- Lists without repetitions stand for the sets of what they list. -/
theorem length_eq_resultSize {α : Type} [DecidableEq α] (op : SetOp) {as bs shared cs : List α}
    (ha : as.Nodup) (hb : bs.Nodup) (hs : shared.Nodup) (hc : cs.Nodup)
    (hshared : ∀ v, v ∈ shared ↔ v ∈ as ∧ v ∈ bs)
    (hcs : ∀ v, v ∈ cs ↔ op.Holds (v ∈ as) (v ∈ bs)) :
    cs.length = op.resultSize as.length bs.length shared.length := by
  have hinter : shared.toFinset = as.toFinset ∩ bs.toFinset := Finset.ext fun v => by simp [hshared]
  rw [← List.toFinset_card_of_nodup ha, ← List.toFinset_card_of_nodup hb,
    ← List.toFinset_card_of_nodup hs, ← List.toFinset_card_of_nodup hc, hinter]
  exact op.card_eq_resultSize fun v => by simp [hcs]

/-! ## Indexes -/

namespace Index

variable {as bs : List Entry} (t : Thresholds)

theorem isEmpty_entryOf_append {k : UInt16} {c : Container} (es : List Entry) :
    (entryOf k c ++ es).isEmpty = (c.isEmpty && es.isEmpty) := by
  unfold entryOf
  cases c.isEmpty <;> simp

theorem cardOf_entryOf_append {k : UInt16} {c : Container} (h : c.Valid) (es : List Entry)
    (n : Nat) : Bitmap.cardOf (entryOf k c ++ es) n = Bitmap.cardOf es (n + c.card) := by
  unfold entryOf
  split
  · rw [Container.card_eq_zero_of_isEmpty h ‹_›]
    rfl
  · rfl

/-- Inclusion asks for an empty difference. -/
theorem isSubset_eq_isEmpty (ha : ∀ e ∈ as, e.container.Valid) (hb : ∀ e ∈ bs, e.container.Valid) :
    isSubset as bs = (mergeBy (Container.combine t .diff) .diff as bs).isEmpty := by
  fun_induction isSubset as bs with
  | case1 bs => simp [mergeBy, only, SetOp.keepsRight, SetOp.eval]
  | case2 a as => simp [mergeBy, only, SetOp.keepsLeft, SetOp.eval]
  | case3 a as b bs hkey ih =>
    -- a shared key
    obtain ⟨hva, ha⟩ := List.forall_mem_cons.mp ha
    obtain ⟨hvb, hb⟩ := List.forall_mem_cons.mp hb
    rw [mergeBy, if_pos hkey, isEmpty_entryOf_append, Container.isEmpty_combine_diff t hva hvb,
      ih ha hb]
  | case4 a as b bs hkey hlt =>
    -- a key of the left index alone stays in the difference
    rw [mergeBy, if_neg hkey, if_pos hlt]
    rfl
  | case5 a as b bs hkey hlt ih =>
    -- a key of the right index alone is skipped by both
    rw [mergeBy, if_neg hkey, if_neg hlt, ih ha (List.forall_mem_cons.mp hb).2]
    rfl

/-- Overlap asks for an intersection that is not empty. -/
theorem intersects_eq_not_isEmpty (ha : ∀ e ∈ as, e.container.Valid)
    (hb : ∀ e ∈ bs, e.container.Valid) :
    intersects as bs = !(mergeBy (Container.combine t .inter) .inter as bs).isEmpty := by
  fun_induction intersects as bs with
  | case1 bs => simp [mergeBy, only, SetOp.keepsRight, SetOp.eval]
  | case2 as => simp [mergeBy, only, SetOp.keepsLeft, SetOp.eval]
  | case3 a as b bs hkey ih =>
    obtain ⟨hva, ha⟩ := List.forall_mem_cons.mp ha
    obtain ⟨hvb, hb⟩ := List.forall_mem_cons.mp hb
    rw [mergeBy, if_pos hkey, isEmpty_entryOf_append, Container.isEmpty_combine_inter t hva hvb,
      Bool.not_and, Bool.not_not, ih ha hb]
  | case4 a as b bs hkey hlt ih =>
    rw [mergeBy, if_neg hkey, if_pos hlt, ih (List.forall_mem_cons.mp ha).2 hb]
    rfl
  | case5 a as b bs hkey hlt ih =>
    rw [mergeBy, if_neg hkey, if_neg hlt, ih ha (List.forall_mem_cons.mp hb).2]
    rfl

/-- What is counted as shared are the values of the intersection. -/
theorem interCardFrom_eq_cardOf (ha : ∀ e ∈ as, e.container.Valid)
    (hb : ∀ e ∈ bs, e.container.Valid) (n : Nat) :
    interCardFrom as bs n =
      Bitmap.cardOf (mergeBy (Container.combine t .inter) .inter as bs) n := by
  fun_induction interCardFrom as bs n with
  | case1 bs n => simp [mergeBy, only, SetOp.keepsRight, SetOp.eval, Bitmap.cardOf]
  | case2 as n => simp [mergeBy, only, SetOp.keepsLeft, SetOp.eval, Bitmap.cardOf]
  | case3 a as b bs n hkey ih =>
    obtain ⟨hva, ha⟩ := List.forall_mem_cons.mp ha
    obtain ⟨hvb, hb⟩ := List.forall_mem_cons.mp hb
    have hvalid := (Container.settled_combine t .inter hva hvb).valid
    rw [mergeBy, if_pos hkey, cardOf_entryOf_append hvalid, Container.card_combine_inter t hva hvb,
      ih ha hb]
  | case4 a as b bs n hkey hlt ih =>
    rw [mergeBy, if_neg hkey, if_pos hlt, ih (List.forall_mem_cons.mp ha).2 hb]
    rfl
  | case5 a as b bs n hkey hlt ih =>
    rw [mergeBy, if_neg hkey, if_neg hlt, ih ha (List.forall_mem_cons.mp hb).2]
    rfl

end Index

/-! ## Bitmaps -/

namespace Bitmap

variable {a b : Bitmap}

theorem isEmpty_combine (op : SetOp) (ha : a.WellFormed) (hb : b.WellFormed) :
    (a.combine op b).isEmpty =
      (Index.mergeBy (Container.combine a.thresholds op) op a.entries.toList
        b.entries.toList).isEmpty := by
  rw [← toList_entries_combine op ha hb, Array.isEmpty_toList]
  rfl

theorem isSubset_eq_isEmpty (ha : a.WellFormed) (hb : b.WellFormed) :
    a.isSubset b = (a.combine .diff b).isEmpty := by
  rw [isEmpty_combine .diff ha hb]
  exact Index.isSubset_eq_isEmpty a.thresholds (valid_of_mem ha) (valid_of_mem hb)

theorem intersects_eq_not_isEmpty (ha : a.WellFormed) (hb : b.WellFormed) :
    a.intersects b = !(a.combine .inter b).isEmpty := by
  rw [isEmpty_combine .inter ha hb]
  exact Index.intersects_eq_not_isEmpty a.thresholds (valid_of_mem ha) (valid_of_mem hb)

theorem interCard_eq_card (ha : a.WellFormed) (hb : b.WellFormed) :
    a.interCard b = (a.combine .inter b).card := by
  rw [card_eq_cardOf, toList_entries_combine .inter ha hb]
  exact Index.interCardFrom_eq_cardOf a.thresholds (valid_of_mem ha) (valid_of_mem hb) 0

theorem opCard_eq_resultSize (op : SetOp) (a b : Bitmap) :
    opCard op a b = op.resultSize a.card b.card (a.interCard b) := by
  cases op <;> rfl

theorem opCard_eq_card (op : SetOp) (ha : a.WellFormed) (hb : b.WellFormed) :
    opCard op a b = (a.combine op b).card := by
  obtain ⟨hshared, hmem⟩ := combine_spec .inter ha hb
  obtain ⟨hresult, hmem'⟩ := combine_spec op ha hb
  rw [opCard_eq_resultSize, interCard_eq_card ha hb, card_eq_length ha,
    card_eq_length hb, card_eq_length hshared, card_eq_length hresult]
  refine (length_eq_resultSize op (nodup_values ha) (nodup_values hb) (nodup_values hshared)
    (nodup_values hresult) (fun v => ?_) fun v => ?_).symm
  · rw [mem_values, mem_values, mem_values]
    exact hmem v
  · rw [mem_values, mem_values, mem_values]
    exact hmem' v

/-! ### As sets -/

theorem isEmpty_iff (h : a.WellFormed) : a.isEmpty ↔ ∀ v, ¬v ∈ a := by
  have hsound := wellFormed_iff.mp h
  have hlist : a.isEmpty ↔ a.entries.toList = [] := by
    rw [isEmpty, ← Array.isEmpty_toList, List.isEmpty_iff]
  rw [hlist]
  constructor
  · intro hnil v hv
    rw [mem_iff, hnil] at hv
    exact Index.not_holds_nil hv
  · intro hno
    cases hentries : a.entries.toList with
    | nil => rfl
    | cons e es =>
      obtain ⟨low, hlow⟩ := Index.Sound.exists_head (hentries ▸ hsound)
      exact absurd (holds_iff.mp (hentries ▸ hlow)) (hno _)

theorem isSubset_iff (ha : a.WellFormed) (hb : b.WellFormed) :
    a.isSubset b ↔ ∀ v, v ∈ a → v ∈ b := by
  obtain ⟨hwf, hmem⟩ := combine_spec .diff ha hb
  rw [isSubset_eq_isEmpty ha hb, isEmpty_iff hwf]
  exact forall_congr' fun v => (not_congr (hmem v)).trans not_and_not_right

theorem intersects_iff (ha : a.WellFormed) (hb : b.WellFormed) :
    a.intersects b ↔ ∃ v, v ∈ a ∧ v ∈ b := by
  obtain ⟨hwf, hmem⟩ := combine_spec .inter ha hb
  rw [intersects_eq_not_isEmpty ha hb, Bool.not_eq_true', ← Bool.not_eq_true, isEmpty_iff hwf,
    not_forall_not]
  exact exists_congr hmem

/-! ### All of them -/

/-- What is found out about two well formed bitmaps without building a result, in each case by the
walk of two cursors that skips ahead, is what the built result would show: the number of its values,
that the difference is empty, that the intersection is not. -/
theorem relations_match_built (a b : Bitmap) (ha : a.WellFormed) (hb : b.WellFormed) :
    (∀ op, opCard op a b = (a.combine op b).card ∧
        Checked.opCard op a b = some (a.combine op b).card) ∧
      (a.isSubset b = (a.combine .diff b).isEmpty ∧
        Checked.isSubset a b = some (a.combine .diff b).isEmpty) ∧
      (a.intersects b = !(a.combine .inter b).isEmpty) ∧
        Checked.intersects a b = some !(a.combine .inter b).isEmpty := by
  refine ⟨fun op => ⟨opCard_eq_card op ha hb, ?_⟩, ⟨isSubset_eq_isEmpty ha hb, ?_⟩,
    intersects_eq_not_isEmpty ha hb, ?_⟩
  · rw [Checked.opCard_eq ha hb, opCard_eq_card op ha hb]
  · rw [Checked.isSubset_eq ha hb, isSubset_eq_isEmpty ha hb]
  · rw [Checked.intersects_eq ha hb, intersects_eq_not_isEmpty ha hb]

theorem relations_match_built_interleaved :
    (⟨.standard, #[⟨0, .array #[7]⟩, ⟨2, .array #[7]⟩]⟩ : Bitmap).WellFormed ∧
      (⟨⟨0, 0, 0⟩, #[⟨1, .run #[⟨7, 2⟩]⟩, ⟨2, .array #[7]⟩]⟩ : Bitmap).WellFormed ∧
      opCard .symmDiff ⟨.standard, #[⟨0, .array #[7]⟩, ⟨2, .array #[7]⟩]⟩
          ⟨⟨0, 0, 0⟩, #[⟨1, .run #[⟨7, 2⟩]⟩, ⟨2, .array #[7]⟩]⟩ =
        (combine .symmDiff ⟨.standard, #[⟨0, .array #[7]⟩, ⟨2, .array #[7]⟩]⟩
          ⟨⟨0, 0, 0⟩, #[⟨1, .run #[⟨7, 2⟩]⟩, ⟨2, .array #[7]⟩]⟩).card ∧
      isSubset ⟨.standard, #[⟨0, .array #[7]⟩, ⟨2, .array #[7]⟩]⟩
          ⟨⟨0, 0, 0⟩, #[⟨1, .run #[⟨7, 2⟩]⟩, ⟨2, .array #[7]⟩]⟩ =
        (combine .diff ⟨.standard, #[⟨0, .array #[7]⟩, ⟨2, .array #[7]⟩]⟩
          ⟨⟨0, 0, 0⟩, #[⟨1, .run #[⟨7, 2⟩]⟩, ⟨2, .array #[7]⟩]⟩).isEmpty := by
  have ha : (⟨.standard, #[⟨0, .array #[7]⟩, ⟨2, .array #[7]⟩]⟩ : Bitmap).WellFormed := by decide
  have hb : (⟨⟨0, 0, 0⟩, #[⟨1, .run #[⟨7, 2⟩]⟩, ⟨2, .array #[7]⟩]⟩ : Bitmap).WellFormed := by
    decide
  obtain ⟨hcards, ⟨hsubset, -⟩, -⟩ := relations_match_built _ _ ha hb
  exact ⟨ha, hb, (hcards .symmDiff).1, hsubset⟩

end Bitmap

end Roaring
