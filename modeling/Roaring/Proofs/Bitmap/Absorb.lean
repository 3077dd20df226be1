import Roaring.Proofs.Bitmap.InPlace
import Roaring.Proofs.Bitmap.Query

/-!
# Bitmaps that absorb others

The operation in the place of the left bitmap gives the same set as the operation that writes a new
one. Its index is the same merge; only a full container under a union, which is left as it is, may
keep an encoding that the new bitmap would not choose.
-/
namespace Roaring

namespace Bitmap

variable {a b : Bitmap}

/-- A bitmap whose index is the merge of two sound ones is what the operation asks for. -/
theorem merge_spec {shared : Container → Container → Container} {op : SetOp} {c : Bitmap}
    (hshared : Index.Meets op shared) (ha : a.WellFormed) (hb : b.WellFormed)
    (hc : c.entries.toList = Index.mergeBy shared op a.entries.toList b.entries.toList) :
    c.WellFormed ∧ ∀ v, v ∈ c ↔ op.Holds (v ∈ a) (v ∈ b) := by
  have hsa := wellFormed_iff.mp ha
  have hsb := wellFormed_iff.mp hb
  refine ⟨?_, fun v => ?_⟩
  · rw [wellFormed_iff, hc]
    exact Index.sound_mergeBy hshared hsa hsb
  · rw [mem_iff, mem_iff, mem_iff, hc]
    exact Index.holds_mergeBy hshared _ _ hsa hsb _ _

theorem combine_spec (op : SetOp) (ha : a.WellFormed) (hb : b.WellFormed) :
    (a.combine op b).WellFormed ∧ ∀ v, v ∈ a.combine op b ↔ op.Holds (v ∈ a) (v ∈ b) :=
  merge_spec (Index.meets_combine a.thresholds op) ha hb (toList_entries_combine op ha hb)

theorem absorb_spec (op : SetOp) (ha : a.WellFormed) (hb : b.WellFormed) :
    (a.absorb op b).WellFormed ∧ ∀ v, v ∈ a.absorb op b ↔ op.Holds (v ∈ a) (v ∈ b) :=
  merge_spec (Index.meets_absorbShared a.thresholds op) ha hb (toList_entries_absorb op ha hb)

/-- Two well formed bitmaps with the same values have the same keys. -/
theorem keys_eq (ha : a.WellFormed) (hb : b.WellFormed) (h : ∀ v, v ∈ a ↔ v ∈ b) :
    a.keys = b.keys :=
  List.Pairwise.eq_of_mem_iff (pairwise_keys ha) (pairwise_keys hb) fun key => by
    simp only [mem_keys_iff ha, mem_keys_iff hb, h]

/-- The operation in the place of the left one of two well formed bitmaps gives the same set as the
operation that writes a new bitmap. It keeps the thresholds and the index invariant, and its keys,
each of them once and in order, are the upper halves for which the operation asks for a value. -/
theorem absorb_agrees (op : SetOp) (a b : Bitmap) (ha : a.WellFormed) (hb : b.WellFormed) :
    (a.absorb op b).sameValues (a.combine op b) ∧
      (a.absorb op b).thresholds = a.thresholds ∧ (a.absorb op b).WellFormed ∧
      (a.absorb op b).keys = (a.combine op b).keys ∧ (a.absorb op b).keys.Pairwise (· < ·) ∧
      ∀ key, key ∈ (a.absorb op b).keys ↔
        ∃ low, op.Holds (joinHalves key low ∈ a) (joinHalves key low ∈ b) := by
  obtain ⟨hwf, hmem⟩ := absorb_spec op ha hb
  obtain ⟨hnew, hmem'⟩ := combine_spec op ha hb
  have hsame : ∀ v, v ∈ a.absorb op b ↔ v ∈ a.combine op b := fun v =>
    (hmem v).trans (hmem' v).symm
  refine ⟨(sameValues_iff hwf hnew).mpr hsame, rfl, hwf, keys_eq hwf hnew hsame,
    pairwise_keys hwf, fun key => ?_⟩
  simp only [mem_keys_iff hwf, hmem]

theorem absorb_agrees_interleaved :
    (⟨.standard, #[⟨0, .array #[7]⟩, ⟨2, .array #[7]⟩, ⟨3, .array #[7]⟩]⟩ : Bitmap).WellFormed ∧
      (⟨⟨0, 0, 0⟩, #[⟨1, .run #[⟨7, 2⟩]⟩, ⟨2, .array #[7]⟩, ⟨4, .array #[9]⟩]⟩ :
        Bitmap).WellFormed ∧
      (absorb .symmDiff
          ⟨.standard, #[⟨0, .array #[7]⟩, ⟨2, .array #[7]⟩, ⟨3, .array #[7]⟩]⟩
          ⟨⟨0, 0, 0⟩, #[⟨1, .run #[⟨7, 2⟩]⟩, ⟨2, .array #[7]⟩, ⟨4, .array #[9]⟩]⟩).sameValues
        (combine .symmDiff
          ⟨.standard, #[⟨0, .array #[7]⟩, ⟨2, .array #[7]⟩, ⟨3, .array #[7]⟩]⟩
          ⟨⟨0, 0, 0⟩, #[⟨1, .run #[⟨7, 2⟩]⟩, ⟨2, .array #[7]⟩, ⟨4, .array #[9]⟩]⟩) := by
  have ha : (⟨.standard, #[⟨0, .array #[7]⟩, ⟨2, .array #[7]⟩, ⟨3, .array #[7]⟩]⟩ :
      Bitmap).WellFormed := by decide
  have hb : (⟨⟨0, 0, 0⟩, #[⟨1, .run #[⟨7, 2⟩]⟩, ⟨2, .array #[7]⟩, ⟨4, .array #[9]⟩]⟩ :
      Bitmap).WellFormed := by decide
  exact ⟨ha, hb, (absorb_agrees .symmDiff _ _ ha hb).1⟩

end Bitmap

end Roaring
