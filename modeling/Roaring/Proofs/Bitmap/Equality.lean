import Roaring.Proofs.Bitmap.Lookup
import Roaring.Proofs.Bitmap.Query

/-!
# Equality

Equality looks at encodings, cached counts and thresholds only as far as they bear on the values:
valid containers are equal exactly when they contain the same values, and so are well formed
bitmaps.
-/
namespace Roaring

theorem Bitmap.contains_iff {b : Bitmap} (h : b.WellFormed) (v : UInt32) :
    b.contains v ↔ v ∈ b := by
  have hsound := wellFormed_iff.mp h
  rw [mem_iff, Index.holds_iff_get? hsound.sorted, contains, Option.any_eq_true]
  refine exists_congr fun c => and_congr_right fun hc => ?_
  exact Container.contains_iff (hsound.keeps.get? hc) (lowHalf v)

theorem Container.sameValues_iff_contains {a b : Container} (ha : a.Valid) (hb : b.Valid) :
    a.sameValues b ↔ ∀ v, a.contains v = b.contains v := by
  rw [sameValues_iff ha hb]
  exact forall_congr' fun v => by rw [Bool.eq_iff_iff, contains_iff ha, contains_iff hb]

theorem Bitmap.sameValues_iff_contains {a b : Bitmap} (ha : a.WellFormed) (hb : b.WellFormed) :
    a.sameValues b ↔ ∀ v, a.contains v = b.contains v := by
  rw [sameValues_iff ha hb]
  exact forall_congr' fun v => by rw [Bool.eq_iff_iff, contains_iff ha, contains_iff hb]

/-- Two valid containers in any encodings, with counts that are known or not, are equal exactly when
they contain the same values, and so are two well formed bitmaps with any thresholds. -/
theorem equality_extensional :
    (∀ a b : Container, a.Valid → b.Valid →
      (a.sameValues b ↔ ∀ v, v ∈ a ↔ v ∈ b) ∧
        (a.sameValues b ↔ ∀ v, a.contains v = b.contains v)) ∧
    ∀ a b : Bitmap, a.WellFormed → b.WellFormed →
      (a.sameValues b ↔ ∀ v, v ∈ a ↔ v ∈ b) ∧
        (a.sameValues b ↔ ∀ v, a.contains v = b.contains v) :=
  ⟨fun _ _ ha hb => ⟨Container.sameValues_iff ha hb, Container.sameValues_iff_contains ha hb⟩,
    fun _ _ ha hb => ⟨Bitmap.sameValues_iff ha hb, Bitmap.sameValues_iff_contains ha hb⟩⟩

/-- An array and runs with the same values are one set, as containers and under a key of bitmaps
with different thresholds; a bitset that lacks a count is told from the array by a value. -/
theorem equality_extensional_three_encodings :
    (Container.array #[1, 2, 5]).sameValues (.run #[⟨1, 1⟩, ⟨5, 0⟩]) ∧
      ¬(Container.array #[1, 2, 5]).sameValues (.bitset (.uncounted Words.empty)) ∧
      (⟨⟨0, 0, 0⟩, #[⟨7, .array #[1, 2, 5]⟩]⟩ : Bitmap).sameValues
        ⟨.standard, #[⟨7, .run #[⟨1, 1⟩, ⟨5, 0⟩]⟩]⟩ := by
  have harray : (Container.array #[1, 2, 5]).Valid := by decide
  have hrun : (Container.run #[⟨1, 1⟩, ⟨5, 0⟩]).Valid := by decide
  have hbitset : (Container.bitset (.uncounted Words.empty)).Valid := Bitset.exact_uncounted _
  have hleft : (⟨⟨0, 0, 0⟩, #[⟨7, .array #[1, 2, 5]⟩]⟩ : Bitmap).WellFormed := by decide
  have hright : (⟨.standard, #[⟨7, .run #[⟨1, 1⟩, ⟨5, 0⟩]⟩]⟩ : Bitmap).WellFormed := by decide
  obtain ⟨containers, bitmaps⟩ := equality_extensional
  refine ⟨(containers _ _ harray hrun).1.mpr fun v => ?_, fun h => ?_,
    (bitmaps _ _ hleft hright).1.mpr fun v => ?_⟩
  · show v ∈ #[1, 2, 5] ↔ v ∈ Runs.values #[⟨1, 1⟩, ⟨5, 0⟩]
    rw [show Runs.values #[⟨1, 1⟩, ⟨5, 0⟩] = #[1, 2, 5] by decide]
  · have h1 : 1 ∈ Container.bitset (.uncounted Words.empty) :=
      ((containers _ _ harray hbitset).1.mp h 1).mp (Container.mem_array.mpr (by simp))
    rw [Container.mem_bitset] at h1
    simp [Bitset.uncounted] at h1
  · show v ∈ Bitmap.values _ ↔ v ∈ Bitmap.values _
    rw [show Bitmap.values ⟨⟨0, 0, 0⟩, #[⟨7, .array #[1, 2, 5]⟩]⟩ =
      Bitmap.values ⟨.standard, #[⟨7, .run #[⟨1, 1⟩, ⟨5, 0⟩]⟩]⟩ by decide]

end Roaring
