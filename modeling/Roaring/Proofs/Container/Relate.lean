import Roaring.Proofs.Checked.Container.Update
import Roaring.Proofs.Container.Query

/-!
# Relations and the containers they stand for

Inclusion, overlap and the size of the intersection have an algorithm for each pair of encodings,
none of which builds a result. What they tell is what the built intersection and difference show.
-/
namespace Roaring.Container

variable {a b c : Container} (t : Thresholds)

theorem card_eq_zero_of_isEmpty (h : c.Valid) (hempty : c.isEmpty) : c.card = 0 := by
  rw [card_eq_size h, Array.size_eq_zero_iff, Array.eq_empty_iff_forall_not_mem]
  exact (isEmpty_iff h).mp hempty

/-- The values of the intersection are those of the left operand that the right one holds. -/
theorem card_combine_inter (ha : a.Valid) (hb : b.Valid) :
    (combine t .inter a b).card = a.interCard b := by
  have hs := settled_combine t .inter ha hb
  rw [interCard_eq ha hb, List.countP_eq_length_filter, card_eq_size hs.valid,
    ← Array.length_toList]
  congr 1
  refine List.Pairwise.eq_of_mem_iff (increasing_values hs.valid)
    ((increasing_values ha).filter _) fun v => ?_
  rw [mem_values, hs.mem, List.mem_filter, mem_values, decide_eq_true_iff]
  rfl

theorem isEmpty_combine_diff (ha : a.Valid) (hb : b.Valid) :
    (combine t .diff a b).isEmpty = a.isSubset b := by
  have hs := settled_combine t .diff ha hb
  rw [Bool.eq_iff_iff, isEmpty_iff hs.valid, isSubset_iff ha hb]
  refine forall_congr' fun v => ?_
  rw [hs.mem]
  exact not_and_not_right

theorem isEmpty_combine_inter (ha : a.Valid) (hb : b.Valid) :
    (combine t .inter a b).isEmpty = !a.intersects b := by
  have hs := settled_combine t .inter ha hb
  rw [← Bool.not_eq_eq_eq_not, Bool.eq_iff_iff, Bool.not_eq_true', isEmpty_eq_false_iff hs.valid,
    intersects_iff ha hb]
  exact exists_congr hs.mem

theorem isSubset_iff_contains (ha : a.Valid) (hb : b.Valid) :
    a.isSubset b ↔ ∀ v ∈ a, b.contains v := by
  rw [isSubset_iff ha hb]
  exact forall₂_congr fun v _ => (contains_iff hb v).symm

/-- For two valid containers in any encodings, counted or not, the size of the intersection is that
of the container that the operation builds, they overlap exactly when that one is not empty, and one
is within the other exactly when the other holds its values one by one, which is when the difference
is empty. No step towards an answer fails. -/
theorem relations_match_results (t : Thresholds) (a b : Container) (ha : a.Valid) (hb : b.Valid) :
    ∃ shared rest, combine? t .inter a b = some shared ∧ combine? t .diff a b = some rest ∧
      (a.interCard? b = some shared.card ∧ Checked.interCard a b = some shared.card) ∧
      (a.intersects? b = some !shared.isEmpty ∧ Checked.intersects a b = some !shared.isEmpty) ∧
      (a.isSubset b = rest.isEmpty ∧ Checked.isSubset a b = some rest.isEmpty) ∧
      (a.isSubset b ↔ ∀ v ∈ a, b.contains v) := by
  refine ⟨combine t .inter a b, combine t .diff a b, combine?_eq t .inter ha hb,
    combine?_eq t .diff ha hb, ?_, ?_, ?_, isSubset_iff_contains ha hb⟩
  · rw [interCard?_eq ha hb, Checked.interCard_eq ha hb, card_combine_inter t ha hb]
    exact ⟨rfl, rfl⟩
  · rw [intersects?_eq ha hb, Checked.intersects_eq ha hb, isEmpty_combine_inter t ha hb,
      Bool.not_not]
    exact ⟨rfl, rfl⟩
  · rw [Checked.isSubset_eq ha hb, isEmpty_combine_diff t ha hb]
    exact ⟨rfl, rfl⟩

theorem relations_match_results_array_run :
    (array #[1, 3]).Valid ∧ (run #[⟨2, 1⟩]).Valid ∧
      ∃ shared rest, combine? .standard .inter (array #[1, 3]) (run #[⟨2, 1⟩]) = some shared ∧
        combine? .standard .diff (array #[1, 3]) (run #[⟨2, 1⟩]) = some rest ∧
        (array #[1, 3]).interCard? (run #[⟨2, 1⟩]) = some shared.card ∧
        (array #[1, 3]).intersects? (run #[⟨2, 1⟩]) = some !shared.isEmpty ∧
        (array #[1, 3]).isSubset (run #[⟨2, 1⟩]) = rest.isEmpty := by
  have ha : (array #[1, 3]).Valid := by decide
  have hb : (run #[⟨2, 1⟩]).Valid := by decide
  obtain ⟨shared, rest, hshared, hrest, hcard, hmeet, hsubset, -⟩ :=
    relations_match_results .standard _ _ ha hb
  exact ⟨ha, hb, shared, rest, hshared, hrest, hcard.1, hmeet.1, hsubset.1⟩

end Roaring.Container
