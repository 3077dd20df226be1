import Roaring.Proofs.Bitmap.Absorb
import Roaring.Proofs.Bitmap.Update

/-!
# The union of many bitmaps

While the union is under way, its containers are unfinished but valid, and hold the values taken in
so far. One pass at the end settles them all, so the outcome is the union of the values, whatever
order the bitmaps came in.
-/
namespace Roaring

namespace Index

theorem holds_map {es : List Entry} {f : Container → Container} (h : Sound es)
    (hf : Container.Recodes f) (key low : UInt16) :
    Holds (es.map fun e => { e with container := f e.container }) key low ↔ Holds es key low := by
  simp only [Holds, List.mem_map]
  constructor
  · rintro ⟨_, ⟨e, he, rfl⟩, hkey, hlow⟩
    exact ⟨e, he, hkey, ((hf _ (h.valid e he)).2 low).mp hlow⟩
  · rintro ⟨e, he, hkey, hlow⟩
    exact ⟨_, ⟨e, he, rfl⟩, hkey, ((hf _ (h.valid e he)).2 low).mpr hlow⟩

end Index

namespace Container

theorem recodes_compact (t : Thresholds) : Recodes (compact t) := fun _ h =>
  (settled_compact h).recodes

end Container

namespace Bitmap

variable {a b : Bitmap}

theorem mem_mapContainers {f : Container → Container} (h : b.WellFormed)
    (hf : Container.Recodes f) (v : UInt32) : v ∈ b.mapContainers f ↔ v ∈ b := by
  rw [mem_iff, mem_iff, mapContainers, withEntries, Array.toList_map]
  exact Index.holds_map (wellFormed_iff.mp h) hf _ _

/-! ## Unions one after the other -/

/-- The union of two bitmaps as a step of a longer union. -/
def Unites (f : Bitmap → Bitmap → Bitmap) : Prop :=
  ∀ a b : Bitmap, a.WellFormed → b.WellFormed →
    (f a b).WellFormed ∧ (f a b).thresholds = a.thresholds ∧ ∀ v, v ∈ f a b ↔ v ∈ a ∨ v ∈ b

theorem unites_combine : Unites (combine .union) := fun _ _ ha hb =>
  have h := combine_spec .union ha hb
  ⟨h.1, rfl, h.2⟩

theorem unites_deferUnion : Unites deferUnion := fun a _ ha hb =>
  have h := merge_spec (Index.meets_absorbDeferred a.thresholds) ha hb
    (toList_entries_deferUnion ha hb)
  ⟨h.1, rfl, h.2⟩

theorem foldl_unites {f : Bitmap → Bitmap → Bitmap} (hf : Unites f) (ha : a.WellFormed)
    (bs : List Bitmap) (hbs : ∀ b ∈ bs, b.WellFormed) :
    (bs.foldl f a).WellFormed ∧ (bs.foldl f a).thresholds = a.thresholds ∧
      ∀ v, v ∈ bs.foldl f a ↔ ∃ b ∈ a :: bs, v ∈ b := by
  induction bs generalizing a with
  | nil => exact ⟨ha, rfl, by simp⟩
  | cons b bs ih =>
    obtain ⟨hb, hbs⟩ := List.forall_mem_cons.mp hbs
    obtain ⟨hwf, ht, hmem⟩ := hf a b ha hb
    obtain ⟨hwf', ht', hmem'⟩ := ih hwf hbs
    refine ⟨hwf', ht'.trans ht, fun v => (hmem' v).trans ?_⟩
    simp only [List.exists_mem_cons_iff, hmem, or_assoc]

/-! ## All at once -/

/-- The union of a list, taken pair by pair from the left. -/
def foldUnion : List Bitmap → Bitmap
  | [] => ∅
  | b :: bs => bs.foldl (combine .union) b

/-- The thresholds that a union of many bitmaps follows. -/
def firstThresholds : List Bitmap → Thresholds
  | [] => .standard
  | b :: _ => b.thresholds

theorem mem_empty (v : UInt32) : ¬v ∈ (∅ : Bitmap) := Array.not_mem_empty v

theorem wellFormed_empty : (∅ : Bitmap).WellFormed := by decide

theorem foldUnion_spec {bs : List Bitmap} (h : ∀ b ∈ bs, b.WellFormed) :
    (foldUnion bs).WellFormed ∧ ∀ v, v ∈ foldUnion bs ↔ ∃ b ∈ bs, v ∈ b := by
  cases bs with
  | nil => exact ⟨wellFormed_empty, fun v => iff_of_false (mem_empty v) (by simp)⟩
  | cons b bs =>
    obtain ⟨hb, hbs⟩ := List.forall_mem_cons.mp h
    have hfold := foldl_unites unites_combine hb bs hbs
    exact ⟨hfold.1, hfold.2.2⟩

theorem wellFormed_compact (h : b.WellFormed) :
    (b.mapContainers (Container.compact b.thresholds)).WellFormed := by
  have hcompact : (b.mapContainers (Container.compact b.thresholds)).Kept False := h.kept.compact
  exact hcompact.wellFormed

theorem canonical_compact (h : b.WellFormed) :
    ∀ e ∈ (b.mapContainers (Container.compact b.thresholds)).entries,
      e.container.Canonical b.thresholds := by
  intro e he
  obtain ⟨x, hx, rfl⟩ := Array.mem_map.mp he
  exact (Container.settled_compact (h.2 x hx).1).canonical

theorem unionAll_spec {bs : List Bitmap} (h : ∀ b ∈ bs, b.WellFormed) :
    (unionAll bs).WellFormed ∧ (unionAll bs).thresholds = firstThresholds bs ∧
      (∀ v, v ∈ unionAll bs ↔ ∃ b ∈ bs, v ∈ b) ∧
      (2 ≤ bs.length →
        ∀ e ∈ (unionAll bs).entries, e.container.Canonical (firstThresholds bs)) := by
  match bs with
  | [] => exact ⟨wellFormed_empty, rfl, fun v => iff_of_false (mem_empty v) (by simp), by simp⟩
  | [b] => exact ⟨h b List.mem_cons_self, rfl, by simp [unionAll], by simp⟩
  | b :: c :: bs =>
    obtain ⟨hb, hbs⟩ := List.forall_mem_cons.mp h
    obtain ⟨hwf, ht, hmem⟩ := foldl_unites unites_deferUnion hb (c :: bs) hbs
    refine ⟨wellFormed_compact hwf, ht, fun v => ?_, fun _ e he => ?_⟩
    · exact (mem_mapContainers hwf (Container.recodes_compact _) v).trans (hmem v)
    · have hcanonical := canonical_compact hwf e he
      rw [ht] at hcanonical
      exact hcanonical

/-- The union of many well formed bitmaps is the same set as their unions taken pair by pair, and
depends on which bitmaps there are alone. It has the thresholds of the first one and is well formed,
and where two or more took part, every container is left as those thresholds ask, counted. -/
theorem unionAll_correct (bs : List Bitmap) (h : ∀ b ∈ bs, b.WellFormed) :
    (unionAll bs).sameValues (foldUnion bs) ∧
      (∀ v, v ∈ (unionAll bs).values ↔ ∃ b ∈ bs, v ∈ b.values) ∧
      (∀ cs : List Bitmap, (∀ b, b ∈ cs ↔ b ∈ bs) →
        (unionAll cs).sameValues (unionAll bs) ∧ (unionAll cs).values = (unionAll bs).values) ∧
      (unionAll bs).thresholds = firstThresholds bs ∧ (unionAll bs).WellFormed ∧
      (2 ≤ bs.length → ∀ e ∈ (unionAll bs).entries,
        e.container.Canonical (firstThresholds bs)) := by
  obtain ⟨hwf, ht, hmem, hcanonical⟩ := unionAll_spec h
  obtain ⟨hfold, hmem'⟩ := foldUnion_spec h
  refine ⟨(sameValues_iff hwf hfold).mpr fun v => (hmem v).trans (hmem' v).symm, hmem,
    fun cs hcs => ?_, ht, hwf, hcanonical⟩
  obtain ⟨hwf', -, hmem'', -⟩ := unionAll_spec fun b hb => h b ((hcs b).mp hb)
  have hsame : ∀ v, v ∈ unionAll cs ↔ v ∈ unionAll bs := fun v => by
    rw [hmem'', hmem]
    exact exists_congr fun b => and_congr_left fun _ => hcs b
  refine ⟨(sameValues_iff hwf' hwf).mpr hsame, Array.toList_inj.mp ?_⟩
  exact List.Pairwise.eq_of_mem_iff (pairwise_values hwf') (pairwise_values hwf) fun v => by
    rw [Array.mem_toList_iff, Array.mem_toList_iff]
    exact hsame v

theorem unionAll_correct_repeated :
    (∀ b ∈ [(⟨⟨0, 0, 0⟩, #[⟨1, .array #[5]⟩]⟩ : Bitmap), ⟨.standard, #[⟨1, .run #[⟨7, 2⟩]⟩]⟩,
        ⟨⟨0, 0, 0⟩, #[⟨1, .array #[5]⟩]⟩], b.WellFormed) ∧
      (unionAll [⟨⟨0, 0, 0⟩, #[⟨1, .array #[5]⟩]⟩, ⟨.standard, #[⟨1, .run #[⟨7, 2⟩]⟩]⟩,
          ⟨⟨0, 0, 0⟩, #[⟨1, .array #[5]⟩]⟩]).sameValues
        (foldUnion [⟨⟨0, 0, 0⟩, #[⟨1, .array #[5]⟩]⟩, ⟨.standard, #[⟨1, .run #[⟨7, 2⟩]⟩]⟩,
          ⟨⟨0, 0, 0⟩, #[⟨1, .array #[5]⟩]⟩]) := by
  have h : ∀ b ∈ [(⟨⟨0, 0, 0⟩, #[⟨1, .array #[5]⟩]⟩ : Bitmap),
      ⟨.standard, #[⟨1, .run #[⟨7, 2⟩]⟩]⟩, ⟨⟨0, 0, 0⟩, #[⟨1, .array #[5]⟩]⟩], b.WellFormed := by
    decide
  exact ⟨h, (unionAll_correct _ h).1⟩

end Bitmap

end Roaring
