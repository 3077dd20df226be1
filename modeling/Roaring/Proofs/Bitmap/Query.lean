import Roaring.Proofs.Bitmap.Values
import Roaring.Proofs.Container.Query

/-!
# What bitmaps answer

The keys of a well formed bitmap are the upper halves of its values, and two well formed bitmaps are
equal, whatever the encodings of their containers, exactly when they hold the same values.
-/
namespace Roaring

namespace Index

variable {es fs : List Entry} {key low : UInt16}

/-- No value lies before the first key. -/
theorem Sound.key_le {e : Entry} (h : Sound (e :: es)) (hheld : Holds (e :: es) key low) :
    e.key ≤ key := by
  obtain ⟨x, hx, rfl, -⟩ := hheld
  rcases List.mem_cons.mp hx with rfl | hx
  · exact UInt16.le_refl _
  · exact UInt16.le_of_lt ((sound_cons.mp h).2.2.1 x hx)

theorem Sound.holds_head {e : Entry} (h : Sound (e :: es)) :
    Holds (e :: es) e.key low ↔ low ∈ e.container := by
  have hrest : ¬Holds es e.key low := not_holds_of_lt (sound_cons.mp h).2.2.1
  simp only [holds_cons, true_and, hrest, or_false]

theorem Sound.holds_tail {e : Entry} (h : Sound (e :: es)) :
    Holds es key low ↔ Holds (e :: es) key low ∧ e.key < key := by
  constructor
  · rintro ⟨x, hx, rfl, hlow⟩
    exact ⟨⟨x, List.mem_cons_of_mem _ hx, rfl, hlow⟩, (sound_cons.mp h).2.2.1 x hx⟩
  · rintro ⟨hheld, hlt⟩
    refine (holds_cons.mp hheld).resolve_left ?_
    rintro ⟨rfl, -⟩
    exact UInt16.lt_irrefl _ hlt

/-- The first key of a sound index has a value. -/
theorem Sound.exists_head {e : Entry} (h : Sound (e :: es)) :
    ∃ low, Holds (e :: es) e.key low := by
  obtain ⟨hvalid, hne, -⟩ := sound_cons.mp h
  obtain ⟨low, hlow⟩ := (Container.isEmpty_eq_false_iff hvalid).mp hne
  exact ⟨low, h.holds_head.mpr hlow⟩

theorem mem_keys_iff (h : Sound es) : key ∈ es.map (·.key) ↔ ∃ low, Holds es key low := by
  rw [List.mem_map]
  constructor
  · rintro ⟨e, he, rfl⟩
    obtain ⟨low, hlow⟩ :=
      (Container.isEmpty_eq_false_iff (h.valid e he)).mp (h.nonEmpty e he)
    exact ⟨low, e, he, rfl, hlow⟩
  · rintro ⟨low, e, he, hkey, -⟩
    exact ⟨e, he, hkey⟩

/-- Entries in step with the same keys and the same values under them. -/
def sameEntries (es fs : List Entry) : Bool :=
  es.isEqv fs fun x y => x.key = y.key && x.container.sameValues y.container

theorem sameEntries_iff (hes : Sound es) (hfs : Sound fs) :
    sameEntries es fs ↔ ∀ key low, Holds es key low ↔ Holds fs key low := by
  induction es generalizing fs with
  | nil =>
    cases fs with
    | nil => simp [sameEntries]
    | cons f fs =>
      refine iff_of_false (by simp [sameEntries]) fun h => ?_
      obtain ⟨low, hlow⟩ := hfs.exists_head
      exact not_holds_nil ((h _ _).mpr hlow)
  | cons e es ih =>
    cases fs with
    | nil =>
      refine iff_of_false (by simp [sameEntries]) fun h => ?_
      obtain ⟨low, hlow⟩ := hes.exists_head
      exact not_holds_nil ((h _ _).mp hlow)
    | cons f fs =>
      obtain ⟨hve, -, -, hes'⟩ := sound_cons.mp hes
      obtain ⟨hvf, -, -, hfs'⟩ := sound_cons.mp hfs
      have hstep : sameEntries (e :: es) (f :: fs) ↔
          (e.key = f.key ∧ ∀ v, v ∈ e.container ↔ v ∈ f.container) ∧
            ∀ key low, Holds es key low ↔ Holds fs key low := by
        rw [sameEntries, List.isEqv_cons_cons, Bool.and_eq_true, Bool.and_eq_true,
          decide_eq_true_iff, Container.sameValues_iff hve hvf, ← ih hes' hfs', sameEntries]
      rw [hstep]
      constructor
      · rintro ⟨⟨hkey, hmem⟩, hrest⟩ key low
        rw [holds_cons, holds_cons, hkey, hmem, hrest]
      · intro h
        have hkey : e.key = f.key := by
          obtain ⟨low, hlow⟩ := hes.exists_head
          obtain ⟨low', hlow'⟩ := hfs.exists_head
          exact UInt16.le_antisymm (hes.key_le ((h _ _).mpr hlow'))
            (hfs.key_le ((h _ _).mp hlow))
        refine ⟨⟨hkey, fun v => ?_⟩, fun key low => ?_⟩
        · rw [← hes.holds_head, ← hfs.holds_head, h, hkey]
        · rw [hes.holds_tail, hfs.holds_tail, h, hkey]

end Index

namespace Bitmap

variable {a b : Bitmap}

/-- The upper halves that occur, in the order of the index. -/
def keys (b : Bitmap) : List UInt16 := b.entries.toList.map (·.key)

theorem pairwise_keys (h : b.WellFormed) : b.keys.Pairwise (· < ·) :=
  List.pairwise_map.mpr h.1

theorem holds_iff {key low : UInt16} :
    Index.Holds b.entries.toList key low ↔ joinHalves key low ∈ b := by
  rw [mem_iff, highHalf_joinHalves, lowHalf_joinHalves]

theorem mem_keys_iff (h : b.WellFormed) (key : UInt16) :
    key ∈ b.keys ↔ ∃ low, joinHalves key low ∈ b := by
  simp only [keys, Index.mem_keys_iff (wellFormed_iff.mp h), holds_iff]

/-- Bitmaps are the same set exactly when they hold the same values. -/
theorem sameValues_iff (ha : a.WellFormed) (hb : b.WellFormed) :
    a.sameValues b ↔ ∀ v, v ∈ a ↔ v ∈ b := by
  have hlists : a.sameValues b = Index.sameEntries a.entries.toList b.entries.toList :=
    (Array.isEqv_toList a.entries b.entries).symm
  rw [hlists, Index.sameEntries_iff (wellFormed_iff.mp ha) (wellFormed_iff.mp hb)]
  simp only [holds_iff]
  constructor
  · intro h v
    rw [← joinHalves_halves v]
    exact h _ _
  · exact fun h key low => h _

end Bitmap

end Roaring
