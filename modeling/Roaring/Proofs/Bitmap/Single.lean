import Roaring.Proofs.Bitmap.Lookup
import Roaring.Proofs.Bitmap.Thresholds
import Roaring.Proofs.Container.Single

/-!
# Single values of a bitmap

A change of one value changes the container of its key, where a key that is not in the index counts
as one of the empty container. A container that is left empty takes its key out of the index again,
so a value that is added and removed leaves no key behind.
-/
namespace Roaring.Bitmap

variable {b : Bitmap} {c : Container} {key low : UInt16} {u v : UInt32}

/-! ## The container of a key -/

/-- The container of a key, empty where the index has none. -/
def containerOf (b : Bitmap) (key : UInt16) : Container := (Index.get? b.entries key).getD ∅

/-- The same bitmap with another container for a key. -/
def withContainer (b : Bitmap) (key : UInt16) (c : Container) : Bitmap :=
  b.withEntries (Index.alter b.entries key fun _ => nonEmpty c)

theorem valid_containerOf (h : b.WellFormed) (key : UInt16) : (b.containerOf key).Valid := by
  rw [containerOf]
  cases hget : Index.get? b.entries key with
  | none => exact Sorted.increasing_empty
  | some c => exact (wellFormed_iff.mp h).keeps.get? hget

theorem fits_containerOf (h : b.WellFormed) {t : Thresholds} (hfit : b.FitsUnder t)
    (key : UInt16) : (b.containerOf key).Fits t := by
  rw [containerOf]
  cases hget : Index.get? b.entries key with
  | none => exact Nat.zero_le _
  | some c =>
    have hmem := (Index.get?_eq_some_iff h.increasing).mp hget
    exact hfit _ (Array.mem_toList_iff.mp hmem)

theorem containerOf_key (h : b.WellFormed) {e : Entry} (he : e ∈ b.entries) :
    b.containerOf e.key = e.container := by
  have hget : Index.get? b.entries e.key = some e.container :=
    (Index.get?_eq_some_iff h.increasing).mpr (Array.mem_toList_iff.mpr he)
  rw [containerOf, hget, Option.getD_some]

theorem lowHalf_eq_iff (h : highHalf u = highHalf v) : lowHalf u = lowHalf v ↔ u = v := by
  constructor
  · intro hlow
    rw [← joinHalves_halves u, ← joinHalves_halves v, h, hlow]
  · rintro rfl
    rfl

theorem mem_containerOf (h : b.WellFormed) : lowHalf v ∈ b.containerOf (highHalf v) ↔ v ∈ b := by
  rw [mem_iff, Index.holds_iff_get? h.increasing, containerOf]
  cases Index.get? b.entries (highHalf v) with
  | none => exact iff_of_false (Array.not_mem_empty _) heldBy_none
  | some c => exact heldBy_some.symm

theorem nonEmpty_eq_of_mem (h : c.Valid) (hlow : low ∈ c) : nonEmpty c = some c := by
  have hne : c.isEmpty = false := (Container.isEmpty_eq_false_iff h).mpr ⟨low, hlow⟩
  simp [nonEmpty, hne]

/-- The index has the keys of the containers that hold a value. -/
theorem nonEmpty_containerOf (h : b.WellFormed) (key : UInt16) :
    nonEmpty (b.containerOf key) = Index.get? b.entries key := by
  rw [containerOf]
  cases hget : Index.get? b.entries key with
  | none => rfl
  | some c =>
    have hmem := (Index.get?_eq_some_iff h.increasing).mp hget
    have hne := (wellFormed_iff.mp h).nonEmpty _ hmem
    simp [nonEmpty, hne]

theorem heldBy_nonEmpty (h : c.Valid) : HeldBy (nonEmpty c) low ↔ low ∈ c := by
  constructor
  · rintro ⟨c', hc', hlow⟩
    obtain ⟨-, rfl⟩ := nonEmpty_eq_some hc'
    exact hlow
  · intro hlow
    rw [nonEmpty_eq_of_mem h hlow]
    exact heldBy_some.mpr hlow

/-! ## Another container for a key -/

theorem containerOf_withContainer (h : b.WellFormed) (hc : nonEmpty c = some c) :
    (b.withContainer key c).containerOf key = c := by
  show (Index.get? (Index.alter b.entries key fun _ => nonEmpty c) key).getD ∅ = c
  rw [Index.get?_alter h.increasing, if_pos rfl, hc, Option.getD_some]

theorem containerOf_withContainer_of_ne {k : UInt16} (h : b.WellFormed) (hk : k ≠ key)
    (c : Container) : (b.withContainer key c).containerOf k = b.containerOf k := by
  show (Index.get? (Index.alter b.entries key fun _ => nonEmpty c) k).getD ∅ = _
  rw [Index.get?_alter h.increasing, if_neg hk, containerOf]

theorem mem_withContainer (h : b.WellFormed) (hc : c.Valid) :
    u ∈ b.withContainer key c ↔ if highHalf u = key then lowHalf u ∈ c else u ∈ b := by
  rw [mem_iff, mem_iff, withContainer, withEntries, Index.holds_alter h.increasing,
    heldBy_nonEmpty hc]

theorem withContainer_withContainer (h : b.WellFormed) (c d : Container) :
    (b.withContainer key c).withContainer key d = b.withContainer key d := by
  unfold withContainer withEntries
  rw [Index.alter_alter h.increasing]

/-- A container as good as the one that a key has changes nothing. -/
theorem withContainer_eq_self (h : b.WellFormed) (hc : nonEmpty c = Index.get? b.entries key) :
    b.withContainer key c = b := by
  unfold withContainer withEntries
  rw [Index.alter_eq_self h.increasing hc]

/-! ## A value added -/

theorem nonEmpty_insert (t : Thresholds) (h : c.Valid) (low : UInt16) :
    nonEmpty (c.insert t low).2 = some (c.insert t low).2 := by
  obtain ⟨hvalid, hmem⟩ := Container.insert_spec t low h
  exact nonEmpty_eq_of_mem hvalid ((hmem low).mpr (.inl rfl))

theorem insert_eq (h : b.WellFormed) (v : UInt32) :
    b.insert v =
      (((b.containerOf (highHalf v)).insert b.thresholds (lowHalf v)).1,
        b.withContainer (highHalf v)
          ((b.containerOf (highHalf v)).insert b.thresholds (lowHalf v)).2) := by
  have hvalid := valid_containerOf h (highHalf v)
  rw [withContainer, nonEmpty_insert b.thresholds hvalid, insert]
  cases hget : Index.get? b.entries (highHalf v) with
  | some c => simp [containerOf, hget]
  | none =>
    have htold : ((∅ : Container).insert b.thresholds (lowHalf v)).1 = true :=
      (Container.insert_fst b.thresholds (c := ∅) Sorted.increasing_empty _).mpr
        (Array.not_mem_empty _)
    simp [containerOf, hget, htold]

theorem insert_fst (h : b.WellFormed) (v : UInt32) : (b.insert v).1 ↔ ¬v ∈ b := by
  rw [insert_eq h, Container.insert_fst b.thresholds (valid_containerOf h _), mem_containerOf h]

theorem mem_insert (h : b.WellFormed) : u ∈ (b.insert v).2 ↔ u = v ∨ u ∈ b := by
  obtain ⟨hvalid, hmem⟩ :=
    Container.insert_spec b.thresholds (lowHalf v) (valid_containerOf h (highHalf v))
  rw [insert_eq h, mem_withContainer h hvalid]
  by_cases hkey : highHalf u = highHalf v
  · rw [if_pos hkey, hmem, ← hkey, mem_containerOf h, lowHalf_eq_iff hkey]
  · rw [if_neg hkey, or_iff_right]
    rintro rfl
    exact hkey rfl

/-! ## A value removed -/

theorem erase_eq (h : b.WellFormed) (v : UInt32) :
    b.erase v =
      (((b.containerOf (highHalf v)).erase b.thresholds (lowHalf v)).1,
        b.withContainer (highHalf v)
          ((b.containerOf (highHalf v)).erase b.thresholds (lowHalf v)).2) := by
  rw [erase]
  cases hget : Index.get? b.entries (highHalf v) with
  | some c => simp [containerOf, hget, withContainer]
  | none =>
    -- nothing is there to remove, and the empty container that is left has no entry either
    have hnone : b.containerOf (highHalf v) = ∅ := by rw [containerOf, hget, Option.getD_none]
    have htold := Container.erase_fst b.thresholds (c := ∅) Sorted.increasing_empty (lowHalf v)
    obtain ⟨hvalid, hmem⟩ :=
      Container.erase_spec b.thresholds (lowHalf v) (c := ∅) Sorted.increasing_empty
    have hempty : ((∅ : Container).erase b.thresholds (lowHalf v)).2.isEmpty := by
      rw [Container.isEmpty_iff hvalid]
      intro w hw
      exact Array.not_mem_empty _ ((hmem w).mp hw).1
    rw [hnone, withContainer_eq_self h (by rw [hget, nonEmpty, if_pos hempty])]
    refine Prod.ext ?_ rfl
    exact (Bool.eq_false_iff.mpr fun ht => Array.not_mem_empty _ (htold.mp ht)).symm

theorem erase_fst (h : b.WellFormed) (v : UInt32) : (b.erase v).1 ↔ v ∈ b := by
  rw [erase_eq h, Container.erase_fst b.thresholds (valid_containerOf h _), mem_containerOf h]

theorem mem_erase (h : b.WellFormed) : u ∈ (b.erase v).2 ↔ u ∈ b ∧ u ≠ v := by
  obtain ⟨hvalid, hmem⟩ :=
    Container.erase_spec b.thresholds (lowHalf v) (valid_containerOf h (highHalf v))
  rw [erase_eq h, mem_withContainer h hvalid]
  by_cases hkey : highHalf u = highHalf v
  · rw [if_pos hkey, hmem, ← hkey, mem_containerOf h, Ne, lowHalf_eq_iff hkey]
  · rw [if_neg hkey, and_iff_left]
    rintro rfl
    exact hkey rfl

/-! ## Back and forth -/

/-- An added value is removed without a trace, and its key with it where it had no other. -/
theorem erase_insert (h : b.WellFormed) (hfit : b.FitsUnder b.thresholds) (hv : ¬v ∈ b) :
    (b.insert v).2.erase v = (true, b) := by
  have hc := valid_containerOf h (highHalf v)
  have habsent : ¬lowHalf v ∈ b.containerOf (highHalf v) := mt (mem_containerOf h).mp hv
  have hback := Container.erase_insert hc (fits_containerOf h hfit (highHalf v)) habsent
  have hcontainer : (b.insert v).2.containerOf (highHalf v) =
      ((b.containerOf (highHalf v)).insert b.thresholds (lowHalf v)).2 := by
    rw [insert_eq h, containerOf_withContainer h (nonEmpty_insert b.thresholds hc _)]
  rw [erase_eq (h.insert v), thresholds_insert, hcontainer, hback, insert_eq h,
    withContainer_withContainer h, withContainer_eq_self h (nonEmpty_containerOf h _)]

end Roaring.Bitmap

namespace Roaring

/-- Whatever the thresholds, to add a value to a container that fits them, and to remove it, tells
whether that was needed, changes the set by that value alone and leaves a container that fits; each
undoes the other, down to the encoding and what it stores. To a bitmap that fits its thresholds the
same changes are made, and to add a value that is absent and to remove it again leaves the very same
index. -/
theorem single_values_undone :
    (∀ (t : Thresholds) (c : Container) (v : UInt16), c.Valid → c.Fits t →
      Container.Outcome t (¬v ∈ c) (fun u => u = v ∨ u ∈ c) (c.insert t v) ∧
      Container.Outcome t (v ∈ c) (fun u => u ∈ c ∧ u ≠ v) (c.erase t v) ∧
      (¬v ∈ c → (c.insert t v).2.erase t v = (true, c)) ∧
      (v ∈ c → (c.erase t v).2.insert t v = (true, c))) ∧
    ∀ (b : Bitmap) (v : UInt32), b.WellFormed → b.FitsUnder b.thresholds →
      ((b.insert v).1 ↔ ¬v ∈ b) ∧ (∀ u, u ∈ (b.insert v).2 ↔ u = v ∨ u ∈ b) ∧
      ((b.erase v).1 ↔ v ∈ b) ∧ (∀ u, u ∈ (b.erase v).2 ↔ u ∈ b ∧ u ≠ v) ∧
      (¬v ∈ b → (b.insert v).2.erase v = (true, b)) := by
  constructor
  · intro t c v h hfit
    exact ⟨Container.outcome_insert h hfit v, Container.outcome_erase h hfit v,
      Container.erase_insert h hfit, Container.insert_erase h hfit⟩
  · intro b v h hfit
    exact ⟨Bitmap.insert_fst h v, fun u => Bitmap.mem_insert h, Bitmap.erase_fst h v,
      fun u => Bitmap.mem_erase h, Bitmap.erase_insert h hfit⟩

/-- A full array turns to a bitset and back, and a key comes and goes. -/
theorem single_values_undone_at_crossover :
    (Container.array #[1, 3]).Valid ∧ (Container.array #[1, 3]).Fits ⟨2, 2, 0⟩ ∧
      ((Container.array #[1, 3]).insert ⟨2, 2, 0⟩ 2).2.erase ⟨2, 2, 0⟩ 2 =
        (true, .array #[1, 3]) ∧
      (⟨⟨2, 2, 0⟩, #[⟨7, .array #[1, 3]⟩]⟩ : Bitmap).WellFormed ∧
      Bitmap.FitsUnder ⟨2, 2, 0⟩ ⟨⟨2, 2, 0⟩, #[⟨7, .array #[1, 3]⟩]⟩ ∧
      ((⟨⟨2, 2, 0⟩, #[⟨7, .array #[1, 3]⟩]⟩ : Bitmap).insert 5).2.erase 5 =
        (true, ⟨⟨2, 2, 0⟩, #[⟨7, .array #[1, 3]⟩]⟩) := by
  have hc : (Container.array #[1, 3]).Valid := by decide
  have hcfit : (Container.array #[1, 3]).Fits ⟨2, 2, 0⟩ := by simp [Container.Fits]
  have hcv : ¬2 ∈ Container.array #[1, 3] := by simp [Container.mem_array]
  have hb : (⟨⟨2, 2, 0⟩, #[⟨7, .array #[1, 3]⟩]⟩ : Bitmap).WellFormed := by decide
  have hbfit : Bitmap.FitsUnder ⟨2, 2, 0⟩ ⟨⟨2, 2, 0⟩, #[⟨7, .array #[1, 3]⟩]⟩ := by
    simp [Bitmap.FitsUnder, Container.Fits]
  have hbv : ¬5 ∈ (⟨⟨2, 2, 0⟩, #[⟨7, .array #[1, 3]⟩]⟩ : Bitmap) := by
    rw [Bitmap.mem_iff]
    rintro ⟨e, he, hkey, -⟩
    obtain rfl : e = ⟨7, .array #[1, 3]⟩ := List.mem_singleton.mp he
    exact absurd hkey (by decide)
  obtain ⟨containers, bitmaps⟩ := single_values_undone
  obtain ⟨-, -, hback, -⟩ := containers ⟨2, 2, 0⟩ _ 2 hc hcfit
  obtain ⟨-, -, -, -, hundone⟩ := bitmaps _ 5 hb hbfit
  exact ⟨hc, hcfit, hback hcv, hb, hbfit, hundone hbv⟩

end Roaring
