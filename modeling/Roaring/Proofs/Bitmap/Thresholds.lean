import Roaring.Proofs.Bitmap.Query
import Roaring.Proofs.Bitmap.Update

/-!
# Two sets of thresholds

Where two bitmaps with different thresholds come together, containers under a key of both are made
anew as the left thresholds ask. A container under a key of the right bitmap alone is taken over as
it is: whether it fits the left thresholds is up to the right bitmap.
-/
namespace Roaring

namespace Index

variable {shared : Container → Container → Container} {op : SetOp}

/-- An entry under a key that the left index lacks comes through a merge unchanged. -/
theorem mem_mergeBy_of_right (hop : op.keepsRight) {as bs : List Entry} {e : Entry} (he : e ∈ bs)
    (hkey : ∀ a ∈ as, a.key ≠ e.key) : e ∈ mergeBy shared op as bs := by
  fun_induction mergeBy shared op as bs with
  | case1 bs => simpa [only, hop] using he
  | case2 as => cases he
  | case3 a as b bs hab ih =>
    rcases List.mem_cons.mp he with rfl | he
    · exact absurd hab (hkey a List.mem_cons_self)
    · exact List.mem_append_right _ (ih he fun x hx => hkey x (List.mem_cons_of_mem _ hx))
  | case4 a as b bs hab hlt ih =>
    exact List.mem_append_right _ (ih he fun x hx => hkey x (List.mem_cons_of_mem _ hx))
  | case5 a as b bs hab hlt ih =>
    rcases List.mem_cons.mp he with rfl | he
    · exact List.mem_append_left _ (by simp [only, hop])
    · exact List.mem_append_right _ (ih he hkey)

/-- What holds of the left index, of the shared containers and of the entries under keys of the
right index alone, holds of the merge. -/
theorem forall_mergeBy_of_right {P : Entry → Prop} {as bs : List Entry}
    (hsa : as.Pairwise fun x y => x.key < y.key) (hsb : bs.Pairwise fun x y => x.key < y.key)
    (ha : ∀ a ∈ as, P a) (hb : ∀ b ∈ bs, (∀ a ∈ as, a.key ≠ b.key) → P b)
    (hshared : ∀ a ∈ as, ∀ b ∈ bs, P ⟨a.key, shared a.container b.container⟩) :
    ∀ e ∈ mergeBy shared op as bs, P e := by
  fun_induction mergeBy shared op as bs with
  | case1 bs => exact fun e he => hb e ((only_sublist _ bs).mem he) (List.forall_mem_nil _)
  | case2 as => exact fun e he => ha e ((only_sublist _ as).mem he)
  | case3 a as b bs hkey ih =>
    obtain ⟨hlt, hsb⟩ := List.pairwise_cons.mp hsb
    intro e he
    rcases List.mem_append.mp he with he | he
    · rw [(mem_entryOf.mp he).2]
      exact hshared a List.mem_cons_self b List.mem_cons_self
    · refine ih (List.pairwise_cons.mp hsa).2 hsb (fun x hx => ha x (List.mem_cons_of_mem _ hx))
        (fun y hy hne => hb y (List.mem_cons_of_mem _ hy) (List.forall_mem_cons.mpr ⟨?_, hne⟩))
        (fun x hx y hy => hshared x (List.mem_cons_of_mem _ hx) y (List.mem_cons_of_mem _ hy)) e he
      exact hkey ▸ UInt16.ne_of_lt (hlt y hy)
  | case4 a as b bs hkey hlt ih =>
    have hbefore := lt_cons hlt (List.pairwise_cons.mp hsb).1
    intro e he
    rcases List.mem_append.mp he with he | he
    · rw [List.mem_singleton.mp ((only_sublist _ _).mem he)]
      exact ha a List.mem_cons_self
    · exact ih (List.pairwise_cons.mp hsa).2 hsb (fun x hx => ha x (List.mem_cons_of_mem _ hx))
        (fun y hy hne => hb y hy (List.forall_mem_cons.mpr ⟨UInt16.ne_of_lt (hbefore y hy), hne⟩))
        (fun x hx => hshared x (List.mem_cons_of_mem _ hx)) e he
  | case5 a as b bs hkey hnlt ih =>
    have hlt : b.key < a.key :=
      UInt16.lt_of_le_of_ne (UInt16.not_lt.mp hnlt) fun e => hkey e.symm
    have hbefore := lt_cons hlt (List.pairwise_cons.mp hsa).1
    intro e he
    rcases List.mem_append.mp he with he | he
    · rw [List.mem_singleton.mp ((only_sublist _ _).mem he)]
      exact hb b List.mem_cons_self fun x hx => (UInt16.ne_of_lt (hbefore x hx)).symm
    · exact ih hsa (List.pairwise_cons.mp hsb).2 ha (fun y hy => hb y (List.mem_cons_of_mem _ hy))
        (fun x hx y hy => hshared x hx y (List.mem_cons_of_mem _ hy)) e he

end Index

namespace Bitmap

/-- Every container is kept as given thresholds ask. -/
def FitsUnder (t : Thresholds) (b : Bitmap) : Prop := ∀ e ∈ b.entries, e.container.Fits t

/-- The containers under keys that another bitmap lacks are kept as given thresholds ask. -/
def FitsApart (t : Thresholds) (b a : Bitmap) : Prop :=
  ∀ e ∈ b.entries, e.key ∉ a.keys → e.container.Fits t

variable {a b : Bitmap}

theorem fits_absorbShared (t : Thresholds) (op : SetOp) {x y : Container} (hx : x.Valid)
    (hy : y.Valid) (hfits : x.Fits t) : (Index.absorbShared t op x y).Fits t := by
  unfold Index.absorbShared
  split
  · exact hfits
  · exact (Container.settled_absorb t op hx hy).fits

/-- A merge of the index of a bitmap that fits with another one fits as far as the containers under
keys of the other one alone do. -/
theorem fitsUnder_merge_iff {shared : Container → Container → Container} {op : SetOp}
    {t : Thresholds} {c : Bitmap} (hop : op.keepsRight) (ha : a.WellFormed) (hb : b.WellFormed)
    (hfits : a.FitsUnder t)
    (hshared : ∀ {x y : Container}, x.Valid → y.Valid → x.Fits t → (shared x y).Fits t)
    (hc : c.entries.toList = Index.mergeBy shared op a.entries.toList b.entries.toList) :
    c.FitsUnder t ↔ b.FitsApart t a := by
  have hapart : ∀ k, k ∉ a.keys ↔ ∀ x ∈ a.entries.toList, x.key ≠ k := by simp [keys]
  constructor
  · intro h e he hkey
    refine h e (Array.mem_toList_iff.mp ?_)
    rw [hc]
    exact Index.mem_mergeBy_of_right hop (Array.mem_toList_iff.mpr he) ((hapart e.key).mp hkey)
  · intro h e he
    have he := Array.mem_toList_iff.mpr he
    rw [hc] at he
    refine Index.forall_mergeBy_of_right (P := fun e => e.container.Fits t) ha.1 hb.1
      (fun x hx => hfits x (Array.mem_toList_iff.mp hx))
      (fun y hy hne => h y (Array.mem_toList_iff.mp hy) ((hapart y.key).mpr hne))
      (fun x hx y hy => ?_) e he
    have hx := Array.mem_toList_iff.mp hx
    exact hshared (ha.2 x hx).1 (hb.2 y (Array.mem_toList_iff.mp hy)).1 (hfits x hx)

/-- A union or a symmetric difference of bitmaps, written anew or in the place of the left one that
fits its own thresholds, fits them too exactly when the containers do that it takes over from the
right one. -/
theorem fits_iff_taken_over_fit (op : SetOp) (a b : Bitmap) (hop : op.keepsRight)
    (ha : a.WellFormed) (hb : b.WellFormed) (hfits : a.FitsUnder a.thresholds) :
    ((a.combine op b).FitsUnder a.thresholds ↔ b.FitsApart a.thresholds a) ∧
      ((a.absorb op b).FitsUnder a.thresholds ↔ b.FitsApart a.thresholds a) :=
  ⟨fitsUnder_merge_iff hop ha hb hfits
      (fun hx hy _ => (Container.settled_combine a.thresholds op hx hy).fits)
      (toList_entries_combine op ha hb),
    fitsUnder_merge_iff hop ha hb hfits (fits_absorbShared a.thresholds op)
      (toList_entries_absorb op ha hb)⟩

theorem fits_iff_taken_over_fit_shared_key :
    (⟨⟨2, 2, 0⟩, #[⟨0, .array #[7]⟩]⟩ : Bitmap).WellFormed ∧
      (⟨.standard, #[⟨0, .array #[1, 2, 3]⟩, ⟨5, .array #[4]⟩]⟩ : Bitmap).WellFormed ∧
      FitsUnder ⟨2, 2, 0⟩ ⟨⟨2, 2, 0⟩, #[⟨0, .array #[7]⟩]⟩ ∧
      (FitsUnder ⟨2, 2, 0⟩ (absorb .symmDiff ⟨⟨2, 2, 0⟩, #[⟨0, .array #[7]⟩]⟩
          ⟨.standard, #[⟨0, .array #[1, 2, 3]⟩, ⟨5, .array #[4]⟩]⟩) ↔
        FitsApart ⟨2, 2, 0⟩ ⟨.standard, #[⟨0, .array #[1, 2, 3]⟩, ⟨5, .array #[4]⟩]⟩
          ⟨⟨2, 2, 0⟩, #[⟨0, .array #[7]⟩]⟩) := by
  have ha : (⟨⟨2, 2, 0⟩, #[⟨0, .array #[7]⟩]⟩ : Bitmap).WellFormed := by decide
  have hb : (⟨.standard, #[⟨0, .array #[1, 2, 3]⟩, ⟨5, .array #[4]⟩]⟩ : Bitmap).WellFormed := by
    decide
  have hfits : FitsUnder ⟨2, 2, 0⟩ ⟨⟨2, 2, 0⟩, #[⟨0, .array #[7]⟩]⟩ := by
    simp [FitsUnder, Container.Fits]
  exact ⟨ha, hb, hfits, (fits_iff_taken_over_fit .symmDiff _ _ rfl ha hb hfits).2⟩

/-- An array of three values comes unchanged into a bitmap that keeps two values as an array, though
each bitmap fits its own thresholds. -/
theorem taken_over_array_too_large :
    (⟨⟨2, 2, 0⟩, #[]⟩ : Bitmap).WellFormed ∧
      (⟨.standard, #[⟨0, .array #[1, 2, 3]⟩]⟩ : Bitmap).WellFormed ∧
      FitsUnder ⟨2, 2, 0⟩ ⟨⟨2, 2, 0⟩, #[]⟩ ∧
      FitsUnder .standard ⟨.standard, #[⟨0, .array #[1, 2, 3]⟩]⟩ ∧
      ¬FitsUnder ⟨2, 2, 0⟩
        (combine .union ⟨⟨2, 2, 0⟩, #[]⟩ ⟨.standard, #[⟨0, .array #[1, 2, 3]⟩]⟩) ∧
      ¬FitsUnder ⟨2, 2, 0⟩
        (absorb .symmDiff ⟨⟨2, 2, 0⟩, #[]⟩ ⟨.standard, #[⟨0, .array #[1, 2, 3]⟩]⟩) := by
  have ha : (⟨⟨2, 2, 0⟩, #[]⟩ : Bitmap).WellFormed := by decide
  have hb : (⟨.standard, #[⟨0, .array #[1, 2, 3]⟩]⟩ : Bitmap).WellFormed := by decide
  have hfits : FitsUnder ⟨2, 2, 0⟩ ⟨⟨2, 2, 0⟩, #[]⟩ := by simp [FitsUnder]
  have hapart : ¬FitsApart ⟨2, 2, 0⟩ ⟨.standard, #[⟨0, .array #[1, 2, 3]⟩]⟩ ⟨⟨2, 2, 0⟩, #[]⟩ := by
    simp [FitsApart, keys, Container.Fits]
  refine ⟨ha, hb, hfits, by simp [FitsUnder, Container.Fits, Thresholds.standard], ?_, ?_⟩
  · exact mt (fitsUnder_merge_iff rfl ha hb hfits
      (fun hx hy _ => (Container.settled_combine _ .union hx hy).fits)
      (toList_entries_combine .union ha hb)).mp hapart
  · exact mt (fitsUnder_merge_iff rfl ha hb hfits (fits_absorbShared _ .symmDiff)
      (toList_entries_absorb .symmDiff ha hb)).mp hapart

end Bitmap

end Roaring
