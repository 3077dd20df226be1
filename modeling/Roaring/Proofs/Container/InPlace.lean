import Roaring.Container.InPlace
import Roaring.Proofs.Container.Shapes

/-!
# Operations in the left operand's storage, accounted for

Once its replacement has moved in, an operation in the left operand's storage has come to the same
container as `absorb`. Before that the left operand is valid as well: it still holds what it held,
or already what the operation asks for.
-/
namespace Roaring.Container

variable {t : Thresholds} {op : SetOp} {a b : Container}

/-! ## The cheapest encoding -/

theorem final_compactInPlace (t : Thresholds) (c : Container) :
    (compactInPlace t c).final = compact t c := by
  unfold Left.final
  cases c with
  | array vs =>
    simp only [compactInPlace, compact, compactArray]
    split <;> rfl
  | bitset b =>
    simp only [compactInPlace, compact, compactBitset]
    split <;> split <;> rfl
  | run rs =>
    simp only [compactInPlace, compact, compactRuns]
    split <;> rfl

theorem own_compactInPlace_spec (t : Thresholds) {c : Container} (h : c.Valid) :
    (compactInPlace t c).own.Valid ∧ ∀ v, v ∈ (compactInPlace t c).own ↔ v ∈ c := by
  cases c with
  | array vs => exact ⟨h, fun v => Iff.rfl⟩
  | bitset b =>
    simp only [compactInPlace]
    split
    · exact ⟨h, fun v => Iff.rfl⟩
    · exact ⟨Bitset.exact_counted _, fun v => Iff.rfl⟩
  | run rs => exact ⟨h, fun v => Iff.rfl⟩

/-! ## Edits -/

theorem editArray?_spec {vs us : Array UInt16} (hvs : Sorted.Increasing vs) (hb : b.Valid)
    (h : editArray? t op vs b = some us) :
    Sorted.Increasing us ∧ compactArray t us = absorb t op (array vs) b := by
  unfold editArray? at h
  split at h
  · cases h
    rw [Sorted.keepShared_eq hvs hb]
    exact ⟨Sorted.increasing_filter hvs _, by rw [absorb, keepFrom, Sorted.keepShared_eq hvs hb]⟩
  · cases h
    exact ⟨Sorted.increasing_filter hvs _, rfl⟩
  · cases h
    refine ⟨?_, rfl⟩
    split
    · exact hvs
    · rw [Runs.keepHeld_eq hb hvs]
      exact Sorted.increasing_filter hvs _
  · split at h
    · cases h
    · cases h
      have hsize := size_union_le hvs hb
      refine ⟨Sorted.increasing_union hvs hb, ?_⟩
      rw [absorb, addFrom, if_neg ‹_›]
      exact if_pos (by omega)
  · cases h
    refine ⟨?_, rfl⟩
    rw [Sorted.dropShared_eq hvs hb]
    exact Sorted.increasing_filter hvs _
  · cases h
    exact ⟨Sorted.increasing_filter hvs _, rfl⟩
  · cases h
    refine ⟨?_, rfl⟩
    rw [Runs.dropHeld_eq hb hvs]
    exact Sorted.increasing_filter hvs _
  · split at h
    · cases h
    · cases h
      have hsize := size_symmDiff_le hvs hb
      refine ⟨Sorted.increasing_symmDiff hvs hb, ?_⟩
      rw [absorb, toggleFrom, if_neg ‹_›]
      exact if_pos (by omega)
  · cases h

theorem editBitset?_spec {s s' : Bitset} (hs : s.Exact) (hb : b.Valid)
    (h : editBitset? op s b = some s') :
    s'.Exact ∧ compactBitset t s' = absorb t op (bitset s) b := by
  unfold editBitset? at h
  split at h
  · cases h
    exact ⟨Bitset.exact_counted _, by cases op <;> rfl⟩
  · cases h
  · cases h
    refine ⟨?_, rfl⟩
    split
    · exact hs
    · exact Bitset.exact_eraseGaps hs _
  · cases h
    exact ⟨Bitset.exact_insertAll hs _, rfl⟩
  · split at h
    · cases h
    · cases h
      refine ⟨Bitset.exact_insertRuns hs hb, ?_⟩
      rw [absorb, addFrom, if_neg ‹_›]
  · cases h
    exact ⟨Bitset.exact_eraseAll hs _, rfl⟩
  · cases h
    exact ⟨Bitset.exact_eraseRuns hs hb, rfl⟩
  · cases h
    exact ⟨Bitset.exact_toggleAll hs _, rfl⟩
  · cases h
    exact ⟨Bitset.exact_toggleRuns hs hb, rfl⟩

/-- An edited operand is valid, and in its cheapest encoding it is what `absorb` comes to. -/
theorem edit?_spec {c : Container} (ha : a.Valid) (hb : b.Valid) (h : edit? t op a b = some c) :
    c.Valid ∧ compact t c = absorb t op a b := by
  cases a with
  | array vs =>
    obtain ⟨us, hus, rfl⟩ := Option.map_eq_some_iff.mp h
    exact editArray?_spec ha hb hus
  | bitset s =>
    obtain ⟨s', hs', rfl⟩ := Option.map_eq_some_iff.mp h
    exact editBitset?_spec ha hb hs'
  | run rs => cases h

/-! ## Operations -/

theorem final_absorbInPlace (t : Thresholds) (op : SetOp) (ha : a.Valid) (hb : b.Valid) :
    (absorbInPlace t op a b).final = absorb t op a b := by
  unfold absorbInPlace
  split
  · rename_i c h
    exact (final_compactInPlace t c).trans (edit?_spec ha hb h).2
  · exact (absorb_eq t op ha hb).symm

/-- The left operand stays as it was, or holds what the operation asks for. -/
theorem own_absorbInPlace_spec (t : Thresholds) (op : SetOp) (ha : a.Valid) (hb : b.Valid) :
    (absorbInPlace t op a b).own = a ∨ (absorbInPlace t op a b).own.Valid ∧
      ∀ v, v ∈ (absorbInPlace t op a b).own ↔ op.Holds (v ∈ a) (v ∈ b) := by
  unfold absorbInPlace
  split
  · rename_i c h
    obtain ⟨hvalid, heq⟩ := edit?_spec ha hb h
    obtain ⟨hown, hmem⟩ := own_compactInPlace_spec t hvalid
    refine .inr ⟨hown, fun v => (hmem v).trans ?_⟩
    rw [← (settled_compact (t := t) hvalid).mem v, heq]
    exact (settled_absorb t op ha hb).mem v
  · exact .inl rfl

end Roaring.Container
