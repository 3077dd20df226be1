import Roaring.Proofs.Bitmap.Equality
import Roaring.Proofs.Bitmap.Single
import Roaring.Proofs.Bitmap.Update
import Roaring.Proofs.Container.Range

/-!
# Ranges of values

The pieces of a range are under increasing keys and hold, with each key, the lower halves of the
values in the range. A change of one piece is a set operation on the values under its key and leaves
every other key alone, so the changes of all pieces, one after the other, are that operation on the
whole bitmap.
-/
namespace Roaring

/-- Whether a value lies between two bounds. -/
def Bound.Between (lo hi : Bound) (v : UInt32) : Prop := lo.AdmitsAbove v ∧ hi.AdmitsBelow v

theorem Bound.between_iff {lo hi : Bound} {v : UInt32} :
    Between lo hi v ↔ lo.start ≤ v.toNat ∧ v.toNat < hi.stop := by
  rw [Between, start_le_iff, lt_stop_iff]

/-! ## Pieces -/

/-- Whether a piece has the value of two halves. -/
def Piece.Has (p : Piece) (key low : UInt16) : Prop :=
  p.key = key ∧ p.start ≤ low.toNat ∧ low.toNat < p.stop

section Pieces

variable {start stop : Nat}

theorem stop_le_of_mem_pieces {p : Piece} (h : p ∈ pieces start stop) : p.stop ≤ 65536 := by
  obtain ⟨-, k, -, -, rfl⟩ := mem_pieces.mp h
  simp only [pieceAt]
  split <;> omega

theorem toNat_key_pieceAt (hstop : stop ≤ 2 ^ 32) {k : Nat} (hk : k ≤ (stop - 1) / 65536) :
    (pieceAt start stop k).key.toNat = k :=
  toNat_toUInt16 (by omega)

/-- Each piece is under a larger key than the one before. -/
theorem pairwise_pieces (hstop : stop ≤ 2 ^ 32) :
    (pieces start stop).Pairwise fun p q => p.key < q.key := by
  unfold pieces
  split
  · rw [List.pairwise_map]
    refine List.Pairwise.imp_of_mem (fun {j k} hj hk hlt => ?_) List.pairwise_lt_range'
    have hj := List.mem_range'_1.mp hj
    have hk := List.mem_range'_1.mp hk
    rw [UInt16.lt_iff_toNat_lt, toNat_key_pieceAt hstop (by omega),
      toNat_key_pieceAt hstop (by omega)]
    exact hlt
  · exact List.Pairwise.nil

/-- The numbers in a range are those of its pieces. -/
theorem exists_piece_iff (hstop : stop ≤ 2 ^ 32) (v : UInt32) :
    (∃ p ∈ pieces start stop, p.Has (highHalf v) (lowHalf v)) ↔
      start ≤ v.toNat ∧ v.toNat < stop := by
  have hhigh := toNat_highHalf v
  have hlow := toNat_lowHalf v
  constructor
  · rintro ⟨p, hp, hkey, hlo, hhi⟩
    obtain ⟨hlt, k, hk, hk', rfl⟩ := mem_pieces.mp hp
    rw [← UInt16.toNat_inj, toNat_key_pieceAt hstop hk', hhigh] at hkey
    subst hkey
    simp only [pieceAt, hlow] at hlo hhi
    split_ifs at hlo hhi <;> omega
  · rintro ⟨hlo, hhi⟩
    refine ⟨pieceAt start stop (v.toNat / 65536),
      mem_pieces.mpr ⟨by omega, _, by omega, by omega, rfl⟩, ?_, ?_⟩
    · rw [← UInt16.toNat_inj, toNat_key_pieceAt hstop (by omega), hhigh]
    · simp only [pieceAt, hlow]
      split_ifs <;> omega

end Pieces

/-! ## A piece changed -/

/-- From a valid container, or none, to one that is valid and has the values that the operation asks
for when those of a piece are its right operand. -/
structure Piece.Changed (op : SetOp) (p : Piece) (held new : Option Container) : Prop where
  valid : ∀ c, new = some c → c.Valid
  heldBy : ∀ low : UInt16, HeldBy new low ↔
    op.Holds (HeldBy held low) (p.start ≤ low.toNat ∧ low.toNat < p.stop)

namespace Piece.Changed

variable {op : SetOp} {p : Piece} {held : Option Container} {c : Container}

theorem absent (hop : op.keepsRight = false) : Changed op p none none where
  valid _ h := nomatch h
  heldBy low := by
    rw [iff_false_intro heldBy_none, SetOp.holds_false_left]
    simp [hop]

theorem filled (t : Thresholds) (hop : op.keepsRight) :
    Changed op p none (some (Container.ofRange t p.start p.stop)) where
  valid _ h := Option.some.inj h ▸ (Container.settled_ofRange t p.start p.stop).valid
  heldBy low := by
    rw [iff_false_intro heldBy_none, SetOp.holds_false_left, heldBy_some,
      (Container.settled_ofRange t p.start p.stop).mem]
    simp [hop]

theorem absorbed (t : Thresholds) (hop : op.keepsLeft) (h : c.Valid) :
    Changed op p (some c) (some (c.absorbRange t op p.start p.stop)) where
  valid _ hc := Option.some.inj hc ▸ (Container.absorbRange_spec t p.start p.stop op hop h).1
  heldBy low := by
    rw [heldBy_some, heldBy_some, (Container.absorbRange_spec t p.start p.stop op hop h).2]

/-- An empty container is left out without a value lost. -/
theorem nonEmpty (h : Changed op p held (some c)) : Changed op p held (Bitmap.nonEmpty c) where
  valid c' hc' := by
    obtain ⟨-, rfl⟩ := Bitmap.nonEmpty_eq_some hc'
    exact h.valid c rfl
  heldBy low := by
    rw [← h.heldBy, heldBy_some, Bitmap.heldBy_nonEmpty (h.valid c rfl)]

end Piece.Changed

/-- Every piece is changed as the operation asks, whatever valid container is held for its key. -/
def Applies (op : SetOp) (f : Piece → Option Container → Option Container) : Prop :=
  ∀ p held, (∀ c : Container, held = some c → c.Valid) → Piece.Changed op p held (f p held)

/-! ## All pieces changed -/

namespace Bitmap

variable {op : SetOp} {f : Piece → Option Container → Option Container}

/-- Changing pieces under different keys one by one changes the values of all of them. -/
theorem holds_foldl_alter (hop : op.keepsLeft) (hf : Applies op f)
    (ps : List Piece) (hps : ps.Pairwise fun p q => p.key < q.key) (es : Array Entry)
    (hes : Index.Keeps Container.Valid es.toList) (key low : UInt16) :
    Index.Holds (ps.foldl (fun es p => Index.alter es p.key (f p)) es).toList key low ↔
      op.Holds (Index.Holds es.toList key low) (∃ p ∈ ps, p.Has key low) := by
  induction ps generalizing es with
  | nil => simp [SetOp.holds_false_right, hop]
  | cons p ps ih =>
    obtain ⟨hlt, hps⟩ := List.pairwise_cons.mp hps
    have hstep := hf p (Index.get? es p.key) fun c hc => hes.get? hc
    rw [List.foldl_cons, ih hps _ (hes.alter hstep.valid), Index.holds_alter hes.sorted]
    split
    · rename_i hkey
      subst hkey
      -- the keys increase, so no later piece changes what this one has made
      have hrest : ¬∃ q ∈ ps, q.Has p.key low := by
        rintro ⟨q, hq, hkey, -⟩
        exact UInt16.lt_irrefl _ (hkey ▸ hlt q hq)
      have hpiece : (∃ q ∈ p :: ps, q.Has p.key low) ↔
          p.start ≤ low.toNat ∧ low.toNat < p.stop := by
        rw [List.exists_mem_cons_iff, or_iff_left hrest, Piece.Has, and_iff_right rfl]
      rw [iff_false_intro hrest, SetOp.holds_false_right, hpiece, hstep.heldBy,
        Index.holds_iff_get? hes.sorted]
      simp [hop]
    · rename_i hne
      have hpiece : (∃ q ∈ p :: ps, q.Has key low) ↔ ∃ q ∈ ps, q.Has key low := by
        rw [List.exists_mem_cons_iff, or_iff_right fun h => hne h.1.symm]
      rw [hpiece]

variable {b : Bitmap} {lo hi : Bound}

theorem mem_alterPieces (h : b.WellFormed) (hop : op.keepsLeft) (hf : Applies op f) (v : UInt32) :
    v ∈ b.alterPieces lo hi f ↔
      op.Holds (v ∈ b) (Bound.Between lo hi v) := by
  have hsound := wellFormed_iff.mp h
  rw [mem_iff, mem_iff, alterPieces, withEntries, holds_foldl_alter hop hf _
    (pairwise_pieces hi.stop_le) _ hsound.keeps, exists_piece_iff hi.stop_le,
    Bound.between_iff]

theorem mem_insertRange (h : b.WellFormed) (v : UInt32) :
    v ∈ b.insertRange lo hi ↔ SetOp.union.Holds (v ∈ b) (Bound.Between lo hi v) := by
  refine mem_alterPieces h rfl (fun p held hheld => ?_) v
  cases held with
  | none => exact .filled _ rfl
  | some c => exact .absorbed _ rfl (hheld c rfl)

theorem mem_eraseRange (h : b.WellFormed) (v : UInt32) :
    v ∈ b.eraseRange lo hi ↔ SetOp.diff.Holds (v ∈ b) (Bound.Between lo hi v) := by
  refine mem_alterPieces h rfl (fun p held hheld => ?_) v
  cases held with
  | none => exact .absent rfl
  | some c => exact (Piece.Changed.absorbed _ rfl (hheld c rfl)).nonEmpty

theorem mem_toggleRange (h : b.WellFormed) (v : UInt32) :
    v ∈ b.toggleRange lo hi ↔
      SetOp.symmDiff.Holds (v ∈ b) (Bound.Between lo hi v) := by
  refine mem_alterPieces h rfl (fun p held hheld => ?_) v
  cases held with
  | none => exact .filled _ rfl
  | some c => exact (Piece.Changed.absorbed _ rfl (hheld c rfl)).nonEmpty

/-! ## Ranges held -/

/-- No piece is empty, so a piece without a container is not held. -/
theorem holdsPiece_iff (h : b.WellFormed) {p : Piece} (hp : p ∈ pieces lo.start hi.stop) :
    (Index.get? b.entries p.key).any (·.containsRange p.start p.stop) ↔
      ∀ low : UInt16, p.start ≤ low.toNat → low.toNat < p.stop →
        Index.Holds b.entries.toList p.key low := by
  have hsound := wellFormed_iff.mp h
  simp only [Index.holds_iff_get? hsound.sorted]
  cases hget : Index.get? b.entries p.key with
  | none =>
    refine iff_of_false Bool.false_ne_true fun hall => ?_
    have hlt := lt_of_mem_pieces hp
    rw [domainSize] at hlt
    have hstart := toNat_toUInt16 (n := p.start) (by omega)
    exact heldBy_none (hall p.start.toUInt16 (by omega) (by omega))
  | some c =>
    simp only [Option.any_some, heldBy_some]
    exact Container.containsRange_iff (hsound.keeps.get? hget) (stop_le_of_mem_pieces hp)

theorem containsRange_iff (h : b.WellFormed) :
    b.containsRange lo hi ↔ ∀ v, Bound.Between lo hi v → v ∈ b := by
  simp only [Bound.between_iff, ← exists_piece_iff hi.stop_le]
  rw [containsRange, List.all_eq_true]
  constructor
  · rintro hall v ⟨p, hp, hkey, hlo, hhi⟩
    rw [mem_iff, ← hkey]
    exact (holdsPiece_iff h hp).mp (hall p hp) _ hlo hhi
  · intro hall p hp
    refine (holdsPiece_iff h hp).mpr fun low hlo hhi => holds_iff.mpr (hall _ ⟨p, hp, ?_⟩)
    rw [highHalf_joinHalves, lowHalf_joinHalves]
    exact ⟨rfl, hlo, hhi⟩

/-! ## Ranges as sets -/

/-- Adding, removing and toggling a range are union, difference and symmetric difference with the
values between its bounds, whatever the bounds are, and leave a well formed index; asking for a
range is asking for each of those values. -/
theorem ranges_act_as_sets (b : Bitmap) (lo hi : Bound) (h : b.WellFormed) :
    ((b.insertRange lo hi).WellFormed ∧
        ∀ v, v ∈ b.insertRange lo hi ↔ v ∈ b ∨ Bound.Between lo hi v) ∧
      ((b.eraseRange lo hi).WellFormed ∧
        ∀ v, v ∈ b.eraseRange lo hi ↔ v ∈ b ∧ ¬Bound.Between lo hi v) ∧
      ((b.toggleRange lo hi).WellFormed ∧
        ∀ v, v ∈ b.toggleRange lo hi ↔
          v ∈ b ∧ ¬Bound.Between lo hi v ∨ Bound.Between lo hi v ∧ ¬v ∈ b) ∧
      (b.containsRange lo hi ↔ ∀ v, Bound.Between lo hi v → v ∈ b) := by
  have hkept : b.Kept False := kept_iff.mpr ⟨h, False.elim⟩
  exact ⟨⟨(hkept.insertRange lo hi).wellFormed, mem_insertRange h⟩,
    ⟨(hkept.eraseRange lo hi).wellFormed, mem_eraseRange h⟩,
    ⟨(hkept.toggleRange lo hi).wellFormed, mem_toggleRange h⟩, containsRange_iff h⟩

/-- A range across two keys, of which the bitmap holds the first value and lacks the second. -/
theorem ranges_act_as_sets_across_keys :
    (⟨.standard, #[⟨0, .array #[3, 65535]⟩]⟩ : Bitmap).WellFormed ∧
      65536 ∈ (⟨.standard, #[⟨0, .array #[3, 65535]⟩]⟩ : Bitmap).insertRange
        (.included 65535) (.excluded 65537) ∧
      ¬65535 ∈ (⟨.standard, #[⟨0, .array #[3, 65535]⟩]⟩ : Bitmap).eraseRange
        (.included 65535) (.excluded 65537) ∧
      65536 ∈ (⟨.standard, #[⟨0, .array #[3, 65535]⟩]⟩ : Bitmap).toggleRange
        (.included 65535) (.excluded 65537) ∧
      ¬(⟨.standard, #[⟨0, .array #[3, 65535]⟩]⟩ : Bitmap).containsRange
        (.included 65535) (.excluded 65537) := by
  have h : (⟨.standard, #[⟨0, .array #[3, 65535]⟩]⟩ : Bitmap).WellFormed := by decide
  have hfirst : Bound.Between (.included 65535) (.excluded 65537) 65535 :=
    ⟨by show (65535 : UInt32) ≤ 65535; decide, by show (65535 : UInt32) < 65537; decide⟩
  have hsecond : Bound.Between (.included 65535) (.excluded 65537) 65536 :=
    ⟨by show (65535 : UInt32) ≤ 65536; decide, by show (65536 : UInt32) < 65537; decide⟩
  have hlacks : ¬65536 ∈ (⟨.standard, #[⟨0, .array #[3, 65535]⟩]⟩ : Bitmap) := by
    rw [mem_iff]
    rintro ⟨e, he, hkey, -⟩
    obtain rfl : e = ⟨0, .array #[3, 65535]⟩ := List.mem_singleton.mp he
    exact absurd hkey (by decide)
  obtain ⟨⟨-, hinsert⟩, ⟨-, herase⟩, ⟨-, htoggle⟩, hcontains⟩ :=
    ranges_act_as_sets _ (.included 65535) (.excluded 65537) h
  exact ⟨h, (hinsert _).mpr (.inr hsecond), fun hmem => ((herase _).mp hmem).2 hfirst,
    (htoggle _).mpr (.inr ⟨hsecond, hlacks⟩), fun hall => hlacks (hcontains.mp hall _ hsecond)⟩

/-- Past the largest value there is nothing left to ask for. -/
example (b : Bitmap) : b.containsRange (.excluded 4294967295) .unbounded := rfl

end Bitmap

end Roaring
