import Roaring.Bitmap.Range
import Roaring.Proofs.Bitmap.Alter
import Roaring.Proofs.Bitmap.InPlace
import Roaring.Proofs.Container.Update

/-!
# Bitmaps changed

Every change leaves the keys increasing and a proper container under each: one that is valid, holds
a value, and is kept as the thresholds ask wherever that held of the operands.
-/
namespace Roaring

/-! ## Indexes -/

namespace Index

variable {P : Container → Prop}

theorem Keeps.map {Q : Container → Prop} {es : List Entry} (h : Keeps P es)
    {f : Container → Container} (hf : ∀ c, P c → Q (f c)) :
    Keeps Q (es.map fun e => { e with container := f e.container }) where
  sorted := List.pairwise_map.mpr h.sorted
  kept e he := by
    obtain ⟨x, hx, rfl⟩ := List.mem_map.mp he
    exact hf _ (h.kept x hx)

theorem Keeps.modify {es : List Entry} (h : Keeps P es) {f : Container → Container}
    (hf : ∀ c, P c → P (f c)) (i : Nat) :
    Keeps P (es.modify i fun e => { e with container := f e.container }) := by
  refine ⟨?_, forall_mem_modify h.kept (fun e he => hf _ (h.kept e he)) i⟩
  have hkeys := map_modify_of_eq (g := Entry.key)
    (f := fun e : Entry => { e with container := f e.container }) (fun _ => rfl) es i
  have hsorted := List.pairwise_map.mpr h.sorted
  rw [← hkeys] at hsorted
  exact List.pairwise_map.mp hsorted

theorem Keeps.mergeBy {shared : Container → Container → Container} {op : SetOp}
    {as bs : List Entry} (ha : Keeps P as) (hb : Keeps P bs)
    (hshared : ∀ a b, P a → P b → (shared a b).isEmpty = false → P (shared a b)) :
    Keeps P (mergeBy shared op as bs) where
  sorted := sorted_mergeBy as bs ha.sorted hb.sorted
  kept := forall_mergeBy as bs ha.kept hb.kept fun a has b hbs _ hne =>
    hshared _ _ (ha.kept a has) (hb.kept b hbs) hne

end Index

/-! ## Bounds and pieces -/

theorem Bound.stop_le (b : Bound) : b.stop ≤ 2 ^ 32 := by
  cases b with
  | unbounded => exact Nat.le_refl _
  | included v => exact v.toNat_lt
  | excluded v => exact Nat.le_of_lt v.toNat_lt

theorem mem_pieces {start stop : Nat} {p : Piece} : p ∈ pieces start stop ↔
    start < stop ∧ ∃ k, start / 65536 ≤ k ∧ k ≤ (stop - 1) / 65536 ∧ p = pieceAt start stop k := by
  unfold pieces
  split
  · rename_i hlt
    simp only [List.mem_map, List.mem_range'_1, hlt, true_and]
    refine exists_congr fun k => ?_
    constructor
    · rintro ⟨⟨hlo, hhi⟩, rfl⟩
      exact ⟨hlo, by omega, rfl⟩
    · rintro ⟨hlo, hhi, rfl⟩
      exact ⟨⟨hlo, by omega⟩, rfl⟩
  · simp_all

/-! ## Bitmaps -/

namespace Bitmap

/-- The index invariant, with containers that are kept as the thresholds ask wherever `strict`
holds. -/
def Kept (strict : Prop) (b : Bitmap) : Prop :=
  Index.Keeps (Container.Kept strict b.thresholds) b.entries.toList

variable {strict : Prop} {b : Bitmap}

theorem kept_iff : b.Kept strict ↔
    b.WellFormed ∧ (strict → ∀ e ∈ b.entries, e.container.Fits b.thresholds) := by
  rw [wellFormed_iff]
  constructor
  · rintro ⟨hsorted, hkept⟩
    exact ⟨⟨hsorted, fun e he => (hkept e he).valid, fun e he => (hkept e he).nonEmpty⟩,
      fun hs e he => (hkept e (Array.mem_toList_iff.mpr he)).fits hs⟩
  · rintro ⟨⟨hsorted, hvalid, hne⟩, hfits⟩
    exact ⟨hsorted, fun e he => ⟨hvalid e he, hne e he, fun hs =>
      hfits hs e (Array.mem_toList_iff.mp he)⟩⟩

theorem Kept.wellFormed (h : b.Kept strict) : b.WellFormed := (kept_iff.mp h).1

theorem WellFormed.kept (h : b.WellFormed) : b.Kept False := kept_iff.mpr ⟨h, False.elim⟩

theorem kept_empty (t : Thresholds) : (empty t).Kept strict := ⟨List.Pairwise.nil, by simp [empty]⟩

/-! ### Single values -/

theorem Kept.insert (h : b.Kept strict) (v : UInt32) : (b.insert v).2.Kept strict := by
  unfold Bitmap.insert
  split
  · rename_i c hc
    have hkept := Index.Keeps.get? h hc
    exact Index.Keeps.alter h fun c' hc' => Option.some.inj hc' ▸
      Container.kept_insert hkept.valid hkept.fits (lowHalf v)
  · exact Index.Keeps.alter h fun c' hc' => Option.some.inj hc' ▸
      Container.kept_insert (c := ∅) Sorted.increasing_empty (fun _ => Nat.zero_le _) (lowHalf v)

theorem WellFormed.insert (h : b.WellFormed) (v : UInt32) : (b.insert v).2.WellFormed :=
  (h.kept.insert v).wellFormed

theorem thresholds_insert (b : Bitmap) (v : UInt32) : (b.insert v).2.thresholds = b.thresholds := by
  unfold Bitmap.insert
  split <;> rfl

theorem nonEmpty_eq_some {c c' : Container} (h : nonEmpty c = some c') :
    c.isEmpty = false ∧ c = c' := by
  unfold nonEmpty at h
  split at h
  · cases h
  · exact ⟨Bool.eq_false_iff.mpr ‹_›, Option.some.inj h⟩

theorem Kept.erase (h : b.Kept strict) (v : UInt32) : (b.erase v).2.Kept strict := by
  unfold Bitmap.erase
  split
  · rename_i c hc
    refine Index.Keeps.alter h fun c' hc' => ?_
    obtain ⟨hne, rfl⟩ := nonEmpty_eq_some hc'
    exact (Index.Keeps.get? h hc).erase hne
  · exact h

theorem thresholds_erase (b : Bitmap) (v : UInt32) : (b.erase v).2.thresholds = b.thresholds := by
  unfold Bitmap.erase
  split <;> rfl

theorem Kept.insertAt (h : b.Kept strict) (i : Nat) (low : UInt16) :
    (b.insertAt i low).Kept strict := by
  unfold Bitmap.insertAt Kept withEntries
  rw [Array.toList_modify]
  exact Index.Keeps.modify h (fun c hc => Container.kept_insert hc.valid hc.fits low) i

/-- A list of values is added step by step, whatever place the last step left behind. -/
theorem Kept.insertNext {s : Bitmap × Option (UInt16 × Nat)} (h : s.1.Kept strict) (v : UInt32) :
    (insertNext s v).1.Kept strict := by
  obtain ⟨b, last⟩ := s
  cases hlast : last.filter (·.1 = highHalf v) with
  | some place =>
    simp only [Bitmap.insertNext, hlast]
    exact Kept.insertAt h _ _
  | none =>
    simp only [Bitmap.insertNext, hlast]
    exact Kept.insert h v

theorem thresholds_insertNext (s : Bitmap × Option (UInt16 × Nat)) (v : UInt32) :
    (insertNext s v).1.thresholds = s.1.thresholds := by
  obtain ⟨b, last⟩ := s
  cases hlast : last.filter (·.1 = highHalf v) with
  | some place =>
    simp only [Bitmap.insertNext, hlast]
    rfl
  | none =>
    simp only [Bitmap.insertNext, hlast]
    exact thresholds_insert b v

theorem Kept.insertAll (h : b.Kept strict) (vs : Array UInt32) : (b.insertAll vs).Kept strict :=
  Array.foldl_induction (fun _ (s : Bitmap × Option (UInt16 × Nat)) => s.1.Kept strict) h
    fun i _ hs => hs.insertNext vs[i]

theorem thresholds_insertAll (b : Bitmap) (vs : Array UInt32) :
    (b.insertAll vs).thresholds = b.thresholds :=
  Array.foldl_induction
    (fun _ (s : Bitmap × Option (UInt16 × Nat)) => s.1.thresholds = b.thresholds) rfl
    fun i s hs => (thresholds_insertNext s vs[i]).trans hs

theorem kept_ofValues (vs : Array UInt32) : (ofValues vs).Kept strict :=
  (kept_empty .standard).insertAll vs

/-! ### Ranges -/

/-- No piece is empty. -/
theorem lt_of_mem_pieces {start stop : Nat} {p : Piece} (h : p ∈ pieces start stop) :
    p.start < min p.stop domainSize := by
  obtain ⟨hlt, k, hlo, hhi, rfl⟩ := mem_pieces.mp h
  simp only [pieceAt, domainSize]
  split_ifs <;> omega

/-- What a piece leaves of a container is dropped, or proper again. -/
theorem kept_of_nonEmpty {t : Thresholds} {c c' : Container} {op : SetOp} {start stop : Nat}
    (hop : op.keepsLeft) (h : c.Kept strict t)
    (hc' : nonEmpty (c.absorbRange t op start stop) = some c') : c'.Kept strict t := by
  obtain ⟨hne, rfl⟩ := nonEmpty_eq_some hc'
  exact h.absorbRange hop hne

theorem kept_piece {t : Thresholds} {start stop : Nat} {p : Piece} {c : Container}
    (hp : p ∈ pieces start stop) (hc : some (Container.ofRange t p.start p.stop) = some c) :
    c.Kept strict t :=
  Option.some.inj hc ▸ Container.kept_ofRange (lt_of_mem_pieces hp)

theorem Kept.alterPieces (h : b.Kept strict) (lo hi : Bound)
    {f : Piece → Option Container → Option Container}
    (hf : ∀ p ∈ pieces lo.start hi.stop, ∀ held : Option Container,
      (∀ c, held = some c → c.Kept strict b.thresholds) →
      ∀ c, f p held = some c → c.Kept strict b.thresholds) :
    (b.alterPieces lo hi f).Kept strict := by
  have hrun : ∀ ps : List Piece, (∀ p ∈ ps, p ∈ pieces lo.start hi.stop) → ∀ es : Array Entry,
      Index.Keeps (Container.Kept strict b.thresholds) es.toList →
      Index.Keeps (Container.Kept strict b.thresholds)
        (ps.foldl (fun es p => Index.alter es p.key (f p)) es).toList := by
    intro ps
    induction ps with
    | nil => exact fun _ es hes => hes
    | cons p ps ih =>
      intro hps es hes
      obtain ⟨hp, hps⟩ := List.forall_mem_cons.mp hps
      exact ih hps _ (hes.alter (hf p hp _ fun c => hes.get?))
  exact hrun _ (fun _ hp => hp) b.entries h

theorem Kept.insertRange (h : b.Kept strict) (lo hi : Bound) :
    (b.insertRange lo hi).Kept strict := by
  refine h.alterPieces lo hi fun p hp held hheld c hc => ?_
  cases held with
  | some c' => exact Option.some.inj hc ▸ (hheld c' rfl).insertRange _ _
  | none => exact kept_piece hp hc

theorem Kept.eraseRange (h : b.Kept strict) (lo hi : Bound) :
    (b.eraseRange lo hi).Kept strict := by
  refine h.alterPieces lo hi fun p hp held hheld c hc => ?_
  obtain ⟨c', hc', hc⟩ := Option.bind_eq_some_iff.mp hc
  exact kept_of_nonEmpty rfl (hheld c' hc') hc

theorem Kept.toggleRange (h : b.Kept strict) (lo hi : Bound) :
    (b.toggleRange lo hi).Kept strict := by
  refine h.alterPieces lo hi fun p hp held hheld c hc => ?_
  cases held with
  | some c' => exact kept_of_nonEmpty rfl (hheld c' rfl) hc
  | none => exact kept_piece hp hc

theorem kept_ofRange (lo hi : Bound) : (ofRange lo hi).Kept strict :=
  (kept_empty .standard).insertRange lo hi

/-! ### All containers -/

theorem Kept.mapContainers {strict' : Prop} (h : b.Kept strict) {f : Container → Container}
    (hf : ∀ c, c.Kept strict b.thresholds → (f c).Kept strict' b.thresholds) :
    (b.mapContainers f).Kept strict' := by
  unfold Bitmap.mapContainers Kept withEntries
  rw [Array.toList_map]
  exact Index.Keeps.map h hf

theorem Kept.runOptimize (h : b.Kept strict) : b.runOptimize.2.Kept strict :=
  h.mapContainers fun _ hc =>
    hc.recode (Container.recodes_preferRuns _) (Container.fits_preferRuns hc.valid)

theorem Kept.removeRuns (h : b.Kept strict) : b.removeRuns.2.Kept strict :=
  h.mapContainers fun _ hc =>
    hc.recode (Container.recodes_removeRuns _) (Container.fits_removeRuns hc.valid)

/-- Settling every container makes up for what was left unfinished. -/
theorem Kept.compact {strict' : Prop} (h : b.Kept strict) :
    (b.mapContainers (Container.compact b.thresholds)).Kept strict' :=
  h.mapContainers fun _ hc => (Container.settled_compact hc.valid).kept hc.exists_mem

theorem Kept.absorbSelf (h : b.Kept strict) (op : SetOp) : (b.absorbSelf op).Kept strict := by
  cases op with
  | inter => exact h.compact
  | union => exact h.compact
  | diff => exact kept_empty b.thresholds
  | symmDiff => exact kept_empty b.thresholds

/-! ### Two bitmaps and more -/

section Two

variable {a : Bitmap} {op : SetOp}

/-- Where the rule on encodings is asked for, both operands have one set of thresholds. -/
theorem Kept.under (h : b.Kept strict) {t : Thresholds} (ht : strict → b.thresholds = t) :
    Index.Keeps (Container.Kept strict t) b.entries.toList :=
  ⟨h.sorted, fun e he => ⟨(h.kept e he).valid, (h.kept e he).nonEmpty, fun hs =>
    ht hs ▸ (h.kept e he).fits hs⟩⟩

theorem Kept.combine (ha : a.Kept strict) (hb : b.Kept strict)
    (ht : strict → b.thresholds = a.thresholds) : (a.combine op b).Kept strict := by
  unfold Kept
  rw [toList_entries_combine op ha.wellFormed hb.wellFormed]
  refine Index.Keeps.mergeBy ha (hb.under ht) fun x y hx hy hne => ?_
  have hs := Container.settled_combine a.thresholds op hx.valid hy.valid
  exact ⟨hs.valid, hne, fun _ => hs.fits⟩

theorem Kept.absorb (ha : a.Kept strict) (hb : b.Kept strict)
    (ht : strict → b.thresholds = a.thresholds) : (a.absorb op b).Kept strict := by
  unfold Kept
  rw [toList_entries_absorb op ha.wellFormed hb.wellFormed]
  refine Index.Keeps.mergeBy ha (hb.under ht) fun x y hx hy hne => ?_
  unfold Index.absorbShared at hne ⊢
  split
  · exact hx
  · rename_i hfull
    rw [if_neg hfull] at hne
    have hs := Container.settled_absorb a.thresholds op hx.valid hy.valid
    exact ⟨hs.valid, hne, fun _ => hs.fits⟩

theorem Kept.deferUnion (ha : a.Kept False) (hb : b.Kept False) : (a.deferUnion b).Kept False := by
  unfold Kept
  rw [toList_entries_deferUnion ha.wellFormed hb.wellFormed]
  refine Index.Keeps.mergeBy ha (hb.under False.elim) fun x y hx hy hne => ?_
  exact ⟨(Container.absorbDeferred_union_spec _ hx.valid hy.valid).1, hne, False.elim⟩

theorem Kept.foldl_deferUnion (h : b.Kept False) (bs : List Bitmap) (hbs : ∀ c ∈ bs, c.Kept False) :
    (bs.foldl Bitmap.deferUnion b).Kept False := by
  induction bs generalizing b with
  | nil => exact h
  | cons c bs ih =>
    obtain ⟨hc, hbs⟩ := List.forall_mem_cons.mp hbs
    exact ih (h.deferUnion hc) hbs

theorem Kept.mono {strict' : Prop} (hs : strict' → strict) (h : b.Kept strict) : b.Kept strict' :=
  ⟨h.sorted, fun e he => ⟨(h.kept e he).valid, (h.kept e he).nonEmpty, fun hs' =>
    (h.kept e he).fits (hs hs')⟩⟩

theorem kept_unionAll (bs : List Bitmap) (h : ∀ b ∈ bs, b.Kept strict) :
    (unionAll bs).Kept strict := by
  have hweak : ∀ b ∈ bs, b.Kept False := fun b hb => (h b hb).mono False.elim
  match bs with
  | [] => exact kept_empty .standard
  | [b] => exact h b List.mem_cons_self
  | b :: c :: bs =>
    obtain ⟨hb, hbs⟩ := List.forall_mem_cons.mp hweak
    exact (hb.foldl_deferUnion (c :: bs) hbs).compact

end Two

end Bitmap

end Roaring
