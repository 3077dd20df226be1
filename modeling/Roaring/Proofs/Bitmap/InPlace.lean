import Roaring.Proofs.Bitmap.Combine
import Roaring.Proofs.Container.Deferred
import Roaring.Proofs.Container.Query

/-!
# Indexes edited in place

Each operation edits the left index by a loop of its own, but the loops are put together from the
same few steps: an entry is dropped, replaced, kept or inserted at the cursor, and keys of one index
alone are passed, cut out or skipped. Each of these steps takes the loop closer to the merge of the
two indexes, so on sound indexes all loops come to it, and an emptied entry is dropped by every loop
under which one can come up.
-/
namespace Roaring

namespace Index

variable {shared : Container → Container → Container} {op : SetOp} {es out bs : Array Entry}
  {i j : Nat}

/-! ## Steps -/

/-- What an edit of an index from its cursors on leaves behind: the entries passed, and then those
ahead merged with the ones of the other index. -/
def Merges (shared : Container → Container → Container) (op : SetOp) (bs : Array Entry) (i j : Nat)
    (es out : Array Entry) : Prop :=
  ∀ ⦃beforeA afterA beforeB afterB : List Entry⦄, Ahead es i beforeA afterA →
    Ahead bs j beforeB afterB → out.toList = beforeA ++ mergeBy shared op afterA afterB

namespace Merges

section Shared

variable (hi : i < es.size) (hj : j < bs.size) (hkey : es[i].key = bs[j].key)

include hkey

/-- Nothing remains under a shared key, and its entry goes. -/
theorem drop (hempty : (shared es[i].container bs[j].container).isEmpty)
    (h : Merges shared op bs i (j + 1) (es.eraseIdx i) out) : Merges shared op bs i j es out := by
  intro beforeA afterA beforeB afterB ha hb
  obtain ⟨⟨as', rfl⟩, bs', rfl⟩ := exists_heads ha hb hi hj
  rw [h (ha.erase hi) hb.next, mergeBy, if_pos hkey, entryOf, if_pos hempty, List.nil_append]

/-- Something remains under a shared key. -/
theorem replace
    (hne : es[i].container.Valid → es[i].container.isEmpty = false → bs[j].container.Valid →
      (shared es[i].container bs[j].container).isEmpty = false)
    (h : Merges shared op bs (i + 1) (j + 1)
      (es.set i ⟨es[i].key, shared es[i].container bs[j].container⟩) out) :
    Merges shared op bs i j es out := by
  intro beforeA afterA beforeB afterB ha hb
  obtain ⟨⟨as', rfl⟩, bs', rfl⟩ := exists_heads ha hb hi hj
  have hne := hne ha.head_valid ha.head_nonEmpty hb.head_valid
  rw [h (ha.set hi _) hb.next, mergeBy, if_pos hkey, entryOf, hne, List.append_assoc]
  rfl

/-- The container under a shared key is what it is to become. -/
theorem keep (hsame : shared es[i].container bs[j].container = es[i].container)
    (h : Merges shared op bs (i + 1) (j + 1) es out) : Merges shared op bs i j es out := by
  intro beforeA afterA beforeB afterB ha hb
  obtain ⟨⟨as', rfl⟩, bs', rfl⟩ := exists_heads ha hb hi hj
  rw [h ha.next hb.next, mergeBy, if_pos hkey, entryOf, hsame, ha.head_nonEmpty, List.append_assoc]
  rfl

end Shared

section Apart

variable (hi : i < es.size) (hj : j < bs.size)

/-- A key of the index alone is passed. -/
theorem pass (hl : op.keepsLeft) (hlt : es[i].key < bs[j].key)
    (h : Merges shared op bs (i + 1) j es out) : Merges shared op bs i j es out := by
  intro beforeA afterA beforeB afterB ha hb
  obtain ⟨⟨as', rfl⟩, bs', rfl⟩ := exists_heads ha hb hi hj
  have hne : es[i].key ≠ bs[j].key := UInt16.ne_of_lt hlt
  rw [h ha.next hb, mergeBy, if_neg hne, if_pos hlt, only, if_pos hl, List.append_assoc]

/-- Keys of the index alone are passed by a search. -/
theorem leap (hl : op.keepsLeft)
    (h : Merges shared op bs (advance (·.key < bs[j].key) es i) j es out) :
    Merges shared op bs i j es out := by
  intro beforeA afterA beforeB afterB ha hb
  obtain ⟨bs', rfl⟩ := hb.exists_cons hj
  rw [h (ha.advance _) hb, mergeBy_leap_left afterA, only, if_pos hl, List.append_assoc]

/-- Keys of the index alone are cut out. -/
theorem cut (hl : ¬op.keepsLeft)
    (h : Merges shared op bs i j (es.take i ++ es.drop (advance (·.key < bs[j].key) es i)) out) :
    Merges shared op bs i j es out := by
  intro beforeA afterA beforeB afterB ha hb
  obtain ⟨bs', rfl⟩ := hb.exists_cons hj
  rw [h (ha.cut (ha.advance _)) hb, mergeBy_leap_left afterA, only, if_neg hl, List.nil_append]

/-- A key of the other index alone goes in before the cursor. -/
theorem insert (hr : op.keepsRight) (hne : es[i].key ≠ bs[j].key) (hge : ¬es[i].key < bs[j].key)
    (h : Merges shared op bs (i + 1) (j + 1) (es.insertIdx i bs[j] (Nat.le_of_lt hi)) out) :
    Merges shared op bs i j es out := by
  intro beforeA afterA beforeB afterB ha hb
  obtain ⟨⟨as', rfl⟩, bs', rfl⟩ := exists_heads ha hb hi hj
  rw [h (ha.insert _ _) hb.next, mergeBy, if_neg hne, if_neg hge, only, if_pos hr,
    List.append_assoc]

/-- Keys of the other index alone are skipped by a search. -/
theorem skip (hr : ¬op.keepsRight)
    (h : Merges shared op bs i (advance (·.key < es[i].key) bs j) es out) :
    Merges shared op bs i j es out := by
  intro beforeA afterA beforeB afterB ha hb
  obtain ⟨as', rfl⟩ := ha.exists_cons hi
  rw [h ha (hb.advance _), mergeBy_leap_right es[i] as' afterB, only, if_neg hr, List.nil_append]

end Apart

section End

variable (h : ¬(i < es.size ∧ j < bs.size))

include h

/-- What is left of the other index is appended. -/
theorem append (hr : op.keepsRight) : Merges shared op bs i j es (appendFrom es bs j) :=
  fun _ _ _ _ ha hb => by
    rw [toList_appendFrom es hb, mergeBy_of_nil (nil_or_nil ha hb h), only, only,
      if_pos (op.keepsLeft_of_keepsRight hr), if_pos hr, ha.eq, List.append_assoc]

/-- What is left of the index stays. -/
theorem stay (hl : op.keepsLeft) (hr : ¬op.keepsRight) : Merges shared op bs i j es es :=
  fun _ _ _ _ ha hb => by
    rw [mergeBy_of_nil (nil_or_nil ha hb h), only, only, if_pos hl, if_neg hr, ha.eq,
      List.append_nil]

/-- What is left of the index goes. -/
theorem truncate (hl : ¬op.keepsLeft) (hr : ¬op.keepsRight) :
    Merges shared op bs i j es (es.take i) := fun _ _ _ _ ha hb => by
  rw [mergeBy_of_nil (nil_or_nil ha hb h), only, only, if_neg hl, if_neg hr, ha.toList_take,
    List.append_nil, List.append_nil]

end End

/-- An edit from the start of both indexes comes to their merge. -/
theorem toList_eq (h : Merges shared op bs 0 0 es out) (ha : Sound es.toList)
    (hb : Sound bs.toList) : out.toList = mergeBy shared op es.toList bs.toList :=
  h (.start ha) (.start hb)

end Merges

/-! ## Loops -/

/-- A union leaves no container empty. -/
theorem Meets.nonEmpty_union (h : Meets .union shared) {a b : Container} (ha : a.Valid)
    (hne : a.isEmpty = false) (hb : b.Valid) : (shared a b).isEmpty = false := by
  obtain ⟨hvalid, hmem⟩ := h a b ha hb
  obtain ⟨v, hv⟩ := (Container.isEmpty_eq_false_iff ha).mp hne
  exact (Container.isEmpty_eq_false_iff hvalid).mpr ⟨v, (hmem v).mpr (.inl hv)⟩

theorem meets_absorb (t : Thresholds) (op : SetOp) : Meets op (Container.absorb t op) :=
  fun _ _ ha hb =>
    have h := Container.settled_absorb t op ha hb
    ⟨h.valid, h.mem⟩

theorem meets_absorbDeferred (t : Thresholds) :
    Meets .union (Container.absorbDeferred t .union) := fun _ _ =>
  Container.absorbDeferred_union_spec t

/-- The container that two containers under one key become in place. A full container has nothing to
gain from a union. -/
def absorbShared (t : Thresholds) (op : SetOp) (a b : Container) : Container :=
  if op = .union ∧ a.isFull then a else a.absorb t op b

/-- A full container already holds what a union with it asks for. -/
theorem meets_absorbShared (t : Thresholds) (op : SetOp) : Meets op (absorbShared t op) := by
  intro a b ha hb
  unfold absorbShared
  split
  · rename_i h
    obtain ⟨rfl, hfull⟩ := h
    exact ⟨ha, fun v => iff_of_true ((Container.isFull_iff ha).mp hfull v)
      (.inl ((Container.isFull_iff ha).mp hfull v))⟩
  · exact meets_absorb t op a b ha hb

theorem absorbShared_of_ne (t : Thresholds) {op : SetOp} (h : op ≠ .union) :
    absorbShared t op = Container.absorb t op := by
  funext a b
  rw [absorbShared, if_neg fun hop => h hop.1]

variable (t : Thresholds) (bs i j es)

theorem merges_interAt :
    Merges (Container.absorb t .inter) .inter bs i j es (interAt t bs i j es) := by
  fun_induction interAt t bs i j es with
  | case1 i j es h hkey c hempty =>
    rename_i ih
    exact .drop h.1 h.2 hkey hempty ih
  | case2 i j es h hkey c hne =>
    rename_i ih
    exact .replace h.1 h.2 hkey (fun _ _ _ => Bool.eq_false_iff.mpr hne) ih
  | case3 i j es h hkey hlt ih => exact .cut h.2 (by decide) ih
  | case4 i j es h hkey hlt ih => exact .skip h.1 (by decide) ih
  | case5 i j es h => exact .truncate h (by decide) (by decide)

theorem merges_diffAt :
    Merges (Container.absorb t .diff) .diff bs i j es (diffAt t bs i j es) := by
  fun_induction diffAt t bs i j es with
  | case1 i j es h hkey c hempty =>
    rename_i ih
    exact .drop h.1 h.2 hkey hempty ih
  | case2 i j es h hkey c hne =>
    rename_i ih
    exact .replace h.1 h.2 hkey (fun _ _ _ => Bool.eq_false_iff.mpr hne) ih
  | case3 i j es h hkey hlt ih => exact .leap h.2 rfl ih
  | case4 i j es h hkey hlt ih => exact .skip h.1 (by decide) ih
  | case5 i j es h => exact .stay h rfl (by decide)

theorem merges_unionAt :
    Merges (absorbShared t .union) .union bs i j es (unionAt t bs i j es) := by
  fun_induction unionAt t bs i j es with
  | case1 i j es h hkey hfull ih => exact .keep h.1 h.2 hkey (if_pos ⟨rfl, hfull⟩) ih
  | case2 i j es h hkey hfull c =>
    rename_i ih
    have hc : absorbShared t .union es[i].container bs[j].container = c :=
      if_neg fun hop => hfull hop.2
    exact .replace h.1 h.2 hkey (meets_absorbShared t .union).nonEmpty_union (hc ▸ ih)
  | case3 i j es h hkey hlt ih => exact .pass h.1 h.2 rfl hlt ih
  | case4 i j es h hkey hlt ih => exact .insert h.1 h.2 rfl hkey hlt ih
  | case5 i j es h => exact .append h rfl

theorem merges_symmDiffAt :
    Merges (Container.absorb t .symmDiff) .symmDiff bs i j es (symmDiffAt t bs i j es) := by
  fun_induction symmDiffAt t bs i j es with
  | case1 i j es h hkey c hempty =>
    rename_i ih
    exact .drop h.1 h.2 hkey hempty ih
  | case2 i j es h hkey c hne =>
    rename_i ih
    exact .replace h.1 h.2 hkey (fun _ _ _ => Bool.eq_false_iff.mpr hne) ih
  | case3 i j es h hkey hlt ih => exact .pass h.1 h.2 rfl hlt ih
  | case4 i j es h hkey hlt ih => exact .insert h.1 h.2 rfl hkey hlt ih
  | case5 i j es h => exact .append h rfl

theorem merges_deferUnionAt :
    Merges (Container.absorbDeferred t .union) .union bs i j es (deferUnionAt t bs i j es) := by
  fun_induction deferUnionAt t bs i j es with
  | case1 i j es h hkey c =>
    rename_i ih
    exact .replace h.1 h.2 hkey (meets_absorbDeferred t).nonEmpty_union ih
  | case2 i j es h hkey hlt ih => exact .leap h.2 rfl ih
  | case3 i j es h hkey hlt ih => exact .insert h.1 h.2 rfl hkey hlt ih
  | case4 i j es h => exact .append h rfl

end Index

namespace Bitmap

open Index (absorbShared)

variable {a b : Bitmap}

/-- Whichever loop the operation has, the index comes to the merge of both. -/
theorem toList_entries_absorb (op : SetOp) (ha : a.WellFormed) (hb : b.WellFormed) :
    (a.absorb op b).entries.toList =
      Index.mergeBy (absorbShared a.thresholds op) op a.entries.toList b.entries.toList := by
  have hsa := wellFormed_iff.mp ha
  have hsb := wellFormed_iff.mp hb
  cases op with
  | union => exact (Index.merges_unionAt _ _ _ _ _).toList_eq hsa hsb
  | inter =>
    rw [Index.absorbShared_of_ne _ (by decide)]
    exact (Index.merges_interAt _ _ _ _ _).toList_eq hsa hsb
  | diff =>
    rw [Index.absorbShared_of_ne _ (by decide)]
    exact (Index.merges_diffAt _ _ _ _ _).toList_eq hsa hsb
  | symmDiff =>
    rw [Index.absorbShared_of_ne _ (by decide)]
    exact (Index.merges_symmDiffAt _ _ _ _ _).toList_eq hsa hsb

theorem toList_entries_deferUnion (ha : a.WellFormed) (hb : b.WellFormed) :
    (a.deferUnion b).entries.toList =
      Index.mergeBy (Container.absorbDeferred a.thresholds .union) .union a.entries.toList
        b.entries.toList :=
  (Index.merges_deferUnionAt _ _ _ _ _).toList_eq (wellFormed_iff.mp ha) (wellFormed_iff.mp hb)

end Bitmap

end Roaring
