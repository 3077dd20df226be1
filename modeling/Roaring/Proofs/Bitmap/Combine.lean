import Roaring.Proofs.Bitmap.Values
import Roaring.Proofs.Split

/-!
# Bitmaps combined

Building the result anew and editing the left index both come to the merge of the two indexes, so
both keep the index sound and hold what the operation asks for.
-/
namespace Roaring

namespace Index

/-! ## A cursor in an index -/

theorem passFirst_key {es : Array Entry} {i : Nat}
    (h : (es.toList.drop i).Pairwise fun x y => x.key < y.key) (k : UInt16) :
    PassFirst (fun e : Entry => decide (e.key < k)) es i :=
  passFirst_of_pairwise h fun x y hxy hy => by
    simp only [decide_eq_true_eq] at *
    exact UInt16.lt_trans hxy hy

/-- An index split at a cursor, with sound entries ahead of it. -/
structure Ahead (es : Array Entry) (i : Nat) (before after : List Entry) : Prop extends
    Split es i before after where
  sound : Sound after

namespace Ahead

variable {es : Array Entry} {i : Nat} {e : Entry} {before after rest : List Entry}

theorem start (h : Sound es.toList) : Ahead es 0 [] es.toList := ⟨⟨rfl, rfl⟩, h⟩

theorem next (h : Ahead es i before (e :: rest)) : Ahead es (i + 1) (before ++ [e]) rest :=
  ⟨h.toSplit.next, (sound_cons.mp h.sound).2.2.2⟩

theorem head_valid (h : Ahead es i before (e :: rest)) : e.container.Valid :=
  (sound_cons.mp h.sound).1

theorem lt_head (h : Ahead es i before (e :: rest)) : ∀ x ∈ rest, e.key < x.key :=
  (sound_cons.mp h.sound).2.2.1

theorem head_nonEmpty (h : Ahead es i before (e :: rest)) : e.container.isEmpty = false :=
  (sound_cons.mp h.sound).2.1

/-- Searching ahead for a key passes the smaller ones. -/
theorem advance (h : Ahead es i before after) (k : UInt16) :
    Ahead es (advance (·.key < k) es i) (before ++ after.takeWhile (·.key < k))
      (after.dropWhile (·.key < k)) := by
  obtain ⟨⟨heq, rfl⟩, hsound⟩ := h
  refine ⟨?_, hsound.sublist (List.dropWhile_sublist _)⟩
  have hdrop : es.toList.drop before.length = after := by rw [heq, List.drop_left]
  have htake : es.toList.take before.length = before := by rw [heq, List.take_left]
  have hb : Boundary (·.key < k) es before.length (Roaring.advance (·.key < k) es before.length) :=
    advance_boundary (passFirst_key (hdrop.symm ▸ hsound.sorted) k) (Split.le_size ⟨heq, rfl⟩)
  have htake' := hb.take_eq
  have hdrop' := hb.dropWhile_eq
  rw [htake, hdrop] at htake'
  rw [hdrop] at hdrop'
  rw [← htake', hdrop']
  exact .at_le hb.le_size

/-! ### Edits at the cursor -/

theorem erase (h : Ahead es i before (e :: rest)) (hi : i < es.size) :
    Ahead (es.eraseIdx i hi) i before rest :=
  ⟨⟨by rw [Array.toList_eraseIdx, h.eraseIdx_eq], h.length⟩, h.next.sound⟩

theorem set (h : Ahead es i before (e :: rest)) (hi : i < es.size) (x : Entry) :
    Ahead (es.set i x hi) (i + 1) (before ++ [x]) rest :=
  have hset : Split (es.set i x hi) i before (x :: rest) :=
    ⟨by rw [Array.toList_set, h.set_eq], h.length⟩
  ⟨hset.next, h.next.sound⟩

theorem insert (h : Ahead es i before after) (hi : i ≤ es.size) (x : Entry) :
    Ahead (es.insertIdx i x hi) (i + 1) (before ++ [x]) after :=
  have hins : Split (es.insertIdx i x hi) i before (x :: after) :=
    ⟨by rw [Array.toList_insertIdx, h.insertIdx_eq], h.length⟩
  ⟨hins.next, h.sound⟩

/-- What lies between two cursors is cut out. -/
theorem cut {n : Nat} {before' after' : List Entry} (h : Ahead es i before after)
    (h' : Ahead es n before' after') : Ahead (es.take i ++ es.drop n) i before after' :=
  ⟨⟨by rw [Array.toList_append, h.toList_take, h'.toList_drop], h.length⟩, h'.sound⟩

end Ahead

/-! ## Keys of one index alone -/

section Merge

variable {shared : Container → Container → Container} {op : SetOp}

@[simp] theorem only_nil (keep : Bool) : only keep [] = [] := by cases keep <;> rfl

theorem mergeBy_of_nil {as bs : List Entry} (h : as = [] ∨ bs = []) :
    mergeBy shared op as bs = only op.keepsLeft as ++ only op.keepsRight bs := by
  rcases h with rfl | rfl
  · rw [mergeBy, only_nil, List.nil_append]
  · cases as with
    | nil => rw [mergeBy, only_nil, only_nil, List.append_nil]
    | cons a as =>
      rw [mergeBy, only_nil, List.append_nil]
      simp

theorem only_cons (keep : Bool) (e : Entry) (es : List Entry) :
    only keep (e :: es) = only keep [e] ++ only keep es := by
  cases keep <;> rfl

/-- Entries of the left index before the first key of the right one are kept or left out as a
whole. -/
theorem mergeBy_leap_left (as : List Entry) (b : Entry) (bs : List Entry) :
    mergeBy shared op as (b :: bs) = only op.keepsLeft (as.takeWhile (·.key < b.key)) ++
      mergeBy shared op (as.dropWhile (·.key < b.key)) (b :: bs) := by
  induction as with
  | nil => rw [List.takeWhile_nil, List.dropWhile_nil, only_nil, List.nil_append]
  | cons a as ih =>
    by_cases hlt : a.key < b.key
    · have hne : a.key ≠ b.key := fun e => UInt16.lt_irrefl _ (e ▸ hlt)
      rw [List.takeWhile_cons_of_pos (by simpa using hlt),
        List.dropWhile_cons_of_pos (by simpa using hlt), only_cons, List.append_assoc, ← ih,
        mergeBy, if_neg hne, if_pos hlt]
    · rw [List.takeWhile_cons_of_neg (by simpa using hlt),
        List.dropWhile_cons_of_neg (by simpa using hlt), only_nil, List.nil_append]

/-- Entries of the right index before the first key of the left one are kept or left out as a
whole. -/
theorem mergeBy_leap_right (a : Entry) (as bs : List Entry) :
    mergeBy shared op (a :: as) bs = only op.keepsRight (bs.takeWhile (·.key < a.key)) ++
      mergeBy shared op (a :: as) (bs.dropWhile (·.key < a.key)) := by
  induction bs with
  | nil => rw [List.takeWhile_nil, List.dropWhile_nil, only_nil, List.nil_append]
  | cons b bs ih =>
    by_cases hlt : b.key < a.key
    · have hne : a.key ≠ b.key := fun e => UInt16.lt_irrefl _ (e ▸ hlt)
      have hnlt : ¬a.key < b.key := UInt16.not_lt.mpr (UInt16.le_of_lt hlt)
      rw [List.takeWhile_cons_of_pos (by simpa using hlt),
        List.dropWhile_cons_of_pos (by simpa using hlt), only_cons, List.append_assoc, ← ih,
        mergeBy, if_neg hne, if_neg hnlt]
    · rw [List.takeWhile_cons_of_neg (by simpa using hlt),
        List.dropWhile_cons_of_neg (by simpa using hlt), only_nil, List.nil_append]

end Merge

/-! ## A new index -/

theorem toList_pushNonEmpty (out : Array Entry) (e : Entry) :
    (pushNonEmpty out e).toList = out.toList ++ entryOf e.key e.container := by
  unfold pushNonEmpty entryOf
  split <;> simp

theorem toList_pushNonEmpty_of_nonEmpty (out : Array Entry) {e : Entry}
    (h : e.container.isEmpty = false) : (pushNonEmpty out e).toList = out.toList ++ [e] := by
  rw [toList_pushNonEmpty, entryOf, h]
  rfl

theorem toList_appendFrom (out : Array Entry) {es : Array Entry} {i : Nat}
    {before after : List Entry} (h : Ahead es i before after) :
    (appendFrom out es i).toList = out.toList ++ after := by
  have hne := h.sound.nonEmpty
  rw [appendFrom, ← Array.foldl_toList, h.toList_drop]
  clear h
  induction after generalizing out with
  | nil => simp
  | cons e after ih =>
    obtain ⟨he, hne⟩ := List.forall_mem_cons.mp hne
    rw [List.foldl_cons, ih _ hne, toList_pushNonEmpty_of_nonEmpty out he, List.append_assoc]
    rfl

theorem toList_appendOnly (keep : Bool) (out : Array Entry) {es : Array Entry} {i : Nat}
    {before after : List Entry} (h : Ahead es i before after) :
    (if keep then appendFrom out es i else out).toList = out.toList ++ only keep after := by
  cases keep with
  | false => exact (List.append_nil _).symm
  | true => exact toList_appendFrom out h

section TwoCursors

variable {es bs : Array Entry} {i j : Nat} {beforeA afterA beforeB afterB : List Entry}

/-- Two cursors within their indexes stand at entries. -/
theorem exists_heads (ha : Ahead es i beforeA afterA) (hb : Ahead bs j beforeB afterB)
    (hi : i < es.size) (hj : j < bs.size) :
    (∃ as', afterA = es[i] :: as') ∧ ∃ bs', afterB = bs[j] :: bs' :=
  ⟨ha.exists_cons hi, hb.exists_cons hj⟩

theorem nil_or_nil (ha : Ahead es i beforeA afterA) (hb : Ahead bs j beforeB afterB)
    (h : ¬(i < es.size ∧ j < bs.size)) : afterA = [] ∨ afterB = [] := by
  by_cases hi : i < es.size
  · exact .inr (hb.eq_nil fun hj => h ⟨hi, hj⟩)
  · exact .inl (ha.eq_nil hi)

end TwoCursors

theorem toList_combineInto (t : Thresholds) (op : SetOp) (as bs : Array Entry) (i j : Nat)
    (out : Array Entry) {beforeA afterA beforeB afterB : List Entry}
    (ha : Ahead as i beforeA afterA) (hb : Ahead bs j beforeB afterB) :
    (combineInto t op as bs i j out).toList =
      out.toList ++ mergeBy (Container.combine t op) op afterA afterB := by
  fun_induction combineInto t op as bs i j out generalizing beforeA afterA beforeB afterB with
  | case1 i j out h hkey ih =>
    -- a shared key
    obtain ⟨⟨as', rfl⟩, bs', rfl⟩ := exists_heads ha hb h.1 h.2
    rw [ih ha.next hb.next, toList_pushNonEmpty, mergeBy, if_pos hkey, List.append_assoc]
  | case2 i j out h hkey hlt hl ih =>
    -- a key of the left index alone is kept
    obtain ⟨⟨as', rfl⟩, bs', rfl⟩ := exists_heads ha hb h.1 h.2
    rw [ih ha.next hb, toList_pushNonEmpty_of_nonEmpty out ha.head_nonEmpty, mergeBy, if_neg hkey,
      if_pos hlt, only, if_pos hl, List.append_assoc]
  | case3 i j out h hkey hlt hl ih =>
    -- keys of the left index alone are left out
    obtain ⟨⟨as', rfl⟩, bs', rfl⟩ := exists_heads ha hb h.1 h.2
    rw [ih (ha.advance _) hb, mergeBy_leap_left (as[i] :: as'), only, if_neg hl, List.nil_append]
  | case4 i j out h hkey hlt hr ih =>
    -- a key of the right index alone is kept
    obtain ⟨⟨as', rfl⟩, bs', rfl⟩ := exists_heads ha hb h.1 h.2
    rw [ih ha hb.next, toList_pushNonEmpty_of_nonEmpty out hb.head_nonEmpty, mergeBy, if_neg hkey,
      if_neg hlt, only, if_pos hr, List.append_assoc]
  | case5 i j out h hkey hlt hr ih =>
    -- keys of the right index alone are left out
    obtain ⟨⟨as', rfl⟩, bs', rfl⟩ := exists_heads ha hb h.1 h.2
    rw [ih ha (hb.advance _), mergeBy_leap_right as[i] as' (bs[j] :: bs'), only, if_neg hr,
      List.nil_append]
  | case6 i j out h out' =>
    rename_i hr
    have hout : out'.toList = out.toList ++ only op.keepsLeft afterA :=
      toList_appendOnly op.keepsLeft out ha
    rw [toList_appendFrom _ hb, hout, mergeBy_of_nil (nil_or_nil ha hb h),
      only.eq_def op.keepsRight, if_pos hr, List.append_assoc]
  | case7 i j out h out' =>
    rename_i hr
    have hout : out'.toList = out.toList ++ only op.keepsLeft afterA :=
      toList_appendOnly op.keepsLeft out ha
    rw [hout, mergeBy_of_nil (nil_or_nil ha hb h), only.eq_def op.keepsRight, if_neg hr,
      List.append_nil]

end Index

namespace Bitmap

variable {a b : Bitmap}

theorem toList_entries_combine (op : SetOp) (ha : a.WellFormed) (hb : b.WellFormed) :
    (a.combine op b).entries.toList = Index.mergeBy (Container.combine a.thresholds op) op
      a.entries.toList b.entries.toList :=
  (Index.toList_combineInto a.thresholds op a.entries b.entries 0 0 #[]
    (.start (wellFormed_iff.mp ha)) (.start (wellFormed_iff.mp hb))).trans (List.nil_append _)

end Bitmap

end Roaring
