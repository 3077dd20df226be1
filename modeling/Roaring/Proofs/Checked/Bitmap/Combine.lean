import Roaring.Proofs.Checked.Bitmap.Update

/-!
# Combining bitmaps, checked

Two cursors walk the keys of the operands, and read a container only under a key that both have or
that is kept. Each key appended comes after the last one, which is asserted and holds because both
indexes are sorted.
-/
namespace Roaring

open Machine

namespace Index

/-! ## The end of an index -/

/-- The last key of an index comes before those of the entries ahead. -/
def Below (out : Array Entry) (rest : List Entry) : Prop :=
  ∀ e ∈ out.back?, ∀ x ∈ rest, e.key < x.key

namespace Below

variable {out : Array Entry} {e : Entry} {rest : List Entry}

theorem sublist (h : Below out rest) {less : List Entry} (hsub : less.Sublist rest) :
    Below out less := fun x hx y hy => h x hx y (hsub.mem hy)

theorem tail (h : Below out (e :: rest)) : Below out rest :=
  h.sublist (List.sublist_cons_self e rest)

theorem push (h : Below out rest) (he : ∀ x ∈ rest, e.key < x.key) :
    Below (pushNonEmpty out e) rest := by
  unfold pushNonEmpty
  split
  · exact h
  · intro x hx
    rw [Array.back?_push, Option.mem_some] at hx
    exact hx ▸ he

theorem last_lt (h : Below out (e :: rest)) : out.back?.all (·.key < e.key) := by
  cases hlast : out.back? with
  | none => rfl
  | some x => simpa using h x hlast e List.mem_cons_self

/-- Once one index is at its end, what is kept of the left one is either nothing or not followed by
anything. -/
theorem appendOnly {as bs : Array Entry} {i j : Nat} {beforeA afterA beforeB afterB : List Entry}
    (keep : Bool) (ha : Ahead as i beforeA afterA) (hb : Ahead bs j beforeB afterB)
    (h : ¬(i < as.size ∧ j < bs.size)) (hB : Below out afterB) :
    Below (if keep then appendFrom out as i else out) afterB := by
  rcases nil_or_nil ha hb h with rfl | rfl
  · have hout : (if keep then appendFrom out as i else out) = out := by
      rw [← Array.toList_inj, toList_appendOnly keep out ha, only_nil, List.append_nil]
    exact hout.symm ▸ hB
  · exact fun _ _ x hx => absurd hx List.not_mem_nil

end Below

end Index

namespace Columns

open Index (Ahead Below)

/-- Appends what other columns hold from an index on, if it is to be kept. -/
def appendOnly (keep : Bool) (s r : Columns) (j : Nat) : Option Columns :=
  if keep then s.append r j else some s

/-- Appends two columns combined, from their indices `i` and `j` on. A cursor that stands still
would never come to an end. -/
def combineInto (op : SetOp) (as bs : Columns) (i j : Nat) (out : Columns) : Option Columns :=
  if h : i < as.keys.size ∧ j < bs.keys.size then do
    check (i + 1 < 2 ^ 64 ∧ j + 1 < 2 ^ 64)
    let k ← as.keys[i]?
    let l ← bs.keys[j]?
    if k = l then do
      let a ← as.containers[i]?
      let b ← bs.containers[j]?
      let c ← Container.Checked.combine as.thresholds op a b
      combineInto op as bs (i + 1) (j + 1) (← out.push k c)
    else if k < l then
      if op.keepsLeft then do
        combineInto op as bs (i + 1) j (← out.push k (← as.containers[i]?))
      else do
        let n ← moveCursor (· < l) as.keys i
        if _hn : i < n then combineInto op as bs n j out else none
    else if op.keepsRight then do
      combineInto op as bs i (j + 1) (← out.push l (← bs.containers[j]?))
    else do
      let n ← moveCursor (· < k) bs.keys j
      if _hn : j < n then combineInto op as bs i n out else none
  else do
    let out ← appendOnly op.keepsLeft out as i
    appendOnly op.keepsRight out bs j
termination_by (as.keys.size - i) + (bs.keys.size - j)

/-- The operation on two bitmaps in columns, with the thresholds of the left one. -/
def combine (op : SetOp) (s r : Columns) : Option Columns :=
  combineInto op s r 0 0 (of s.thresholds #[])

/-! ## Reading and moving -/

section Cursors

variable {t u : Thresholds} {as bs : Array Entry} {i j : Nat}

/-- Two cursors within their indexes find keys there, and can move on. -/
theorem read_keys {α : Type} (hi : i < as.size) (hj : j < bs.size) (ha : as.size < 2 ^ 62)
    (hb : bs.size < 2 ^ 62) (rest : UInt16 → UInt16 → Option α) :
    (check (i + 1 < 2 ^ 64 ∧ j + 1 < 2 ^ 64) >>= fun _ => (of t as).keys[i]? >>= fun k =>
      (of u bs).keys[j]? >>= fun l => rest k l) = rest as[i].key bs[j].key := by
  rw [bind_of_eq (check_of ⟨by omega, by omega⟩), bind_of_eq (key_at hi), bind_of_eq (key_at hj)]

/-- A search for a key after the one at the cursor moves it. -/
theorem move_cursor {k : UInt16} (hi : i < as.size) (hlt : as[i].key < k)
    (hsize : as.size < 2 ^ 62) :
    moveCursor (· < k) (of t as).keys i = some (advance (·.key < k) as i) ∧
      i < advance (·.key < k) as i := by
  refine ⟨?_, Index.lt_advance_key hi hlt⟩
  rw [moveCursor_eq _ i (by simpa using hsize)]
  exact congrArg some (advance_map _ _ as i)

end Cursors

/-! ## A new index -/

section Append

variable {t u : Thresholds} {out es : Array Entry} {i : Nat} {before after : List Entry}

theorem append_of (ha : Ahead es i before after) (h : Below out after) :
    (of t out).append (of u es) i = some (of t (Index.appendFrom out es i)) := by
  have hsize := ha.le_size
  rw [append, bind_of_eq (slice_of_le (by simpa using hsize) (Nat.le_refl _)),
    bind_of_eq (slice_of_le (by simpa using hsize) (Nat.le_refl _)), size_keys_of,
    size_containers_of, zip_extract, Index.appendFrom, ← Array.foldl_toList,
    Array.drop_eq_extract, ha.extract_eq]
  refine foldlM_view (of t) (fun out rest => Below out rest ∧
    rest.Pairwise fun x y => x.key < y.key) ?_ _ _ ⟨h, ha.sound.sorted⟩
  rintro out e rest ⟨h, hsorted⟩
  obtain ⟨hlt, hsorted⟩ := List.pairwise_cons.mp hsorted
  exact ⟨push_of h.last_lt _, h.tail.push hlt, hsorted⟩

theorem appendOnly_of (keep : Bool) (ha : Ahead es i before after) (h : Below out after) :
    appendOnly keep (of t out) (of u es) i =
      some (of t (if keep then Index.appendFrom out es i else out)) := by
  unfold appendOnly
  split
  · exact append_of ha h
  · rfl

end Append

theorem combineInto_of (t u : Thresholds) (op : SetOp) {as bs : Array Entry} {i j : Nat}
    (out : Array Entry) {beforeA afterA beforeB afterB : List Entry} (hsa : as.size < 2 ^ 62)
    (hsb : bs.size < 2 ^ 62) (ha : Ahead as i beforeA afterA) (hb : Ahead bs j beforeB afterB)
    (hA : Below out afterA) (hB : Below out afterB) :
    combineInto op (of t as) (of u bs) i j (of t out) =
      some (of t (Index.combineInto t op as bs i j out)) := by
  fun_induction Index.combineInto t op as bs i j out
    generalizing beforeA afterA beforeB afterB with
  | case1 i j out h hkey ih =>
    -- a shared key
    obtain ⟨⟨as', rfl⟩, bs', rfl⟩ := Index.exists_heads ha hb h.1 h.2
    rw [combineInto, dif_pos (by simpa using h), read_keys h.1 h.2 hsa hsb, if_pos hkey,
      bind_of_eq (container_at h.1), bind_of_eq (container_at h.2), thresholds_of,
      bind_of_eq (Container.Checked.combine_eq t op ha.head_valid hb.head_valid),
      bind_of_eq (push_of hA.last_lt _)]
    exact ih ha.next hb.next (hA.tail.push ha.lt_head)
      (hB.tail.push fun x hx => hkey.symm ▸ hb.lt_head x hx)
  | case2 i j out h hkey hlt hl ih =>
    -- a key of the left index alone is kept
    obtain ⟨⟨as', rfl⟩, bs', rfl⟩ := Index.exists_heads ha hb h.1 h.2
    rw [combineInto, dif_pos (by simpa using h), read_keys h.1 h.2 hsa hsb, if_neg hkey, if_pos hlt,
      if_pos hl, bind_of_eq (container_at h.1), bind_of_eq (push_of hA.last_lt _)]
    exact ih ha.next hb (hA.tail.push ha.lt_head) (hB.push (Index.lt_cons hlt hb.lt_head))
  | case3 i j out h hkey hlt hl ih =>
    -- keys of the left index alone are left out
    obtain ⟨⟨as', rfl⟩, bs', rfl⟩ := Index.exists_heads ha hb h.1 h.2
    obtain ⟨hmove, hahead⟩ := move_cursor h.1 hlt hsa
    rw [combineInto, dif_pos (by simpa using h), read_keys h.1 h.2 hsa hsb, if_neg hkey, if_pos hlt,
      if_neg hl, bind_of_eq hmove, dif_pos hahead]
    exact ih (ha.advance _) hb (hA.sublist (List.dropWhile_sublist _)) hB
  | case4 i j out h hkey hlt hr ih =>
    -- a key of the right index alone is kept
    obtain ⟨⟨as', rfl⟩, bs', rfl⟩ := Index.exists_heads ha hb h.1 h.2
    have hgt := Index.gt_of_ne hkey hlt
    rw [combineInto, dif_pos (by simpa using h), read_keys h.1 h.2 hsa hsb, if_neg hkey, if_neg hlt,
      if_pos hr, bind_of_eq (container_at h.2), bind_of_eq (push_of hB.last_lt _)]
    exact ih ha hb.next (hA.push (Index.lt_cons hgt ha.lt_head)) (hB.tail.push hb.lt_head)
  | case5 i j out h hkey hlt hr ih =>
    -- keys of the right index alone are left out
    obtain ⟨⟨as', rfl⟩, bs', rfl⟩ := Index.exists_heads ha hb h.1 h.2
    have hgt := Index.gt_of_ne hkey hlt
    obtain ⟨hmove, hahead⟩ := move_cursor h.2 hgt hsb
    rw [combineInto, dif_pos (by simpa using h), read_keys h.1 h.2 hsa hsb, if_neg hkey, if_neg hlt,
      if_neg hr, bind_of_eq hmove, dif_pos hahead]
    exact ih ha (hb.advance _) hA (hB.sublist (List.dropWhile_sublist _))
  | case6 i j out h out' =>
    rename_i hr
    have hB' := hB.appendOnly op.keepsLeft ha hb h
    rw [combineInto, dif_neg (by simpa using h), bind_of_eq (appendOnly_of op.keepsLeft ha hA)]
    exact (appendOnly_of op.keepsRight hb hB').trans
      (congrArg (fun out => some (of t out)) (if_pos hr))
  | case7 i j out h out' =>
    rename_i hr
    have hB' := hB.appendOnly op.keepsLeft ha hb h
    rw [combineInto, dif_neg (by simpa using h), bind_of_eq (appendOnly_of op.keepsLeft ha hA)]
    exact (appendOnly_of op.keepsRight hb hB').trans
      (congrArg (fun out => some (of t out)) (if_neg hr))

variable {a b : Bitmap}

theorem combine_of (op : SetOp) (ha : a.WellFormed) (hb : b.WellFormed) :
    combine op a.columns b.columns = some (a.combine op b).columns := by
  have hsa := Bitmap.size_entries_le ha
  have hsb := Bitmap.size_entries_le hb
  have hempty : ∀ rest, Below #[] rest := fun _ _ he => by cases he
  exact combineInto_of a.thresholds b.thresholds op #[] (by omega) (by omega)
    (.start (Bitmap.wellFormed_iff.mp ha)) (.start (Bitmap.wellFormed_iff.mp hb)) (hempty _)
    (hempty _)

end Columns

namespace Bitmap.Checked

/-- The operation on two bitmaps, with the thresholds of the left one. -/
def combine (op : SetOp) (a b : Bitmap) : Option Bitmap :=
  Columns.combine op a.columns b.columns >>= Columns.bitmap

variable {a b : Bitmap}

theorem combine_eq (op : SetOp) (ha : a.WellFormed) (hb : b.WellFormed) :
    combine op a b = some (a.combine op b) := bind_bitmap (Columns.combine_of op ha hb)

end Bitmap.Checked

end Roaring
