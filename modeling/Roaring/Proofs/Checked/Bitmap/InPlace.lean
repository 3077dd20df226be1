import Roaring.Proofs.Bitmap.Union
import Roaring.Proofs.Checked.Bitmap.Combine

/-!
# Bitmaps edited in place, checked

Each operation edits the columns of the left bitmap by a loop of its own, at a cursor that walks
along while a second one walks the columns of the right bitmap. Where the loops stand is told by
`InStep`, and each step that they take leads from one such place to the next: so no read and no
edit leaves its array, and the arrays stay in step. An index edited in place grows by no more
entries than the other one still has ahead.
-/
namespace Roaring

open Machine

namespace Index

/-- The keys behind the left cursor come before those ahead of the right one. -/
def Behind (beforeA afterB : List Entry) : Prop := ∀ x ∈ beforeA, ∀ y ∈ afterB, x.key < y.key

namespace Behind

variable {fresh less beforeA afterB : List Entry} {x : Entry}

theorem append (h : Behind beforeA afterB) (hless : less.Sublist afterB)
    (hfresh : ∀ x ∈ fresh, ∀ y ∈ less, x.key < y.key) : Behind (beforeA ++ fresh) less := by
  intro x hx y hy
  rcases List.mem_append.mp hx with hx | hx
  · exact h x hx y (hless.mem hy)
  · exact hfresh x hx y hy

theorem push (h : Behind beforeA afterB) (hless : less.Sublist afterB)
    (hx : ∀ y ∈ less, x.key < y.key) : Behind (beforeA ++ [x]) less :=
  h.append hless fun _ hmem => List.mem_singleton.mp hmem ▸ hx

theorem sublist (h : Behind beforeA afterB) (hless : less.Sublist afterB) : Behind beforeA less :=
  fun x hx y hy => h x hx y (hless.mem hy)

end Behind

/-- Where two cursors stand: sound entries ahead of both, those behind the left one before all ahead
of the right one, and room for every entry that may still go in. -/
structure InStep (es bs : Array Entry) (i j : Nat) : Prop where
  ahead : ∃ beforeA afterA beforeB afterB, Ahead es i beforeA afterA ∧
    Ahead bs j beforeB afterB ∧ Behind beforeA afterB
  room : es.size + (bs.size - j) < 2 ^ 62
  size_lt : bs.size < 2 ^ 62

namespace InStep

variable {es bs : Array Entry} {i j : Nat}

theorem start {a b : Bitmap} (ha : a.WellFormed) (hb : b.WellFormed) :
    InStep a.entries b.entries 0 0 := by
  have hsa := Bitmap.size_entries_le ha
  have hsb := Bitmap.size_entries_le hb
  exact ⟨⟨_, _, _, _, .start (Bitmap.wellFormed_iff.mp ha), .start (Bitmap.wellFormed_iff.mp hb),
    fun x hx => absurd hx List.not_mem_nil⟩, by omega, by omega⟩

theorem size_lt_left (w : InStep es bs i j) : es.size < 2 ^ 62 := by
  have := w.room
  omega

section Heads

variable (w : InStep es bs i j) (hi : i < es.size) (hj : j < bs.size)

include w hi hj

theorem exists_heads : ∃ beforeA as' beforeB bs', Ahead es i beforeA (es[i] :: as') ∧
    Ahead bs j beforeB (bs[j] :: bs') ∧ Behind beforeA (bs[j] :: bs') := by
  obtain ⟨beforeA, afterA, beforeB, afterB, ha, hb, hA⟩ := w.ahead
  obtain ⟨⟨as', rfl⟩, bs', rfl⟩ := Index.exists_heads ha hb hi hj
  exact ⟨beforeA, as', beforeB, bs', ha, hb, hA⟩

theorem valid_left : es[i].container.Valid := by
  obtain ⟨_, _, _, _, ha, -, -⟩ := w.exists_heads hi hj
  exact ha.head_valid

theorem valid_right : bs[j].container.Valid := by
  obtain ⟨_, _, _, _, -, hb, -⟩ := w.exists_heads hi hj
  exact hb.head_valid

/-! ### Steps -/

/-- The entry under a shared key goes. -/
theorem drop : InStep (es.eraseIdx i hi) bs i (j + 1) := by
  obtain ⟨_, _, _, _, ha, hb, hA⟩ := w.exists_heads hi hj
  have hroom := w.room
  exact ⟨⟨_, _, _, _, ha.erase hi, hb.next, hA.sublist (List.sublist_cons_self _ _)⟩,
    by rw [Array.size_eraseIdx]; omega, w.size_lt⟩

/-- The container under a shared key is replaced. -/
theorem replace (hkey : es[i].key = bs[j].key) (c : Container) :
    InStep (es.set i ⟨es[i].key, c⟩ hi) bs (i + 1) (j + 1) := by
  obtain ⟨_, _, _, bs', ha, hb, hA⟩ := w.exists_heads hi hj
  have hroom := w.room
  have hlt : ∀ y ∈ bs', es[i].key < y.key := fun y hy => hkey ▸ hb.lt_head y hy
  exact ⟨⟨_, _, _, _, ha.set hi _, hb.next, hA.push (List.sublist_cons_self _ _) hlt⟩,
    by rw [Array.size_set]; omega, w.size_lt⟩

/-- The entry under a shared key stays. -/
theorem keep (hkey : es[i].key = bs[j].key) : InStep es bs (i + 1) (j + 1) := by
  obtain ⟨_, _, _, bs', ha, hb, hA⟩ := w.exists_heads hi hj
  have hroom := w.room
  have hlt : ∀ y ∈ bs', es[i].key < y.key := fun y hy => hkey ▸ hb.lt_head y hy
  exact ⟨⟨_, _, _, _, ha.next, hb.next, hA.push (List.sublist_cons_self _ _) hlt⟩, by omega,
    w.size_lt⟩

/-- A key of the index alone is passed. -/
theorem pass (hlt : es[i].key < bs[j].key) : InStep es bs (i + 1) j := by
  obtain ⟨_, _, _, _, ha, hb, hA⟩ := w.exists_heads hi hj
  exact ⟨⟨_, _, _, _, ha.next, hb, hA.push (List.Sublist.refl _) (lt_cons hlt hb.lt_head)⟩, w.room,
    w.size_lt⟩

/-- Keys of the index alone are passed by a search. -/
theorem leap : InStep es bs (advance (·.key < bs[j].key) es i) j := by
  obtain ⟨_, _, _, _, ha, hb, hA⟩ := w.exists_heads hi hj
  refine ⟨⟨_, _, _, _, ha.advance _, hb, hA.append (List.Sublist.refl _) fun x hx => ?_⟩, w.room,
    w.size_lt⟩
  exact lt_cons (by simpa using List.mem_takeWhile_imp hx) hb.lt_head

/-- Keys of the index alone are cut out. -/
theorem cut (hlt : es[i].key < bs[j].key) :
    InStep (es.take i ++ es.drop (advance (·.key < bs[j].key) es i)) bs i j := by
  obtain ⟨_, _, _, _, ha, hb, hA⟩ := w.exists_heads hi hj
  have hroom := w.room
  have hless := size_cut_lt hi hlt
  exact ⟨⟨_, _, _, _, ha.cut (ha.advance _), hb, hA⟩, by omega, w.size_lt⟩

/-- A key of the other index alone goes in before the cursor. -/
theorem insert : InStep (es.insertIdx i bs[j] (Nat.le_of_lt hi)) bs (i + 1) (j + 1) := by
  obtain ⟨_, _, _, _, ha, hb, hA⟩ := w.exists_heads hi hj
  have hroom := w.room
  exact ⟨⟨_, _, _, _, ha.insert _ _, hb.next, hA.push (List.sublist_cons_self _ _) hb.lt_head⟩,
    by rw [Array.size_insertIdx]; omega, w.size_lt⟩

/-- Keys of the other index alone are skipped by a search. -/
theorem skip (hgt : bs[j].key < es[i].key) :
    InStep es bs i (advance (·.key < es[i].key) bs j) := by
  obtain ⟨_, _, _, _, ha, hb, hA⟩ := w.exists_heads hi hj
  have hroom := w.room
  have hahead := lt_advance_key hj hgt
  exact ⟨⟨_, _, _, _, ha, hb.advance _, hA.sublist (List.dropWhile_sublist _)⟩, by omega, w.size_lt⟩

end Heads

/-- Once one index is at its end, the last key of the left one comes before what is left of the
right one. -/
theorem below (w : InStep es bs i j) (hend : ¬(i < es.size ∧ j < bs.size)) :
    ∃ beforeB afterB, Ahead bs j beforeB afterB ∧ Below es afterB := by
  obtain ⟨beforeA, afterA, beforeB, afterB, ha, hb, hA⟩ := w.ahead
  refine ⟨beforeB, afterB, hb, ?_⟩
  rcases nil_or_nil ha hb hend with rfl | rfl
  · intro e he
    rw [Option.mem_def, ← Array.getLast?_toList, ha.eq, List.append_nil] at he
    exact hA e (List.mem_of_getLast? he)
  · exact fun _ _ x hx => absurd hx List.not_mem_nil

end InStep

end Index

namespace Columns

open Index (InStep)

/-! ## Loops -/

/-- Works out what the containers under a shared key become, and settles it; also whether nothing
remained. -/
def absorbEntry (op : SetOp) (s r : Columns) (i j : Nat) : Option (Bool × Columns) := do
  let a ← s.containers[i]?
  let b ← r.containers[j]?
  s.settle i (← Container.Checked.absorb s.thresholds op a b)

section Loops

variable (r : Columns)

/-- The intersection. A cut that takes nothing out would never come to an end. -/
def interAt (i j : Nat) (s : Columns) : Option Columns :=
  if _h : i < s.keys.size ∧ j < r.keys.size then do
    check (i + 1 < 2 ^ 64 ∧ j + 1 < 2 ^ 64)
    let k ← s.keys[i]?
    let l ← r.keys[j]?
    if k = l then do
      let (gone, s) ← absorbEntry .inter s r i j
      interAt (if gone then i else i + 1) (j + 1) s
    else if k < l then do
      let n ← moveCursor (· < l) s.keys i
      let s' ← s.cut i n
      if _hn : s'.keys.size < s.keys.size then interAt i j s' else none
    else do
      let n ← moveCursor (· < k) r.keys j
      if _hn : j < n then interAt i n s else none
  else some (s.truncate i)
termination_by (r.keys.size - j, s.keys.size - i)
decreasing_by
  · exact .left _ _ (by omega)
  · exact .right _ (by omega)
  · exact .left _ _ (by omega)

/-- The difference. -/
def diffAt (i j : Nat) (s : Columns) : Option Columns :=
  if _h : i < s.keys.size ∧ j < r.keys.size then do
    check (i + 1 < 2 ^ 64 ∧ j + 1 < 2 ^ 64)
    let k ← s.keys[i]?
    let l ← r.keys[j]?
    if k = l then do
      let (gone, s) ← absorbEntry .diff s r i j
      diffAt (if gone then i else i + 1) (j + 1) s
    else if k < l then do
      let n ← moveCursor (· < l) s.keys i
      if _hn : i < n then diffAt n j s else none
    else do
      let n ← moveCursor (· < k) r.keys j
      if _hn : j < n then diffAt i n s else none
  else some s
termination_by (r.keys.size - j, s.keys.size - i)

/-- The union. A full container is left as it is. -/
def unionAt (i j : Nat) (s : Columns) : Option Columns :=
  if _h : i < s.keys.size ∧ j < r.keys.size then do
    check (i + 1 < 2 ^ 64 ∧ j + 1 < 2 ^ 64)
    let k ← s.keys[i]?
    let l ← r.keys[j]?
    if k = l then do
      let a ← s.containers[i]?
      if ← Container.Checked.isFull a then unionAt (i + 1) (j + 1) s
      else do
        let c ← Container.Checked.absorb s.thresholds .union a (← r.containers[j]?)
        unionAt (i + 1) (j + 1) (← s.store i c)
    else if k < l then unionAt (i + 1) j s
    else do
      let b ← r.containers[j]?
      unionAt (i + 1) (j + 1) (← s.insertAt i l b)
  else s.append r j
termination_by (r.keys.size - j, s.keys.size - i)

/-- The symmetric difference. -/
def symmDiffAt (i j : Nat) (s : Columns) : Option Columns :=
  if _h : i < s.keys.size ∧ j < r.keys.size then do
    check (i + 1 < 2 ^ 64 ∧ j + 1 < 2 ^ 64)
    let k ← s.keys[i]?
    let l ← r.keys[j]?
    if k = l then do
      let (gone, s) ← absorbEntry .symmDiff s r i j
      symmDiffAt (if gone then i else i + 1) (j + 1) s
    else if k < l then symmDiffAt (i + 1) j s
    else do
      let b ← r.containers[j]?
      symmDiffAt (i + 1) (j + 1) (← s.insertAt i l b)
  else s.append r j
termination_by (r.keys.size - j, s.keys.size - i)

/-- The union of which the containers stay unfinished. -/
def deferUnionAt (i j : Nat) (s : Columns) : Option Columns :=
  if _h : i < s.keys.size ∧ j < r.keys.size then do
    check (i + 1 < 2 ^ 64 ∧ j + 1 < 2 ^ 64)
    let k ← s.keys[i]?
    let l ← r.keys[j]?
    if k = l then do
      let a ← s.containers[i]?
      let c ← Container.Checked.absorbDeferred s.thresholds .union a (← r.containers[j]?)
      deferUnionAt (i + 1) (j + 1) (← s.store i c)
    else if k < l then do
      let n ← moveCursor (· < l) s.keys i
      if _hn : i < n then deferUnionAt n j s else none
    else do
      let b ← r.containers[j]?
      deferUnionAt (i + 1) (j + 1) (← s.insertAt i l b)
  else s.append r j
termination_by (r.keys.size - j, s.keys.size - i)

end Loops

variable {t u : Thresholds} {es bs : Array Entry} {i j : Nat}

theorem read_in_step {α : Type} (w : InStep es bs i j) (hi : i < es.size) (hj : j < bs.size)
    (rest : UInt16 → UInt16 → Option α) :
    (check (i + 1 < 2 ^ 64 ∧ j + 1 < 2 ^ 64) >>= fun _ => (of t es).keys[i]? >>= fun k =>
      (of u bs).keys[j]? >>= fun l => rest k l) = rest es[i].key bs[j].key :=
  read_keys hi hj w.size_lt_left w.size_lt rest

theorem absorbEntry_of (op : SetOp) (w : InStep es bs i j) (hi : i < es.size) (hj : j < bs.size) :
    absorbEntry op (of t es) (of u bs) i j =
      some (if (Container.absorb t op es[i].container bs[j].container).isEmpty then
          (true, of t (es.eraseIdx i hi))
        else (false, of t (es.set i
          ⟨es[i].key, Container.absorb t op es[i].container bs[j].container⟩ hi))) := by
  rw [absorbEntry, bind_of_eq (container_at hi), bind_of_eq (container_at hj), thresholds_of,
    bind_of_eq (Container.Checked.absorb_eq t op (w.valid_left hi hj) (w.valid_right hi hj)),
    settle_of hi]

/-- Where no step is left, what the other index still has is appended. -/
theorem append_of_end (w : InStep es bs i j) (h : ¬(i < es.size ∧ j < bs.size)) :
    (of t es).append (of u bs) j = some (of t (Index.appendFrom es bs j)) := by
  obtain ⟨_, _, hb, hbelow⟩ := w.below h
  exact append_of hb hbelow

/-! Each case of a loop reads what the cursors stand at, does its edit, and goes on from a place
that is in step again. -/

theorem interAt_of (w : InStep es bs i j) :
    interAt (of u bs) i j (of t es) = some (of t (Index.interAt t bs i j es)) := by
  fun_induction Index.interAt t bs i j es with
  | case1 i j es h hkey c hempty =>
    rename_i ih
    rw [interAt, dif_pos (by simpa using h), read_in_step w h.1 h.2, if_pos hkey,
      bind_of_eq (absorbEntry_of .inter w h.1 h.2), if_pos hempty]
    exact ih (w.drop h.1 h.2)
  | case2 i j es h hkey c hne =>
    rename_i ih
    rw [interAt, dif_pos (by simpa using h), read_in_step w h.1 h.2, if_pos hkey,
      bind_of_eq (absorbEntry_of .inter w h.1 h.2), if_neg hne]
    exact ih (w.replace h.1 h.2 hkey _)
  | case3 i j es h hkey hlt ih =>
    obtain ⟨hmove, hahead⟩ := move_cursor h.1 hlt w.size_lt_left
    have hle := advance_le (p := (·.key < bs[j].key)) (Nat.le_of_lt h.1)
    have hless := Index.size_cut_lt h.1 hlt
    rw [interAt, dif_pos (by simpa using h), read_in_step w h.1 h.2, if_neg hkey, if_pos hlt,
      bind_of_eq hmove, bind_of_eq (cut_of (Nat.le_of_lt hahead) hle),
      dif_pos (by simpa using hless)]
    exact ih (w.cut h.1 h.2 hlt)
  | case4 i j es h hkey hlt ih =>
    have hgt := Index.gt_of_ne hkey hlt
    obtain ⟨hmove, hahead⟩ := move_cursor h.2 hgt w.size_lt
    rw [interAt, dif_pos (by simpa using h), read_in_step w h.1 h.2, if_neg hkey, if_neg hlt,
      bind_of_eq hmove, dif_pos hahead]
    exact ih (w.skip h.1 h.2 hgt)
  | case5 i j es h => rw [interAt, dif_neg (by simpa using h), truncate_of]

theorem diffAt_of (w : InStep es bs i j) :
    diffAt (of u bs) i j (of t es) = some (of t (Index.diffAt t bs i j es)) := by
  fun_induction Index.diffAt t bs i j es with
  | case1 i j es h hkey c hempty =>
    rename_i ih
    rw [diffAt, dif_pos (by simpa using h), read_in_step w h.1 h.2, if_pos hkey,
      bind_of_eq (absorbEntry_of .diff w h.1 h.2), if_pos hempty]
    exact ih (w.drop h.1 h.2)
  | case2 i j es h hkey c hne =>
    rename_i ih
    rw [diffAt, dif_pos (by simpa using h), read_in_step w h.1 h.2, if_pos hkey,
      bind_of_eq (absorbEntry_of .diff w h.1 h.2), if_neg hne]
    exact ih (w.replace h.1 h.2 hkey _)
  | case3 i j es h hkey hlt ih =>
    obtain ⟨hmove, hahead⟩ := move_cursor h.1 hlt w.size_lt_left
    rw [diffAt, dif_pos (by simpa using h), read_in_step w h.1 h.2, if_neg hkey, if_pos hlt,
      bind_of_eq hmove, dif_pos hahead]
    exact ih (w.leap h.1 h.2)
  | case4 i j es h hkey hlt ih =>
    have hgt := Index.gt_of_ne hkey hlt
    obtain ⟨hmove, hahead⟩ := move_cursor h.2 hgt w.size_lt
    rw [diffAt, dif_pos (by simpa using h), read_in_step w h.1 h.2, if_neg hkey, if_neg hlt,
      bind_of_eq hmove, dif_pos hahead]
    exact ih (w.skip h.1 h.2 hgt)
  | case5 i j es h => rw [diffAt, dif_neg (by simpa using h)]

theorem unionAt_of (w : InStep es bs i j) :
    unionAt (of u bs) i j (of t es) = some (of t (Index.unionAt t bs i j es)) := by
  fun_induction Index.unionAt t bs i j es with
  | case1 i j es h hkey hfull ih =>
    rw [unionAt, dif_pos (by simpa using h), read_in_step w h.1 h.2, if_pos hkey,
      bind_of_eq (container_at h.1),
      bind_of_eq (Container.Checked.isFull_eq (w.valid_left h.1 h.2)),
      if_pos hfull]
    exact ih (w.keep h.1 h.2 hkey)
  | case2 i j es h hkey hfull c =>
    rename_i ih
    have habsorb := Container.Checked.absorb_eq t .union (w.valid_left h.1 h.2)
      (w.valid_right h.1 h.2)
    rw [unionAt, dif_pos (by simpa using h), read_in_step w h.1 h.2, if_pos hkey,
      bind_of_eq (container_at h.1),
      bind_of_eq (Container.Checked.isFull_eq (w.valid_left h.1 h.2)),
      if_neg hfull, bind_of_eq (container_at h.2), thresholds_of,
      bind_of_eq habsorb, bind_of_eq (store_of h.1 _)]
    exact ih (w.replace h.1 h.2 hkey _)
  | case3 i j es h hkey hlt ih =>
    rw [unionAt, dif_pos (by simpa using h), read_in_step w h.1 h.2, if_neg hkey, if_pos hlt]
    exact ih (w.pass h.1 h.2 hlt)
  | case4 i j es h hkey hlt ih =>
    rw [unionAt, dif_pos (by simpa using h), read_in_step w h.1 h.2, if_neg hkey, if_neg hlt,
      bind_of_eq (container_at h.2), bind_of_eq (insertAt_of (Nat.le_of_lt h.1) _ _)]
    exact ih (w.insert h.1 h.2)
  | case5 i j es h => rw [unionAt, dif_neg (by simpa using h), append_of_end w h]

theorem symmDiffAt_of (w : InStep es bs i j) :
    symmDiffAt (of u bs) i j (of t es) = some (of t (Index.symmDiffAt t bs i j es)) := by
  fun_induction Index.symmDiffAt t bs i j es with
  | case1 i j es h hkey c hempty =>
    rename_i ih
    rw [symmDiffAt, dif_pos (by simpa using h), read_in_step w h.1 h.2, if_pos hkey,
      bind_of_eq (absorbEntry_of .symmDiff w h.1 h.2), if_pos hempty]
    exact ih (w.drop h.1 h.2)
  | case2 i j es h hkey c hne =>
    rename_i ih
    rw [symmDiffAt, dif_pos (by simpa using h), read_in_step w h.1 h.2, if_pos hkey,
      bind_of_eq (absorbEntry_of .symmDiff w h.1 h.2), if_neg hne]
    exact ih (w.replace h.1 h.2 hkey _)
  | case3 i j es h hkey hlt ih =>
    rw [symmDiffAt, dif_pos (by simpa using h), read_in_step w h.1 h.2, if_neg hkey, if_pos hlt]
    exact ih (w.pass h.1 h.2 hlt)
  | case4 i j es h hkey hlt ih =>
    rw [symmDiffAt, dif_pos (by simpa using h), read_in_step w h.1 h.2, if_neg hkey, if_neg hlt,
      bind_of_eq (container_at h.2), bind_of_eq (insertAt_of (Nat.le_of_lt h.1) _ _)]
    exact ih (w.insert h.1 h.2)
  | case5 i j es h => rw [symmDiffAt, dif_neg (by simpa using h), append_of_end w h]

theorem deferUnionAt_of (w : InStep es bs i j) :
    deferUnionAt (of u bs) i j (of t es) = some (of t (Index.deferUnionAt t bs i j es)) := by
  fun_induction Index.deferUnionAt t bs i j es with
  | case1 i j es h hkey c =>
    rename_i ih
    have habsorb := Container.Checked.absorbDeferred_eq t .union (w.valid_left h.1 h.2)
      (w.valid_right h.1 h.2)
    rw [deferUnionAt, dif_pos (by simpa using h), read_in_step w h.1 h.2, if_pos hkey,
      bind_of_eq (container_at h.1), bind_of_eq (container_at h.2), thresholds_of,
      bind_of_eq habsorb, bind_of_eq (store_of h.1 _)]
    exact ih (w.replace h.1 h.2 hkey _)
  | case2 i j es h hkey hlt ih =>
    obtain ⟨hmove, hahead⟩ := move_cursor h.1 hlt w.size_lt_left
    rw [deferUnionAt, dif_pos (by simpa using h), read_in_step w h.1 h.2, if_neg hkey, if_pos hlt,
      bind_of_eq hmove, dif_pos hahead]
    exact ih (w.leap h.1 h.2)
  | case3 i j es h hkey hlt ih =>
    rw [deferUnionAt, dif_pos (by simpa using h), read_in_step w h.1 h.2, if_neg hkey, if_neg hlt,
      bind_of_eq (container_at h.2), bind_of_eq (insertAt_of (Nat.le_of_lt h.1) _ _)]
    exact ih (w.insert h.1 h.2)
  | case4 i j es h => rw [deferUnionAt, dif_neg (by simpa using h), append_of_end w h]

/-! ## Operations -/

/-- The operation on two bitmaps in columns, in the place of the left one. -/
def absorb (op : SetOp) (s r : Columns) : Option Columns :=
  match op with
  | .inter => interAt r 0 0 s
  | .union => unionAt r 0 0 s
  | .diff => diffAt r 0 0 s
  | .symmDiff => symmDiffAt r 0 0 s

/-- Takes in the values of other columns, leaving containers unfinished. -/
def deferUnion (s r : Columns) : Option Columns := deferUnionAt r 0 0 s

/-- The union of many bitmaps in columns, with the thresholds of the first one. Its values are
counted to report their number. -/
def unionAll : List Columns → Option Columns
  | [] => some (of .standard #[])
  | [s] => some s
  | s :: ss => do
    let u ← ss.foldlM deferUnion s
    let u ← u.mapContainers (Container.Checked.compact u.thresholds)
    let _ ← u.card
    some u

variable {a b : Bitmap}

theorem absorb_of (op : SetOp) (ha : a.WellFormed) (hb : b.WellFormed) :
    absorb op a.columns b.columns = some (a.absorb op b).columns := by
  have w := InStep.start ha hb
  cases op with
  | inter => exact interAt_of w
  | union => exact unionAt_of w
  | diff => exact diffAt_of w
  | symmDiff => exact symmDiffAt_of w

theorem deferUnion_of (ha : a.WellFormed) (hb : b.WellFormed) :
    a.columns.deferUnion b.columns = some (a.deferUnion b).columns := deferUnionAt_of (.start ha hb)

theorem unionAll_of {bs : List Bitmap} (h : ∀ b ∈ bs, b.WellFormed) :
    unionAll (bs.map Bitmap.columns) = some (Bitmap.unionAll bs).columns := by
  match bs with
  | [] => rfl
  | [b] => rfl
  | b :: c :: bs =>
    obtain ⟨hb, hbs⟩ := List.forall_mem_cons.mp h
    have hfold : ((c :: bs).map Bitmap.columns).foldlM deferUnion b.columns =
        some ((c :: bs).foldl Bitmap.deferUnion b).columns := by
      rw [List.foldlM_map]
      refine foldlM_view Bitmap.columns
        (fun u rest => u.WellFormed ∧ ∀ b ∈ rest, b.WellFormed) ?_ _ _ ⟨hb, hbs⟩
      rintro u b rest ⟨hu, hrest⟩
      obtain ⟨hb, hrest⟩ := List.forall_mem_cons.mp hrest
      exact ⟨deferUnion_of hu hb, (Bitmap.unites_deferUnion u b hu hb).1, hrest⟩
    have hwf := (Bitmap.foldl_unites Bitmap.unites_deferUnion hb (c :: bs) hbs).1
    exact (bind_of_eq hfold _).trans <|
      (bind_of_eq (mapContainers_of hwf fun _ => Container.Checked.compact_eq _) _).trans <|
        bind_of_eq (Bitmap.Checked.card_eq (Bitmap.wellFormed_compact hwf)) _

end Columns

namespace Bitmap.Checked

/-- The operation on two bitmaps, in the place of the left one. -/
def absorb (op : SetOp) (a b : Bitmap) : Option Bitmap :=
  Columns.absorb op a.columns b.columns >>= Columns.bitmap

/-- The union of many bitmaps, with the thresholds of the first one. -/
def unionAll (bs : List Bitmap) : Option Bitmap :=
  Columns.unionAll (bs.map columns) >>= Columns.bitmap

theorem absorb_eq {a b : Bitmap} (op : SetOp) (ha : a.WellFormed) (hb : b.WellFormed) :
    absorb op a b = some (a.absorb op b) := bind_bitmap (Columns.absorb_of op ha hb)

theorem unionAll_eq {bs : List Bitmap} (h : ∀ b ∈ bs, b.WellFormed) :
    unionAll bs = some (Bitmap.unionAll bs) := bind_bitmap (Columns.unionAll_of h)

end Bitmap.Checked

end Roaring
