import Roaring.Bitmap.Relate
import Roaring.Proofs.Checked.Bitmap.Combine

/-!
# Relations between bitmaps, checked

Cursors skip the keys that only one index has, which changes no answer. What two bitmaps share is no
more than either of them holds, and that is what keeps the sizes of results from going below zero.
-/
namespace Roaring

open Machine

theorem apply_dropWhile {α β : Type} {p : α → Bool} {f : List α → β}
    (h : ∀ x xs, p x → f (x :: xs) = f xs) (xs : List α) : f (xs.dropWhile p) = f xs := by
  induction xs with
  | nil => rfl
  | cons x xs ih =>
    by_cases hx : p x
    · rw [List.dropWhile_cons_of_pos hx, ih, h x xs hx]
    · rw [List.dropWhile_cons_of_neg hx]

namespace Container

variable {a b : Container}

theorem interCard_le_left (ha : a.Valid) (hb : b.Valid) : a.interCard b ≤ a.card := by
  rw [interCard_eq ha hb, card_eq_size ha, ← Array.length_toList]
  exact List.countP_le_length

theorem interCard_le_right (ha : a.Valid) (hb : b.Valid) : a.interCard b ≤ b.card := by
  rw [interCard_eq ha hb, countP_comm ha hb, card_eq_size hb, ← Array.length_toList]
  exact List.countP_le_length

end Container

namespace Index

/-! ## Keys of one index alone -/

section Skip

variable {a b : Entry} {as bs : List Entry}

theorem ne_of_key_lt (h : b.key < a.key) : a.key ≠ b.key ∧ ¬a.key < b.key :=
  ⟨fun e => UInt16.lt_irrefl _ (e ▸ h), UInt16.not_lt.mpr (UInt16.le_of_lt h)⟩

theorem isSubset_skip (a : Entry) (as bs : List Entry) :
    isSubset (a :: as) (bs.dropWhile (·.key < a.key)) = isSubset (a :: as) bs := by
  refine apply_dropWhile (fun b bs hlt => ?_) bs
  obtain ⟨hne, hnlt⟩ := ne_of_key_lt (by simpa using hlt)
  rw [isSubset, if_neg hne, if_neg hnlt]

theorem intersects_skip_left (as : List Entry) (b : Entry) (bs : List Entry) :
    intersects (as.dropWhile (·.key < b.key)) (b :: bs) = intersects as (b :: bs) := by
  refine apply_dropWhile (f := fun as => intersects as (b :: bs)) (fun a as hlt => ?_) as
  have hlt : a.key < b.key := by simpa using hlt
  rw [intersects, if_neg (ne_of_key_lt hlt).1.symm, if_pos hlt]

theorem intersects_skip_right (a : Entry) (as bs : List Entry) :
    intersects (a :: as) (bs.dropWhile (·.key < a.key)) = intersects (a :: as) bs := by
  refine apply_dropWhile (fun b bs hlt => ?_) bs
  obtain ⟨hne, hnlt⟩ := ne_of_key_lt (by simpa using hlt)
  rw [intersects, if_neg hne, if_neg hnlt]

theorem interCardFrom_skip_left (as : List Entry) (b : Entry) (bs : List Entry) (n : Nat) :
    interCardFrom (as.dropWhile (·.key < b.key)) (b :: bs) n = interCardFrom as (b :: bs) n := by
  refine apply_dropWhile (f := fun as => interCardFrom as (b :: bs) n) (fun a as hlt => ?_) as
  have hlt : a.key < b.key := by simpa using hlt
  rw [interCardFrom, if_neg (ne_of_key_lt hlt).1.symm, if_pos hlt]

theorem interCardFrom_skip_right (a : Entry) (as bs : List Entry) (n : Nat) :
    interCardFrom (a :: as) (bs.dropWhile (·.key < a.key)) n = interCardFrom (a :: as) bs n := by
  refine apply_dropWhile (f := fun bs => interCardFrom (a :: as) bs n) (fun b bs hlt => ?_) bs
  obtain ⟨hne, hnlt⟩ := ne_of_key_lt (by simpa using hlt)
  rw [interCardFrom, if_neg hne, if_neg hnlt]

end Skip

theorem isSubset_of_nil {as bs : List Entry} (h : as = [] ∨ bs = []) :
    isSubset as bs = decide (as = []) := by
  rcases h with rfl | rfl
  · cases bs <;> rfl
  · cases as <;> rfl

theorem intersects_of_nil {as bs : List Entry} (h : as = [] ∨ bs = []) :
    intersects as bs = false := by
  rcases h with rfl | rfl
  · rw [intersects]
  · cases as with
    | nil => rw [intersects]
    | cons a as => rw [intersects]; simp

theorem interCardFrom_of_nil {as bs : List Entry} (h : as = [] ∨ bs = []) (n : Nat) :
    interCardFrom as bs n = n := by
  rcases h with rfl | rfl
  · rw [interCardFrom]
  · cases as with
    | nil => rw [interCardFrom]
    | cons a as => rw [interCardFrom]; simp

end Index

/-! ## Walks by two cursors -/

namespace Columns

open Index (Ahead)

/-- Whether every value of columns, from their index `i` on, is in other ones from index `j` on. -/
def isSubsetAt (as bs : Columns) (i j : Nat) : Option Bool :=
  if h : i < as.keys.size ∧ j < bs.keys.size then do
    check (i + 1 < 2 ^ 64 ∧ j + 1 < 2 ^ 64)
    let k ← as.keys[i]?
    let l ← bs.keys[j]?
    if k = l then do
      if ← Container.Checked.isSubset (← as.containers[i]?) (← bs.containers[j]?) then
        isSubsetAt as bs (i + 1) (j + 1)
      else some false
    else if k < l then some false
    else do
      let n ← moveCursor (· < k) bs.keys j
      if _hn : j < n then isSubsetAt as bs i n else none
  else some (i = as.keys.size)
termination_by (as.keys.size - i) + (bs.keys.size - j)

/-- Whether some value is in both columns, from their indices `i` and `j` on. -/
def intersectsAt (as bs : Columns) (i j : Nat) : Option Bool :=
  if h : i < as.keys.size ∧ j < bs.keys.size then do
    check (i + 1 < 2 ^ 64 ∧ j + 1 < 2 ^ 64)
    let k ← as.keys[i]?
    let l ← bs.keys[j]?
    if k = l then do
      if ← Container.Checked.intersects (← as.containers[i]?) (← bs.containers[j]?) then some true
      else intersectsAt as bs (i + 1) (j + 1)
    else if k < l then do
      let n ← moveCursor (· < l) as.keys i
      if _hn : i < n then intersectsAt as bs n j else none
    else do
      let n ← moveCursor (· < k) bs.keys j
      if _hn : j < n then intersectsAt as bs i n else none
  else some false
termination_by (as.keys.size - i) + (bs.keys.size - j)

/-- Adds to `n` the number of values in both columns, from their indices `i` and `j` on. The ends of
the walk are those of the containers. -/
def interCardAt (as bs : Columns) (i j n : Nat) : Option Nat :=
  if h : i < as.containers.size ∧ j < bs.containers.size then do
    check (i + 1 < 2 ^ 64 ∧ j + 1 < 2 ^ 64)
    let k ← as.keys[i]?
    let l ← bs.keys[j]?
    if k = l then do
      let shared ← Container.Checked.interCard (← as.containers[i]?) (← bs.containers[j]?)
      interCardAt as bs (i + 1) (j + 1) (← to64 (n + shared))
    else if k < l then do
      let m ← moveCursor (· < l) as.keys i
      if _hm : i < m then interCardAt as bs m j n else none
    else do
      let m ← moveCursor (· < k) bs.keys j
      if _hm : j < m then interCardAt as bs i m n else none
  else some n
termination_by (as.containers.size - i) + (bs.containers.size - j)

variable {t u : Thresholds} {as bs : Array Entry} {i j : Nat}
  {beforeA afterA beforeB afterB : List Entry}

theorem isSubsetAt_of (hsa : as.size < 2 ^ 62) (hsb : bs.size < 2 ^ 62)
    (ha : Ahead as i beforeA afterA) (hb : Ahead bs j beforeB afterB) :
    isSubsetAt (of t as) (of u bs) i j = some (Index.isSubset afterA afterB) := by
  fun_induction isSubsetAt (of t as) (of u bs) i j generalizing beforeA afterA beforeB afterB with
  | case1 i j h ihBoth ihRight =>
    have h : i < as.size ∧ j < bs.size := by simpa using h
    obtain ⟨⟨as', rfl⟩, bs', rfl⟩ := Index.exists_heads ha hb h.1 h.2
    rw [read_keys h.1 h.2 hsa hsb]
    split
    · rename_i hkey
      rw [bind_of_eq (container_at h.1), bind_of_eq (container_at h.2),
        bind_of_eq (Container.Checked.isSubset_eq ha.head_valid hb.head_valid), Index.isSubset,
        if_pos hkey]
      cases as[i].container.isSubset bs[j].container with
      | false => rfl
      | true => exact ihBoth ha.next hb.next
    · rename_i hkey
      split
      · rename_i hlt
        rw [Index.isSubset, if_neg hkey, if_pos hlt]
      · rename_i hlt
        obtain ⟨hmove, hahead⟩ := move_cursor h.2 (Index.gt_of_ne hkey hlt) hsb
        rw [bind_of_eq hmove, dif_pos hahead, ihRight _ hahead ha (hb.advance _),
          Index.isSubset_skip]
  | case2 i j h =>
    have h : ¬(i < as.size ∧ j < bs.size) := by simpa using h
    have hend : i = (of t as).keys.size ↔ afterA = [] := by
      rw [size_keys_of]
      refine ⟨fun hi => ha.eq_nil (by omega), fun hnil => ?_⟩
      subst hnil
      have hi := ha.not_lt_size
      have hle := ha.le_size
      omega
    rw [Index.isSubset_of_nil (Index.nil_or_nil ha hb h), decide_eq_decide.mpr hend]

theorem intersectsAt_of (hsa : as.size < 2 ^ 62) (hsb : bs.size < 2 ^ 62)
    (ha : Ahead as i beforeA afterA) (hb : Ahead bs j beforeB afterB) :
    intersectsAt (of t as) (of u bs) i j = some (Index.intersects afterA afterB) := by
  fun_induction intersectsAt (of t as) (of u bs) i j
    generalizing beforeA afterA beforeB afterB with
  | case1 i j h ihBoth ihLeft ihRight =>
    have h : i < as.size ∧ j < bs.size := by simpa using h
    obtain ⟨⟨as', rfl⟩, bs', rfl⟩ := Index.exists_heads ha hb h.1 h.2
    rw [read_keys h.1 h.2 hsa hsb]
    split
    · rename_i hkey
      rw [bind_of_eq (container_at h.1), bind_of_eq (container_at h.2),
        bind_of_eq (Container.Checked.intersects_eq ha.head_valid hb.head_valid),
        Index.intersects, if_pos hkey]
      cases as[i].container.intersects bs[j].container with
      | false => exact ihBoth ha.next hb.next
      | true => rfl
    · rename_i hkey
      split
      · rename_i hlt
        obtain ⟨hmove, hahead⟩ := move_cursor h.1 hlt hsa
        rw [bind_of_eq hmove, dif_pos hahead, ihLeft _ hahead (ha.advance _) hb,
          Index.intersects_skip_left]
      · rename_i hlt
        obtain ⟨hmove, hahead⟩ := move_cursor h.2 (Index.gt_of_ne hkey hlt) hsb
        rw [bind_of_eq hmove, dif_pos hahead, ihRight _ hahead ha (hb.advance _),
          Index.intersects_skip_right]
  | case2 i j h =>
    have h : ¬(i < as.size ∧ j < bs.size) := by simpa using h
    rw [Index.intersects_of_nil (Index.nil_or_nil ha hb h)]

theorem interCardAt_of {n : Nat} (hsa : as.size < 2 ^ 62) (hsb : bs.size < 2 ^ 62)
    (hn : n + (as.size - i) * 65536 < 2 ^ 63) (ha : Ahead as i beforeA afterA)
    (hb : Ahead bs j beforeB afterB) :
    interCardAt (of t as) (of u bs) i j n = some (Index.interCardFrom afterA afterB n) := by
  fun_induction interCardAt (of t as) (of u bs) i j n
    generalizing beforeA afterA beforeB afterB with
  | case1 i j n h ihBoth ihLeft ihRight =>
    have h : i < as.size ∧ j < bs.size := by simpa using h
    obtain ⟨⟨as', rfl⟩, bs', rfl⟩ := Index.exists_heads ha hb h.1 h.2
    rw [read_keys h.1 h.2 hsa hsb]
    split
    · rename_i hkey
      have hle := Container.interCard_le_left ha.head_valid hb.head_valid
      have hcard := Container.Checked.card_le ha.head_valid
      rw [bind_of_eq (container_at h.1), bind_of_eq (container_at h.2),
        bind_of_eq (Container.Checked.interCard_eq ha.head_valid hb.head_valid),
        bind_of_eq (to64_of_lt (by omega)), Index.interCardFrom, if_pos hkey]
      exact ihBoth _ (by omega) ha.next hb.next
    · rename_i hkey
      split
      · rename_i hlt
        obtain ⟨hmove, hahead⟩ := move_cursor h.1 hlt hsa
        have hless := Nat.mul_le_mul_right 65536 (Nat.sub_le_sub_left (Nat.le_of_lt hahead) as.size)
        rw [bind_of_eq hmove, dif_pos hahead,
          ihLeft _ hahead (Nat.lt_of_le_of_lt (Nat.add_le_add_left hless n) hn) (ha.advance _) hb,
          Index.interCardFrom_skip_left]
      · rename_i hlt
        obtain ⟨hmove, hahead⟩ := move_cursor h.2 (Index.gt_of_ne hkey hlt) hsb
        rw [bind_of_eq hmove, dif_pos hahead, ihRight _ hahead hn ha (hb.advance _),
          Index.interCardFrom_skip_right]
  | case2 i j n h =>
    have h : ¬(i < as.size ∧ j < bs.size) := by simpa using h
    rw [Index.interCardFrom_of_nil (Index.nil_or_nil ha hb h)]

end Columns

namespace Bitmap

/-! ## Sizes of results -/

section Sizes

theorem cardOf_mono (es : List Entry) {m n : Nat} (h : m ≤ n) : cardOf es m ≤ cardOf es n := by
  induction es generalizing m n with
  | nil => exact h
  | cons e es ih => exact ih (Nat.add_le_add_right h _)

theorem le_cardOf (es : List Entry) (n : Nat) : n ≤ cardOf es n := by
  induction es generalizing n with
  | nil => exact Nat.le_refl n
  | cons e es ih => exact Nat.le_trans (Nat.le_add_right n _) (ih _)

/-- What two indexes share is no more than either of them holds. -/
theorem interCardFrom_le (as bs : List Entry) (n : Nat) (ha : ∀ e ∈ as, e.container.Valid)
    (hb : ∀ e ∈ bs, e.container.Valid) :
    Index.interCardFrom as bs n ≤ cardOf as n ∧ Index.interCardFrom as bs n ≤ cardOf bs n := by
  fun_induction Index.interCardFrom as bs n with
  | case1 bs n => exact ⟨le_cardOf _ n, le_cardOf _ n⟩
  | case2 as n => exact ⟨le_cardOf _ n, le_cardOf _ n⟩
  | case3 a as b bs n hkey ih =>
    -- a shared key
    obtain ⟨hva, ha⟩ := List.forall_mem_cons.mp ha
    obtain ⟨hvb, hb⟩ := List.forall_mem_cons.mp hb
    obtain ⟨hleft, hright⟩ := ih ha hb
    have hleft' := Nat.add_le_add_left (Container.interCard_le_left hva hvb) n
    have hright' := Nat.add_le_add_left (Container.interCard_le_right hva hvb) n
    exact ⟨hleft.trans (cardOf_mono as hleft'), hright.trans (cardOf_mono bs hright')⟩
  | case4 a as b bs n hkey hlt ih =>
    -- a key of the left index alone
    obtain ⟨hleft, hright⟩ := ih (List.forall_mem_cons.mp ha).2 hb
    exact ⟨hleft.trans (cardOf_mono as (Nat.le_add_right n _)), hright⟩
  | case5 a as b bs n hkey hlt ih =>
    -- a key of the right index alone
    obtain ⟨hleft, hright⟩ := ih ha (List.forall_mem_cons.mp hb).2
    exact ⟨hleft, hright.trans (cardOf_mono bs (Nat.le_add_right n _))⟩

variable {a b : Bitmap}

theorem interCard_le (ha : a.WellFormed) (hb : b.WellFormed) :
    a.interCard b ≤ a.card ∧ a.interCard b ≤ b.card := by
  rw [card_eq_cardOf, card_eq_cardOf]
  exact interCardFrom_le _ _ 0 (valid_of_mem ha) (valid_of_mem hb)

end Sizes

namespace Checked

/-- Whether every value of the left operand is in the right one. -/
def isSubset (a b : Bitmap) : Option Bool := Columns.isSubsetAt a.columns b.columns 0 0

/-- Whether some value is in both operands. -/
def intersects (a b : Bitmap) : Option Bool := Columns.intersectsAt a.columns b.columns 0 0

/-- The number of values in both operands. -/
def interCard (a b : Bitmap) : Option Nat := Columns.interCardAt a.columns b.columns 0 0 0

/-- The number of values that the operation on two bitmaps yields. -/
def opCard (op : SetOp) (a b : Bitmap) : Option Nat :=
  match op with
  | .inter => interCard a b
  | .union => do minus (← to64 ((← card a) + (← card b))) (← interCard a b)
  | .diff => do minus (← card a) (← interCard a b)
  | .symmDiff => do minus (← to64 ((← card a) + (← card b))) (← to64 (2 * (← interCard a b)))

variable {a b : Bitmap} (ha : a.WellFormed) (hb : b.WellFormed)

include ha hb

theorem isSubset_eq : isSubset a b = some (a.isSubset b) := by
  have hsa := size_entries_le ha
  have hsb := size_entries_le hb
  exact Columns.isSubsetAt_of (by omega) (by omega) (.start (wellFormed_iff.mp ha))
    (.start (wellFormed_iff.mp hb))

theorem intersects_eq : intersects a b = some (a.intersects b) := by
  have hsa := size_entries_le ha
  have hsb := size_entries_le hb
  exact Columns.intersectsAt_of (by omega) (by omega) (.start (wellFormed_iff.mp ha))
    (.start (wellFormed_iff.mp hb))

theorem interCard_eq : interCard a b = some (a.interCard b) := by
  have hsa := size_entries_le ha
  have hsb := size_entries_le hb
  exact Columns.interCardAt_of (by omega) (by omega) (by omega)
    (.start (wellFormed_iff.mp ha)) (.start (wellFormed_iff.mp hb))

theorem opCard_eq (op : SetOp) : opCard op a b = some (Bitmap.opCard op a b) := by
  have hca := card_le ha
  have hcb := card_le hb
  obtain ⟨hleft, hright⟩ := interCard_le ha hb
  have hshared := interCard_eq ha hb
  cases op with
  | inter => exact hshared
  | union =>
    rw [opCard, bind_of_eq (card_eq ha), bind_of_eq (card_eq hb),
      bind_of_eq (to64_of_lt (by omega)), bind_of_eq hshared, minus_of_le (by omega)]
    rfl
  | diff =>
    rw [opCard, bind_of_eq (card_eq ha), bind_of_eq hshared, minus_of_le hleft]
    rfl
  | symmDiff =>
    rw [opCard, bind_of_eq (card_eq ha), bind_of_eq (card_eq hb),
      bind_of_eq (to64_of_lt (by omega)), bind_of_eq hshared, bind_of_eq (to64_of_lt (by omega)),
      minus_of_le (by omega)]
    rfl

end Checked

end Bitmap

end Roaring
