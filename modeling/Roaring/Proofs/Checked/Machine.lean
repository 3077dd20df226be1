import Mathlib.Algebra.Group.Nat.Defs
import Roaring.Search

/-!
# Machine arithmetic

What a machine asks of each step of a computation: an index lies in its array, a difference does not
go below zero, a sum fits its width, and nothing is lost where a number is narrowed. A checked
computation has no outcome as soon as one of these fails. Positions and sizes have 64 bits, ends of
runs have 32, and values have 16.

The checked form of an operation takes the steps of the machine one by one, with cursors and bounds
where the plain form walks a list. It stands beside the proof that, on the operands the operation is
meant for, it comes to the plain form.
-/
namespace Roaring.Machine

variable {α : Type} {a : Array α} {i j m n : Nat}

/-- What has to hold for the machine to go on. -/
def check (p : Prop) [Decidable p] : Option Unit := if p then some () else none

/-- A position or a size. -/
def to64 (n : Nat) : Option Nat := if n < 2 ^ 64 then some n else none

/-- The end of a run, or a number of bits. -/
def to32 (n : Nat) : Option Nat := if n < 2 ^ 32 then some n else none

/-- A number narrowed to a value, without loss. -/
def to16 (n : Nat) : Option UInt16 := if n < 65536 then some n.toUInt16 else none

/-- A difference that is not negative. -/
def minus (m n : Nat) : Option Nat := if n ≤ m then some (m - n) else none

/-- The sum of two values, itself a value. -/
def plus16 (v w : UInt16) : Option UInt16 :=
  if v.toNat + w.toNat < 65536 then some (v + w) else none

/-- The difference of two values that is not negative. -/
def minus16 (v w : UInt16) : Option UInt16 := if w ≤ v then some (v - w) else none

/-- The elements from index `i` up to index `j`. -/
def slice (a : Array α) (i j : Nat) : Option (Array α) :=
  if i ≤ j ∧ j ≤ a.size then some (a.extract i j) else none

/-- Replaces the element at an index. -/
def store (a : Array α) (i : Nat) (x : α) : Option (Array α) :=
  if i < a.size then some (a.setIfInBounds i x) else none

/-- Inserts an element at an index, which may be the end. -/
def insertAt (a : Array α) (i : Nat) (x : α) : Option (Array α) :=
  if i ≤ a.size then some (a.insertIdxIfInBounds i x) else none

/-- Removes the element at an index. -/
def removeAt (a : Array α) (i : Nat) : Option (Array α) :=
  if i < a.size then some (a.eraseIdxIfInBounds i) else none

/-- Cuts out the elements from index `i` up to index `j`. -/
def cut (a : Array α) (i j : Nat) : Option (Array α) :=
  if i ≤ j ∧ j ≤ a.size then some (a.take i ++ a.drop j) else none

/-- A step that has an outcome hands it to the rest. -/
theorem bind_of_eq {β : Type} {o : Option α} {x : α} (h : o = some x) (rest : α → Option β) :
    (o >>= rest) = rest x := by rw [h]; rfl

@[simp] theorem check_of {p : Prop} [Decidable p] (h : p) : check p = some () := if_pos h

@[simp] theorem to64_of_lt (h : n < 2 ^ 64) : to64 n = some n := if_pos h

@[simp] theorem to32_of_lt (h : n < 2 ^ 32) : to32 n = some n := if_pos h

@[simp] theorem to16_of_lt (h : n < 65536) : to16 n = some n.toUInt16 := if_pos h

@[simp] theorem minus_of_le (h : n ≤ m) : minus m n = some (m - n) := if_pos h

@[simp] theorem plus16_of_lt {v w : UInt16} (h : v.toNat + w.toNat < 65536) :
    plus16 v w = some (v + w) := if_pos h

@[simp] theorem minus16_of_le {v w : UInt16} (h : w ≤ v) : minus16 v w = some (v - w) := if_pos h

@[simp] theorem slice_of_le (hij : i ≤ j) (hj : j ≤ a.size) : slice a i j = some (a.extract i j) :=
  if_pos ⟨hij, hj⟩

@[simp] theorem store_of_lt (h : i < a.size) (x : α) :
    store a i x = some (a.setIfInBounds i x) := if_pos h

@[simp] theorem insertAt_of_le (h : i ≤ a.size) (x : α) :
    insertAt a i x = some (a.insertIdxIfInBounds i x) := if_pos h

@[simp] theorem removeAt_of_lt (h : i < a.size) :
    removeAt a i = some (a.eraseIdxIfInBounds i) := if_pos h

@[simp] theorem cut_of_le (hij : i ≤ j) (hj : j ≤ a.size) :
    cut a i j = some (a.take i ++ a.drop j) := if_pos ⟨hij, hj⟩

/-- Two cursors within their arrays can be read and moved on. -/
theorem read_heads {β γ : Type} {b : Array β} (h : i < a.size ∧ j < b.size) (ha : a.size < 2 ^ 63)
    (hb : b.size < 2 ^ 63) (rest : α → β → Option γ) :
    (check (i + 1 < 2 ^ 64 ∧ j + 1 < 2 ^ 64) >>= fun _ => a[i]? >>= fun x => b[j]? >>= fun y =>
      rest x y) = rest a[i] b[j] := by
  rw [bind_of_eq (check_of ⟨by omega, by omega⟩), bind_of_eq (Array.getElem?_eq_getElem h.1),
    bind_of_eq (Array.getElem?_eq_getElem h.2)]

/-! ## Folds -/

/-- A fold of steps that come to plain ones, seen in another form, while an invariant holds comes to
the plain fold in that form. The invariant is about what is built and about the elements ahead. -/
theorem foldlM_view {β γ : Type} {step : γ → α → Option γ} {plain : β → α → β} (view : β → γ)
    (inv : β → List α → Prop)
    (h : ∀ b x xs, inv b (x :: xs) →
      step (view b) x = some (view (plain b x)) ∧ inv (plain b x) xs) (xs : List α)
    (b : β) (hb : inv b xs) : xs.foldlM step (view b) = some (view (xs.foldl plain b)) := by
  induction xs generalizing b with
  | nil => rfl
  | cons x xs ih =>
    obtain ⟨hstep, hinv⟩ := h b x xs hb
    rw [List.foldlM_cons, bind_of_eq hstep, ih _ hinv, List.foldl_cons]

theorem foldlM_eq_some {β : Type} {step : β → α → Option β} {plain : β → α → β}
    (inv : β → List α → Prop)
    (h : ∀ b x xs, inv b (x :: xs) → step b x = some (plain b x) ∧ inv (plain b x) xs) (xs : List α)
    (b : β) (hb : inv b xs) : xs.foldlM step b = some (xs.foldl plain b) :=
  foldlM_view id inv h xs b hb

theorem allM_eq_some {p : α → Option Bool} {q : α → Bool} {xs : List α}
    (h : ∀ x ∈ xs, p x = some (q x)) : xs.allM p = some (xs.all q) := by
  induction xs with
  | nil => rfl
  | cons x xs ih =>
    obtain ⟨hx, h⟩ := List.forall_mem_cons.mp h
    rw [List.allM, bind_of_eq hx, List.all_cons]
    cases q x with
    | false => rfl
    | true => exact ih h

theorem anyM_eq_some {p : α → Option Bool} {q : α → Bool} {xs : List α}
    (h : ∀ x ∈ xs, p x = some (q x)) : xs.anyM p = some (xs.any q) := by
  induction xs with
  | nil => rfl
  | cons x xs ih =>
    obtain ⟨hx, h⟩ := List.forall_mem_cons.mp h
    rw [List.anyM, bind_of_eq hx, List.any_cons]
    cases q x with
    | false => exact ih h
    | true => rfl

theorem mapM_eq_some {β : Type} {f : α → Option β} {g : α → β} {xs : List α}
    (h : ∀ x ∈ xs, f x = some (g x)) : xs.mapM f = some (xs.map g) := by
  induction xs with
  | nil => rfl
  | cons x xs ih =>
    obtain ⟨hx, h⟩ := List.forall_mem_cons.mp h
    rw [List.mapM_cons, bind_of_eq hx, ih h]
    rfl

/-! ## Searches -/

theorem countWhile_le (p : α → Bool) (a : Array α) : countWhile p a ≤ a.size :=
  partitionPoint_le _ _ _ _ _ (Nat.zero_le _)

/-- Binary search between two indices. -/
def window (p : α → Bool) (a : Array α) (lo hi : Nat) : Option Nat :=
  if h : lo ≤ hi ∧ hi ≤ a.size then to64 (partitionPoint p a lo hi h.2) else none

/-- Doubles the step `span` from `lo`, then searches the last step. -/
def leap (p : α → Bool) (a : Array α) (lo span : Nat) (hspan : 0 < span) : Option Nat := do
  check (lo + span < 2 ^ 64)
  if h : lo + span < a.size then
    if p a[lo + span] then do
      check (2 * span < 2 ^ 64)
      leap p a (lo + span) (2 * span) (Nat.mul_pos Nat.two_pos hspan)
    else window p a (lo + 1) (lo + span)
  else window p a (lo + 1) a.size
termination_by a.size - lo

/-- The first index at or after `i` whose element fails `p`, or the end of the array. -/
def moveCursor (p : α → Bool) (a : Array α) (i : Nat) : Option Nat :=
  if h : i < a.size then
    if p a[i] then leap p a i 1 Nat.one_pos else some i
  else some i

theorem window_eq {p : α → Bool} {lo hi : Nat} (hle : lo ≤ hi) (hhi : hi ≤ a.size)
    (hsize : a.size < 2 ^ 64) : window p a lo hi = some (partitionPoint p a lo hi hhi) := by
  have hres := partitionPoint_le p a lo hi hhi hle
  rw [window, dif_pos ⟨hle, hhi⟩, to64_of_lt (by omega)]

/-- The step never grows past the distance already covered, so it fits as long as the array is not
huge. -/
theorem leap_eq {p : α → Bool} {lo span : Nat} (hspan : 0 < span) (hlo : lo < a.size)
    (hle : span ≤ lo + 1) (hsize : a.size < 2 ^ 62) :
    leap p a lo span hspan = some (gallop p a lo span hspan) := by
  fun_induction gallop p a lo span hspan with
  | case1 lo span hspan hlt hp ih =>
    rw [leap, bind_of_eq (check_of (by omega)), dif_pos hlt, if_pos hp,
      bind_of_eq (check_of (by omega)), ih hlt (by omega)]
  | case2 lo span hspan hlt hp =>
    rw [leap, bind_of_eq (check_of (by omega)), dif_pos hlt, if_neg hp,
      window_eq (by omega) (by omega) (by omega)]
  | case3 lo span hspan hlt =>
    rw [leap, bind_of_eq (check_of (by omega)), dif_neg hlt,
      window_eq (by omega) (by omega) (by omega)]

@[simp] theorem moveCursor_eq (p : α → Bool) (i : Nat) (hsize : a.size < 2 ^ 62) :
    moveCursor p a i = some (advance p a i) := by
  unfold moveCursor advance
  split
  · rename_i hi
    split
    · exact leap_eq Nat.one_pos hi (by omega) hsize
    · rfl
  · rfl

end Roaring.Machine
