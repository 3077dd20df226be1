/-!
# Searching sorted arrays

Two ways to the first element that fails a test which an initial part of the array passes: binary
search between two bounds, and a cursor that doubles its step before it searches, for walking
one array along another.
-/
namespace Roaring

variable {α : Type}

/-- The first index in `[lo, hi)` whose element fails `p`, or `hi`. Binary search: right when the
elements of that window that pass `p` come before those that fail it. -/
def partitionPoint (p : α → Bool) (a : Array α) (lo hi : Nat) (hhi : hi ≤ a.size) : Nat :=
  if h : lo < hi then
    have mid_lt : lo + (hi - lo) / 2 < a.size := by omega
    if p a[lo + (hi - lo) / 2] then partitionPoint p a (lo + (hi - lo) / 2 + 1) hi hhi
    else partitionPoint p a lo (lo + (hi - lo) / 2) (by omega)
  else lo
termination_by hi - lo

theorem le_partitionPoint (p : α → Bool) (a : Array α) (lo hi : Nat) (hhi : hi ≤ a.size) :
    lo ≤ partitionPoint p a lo hi hhi := by
  fun_induction partitionPoint p a lo hi hhi <;> omega

theorem partitionPoint_le (p : α → Bool) (a : Array α) (lo hi : Nat) (hhi : hi ≤ a.size)
    (h : lo ≤ hi) : partitionPoint p a lo hi hhi ≤ hi := by
  fun_induction partitionPoint p a lo hi hhi <;> omega

/-- The number of elements that pass `p`, when those come first. -/
def countWhile (p : α → Bool) (a : Array α) : Nat := partitionPoint p a 0 a.size (Nat.le_refl _)

/-- Doubles the step `span` from `lo`, whose element passes `p`, until the next element fails,
then searches the last step. -/
def gallop (p : α → Bool) (a : Array α) (lo span : Nat) (hspan : 0 < span) : Nat :=
  if h : lo + span < a.size then
    if p a[lo + span] then gallop p a (lo + span) (2 * span) (by omega)
    else partitionPoint p a (lo + 1) (lo + span) (by omega)
  else partitionPoint p a (lo + 1) a.size (Nat.le_refl _)
termination_by a.size - lo

theorem lt_gallop (p : α → Bool) (a : Array α) (lo span : Nat) (hspan : 0 < span) :
    lo < gallop p a lo span hspan := by
  fun_induction gallop p a lo span hspan with
  | case1 => omega
  | case2 => exact le_partitionPoint ..
  | case3 => exact le_partitionPoint ..

theorem gallop_le (p : α → Bool) (a : Array α) (lo span : Nat) (hspan : 0 < span)
    (h : lo < a.size) : gallop p a lo span hspan ≤ a.size := by
  fun_induction gallop p a lo span hspan with
  | case1 lo span hspan hlt _ ih => exact ih hlt
  | case2 lo span hspan hlt =>
    exact Nat.le_trans (partitionPoint_le _ _ _ _ _ (by omega)) (by omega)
  | case3 => exact partitionPoint_le _ _ _ _ _ (by omega)

/-- The first index at or after `i` whose element fails `p`, or the end of the array. -/
def advance (p : α → Bool) (a : Array α) (i : Nat) : Nat :=
  if h : i < a.size then
    if p a[i] then gallop p a i 1 Nat.one_pos else i
  else i

theorem lt_advance {p : α → Bool} {a : Array α} {i : Nat} (h : i < a.size) (hp : p a[i]) :
    i < advance p a i := by
  simp only [advance, h, hp, dif_pos, if_true]
  exact lt_gallop ..

theorem advance_le {p : α → Bool} {a : Array α} {i : Nat} (h : i ≤ a.size) :
    advance p a i ≤ a.size := by
  unfold advance
  split
  · split
    · exact gallop_le _ _ _ _ _ ‹_›
    · exact h
  · exact h

end Roaring
