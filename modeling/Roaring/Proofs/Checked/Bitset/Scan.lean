import Roaring.Proofs.Checked.Bitset.Words
import Roaring.Proofs.Checked.Runs.Merge

/-!
# Word vectors scanned, checked

A scan knows the index of its word, of which there are 1024, and the position of a bit in it, of
which there are 64; so what it narrows to a value is one. The lowest set bit of a word is cleared
with the help of the word less one, which a word of zeros does not have.
-/
namespace Roaring.Words.Checked

open Machine

variable {ws : Words} {i : Nat} {w : UInt64} {rest : List UInt64}

/-- The words after the one at index `i`. -/
def After (ws : Words) (i : Nat) (rest : List UInt64) : Prop :=
  i + 1 + rest.length = 1024 ∧ ∀ k, rest[k]? = ws[i + 1 + k]?

theorem After.nil_iff (h : After ws i rest) : rest = [] ↔ i = 1023 := by
  rw [← List.length_eq_zero_iff]
  have := h.1
  omega

theorem After.head (h : After ws i (w :: rest)) : ws[i + 1]? = some w := (h.2 0).symm

theorem After.tail (h : After ws i (w :: rest)) : After ws (i + 1) rest := by
  refine ⟨by have := h.1; rw [List.length_cons] at this; omega, fun k => ?_⟩
  rw [show i + 1 + 1 + k = i + 1 + (k + 1) by omega, ← h.2 (k + 1), List.getElem?_cons_succ]

theorem exists_cons (ws : Words) : ∃ w rest, ws.toList = w :: rest ∧ ws[0]? = some w ∧
    After ws 0 rest := by
  have hlen : ws.toList.length = 1024 := Vector.length_toList
  obtain ⟨w, rest, hws⟩ := List.exists_cons_of_length_pos (l := ws.toList) (by omega)
  have hget : ∀ k, ws.toList[k]? = ws[k]? := fun k => Vector.getElem?_toList
  rw [hws, List.length_cons] at hlen
  refine ⟨w, rest, hws, by rw [← hget, hws, List.getElem?_cons_zero], by omega, fun k => ?_⟩
  rw [← hget, hws, Nat.zero_add, Nat.add_comm, List.getElem?_cons_succ]

/-! ## Values -/

/-- Appends the values of the rest `w` of word `i` and of the words after it. -/
def valuesAt (ws : Words) (i : Nat) (w : UInt64) (out : Array UInt16) : Option (Array UInt16) :=
  if h : w = 0 then
    if 1024 ≤ i + 1 then some out else do valuesAt ws (i + 1) (← ws[i + 1]?) out
  else do
    let v ← to16 (64 * i + Word.lowest w)
    check (1 ≤ w)
    valuesAt ws i (Word.clearLowest w) (out.push v)
termination_by (1023 - i, w.toNat)
decreasing_by
  · exact Prod.Lex.left _ _ (by omega)
  · exact Prod.Lex.right _ (Word.clearLowest_lt h)

/-- The values in ascending order. -/
def values (ws : Words) : Option (Array UInt16) := do valuesAt ws 0 (← ws[0]?) #[]

theorem one_le_of_ne_zero (hw : w ≠ 0) : 1 ≤ w := Word.toNat_pos hw

theorem valuesInto_zero (base : Nat) (out : Array UInt16) : Word.valuesInto base 0 out = out := by
  rw [Word.valuesInto, dif_pos rfl]

theorem valuesAt_eq (ws : Words) (i : Nat) (w : UInt64) (out : Array UInt16) (h : After ws i rest) :
    valuesAt ws i w out = some (valuesFrom (i + 1) rest (Word.valuesInto (64 * i) w out)) := by
  fun_induction valuesAt ws i w out generalizing rest with
  | case1 i out hlast =>
    rw [h.nil_iff.mpr (by have := h.1; omega), valuesFrom, valuesInto_zero]
  | case2 i out hmore ih =>
    cases rest with
    | nil => exact absurd (h.nil_iff.mp rfl) (by omega)
    | cons w' rest =>
      rw [bind_of_eq h.head, ih w' h.tail, valuesInto_zero, valuesFrom]
  | case3 i w out hw ih =>
    have hlow := Word.lowest_lt hw
    have hbound := h.1
    rw [bind_of_eq (to16_of_lt (by omega)), bind_of_eq (check_of (one_le_of_ne_zero hw)),
      Word.valuesInto, dif_neg hw]
    exact ih _ h

theorem values_eq (ws : Words) : values ws = some (Words.values ws) := by
  obtain ⟨w, rest, hws, hhead, hafter⟩ := exists_cons ws
  rw [values, bind_of_eq hhead, valuesAt_eq ws 0 w #[] hafter, Words.values, hws, valuesFrom]

/-! ## The ends, and positions -/

/-- The smallest value of the words from word `i` on. -/
def minFrom (i : Nat) : List UInt64 → Option (Option UInt16)
  | [] => some none
  | w :: ws =>
    if w = 0 then minFrom (i + 1) ws else do some (some (← to16 (64 * i + Word.lowest w)))

def min? (ws : Words) : Option (Option UInt16) := minFrom 0 ws.toList

/-- The number of clear bits above the highest set bit. -/
def leadingZeros (w : UInt64) : Nat := 63 - Word.highest w

/-- The largest value of the words from word `i` down. -/
def maxFrom (i : Nat) : List UInt64 → Option (Option UInt16)
  | [] => some none
  | w :: ws =>
    if w = 0 then maxFrom (i - 1) ws
    else do some (some (← to16 (← minus (64 * i + 63) (leadingZeros w))))

def max? (ws : Words) : Option (Option UInt16) := maxFrom 1023 ws.toList.reverse

/-- The number of values at most `v`: the slice of the words before that of `v`, and its bits up to
`v`. -/
def rank (ws : Words) (v : UInt16) : Option Nat := do
  let last := v.toNat / 64
  check (last ≤ 1024)
  let before ← (List.range' 0 last).foldlM (fun n i => do to32 (n + Word.count (← ws[i]?))) 0
  let mask ← shr Word.allOnes (← minus 63 (v.toNat % 64))
  let w ← ws[last]?
  to64 (before + Word.count (w &&& mask))

/-- Clears the `n` lowest set bits. -/
def dropLowest (w : UInt64) : Nat → Option UInt64
  | 0 => some w
  | n + 1 => do
    check (1 ≤ w)
    dropLowest (Word.clearLowest w) n

/-- The value at position `n` among those of the words from word `i` on, before which there are
`seen` values. -/
def selectFrom (n : Nat) (i : Nat) : List UInt64 → Nat → Option (Option UInt16)
  | [], _ => some none
  | w :: ws, seen => do
    let next ← to64 (seen + Word.count w)
    if n < next then do
      let w ← dropLowest w (← minus n seen)
      some (some (← to16 (64 * i + Word.lowest w)))
    else selectFrom n (i + 1) ws next

def select (ws : Words) (n : Nat) : Option (Option UInt16) := selectFrom n 0 ws.toList 0

theorem minFrom_eq (i : Nat) (ws : List UInt64) (h : i + ws.length ≤ 1024) :
    minFrom i ws = some (Words.minFrom i ws) := by
  induction ws generalizing i with
  | nil => rfl
  | cons w ws ih =>
    rw [List.length_cons] at h
    rw [minFrom, Words.minFrom]
    split
    · exact ih _ (by omega)
    · rename_i hw
      have hlow := Word.lowest_lt hw
      exact bind_of_eq (to16_of_lt (by omega)) _

theorem min?_eq (ws : Words) : min? ws = some (Words.min? ws) :=
  minFrom_eq 0 _ (by rw [Vector.length_toList])

theorem maxFrom_eq (i : Nat) (ws : List UInt64) (h : i ≤ 1023) :
    maxFrom i ws = some (Words.maxFrom i ws) := by
  induction ws generalizing i with
  | nil => rfl
  | cons w ws ih =>
    rw [maxFrom, Words.maxFrom]
    split
    · exact ih _ (by omega)
    · rename_i hw
      have hhigh := (Word.test_highest hw).1
      have hplace : 64 * i + 63 - leadingZeros w = 64 * i + Word.highest w := by
        unfold leadingZeros
        omega
      rw [bind_of_eq (minus_of_le (by unfold leadingZeros; omega)), hplace,
        bind_of_eq (to16_of_lt (by omega))]

theorem max?_eq (ws : Words) : max? ws = some (Words.max? ws) :=
  maxFrom_eq 1023 _ (Nat.le_refl _)

theorem rank_eq (ws : Words) (v : UInt16) : rank ws v = some (Words.rank ws v) := by
  have hslot := slot_lt v
  have hbit := bit_lt v
  have hsum := foldlM_sum (fun _ w => w) ws 0 (v.toNat / 64) 0 (by omega) (by omega)
  have hle := Words.count_le ws
  have hbefore : sumFrom (fun _ w => Word.count w) ws 0 (v.toNat / 64) 0 ≤ 65536 := by
    have := count_mapFrom_add_sumFrom (f := fun _ _ => 0) (g := fun _ w => Word.count w)
      (fun _ w => by rw [Word.count_zero, Nat.zero_add]) ws 0 (v.toNat / 64) 0
    omega
  have hhere := Word.count_le (ws[v.toNat / 64] &&& Word.maskUpTo (v.toNat % 64))
  rw [rank, bind_of_eq (check_of (by omega)), bind_of_eq hsum, bind_of_eq (minus_of_le (by omega)),
    bind_of_eq (shr_of_lt (by omega) _), bind_of_eq (word_of_lt ws hslot)]
  exact to64_of_lt (by unfold Word.maskUpTo at hhere; omega)

/-- As long as set bits are left, the lowest one can be cleared. -/
theorem dropLowest_eq (w : UInt64) (n : Nat) (h : n < Word.count w) :
    dropLowest w n = some (Word.dropLowest w n) ∧ Word.dropLowest w n ≠ 0 := by
  induction n generalizing w with
  | zero =>
    refine ⟨rfl, fun hw => ?_⟩
    rw [show w = 0 from hw, Word.count_zero] at h
    omega
  | succ n ih =>
    have hw : w ≠ 0 := by
      rintro rfl
      rw [Word.count_zero] at h
      omega
    have hcount : Word.count w = Word.count (Word.clearLowest w) + 1 := by
      rw [← Word.length_positions, Word.positions_eq_cons hw, List.length_cons,
        Word.length_positions]
    rw [dropLowest, bind_of_eq (check_of (one_le_of_ne_zero hw))]
    exact ih _ (by omega)

theorem selectFrom_eq (n i : Nat) (ws : List UInt64) (seen : Nat) (h : i + ws.length ≤ 1024)
    (hle : seen ≤ n) (hseen : seen + ws.length * 64 ≤ 65536) :
    selectFrom n i ws seen = some (Words.selectFrom i ws (n - seen)) := by
  induction ws generalizing i seen with
  | nil => rfl
  | cons w ws ih =>
    have hcount := Word.count_le w
    rw [List.length_cons] at h hseen
    rw [selectFrom, bind_of_eq (to64_of_lt (by omega)), Words.selectFrom]
    split
    · obtain ⟨hdrop, hne⟩ := dropLowest_eq w (n - seen) (by omega)
      have hlow := Word.lowest_lt hne
      rw [bind_of_eq (minus_of_le hle), bind_of_eq hdrop, bind_of_eq (to16_of_lt (by omega)),
        if_pos (by omega)]
    · rw [ih _ _ (by omega) (by omega) (by omega), if_neg (by omega), Nat.sub_add_eq]

theorem select_eq (ws : Words) (n : Nat) : select ws n = some (Words.select ws n) :=
  selectFrom_eq n 0 _ 0 (by rw [Vector.length_toList]) (Nat.zero_le n)
    (by rw [Vector.length_toList])

/-! ## Runs -/

/-- Adds to `n` the number of runs that end in word `i`, which is `w`, and those after it. -/
def numRunsAt (ws : Words) (i : Nat) (w : UInt64) (n : Nat) : Option Nat :=
  if i < 1023 then do
    let next ← ws[i + 1]?
    numRunsAt ws (i + 1) next (← to64 (n + Word.runEnds w (Word.test next 0)))
  else to64 (n + Word.runEnds w false)
termination_by 1023 - i

def numRuns (ws : Words) : Option Nat := do numRunsAt ws 0 (← ws[0]?) 0

/-- Appends the maximal runs of what is left of word `i`, which is `w`, and of all later words. -/
def runsFrom (ws : Words) (start : Option Nat) (i : Nat) (w : UInt64) (out : Array Run) :
    Option (Array Run) :=
  match start with
  | none =>
    if h : w = 0 then
      if i < 1023 then do runsFrom ws none (i + 1) (← ws[i + 1]?) out else some out
    else do
      check (1 ≤ w)
      runsFrom ws (some (64 * i + Word.lowest w)) i (Word.fillBelow w) out
  | some first =>
    if w = Word.allOnes then
      if i < 1023 then do runsFrom ws (some first) (i + 1) (← ws[i + 1]?) out
      else do some (out.push (← Run.Checked.ofBounds first domainSize))
    else do
      let run ← Run.Checked.ofBounds first (64 * i + Word.lowest (~~~w))
      runsFrom ws none i (Word.clearBelow w) (out.push run)
termination_by
  (1023 - i, if start.isSome then 2 * (Word.clearBelow w).toNat + 1 else 2 * w.toNat)
decreasing_by
  · exact Prod.Lex.left _ _ (by omega)
  · apply Prod.Lex.right
    have := Word.clearBelow_fillBelow_lt h
    simp only [Option.isSome_some, Option.isSome_none, if_true, Bool.false_eq_true, if_false]
    omega
  · exact Prod.Lex.left _ _ (by omega)
  · apply Prod.Lex.right
    simp only [Option.isSome_some, Option.isSome_none, if_true, Bool.false_eq_true, if_false]
    omega

/-- The maximal runs of consecutive values. -/
def runs (ws : Words) : Option (Array Run) := do runsFrom ws none 0 (← ws[0]?) #[]

theorem runEnds_le (w : UInt64) (nextSet : Bool) : Word.runEnds w nextSet ≤ 65 := by
  have hle := Word.count_le (~~~w &&& (w <<< 1))
  unfold Word.runEnds
  split <;> omega

theorem numRunsAt_eq (ws : Words) (i : Nat) (w : UInt64) (n : Nat) (h : After ws i rest)
    (hn : n + (rest.length + 1) * 65 < 2 ^ 63) :
    numRunsAt ws i w n = some (numRunsFrom w rest n) := by
  induction rest generalizing i w n with
  | nil =>
    have hends := runEnds_le w false
    rw [numRunsAt, if_neg (by have := h.nil_iff.mp rfl; omega), numRunsFrom]
    exact to64_of_lt (by omega)
  | cons w' rest ih =>
    have hbound := h.1
    have hends := runEnds_le w (Word.test w' 0)
    rw [List.length_cons] at hbound hn
    rw [numRunsAt, if_pos (by omega), bind_of_eq h.head, bind_of_eq (to64_of_lt (by omega)),
      numRunsFrom]
    exact ih _ _ _ h.tail (by omega)

theorem numRuns_eq (ws : Words) : numRuns ws = some (Words.numRuns ws) := by
  obtain ⟨w, rest, hws, hhead, hafter⟩ := exists_cons ws
  have hlen := hafter.1
  rw [numRuns, bind_of_eq hhead, numRunsAt_eq ws 0 w 0 hafter (by omega), Words.numRuns, hws]

theorem runsFrom_eq (ws : Words) (start : Option Nat) (i : Nat) (w : UInt64) (out : List Run)
    (hafter : After ws i rest) (h : Walk start i w rest out) :
    runsFrom ws start i w (Runs.finish out) =
      some (Runs.finish (Words.runsFrom start i w rest out)) := by
  fun_induction Words.runsFrom start i w rest out with
  | case1 i out =>
    have hlast := hafter.nil_iff.mp rfl
    rw [runsFrom]
    simp only [dif_pos, if_neg (show ¬i < 1023 by omega)]
  | case2 i out w rest ih =>
    have hbound := hafter.1
    rw [List.length_cons] at hbound
    rw [runsFrom]
    simp only [dif_pos, if_pos (show i < 1023 by omega)]
    rw [bind_of_eq hafter.head]
    exact ih hafter.tail h.nextWord
  | case3 i w rest out hw ih =>
    rw [runsFrom]
    simp only [dif_neg hw]
    rw [bind_of_eq (check_of (one_le_of_ne_zero hw))]
    exact ih hafter (h.enter hw).1
  | case4 i out first =>
    have hlast := hafter.nil_iff.mp rfl
    have hfirst := (h.begun first rfl).1
    have hdomain : 64 * (i + 1) = domainSize := by
      rw [hlast]
      rfl
    rw [runsFrom]
    simp only [if_true, if_neg (show ¬i < 1023 by omega)]
    rw [hdomain] at hfirst
    rw [bind_of_eq (Run.Checked.ofBounds_eq hfirst (Nat.le_refl _)), hdomain,
      Runs.Checked.finish_cons]
  | case5 i out first w rest ih =>
    have hbound := hafter.1
    rw [List.length_cons] at hbound
    rw [runsFrom]
    simp only [if_true, if_pos (show i < 1023 by omega)]
    rw [bind_of_eq hafter.head]
    exact ih hafter.tail h.goOn.1
  | case6 i w rest out first hw ih =>
    have hbound := hafter.1
    have hclear := Word.firstClear_lt hw
    rw [runsFrom]
    simp only [if_neg hw]
    rw [bind_of_eq (Run.Checked.ofBounds_eq (h.lt_firstClear hw) (by omega)),
      ← Runs.Checked.finish_cons]
    exact ih hafter (h.leave hw).1

theorem runs_eq (ws : Words) : runs ws = some (Words.runs ws) := by
  obtain ⟨w, rest, hws, hhead, hafter⟩ := exists_cons ws
  have hlen := hafter.1
  have hwalk : Walk none 0 w rest [] := ⟨by omega, Runs.stacked_nil, by simp, by simp⟩
  rw [runs, bind_of_eq hhead, Words.runs, hws]
  exact runsFrom_eq ws none 0 w [] hafter hwalk

end Roaring.Words.Checked
