import Mathlib.Algebra.Group.Int.Defs
import Roaring.Proofs.Bitset.Query
import Roaring.Proofs.Checked.Machine

/-!
# Word vectors, checked

Every word is read and written at an index, every mask is a shift by less than 64, and bits are
counted in 32 bits. An operation on a range takes the first word it reaches, those in between and
the last one, all of which exist exactly when the range ends within the domain.
-/
namespace Roaring

namespace Machine

/-- A shift to the left by less than the width of a word. -/
def shl (w : UInt64) (n : Nat) : Option UInt64 := if n < 64 then some (w <<< n.toUInt64) else none

/-- A shift to the right by less than the width of a word. -/
def shr (w : UInt64) (n : Nat) : Option UInt64 := if n < 64 then some (w >>> n.toUInt64) else none

/-- A signed number. -/
def toInt64 (z : Int) : Option Int := if -2 ^ 63 ≤ z ∧ z < 2 ^ 63 then some z else none

@[simp] theorem shl_of_lt {n : Nat} (h : n < 64) (w : UInt64) : shl w n = some (w <<< n.toUInt64) :=
  if_pos h

@[simp] theorem shr_of_lt {n : Nat} (h : n < 64) (w : UInt64) : shr w n = some (w >>> n.toUInt64) :=
  if_pos h

theorem toInt64_of_lt {z : Int} (h : -2 ^ 63 ≤ z ∧ z < 2 ^ 63) : toInt64 z = some z := if_pos h

end Machine

namespace Word

theorem count_le (w : UInt64) : count w ≤ 64 := by
  rw [← length_positions, positions]
  exact Nat.le_trans (List.length_filter_le ..) (by simp)

end Word

namespace Words

theorem count_le (ws : Words) : ws.count ≤ 65536 := by
  rw [count_eq_countP]
  exact Nat.le_trans List.countP_le_length (Nat.le_of_eq length_domain)

namespace Checked

open Machine

variable {ws : Words} {i : Nat}

/-- Replaces the word at an index. -/
def storeWord (ws : Words) (i : Nat) (w : UInt64) : Option Words :=
  if h : i < 1024 then some (ws.set i w) else none

theorem word_of_lt (ws : Words) (h : i < 1024) : ws[i]? = some ws[i] := Vector.getElem?_eq_getElem h

theorem storeWord_of_lt (ws : Words) (h : i < 1024) (w : UInt64) :
    storeWord ws i w = some (ws.set i w) := dif_pos h

/-! ## One value -/

def test (ws : Words) (v : UInt16) : Option Bool := do
  let w ← ws[v.toNat / 64]?
  some ((← shr w (v.toNat % 64)) &&& 1 = 1)

/-- Applies `f` to the word of `v` and the bit of `v` in it. -/
def update (f : UInt64 → UInt64 → UInt64) (ws : Words) (v : UInt16) : Option Words := do
  let bit ← shl 1 (v.toNat % 64)
  let w ← ws[v.toNat / 64]?
  storeWord ws (v.toNat / 64) (f w bit)

def put (ws : Words) (v : UInt16) : Option Words := update (· ||| ·) ws v

def clear (ws : Words) (v : UInt16) : Option Words := update (fun w b => w &&& ~~~b) ws v

def flip (ws : Words) (v : UInt16) : Option Words := update (· ^^^ ·) ws v

@[simp] theorem test_eq (ws : Words) (v : UInt16) : test ws v = some (Words.test ws v) := by
  rw [test, bind_of_eq (word_of_lt ws (slot_lt v)), bind_of_eq (shr_of_lt (bit_lt v) _)]
  rfl

theorem update_eq (f : UInt64 → UInt64 → UInt64) (ws : Words) (v : UInt16) :
    update f ws v = some (Words.update f ws v) := by
  rw [update, bind_of_eq (shl_of_lt (bit_lt v) _), bind_of_eq (word_of_lt ws (slot_lt v)),
    storeWord_of_lt ws (slot_lt v)]
  rfl

theorem put_eq (ws : Words) (v : UInt16) : put ws v = some (Words.put ws v) := update_eq _ ws v

theorem clear_eq (ws : Words) (v : UInt16) : clear ws v = some (Words.clear ws v) :=
  update_eq _ ws v

theorem flip_eq (ws : Words) (v : UInt16) : flip ws v = some (Words.flip ws v) := update_eq _ ws v

/-! ## Counts -/

/-- The number of set bits. -/
def count (ws : Words) : Option Nat :=
  ws.toList.foldlM (fun n w => to32 (n + Word.count w)) 0

theorem count_eq (ws : Words) : count ws = some (Words.count ws) := by
  have hplain : Words.count ws = ws.toList.foldl (fun n w => n + Word.count w) 0 := by
    rw [Words.count, ← Vector.foldl_toList]
    exact congrArg (fun f => ws.toList.foldl f 0)
      (funext fun n => funext fun w => Word.countFrom_eq w n)
  rw [count, hplain]
  refine foldlM_eq_some (fun n rest => n + rest.length * 64 ≤ 65536) ?_ _ _ ?_
  · intro n w rest hn
    have hw := Word.count_le w
    rw [List.length_cons] at hn
    exact ⟨to32_of_lt (by omega), by omega⟩
  · simp

/-! ## A list of values -/

/-- Adds to `n` where something is the case. -/
def tally (b : Bool) (n : Nat) : Option Nat := if b then to64 (n + 1) else some n

def putAll (ws : Words) (vs : Array UInt16) : Option (Words × Nat) :=
  vs.toList.foldlM (fun (ws, n) v => do
    let n ← tally (!(← test ws v)) n
    some (← put ws v, n)) (ws, 0)

def clearAll (ws : Words) (vs : Array UInt16) : Option (Words × Nat) :=
  vs.toList.foldlM (fun (ws, n) v => do
    let n ← tally (← test ws v) n
    some (← clear ws v, n)) (ws, 0)

def flipAll (ws : Words) (vs : Array UInt16) : Option (Words × Int) :=
  vs.toList.foldlM (fun (ws, n) v => do
    let n ← toInt64 (if ← test ws v then n - 1 else n + 1)
    some (← flip ws v, n)) (ws, 0)

theorem tally_eq {n : Nat} (b : Bool) (hn : n < 2 ^ 63) :
    tally b n = some (if b then n + 1 else n) := by
  unfold tally
  split
  · exact to64_of_lt (by omega)
  · rfl

/-- What is counted while bits are set is what the vector has gained. -/
theorem putAll_eq (ws : Words) (vs : Array UInt16) : putAll ws vs = some (Words.putAll ws vs) := by
  rw [putAll, Words.putAll, ← Array.foldl_toList]
  refine foldlM_eq_some (fun r _ => r.1.count = ws.count + r.2) ?_ _ _ rfl
  rintro ⟨ws', n⟩ v rest hn
  dsimp only at hn ⊢
  have hle := count_le ws'
  rw [bind_of_eq (test_eq ws' v), bind_of_eq (tally_eq _ (by omega)), bind_of_eq (put_eq ws' v),
    count_put]
  cases Words.test ws' v
  · exact ⟨rfl, by simp only [Bool.false_eq_true, if_false]; omega⟩
  · exact ⟨rfl, hn⟩

/-- What is counted while bits are cleared is what the vector has lost. -/
theorem clearAll_eq (ws : Words) (vs : Array UInt16) :
    clearAll ws vs = some (Words.clearAll ws vs) := by
  rw [clearAll, Words.clearAll, ← Array.foldl_toList]
  refine foldlM_eq_some (fun r _ => r.1.count + r.2 = ws.count) ?_ _ _ rfl
  rintro ⟨ws', n⟩ v rest hn
  dsimp only at hn ⊢
  have hle := count_le ws
  have hpos : Words.test ws' v → 0 < ws'.count := count_pos_of_test
  rw [bind_of_eq (test_eq ws' v), bind_of_eq (tally_eq _ (by omega)), bind_of_eq (clear_eq ws' v),
    count_clear]
  cases hv : Words.test ws' v
  · exact ⟨rfl, hn⟩
  · have hpos := hpos hv
    exact ⟨rfl, by simp only [if_true]; omega⟩

/-- What is counted while bits are flipped is the difference between what the vector has gained and
lost. -/
theorem flipAll_eq (ws : Words) (vs : Array UInt16) :
    flipAll ws vs = some (Words.flipAll ws vs) := by
  rw [flipAll, Words.flipAll, ← Array.foldl_toList]
  refine foldlM_eq_some (fun r _ => (r.1.count : Int) = ws.count + r.2) ?_ _ _
    (by simp)
  rintro ⟨ws', n⟩ v rest hn
  dsimp only at hn ⊢
  have hle := count_le ws
  have hle' := count_le ws'
  have hbound : -2 ^ 63 ≤ (if Words.test ws' v then n - 1 else n + 1) ∧
      (if Words.test ws' v then n - 1 else n + 1) < 2 ^ 63 := by
    split <;> omega
  rw [bind_of_eq (test_eq ws' v), bind_of_eq (toInt64_of_lt hbound), bind_of_eq (flip_eq ws' v),
    count_flip]
  refine ⟨rfl, ?_⟩
  split <;> omega

/-! ## A range of values -/

/-- Takes a step with the bits `from_` of a first word, the slice of the words in between, and the
bits `upTo` of a last one. -/
def visitWords {β : Type} (step : β → Nat → UInt64 → Option β) (first last : Nat)
    (from_ upTo : UInt64) (b : β) : Option β :=
  if first = last then step b first (from_ &&& upTo)
  else do
    let b ← step b first from_
    check (first + 1 ≤ last ∧ last ≤ 1024)
    let b ← (List.range' (first + 1) (last - (first + 1))).foldlM
      (fun b i => step b i Word.allOnes) b
    step b last upTo

/-- Takes a step with each word that a range reaches and the bits of the range in it. -/
def visitRange {β : Type} (step : β → Nat → UInt64 → Option β) (start stop : Nat) (b : β) :
    Option β :=
  if stop ≤ start then some b
  else do
    let last := (← minus stop 1) / 64
    let from_ ← shl Word.allOnes (start % 64)
    let upTo ← shr Word.allOnes ((← minus 64 (stop % 64)) % 64)
    visitWords step (start / 64) last from_ upTo b

/-- Applies `f` to each word that a range reaches and the bits of the range in it. -/
def mapRange (f : UInt64 → UInt64 → UInt64) (ws : Words) (start stop : Nat) : Option Words :=
  visitRange (fun ws i mask => do storeWord ws i (f (← ws[i]?) mask)) start stop ws

def putRange (ws : Words) (start stop : Nat) : Option Words := mapRange (· ||| ·) ws start stop

def clearRange (ws : Words) (start stop : Nat) : Option Words :=
  mapRange (fun w m => w &&& ~~~m) ws start stop

def flipRange (ws : Words) (start stop : Nat) : Option Words := mapRange (· ^^^ ·) ws start stop

/-- The number of set bits in a range. -/
def countRange (ws : Words) (start stop : Nat) : Option Nat :=
  visitRange (fun n i mask => do to32 (n + Word.count ((← ws[i]?) &&& mask))) start stop 0

/-- Whether every bit of a range is set. -/
def testRange (ws : Words) (start stop : Nat) : Option Bool :=
  visitRange (fun held i mask => do some (held && decide ((← ws[i]?) &&& mask = mask)))
    start stop true

theorem foldlM_congr {α β : Type} {f g : β → α → Option β} (xs : List α) (b : β)
    (h : ∀ x ∈ xs, ∀ b, f b x = g b x) : xs.foldlM f b = xs.foldlM g b := by
  induction xs generalizing b with
  | nil => rfl
  | cons x xs ih =>
    rw [List.foldlM_cons, List.foldlM_cons, h x List.mem_cons_self]
    exact congrArg _ (funext fun b => ih b fun y hy => h y (List.mem_cons_of_mem _ hy))

/-- The bits up to the end of a range, counted down from the width of a word. -/
theorem upTo_eq {stop : Nat} (h : 0 < stop) :
    (64 - stop % 64) % 64 = 63 - (stop - 1) % 64 := by
  omega

section Reached

variable {start stop : Nat} (h : start < stop)

include h

theorem range'_rangeLength : List.range' (start / 64) (rangeLength start stop) =
    if start / 64 = (stop - 1) / 64 then [start / 64]
    else start / 64 :: List.range' (start / 64 + 1) ((stop - 1) / 64 - (start / 64 + 1)) ++
      [(stop - 1) / 64] := by
  rw [rangeLength, if_pos h]
  split
  · rename_i hsame
    rw [show (stop - 1) / 64 + 1 - start / 64 = 1 by omega, List.range'_one]
  · rename_i hne
    obtain ⟨k, hk⟩ : ∃ k, (stop - 1) / 64 = start / 64 + 1 + k :=
      ⟨(stop - 1) / 64 - (start / 64 + 1), by omega⟩
    rw [hk, show start / 64 + 1 + k + 1 - start / 64 = k + 1 + 1 by omega, List.range'_succ,
      List.range'_1_concat, Nat.add_sub_cancel_left]
    rfl

/-- All words that a range in the domain reaches are there. -/
theorem visitWords_eq {β : Type} (step : β → Nat → UInt64 → Option β) (h' : stop ≤ 65536) (b : β) :
    visitWords step (start / 64) ((stop - 1) / 64) (Word.maskFrom (start % 64))
        (Word.maskUpTo ((stop - 1) % 64)) b =
      (List.range' (start / 64) (rangeLength start stop)).foldlM
        (fun b i => step b i (rangeMask start stop i)) b := by
  rw [range'_rangeLength h, visitWords]
  split
  · rename_i hsame
    rw [List.foldlM_cons, rangeMask, if_pos rfl, if_pos hsame]
    exact (bind_pure _).symm
  · rename_i hne
    rw [List.cons_append, List.foldlM_cons, rangeMask, if_pos rfl, if_neg hne, Word.and_allOnes]
    refine congrArg _ (funext fun b => ?_)
    have hmiddle : ∀ i ∈ List.range' (start / 64 + 1) ((stop - 1) / 64 - (start / 64 + 1)),
        ∀ b, step b i Word.allOnes = step b i (rangeMask start stop i) := by
      intro i hi b
      have hi := List.mem_range'_1.mp hi
      rw [rangeMask, if_neg (by omega), if_neg (by omega), Word.and_allOnes]
    rw [bind_of_eq (check_of ⟨by omega, by omega⟩), List.foldlM_append, foldlM_congr _ b hmiddle]
    refine congrArg _ (funext fun b => ?_)
    rw [List.foldlM_cons, rangeMask, if_neg (Ne.symm hne), if_pos rfl, Word.allOnes_and]
    exact (bind_pure _).symm

theorem visitRange_of_lt {β : Type} (step : β → Nat → UInt64 → Option β) (b : β) :
    visitRange step start stop b =
      visitWords step (start / 64) ((stop - 1) / 64) (Word.maskFrom (start % 64))
        (Word.maskUpTo ((stop - 1) % 64)) b := by
  have hfrom : start % 64 < 64 := Nat.mod_lt _ (by decide)
  have hupTo : (64 - stop % 64) % 64 < 64 := Nat.mod_lt _ (by decide)
  rw [visitRange, if_neg (by omega), bind_of_eq (minus_of_le (by omega)),
    bind_of_eq (shl_of_lt hfrom _), bind_of_eq (minus_of_le (by omega)),
    bind_of_eq (shr_of_lt hupTo _), upTo_eq (by omega)]
  rfl

end Reached

theorem visitRange_eq {β : Type} (step : β → Nat → UInt64 → Option β) {start stop : Nat}
    (h : stop ≤ 65536) (b : β) :
    visitRange step start stop b =
      (List.range' (start / 64) (rangeLength start stop)).foldlM
        (fun b i => step b i (rangeMask start stop i)) b := by
  by_cases hlt : start < stop
  · rw [visitRange_of_lt hlt, visitWords_eq hlt step h]
  · rw [visitRange, if_pos (by omega), rangeLength, if_neg hlt]
    rfl

theorem bind_eq_none {α β : Type} {o : Option α} {rest : α → Option β} (h : ∀ a, rest a = none) :
    (o >>= rest) = none := by
  cases o with
  | none => rfl
  | some a => exact h a

/-- The last word that a range past the domain reaches is not there. -/
theorem visitRange_eq_none {β : Type} {step : β → Nat → UInt64 → Option β}
    (hstep : ∀ b i mask, 1024 ≤ i → step b i mask = none) {start stop : Nat} (hlt : start < stop)
    (h : 65536 < stop) (b : β) : visitRange step start stop b = none := by
  rw [visitRange_of_lt hlt, visitWords]
  split
  · exact hstep _ _ _ (by omega)
  · exact bind_eq_none fun b => bind_eq_none fun _ => bind_eq_none fun b =>
      hstep _ _ _ (by omega)

theorem foldlM_storeWord (g : Nat → UInt64 → UInt64) (ws : Words) (i n : Nat) (h : i + n ≤ 1024) :
    (List.range' i n).foldlM (fun ws j => do storeWord ws j (g j (← ws[j]?))) ws =
      some (mapFrom g ws i n) := by
  induction n generalizing ws i with
  | zero => rfl
  | succ n ih =>
    have hi : i < 1024 := by omega
    rw [List.range'_succ, List.foldlM_cons, bind_of_eq (word_of_lt ws hi), mapFrom, dif_pos hi,
      bind_of_eq (storeWord_of_lt ws hi _)]
    exact ih _ _ (by omega)

theorem foldlM_sum (g : Nat → UInt64 → UInt64) (ws : Words) (i n acc : Nat) (h : i + n ≤ 1024)
    (hacc : acc + n * 64 ≤ 65536) :
    (List.range' i n).foldlM (fun acc j => do to32 (acc + Word.count (g j (← ws[j]?)))) acc =
      some (sumFrom (fun j w => Word.count (g j w)) ws i n acc) := by
  induction n generalizing i acc with
  | zero => rfl
  | succ n ih =>
    have hi : i < 1024 := by omega
    have hle := Word.count_le (g i ws[i])
    rw [List.range'_succ, List.foldlM_cons, bind_of_eq (word_of_lt ws hi), sumFrom, dif_pos hi,
      bind_of_eq (to32_of_lt (by omega))]
    exact ih _ _ (by omega) (by omega)

theorem foldlM_all (p : Nat → UInt64 → Bool) (ws : Words) (i n : Nat) (h : i + n ≤ 1024)
    (held : Bool) :
    (List.range' i n).foldlM (fun held j => do some (held && p j (← ws[j]?))) held =
      some (held && allFrom p ws i n) := by
  induction n generalizing i held with
  | zero => rw [allFrom, Bool.and_true]; rfl
  | succ n ih =>
    have hi : i < 1024 := by omega
    rw [List.range'_succ, List.foldlM_cons, bind_of_eq (word_of_lt ws hi), allFrom, dif_pos hi,
      ← Bool.and_assoc]
    exact ih _ (by omega) _

section Range

variable {start stop : Nat}

theorem word_of_ge (ws : Words) (h : 1024 ≤ i) : ws[i]? = none :=
  Vector.getElem?_eq_none h

theorem rangeLength_le (start : Nat) (h : stop ≤ 65536) :
    start / 64 + rangeLength start stop ≤ 1024 ∨ rangeLength start stop = 0 := by
  unfold rangeLength
  split
  · omega
  · exact .inr rfl

theorem mapRange_eq (f : UInt64 → UInt64 → UInt64) (ws : Words) (h : stop ≤ 65536) :
    mapRange f ws start stop = some (Words.mapRange f ws start stop) := by
  rw [mapRange, visitRange_eq _ h, Words.mapRange]
  rcases rangeLength_le start h with hlen | hlen
  · exact foldlM_storeWord (fun i w => f w (rangeMask start stop i)) ws _ _ hlen
  · rw [hlen]
    rfl

theorem mapRange_eq_none (f : UInt64 → UInt64 → UInt64) (ws : Words) (hlt : start < stop)
    (h : 65536 < stop) : mapRange f ws start stop = none := by
  refine visitRange_eq_none (fun ws i mask hi => ?_) hlt h ws
  rw [word_of_ge ws hi]
  rfl

theorem countRange_eq (ws : Words) (h : stop ≤ 65536) :
    countRange ws start stop = some (Words.countRange ws start stop) := by
  rw [countRange, visitRange_eq _ h, Words.countRange]
  rcases rangeLength_le start h with hlen | hlen
  · exact foldlM_sum (fun i w => w &&& rangeMask start stop i) ws _ _ 0 hlen (by omega)
  · rw [hlen]
    rfl

theorem countRange_eq_none (ws : Words) (hlt : start < stop) (h : 65536 < stop) :
    countRange ws start stop = none := by
  refine visitRange_eq_none (fun n i mask hi => ?_) hlt h 0
  rw [word_of_ge ws hi]
  rfl

theorem testRange_eq (ws : Words) (h : stop ≤ 65536) :
    testRange ws start stop = some (Words.testRange ws start stop) := by
  rw [testRange, visitRange_eq _ h, Words.testRange]
  rcases rangeLength_le start h with hlen | hlen
  · exact foldlM_all (fun i w => decide (w &&& rangeMask start stop i = rangeMask start stop i))
      ws _ _ hlen true
  · rw [hlen]
    rfl

end Range

end Checked

end Words

end Roaring
