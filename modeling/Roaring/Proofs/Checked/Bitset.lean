import Roaring.Proofs.Bitset.Runs
import Roaring.Proofs.Checked.Bitset.Scan

/-!
# Bitsets, checked

A known number of values is brought up to date by a signed change, which never takes it below zero
because it is exact. A range given by a caller is the one thing that can go wrong: the four
operations that take one stop exactly on a range that holds a value past the domain.
-/
namespace Roaring.Bitset.Checked

open Machine

/-! ## The number of values -/

/-- The number of values after a change, if it is known. -/
def update (cached : Option Nat) (change : Int) : Option (Option Nat) :=
  match cached with
  | none => some none
  | some n => do
    let z ← toInt64 (n + change)
    check (0 ≤ z)
    some (some z.toNat)

/-- New words, of which there are `change` more values than before. -/
def replace (b : Bitset) (ws : Words) (change : Int) : Option Bitset := do
  some ⟨ws, ← update b.cached change⟩

/-- A bitset of which the number of values is known. -/
def counted (ws : Words) : Option Bitset := do some ⟨ws, some (← Words.Checked.count ws)⟩

def card (b : Bitset) : Option Nat :=
  match b.cached with
  | some n => some n
  | none => Words.Checked.count b.words

def isFull (b : Bitset) : Option Bool := do some ((← card b) = domainSize)

/-- Stores the number of values. -/
def recount (b : Bitset) : Option Bitset := counted b.words

section Update

variable {b : Bitset} (h : b.Exact)

theorem update_eq {n : Nat} {change : Int} (hn : n ≤ 65536)
    (hchange : 0 ≤ n + change ∧ change ≤ 65536) :
    update (some n) change = some (some (n + change).toNat) := by
  rw [update, bind_of_eq (toInt64_of_lt (by omega)), bind_of_eq (check_of hchange.1)]

theorem counted_eq (ws : Words) : counted ws = some (Bitset.counted ws) :=
  bind_of_eq (Words.Checked.count_eq ws) _

theorem recount_eq (b : Bitset) : recount b = some b.recount := counted_eq b.words

theorem card_eq (b : Bitset) : card b = some b.card := by
  unfold card Bitset.card
  cases b.cached with
  | none => exact Words.Checked.count_eq b.words
  | some n => rfl

theorem isFull_eq (b : Bitset) : isFull b = some b.isFull := bind_of_eq (card_eq b) _

include h

theorem replace_eq {ws : Words} {change : Int} (hc : (ws.count : Int) = b.words.count + change) :
    replace b ws change = some (b.replace ws change) := by
  have hws := Words.count_le ws
  have hold := Words.count_le b.words
  unfold replace Bitset.replace
  cases hcached : b.cached with
  | none => rfl
  | some n =>
    have hn := h n hcached
    exact bind_of_eq (update_eq (by omega) (by omega)) _

end Update

/-! ## Single values and lists -/

def contains (b : Bitset) (v : UInt16) : Option Bool := Words.Checked.test b.words v

/-- Adds a value; also whether it was absent. -/
def insert (b : Bitset) (v : UInt16) : Option (Bool × Bitset) := do
  if ← Words.Checked.test b.words v then some (false, b)
  else do some (true, ← replace b (← Words.Checked.put b.words v) 1)

/-- Removes a value; also whether it was there. -/
def erase (b : Bitset) (v : UInt16) : Option (Bool × Bitset) := do
  if ← Words.Checked.test b.words v then do
    some (true, ← replace b (← Words.Checked.clear b.words v) (-1))
  else some (false, b)

/-- Adds the values of a list. -/
def insertAll (b : Bitset) (vs : Array UInt16) : Option Bitset := do
  let (ws, n) ← Words.Checked.putAll b.words vs
  replace b ws (← toInt64 n)

/-- Removes the values of a list. -/
def eraseAll (b : Bitset) (vs : Array UInt16) : Option Bitset := do
  let (ws, n) ← Words.Checked.clearAll b.words vs
  replace b ws (-(← toInt64 n))

/-- Toggles a value for each of its occurrences in a list. -/
def toggleAll (b : Bitset) (vs : Array UInt16) : Option Bitset := do
  let (ws, n) ← Words.Checked.flipAll b.words vs
  replace b ws n

/-- The set of the values of a list. -/
def ofValues (vs : Array UInt16) : Option Bitset := insertAll empty vs

theorem contains_eq (b : Bitset) (v : UInt16) : contains b v = some (b.contains v) :=
  Words.Checked.test_eq b.words v

section Values

variable {b : Bitset} (h : b.Exact)

include h

theorem insert_eq (v : UInt16) : insert b v = some (b.insert v) := by
  rw [insert, bind_of_eq (Words.Checked.test_eq b.words v), Bitset.insert]
  split
  · rfl
  · rename_i hv
    rw [bind_of_eq (Words.Checked.put_eq b.words v),
      bind_of_eq (replace_eq h (by rw [Words.count_put, if_neg hv]; omega))]

theorem erase_eq (v : UInt16) : erase b v = some (b.erase v) := by
  rw [erase, bind_of_eq (Words.Checked.test_eq b.words v), Bitset.erase]
  split
  · rename_i hv
    have hpos := Words.count_pos_of_test hv
    rw [bind_of_eq (Words.Checked.clear_eq b.words v),
      bind_of_eq (replace_eq h (by rw [Words.count_clear, if_pos hv]; omega))]
  · rfl

theorem insertAll_eq (vs : Array UInt16) : insertAll b vs = some (b.insertAll vs) := by
  have hc := (Words.putAll_spec b.words vs).2
  rcases hnew : b.words.putAll vs with ⟨ws, n⟩
  rw [hnew] at hc
  dsimp only at hc
  have hle := Words.count_le ws
  rw [insertAll, bind_of_eq ((Words.Checked.putAll_eq b.words vs).trans (congrArg some hnew)),
    Bitset.insertAll, hnew]
  dsimp only
  rw [bind_of_eq (toInt64_of_lt (by omega)), replace_eq h (by omega)]

theorem eraseAll_eq (vs : Array UInt16) : eraseAll b vs = some (b.eraseAll vs) := by
  have hc := (Words.clearAll_spec b.words vs).2
  rcases hnew : b.words.clearAll vs with ⟨ws, n⟩
  rw [hnew] at hc
  dsimp only at hc
  have hle := Words.count_le b.words
  rw [eraseAll, bind_of_eq ((Words.Checked.clearAll_eq b.words vs).trans (congrArg some hnew)),
    Bitset.eraseAll, hnew]
  dsimp only
  rw [bind_of_eq (toInt64_of_lt (by omega)), replace_eq h (by omega)]

theorem toggleAll_eq (vs : Array UInt16) : toggleAll b vs = some (b.toggleAll vs) := by
  rw [toggleAll, bind_of_eq (Words.Checked.flipAll_eq b.words vs)]
  exact replace_eq h (Words.flipAll_spec b.words vs).2

end Values

theorem ofValues_eq (vs : Array UInt16) : ofValues vs = some (Bitset.ofValues vs) :=
  insertAll_eq exact_empty vs

/-! ## Ranges -/

/-- Whether every value of `[start, stop)` is held. -/
def containsRange (b : Bitset) (start stop : Nat) : Option Bool :=
  if stop ≤ start then some true
  else if domainSize < stop then some false
  else Words.Checked.testRange b.words start stop

/-- The number of values in `[start, stop)`. -/
def countRange (b : Bitset) (start stop : Nat) : Option Nat :=
  Words.Checked.countRange b.words start stop

/-- How much more `m` is than `n`. -/
def growth (m n : Nat) : Option Int := do toInt64 ((← toInt64 m) - (← toInt64 n))

/-- Changes a range of values. A known number of values is kept by counting the range: `delta` tells
by how much it changes, given the size of the range and how many of its values were there. -/
def changeRange (change : Words → Nat → Nat → Option Words) (delta : Nat → Nat → Option Int)
    (b : Bitset) (start stop : Nat) : Option Bitset :=
  if stop ≤ start then some b
  else
    match b.cached with
    | none => do some ⟨← change b.words start stop, none⟩
    | some n => do
      let before ← Words.Checked.countRange b.words start stop
      let ws ← change b.words start stop
      let d ← delta (← minus stop start) before
      some ⟨ws, ← update (some n) d⟩

/-- Adds the values of `[start, stop)`. -/
def insertRange (b : Bitset) (start stop : Nat) : Option Bitset :=
  changeRange Words.Checked.putRange growth b start stop

/-- Removes the values of `[start, stop)`. -/
def eraseRange (b : Bitset) (start stop : Nat) : Option Bitset :=
  changeRange Words.Checked.clearRange (fun _ before => do some (-(← toInt64 before))) b start stop

/-- Toggles the values of `[start, stop)`. -/
def toggleRange (b : Bitset) (start stop : Nat) : Option Bitset :=
  changeRange Words.Checked.flipRange (fun size before => do
    growth (← minus size before) before) b start stop

theorem growth_eq {m n : Nat} (hm : m ≤ 65536) (hn : n ≤ 65536) :
    growth m n = some ((m : Int) - n) := by
  rw [growth, bind_of_eq (toInt64_of_lt (by omega)), bind_of_eq (toInt64_of_lt (by omega)),
    toInt64_of_lt (by omega)]

theorem containsRange_eq (b : Bitset) (start stop : Nat) :
    containsRange b start stop = some (b.containsRange start stop) := by
  unfold containsRange Bitset.containsRange
  split
  · rfl
  · split
    · rfl
    · exact Words.Checked.testRange_eq b.words (by unfold domainSize at *; omega)

section Ranges

variable {b : Bitset} {start stop : Nat}

theorem countRange_le_size (ws : Words) (hlt : start < stop) (hs : stop ≤ 65536) :
    ws.countRange start stop ≤ stop - start := by
  rw [Words.countRange_eq_countP, ← Words.countP_inRange (Nat.le_of_lt hlt) hs]
  refine List.countP_mono_left fun v _ hv => ?_
  rw [Bool.and_eq_true] at hv
  exact hv.2

theorem changeRange_eq {change : Words → Nat → Nat → Option Words}
    {plain : Words → Nat → Nat → Words} {delta : Nat → Nat → Option Int} {after : Nat → Nat → Nat}
    (hchange : ∀ ws, change ws start stop = some (plain ws start stop))
    (hdelta : ∀ size before, before ≤ size → size ≤ 65536 →
      after size before ≤ size ∧ delta size before = some ((after size before : Int) - before))
    (h : b.Exact) (hs : stop ≤ 65536) :
    changeRange change delta b start stop = some (Bitset.changeRange plain after b start stop) := by
  unfold changeRange Bitset.changeRange
  by_cases hlt : start < stop
  · rw [if_neg (Nat.not_le.mpr hlt), if_pos hlt]
    cases hcached : b.cached with
    | none => exact bind_of_eq (hchange b.words) _
    | some n =>
      have hn := h n hcached
      have hcount := Words.count_le b.words
      have hsize := countRange_le_size b.words hlt hs
      have hbefore := Words.count_clearRange_add b.words start stop
      obtain ⟨hafter, hd⟩ := hdelta _ _ hsize (by omega)
      dsimp only
      rw [bind_of_eq (Words.Checked.countRange_eq b.words hs), bind_of_eq (hchange b.words),
        bind_of_eq (minus_of_le (Nat.le_of_lt hlt)), bind_of_eq hd,
        bind_of_eq (update_eq (by omega) (by omega))]
      refine congrArg some (congrArg _ ?_)
      rw [Option.map_some]
      exact congrArg some (by omega)
  · rw [if_pos (Nat.not_lt.mp hlt), if_neg hlt]

theorem changeRange_eq_none {change : Words → Nat → Nat → Option Words}
    {delta : Nat → Nat → Option Int} (hchange : ∀ ws, change ws start stop = none) (b : Bitset)
    (hlt : start < stop) (hs : 65536 < stop) : changeRange change delta b start stop = none := by
  unfold changeRange
  rw [if_neg (Nat.not_le.mpr hlt)]
  cases b.cached with
  | none =>
    dsimp only
    rw [hchange]
    rfl
  | some n =>
    dsimp only
    rw [Words.Checked.countRange_eq_none b.words hlt hs]
    rfl

/-- A range is fine, or it has a value and goes on past the domain. -/
theorem rangeOk_or (start stop : Nat) :
    (RangeOk start stop ∧ (stop ≤ 65536 ∨ stop ≤ start)) ∨
      ¬RangeOk start stop ∧ start < stop ∧ 65536 < stop := by
  unfold RangeOk domainSize
  omega

theorem countRange_eq (b : Bitset) (start stop : Nat) :
    countRange b start stop = b.countRange? start stop := by
  unfold countRange countRange?
  rcases rangeOk_or start stop with ⟨hok, hs | hs⟩ | ⟨hok, hlt, hs⟩
  · rw [if_pos hok, Words.Checked.countRange_eq b.words hs]
  · rw [if_pos hok, Words.Checked.countRange, Words.Checked.visitRange, if_pos hs,
      Words.countRange, Words.rangeLength, if_neg (Nat.not_lt.mpr hs)]
    rfl
  · rw [if_neg hok, Words.Checked.countRange_eq_none b.words hlt hs]

theorem changeRange_of_ge (change : Words → Nat → Nat → Option Words)
    (delta : Nat → Nat → Option Int) (plain : Words → Nat → Nat → Words) (after : Nat → Nat → Nat)
    (b : Bitset) (hs : stop ≤ start) :
    changeRange change delta b start stop = some (Bitset.changeRange plain after b start stop) := by
  rw [changeRange, if_pos hs, Bitset.changeRange, if_neg (Nat.not_lt.mpr hs)]

section Exact

variable (h : b.Exact) (start stop : Nat)

include h

theorem insertRange_eq : insertRange b start stop = b.insertRange? start stop := by
  unfold insertRange insertRange?
  rcases rangeOk_or start stop with ⟨hok, hs | hs⟩ | ⟨hok, hlt, hs⟩
  · rw [if_pos hok]
    exact changeRange_eq (fun ws => Words.Checked.mapRange_eq _ ws hs)
      (fun size before hb hsize => ⟨Nat.le_refl _, growth_eq hsize (by omega)⟩) h hs
  · rw [if_pos hok]
    exact changeRange_of_ge _ _ _ _ b hs
  · rw [if_neg hok]
    exact changeRange_eq_none (fun ws => Words.Checked.mapRange_eq_none _ ws hlt hs) b hlt hs

theorem eraseRange_eq : eraseRange b start stop = b.eraseRange? start stop := by
  unfold eraseRange eraseRange?
  rcases rangeOk_or start stop with ⟨hok, hs | hs⟩ | ⟨hok, hlt, hs⟩
  · rw [if_pos hok]
    refine changeRange_eq (fun ws => Words.Checked.mapRange_eq _ ws hs)
      (fun size before hb hsize => ⟨Nat.zero_le _, ?_⟩) h hs
    rw [bind_of_eq (toInt64_of_lt (by omega))]
    exact congrArg some (by omega)
  · rw [if_pos hok]
    exact changeRange_of_ge _ _ _ _ b hs
  · rw [if_neg hok]
    exact changeRange_eq_none (fun ws => Words.Checked.mapRange_eq_none _ ws hlt hs) b hlt hs

theorem toggleRange_eq : toggleRange b start stop = b.toggleRange? start stop := by
  unfold toggleRange toggleRange?
  rcases rangeOk_or start stop with ⟨hok, hs | hs⟩ | ⟨hok, hlt, hs⟩
  · rw [if_pos hok]
    refine changeRange_eq (fun ws => Words.Checked.mapRange_eq _ ws hs)
      (fun size before hb hsize => ⟨Nat.sub_le _ _, ?_⟩) h hs
    rw [bind_of_eq (minus_of_le hb), growth_eq (by omega) (by omega)]
  · rw [if_pos hok]
    exact changeRange_of_ge _ _ _ _ b hs
  · rw [if_neg hok]
    exact changeRange_eq_none (fun ws => Words.Checked.mapRange_eq_none _ ws hlt hs) b hlt hs

end Exact

end Ranges

/-! ## Runs of values -/

def insertRuns (b : Bitset) (runs : Array Run) : Option Bitset :=
  Runs.Checked.overRuns insertRange b runs

def eraseRuns (b : Bitset) (runs : Array Run) : Option Bitset :=
  Runs.Checked.overRuns eraseRange b runs

def toggleRuns (b : Bitset) (runs : Array Run) : Option Bitset :=
  Runs.Checked.overRuns toggleRange b runs

/-- The set of the values of the runs. -/
def ofRuns (runs : Array Run) : Option Bitset := insertRuns empty runs

/-- Removes the values between `start` and the runs, between the runs, and after them. -/
def eraseGapsFrom (b : Bitset) (start : Nat) : List Run → Option Bitset
  | [] => eraseRange b start domainSize
  | r :: rs => do
    let b ← eraseRange b start r.first.toNat
    eraseGapsFrom b (← Run.Checked.stop r) rs

/-- Removes the values that the runs lack. -/
def eraseGaps (b : Bitset) (runs : Array Run) : Option Bitset := eraseGapsFrom b 0 runs.toList

/-- The number of values in the runs. -/
def countRuns (b : Bitset) (runs : Array Run) : Option Nat :=
  runs.toList.foldlM (fun n r => do
    to64 (n + (← countRange b r.first.toNat (← Run.Checked.stop r)))) 0

theorem rangeOk_of_le {start stop : Nat} (h : stop ≤ 65536) : RangeOk start stop := fun _ => h

section OverRuns

variable {b : Bitset} {runs : Array Run} (h : b.Exact) (hruns : Runs.Valid runs)

include h

theorem eraseRange_eq_some {start stop : Nat} (hs : stop ≤ 65536) :
    eraseRange b start stop = some (b.eraseRange start stop) := by
  rw [eraseRange_eq h, eraseRange?, if_pos (rangeOk_of_le hs)]

include hruns

theorem insertRuns_eq : insertRuns b runs = some (b.insertRuns runs) := by
  refine Runs.Checked.overRuns_eq Exact (fun b start stop hb hs => ?_) h hruns
  rw [insertRange_eq hb, insertRange?, if_pos (rangeOk_of_le hs)]
  exact ⟨rfl, exact_insertRange hb hs⟩

theorem eraseRuns_eq : eraseRuns b runs = some (b.eraseRuns runs) :=
  Runs.Checked.overRuns_eq Exact
    (fun _ _ _ hb hs => ⟨eraseRange_eq_some hb hs, exact_eraseRange hb _ _⟩) h hruns

theorem toggleRuns_eq : toggleRuns b runs = some (b.toggleRuns runs) := by
  refine Runs.Checked.overRuns_eq Exact (fun b start stop hb hs => ?_) h hruns
  rw [toggleRange_eq hb, toggleRange?, if_pos (rangeOk_of_le hs)]
  exact ⟨rfl, exact_toggleRange hb hs⟩

omit hruns in
theorem eraseGapsFrom_eq (start : Nat) (rs : List Run) (hdom : ∀ r ∈ rs, r.InDomain) :
    eraseGapsFrom b start rs = some (b.eraseGapsFrom start rs) := by
  induction rs generalizing b start with
  | nil => exact eraseRange_eq_some h (Nat.le_refl _)
  | cons r rs ih =>
    obtain ⟨-, hdom⟩ := List.forall_mem_cons.mp hdom
    rw [eraseGapsFrom, bind_of_eq (eraseRange_eq_some h (Nat.le_of_lt r.first.toNat_lt)),
      bind_of_eq (Run.Checked.stop_eq r)]
    exact ih (exact_eraseRange h _ _) _ hdom

theorem eraseGaps_eq : eraseGaps b runs = some (b.eraseGaps runs) :=
  eraseGapsFrom_eq h 0 _ hruns.1

end OverRuns

theorem ofRuns_eq {runs : Array Run} (hruns : Runs.Valid runs) :
    ofRuns runs = some (Bitset.ofRuns runs) := insertRuns_eq exact_empty hruns

theorem countRuns_eq (b : Bitset) {runs : Array Run} (hruns : Runs.Valid runs) :
    countRuns b runs = some (b.countRuns runs) := by
  have hsize := Runs.size_le hruns
  rw [countRuns, Bitset.countRuns, ← Array.foldl_toList]
  refine foldlM_eq_some (fun n rs => n + rs.length * 65536 < 2 ^ 63 ∧
    ∀ r ∈ rs, r.InDomain) ?_ _ _ ⟨by rw [Array.length_toList]; omega, hruns.1⟩
  rintro n r rs ⟨hn, hdom⟩
  obtain ⟨hr, hdom⟩ := List.forall_mem_cons.mp hdom
  have hcount := Words.count_clearRange_add b.words r.first.toNat r.stop
  have hle := Words.count_le b.words
  rw [List.length_cons] at hn
  rw [bind_of_eq (Run.Checked.stop_eq r), countRange,
    bind_of_eq (Words.Checked.countRange_eq b.words hr), to64_of_lt (by omega)]
  exact ⟨rfl, by omega, hdom⟩

end Roaring.Bitset.Checked
