import Roaring.Proofs.Runs.Append

/-!
# The runs of a word vector

The walk over the words keeps the bits that are still ahead of it, and between two runs everything
ahead lies past the end of the last one. Inside a run that began at `start`, the bits of the current
word below the next clear one are set, those before `start` included.
-/
namespace Roaring.Words

/-- Whether number `n` is set in the words from word `i` on. -/
def ahead (i : Nat) : List UInt64 → Nat → Bool
  | [], _ => false
  | w :: ws, n => (n / 64 = i && Word.test w (n % 64)) || ahead (i + 1) ws n

theorem le_of_ahead {i : Nat} {ws : List UInt64} {n : Nat} (h : ahead i ws n) : 64 * i ≤ n := by
  induction ws generalizing i with
  | nil => cases h
  | cons w ws ih =>
    rw [ahead, Bool.or_eq_true, Bool.and_eq_true, decide_eq_true_iff] at h
    rcases h with ⟨h, -⟩ | h
    · omega
    · have := ih h
      omega

theorem ahead_eq_getD (i : Nat) (ws : List UInt64) (n : Nat) :
    ahead i ws n = (decide (i ≤ n / 64) && Word.test (ws.getD (n / 64 - i) 0) (n % 64)) := by
  have hn : n % 64 < 64 := Nat.mod_lt _ (by decide)
  induction ws generalizing i with
  | nil => simp [ahead, Word.test_zero hn]
  | cons w ws ih =>
    rw [ahead, ih]
    rcases Nat.lt_trichotomy (n / 64) i with hlt | rfl | hlt
    · have h1 : ¬i ≤ n / 64 := by omega
      have h2 : ¬i + 1 ≤ n / 64 := by omega
      have h3 : n / 64 ≠ i := by omega
      simp [h1, h2, h3]
    · simp
    · have h1 : i ≤ n / 64 := by omega
      have h2 : i + 1 ≤ n / 64 := hlt
      have h3 : n / 64 ≠ i := by omega
      have h4 : n / 64 - i = (n / 64 - (i + 1)) + 1 := by omega
      simp [h1, h2, h3, h4]

theorem ahead_toList (ws : Words) (v : UInt16) : ahead 0 ws.toList v.toNat = ws.test v := by
  have hlt : v.toNat / 64 < ws.toList.length := by
    rw [Vector.length_toList]
    exact slot_lt v
  rw [ahead_eq_getD, Nat.sub_zero, List.getD_eq_getElem?_getD, List.getElem?_eq_getElem hlt]
  simp [test]

/-- What the walk still has to cover: inside a run also the numbers from its start on. -/
def pending (start : Option Nat) (i : Nat) (ws : List UInt64) (n : Nat) : Bool :=
  match start with
  | none => ahead i ws n
  | some first => decide (first ≤ n) && (decide (n < 64 * i) || ahead i ws n)

/-- The invariant of the walk at word `i`, of which `w` is left. -/
structure Walk (start : Option Nat) (i : Nat) (w : UInt64) (ws : List UInt64) (out : List Run) :
    Prop where
  bound : i + 1 + ws.length ≤ 1024
  stacked : Runs.Stacked out
  behind : ∀ s ∈ out, ∀ n, pending start i (w :: ws) n → s.stop < n
  begun : ∀ first ∈ start, first < 64 * (i + 1) ∧ ∀ j, 64 * i + j ≤ first → Word.test w j

section Walk

variable {start : Option Nat} {i : Nat} {w : UInt64} {ws : List UInt64} {out : List Run}

/-- What is set in the word at hand. -/
theorem ahead_cons (i : Nat) (w : UInt64) (ws : List UInt64) (n : Nat) :
    ahead i (w :: ws) n = ((n / 64 = i && Word.test w (n % 64)) || ahead (i + 1) ws n) := rfl

theorem ahead_zero (i : Nat) (ws : List UInt64) (n : Nat) :
    ahead i (0 :: ws) n = ahead (i + 1) ws n := by
  rw [ahead_cons, Word.test_zero (Nat.mod_lt n (by decide)), Bool.and_false, Bool.false_or]

/-- A word that is used up is left behind. -/
theorem Walk.nextWord {w' : UInt64} (h : Walk none i 0 (w' :: ws) out) :
    Walk none (i + 1) w' ws out := by
  refine ⟨?_, h.stacked, fun s hs n hn => h.behind s hs n ?_, by simp⟩
  · have := h.bound
    rw [List.length_cons] at this
    omega
  · rw [pending, ahead_zero]
    exact hn

/-- The lowest set bit begins a run. -/
theorem Walk.enter (h : Walk none i w ws out) (hw : w ≠ 0) :
    Walk (some (64 * i + Word.lowest w)) i (Word.fillBelow w) ws out ∧
      ∀ n, pending (some (64 * i + Word.lowest w)) i (Word.fillBelow w :: ws) n =
        pending none i (w :: ws) n := by
  have hlow := Word.lowest_lt hw
  have hpending : ∀ n, pending (some (64 * i + Word.lowest w)) i (Word.fillBelow w :: ws) n =
      pending none i (w :: ws) n := by
    intro n
    have hn : n % 64 < 64 := Nat.mod_lt n (by decide)
    have hbelow : n % 64 < Word.lowest w → Word.test w (n % 64) = false :=
      Word.test_below_lowest hw
    have hrest : ahead (i + 1) ws n → 64 * (i + 1) ≤ n := le_of_ahead
    simp only [pending, ahead_cons, Word.test_fillBelow hw hn]
    grind
  refine ⟨⟨h.bound, h.stacked, fun s hs n hn => h.behind s hs n (hpending n ▸ hn), ?_⟩, hpending⟩
  rintro first ⟨⟩
  refine ⟨by omega, fun j hj => ?_⟩
  rw [Word.test_fillBelow hw (by omega), Bool.or_eq_true, decide_eq_true_iff]
  rcases Nat.lt_or_ge j (Word.lowest w) with hlt | hge
  · exact .inr hlt
  · have heq : j = Word.lowest w := by omega
    exact .inl (heq ▸ Word.test_lowest hw)

/-- A run that fills the word goes on in the next one. -/
theorem Walk.goOn {first : Nat} {w' : UInt64}
    (h : Walk (some first) i Word.allOnes (w' :: ws) out) :
    Walk (some first) (i + 1) w' ws out ∧ ∀ n, pending (some first) (i + 1) (w' :: ws) n =
      pending (some first) i (Word.allOnes :: w' :: ws) n := by
  obtain ⟨hfirst, -⟩ := h.begun first rfl
  have hpending : ∀ n, pending (some first) (i + 1) (w' :: ws) n =
      pending (some first) i (Word.allOnes :: w' :: ws) n := by
    intro n
    have hones := Word.test_allOnes (Nat.mod_lt n (by decide : 0 < 64))
    simp only [pending, ahead_cons i Word.allOnes, hones]
    grind
  refine ⟨⟨?_, h.stacked, fun s hs n hn => h.behind s hs n (hpending n ▸ hn), ?_⟩, hpending⟩
  · have := h.bound
    rw [List.length_cons] at this
    omega
  · rintro _ ⟨⟩
    exact ⟨by omega, fun j hj => by omega⟩

/-- A run holds at least its first value: that is set, if it is in the word at hand at all. -/
theorem Walk.lt_firstClear {first : Nat} (h : Walk (some first) i w ws out)
    (hw : w ≠ Word.allOnes) : first < 64 * i + Word.lowest (~~~w) := by
  obtain ⟨-, hset⟩ := h.begun first rfl
  rcases Nat.lt_or_ge first (64 * i + Word.lowest (~~~w)) with hlt | hge
  · exact hlt
  · have := hset (Word.lowest (~~~w)) hge
    rw [Word.test_firstClear hw] at this
    cases this

/-- The first clear bit ends a run. -/
theorem Walk.leave {first : Nat} (h : Walk (some first) i w ws out) (hw : w ≠ Word.allOnes) :
    Walk none i (Word.clearBelow w) ws
        (.ofBounds first (64 * i + Word.lowest (~~~w)) :: out) ∧
      ∀ n, (Runs.covers (.ofBounds first (64 * i + Word.lowest (~~~w)) :: out) n ||
          pending none i (Word.clearBelow w :: ws) n) =
        (Runs.covers out n || pending (some first) i (w :: ws) n) := by
  obtain ⟨hfirst, hset⟩ := h.begun first rfl
  have hclear := Word.firstClear_lt hw
  have hbound := h.bound
  have hlt := h.lt_firstClear hw
  have hrun : (Run.ofBounds first (64 * i + Word.lowest (~~~w))).first.toNat = first :=
    Run.first_ofBounds (by omega)
  have hstop : (Run.ofBounds first (64 * i + Word.lowest (~~~w))).stop =
      64 * i + Word.lowest (~~~w) := Run.stop_ofBounds hlt (by omega)
  have hbegun : pending (some first) i (w :: ws) first := by
    have hin : 64 * i ≤ first → Word.test w (first % 64) := fun hle => hset _ (by omega)
    simp only [pending, ahead_cons]
    grind
  have hold : ∀ s ∈ out, s.stop < first := fun s hs => h.behind s hs first hbegun
  refine ⟨⟨hbound, Runs.stacked_cons.mpr ⟨?_, hrun.symm ▸ hold, h.stacked⟩, ?_, by simp⟩,
    fun n => ?_⟩
  · exact Run.inDomain_ofBounds hlt (by omega)
  · intro s hs n hn
    have hpast : 64 * i + Word.lowest (~~~w) < n := by
      have hrest : ahead (i + 1) ws n → 64 * (i + 1) ≤ n := le_of_ahead
      have hclr := Word.test_clearBelow hw (Nat.mod_lt n (by decide : 0 < 64))
      simp only [pending, ahead_cons, hclr] at hn
      grind
    rcases List.mem_cons.mp hs with rfl | hs
    · rw [hstop]
      exact hpast
    · have := hold s hs
      omega
  · have hn : n % 64 < 64 := Nat.mod_lt n (by decide)
    have hrest : ahead (i + 1) ws n → 64 * (i + 1) ≤ n := le_of_ahead
    have hbelow : n % 64 < Word.lowest (~~~w) → Word.test w (n % 64) :=
      Word.test_below_firstClear hw
    have hat : n % 64 = Word.lowest (~~~w) → Word.test w (n % 64) = false :=
      fun e => e ▸ Word.test_firstClear hw
    simp only [pending, ahead_cons, Word.test_clearBelow hw hn, Runs.covers_cons, hrun, hstop]
    grind

/-- A run that fills the last word ends with it. -/
theorem Walk.finish {first : Nat} (h : Walk (some first) i Word.allOnes [] out) :
    Runs.Stacked (.ofBounds first (64 * (i + 1)) :: out) ∧
      ∀ n, Runs.covers (.ofBounds first (64 * (i + 1)) :: out) n =
        (Runs.covers out n || pending (some first) i [Word.allOnes] n) := by
  obtain ⟨hfirst, -⟩ := h.begun first rfl
  have hbound := h.bound
  rw [List.length_nil] at hbound
  have hrun : (Run.ofBounds first (64 * (i + 1))).first.toNat = first :=
    Run.first_ofBounds (by omega)
  have hstop : (Run.ofBounds first (64 * (i + 1))).stop = 64 * (i + 1) :=
    Run.stop_ofBounds hfirst (by omega)
  have hpending : ∀ n, pending (some first) i [Word.allOnes] n =
      decide (first ≤ n ∧ n < 64 * (i + 1)) := by
    intro n
    have hones := Word.test_allOnes (Nat.mod_lt n (by decide : 0 < 64))
    simp only [pending, ahead, hones]
    grind
  refine ⟨Runs.stacked_cons.mpr ⟨Run.inDomain_ofBounds hfirst (by omega), ?_, h.stacked⟩,
    fun n => ?_⟩
  · intro s hs
    rw [hrun]
    refine h.behind s hs first ?_
    rw [hpending, decide_eq_true_iff]
    omega
  · rw [Runs.covers_cons, hrun, hstop, hpending, Bool.or_comm]

theorem runsFrom_spec (start : Option Nat) (i : Nat) (w : UInt64) (ws : List UInt64)
    (out : List Run) (h : Walk start i w ws out) :
    Runs.Stacked (runsFrom start i w ws out) ∧ ∀ n, Runs.covers (runsFrom start i w ws out) n =
      (Runs.covers out n || pending start i (w :: ws) n) := by
  fun_induction runsFrom start i w ws out with
  | case1 i out =>
    refine ⟨h.stacked, fun n => ?_⟩
    rw [pending, ahead_zero, ahead, Bool.or_false]
  | case2 i out w ws ih =>
    obtain ⟨hstack, hcov⟩ := ih h.nextWord
    refine ⟨hstack, fun n => ?_⟩
    rw [hcov, pending, pending, ahead_zero]
  | case3 i w ws out hw ih =>
    obtain ⟨hwalk, hsame⟩ := h.enter hw
    obtain ⟨hstack, hcov⟩ := ih hwalk
    exact ⟨hstack, fun n => by rw [hcov, hsame]⟩
  | case4 i out first => exact h.finish
  | case5 i out first w ws ih =>
    obtain ⟨hwalk, hsame⟩ := h.goOn
    obtain ⟨hstack, hcov⟩ := ih hwalk
    exact ⟨hstack, fun n => by rw [hcov, hsame]⟩
  | case6 i w ws out first hw ih =>
    obtain ⟨hwalk, hsame⟩ := h.leave hw
    obtain ⟨hstack, hcov⟩ := ih hwalk
    exact ⟨hstack, fun n => by rw [hcov, hsame]⟩

end Walk

/-- The runs of a word vector are a valid list of its values. -/
theorem runs_spec (ws : Words) :
    Runs.Valid ws.runs ∧ ∀ v : UInt16, Runs.covers ws.runs.toList v.toNat = ws.test v := by
  have hlen : ws.toList.length = 1024 := Vector.length_toList
  unfold runs
  split
  · rename_i heq
    rw [heq] at hlen
    cases hlen
  · rename_i w rest heq
    rw [heq, List.length_cons] at hlen
    have hwalk : Walk none 0 w rest [] := ⟨by omega, Runs.stacked_nil, by simp, by simp⟩
    obtain ⟨hstack, hcov⟩ := runsFrom_spec none 0 w rest [] hwalk
    refine ⟨Runs.valid_finish hstack, fun v => ?_⟩
    have hfin := Runs.covers_finish (runsFrom none 0 w rest []) v.toNat
    refine hfin.trans ?_
    rw [hcov, pending, Runs.covers_nil, Bool.false_or, ← heq, ahead_toList]

end Roaring.Words
