import Roaring.Bitset.Words
import Roaring.Word.Bits

/-!
# The bits of a word vector

A word vector is determined by its bits. An operation on one value changes the bit of that value
alone, one on a range the bits of that range alone, and two vectors combine bit by bit.
-/
namespace Roaring.Words

theorem bit_lt (v : UInt16) : v.toNat % 64 < 64 := Nat.mod_lt _ (by decide)

theorem ext {a b : Words} (h : ∀ v, test a v = test b v) : a = b := by
  apply Vector.ext
  intro i hi
  apply Word.ext
  intro j hj
  have hv : (64 * i + j).toUInt16.toNat = 64 * i + j := by
    rw [Nat.toUInt16_eq, UInt16.toNat_ofNat']
    omega
  have := h (64 * i + j).toUInt16
  simp only [test, hv] at this
  have hd : (64 * i + j) / 64 = i := by omega
  have hm : (64 * i + j) % 64 = j := by omega
  simpa only [hd, hm] using this

@[simp] theorem test_empty (v : UInt16) : test empty v = false := by
  simp [test, empty, Word.test_zero (bit_lt v)]

@[simp] theorem test_full (v : UInt16) : test full v = true := by
  simp [test, full, Word.test_allOnes (bit_lt v)]

@[simp] theorem test_combine (op : SetOp) (a b : Words) (v : UInt16) :
    test (combine op a b) v = op.eval (test a v) (test b v) := by
  simp [test, combine, Word.test_onWords op (bit_lt v)]

/-! ## One value -/

/-- An update acts on the bits of the word it changes as it does on the bit of its value. -/
theorem test_update {f : UInt64 → UInt64 → UInt64} {g : Bool → Bool → Bool}
    (hf : ∀ w m i, i < 64 → Word.test (f w m) i = g (Word.test w i) (Word.test m i))
    (hg : ∀ b, g b false = b) (ws : Words) (u v : UInt16) :
    test (update f ws u) v = g (test ws v) (decide (v = u)) := by
  simp only [test, update, Vector.getElem_set]
  split
  · rename_i hslot
    rw [hf _ _ _ (bit_lt v), Word.test_bit (bit_lt v) (bit_lt u)]
    have : v.toNat % 64 = u.toNat % 64 ↔ v = u := by
      rw [← UInt16.toNat_inj]
      omega
    simp only [this, hslot]
  · rename_i hslot
    have : v ≠ u := fun e => hslot (by rw [e])
    simp [this, hg]

@[simp] theorem test_put (ws : Words) (u v : UInt16) :
    test (put ws u) v = (test ws v || decide (v = u)) :=
  test_update (fun _ _ _ h => Word.test_or h _ _) (by simp) ws u v

@[simp] theorem test_clear (ws : Words) (u v : UInt16) :
    test (clear ws u) v = (test ws v && !decide (v = u)) :=
  test_update (g := fun a b => a && !b)
    (fun _ _ _ h => by rw [Word.test_and h, Word.test_not h]) (by simp) ws u v

@[simp] theorem test_flip (ws : Words) (u v : UInt16) :
    test (flip ws u) v = (test ws v ^^ decide (v = u)) :=
  test_update (fun _ _ _ h => Word.test_xor h _ _) (by simp) ws u v

/-! ## A range of values -/

theorem getElem_mapFrom (f : Nat → UInt64 → UInt64) (ws : Words) (i n j : Nat) (hj : j < 1024) :
    (mapFrom f ws i n)[j] = if i ≤ j ∧ j < i + n then f j ws[j] else ws[j] := by
  induction n generalizing ws i with
  | zero =>
    have : ¬(i ≤ j ∧ j < i + 0) := by omega
    rw [mapFrom, if_neg this]
  | succ n ih =>
    rw [mapFrom]
    split
    · rw [ih, Vector.getElem_set]
      by_cases hij : i = j
      · subst hij
        have hout : ¬(i + 1 ≤ i ∧ i < i + 1 + n) := by omega
        have hin : i ≤ i ∧ i < i + (n + 1) := by omega
        rw [if_neg hout, if_pos rfl, if_pos hin]
      · have : (i + 1 ≤ j ∧ j < i + 1 + n) ↔ (i ≤ j ∧ j < i + (n + 1)) := by omega
        simp only [if_neg hij, this]
    · have : ¬(i ≤ j ∧ j < i + (n + 1)) := by omega
      rw [if_neg this]

/-- Bit `j` of word `i` is in the mask of a range that reaches the word when its value is in the
range. -/
theorem test_rangeMask {start stop i j : Nat} (hj : j < 64) (hlo : start / 64 ≤ i)
    (hhi : i ≤ (stop - 1) / 64) (h : start < stop) :
    Word.test (rangeMask start stop i) j = decide (start ≤ 64 * i + j ∧ 64 * i + j < stop) := by
  have hs : start % 64 < 64 := Nat.mod_lt _ (by decide)
  have he : (stop - 1) % 64 < 64 := Nat.mod_lt _ (by decide)
  have hfrom : Word.test (if i = start / 64 then Word.maskFrom (start % 64) else Word.allOnes) j =
      decide (start ≤ 64 * i + j) := by
    split
    · rw [Word.test_maskFrom hj hs, decide_eq_decide]; omega
    · rw [Word.test_allOnes hj, eq_comm, decide_eq_true_iff]; omega
  have hupTo : Word.test
      (if i = (stop - 1) / 64 then Word.maskUpTo ((stop - 1) % 64) else Word.allOnes) j =
      decide (64 * i + j < stop) := by
    split
    · rw [Word.test_maskUpTo hj he, decide_eq_decide]; omega
    · rw [Word.test_allOnes hj, eq_comm, decide_eq_true_iff]; omega
  rw [rangeMask, Word.test_and hj, hfrom, hupTo, Bool.decide_and]

theorem test_mapRange {f : UInt64 → UInt64 → UInt64} {g : Bool → Bool → Bool}
    (hf : ∀ w m i, i < 64 → Word.test (f w m) i = g (Word.test w i) (Word.test m i))
    (hg : ∀ b, g b false = b) (ws : Words) (start stop : Nat) (v : UInt16) :
    test (mapRange f ws start stop) v =
      g (test ws v) (decide (start ≤ v.toNat ∧ v.toNat < stop)) := by
  have hv : 64 * (v.toNat / 64) + v.toNat % 64 = v.toNat := by omega
  simp only [test, mapRange, getElem_mapFrom]
  by_cases hlt : start < stop
  · simp only [rangeLength, hlt, if_true]
    split
    · rw [hf _ _ _ (bit_lt v), test_rangeMask (bit_lt v) (by omega) (by omega) hlt, hv]
    · have : ¬(start ≤ v.toNat ∧ v.toNat < stop) := by omega
      simp [this, hg]
  · have hin : ¬(start ≤ v.toNat ∧ v.toNat < stop) := by omega
    have hout : ¬(start / 64 ≤ v.toNat / 64 ∧ v.toNat / 64 < start / 64) := by omega
    simp [rangeLength, hlt, hin, hout, hg]

@[simp] theorem test_putRange (ws : Words) (start stop : Nat) (v : UInt16) :
    test (putRange ws start stop) v =
      (test ws v || decide (start ≤ v.toNat ∧ v.toNat < stop)) :=
  test_mapRange (fun _ _ _ h => Word.test_or h _ _) (by simp) ws start stop v

@[simp] theorem test_clearRange (ws : Words) (start stop : Nat) (v : UInt16) :
    test (clearRange ws start stop) v =
      (test ws v && !decide (start ≤ v.toNat ∧ v.toNat < stop)) :=
  test_mapRange (g := fun a b => a && !b)
    (fun _ _ _ h => by rw [Word.test_and h, Word.test_not h]) (by simp) ws start stop v

@[simp] theorem test_flipRange (ws : Words) (start stop : Nat) (v : UInt16) :
    test (flipRange ws start stop) v =
      (test ws v ^^ decide (start ≤ v.toNat ∧ v.toNat < stop)) :=
  test_mapRange (fun _ _ _ h => Word.test_xor h _ _) (by simp) ws start stop v

end Roaring.Words
