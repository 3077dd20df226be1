import Mathlib.Algebra.Group.Nat.Defs
import Mathlib.Data.List.Sort
import Roaring.Word.Bits

/-!
# Walking over the bits of a word

The lowest set bit of a word and the words that the walk over its bits leaves behind, each given by
its bits. From them follows what the walk collects: the positions of the set bits in ascending
order, as many as `count` says. The last of them, the one at a given place and those at which a run
of set bits ends are found without walking over them all.
-/
namespace Roaring.Word

/-! ## Bits of numbers next to each other -/

/-- Taking one from a number clears its lowest set bit and sets the bits below. -/
theorem testBit_sub_one {n m : Nat} (hm : n.testBit m) (hlow : ∀ i < m, n.testBit i = false)
    (i : Nat) : (n - 1).testBit i = if i < m then true else n.testBit i && i ≠ m := by
  induction m generalizing n i with
  | zero =>
    have hodd : n % 2 = 1 := by simpa using hm
    have hhalf : (n - 1) / 2 = n / 2 := by omega
    cases i with
    | zero =>
      have : ¬ (n - 1) % 2 = 1 := by omega
      simpa using this
    | succ i => simp [Nat.testBit_succ, hhalf]
  | succ m ih =>
    have heven : n % 2 = 0 := by simpa using hlow 0 (Nat.succ_pos m)
    have hpos : n ≠ 0 := by rintro rfl; simp at hm
    have hhalf : (n - 1) / 2 = n / 2 - 1 := by omega
    cases i with
    | zero =>
      have : (n - 1) % 2 = 1 := by omega
      simpa using this
    | succ i =>
      rw [Nat.testBit_succ, hhalf, ih (by rwa [← Nat.testBit_succ])
        (fun j hj => by rw [← Nat.testBit_succ]; exact hlow _ (by omega)), Nat.testBit_succ]
      simp

/-- Adding one to a number sets its lowest clear bit and clears the bits below. -/
theorem testBit_add_one {n m : Nat} (hm : n.testBit m = false) (hlow : ∀ i < m, n.testBit i)
    (i : Nat) : (n + 1).testBit i = if i < m then false else n.testBit i || i = m := by
  induction m generalizing n i with
  | zero =>
    have heven : n % 2 = 0 := by simpa using hm
    have hhalf : (n + 1) / 2 = n / 2 := by omega
    cases i with
    | zero =>
      have : (n + 1) % 2 = 1 := by omega
      simpa using this
    | succ i => simp [Nat.testBit_succ, hhalf]
  | succ m ih =>
    have hodd : n % 2 = 1 := by simpa using hlow 0 (Nat.succ_pos m)
    have hhalf : (n + 1) / 2 = n / 2 + 1 := by omega
    cases i with
    | zero =>
      have : ¬ (n + 1) % 2 = 1 := by omega
      simpa using this
    | succ i =>
      rw [Nat.testBit_succ, hhalf, ih (by rwa [← Nat.testBit_succ])
        (fun j hj => by rw [← Nat.testBit_succ]; exact hlow _ (by omega)), Nat.testBit_succ]
      simp

/-! ## The lowest set bit -/

theorem exists_test {w : UInt64} (h : w ≠ 0) : ∃ i < 64, test w i := by
  rcases Classical.em (∃ i < 64, test w i) with hex | hex
  · exact hex
  · refine absurd (ext fun i hi => ?_) h
    rw [test_zero hi, Bool.eq_false_iff]
    exact fun ht => hex ⟨i, hi, ht⟩

theorem test_bit_sub_one {i j : Nat} (hi : i < 64) (hj : j < 64) :
    test (bit j - 1) i = decide (i < j) := by
  have hne : bit j ≠ 0 := by
    intro h
    have := test_bit hj hj
    simp [h, test_zero hj] at this
  have hself : (bit j).toNat.testBit j := by
    rw [← test_eq_testBit hj, test_bit hj hj]
    simp
  have hlow : ∀ k < j, (bit j).toNat.testBit k = false := by
    intro k hk
    rw [← test_eq_testBit (by omega), test_bit (by omega) hj]
    simpa using Nat.ne_of_lt hk
  rw [test_eq_testBit hi, toNat_sub_one hne, testBit_sub_one hself hlow,
    ← test_eq_testBit hi, test_bit hi hj]
  by_cases hij : i = j <;> simp [hij]

theorem test_shiftRight {i j : Nat} (hj : j < 64) (hij : i + j < 64) (w : UInt64) :
    test (w >>> j.toUInt64) i = test w (i + j) := by
  rw [test_eq_testBit (by omega), test_eq_testBit hij, UInt64.toNat_shiftRight,
    toNat_toUInt64 hj, Nat.mod_eq_of_lt hj, Nat.testBit_shiftRight, Nat.add_comm]

theorem and_lowBits_eq_zero {w : UInt64} {n : Nat} (hn : n < 64) :
    w &&& (bit n - 1) = 0 ↔ ∀ i < n, test w i = false := by
  constructor
  · intro hz i hi
    have hand := test_and (i := i) (by omega) w (bit n - 1)
    rw [hz, test_zero (by omega), test_bit_sub_one (by omega) hn] at hand
    simpa [hi] using hand.symm
  · intro hz
    refine ext fun i hi => ?_
    rw [test_and hi, test_bit_sub_one hi hn, test_zero hi]
    by_cases hin : i < n
    · simp [hz i hin]
    · simp [hin]

/-- Halving finds the lowest set bit, if there is one among the lowest `2 ^ k`. -/
theorem lowestIn_spec {k : Nat} (hk : k ≤ 6) (w : UInt64) (h : ∃ i < 2 ^ k, test w i) :
    lowestIn k w < 2 ^ k ∧ test w (lowestIn k w) ∧ ∀ i < lowestIn k w, test w i = false := by
  induction k generalizing w with
  | zero =>
    obtain ⟨i, hi, ht⟩ := h
    have : i = 0 := by simpa using hi
    subst this
    exact ⟨by simp [lowestIn], by simpa [lowestIn] using ht, by simp [lowestIn]⟩
  | succ k ih =>
    have hpow : 2 ^ (k + 1) = 2 ^ k + 2 ^ k := by rw [Nat.pow_succ]; omega
    have hbound : 2 ^ k ≤ 2 ^ 5 := Nat.pow_le_pow_right (by decide) (by omega)
    have hmask := and_lowBits_eq_zero (w := w) (by omega : 2 ^ k < 64)
    rw [lowestIn, Nat.one_shiftLeft]
    split
    -- the lower half is clear: the walk goes on in the upper half, shifted down
    · rename_i hz
      rw [hmask] at hz
      obtain ⟨i, hi, ht⟩ := h
      have hge : 2 ^ k ≤ i := by
        rcases Nat.lt_or_ge i (2 ^ k) with hlt | hge
        · simp [hz i hlt] at ht
        · exact hge
      have hup : ∀ j < 2 ^ k, test (w >>> (2 ^ k).toUInt64) j = test w (j + 2 ^ k) :=
        fun j hj => test_shiftRight (by omega) (by omega) w
      have hsub : i - 2 ^ k + 2 ^ k = i := by omega
      obtain ⟨hlt, hset, hlow⟩ := ih (by omega) (w >>> (2 ^ k).toUInt64)
        ⟨i - 2 ^ k, by omega, by rw [hup _ (by omega), hsub]; exact ht⟩
      refine ⟨by omega, by rwa [hup _ hlt, Nat.add_comm] at hset, fun j hj => ?_⟩
      rcases Nat.lt_or_ge j (2 ^ k) with hjk | hjk
      · exact hz j hjk
      · have := hlow (j - 2 ^ k) (by omega)
        rwa [hup _ (by omega), Nat.sub_add_cancel hjk] at this
    · rename_i hz
      rw [hmask] at hz
      have hex : ∃ i < 2 ^ k, test w i := by
        rcases Classical.em (∃ i < 2 ^ k, test w i) with hex | hex
        · exact hex
        · exact absurd (fun i hi => Bool.eq_false_iff.mpr fun ht => hex ⟨i, hi, ht⟩) hz
      obtain ⟨hlt, hrest⟩ := ih (by omega) w hex
      exact ⟨by omega, hrest⟩

theorem lowest_lt {w : UInt64} (h : w ≠ 0) : lowest w < 64 :=
  (lowestIn_spec (Nat.le_refl 6) w (exists_test h)).1

theorem test_lowest {w : UInt64} (h : w ≠ 0) : test w (lowest w) :=
  (lowestIn_spec (Nat.le_refl 6) w (exists_test h)).2.1

theorem test_below_lowest {w : UInt64} (h : w ≠ 0) {i : Nat} (hi : i < lowest w) :
    test w i = false :=
  (lowestIn_spec (Nat.le_refl 6) w (exists_test h)).2.2 i hi

/-! ## The steps of a walk -/

theorem test_sub_one {w : UInt64} (h : w ≠ 0) {i : Nat} (hi : i < 64) :
    test (w - 1) i = if i < lowest w then true else test w i && i ≠ lowest w := by
  have hlt := lowest_lt h
  rw [test_eq_testBit hi, toNat_sub_one h, testBit_sub_one (m := lowest w), test_eq_testBit hi]
  · rw [← test_eq_testBit hlt]
    exact test_lowest h
  · intro j hj
    rw [← test_eq_testBit (by omega)]
    exact test_below_lowest h hj

theorem test_clearLowest {w : UInt64} (h : w ≠ 0) {i : Nat} (hi : i < 64) :
    test (clearLowest w) i = (test w i && i ≠ lowest w) := by
  rw [clearLowest, test_and hi, test_sub_one h hi]
  split
  · rename_i hlow
    simp [test_below_lowest h hlow]
  · cases test w i <;> simp

theorem test_fillBelow {w : UInt64} (h : w ≠ 0) {i : Nat} (hi : i < 64) :
    test (fillBelow w) i = (test w i || i < lowest w) := by
  rw [fillBelow, test_or hi, test_sub_one h hi]
  split
  · rename_i hlow
    simp [hlow]
  · rename_i hlow
    cases test w i <;> simp [hlow]

theorem complement_ne_zero {w : UInt64} (h : w ≠ allOnes) : ~~~w ≠ 0 := by
  intro hz
  refine h (ext fun j hj => ?_)
  have := test_not hj w
  rw [hz, test_zero hj] at this
  rw [test_allOnes hj]
  simpa using this.symm

theorem firstClear_lt {w : UInt64} (h : w ≠ allOnes) : lowest (~~~w) < 64 :=
  lowest_lt (complement_ne_zero h)

/-- The lowest set bit of the complement is the lowest clear bit. -/
theorem test_firstClear {w : UInt64} (h : w ≠ allOnes) : test w (lowest (~~~w)) = false := by
  have := test_lowest (complement_ne_zero h)
  rw [test_not (firstClear_lt h)] at this
  simpa using this

theorem test_below_firstClear {w : UInt64} (h : w ≠ allOnes) {i : Nat}
    (hi : i < lowest (~~~w)) : test w i := by
  have hlt := firstClear_lt h
  have := test_below_lowest (complement_ne_zero h) hi
  rw [test_not (by omega)] at this
  simpa using this

theorem test_clearBelow {w : UInt64} (h : w ≠ allOnes) {i : Nat} (hi : i < 64) :
    test (clearBelow w) i = (test w i && lowest (~~~w) < i) := by
  have hlt := firstClear_lt h
  have hsize : w.toNat + 1 < 2 ^ 64 := by
    have hw : w.toNat ≠ 2 ^ 64 - 1 := fun e => h (UInt64.toNat_inj.mp e)
    have := w.toNat_lt
    omega
  have hadd : (w + 1).toNat = w.toNat + 1 := by
    rw [UInt64.toNat_add]
    exact Nat.mod_eq_of_lt hsize
  rw [clearBelow, test_and hi, test_eq_testBit hi (w + 1), hadd,
    testBit_add_one (m := lowest (~~~w)), ← test_eq_testBit hi]
  · rcases Nat.lt_trichotomy i (lowest (~~~w)) with hlow | rfl | hlow
    · have : ¬ lowest (~~~w) < i := by omega
      simp [hlow, this]
    · simp [test_firstClear h]
    · have : ¬ i < lowest (~~~w) := by omega
      simp [hlow, this]
      exact fun ht => .inl ht
  · rw [← test_eq_testBit hlt]
    exact test_firstClear h
  · intro j hj
    rw [← test_eq_testBit (by omega)]
    exact test_below_firstClear h hj

/-! ## What a walk collects -/

/-- The positions of the set bits in ascending order. -/
def positions (w : UInt64) : List Nat := (List.range 64).filter (test w)

theorem positions_zero : positions 0 = [] := by
  rw [positions, List.filter_eq_nil_iff]
  intro i hi
  simp [test_zero (List.mem_range.mp hi)]

theorem positions_eq_cons {w : UInt64} (h : w ≠ 0) :
    positions w = lowest w :: positions (clearLowest w) := by
  have hsorted (w : UInt64) : (positions w).Pairwise (· < ·) :=
    List.Pairwise.filter _ List.pairwise_lt_range
  refine List.Pairwise.eq_of_mem_iff (hsorted w) ?_ fun i => ?_
  · refine List.pairwise_cons.mpr ⟨fun i hi => ?_, hsorted _⟩
    obtain ⟨hi64, ht⟩ := List.mem_filter.mp hi
    rw [test_clearLowest h (List.mem_range.mp hi64)] at ht
    simp only [ne_eq, Bool.and_eq_true, decide_eq_true_eq] at ht
    rcases Nat.lt_or_ge i (lowest w) with hlt | hge
    · simp [test_below_lowest h hlt] at ht
    · omega
  · simp only [positions, List.mem_cons, List.mem_filter, List.mem_range]
    by_cases hi : i < 64
    · rw [test_clearLowest h hi]
      by_cases heq : i = lowest w
      · simp [heq, lowest_lt h, test_lowest h]
      · simp [heq, hi]
    · have := lowest_lt h
      simp only [hi, false_and, or_false, false_iff]
      omega

theorem toList_valuesInto (base : Nat) (w : UInt64) (out : Array UInt16) :
    (valuesInto base w out).toList =
      out.toList ++ (positions w).map fun i => (base + i).toUInt16 := by
  fun_induction valuesInto base w out with
  | case1 out => simp [positions_zero]
  | case2 w out hne ih =>
    rw [ih, positions_eq_cons hne]
    simp

theorem length_positions (w : UInt64) : (positions w).length = count w := by
  suffices h : ∀ n, countFrom w n = n + (positions w).length by simp [count, h]
  intro n
  fun_induction countFrom w n with
  | case1 n => simp [positions_zero]
  | case2 w n hne ih =>
    rw [ih, positions_eq_cons hne, List.length_cons]
    omega

theorem and_allOnes (w : UInt64) : w &&& allOnes = w :=
  ext fun i hi => by rw [test_and hi, test_allOnes hi, Bool.and_true]

theorem allOnes_and (w : UInt64) : allOnes &&& w = w :=
  ext fun i hi => by rw [test_and hi, test_allOnes hi, Bool.true_and]

/-- A word has all bits of a mask when the mask is what remains of it under the mask. -/
theorem and_eq_right_iff (w m : UInt64) : w &&& m = m ↔ ∀ i < 64, test m i → test w i := by
  constructor
  · intro h i hi hm
    rw [← h, test_and hi, Bool.and_eq_true] at hm
    exact hm.1
  · intro h
    refine ext fun i hi => ?_
    rw [test_and hi]
    cases hm : test m i with
    | false => rw [Bool.and_false]
    | true => rw [h i hi hm, Bool.and_true]

/-! ## The ends of a walk and its stops -/

theorem test_highest {w : UInt64} (h : w ≠ 0) : highest w < 64 ∧ test w (highest w) := by
  have hpos : w.toNat ≠ 0 := Nat.ne_of_gt (toNat_pos h)
  have hlt : highest w < 64 := (Nat.log2_lt hpos).mpr w.toNat_lt
  refine ⟨hlt, ?_⟩
  rw [test_eq_testBit hlt]
  exact Nat.testBit_log2 hpos

theorem test_above_highest {w : UInt64} {i : Nat} (hi : i < 64) (h : highest w < i) :
    test w i = false := by
  rw [test_eq_testBit hi]
  exact Nat.testBit_lt_two_pow (Nat.lt_of_lt_of_le Nat.lt_log2_self
    (Nat.pow_le_pow_right (by decide) h))

/-- The last position is the highest. -/
theorem getLast?_positions {w : UInt64} (h : w ≠ 0) :
    (positions w).getLast? = some (highest w) := by
  obtain ⟨hlt, hset⟩ := test_highest h
  have hsplit : List.range 64 =
      List.range (highest w) ++ highest w :: List.range' (highest w + 1) (63 - highest w) := by
    have happend := @List.range'_append_1 0 (highest w) (63 - highest w + 1)
    rw [Nat.zero_add, show highest w + (63 - highest w + 1) = 64 by omega] at happend
    rw [List.range_eq_range', List.range_eq_range', ← List.range'_succ, happend]
  have habove : (List.range' (highest w + 1) (63 - highest w)).filter (test w) = [] := by
    refine List.filter_eq_nil_iff.mpr fun i hi => ?_
    have hi := List.mem_range'_1.mp hi
    rw [test_above_highest (by omega) (by omega)]
    decide
  rw [positions, hsplit, List.filter_append, List.filter_cons_of_pos hset, habove,
    List.getLast?_concat]

theorem positions_dropLowest (w : UInt64) (n : Nat) :
    positions (dropLowest w n) = (positions w).drop n := by
  induction n generalizing w with
  | zero => rfl
  | succ n ih =>
    rw [dropLowest, ih]
    by_cases hw : w = 0
    · subst hw
      have hzero : clearLowest 0 = 0 := by decide
      rw [hzero, positions_zero, List.drop_nil, List.drop_nil]
    · rw [positions_eq_cons hw, List.drop_succ_cons]

/-- What is left after the `n` lowest set bits starts with the one at place `n`. -/
theorem getElem?_positions {w : UInt64} {n : Nat} (h : n < count w) :
    (positions w)[n]? = some (lowest (dropLowest w n)) := by
  rw [← List.head?_drop, ← positions_dropLowest]
  have hne : dropLowest w n ≠ 0 := by
    intro hz
    have hlen := congrArg List.length (positions_dropLowest w n)
    rw [hz, positions_zero, List.length_drop, length_positions] at hlen
    simp at hlen
    omega
  rw [positions_eq_cons hne, List.head?_cons]

/-! ## Ends of runs -/

/-- The bit after position `i`, that of the next word after the last one. -/
def testNext (w : UInt64) (nextSet : Bool) (i : Nat) : Bool :=
  if i = 63 then nextSet else test w (i + 1)

theorem test_shiftLeft_one {i : Nat} (hi : i + 1 < 64) (w : UInt64) :
    test (w <<< 1) (i + 1) = test w i := by
  rw [test_eq_testBit hi, test_eq_testBit (by omega), UInt64.toNat_shiftLeft,
    show (1 : UInt64).toNat % 64 = 1 from rfl, Nat.testBit_mod_two_pow, Nat.testBit_shiftLeft]
  simp [hi]

theorem test_shiftLeft_one_zero (w : UInt64) : test (w <<< 1) 0 = false := by
  rw [test_eq_testBit (by decide), UInt64.toNat_shiftLeft,
    show (1 : UInt64).toNat % 64 = 1 from rfl, Nat.testBit_mod_two_pow, Nat.testBit_shiftLeft]
  simp

/-- A run ends at a set bit after which the next one is clear. -/
theorem runEnds_eq (w : UInt64) (nextSet : Bool) :
    runEnds w nextSet = (List.range 64).countP fun i => test w i && !testNext w nextSet i := by
  have hinner : count (~~~w &&& (w <<< 1)) =
      (List.range 63).countP fun i => test w i && !test w (i + 1) := by
    rw [← length_positions, positions, ← List.countP_eq_length_filter,
      show List.range 64 = 0 :: (List.range 63).map (· + 1) from rfl, List.countP_cons,
      test_and (by decide), test_shiftLeft_one_zero, Bool.and_false, List.countP_map]
    refine List.countP_congr fun i hi => ?_
    have hi := List.mem_range.mp hi
    rw [Function.comp_apply, test_and (by omega), test_not (by omega),
      test_shiftLeft_one (by omega), Bool.and_comm]
  have hrest : (List.range 63).countP (fun i => test w i && !testNext w nextSet i) =
      (List.range 63).countP fun i => test w i && !test w (i + 1) := by
    refine List.countP_congr fun i hi => ?_
    have hi := List.mem_range.mp hi
    rw [testNext, if_neg (by omega)]
  rw [runEnds, hinner, show List.range 64 = List.range 63 ++ [63] from List.range_succ,
    List.countP_append, hrest, List.countP_singleton, testNext, if_pos rfl]

end Roaring.Word
