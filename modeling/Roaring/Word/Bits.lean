import Roaring.Encoding
import Roaring.Word

/-!
# The bits of a word

Two words with the same bits are equal, and each way to build a word is given by what it does to
a single bit.
-/
namespace Roaring.Word

theorem toNat_toUInt64 {i : Nat} (h : i < 64) : i.toUInt64.toNat = i := by
  simp only [Nat.toUInt64, UInt64.toNat_ofNat']
  omega

theorem test_eq_testBit {i : Nat} (h : i < 64) (w : UInt64) : test w i = w.toNat.testBit i := by
  have hi : (w >>> i.toUInt64).toNat = w.toNat >>> i := by
    rw [UInt64.toNat_shiftRight, toNat_toUInt64 h, Nat.mod_eq_of_lt h]
  rw [Nat.testBit_eq_decide_div_mod_eq, ← Nat.shiftRight_eq_div_pow, ← Nat.and_one_is_mod,
    ← hi]
  simp only [test, ← UInt64.toNat_inj, UInt64.toNat_and]
  rfl

theorem ext {v w : UInt64} (h : ∀ i < 64, test v i = test w i) : v = w := by
  apply UInt64.toNat_inj.mp
  apply Nat.eq_of_testBit_eq
  intro i
  rcases Nat.lt_or_ge i 64 with hi | hi
  · rw [← test_eq_testBit hi, ← test_eq_testBit hi, h i hi]
  · have hp : 2 ^ 64 ≤ 2 ^ i := Nat.pow_le_pow_right (by decide) hi
    rw [Nat.testBit_lt_two_pow (Nat.lt_of_lt_of_le v.toNat_lt hp),
      Nat.testBit_lt_two_pow (Nat.lt_of_lt_of_le w.toNat_lt hp)]

theorem test_and {i : Nat} (h : i < 64) (v w : UInt64) :
    test (v &&& w) i = (test v i && test w i) := by
  simp [test_eq_testBit h, UInt64.toNat_and]

theorem test_or {i : Nat} (h : i < 64) (v w : UInt64) :
    test (v ||| w) i = (test v i || test w i) := by
  simp [test_eq_testBit h, UInt64.toNat_or]

theorem test_xor {i : Nat} (h : i < 64) (v w : UInt64) :
    test (v ^^^ w) i = (test v i ^^ test w i) := by
  simp [test_eq_testBit h, UInt64.toNat_xor]

theorem test_not {i : Nat} (h : i < 64) (w : UInt64) : test (~~~w) i = !test w i := by
  have : UInt64.size - 1 - w.toNat = 2 ^ 64 - (w.toNat + 1) := by
    simp only [UInt64.size]
    omega
  rw [test_eq_testBit h, test_eq_testBit h, UInt64.toNat_not, this,
    Nat.testBit_two_pow_sub_succ w.toNat_lt]
  simp [h]

theorem test_onWords (op : SetOp) {i : Nat} (h : i < 64) (v w : UInt64) :
    test (op.onWords v w) i = op.eval (test v i) (test w i) := by
  cases op <;> simp [SetOp.onWords, SetOp.eval, test_and h, test_or h, test_xor h, test_not h]

theorem test_zero {i : Nat} (h : i < 64) : test 0 i = false := by
  simp [test_eq_testBit h]

theorem test_allOnes {i : Nat} (h : i < 64) : test allOnes i = true := by
  have : allOnes.toNat = 2 ^ 64 - 1 := rfl
  rw [test_eq_testBit h, this, Nat.testBit_two_pow_sub_one]
  simp [h]

theorem test_bit {i j : Nat} (hi : i < 64) (hj : j < 64) : test (bit j) i = decide (i = j) := by
  have : (bit j).toNat = 2 ^ j := by
    have hp : 2 ^ j < 2 ^ 64 := Nat.pow_lt_pow_right (by decide) hj
    rw [bit, UInt64.toNat_shiftLeft, toNat_toUInt64 hj, Nat.mod_eq_of_lt hj]
    rw [show (1 : UInt64).toNat = 1 from rfl, Nat.shiftLeft_eq, Nat.one_mul, Nat.mod_eq_of_lt hp]
  rw [test_eq_testBit hi, this, Nat.testBit_two_pow]
  simp [eq_comm]

theorem test_maskFrom {i j : Nat} (hi : i < 64) (hj : j < 64) :
    test (maskFrom j) i = decide (j ≤ i) := by
  have h1 : allOnes.toNat = 2 ^ 64 - 1 := rfl
  rw [test_eq_testBit hi, maskFrom, UInt64.toNat_shiftLeft, toNat_toUInt64 hj, Nat.mod_eq_of_lt hj,
    Nat.testBit_mod_two_pow, Nat.testBit_shiftLeft, h1, Nat.testBit_two_pow_sub_one]
  simp [hi]
  omega

theorem test_maskUpTo {i j : Nat} (hi : i < 64) (hj : j < 64) :
    test (maskUpTo j) i = decide (i ≤ j) := by
  have h1 : allOnes.toNat = 2 ^ 64 - 1 := rfl
  rw [test_eq_testBit hi, maskUpTo, UInt64.toNat_shiftRight, toNat_toUInt64 (by omega),
    Nat.mod_eq_of_lt (by omega), Nat.testBit_shiftRight, h1, Nat.testBit_two_pow_sub_one,
    decide_eq_decide]
  omega

end Roaring.Word
