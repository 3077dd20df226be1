/-!
# Words

A word is a set of 64 bit positions, `0` being the least significant bit. Besides the masks of an
initial and of a final part of the positions, this module holds the two steps by which a word is
walked bit by bit: clearing its lowest set bit, and clearing its lowest run of set bits. Each
makes the word smaller, so such a walk ends.
-/
namespace Roaring.Word

def allOnes : UInt64 := 0xffffffffffffffff

/-- The word whose one set bit is `i`. -/
def bit (i : Nat) : UInt64 := 1 <<< i.toUInt64

def test (w : UInt64) (i : Nat) : Bool := (w >>> i.toUInt64) &&& 1 = 1

/-- The positions from `i` on. -/
def maskFrom (i : Nat) : UInt64 := allOnes <<< i.toUInt64

/-- The positions up to `i`, that one included. -/
def maskUpTo (i : Nat) : UInt64 := allOnes >>> (63 - i).toUInt64

/-- Clears the lowest set bit. -/
def clearLowest (w : UInt64) : UInt64 := w &&& (w - 1)

/-- Sets the bits below the lowest set bit. -/
def fillBelow (w : UInt64) : UInt64 := w ||| (w - 1)

/-- Clears the bits below the lowest clear bit. -/
def clearBelow (w : UInt64) : UInt64 := w &&& (w + 1)

theorem toNat_sub_one {w : UInt64} (h : w ≠ 0) : (w - 1).toNat = w.toNat - 1 := by
  have hpos : 1 ≤ w.toNat := Nat.pos_of_ne_zero fun e => h (UInt64.toNat_inj.mp e)
  exact UInt64.toNat_sub_of_le w 1 hpos

theorem toNat_pos {w : UInt64} (h : w ≠ 0) : 0 < w.toNat :=
  Nat.pos_of_ne_zero fun e => h (UInt64.toNat_inj.mp e)

theorem clearLowest_lt {w : UInt64} (h : w ≠ 0) : (clearLowest w).toNat < w.toNat := by
  have := toNat_pos h
  have hle : w.toNat &&& (w - 1).toNat ≤ (w - 1).toNat := Nat.and_le_right
  rw [clearLowest, UInt64.toNat_and]
  have := toNat_sub_one h
  omega

/-- Filling up to the lowest set bit of a number and clearing from there up to the lowest clear
bit takes away that set bit at least. -/
theorem clear_fill_lt (n : Nat) (h : 0 < n) :
    (n ||| (n - 1)) &&& ((n ||| (n - 1)) + 1) < n := by
  induction n using Nat.strongRecOn with
  | ind n ih =>
    have hodd : (n ||| (n - 1)) % 2 = 1 := by
      rw [Nat.or_mod_two_eq_one]; omega
    have hhalf : (n ||| (n - 1)) / 2 = n / 2 ||| (n - 1) / 2 := Nat.or_div_two
    have hsucc : ((n ||| (n - 1)) + 1) / 2 = (n ||| (n - 1)) / 2 + 1 := by omega
    have hhalf' : ((n ||| (n - 1)) &&& ((n ||| (n - 1)) + 1)) / 2 =
        (n ||| (n - 1)) / 2 &&& ((n ||| (n - 1)) / 2 + 1) := by
      rw [Nat.and_div_two, hsucc]
    have heven : ((n ||| (n - 1)) &&& ((n ||| (n - 1)) + 1)) % 2 = 0 := by
      have : ¬ ((n ||| (n - 1)) &&& ((n ||| (n - 1)) + 1)) % 2 = 1 := by
        rw [Nat.and_mod_two_eq_one]; omega
      omega
    rcases Nat.mod_two_eq_zero_or_one n with hn | hn
    · have hm := ih (n / 2) (by omega) (by omega)
      have : (n - 1) / 2 = n / 2 - 1 := by omega
      rw [this] at hhalf
      rw [hhalf] at hhalf'
      omega
    · have : (n - 1) / 2 = n / 2 := by omega
      rw [this, Nat.or_self] at hhalf
      rw [hhalf] at hhalf'
      have : n / 2 &&& (n / 2 + 1) ≤ n / 2 := Nat.and_le_left
      omega

theorem clearBelow_fillBelow_lt {w : UInt64} (h : w ≠ 0) :
    (clearBelow (fillBelow w)).toNat < w.toNat := by
  have hpos := toNat_pos h
  have hfill : (fillBelow w).toNat = w.toNat ||| (w.toNat - 1) := by
    rw [fillBelow, UInt64.toNat_or, toNat_sub_one h]
  rw [clearBelow, UInt64.toNat_and, UInt64.toNat_add, hfill]
  by_cases hlt : (w.toNat ||| (w.toNat - 1)) + 1 < 2 ^ 64
  · rw [show (1 : UInt64).toNat = 1 from rfl, Nat.mod_eq_of_lt hlt]
    exact clear_fill_lt _ hpos
  · have : (w.toNat ||| (w.toNat - 1)) < 2 ^ 64 :=
      Nat.or_lt_two_pow w.toNat_lt (by have := w.toNat_lt; omega)
    have : (w.toNat ||| (w.toNat - 1)) + (1 : UInt64).toNat = 2 ^ 64 := by
      rw [show (1 : UInt64).toNat = 1 from rfl]; omega
    rw [this, Nat.mod_self, Nat.and_zero]
    exact hpos

/-- The position of the lowest set bit among the lowest `2 ^ k`, found by halving; of a word
without one, the last of these positions. -/
def lowestIn : Nat → UInt64 → Nat
  | 0, _ => 0
  | k + 1, w =>
    if w &&& (bit (1 <<< k) - 1) = 0 then 1 <<< k + lowestIn k (w >>> (1 <<< k).toUInt64)
    else lowestIn k w

/-- The position of the lowest set bit. -/
def lowest (w : UInt64) : Nat := lowestIn 6 w

/-- The position of the highest set bit. -/
def highest (w : UInt64) : Nat := w.log2.toNat

/-- Adds the number of set bits to `n`. -/
def countFrom (w : UInt64) (n : Nat) : Nat :=
  if _ : w = 0 then n else countFrom (clearLowest w) (n + 1)
termination_by w.toNat
decreasing_by exact clearLowest_lt ‹_›

/-- The number of set bits. -/
def count (w : UInt64) : Nat := countFrom w 0

theorem countFrom_eq (w : UInt64) (n : Nat) : countFrom w n = n + count w := by
  suffices h : ∀ k w n m, w.toNat = k → countFrom w (n + m) = n + countFrom w m from h _ w n 0 rfl
  intro k
  induction k using Nat.strongRecOn with
  | ind k ih =>
    intro w n m hk
    rw [countFrom, countFrom.eq_1 w m]
    split
    · rfl
    · rename_i hw
      exact ih _ (hk ▸ clearLowest_lt hw) _ n (m + 1) rfl

@[simp] theorem count_zero : count 0 = 0 := by decide +kernel

theorem count_eq_succ {w : UInt64} (h : w ≠ 0) : count w = count (clearLowest w) + 1 := by
  rw [count, countFrom, dif_neg h, countFrom_eq, Nat.add_comm]

@[simp] theorem count_allOnes : count allOnes = 64 := by decide +kernel

/-- Appends the positions of the set bits, counted from `base`. -/
def valuesInto (base : Nat) (w : UInt64) (out : Array UInt16) : Array UInt16 :=
  if _ : w = 0 then out
  else valuesInto base (clearLowest w) (out.push (base + lowest w).toUInt16)
termination_by w.toNat
decreasing_by exact clearLowest_lt ‹_›

/-- Clears the `n` lowest set bits. -/
def dropLowest (w : UInt64) : Nat → UInt64
  | 0 => w
  | n + 1 => dropLowest (clearLowest w) n

/-- The number of positions at which a run of set bits ends, given whether the position after the
word is set. -/
def runEnds (w : UInt64) (nextSet : Bool) : Nat :=
  count (~~~w &&& (w <<< 1)) + if test w 63 && !nextSet then 1 else 0

end Roaring.Word
