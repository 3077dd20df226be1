/-!
# Runs

A run is a stretch of consecutive values, kept as its first value and the number of values that
follow it. Its end is a natural number: a run of the 16 bit domain stops at 65536 at most, and a
run that goes on past the domain is still a value of the type, though not a valid one.
-/
namespace Roaring

/-- The values `first`, `first + 1`, … of which `extra` follow the first. -/
structure Run where
  first : UInt16
  extra : UInt16
deriving DecidableEq

namespace Run

/-- The last value. -/
def last (r : Run) : Nat := r.first.toNat + r.extra.toNat

/-- The first value past the run. -/
def stop (r : Run) : Nat := r.last + 1

/-- The number of values. -/
def card (r : Run) : Nat := r.extra.toNat + 1

/-- The run of the values in `[start, stop)`. -/
def ofBounds (start stop : Nat) : Run := ⟨start.toUInt16, (stop - start - 1).toUInt16⟩

/-- The run of one value. -/
def single (v : UInt16) : Run := ⟨v, 0⟩

/-- The run of every value of the domain. -/
def whole : Run := ⟨0, 65535⟩

def Holds (r : Run) (v : Nat) : Prop := r.first.toNat ≤ v ∧ v < r.stop

instance (r : Run) (v : Nat) : Decidable (r.Holds v) :=
  inferInstanceAs (Decidable (_ ∧ _))

/-- Whether the run lies in the 16 bit domain. -/
def InDomain (r : Run) : Prop := r.stop ≤ 65536

instance (r : Run) : Decidable r.InDomain := inferInstanceAs (Decidable (_ ≤ _))

theorem first_lt_stop (r : Run) : r.first.toNat < r.stop := by
  unfold stop last; omega

theorem stop_eq (r : Run) : r.stop = r.first.toNat + r.card := by
  unfold stop last card; omega

theorem ofBounds_first_stop (r : Run) : ofBounds r.first.toNat r.stop = r := by
  cases r with
  | mk first extra =>
    have h : first.toNat + extra.toNat + 1 - first.toNat - 1 = extra.toNat := by omega
    simp [ofBounds, stop, last, h]

theorem first_ofBounds {start stop : Nat} (h : start < 65536) :
    (ofBounds start stop).first.toNat = start := by
  simp [ofBounds, Nat.mod_eq_of_lt h]

theorem stop_ofBounds {start stop : Nat} (h : start < stop) (h' : stop ≤ 65536) :
    (ofBounds start stop).stop = stop := by
  have h₁ : start % 65536 = start := Nat.mod_eq_of_lt (by omega)
  have h₂ : (stop - start - 1) % 65536 = stop - start - 1 := Nat.mod_eq_of_lt (by omega)
  simp only [Run.stop, last, ofBounds, UInt16.toNat_ofNat', Nat.toUInt16_eq]
  omega

end Run

end Roaring
