/-!
# Thresholds

The three tunables of the container engine. They decide which encoding a result gets and which
of two kernels computes it, never which values the result holds.
-/
namespace Roaring

/-- The tunables of the container engine. -/
structure Thresholds where
  /-- The largest number of values kept as an array; a bitset at or below it becomes one. -/
  maxArraySize : Nat := 4096
  /-- A deferred union or symmetric difference of two arrays stays an array while the operands
  together hold at most this many values. -/
  lazyArrayBound : Nat := 1024
  /-- An array with fewer values than this is toggled in a run list directly. -/
  xorSmallArray : Nat := 32
deriving DecidableEq

namespace Thresholds

/-- The thresholds used when none are given. -/
def standard : Thresholds := {}

instance : Inhabited Thresholds := ⟨standard⟩

def withMaxArraySize (t : Thresholds) (n : Nat) : Thresholds := { t with maxArraySize := n }

def withLazyArrayBound (t : Thresholds) (n : Nat) : Thresholds := { t with lazyArrayBound := n }

def withXorSmallArray (t : Thresholds) (n : Nat) : Thresholds := { t with xorSmallArray := n }

end Thresholds

end Roaring
