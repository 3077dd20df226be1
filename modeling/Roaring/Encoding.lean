/-!
# Encodings and set operations

A container stores its values in one of three encodings, and sets combine by one of four
operations. `SetOp.eval` and `SetOp.Holds` are the truth table of an operation: whether the result
holds a value, given whether each operand holds it. Every other account of an operation answers
to it.
-/
namespace Roaring

/-- How a container stores its values. -/
inductive Encoding where
  /-- The sorted list of the values. -/
  | array
  /-- One bit for each value of the domain. -/
  | bitset
  /-- The sorted list of the maximal runs of consecutive values. -/
  | run
deriving DecidableEq

namespace Encoding

/-- The name shown to users. -/
def name : Encoding → String
  | array => "array"
  | bitset => "bitset"
  | run => "run"

/-- Every encoding, in the order in which they are listed to users. -/
def all : List Encoding := [array, bitset, run]

end Encoding

/-- A binary operation on sets. -/
inductive SetOp where
  | inter
  | union
  /-- The values of the left operand that the right one lacks. -/
  | diff
  /-- The values of exactly one operand. -/
  | symmDiff
deriving DecidableEq

namespace SetOp

/-- Whether a value is in the result, given whether each operand holds it. -/
def eval : SetOp → Bool → Bool → Bool
  | inter, a, b => a && b
  | union, a, b => a || b
  | diff, a, b => a && !b
  | symmDiff, a, b => a ^^ b

/-- The truth table on propositions. -/
def Holds : SetOp → Prop → Prop → Prop
  | inter, p, q => p ∧ q
  | union, p, q => p ∨ q
  | diff, p, q => p ∧ ¬q
  | symmDiff, p, q => p ∧ ¬q ∨ q ∧ ¬p

theorem eval_iff (op : SetOp) (a b : Bool) : op.eval a b ↔ op.Holds a b := by
  cases op <;> cases a <;> cases b <;> simp [eval, Holds]

/-- The operation on 64 values at once, one per bit. -/
def onWords : SetOp → UInt64 → UInt64 → UInt64
  | inter, a, b => a &&& b
  | union, a, b => a ||| b
  | diff, a, b => a &&& ~~~b
  | symmDiff, a, b => a ^^^ b

/-- Whether values that only the left operand holds are in the result. -/
def keepsLeft (op : SetOp) : Bool := op.eval true false

/-- Whether values that only the right operand holds are in the result. -/
def keepsRight (op : SetOp) : Bool := op.eval false true

theorem keepsLeft_of_keepsRight (op : SetOp) (h : op.keepsRight) : op.keepsLeft := by
  cases op <;> first | rfl | cases h

theorem holds_false_right (op : SetOp) (p : Prop) : op.Holds p False ↔ op.keepsLeft ∧ p := by
  cases op <;> simp [Holds, keepsLeft, eval]

theorem holds_false_left (op : SetOp) (q : Prop) : op.Holds False q ↔ op.keepsRight ∧ q := by
  cases op <;> simp [Holds, keepsRight, eval]

end SetOp

end Roaring
