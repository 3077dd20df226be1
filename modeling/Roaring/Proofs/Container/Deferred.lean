import Roaring.Container.Defer
import Roaring.Proofs.Container.Shapes

/-!
# Unfinished containers

An unfinished outcome is valid and already holds the values that the operation asks for; only its
encoding is left to settle. That also goes for a bitset that takes in another container.
-/
namespace Roaring.Container

theorem mem_defer (t : Thresholds) (op : SetOp) {a b : Container} (ha : a.Valid) (hb : b.Valid)
    (v : UInt16) : v ∈ defer t op a b ↔ op.Holds (v ∈ a) (v ∈ b) := by
  have hsettled := settled_compact (t := t) (valid_defer t op ha hb)
  rw [← hsettled.mem v, compact_defer t op ha hb]
  exact (settled_combine t op ha hb).mem v

/-- Ranges written one after the other. -/
theorem test_putRuns (ws : Words) (rs : List Run) (v : UInt16) :
    (rs.foldl (fun ws r => ws.putRange r.first.toNat r.stop) ws).test v =
      (ws.test v || Runs.covers rs v.toNat) := by
  induction rs generalizing ws with
  | nil => simp
  | cons r rs ih => rw [List.foldl_cons, ih, Words.test_putRange, Runs.covers_cons, Bool.or_assoc]

theorem test_takeIn (ws : Words) {c : Container} (h : c.Valid) (v : UInt16) :
    (takeIn ws c).test v ↔ ws.test v ∨ v ∈ c := by
  cases c with
  | array vs =>
    rw [takeIn, (Words.putAll_spec ws vs).1, Bool.or_eq_true, decide_eq_true_iff, mem_array]
  | bitset b =>
    rw [takeIn, Words.test_combine, SetOp.eval_iff, mem_bitset]
    rfl
  | run rs =>
    rw [takeIn, ← Array.foldl_toList, test_putRuns, Bool.or_eq_true, mem_run h]

/-- Ranges toggled one after the other. -/
theorem test_flipRuns (ws : Words) (rs : List Run) (v : UInt16) :
    (rs.foldl (fun ws r => ws.flipRange r.first.toNat r.stop) ws).test v =
      (ws.test v ^^ Runs.coversOdd rs v.toNat) := by
  induction rs generalizing ws with
  | nil => simp [Runs.coversOdd]
  | cons r rs ih =>
    rw [List.foldl_cons, ih, Words.test_flipRange, Runs.coversOdd, Bool.xor_assoc]

theorem test_toggleIn (ws : Words) {c : Container} (h : c.Valid) (v : UInt16) :
    (toggleIn ws c).test v ↔ SetOp.symmDiff.Holds (ws.test v) (v ∈ c) := by
  cases c with
  | array vs =>
    have hbits := SetOp.eval_iff .symmDiff (ws.test v) (decide (v ∈ vs))
    rw [decide_eq_true_iff] at hbits
    rw [toggleIn, Words.test_flipAll h]
    exact hbits
  | bitset b =>
    rw [toggleIn, Words.test_combine, SetOp.eval_iff, mem_bitset]
  | run rs =>
    rw [toggleIn, ← Array.foldl_toList, test_flipRuns, (Runs.ValidList.ordered h).coversOdd_eq,
      mem_run h]
    exact SetOp.eval_iff .symmDiff _ _

theorem absorbDeferred_union_spec (t : Thresholds) {a b : Container} (ha : a.Valid)
    (hb : b.Valid) :
    (absorbDeferred t .union a b).Valid ∧
      ∀ v, v ∈ absorbDeferred t .union a b ↔ v ∈ a ∨ v ∈ b := by
  have hdefer : (defer t .union a b).Valid ∧ ∀ v, v ∈ defer t .union a b ↔ v ∈ a ∨ v ∈ b :=
    ⟨valid_defer t .union ha hb, mem_defer t .union ha hb⟩
  cases a with
  | array vs => exact hdefer
  | bitset s =>
    refine ⟨Bitset.exact_uncounted _, fun v => ?_⟩
    rw [mem_bitset]
    exact mem_bitset.trans (test_takeIn s.words hb v)
  | run rs => exact hdefer

/-- Whether an unfinished outcome is a new container or takes the place of the left operand, it is
valid and holds the values that the operation asks for. -/
theorem absorbDeferred_spec (t : Thresholds) (op : SetOp) {a b : Container} (ha : a.Valid)
    (hb : b.Valid) :
    (absorbDeferred t op a b).Valid ∧
      ∀ v, v ∈ absorbDeferred t op a b ↔ op.Holds (v ∈ a) (v ∈ b) := by
  have hdefer : (defer t op a b).Valid ∧ ∀ v, v ∈ defer t op a b ↔ op.Holds (v ∈ a) (v ∈ b) :=
    ⟨valid_defer t op ha hb, mem_defer t op ha hb⟩
  have habsorb : (absorb t op a b).Valid ∧
      ∀ v, v ∈ absorb t op a b ↔ op.Holds (v ∈ a) (v ∈ b) :=
    ⟨(settled_absorb t op ha hb).valid, (settled_absorb t op ha hb).mem⟩
  cases op with
  | inter => exact habsorb
  | diff => exact habsorb
  | union => exact absorbDeferred_union_spec t ha hb
  | symmDiff =>
    cases a with
    | array vs => exact hdefer
    | bitset s =>
      refine ⟨Bitset.exact_uncounted _, fun v => ?_⟩
      rw [mem_bitset]
      exact mem_bitset.trans (test_toggleIn s.words hb v)
    | run rs => exact hdefer

theorem defer?_eq (t : Thresholds) (op : SetOp) {a b : Container} (ha : a.Valid) (hb : b.Valid) :
    defer? t op a b = some (defer t op a b) :=
  unlessOverrun_of_valid (valid_deferWrites t op ha hb) _

theorem absorbDeferred?_eq (t : Thresholds) (op : SetOp) {a b : Container} (ha : a.Valid)
    (hb : b.Valid) : absorbDeferred? t op a b = some (absorbDeferred t op a b) :=
  unlessOverrun_of_valid (valid_deferWrites t op ha hb) _

end Roaring.Container
