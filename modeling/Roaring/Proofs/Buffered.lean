import Roaring.Proofs.Buffered.Runs
import Roaring.Proofs.Buffered.Sorted

/-!
# Room asked for in advance

Every operation that builds runs or sorted values from two operands, or runs from values, asks for
room once. The room asked for depends on the sizes of the operands only, and no element comes up
for which there is none.
-/
namespace Roaring

open Buffer

theorem fill_of_leaves {α : Type} {e : Encoding} {room : Nat}
    {write : Buffer α room → Option (Buffer α room)} {xs : Array α} (hroom : room ≤ 131072)
    (h : Leaves (write (.empty room)) xs) : fill e room write = .ok (some xs) := by
  refine fill_eq ?_ h
  have hbytes : Storage.elementBytes e ≤ 8 := by cases e <;> decide
  exact Nat.le_trans (Nat.mul_le_mul hroom hbytes) (by decide)

namespace Runs

/-- The room that is asked for before an operation on two run lists. -/
def pairRoom (a b : Array Run) : Nat := a.size + b.size

/-- The room that is asked for before an operation on a run list and values. -/
def valuesRoom (runs : Array Run) (values : Array UInt16) : Nat := runs.size + values.size

/-- The operations on run lists keep to their room: a run for each run or value of the operands, and
for the runs of a list of values exactly as many as are counted in it. -/
structure KeepToRoom (a b : Array Run) (vs : Array UInt16) : Prop where
  union : fill .run (pairRoom a b) (Buffered.union a b) = .ok (some (union a b))
  inter : fill .run (pairRoom a b) (Buffered.inter a b) = .ok (some (inter a b))
  diff : fill .run (pairRoom a b) (Buffered.diff a b) = .ok (some (diff a b))
  symmDiff : fill .run (pairRoom a b) (Buffered.symmDiff a b) = .ok (some (symmDiff a b))
  unionValues :
    fill .run (valuesRoom a vs) (Buffered.unionValues a vs) = .ok (some (unionValues a vs))
  diffValues :
    fill .run (valuesRoom a vs) (Buffered.diffValues a vs) = .ok (some (diffValues a vs))
  symmDiffValues :
    fill .run (valuesRoom a vs) (Buffered.symmDiffValues a vs) = .ok (some (symmDiffValues a vs))
  ofValues : fill .run (countRuns vs) (Buffered.ofValues vs) = .ok (some (ofValues vs))
  size_ofValues : (Runs.ofValues vs).size = countRuns vs
  ofValues_isSome_iff room : (Buffered.ofValues vs (.empty room)).isSome ↔ countRuns vs ≤ room

theorem keepToRoom {a b : Array Run} {vs : Array UInt16} (ha : Valid a) (hb : Valid b)
    (hvs : Sorted.Increasing vs) : KeepToRoom a b vs := by
  have hsa := size_le ha
  have hsb := size_le hb
  have hsv := Sorted.size_le hvs
  have hpair : pairRoom a b ≤ 131072 := by
    unfold pairRoom
    omega
  have hroom : valuesRoom a vs ≤ 131072 := by
    unfold valuesRoom
    omega
  have hsize : (Runs.ofValues vs).size = countRuns vs :=
    (Runs.size_ofValues hvs).trans (countRuns_eq vs).symm
  have hsr := size_le (ofValues_spec hvs).1
  have hvalues : ∀ room, Buffered.ofValues vs (.empty room) = ofArray? (Runs.ofValues vs) :=
    Buffered.ofValues_eq vs
  exact {
    union := fill_of_leaves hpair Buffered.union_leaves
    inter := fill_of_leaves hpair Buffered.inter_leaves
    diff := fill_of_leaves hpair Buffered.diff_leaves
    symmDiff := fill_of_leaves hpair Buffered.symmDiff_leaves
    unionValues := fill_of_leaves hroom Buffered.unionValues_leaves
    diffValues := fill_of_leaves hroom Buffered.diffValues_leaves
    symmDiffValues := fill_of_leaves hroom Buffered.symmDiffValues_leaves
    ofValues := fill_of_leaves (by omega) (hvalues _ ▸ leaves_ofArray (Nat.le_of_eq hsize))
    size_ofValues := hsize
    ofValues_isSome_iff := fun room => by rw [hvalues, isSome_ofArray, hsize] }

end Runs

namespace Sorted

/-- The room that is asked for before an operation on two arrays: as much as the smaller array takes
for an intersection, as the left one for a difference, and as both for the others. -/
def room (op : SetOp) (a b : Array UInt16) : Nat :=
  match op with
  | .inter => min a.size b.size
  | .union => a.size + b.size
  | .diff => a.size
  | .symmDiff => a.size + b.size

/-- The operations on arrays keep to their room. -/
structure KeepToRoom (a b : Array UInt16) : Prop where
  union : fill .array (room .union a b) (Buffered.union a b) = .ok (some (union a b))
  inter : fill .array (room .inter a b) (Buffered.inter a b) = .ok (some (inter a b))
  diff : fill .array (room .diff a b) (Buffered.diff a b) = .ok (some (diff a b))
  symmDiff : fill .array (room .symmDiff a b) (Buffered.symmDiff a b) = .ok (some (symmDiff a b))

theorem keepToRoom {a b : Array UInt16} (ha : Increasing a) (hb : Increasing b) :
    KeepToRoom a b := by
  have hsa := size_le ha
  have hsb := size_le hb
  have hroom : ∀ op, room op a b ≤ 131072 := fun op => by
    cases op <;> simp only [room] <;> omega
  exact {
    union := fill_of_leaves (hroom .union) Buffered.union_leaves
    inter := fill_of_leaves (hroom .inter) Buffered.inter_leaves
    diff := fill_of_leaves (hroom .diff) Buffered.diff_leaves
    symmDiff := fill_of_leaves (hroom .symmDiff) Buffered.symmDiff_leaves }

end Sorted

/-- Whatever the operands, no operation on run lists or arrays of values holds more elements at any
time than it asked room for at its start, and each comes to its result. -/
theorem operations_keep_to_room {a b : Array Run} {vs ws : Array UInt16} (ha : Runs.Valid a)
    (hb : Runs.Valid b) (hvs : Sorted.Increasing vs) (hws : Sorted.Increasing ws) :
    Runs.KeepToRoom a b vs ∧ Sorted.KeepToRoom vs ws :=
  ⟨Runs.keepToRoom ha hb hvs, Sorted.keepToRoom hvs hws⟩

/-- Both cuts are inside the one run, so a difference and a symmetric difference need all the room
there is. -/
theorem operations_keep_to_room_cut_twice :
    (Runs.Valid #[⟨0, 9⟩] ∧ Runs.Valid #[⟨3, 2⟩, ⟨7, 0⟩] ∧ Sorted.Increasing #[1, 2, 65535] ∧
        Sorted.Increasing #[2, 3]) ∧
      Runs.KeepToRoom #[⟨0, 9⟩] #[⟨3, 2⟩, ⟨7, 0⟩] #[1, 2, 65535] ∧
        Sorted.KeepToRoom #[1, 2, 65535] #[2, 3] := by
  have ha : Runs.Valid #[⟨0, 9⟩] := by decide
  have hb : Runs.Valid #[⟨3, 2⟩, ⟨7, 0⟩] := by decide
  have hvs : Sorted.Increasing #[1, 2, 65535] := by decide
  have hws : Sorted.Increasing #[2, 3] := by decide
  exact ⟨⟨ha, hb, hvs, hws⟩, operations_keep_to_room ha hb hvs hws⟩

end Roaring
