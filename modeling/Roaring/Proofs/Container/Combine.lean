import Roaring.Container.Overrun
import Roaring.Proofs.Container.Settled
import Roaring.Proofs.Runs.Tracker

/-!
# Combined containers

Every kernel of the four operations settles on the set that the operation asks for. A kernel that
two orders of operands share is stated for any set that amounts to its own.
-/
namespace Roaring.Container

variable {t : Thresholds} {p : UInt16 → Prop}

theorem test_combineWords (op : SetOp) (a b : Bitset) (v : UInt16) :
    (combineWords op a b).words.test v ↔ op.Holds (a.words.test v) (b.words.test v) := by
  rw [combineWords, Bitset.counted, Words.test_combine, SetOp.eval_iff]

theorem settled_combineWords {op : SetOp} {a b : Bitset}
    (hp : ∀ v, op.Holds (a.words.test v) (b.words.test v) ↔ p v) :
    Settled t p (compactBitset t (combineWords op a b)) :=
  settled_compactBitset (Bitset.exact_counted _) fun v => (test_combineWords op a b v).trans (hp v)

/-! ## Intersection -/

section Inter

theorem interRuns_spec {a b : Array Run} (ha : Runs.Valid a) (hb : Runs.Valid b) :
    Runs.Valid (interRuns a b) ∧ ∀ v : UInt16, Runs.covers (interRuns a b).toList v.toNat ↔
      Runs.covers a.toList v.toNat ∧ Runs.covers b.toList v.toNat := by
  unfold interRuns
  split_ifs with hfa hfb
  · exact ⟨hb, fun v => by simp [covers_of_isFull hfa v]⟩
  · exact ⟨ha, fun v => by simp [covers_of_isFull hfb v]⟩
  · obtain ⟨hvalid, hcov⟩ := Runs.inter_spec ha hb
    exact ⟨hvalid, fun v => by rw [hcov, Bool.and_eq_true]⟩

theorem settled_interArrayBitset {a : Array UInt16} (ha : Sorted.Increasing a) (b : Bitset)
    (hp : ∀ v, (v ∈ a ∧ b.words.test v) ↔ p v) :
    Settled t p (compactArray t (a.filter b.contains)) :=
  settled_compactArray (Sorted.increasing_filter ha _) fun v => by
    rw [Array.mem_filter, Bitset.contains, hp]

theorem settled_interArrayRun {a : Array UInt16} {r : Array Run} (ha : Sorted.Increasing a)
    (hr : Runs.Valid r) (hp : ∀ v : UInt16, (v ∈ a ∧ Runs.covers r.toList v.toNat) ↔ p v) :
    Settled t p (inter.interArrayRun t a r) := by
  unfold inter.interArrayRun
  split
  · rename_i hfull
    exact settled_compactArray ha fun v => by rw [← hp, and_iff_left (covers_of_isFull hfull v)]
  · rw [Runs.keepHeld_eq hr ha]
    exact settled_compactArray (Sorted.increasing_filter ha _) fun v => by
      rw [Array.mem_filter, hp]

theorem settled_interRunBitset {r : Array Run} {b : Bitset} (hr : Runs.Valid r) (hb : b.Exact)
    (hp : ∀ v : UInt16, (Runs.covers r.toList v.toNat ∧ b.words.test v) ↔ p v) :
    Settled t p (inter.interRunBitset t r b) := by
  unfold inter.interRunBitset
  split_ifs with hfull hcard
  · exact settled_compactBitset hb fun v => by rw [← hp, and_iff_right (covers_of_isFull hfull v)]
  · refine settled_array (Sorted.increasing_filter (Runs.increasing_values hr) _) ?_ fun v => ?_
    · exact Nat.le_trans Array.size_filter_le (by rwa [Runs.size_values])
    · rw [Array.mem_filter, Runs.mem_values hr, Bitset.contains, hp]
  · exact settled_compactBitset (Bitset.exact_eraseGaps hb r) fun v => by
      rw [Bitset.test_eraseGaps b hr, Bool.and_eq_true, and_comm, hp]

theorem interRunBitset_encoding (t : Thresholds) (r : Array Run) (b : Bitset) :
    (inter.interRunBitset t r b).encoding ≠ .run := by
  unfold inter.interRunBitset
  split_ifs
  · exact compactBitset_encoding t b
  · simp [encoding]
  · exact compactBitset_encoding t _

theorem settled_inter {a b : Container} (ha : a.Valid) (hb : b.Valid) :
    Settled t (fun v => v ∈ a ∧ v ∈ b) (inter t a b) := by
  cases a with
  | array as =>
    cases b with
    | array bs =>
      rw [inter, Sorted.inter_eq ha hb]
      exact settled_compactArray (Sorted.increasing_filter ha _) fun v => by simp [mem_array]
    | bitset b => exact settled_interArrayBitset ha b fun v => by rw [mem_array, mem_bitset]
    | run rs => exact settled_interArrayRun ha hb fun v => by rw [mem_array, mem_run hb]
  | bitset a =>
    cases b with
    | array bs =>
      exact settled_interArrayBitset hb a fun v => by rw [mem_array, mem_bitset, and_comm]
    | bitset b =>
      have htest := test_combineWords .inter a b
      simp only [SetOp.Holds, ← mem_bitset] at htest
      rw [inter]
      split
      · rename_i hle
        exact settled_array (Words.increasing_values _) (by rwa [Words.size_values]) htest
      · exact settled_bitset (Bitset.exact_counted _) rfl (Nat.lt_of_not_le ‹_›)
          fun v => mem_bitset.symm.trans (htest v)
    | run rs =>
      exact settled_interRunBitset hb ha fun v => by rw [mem_bitset, mem_run hb, and_comm]
  | run rs =>
    cases b with
    | array bs => exact settled_interArrayRun hb ha fun v => by rw [mem_array, mem_run ha, and_comm]
    | bitset b => exact settled_interRunBitset ha hb fun v => by rw [mem_bitset, mem_run ha]
    | run ss =>
      obtain ⟨hvalid, hcov⟩ := interRuns_spec ha hb
      exact settled_compactRuns hvalid fun v => by rw [hcov, mem_run ha, mem_run hb]

end Inter

/-! ## Union -/

section Union

theorem unionRunsArray_spec {r : Array Run} {a : Array UInt16} (hr : Runs.Valid r)
    (ha : Sorted.Increasing a) :
    Runs.Valid (unionRunsArray r a) ∧ ∀ v : UInt16,
      Runs.covers (unionRunsArray r a).toList v.toNat ↔ Runs.covers r.toList v.toNat ∨ v ∈ a := by
  unfold unionRunsArray
  split
  · rename_i hfull
    exact ⟨hr, fun v => by simp [covers_of_isFull hfull v]⟩
  · obtain ⟨hvalid, hcov⟩ := Runs.unionValues_spec hr ha
    exact ⟨hvalid, fun v => by rw [hcov, Bool.or_eq_true, decide_eq_true_iff]⟩

theorem unionRuns_spec {a b : Array Run} (ha : Runs.Valid a) (hb : Runs.Valid b) :
    Runs.Valid (unionRuns a b) ∧ ∀ v : UInt16, Runs.covers (unionRuns a b).toList v.toNat ↔
      Runs.covers a.toList v.toNat ∨ Runs.covers b.toList v.toNat := by
  unfold unionRuns
  split_ifs with hfa hfb
  · exact ⟨ha, fun v => by simp [covers_of_isFull hfa v]⟩
  · exact ⟨hb, fun v => by simp [covers_of_isFull hfb v]⟩
  · obtain ⟨hvalid, hcov⟩ := Runs.union_spec ha hb
    exact ⟨hvalid, fun v => by rw [hcov, Bool.or_eq_true]⟩

theorem settled_unionArrayBitset {b : Bitset} (hb : b.Exact) (a : Array UInt16)
    (hp : ∀ v, (b.words.test v ∨ v ∈ a) ↔ p v) :
    Settled t p (compactBitset t (b.insertAll a)) :=
  settled_compactBitset (Bitset.exact_insertAll hb a) fun v => by
    rw [Bitset.test_insertAll, Bool.or_eq_true, decide_eq_true_iff, hp]

theorem settled_unionRunBitset {r : Array Run} {b : Bitset} (hr : Runs.Valid r) (hb : b.Exact)
    (hp : ∀ v : UInt16, (Runs.covers r.toList v.toNat ∨ b.words.test v) ↔ p v) :
    Settled t p (union.unionRunBitset t r b) := by
  unfold union.unionRunBitset
  split
  · rename_i hfull
    rw [← compactRuns_of_isFull hfull]
    exact settled_compactRuns hr fun v => by simp [← hp, covers_of_isFull hfull v]
  · exact settled_compactBitset (Bitset.exact_insertRuns hb hr) fun v => by
      rw [Bitset.test_insertRuns, Bool.or_eq_true, or_comm, hp]

theorem size_union_le {a b : Array UInt16} (ha : Sorted.Increasing a) (hb : Sorted.Increasing b) :
    (Sorted.union a b).size ≤ a.size + b.size :=
  Sorted.size_le_of_mem (Sorted.increasing_union ha hb) fun v hv => (Sorted.mem_union a b v).mp hv

theorem settled_unionArrays {a b : Array UInt16} (ha : Sorted.Increasing a)
    (hb : Sorted.Increasing b) (hp : ∀ v, (v ∈ a ∨ v ∈ b) ↔ p v) :
    Settled t p (union t (array a) (array b)) := by
  rw [union]
  split
  · exact settled_array (Sorted.increasing_union ha hb) (Nat.le_trans (size_union_le ha hb) ‹_›)
      fun v => (Sorted.mem_union a b v).trans (hp v)
  · exact settled_unionArrayBitset (Bitset.exact_ofValues a) b fun v => by
      rw [Bitset.test_ofValues, decide_eq_true_iff, hp]

theorem settled_union {a b : Container} (ha : a.Valid) (hb : b.Valid) :
    Settled t (fun v => v ∈ a ∨ v ∈ b) (union t a b) := by
  cases a with
  | array as =>
    cases b with
    | array bs => exact settled_unionArrays ha hb fun v => by rw [mem_array, mem_array]
    | bitset b =>
      exact settled_unionArrayBitset hb as fun v => by rw [mem_array, mem_bitset, or_comm]
    | run rs =>
      obtain ⟨hvalid, hcov⟩ := unionRunsArray_spec hb ha
      exact settled_compactRuns hvalid fun v => by rw [hcov, mem_array, mem_run hb, or_comm]
  | bitset a =>
    cases b with
    | array bs => exact settled_unionArrayBitset ha bs fun v => by rw [mem_array, mem_bitset]
    | bitset b => exact settled_combineWords fun v => by rw [SetOp.Holds, mem_bitset, mem_bitset]
    | run rs =>
      exact settled_unionRunBitset hb ha fun v => by rw [mem_bitset, mem_run hb, or_comm]
  | run rs =>
    cases b with
    | array bs =>
      obtain ⟨hvalid, hcov⟩ := unionRunsArray_spec ha hb
      exact settled_compactRuns hvalid fun v => by rw [hcov, mem_array, mem_run ha]
    | bitset b => exact settled_unionRunBitset ha hb fun v => by rw [mem_bitset, mem_run ha]
    | run ss =>
      obtain ⟨hvalid, hcov⟩ := unionRuns_spec ha hb
      exact settled_compactRuns hvalid fun v => by rw [hcov, mem_run ha, mem_run hb]

end Union

/-! ## Difference -/

section Diff

theorem settled_diff {a b : Container} (ha : a.Valid) (hb : b.Valid) :
    Settled t (fun v => v ∈ a ∧ ¬v ∈ b) (diff t a b) := by
  cases a with
  | array as =>
    cases b with
    | array bs =>
      rw [diff, Sorted.diff_eq ha hb]
      exact settled_compactArray (Sorted.increasing_filter ha _) fun v => by simp [mem_array]
    | bitset b =>
      exact settled_compactArray (Sorted.increasing_filter ha _) fun v => by
        simp [mem_array, mem_bitset, Bitset.contains]
    | run rs =>
      rw [diff]
      split
      · rename_i hfull
        exact settled_empty fun v hv => hv.2 ((mem_run hb).mpr (covers_of_isFull hfull v))
      · rw [Runs.dropHeld_eq hb ha]
        exact settled_compactArray (Sorted.increasing_filter ha _) fun v => by
          simp [mem_array, mem_run hb]
  | bitset a =>
    cases b with
    | array bs =>
      exact settled_compactBitset (Bitset.exact_eraseAll ha bs) fun v => by
        simp [Bitset.test_eraseAll, mem_bitset, mem_array]
    | bitset b => exact settled_combineWords fun v => by rw [SetOp.Holds, mem_bitset, mem_bitset]
    | run rs =>
      exact settled_compactBitset (Bitset.exact_eraseRuns ha hb) fun v => by
        simp [Bitset.test_eraseRuns, mem_bitset, mem_run hb]
  | run rs =>
    have hvalues := Runs.increasing_values ha
    have hsize : ∀ q : UInt16 → Bool, Runs.card rs ≤ t.maxArraySize →
        ((Runs.values rs).filter q).size ≤ t.maxArraySize := fun q hle =>
      Nat.le_trans Array.size_filter_le (by rwa [Runs.size_values])
    cases b with
    | array bs =>
      rw [diff]
      split
      · rw [Sorted.dropShared_eq hvalues hb]
        exact settled_array (Sorted.increasing_filter hvalues _) (hsize _ ‹_›) fun v => by
          simp [Runs.mem_values ha, mem_run ha, mem_array]
      · obtain ⟨hvalid, hcov⟩ := Runs.diffValues_spec ha hb
        exact settled_compactRuns hvalid fun v => by simp [hcov, mem_run ha, mem_array]
    | bitset b =>
      rw [diff]
      split
      · exact settled_array (Sorted.increasing_filter hvalues _) (hsize _ ‹_›) fun v => by
          simp [Runs.mem_values ha, mem_run ha, mem_bitset, Bitset.contains]
      · exact settled_combineWords fun v => by
          rw [SetOp.Holds, Bitset.test_ofRuns, mem_run ha, mem_bitset]
    | run ss =>
      obtain ⟨hvalid, hcov⟩ := Runs.diff_spec ha hb
      exact settled_compactRuns hvalid fun v => by simp [hcov, mem_run ha, mem_run hb]

end Diff

/-! ## Symmetric difference -/

section SymmDiff

theorem size_symmDiff_le {a b : Array UInt16} (ha : Sorted.Increasing a)
    (hb : Sorted.Increasing b) : (Sorted.symmDiff a b).size ≤ a.size + b.size :=
  Sorted.size_le_of_mem (Sorted.increasing_symmDiff ha hb) fun v hv =>
    ((Sorted.mem_symmDiff ha hb v).mp hv).imp And.left And.left

theorem settled_symmDiffArrayBitset {a : Array UInt16} {b : Bitset} (ha : Sorted.Increasing a)
    (hb : b.Exact) (hp : ∀ v, (b.words.test v ∧ ¬v ∈ a ∨ v ∈ a ∧ ¬b.words.test v) ↔ p v) :
    Settled t p (compactBitset t (b.toggleAll a)) :=
  settled_compactBitset (Bitset.exact_toggleAll hb a) fun v => by
    rw [Bitset.test_toggleAll b v ha, ← hp]
    by_cases hv : v ∈ a <;> simp [hv]

theorem settled_symmDiffArrays {a b : Array UInt16} (ha : Sorted.Increasing a)
    (hb : Sorted.Increasing b) (hp : ∀ v, (v ∈ a ∧ ¬v ∈ b ∨ v ∈ b ∧ ¬v ∈ a) ↔ p v) :
    Settled t p (symmDiffArrays t a b) := by
  unfold symmDiffArrays
  split
  · exact settled_array (Sorted.increasing_symmDiff ha hb)
      (Nat.le_trans (size_symmDiff_le ha hb) ‹_›) fun v =>
      (Sorted.mem_symmDiff ha hb v).trans (hp v)
  · exact settled_symmDiffArrayBitset hb (Bitset.exact_ofValues a) fun v => by
      rw [Bitset.test_ofValues, decide_eq_true_iff, hp]

theorem settled_symmDiffRunArray {r : Array Run} {a : Array UInt16} (hr : Runs.Valid r)
    (ha : Sorted.Increasing a) (hp : ∀ v : UInt16, (Runs.covers r.toList v.toNat ∧ ¬v ∈ a ∨
      v ∈ a ∧ ¬Runs.covers r.toList v.toNat) ↔ p v) :
    Settled t p (symmDiff.symmDiffRunArray t r a) := by
  unfold symmDiff.symmDiffRunArray
  split_ifs
  · obtain ⟨hvalid, hcov⟩ := Runs.symmDiffValues_spec hr ha
    refine settled_compactRuns hvalid fun v => ?_
    rw [hcov, ← hp]
    by_cases hv : v ∈ a <;> simp [hv]
  · exact settled_symmDiffArrays (Runs.increasing_values hr) ha fun v => by
      rw [Runs.mem_values hr, hp]
  · exact settled_symmDiffArrayBitset ha (Bitset.exact_ofRuns hr) fun v => by
      rw [Bitset.test_ofRuns, hp]

theorem settled_symmDiffRunBitset {r : Array Run} {b : Bitset} (hr : Runs.Valid r)
    (hb : b.Exact) (hp : ∀ v : UInt16, (Runs.covers r.toList v.toNat ∧ ¬b.words.test v ∨
      b.words.test v ∧ ¬Runs.covers r.toList v.toNat) ↔ p v) :
    Settled t p (compactBitset t (b.toggleRuns r)) :=
  settled_compactBitset (Bitset.exact_toggleRuns hb hr) fun v => by
    rw [Bitset.test_toggleRuns b hr, ← hp]
    cases b.words.test v <;> simp

theorem settled_symmDiff {a b : Container} (ha : a.Valid) (hb : b.Valid) :
    Settled t (fun v => v ∈ a ∧ ¬v ∈ b ∨ v ∈ b ∧ ¬v ∈ a) (symmDiff t a b) := by
  cases a with
  | array as =>
    cases b with
    | array bs => exact settled_symmDiffArrays ha hb fun v => by rw [mem_array, mem_array]
    | bitset b =>
      exact settled_symmDiffArrayBitset ha hb fun v => by rw [mem_array, mem_bitset, or_comm]
    | run rs =>
      exact settled_symmDiffRunArray hb ha fun v => by rw [mem_array, mem_run hb, or_comm]
  | bitset a =>
    cases b with
    | array bs => exact settled_symmDiffArrayBitset hb ha fun v => by rw [mem_array, mem_bitset]
    | bitset b => exact settled_combineWords fun v => by rw [SetOp.Holds, mem_bitset, mem_bitset]
    | run rs =>
      exact settled_symmDiffRunBitset hb ha fun v => by rw [mem_bitset, mem_run hb, or_comm]
  | run rs =>
    cases b with
    | array bs => exact settled_symmDiffRunArray ha hb fun v => by rw [mem_array, mem_run ha]
    | bitset b => exact settled_symmDiffRunBitset ha hb fun v => by rw [mem_bitset, mem_run ha]
    | run ss =>
      obtain ⟨hvalid, hcov⟩ := Runs.symmDiff_spec ha hb
      refine settled_compactRuns hvalid fun v => ?_
      rw [hcov, mem_run ha, mem_run hb]
      cases Runs.covers rs.toList v.toNat <;> simp

end SymmDiff

/-! ## Every operation -/

theorem settled_combine (t : Thresholds) (op : SetOp) {a b : Container} (ha : a.Valid)
    (hb : b.Valid) : Settled t (fun v => op.Holds (v ∈ a) (v ∈ b)) (combine t op a b) := by
  cases op with
  | inter => exact settled_inter ha hb
  | union => exact settled_union ha hb
  | diff => exact settled_diff ha hb
  | symmDiff => exact settled_symmDiff ha hb

theorem symmDiffArrays_encoding (t : Thresholds) (a b : Array UInt16) :
    (symmDiffArrays t a b).encoding ≠ .run := by
  unfold symmDiffArrays
  split
  · simp [encoding]
  · exact compactBitset_encoding t _

/-- Operands without runs have a result without runs. -/
theorem combine_encoding (t : Thresholds) (op : SetOp) {a b : Container}
    (ha : a.encoding ≠ .run) (hb : b.encoding ≠ .run) : (combine t op a b).encoding ≠ .run := by
  cases a with
  | run rs => exact absurd rfl ha
  | array as =>
    cases b with
    | run rs => exact absurd rfl hb
    | array bs =>
      cases op with
      | inter => exact compactArray_encoding t _
      | union =>
        simp only [combine, union]
        split
        · simp [encoding]
        · exact compactBitset_encoding t _
      | diff => exact compactArray_encoding t _
      | symmDiff => exact symmDiffArrays_encoding t as bs
    | bitset b =>
      cases op with
      | inter | diff => exact compactArray_encoding t _
      | union | symmDiff => exact compactBitset_encoding t _
  | bitset a =>
    cases b with
    | run rs => exact absurd rfl hb
    | array bs =>
      cases op with
      | inter => exact compactArray_encoding t _
      | union | diff | symmDiff => exact compactBitset_encoding t _
    | bitset b =>
      cases op with
      | inter =>
        simp only [combine, inter]
        split <;> simp [encoding]
      | union | diff | symmDiff => exact compactBitset_encoding t _

/-! ## Runs written into bitsets -/

theorem valid_expandWrites (t : Thresholds) {rs : Array Run} (h : Runs.Valid rs) :
    Runs.Valid (expandWrites t rs) := by
  unfold expandWrites
  split
  · exact Runs.validList_nil
  · exact h

theorem valid_compactRunsWrites (t : Thresholds) {rs : Array Run} (h : Runs.Valid rs) :
    Runs.Valid (compactRunsWrites t rs) := by
  unfold compactRunsWrites
  split
  · exact Runs.validList_nil
  · exact valid_expandWrites t h

theorem valid_compactWrites (t : Thresholds) {c : Container} (h : c.Valid) :
    Runs.Valid (compactWrites t c) := by
  cases c with
  | array vs => exact Runs.validList_nil
  | bitset b => exact Runs.validList_nil
  | run rs => exact valid_compactRunsWrites t h

theorem valid_combineRuns (op : SetOp) {a b : Array Run} (ha : Runs.Valid a)
    (hb : Runs.Valid b) : Runs.Valid (combineRuns op a b) := by
  cases op with
  | inter => exact (interRuns_spec ha hb).1
  | union => exact (unionRuns_spec ha hb).1
  | diff => exact (Runs.diff_spec ha hb).1
  | symmDiff => exact (Runs.symmDiff_spec ha hb).1

theorem valid_symmDiffRunArrayWrites (t : Thresholds) {r : Array Run} {a : Array UInt16}
    (hr : Runs.Valid r) (ha : Sorted.Increasing a) :
    Runs.Valid (combineWrites.symmDiffRunArrayWrites t r a) := by
  unfold combineWrites.symmDiffRunArrayWrites
  split
  · exact valid_compactRunsWrites t (Runs.symmDiffValues_spec hr ha).1
  · exact valid_expandWrites t hr

theorem valid_combineWrites (t : Thresholds) (op : SetOp) {a b : Container} (ha : a.Valid)
    (hb : b.Valid) : Runs.Valid (combineWrites t op a b) := by
  unfold combineWrites
  split
  · exact valid_compactRunsWrites t (valid_combineRuns _ ha hb)
  · exact valid_compactRunsWrites t (unionRunsArray_spec hb ha).1
  · exact valid_compactRunsWrites t (unionRunsArray_spec ha hb).1
  · exact hb
  · exact ha
  · exact hb
  · split
    · exact Runs.validList_nil
    · exact valid_compactRunsWrites t (Runs.diffValues_spec ha hb).1
  · exact valid_expandWrites t ha
  · exact valid_symmDiffRunArrayWrites t hb ha
  · exact valid_symmDiffRunArrayWrites t ha hb
  · exact hb
  · exact ha
  · exact Runs.validList_nil

/-- Valid containers combine whatever they hold: no run list of theirs overruns the domain. -/
theorem combine?_eq (t : Thresholds) (op : SetOp) {a b : Container} (ha : a.Valid)
    (hb : b.Valid) : combine? t op a b = some (combine t op a b) :=
  unlessOverrun_of_valid (valid_combineWrites t op ha hb) _

theorem compact?_eq (t : Thresholds) {c : Container} (h : c.Valid) :
    compact? t c = some (compact t c) :=
  unlessOverrun_of_valid (valid_compactWrites t h) _

/-! ## The contract of an operation -/

/-- Every operation on valid containers has a result. It is valid and canonical, holds what the
operation asks for and stays as it is when settled again; without runs among the operands its
encoding follows from its size. -/
theorem combine_settles (t : Thresholds) (op : SetOp) (a b : Container) (ha : a.Valid)
    (hb : b.Valid) :
    ∃ c, combine? t op a b = some c ∧ c.Valid ∧ Sorted.Increasing c.values ∧
      (∀ v, v ∈ c ↔ op.Holds (v ∈ a) (v ∈ b)) ∧ c.Canonical t ∧ compact? t c = some c ∧
      (a.encoding ≠ .run → b.encoding ≠ .run →
        c.encoding = if c.card ≤ t.maxArraySize then .array else .bitset) := by
  have h := settled_combine t op ha hb
  refine ⟨combine t op a b, combine?_eq t op ha hb, h.valid, increasing_values h.valid, h.mem,
    h.canonical, ?_, fun hna hnb => ?_⟩
  · rw [compact?_eq t h.valid, h.compact_eq]
  · rw [card_eq_size h.valid]
    exact h.encoding_eq (combine_encoding t op hna hnb)

theorem combine_settles_array_run :
    (array #[1, 3]).Valid ∧ (run #[⟨2, 1⟩]).Valid ∧
      ∃ c, combine? .standard .symmDiff (array #[1, 3]) (run #[⟨2, 1⟩]) = some c ∧
        ∀ v, v ∈ c ↔ SetOp.symmDiff.Holds (v ∈ array #[1, 3]) (v ∈ run #[⟨2, 1⟩]) := by
  have ha : (array #[1, 3]).Valid := by
    show Sorted.Increasing #[1, 3]
    decide
  have hb : (run #[⟨2, 1⟩]).Valid := ⟨by decide, by decide⟩
  obtain ⟨c, hc, -, -, hmem, -⟩ := combine_settles .standard .symmDiff _ _ ha hb
  exact ⟨ha, hb, c, hc, hmem⟩

end Roaring.Container
