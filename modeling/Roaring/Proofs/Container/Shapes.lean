import Roaring.Proofs.Container.Combine

/-!
# Call shapes

An operation can build a new container, change the left operand in place, or leave its outcome
unfinished for `compact` to settle. The three have separate kernels, and all of them come to the
same container. Where a kernel may answer with runs, the shapes share it; everywhere else both
outcomes settle on one set without runs, and there is one such container.
-/
namespace Roaring.Container

variable {t : Thresholds} {p : UInt16 → Prop}

theorem eq_compactBitset {b : Bitset} {c : Container} (hc : Settled t p c)
    (hrun : c.encoding ≠ .run) (h : b.Exact) (hmem : ∀ v, b.words.test v ↔ p v) :
    compactBitset t b = c :=
  (settled_compactBitset h hmem).unique hc (compactBitset_encoding t b) hrun

/-! ## In place -/

theorem keepFrom_eq {a b : Container} (ha : a.Valid) (hb : b.Valid) :
    keepFrom t a b = combine t .inter a b := by
  cases a with
  | run rs => rfl
  | array as =>
    cases b with
    | array bs =>
      simp only [keepFrom, combine, inter]
      rw [Sorted.keepShared_eq ha hb, Sorted.inter_eq ha hb]
    | bitset b => rfl
    | run rs => rfl
  | bitset a =>
    cases b with
    | array bs => rfl
    | bitset b =>
      refine eq_compactBitset (settled_combine t .inter ha hb)
        (combine_encoding t .inter (by simp [encoding]) (by simp [encoding]))
        (Bitset.exact_counted _) fun v => ?_
      rw [mem_bitset, mem_bitset]
      exact test_combineWords .inter a b v
    | run rs =>
      refine eq_compactBitset (settled_combine t .inter ha hb) (interRunBitset_encoding t rs a)
        ?_ fun v => ?_
      · split
        · exact ha
        · exact Bitset.exact_eraseGaps ha rs
      · rw [SetOp.Holds, mem_bitset, mem_run hb]
        split
        · rename_i hfull
          rw [and_iff_left (covers_of_isFull hfull v)]
        · rw [Bitset.test_eraseGaps a hb, Bool.and_eq_true]

theorem addFrom_eq (t : Thresholds) (a b : Container) : addFrom t a b = combine t .union a b := by
  cases a with
  | run rs => rfl
  | array as =>
    cases b with
    | array bs =>
      simp only [addFrom, combine, union]
      split_ifs
      · omega
      · rfl
      · rfl
      · omega
    | bitset b => rfl
    | run rs => rfl
  | bitset a =>
    cases b with
    | array bs => rfl
    | bitset b => rfl
    | run rs => rfl

theorem dropFrom_eq {a b : Container} (ha : a.Valid) (hb : b.Valid) :
    dropFrom t a b = combine t .diff a b := by
  cases a with
  | run rs => rfl
  | array as =>
    cases b with
    | array bs =>
      simp only [dropFrom, combine, diff]
      rw [Sorted.dropShared_eq ha hb, Sorted.diff_eq ha hb]
    | bitset b => rfl
    | run rs =>
      simp only [dropFrom, combine, diff]
      split
      · rename_i hfull
        rw [Runs.dropHeld_eq hb ha, Array.filter_eq_empty_iff.mpr]
        · exact if_pos (Nat.zero_le _)
        · intro v _
          simp [covers_of_isFull hfull v]
      · rfl
  | bitset a =>
    cases b with
    | array bs => rfl
    | bitset b => rfl
    | run rs => rfl

theorem toggleFrom_eq (t : Thresholds) (a b : Container) :
    toggleFrom t a b = combine t .symmDiff a b := by
  cases a with
  | run rs => rfl
  | array as =>
    cases b with
    | array bs =>
      simp only [toggleFrom, combine, symmDiff, symmDiffArrays]
      split_ifs
      · omega
      · rfl
      · rfl
      · omega
    | bitset b => rfl
    | run rs => rfl
  | bitset a =>
    cases b with
    | array bs => rfl
    | bitset b => rfl
    | run rs => rfl

theorem absorb_eq (t : Thresholds) (op : SetOp) {a b : Container} (ha : a.Valid) (hb : b.Valid) :
    absorb t op a b = combine t op a b := by
  cases op with
  | inter => exact keepFrom_eq ha hb
  | union => exact addFrom_eq t a b
  | diff => exact dropFrom_eq ha hb
  | symmDiff => exact toggleFrom_eq t a b

theorem settled_absorb (t : Thresholds) (op : SetOp) {a b : Container} (ha : a.Valid)
    (hb : b.Valid) : Settled t (fun v => op.Holds (v ∈ a) (v ∈ b)) (absorb t op a b) := by
  rw [absorb_eq t op ha hb]
  exact settled_combine t op ha hb

/-! ## Unfinished -/

theorem compactBitset_congr {a b : Bitset} (ha : a.Exact) (hb : b.Exact)
    (h : ∀ v, a.words.test v = b.words.test v) : compactBitset t a = compactBitset t b :=
  eq_compactBitset (settled_compactBitset (p := fun v => b.words.test v) hb fun _ => Iff.rfl)
    (compactBitset_encoding t b) ha fun v => by rw [h]

theorem compact_uncounted {ws : Words} {b : Bitset} (hb : b.Exact)
    (h : ∀ v, ws.test v = b.words.test v) :
    compact t (bitset (.uncounted ws)) = compactBitset t b :=
  compactBitset_congr (Bitset.exact_uncounted ws) hb h

theorem compact_deferUnion {a b : Container} (ha : a.Valid) (hb : b.Valid) :
    compact t (deferUnion t a b) = combine t .union a b := by
  have htaken : ∀ {s : Bitset}, s.Exact → ∀ vs : Array UInt16,
      compact t (bitset (.uncounted (s.words.putAll vs).1)) = compactBitset t (s.insertAll vs) :=
    fun hs vs => compact_uncounted (Bitset.exact_insertAll hs vs) fun v => by
      rw [Bitset.test_insertAll, (Words.putAll_spec _ vs).1]
  have hruns : ∀ {r : Array Run} {s : Bitset}, Runs.Valid r → s.Exact →
      compact t (deferUnion.deferRunBitset r s) = union.unionRunBitset t r s := by
    intro r s hr hs
    unfold deferUnion.deferRunBitset union.unionRunBitset
    split
    · exact compactRuns_of_isFull ‹_›
    · exact compactBitset_congr (Bitset.exact_insertRuns (Bitset.exact_uncounted _) hr)
        (Bitset.exact_insertRuns hs hr) fun v => by
          rw [Bitset.test_insertRuns, Bitset.test_insertRuns, Bitset.uncounted]
  cases a with
  | array as =>
    cases b with
    | array bs =>
      simp only [deferUnion]
      split
      · exact (settled_union ha hb).compact_eq
      · refine eq_compactBitset (settled_combine t .union ha hb)
          (combine_encoding t .union (by simp [encoding]) (by simp [encoding]))
          (Bitset.exact_uncounted _) fun v => ?_
        rw [Bitset.uncounted, (Words.putAll_spec _ bs).1, Bitset.test_ofValues]
        simp [SetOp.Holds, mem_array]
    | bitset b => exact htaken hb as
    | run rs => rfl
  | bitset a =>
    cases b with
    | array bs => exact htaken ha bs
    | bitset b => exact compact_uncounted (Bitset.exact_counted _) fun v => rfl
    | run rs => exact hruns hb ha
  | run rs =>
    cases b with
    | array bs => rfl
    | bitset b => exact hruns ha hb
    | run ss => rfl

theorem compact_deferSymmDiffArrays {a b : Array UInt16} (ha : Sorted.Increasing a)
    (hb : Sorted.Increasing b) :
    compact t (deferSymmDiffArrays t a b) = symmDiffArrays t a b := by
  have hsettled := settled_symmDiffArrays (t := t) ha hb fun v => Iff.rfl
  unfold deferSymmDiffArrays
  split
  · exact hsettled.compact_eq
  · refine eq_compactBitset hsettled (symmDiffArrays_encoding t a b) (Bitset.exact_uncounted _)
      fun v => ?_
    rw [Bitset.uncounted, Words.test_flipAll hb, Bitset.test_ofValues]
    by_cases hv : v ∈ b <;> simp [hv]

theorem compact_deferSymmDiff {a b : Container} (ha : a.Valid) (hb : b.Valid) :
    compact t (deferSymmDiff t a b) = combine t .symmDiff a b := by
  have htoggled : ∀ {s : Bitset}, s.Exact → ∀ vs : Array UInt16,
      compact t (bitset (.uncounted (s.words.flipAll vs).1)) = compactBitset t (s.toggleAll vs) :=
    fun hs vs => compact_uncounted (Bitset.exact_toggleAll hs vs) fun v => rfl
  have hbits : ∀ {r : Array Run} {s : Bitset}, Runs.Valid r → s.Exact →
      compact t (bitset ((Bitset.uncounted s.words).toggleRuns r)) =
        compactBitset t (s.toggleRuns r) := fun hr hs =>
    compactBitset_congr (Bitset.exact_toggleRuns (Bitset.exact_uncounted _) hr)
      (Bitset.exact_toggleRuns hs hr) fun v => by
        rw [Bitset.test_toggleRuns _ hr, Bitset.test_toggleRuns _ hr, Bitset.uncounted]
  have hruns : ∀ {r : Array Run} {vs : Array UInt16}, Runs.Valid r → Sorted.Increasing vs →
      compact t (deferSymmDiff.deferRunArray t r vs) = symmDiff.symmDiffRunArray t r vs := by
    intro r vs hr hvs
    unfold deferSymmDiff.deferRunArray symmDiff.symmDiffRunArray
    split_ifs
    · rfl
    · exact compact_deferSymmDiffArrays (Runs.increasing_values hr) hvs
    · exact htoggled (Bitset.exact_ofRuns hr) vs
  cases a with
  | array as =>
    cases b with
    | array bs => exact compact_deferSymmDiffArrays ha hb
    | bitset b => exact htoggled hb as
    | run rs => exact hruns hb ha
  | bitset a =>
    cases b with
    | array bs => exact htoggled ha bs
    | bitset b => exact compact_uncounted (Bitset.exact_counted _) fun v => rfl
    | run rs => exact hbits hb ha
  | run rs =>
    cases b with
    | array bs => exact hruns ha hb
    | bitset b => exact hbits ha hb
    | run ss => rfl

theorem compact_defer (t : Thresholds) (op : SetOp) {a b : Container} (ha : a.Valid)
    (hb : b.Valid) : compact t (defer t op a b) = combine t op a b := by
  cases op with
  | inter => exact (settled_combine t .inter ha hb).compact_eq
  | union => exact compact_deferUnion ha hb
  | diff => exact (settled_combine t .diff ha hb).compact_eq
  | symmDiff => exact compact_deferSymmDiff ha hb

theorem valid_deferSymmDiffArrays (t : Thresholds) {a b : Array UInt16}
    (ha : Sorted.Increasing a) (hb : Sorted.Increasing b) :
    (deferSymmDiffArrays t a b).Valid := by
  unfold deferSymmDiffArrays
  split
  · exact (settled_symmDiffArrays ha hb fun v => Iff.rfl).valid
  · exact Bitset.exact_uncounted _

theorem valid_deferRunArray (t : Thresholds) {r : Array Run} {vs : Array UInt16}
    (hr : Runs.Valid r) (hvs : Sorted.Increasing vs) :
    (deferSymmDiff.deferRunArray t r vs).Valid := by
  unfold deferSymmDiff.deferRunArray
  split_ifs
  · exact (Runs.symmDiffValues_spec hr hvs).1
  · exact valid_deferSymmDiffArrays t (Runs.increasing_values hr) hvs
  · exact Bitset.exact_uncounted _

theorem valid_deferRunBitset {r : Array Run} (hr : Runs.Valid r) (b : Bitset) :
    (deferUnion.deferRunBitset r b).Valid := by
  unfold deferUnion.deferRunBitset
  split
  · exact hr
  · exact Bitset.exact_insertRuns (Bitset.exact_uncounted _) hr

/-- An unfinished outcome is valid, only not canonical. -/
theorem valid_defer (t : Thresholds) (op : SetOp) {a b : Container} (ha : a.Valid)
    (hb : b.Valid) : (defer t op a b).Valid := by
  cases op with
  | inter => exact (settled_combine t .inter ha hb).valid
  | diff => exact (settled_combine t .diff ha hb).valid
  | union =>
    simp only [defer]
    unfold deferUnion
    split
    · split
      · exact (settled_union ha hb).valid
      · exact Bitset.exact_uncounted _
    · exact Bitset.exact_uncounted _
    · exact Bitset.exact_uncounted _
    · exact (unionRunsArray_spec hb ha).1
    · exact (unionRunsArray_spec ha hb).1
    · exact Bitset.exact_uncounted _
    · exact valid_deferRunBitset hb _
    · exact valid_deferRunBitset ha _
    · exact (unionRuns_spec ha hb).1
  | symmDiff =>
    simp only [defer]
    unfold deferSymmDiff
    split
    · exact valid_deferSymmDiffArrays t ha hb
    · exact Bitset.exact_uncounted _
    · exact Bitset.exact_uncounted _
    · exact valid_deferRunArray t hb ha
    · exact valid_deferRunArray t ha hb
    · exact Bitset.exact_uncounted _
    · exact Bitset.exact_toggleRuns (Bitset.exact_uncounted _) hb
    · exact Bitset.exact_toggleRuns (Bitset.exact_uncounted _) ha
    · exact (Runs.symmDiff_spec ha hb).1

theorem valid_deferWrites (t : Thresholds) (op : SetOp) {a b : Container} (ha : a.Valid)
    (hb : b.Valid) : Runs.Valid (deferWrites t op a b) := by
  have hsmall : ∀ {r : Array Run} {vs : Array UInt16}, Runs.Valid r →
      Runs.Valid (deferWrites.deferRunArrayWrites t r vs) := by
    intro r vs hr
    unfold deferWrites.deferRunArrayWrites
    split
    · exact Runs.validList_nil
    · exact valid_expandWrites t hr
  unfold deferWrites
  split
  · exact valid_combineWrites t .inter ha hb
  · exact valid_combineWrites t .diff ha hb
  · exact hb
  · exact ha
  · exact hsmall hb
  · exact hsmall ha
  · exact Runs.validList_nil

/-- On valid containers the three shapes of an operation come to one container. -/
theorem shapes_agree (t : Thresholds) (op : SetOp) (a b : Container) (ha : a.Valid)
    (hb : b.Valid) :
    ∃ c, combine? t op a b = some c ∧ absorb? t op a b = some c ∧
      (defer? t op a b).bind (compact? t) = some c := by
  refine ⟨combine t op a b, combine?_eq t op ha hb, ?_, ?_⟩
  · rw [absorb?, unlessOverrun_of_valid (valid_combineWrites t op ha hb), absorb_eq t op ha hb]
  · rw [defer?, unlessOverrun_of_valid (valid_deferWrites t op ha hb), Option.bind_some,
      compact?_eq t (valid_defer t op ha hb), compact_defer t op ha hb]

theorem shapes_agree_bitset_run :
    (bitset (.uncounted Words.empty)).Valid ∧ (run #[⟨7, 2⟩]).Valid ∧
      ∃ c, combine? .standard .union (bitset (.uncounted Words.empty)) (run #[⟨7, 2⟩]) = some c ∧
        absorb? .standard .union (bitset (.uncounted Words.empty)) (run #[⟨7, 2⟩]) = some c ∧
        (defer? .standard .union (bitset (.uncounted Words.empty)) (run #[⟨7, 2⟩])).bind
          (compact? .standard) = some c := by
  have ha : (bitset (.uncounted Words.empty)).Valid := Bitset.exact_uncounted _
  have hb : (run #[⟨7, 2⟩]).Valid := ⟨by decide, by decide⟩
  exact ⟨ha, hb, shapes_agree .standard .union _ _ ha hb⟩

end Roaring.Container
