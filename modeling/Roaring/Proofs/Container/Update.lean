import Roaring.Container.Update
import Roaring.Proofs.Bitset.Scan
import Roaring.Proofs.Container.Shapes
import Roaring.Proofs.Runs.Edit
import Roaring.Proofs.Sorted.Edit

/-!
# Containers changed

Each change to a container keeps it valid and changes its values as asked. Under thresholds that it
fits, it fits afterwards: arrays stay within the largest size, and bitsets above it and counted.
-/
namespace Roaring.Container

/-- Kept as the thresholds ask: an array within its largest size, or a bitset above it whose size is
known. Runs are free to take more room than needed. -/
def Fits (t : Thresholds) : Container → Prop
  | array vs => vs.size ≤ t.maxArraySize
  | bitset b => ∃ n, b.cached = some n ∧ t.maxArraySize < n
  | run _ => True

theorem fits_of_canonical {t : Thresholds} {c : Container} (h : c.Canonical t) : c.Fits t := by
  cases c with
  | array vs => exact h
  | bitset b => exact h
  | run rs => trivial

theorem Settled.fits {t : Thresholds} {p : UInt16 → Prop} {c : Container} (h : Settled t p c) :
    c.Fits t := fits_of_canonical h.canonical

/-! ## Single values -/

section Single

variable {c : Container} (t : Thresholds) (v : UInt16)

theorem insert_bitset_spec {b : Bitset} (h : b.Exact) :
    (bitset (b.insert v).2).Valid ∧
      ∀ u, u ∈ bitset (b.insert v).2 ↔ u = v ∨ u ∈ bitset b := by
  refine ⟨Bitset.exact_insert h v, fun u => ?_⟩
  rw [mem_bitset, mem_bitset, Bitset.test_insert, Words.test_put, Bool.or_eq_true,
    decide_eq_true_iff, or_comm]

theorem insert_spec (h : c.Valid) :
    (c.insert t v).2.Valid ∧ ∀ u, u ∈ (c.insert t v).2 ↔ u = v ∨ u ∈ c := by
  cases c with
  | array vs =>
    rw [insert]
    split
    · rename_i hc
      have hv : v ∈ vs := (Sorted.contains_iff h v).mp hc
      exact ⟨h, fun u => ⟨.inr, fun hu => hu.elim (fun e => e ▸ hv) id⟩⟩
    · rename_i hc
      rw [Sorted.insertWithin, if_neg hc]
      split_ifs
      · obtain ⟨hvalid, hmem⟩ := insert_bitset_spec v (Bitset.exact_ofValues vs)
        refine ⟨hvalid, fun u => (hmem u).trans (or_congr_right ?_)⟩
        rw [mem_bitset, Bitset.test_ofValues, decide_eq_true_iff]
        exact Iff.rfl
      · exact Sorted.insert_spec h v
  | bitset b => exact insert_bitset_spec v h
  | run rs =>
    obtain ⟨⟨hvalid, hcov⟩, -⟩ := Runs.insert_spec h v
    refine ⟨hvalid, fun u => ?_⟩
    rw [mem_run h]
    refine (mem_run hvalid).trans ?_
    rw [hcov, Bool.or_eq_true, decide_eq_true_iff, UInt16.toNat_inj, or_comm]

theorem erase_spec (h : c.Valid) :
    (c.erase t v).2.Valid ∧ ∀ u, u ∈ (c.erase t v).2 ↔ u ∈ c ∧ u ≠ v := by
  cases c with
  | array vs =>
    obtain ⟨hvalid, hmem, -⟩ := Sorted.erase_spec h v
    exact ⟨hvalid, hmem⟩
  | bitset b =>
    have htest : ∀ u, (b.erase v).2.words.test u ↔ u ∈ bitset b ∧ u ≠ v := by
      intro u
      rw [Bitset.test_erase, mem_bitset, Words.test_clear, Bool.and_eq_true]
      simp
    have hexact := Bitset.exact_erase h v
    rw [erase]
    split
    · rename_i b' hb
      rw [hb] at htest hexact
      have hs : Settled t _ (compactBitset t b') := settled_compactBitset hexact htest
      exact ⟨hs.valid, hs.mem⟩
    · rename_i b' hb
      rw [hb] at htest hexact
      exact ⟨hexact, fun u => mem_bitset.trans (htest u)⟩
  | run rs =>
    obtain ⟨⟨hvalid, hcov⟩, -⟩ := Runs.erase_spec h v
    refine ⟨hvalid, fun u => ?_⟩
    rw [mem_run h]
    refine (mem_run hvalid).trans ?_
    rw [hcov, Bool.and_eq_true, Bool.not_eq_true', decide_eq_false_iff_not, UInt16.toNat_inj]

theorem fits_insert_bitset {b : Bitset} {n : Nat} (hn : b.cached = some n)
    (hlt : t.maxArraySize < n) : (bitset (b.insert v).2).Fits t := by
  unfold Bitset.insert
  split
  · exact ⟨n, hn, hlt⟩
  · refine ⟨n + 1, ?_, by omega⟩
    simp [Bitset.replace, hn]

/-- A full array has one value too many to stay an array. -/
theorem fits_insert_full {vs : Array UInt16} (h : Sorted.Increasing vs) (hv : ¬v ∈ vs)
    (hfull : t.maxArraySize ≤ vs.size) :
    (bitset ((Bitset.ofValues vs).insert v).2).Fits t := by
  obtain ⟨hexact, hmem⟩ := insert_bitset_spec v (Bitset.exact_ofValues vs)
  obtain ⟨hinc, hins⟩ := Sorted.insert_spec h v
  have htest : ∀ u, ((Bitset.ofValues vs).insert v).2.words.test u ↔ u ∈ Sorted.insert vs v := by
    intro u
    rw [← mem_bitset, hmem, mem_bitset, Bitset.test_ofValues, decide_eq_true_iff, hins]
  have hcount := (count_eq_size hinc htest).trans (Sorted.size_insert h hv)
  have hknown := (Bitset.known_insert _ v).trans (Bitset.known_ofValues vs)
  exact (settled_bitset hexact hknown (by omega) fun _ => Iff.rfl).fits

theorem fits_insert (h : c.Valid) (hfit : c.Fits t) : (c.insert t v).2.Fits t := by
  cases c with
  | array vs =>
    rw [insert]
    split
    · exact hfit
    · rename_i hc
      have hv : ¬v ∈ vs := fun hv => hc ((Sorted.contains_iff h v).mpr hv)
      rw [Sorted.insertWithin, if_neg hc]
      split_ifs with hfull
      · exact fits_insert_full t v h hv hfull
      · show (Sorted.insert vs v).size ≤ t.maxArraySize
        rw [Sorted.size_insert h hv]
        omega
  | bitset b =>
    obtain ⟨n, hn, hlt⟩ := hfit
    exact fits_insert_bitset t v hn hlt
  | run rs => trivial

theorem fits_erase (h : c.Valid) (hfit : c.Fits t) : (c.erase t v).2.Fits t := by
  cases c with
  | array vs => exact Nat.le_trans (Sorted.erase_spec h v).2.2 hfit
  | bitset b =>
    rw [erase]
    split
    · rename_i b' hb
      have hexact := Bitset.exact_erase h v
      rw [hb] at hexact
      exact (settled_compactBitset hexact fun _ => Iff.rfl).fits
    · rename_i b' hb
      unfold Bitset.erase at hb
      split at hb
      · cases hb
      · cases hb
        exact hfit
  | run rs => trivial

end Single

/-! ## Ranges -/

section Range

variable {c : Container} (t : Thresholds) (start stop : Nat)

/-- A range that reaches into the domain is absorbed as the container of its one run. -/
theorem settled_absorbRange (op : SetOp) (h : c.Valid) (hlt : start < min stop domainSize) :
    Settled t (fun v => op.Holds (v ∈ c) (start ≤ v.toNat ∧ v.toNat < stop))
      (absorbRange t op c start stop) := by
  have hr : (run (Runs.ofRange start stop)).Valid := Runs.valid_ofRange start stop
  rw [absorbRange, if_pos hlt]
  obtain ⟨hvalid, hcanon, hmem⟩ := settled_absorb t op h hr
  refine ⟨hvalid, hcanon, fun v => ?_⟩
  rw [hmem, mem_run hr, Runs.covers_ofRange start stop v.toNat_lt, decide_eq_true_iff]

theorem absorbRange_spec (op : SetOp) (hop : op.keepsLeft) (h : c.Valid) :
    (absorbRange t op c start stop).Valid ∧ ∀ v, v ∈ absorbRange t op c start stop ↔
      op.Holds (v ∈ c) (start ≤ v.toNat ∧ v.toNat < stop) := by
  by_cases hlt : start < min stop domainSize
  · have hs := settled_absorbRange t start stop op h hlt
    exact ⟨hs.valid, hs.mem⟩
  · rw [absorbRange, if_neg hlt]
    refine ⟨h, fun v => ?_⟩
    have hv := v.toNat_lt
    have hout : ¬(start ≤ v.toNat ∧ v.toNat < stop) := by
      rw [domainSize] at hlt
      omega
    rw [propext (iff_false_intro hout), SetOp.holds_false_right]
    simp [hop]

theorem fits_absorbRange (op : SetOp) (h : c.Valid) (hfit : c.Fits t) :
    (absorbRange t op c start stop).Fits t := by
  by_cases hlt : start < min stop domainSize
  · exact (settled_absorbRange t start stop op h hlt).fits
  · rw [absorbRange, if_neg hlt]
    exact hfit

theorem settled_ofRange :
    Settled t (fun v => start ≤ v.toNat ∧ v.toNat < stop) (ofRange t start stop) := by
  unfold ofRange
  split
  · refine settled_compactRuns (Runs.valid_ofRange start stop) fun v => ?_
    rw [Runs.covers_ofRange start stop v.toNat_lt, decide_eq_true_iff]
  · rename_i hlt
    refine settled_empty fun v hv => ?_
    have := v.toNat_lt
    rw [domainSize] at hlt
    omega

end Range

/-! ## Encodings changed -/

/-- A change of the encoding alone. -/
def Recodes (f : Container → Container) : Prop :=
  ∀ c : Container, c.Valid → (f c).Valid ∧ ∀ v, v ∈ f c ↔ v ∈ c

theorem Settled.recodes {c c' : Container} {t : Thresholds} (h : Settled t (· ∈ c) c') :
    c'.Valid ∧ ∀ v, v ∈ c' ↔ v ∈ c :=
  ⟨h.valid, h.mem⟩

theorem settled_expand (t : Thresholds) {rs : Array Run} (h : Runs.Valid rs) :
    Settled t (· ∈ run rs) (expandRuns t rs) :=
  settled_expandRuns h fun _ => (mem_run h).symm

theorem recodes_preferRuns (t : Thresholds) : Recodes (preferRuns t) := by
  intro c h
  cases c with
  | array vs =>
    rw [preferRuns]
    split
    · obtain ⟨hvalid, hcov⟩ := Runs.ofValues_spec h
      exact ⟨hvalid, fun v => (mem_run hvalid).trans (hcov v)⟩
    · exact ⟨h, fun v => Iff.rfl⟩
  | bitset b =>
    rw [preferRuns]
    split
    · obtain ⟨hvalid, hcov⟩ := Words.runs_spec b.words
      exact ⟨hvalid, fun v => by rw [mem_run hvalid, hcov, mem_bitset]⟩
    · exact ⟨h, fun v => Iff.rfl⟩
  | run rs => exact (settled_compact (t := t) h).recodes

theorem fits_preferRuns {t : Thresholds} {c : Container} (h : c.Valid) (hfit : c.Fits t) :
    (preferRuns t c).Fits t := by
  cases c with
  | array vs =>
    rw [preferRuns]
    split
    · trivial
    · exact hfit
  | bitset b =>
    rw [preferRuns]
    split
    · trivial
    · exact hfit
  | run rs => exact (settled_compact (t := t) h).fits

theorem recodes_removeRuns (t : Thresholds) : Recodes fun c => (removeRuns t c).2 := by
  intro c h
  cases c with
  | array vs => exact ⟨h, fun v => Iff.rfl⟩
  | bitset b => exact ⟨h, fun v => Iff.rfl⟩
  | run rs => exact (settled_expand t h).recodes

theorem fits_removeRuns {t : Thresholds} {c : Container} (h : c.Valid) (hfit : c.Fits t) :
    (removeRuns t c).2.Fits t := by
  cases c with
  | array vs => exact hfit
  | bitset b => exact hfit
  | run rs => exact (settled_expand t h).fits

theorem recodes_convert (e : Encoding) : Recodes (convert e) := by
  intro c h
  have hsame : c.Valid ∧ ∀ v, v ∈ c ↔ v ∈ c := ⟨h, fun v => Iff.rfl⟩
  cases c with
  | array vs =>
    cases e with
    | array => exact hsame
    | bitset =>
      refine ⟨Bitset.exact_ofValues vs, fun v => mem_bitset.trans ?_⟩
      rw [Bitset.test_ofValues, decide_eq_true_iff, mem_array]
    | run =>
      obtain ⟨hvalid, hcov⟩ := Runs.ofValues_spec h
      exact ⟨hvalid, fun v => (mem_run hvalid).trans (hcov v)⟩
  | bitset b =>
    cases e with
    | array => exact ⟨Words.increasing_values b.words, fun v => Iff.rfl⟩
    | bitset => exact hsame
    | run =>
      obtain ⟨hvalid, hcov⟩ := Words.runs_spec b.words
      exact ⟨hvalid, fun v => by rw [convert, mem_run hvalid, hcov, mem_bitset]⟩
  | run rs =>
    cases e with
    | array => exact ⟨Runs.increasing_values h, fun v => Iff.rfl⟩
    | bitset =>
      refine ⟨Bitset.exact_ofRuns h, fun v => mem_bitset.trans ?_⟩
      rw [Bitset.test_ofRuns, mem_run h]
    | run => exact hsame

/-! ## Nothing overruns -/

theorem convert?_eq (e : Encoding) {c : Container} (h : c.Valid) :
    convert? e c = some (convert e c) := by
  refine unlessOverrun_of_valid ?_ _
  unfold convertWrites
  split
  · exact h
  · exact Runs.validList_nil

theorem runOptimize?_eq (t : Thresholds) {c : Container} (h : c.Valid) :
    runOptimize? t c = some (runOptimize t c) :=
  unlessOverrun_of_valid (valid_compactWrites t h) _

theorem removeRuns?_eq (t : Thresholds) {c : Container} (h : c.Valid) :
    removeRuns? t c = some (removeRuns t c) := by
  refine unlessOverrun_of_valid ?_ _
  unfold removeRunsWrites
  split
  · exact valid_expandWrites t h
  · exact Runs.validList_nil

theorem absorb?_eq (t : Thresholds) (op : SetOp) {a b : Container} (ha : a.Valid) (hb : b.Valid) :
    absorb? t op a b = some (absorb t op a b) :=
  unlessOverrun_of_valid (valid_combineWrites t op ha hb) _

theorem absorbSelf?_eq (t : Thresholds) (op : SetOp) {c : Container} (h : c.Valid) :
    absorbSelf? t op c = some (absorbSelf t op c) := by
  cases op with
  | inter => exact compact?_eq t h
  | union => exact compact?_eq t h
  | diff => rfl
  | symmDiff => rfl

theorem absorbRange?_eq (t : Thresholds) (op : SetOp) {c : Container} (h : c.Valid)
    (start stop : Nat) : absorbRange? t op c start stop = some (absorbRange t op c start stop) := by
  unfold absorbRange? absorbRange
  split
  · exact absorb?_eq t op h (Runs.valid_ofRange start stop)
  · rfl

/-! ## What an index holds -/

/-- A container to hold in an index: valid, with a value, and where `strict` asks for it kept as the
thresholds say. -/
structure Kept (strict : Prop) (t : Thresholds) (c : Container) : Prop where
  valid : c.Valid
  nonEmpty : c.isEmpty = false
  fits : strict → c.Fits t

section Kept

variable {strict : Prop} {t : Thresholds} {c : Container}

theorem Settled.kept {p : UInt16 → Prop} (h : Settled t p c) (hne : ∃ v, p v) :
    Kept strict t c where
  valid := h.valid
  nonEmpty := by
    obtain ⟨v, hv⟩ := hne
    exact (isEmpty_eq_false_iff h.valid).mpr ⟨v, (h.mem v).mpr hv⟩
  fits _ := h.fits

theorem Kept.exists_mem (h : Kept strict t c) : ∃ v, v ∈ c :=
  (isEmpty_eq_false_iff h.valid).mp h.nonEmpty

theorem kept_insert (h : c.Valid) (hfit : strict → c.Fits t) (v : UInt16) :
    Kept strict t (c.insert t v).2 := by
  obtain ⟨hvalid, hmem⟩ := insert_spec t v h
  exact ⟨hvalid, (isEmpty_eq_false_iff hvalid).mpr ⟨v, (hmem v).mpr (.inl rfl)⟩,
    fun hs => fits_insert t v h (hfit hs)⟩

theorem Kept.erase (h : Kept strict t c) {v : UInt16} (hne : (c.erase t v).2.isEmpty = false) :
    Kept strict t (c.erase t v).2 :=
  ⟨(erase_spec t v h.valid).1, hne, fun hs => fits_erase t v h.valid (h.fits hs)⟩

theorem Kept.absorbRange (h : Kept strict t c) {op : SetOp} (hop : op.keepsLeft)
    {start stop : Nat} (hne : (c.absorbRange t op start stop).isEmpty = false) :
    Kept strict t (c.absorbRange t op start stop) :=
  ⟨(absorbRange_spec t start stop op hop h.valid).1, hne,
    fun hs => fits_absorbRange t start stop op h.valid (h.fits hs)⟩

theorem Kept.insertRange (h : Kept strict t c) (start stop : Nat) :
    Kept strict t (c.insertRange t start stop) := by
  obtain ⟨hvalid, hmem⟩ := absorbRange_spec t start stop .union rfl h.valid
  obtain ⟨v, hv⟩ := h.exists_mem
  exact h.absorbRange rfl ((isEmpty_eq_false_iff hvalid).mpr ⟨v, (hmem v).mpr (.inl hv)⟩)

theorem kept_ofRange {start stop : Nat} (hlt : start < min stop domainSize) :
    Kept strict t (ofRange t start stop) := by
  have hstart : start < 65536 := Nat.lt_of_lt_of_le hlt (Nat.min_le_right _ _)
  refine (settled_ofRange t start stop).kept ⟨start.toUInt16, ?_⟩
  rw [toNat_toUInt16 hstart]
  omega

theorem Kept.recode (h : Kept strict t c) {f : Container → Container} (hf : Recodes f)
    (hfit : c.Fits t → (f c).Fits t) : Kept strict t (f c) := by
  obtain ⟨hvalid, hmem⟩ := hf c h.valid
  obtain ⟨v, hv⟩ := h.exists_mem
  exact ⟨hvalid, (isEmpty_eq_false_iff hvalid).mpr ⟨v, (hmem v).mpr hv⟩,
    fun hs => hfit (h.fits hs)⟩

end Kept

end Roaring.Container
