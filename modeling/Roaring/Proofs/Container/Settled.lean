import Roaring.Container.Convert
import Roaring.Proofs.Bitset.Runs

/-!
# Settled containers

The values of a container, whatever its encoding, are a strictly increasing array, and each encoding
has its own way to tell whether a value is there. A container is settled on a set of values when it
is valid, canonical and holds those values. The thresholds leave one settled container without runs
for a set, so whatever settles without runs on the same set gives the same container.
-/
namespace Roaring.Container

/-! ## Values -/

theorem mem_array {vs : Array UInt16} {v : UInt16} : v ∈ array vs ↔ v ∈ vs := Iff.rfl

theorem mem_bitset {b : Bitset} {v : UInt16} : v ∈ bitset b ↔ b.words.test v :=
  Words.mem_values b.words v

theorem mem_run {rs : Array Run} (h : Runs.Valid rs) {v : UInt16} :
    v ∈ run rs ↔ Runs.covers rs.toList v.toNat :=
  Runs.mem_values h v

theorem increasing_values {c : Container} (h : c.Valid) : Sorted.Increasing c.values := by
  cases c with
  | array vs => exact h
  | bitset b => exact Words.increasing_values b.words
  | run rs => exact Runs.increasing_values h

theorem card_eq_size {c : Container} (h : c.Valid) : c.card = c.values.size := by
  cases c with
  | array vs => rfl
  | bitset b => exact (Bitset.card_eq h).trans (Words.size_values b.words).symm
  | run rs => exact (Runs.size_values rs).symm

theorem isEmpty_iff {c : Container} (h : c.Valid) : c.isEmpty ↔ ∀ v, ¬v ∈ c := by
  cases c with
  | array vs =>
    rw [isEmpty, Array.isEmpty_iff, Array.eq_empty_iff_forall_not_mem]
    exact Iff.rfl
  | bitset b => simp only [isEmpty, Bitset.isEmpty_iff h, mem_bitset, Bool.not_eq_true]
  | run rs =>
    simp only [isEmpty, Array.isEmpty_iff, mem_run h, Bool.not_eq_true]
    constructor
    · rintro rfl v
      rfl
    · intro hno
      refine Array.eq_empty_iff_forall_not_mem.mpr fun r hr => ?_
      have hr := Array.mem_toList_iff.mpr hr
      have hcov : Runs.covers rs.toList r.first.toNat :=
        Runs.covers_iff.mpr ⟨r, hr, Nat.le_refl _, r.first_lt_stop⟩
      rw [hno r.first] at hcov
      cases hcov

theorem isEmpty_eq_false_iff {c : Container} (h : c.Valid) :
    c.isEmpty = false ↔ ∃ v, v ∈ c := by
  rw [← Bool.not_eq_true, isEmpty_iff h]
  exact Classical.not_forall_not

theorem exists_of_encoding_run {c : Container} (h : c.encoding = .run) : ∃ r, c = run r := by
  cases c with
  | array vs => cases h
  | bitset s => cases h
  | run r => exact ⟨r, rfl⟩

/-! ## Settled containers -/

/-- Valid, canonical, and holding the values for which `p` holds. -/
structure Settled (t : Thresholds) (p : UInt16 → Prop) (c : Container) : Prop where
  valid : c.Valid
  canonical : c.Canonical t
  mem : ∀ v, v ∈ c ↔ p v

variable {t : Thresholds} {p : UInt16 → Prop}

theorem Settled.congr {q : UInt16 → Prop} {c : Container} (h : Settled t p c)
    (hpq : ∀ v, p v ↔ q v) : Settled t q c :=
  ⟨h.valid, h.canonical, fun v => (h.mem v).trans (hpq v)⟩

theorem compact_eq_self {c : Container} (h : c.Canonical t) : compact t c = c := by
  cases c with
  | array vs => exact if_pos h
  | bitset b =>
    obtain ⟨n, hn, hlt⟩ := h
    have hsome : b.cached.isSome := by rw [hn]; rfl
    have hcard : ¬b.card ≤ t.maxArraySize := by
      rw [Bitset.card, hn, Option.getD_some]
      omega
    simp only [compact, compactBitset, hsome, if_true, if_neg hcard]
  | run rs => exact if_pos h

theorem Settled.compact_eq {c : Container} (h : Settled t p c) : compact t c = c :=
  compact_eq_self h.canonical

theorem Settled.encoding_eq {c : Container} (h : Settled t p c) (hc : c.encoding ≠ .run) :
    c.encoding = if c.values.size ≤ t.maxArraySize then .array else .bitset := by
  obtain ⟨hvalid, hcanon, -⟩ := h
  cases c with
  | array vs => exact (if_pos hcanon).symm
  | bitset b =>
    obtain ⟨n, hn, hlt⟩ := hcanon
    have hsize : (bitset b).values.size = n := (Words.size_values b.words).trans (hvalid n hn).symm
    rw [hsize, if_neg (Nat.not_le.mpr hlt)]
    rfl
  | run rs => exact absurd rfl hc

theorem Settled.values_eq {a b : Container} (ha : Settled t p a) (hb : Settled t p b) :
    a.values = b.values :=
  Sorted.eq_of_mem_iff (increasing_values ha.valid) (increasing_values hb.valid) fun v =>
    (ha.mem v).trans (hb.mem v).symm

/-- At most one container without runs is settled on a set. -/
theorem Settled.unique {a b : Container} (ha : Settled t p a) (hb : Settled t p b)
    (hna : a.encoding ≠ .run) (hnb : b.encoding ≠ .run) : a = b := by
  have henc := (ha.encoding_eq hna).trans ((ha.values_eq hb) ▸ (hb.encoding_eq hnb).symm)
  cases a with
  | array as =>
    cases b with
    | array bs => exact congrArg array (ha.values_eq hb)
    | bitset _ => cases henc
    | run _ => cases henc
  | bitset a =>
    cases b with
    | array _ => cases henc
    | bitset b =>
      have hwords : a.words = b.words := Words.ext fun v => by
        rw [Bool.eq_iff_iff, ← mem_bitset, ← mem_bitset, ha.mem, hb.mem]
      obtain ⟨n, hn, -⟩ := ha.canonical
      obtain ⟨m, hm, -⟩ := hb.canonical
      exact congrArg bitset (Bitset.eq_of_counted ha.valid hb.valid (by simp [hn]) (by simp [hm])
        hwords)
    | run _ => cases henc
  | run _ => exact absurd rfl hna

/-! ## What settles -/

theorem settled_array {vs : Array UInt16} (h : Sorted.Increasing vs)
    (hsize : vs.size ≤ t.maxArraySize) (hmem : ∀ v, v ∈ vs ↔ p v) : Settled t p (array vs) :=
  ⟨h, hsize, hmem⟩

theorem settled_bitset {b : Bitset} (h : b.Exact) (hknown : b.cached.isSome)
    (hsize : t.maxArraySize < b.words.count) (hmem : ∀ v, b.words.test v ↔ p v) :
    Settled t p (bitset b) := by
  obtain ⟨n, hn⟩ := Option.isSome_iff_exists.mp hknown
  exact ⟨h, ⟨n, hn, h n hn ▸ hsize⟩, fun v => mem_bitset.trans (hmem v)⟩

theorem count_eq_size {ws : Words} {vs : Array UInt16} (h : Sorted.Increasing vs)
    (hmem : ∀ v, ws.test v ↔ v ∈ vs) : ws.count = vs.size := by
  rw [← Words.size_values, Sorted.eq_of_mem_iff (Words.increasing_values ws) h fun v =>
    (Words.mem_values ws v).trans (hmem v)]

theorem settled_compactArray {vs : Array UInt16} (h : Sorted.Increasing vs)
    (hmem : ∀ v, v ∈ vs ↔ p v) : Settled t p (compactArray t vs) := by
  unfold compactArray
  split
  · exact settled_array h ‹_› hmem
  · have htest : ∀ v, (Bitset.ofValues vs).words.test v ↔ v ∈ vs := fun v => by
      rw [Bitset.test_ofValues, decide_eq_true_iff]
    refine settled_bitset (Bitset.exact_ofValues vs) (Bitset.known_ofValues vs) ?_
      fun v => (htest v).trans (hmem v)
    rw [count_eq_size h htest]
    omega

theorem compactArray_encoding (t : Thresholds) (vs : Array UInt16) :
    (compactArray t vs).encoding ≠ .run := by
  unfold compactArray
  split <;> simp [encoding]

theorem settled_compactBitset {b : Bitset} (h : b.Exact) (hmem : ∀ v, b.words.test v ↔ p v) :
    Settled t p (compactBitset t b) := by
  have hb : ∀ b' : Bitset, b'.Exact → b'.cached.isSome → b'.words = b.words →
      Settled t p (if b'.card ≤ t.maxArraySize then array b'.words.values else bitset b') := by
    intro b' h' hknown hwords
    rw [Bitset.card_eq h', hwords]
    split
    · refine settled_array (Words.increasing_values _) ?_ fun v =>
        (Words.mem_values _ v).trans (hmem v)
      rw [Words.size_values]
      assumption
    · exact settled_bitset h' hknown (by rw [hwords]; omega) fun v => by rw [hwords, hmem]
  unfold compactBitset
  dsimp only
  split
  · exact hb b h ‹_› rfl
  · exact hb b.recount (Bitset.exact_counted _) rfl rfl

theorem compactBitset_encoding (t : Thresholds) (b : Bitset) :
    (compactBitset t b).encoding ≠ .run := by
  unfold compactBitset
  dsimp only
  split <;> split <;> simp [encoding]

theorem settled_expandRuns {rs : Array Run} (h : Runs.Valid rs)
    (hmem : ∀ v : UInt16, Runs.covers rs.toList v.toNat ↔ p v) : Settled t p (expandRuns t rs) := by
  unfold expandRuns
  split
  · refine settled_array (Runs.increasing_values h) ?_ fun v =>
      (Runs.mem_values h v).trans (hmem v)
    rw [Runs.size_values]
    assumption
  · have htest : ∀ v, (Bitset.ofRuns rs).words.test v ↔ Runs.covers rs.toList v.toNat := fun v => by
      rw [Bitset.test_ofRuns]
    refine settled_bitset (Bitset.exact_ofRuns h) (Bitset.known_ofRuns rs) ?_
      fun v => (htest v).trans (hmem v)
    rw [count_eq_size (Runs.increasing_values h) fun v =>
      (htest v).trans (Runs.mem_values h v).symm, Runs.size_values]
    omega

theorem settled_compactRuns {rs : Array Run} (h : Runs.Valid rs)
    (hmem : ∀ v : UInt16, Runs.covers rs.toList v.toNat ↔ p v) :
    Settled t p (compactRuns t rs) := by
  unfold compactRuns
  split
  · exact ⟨h, ‹_›, fun v => (mem_run h).trans (hmem v)⟩
  · exact settled_expandRuns h hmem

theorem settled_compact {c : Container} (h : c.Valid) : Settled t (· ∈ c) (compact t c) := by
  cases c with
  | array vs => exact settled_compactArray h fun v => Iff.rfl
  | bitset b => exact settled_compactBitset h fun v => mem_bitset.symm
  | run rs => exact settled_compactRuns h fun v => (mem_run h).symm

theorem settled_empty (hmem : ∀ v, ¬p v) : Settled t p ∅ :=
  settled_array Sorted.increasing_empty (Nat.zero_le _) fun v =>
    iff_of_false (Array.not_mem_empty v) (hmem v)

/-! ## The full run list -/

theorem covers_of_isFull {rs : Array Run} (h : Runs.isFull rs) (v : UInt16) :
    Runs.covers rs.toList v.toNat := by
  rw [(Runs.isFull_iff rs).mp h]
  exact Runs.covers_whole v.toNat_lt

/-- The full run list is canonical under any thresholds. -/
theorem compactRuns_of_isFull {rs : Array Run} (h : Runs.isFull rs) :
    compactRuns t rs = run rs := by
  refine if_pos ?_
  rw [(Runs.isFull_iff rs).mp h]
  show 6 ≤ plainSize t 65536
  unfold plainSize arrayBytes bitsetBytes
  split <;> omega

end Roaring.Container
