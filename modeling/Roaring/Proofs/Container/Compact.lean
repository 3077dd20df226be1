import Roaring.Proofs.Container.Convert
import Roaring.Proofs.Container.InPlace
import Roaring.Proofs.Container.Single

/-!
# The cheapest encoding

Settling a container, in its own storage or as a new one, keeps its values, and a settled container
stays as it is. What it comes to in bytes follows from the number of its values and of its runs.
Runs are compared with the smaller one of an array and a bitset, but the number of values alone
decides which of the two takes their place. As long as the largest array is no larger than a bitset
and two bytes, this comes to the same: runs are only given up for something smaller, and the choice
between runs and no runs leads to the smallest encoding.
-/
namespace Roaring.Container

variable {t : Thresholds} {a b c : Container}

/-! ## Settling -/

theorem compactInPlace_eq_self (h : c.Canonical t) : compactInPlace t c = ⟨c, none⟩ := by
  cases c with
  | array vs => exact congrArg (Left.mk _) (if_pos h)
  | bitset b =>
    obtain ⟨n, hn, hlt⟩ := h
    have hcard : ¬b.card ≤ t.maxArraySize := by
      rw [Bitset.card, hn, Option.getD_some]
      omega
    simp only [compactInPlace, hn, Option.isSome_some, if_true, if_neg hcard]
  | run rs => exact congrArg (Left.mk _) (if_pos h)

theorem compactInPlace?_eq (t : Thresholds) (h : c.Valid) :
    compactInPlace? t c = some (compactInPlace t c) :=
  unlessOverrun_of_valid (valid_compactWrites t h) _

theorem values_compact (t : Thresholds) (h : c.Valid) : (compact t c).values = c.values := by
  have hs := settled_compact (t := t) h
  exact (values_eq_iff hs.valid h).mpr hs.mem

/-- Any valid container is settled in its own storage, and what then stands in its place is what it
settles to as a new container: a valid and canonical one with the same values. Settling that again
finds nothing to change or to replace. -/
theorem compact_settles_for_good (t : Thresholds) (c : Container) (h : c.Valid) :
    ∃ l, compactInPlace? t c = some l ∧ compact? t c = some l.final ∧
      Checked.compact t c = some l.final ∧ l.final.Valid ∧ l.final.Canonical t ∧
      l.final.values = c.values ∧ (∀ v, v ∈ l.final ↔ v ∈ c) ∧
      compactInPlace? t l.final = some ⟨l.final, none⟩ ∧ compact? t l.final = some l.final := by
  have hs := settled_compact (t := t) h
  refine ⟨compactInPlace t c, compactInPlace?_eq t h, ?_⟩
  rw [final_compactInPlace, compactInPlace?_eq t hs.valid, compactInPlace_eq_self hs.canonical,
    compact?_eq t hs.valid, hs.compact_eq]
  exact ⟨compact?_eq t h, Checked.compact_eq t h, hs.valid, hs.canonical, values_compact t h,
    hs.mem, rfl, rfl⟩

/-- An uncounted bitset, under thresholds that leave no array. -/
theorem compact_settles_for_good_uncounted :
    (bitset (.uncounted (Words.empty.putAll #[63, 64]).1)).Valid ∧
      ∃ l, compactInPlace? ⟨0, 0, 0⟩ (bitset (.uncounted (Words.empty.putAll #[63, 64]).1)) =
          some l ∧
        l.final.Canonical ⟨0, 0, 0⟩ ∧ compactInPlace? ⟨0, 0, 0⟩ l.final = some ⟨l.final, none⟩ := by
  have h : (bitset (.uncounted (Words.empty.putAll #[63, 64]).1)).Valid := Bitset.exact_uncounted _
  obtain ⟨l, hl, -, -, -, hcanon, -, -, hagain, -⟩ := compact_settles_for_good ⟨0, 0, 0⟩ _ h
  exact ⟨h, l, hl, hcanon, hagain⟩

/-! ## Runs given up -/

/-- Bytes taken by `n` values without runs. Their number alone decides between an array and a
bitset. -/
def expandedBytes (t : Thresholds) (n : Nat) : Nat :=
  if n ≤ t.maxArraySize then arrayBytes n else bitsetBytes

theorem plainSize_eq_min (t : Thresholds) (n : Nat) :
    plainSize t n = min (expandedBytes t n) bitsetBytes := by
  unfold plainSize expandedBytes
  split
  · rfl
  · exact (Nat.min_self _).symm

/-- The numbers of bytes that runs can take leave no room between a bitset and the largest array. -/
theorem expandedBytes_le_runBytes (ht : t.maxArraySize ≤ 4096) {n k : Nat}
    (h : plainSize t n < runBytes k) : expandedBytes t n ≤ runBytes k := by
  rw [plainSize_eq_min] at h
  revert h
  unfold expandedBytes arrayBytes bitsetBytes runBytes
  split <;> omega

theorem byteSize_expandRuns (t : Thresholds) (rs : Array Run) :
    (expandRuns t rs).byteSize = expandedBytes t (Runs.card rs) := by
  unfold expandRuns expandedBytes
  split
  · rw [byteSize, Runs.size_values]
  · rfl

/-- Runs grow into an array where this array takes more room than they do, and a bitset less. -/
theorem byteSize_compactRuns_le_iff (t : Thresholds) (rs : Array Run) :
    (compactRuns t rs).byteSize ≤ runBytes rs.size ↔
      ¬(bitsetBytes < runBytes rs.size ∧ runBytes rs.size < expandedBytes t (Runs.card rs)) := by
  unfold compactRuns
  rw [plainSize_eq_min]
  split
  · rw [byteSize]
    omega
  · rw [byteSize_expandRuns]
    omega

/-- However a valid run list is settled, as a new container, in its own storage or by asking for the
smallest encoding, it comes to one container with the same values. That one takes no more room than
the runs, unless they take more than a bitset and less than an array that the thresholds allow, and
no thresholds up to 4096 allow such an array. -/
theorem runs_given_up_iff_no_larger (t : Thresholds) (rs : Array Run) (h : Runs.Valid rs) :
    ∃ d, compact? t (run rs) = some d ∧
      (compactInPlace? t (run rs)).map Left.final = some d ∧
      runOptimize? t (run rs) = some (decide (d.encoding = .run), d) ∧
      d.Valid ∧ d.values = (run rs).values ∧
      (d.byteSize ≤ (run rs).byteSize ↔
        ¬(bitsetBytes < (run rs).byteSize ∧
          (run rs).byteSize < expandedBytes t (run rs).card)) ∧
      (t.maxArraySize ≤ 4096 → d.byteSize ≤ (run rs).byteSize) := by
  have hr : (run rs).Valid := h
  have hle := byteSize_compactRuns_le_iff t rs
  refine ⟨compact t (run rs), compact?_eq t hr, ?_, runOptimize?_eq t hr,
    (settled_compact hr).valid, values_compact t hr, hle, ?_⟩
  · rw [compactInPlace?_eq t hr, Option.map_some, final_compactInPlace]
  · intro ht
    refine hle.mpr fun ⟨hbitset, harray⟩ => ?_
    have hplain : plainSize t (Runs.card rs) < runBytes rs.size := by
      rw [plainSize_eq_min]
      omega
    have := expandedBytes_le_runBytes ht hplain
    omega

theorem runs_given_up_iff_no_larger_isolated :
    Runs.Valid #[⟨1, 0⟩, ⟨3, 0⟩, ⟨65535, 0⟩] ∧
      ∃ d, compact? .standard (run #[⟨1, 0⟩, ⟨3, 0⟩, ⟨65535, 0⟩]) = some d ∧
        d.values = #[1, 3, 65535] ∧ d.byteSize ≤ 14 := by
  have h : Runs.Valid #[⟨1, 0⟩, ⟨3, 0⟩, ⟨65535, 0⟩] := by decide
  obtain ⟨d, hd, -, -, -, hvalues, -, hsize⟩ := runs_given_up_iff_no_larger .standard _ h
  exact ⟨h, d, hd, hvalues.trans (by decide), hsize (by decide)⟩

/-- Runs of three values each, with one absent value between them. -/
def triples (n : Nat) : Array Run := ((List.range n).map fun i => ⟨(4 * i).toUInt16, 2⟩).toArray

theorem size_triples (n : Nat) : (triples n).size = n := by
  simp [triples]

theorem card_triples (n : Nat) : Runs.card (triples n) = 3 * n := by
  rw [Runs.card, triples, ← Array.foldl_toList]
  induction n with
  | zero => rfl
  | succ n ih =>
    rw [List.range_succ, List.map_append, List.foldl_append, ih]
    exact (Nat.mul_succ 3 n).symm

theorem valid_triples {n : Nat} (h : 4 * n ≤ 65536) : Runs.Valid (triples n) := by
  have hfirst : ∀ i < n, (4 * i).toUInt16.toNat = 4 * i := by
    intro i hi
    rw [toNat_toUInt16 (by omega)]
  have hstop : ∀ i < n, Run.stop ⟨(4 * i).toUInt16, 2⟩ = 4 * i + 3 := by
    intro i hi
    rw [Run.stop_eq, hfirst i hi]
    rfl
  constructor
  · intro r hr
    obtain ⟨i, hi, rfl⟩ := List.mem_map.mp hr
    rw [List.mem_range] at hi
    rw [Run.InDomain, hstop i hi]
    omega
  · refine List.pairwise_map.mpr (List.pairwise_lt_range.imp_of_mem ?_)
    intro i j hi hj hij
    rw [List.mem_range] at hi hj
    rw [Runs.Apart, hstop i hi, hfirst j hj]
    omega

/-- Under thresholds that allow arrays larger than a bitset, runs are given up for one that is
larger than they are. -/
theorem runs_given_up_for_larger_array :
    (run (triples 2100)).Valid ∧
      ∃ d, compact? ⟨10000, 1024, 32⟩ (run (triples 2100)) = some d ∧ d.encoding = .array ∧
        (run (triples 2100)).byteSize = 8402 ∧ d.byteSize = 12602 := by
  have h : (run (triples 2100)).Valid := valid_triples (by decide)
  have hsize : runBytes (triples 2100).size = 8402 := by rw [size_triples, runBytes]
  have hcard : Runs.card (triples 2100) = 6300 := card_triples 2100
  have hexpand : compact ⟨10000, 1024, 32⟩ (run (triples 2100)) =
      array (Runs.values (triples 2100)) := by
    rw [compact, compactRuns, hsize, hcard, if_neg (by decide), expandRuns, hcard,
      if_pos (by decide)]
  refine ⟨h, array (Runs.values (triples 2100)), ?_, rfl, hsize, ?_⟩
  · rw [compact?_eq _ h, hexpand]
  · rw [byteSize, Runs.size_values, hcard, arrayBytes]

/-! ## The smallest encoding -/

theorem card_congr (ha : a.Valid) (hb : b.Valid) (h : a.values = b.values) : a.card = b.card := by
  rw [card_eq_size ha, card_eq_size hb, h]

theorem numRuns_congr (ha : a.Valid) (hb : b.Valid) (h : a.values = b.values) :
    a.numRuns = b.numRuns := by
  rw [numRuns_eq ha, numRuns_eq hb, h]

theorem Recodes.values_eq {f : Container → Container} (hf : Recodes f) (h : c.Valid) :
    (f c).values = c.values :=
  (values_eq_iff (hf c h).1 h).mpr (hf c h).2

/-- Without runs, a container that fits takes the bytes that its number of values asks for. -/
theorem byteSize_of_fits (h : c.Valid) (hfit : c.Fits t) (hc : c.encoding ≠ .run) :
    c.byteSize = expandedBytes t c.card := by
  cases c with
  | array vs => exact (if_pos hfit).symm
  | bitset b =>
    obtain ⟨n, hn, hlt⟩ := hfit
    have hcard : (bitset b).card = n := by rw [card, Bitset.card, hn, Option.getD_some]
    rw [expandedBytes, hcard, if_neg (by omega), byteSize]
  | run rs => exact absurd rfl hc

/-- Turned to runs, a container takes four bytes for each run and two more. -/
theorem exists_convert_run (h : c.Valid) :
    ∃ rs, convert .run c = run rs ∧ runBytes rs.size = runBytes c.numRuns ∧
      Runs.card rs = c.card := by
  obtain ⟨rs, hrs⟩ := exists_of_encoding_run (encoding_convert .run c)
  have hvalid := (recodes_convert .run c h).1
  have hvalues := (recodes_convert .run).values_eq h
  rw [hrs] at hvalid hvalues
  exact ⟨rs, hrs, congrArg runBytes (numRuns_congr hvalid h hvalues), card_congr hvalid h hvalues⟩

theorem preferRuns_of_encoding (hc : c.encoding ≠ .run) :
    preferRuns t c = if runBytes c.numRuns < c.byteSize then convert .run c else c := by
  cases c with
  | array vs => rfl
  | bitset b => rfl
  | run rs => exact absurd rfl hc

theorem byteSize_preferRuns (ht : t.maxArraySize ≤ 4096) (h : c.Valid) (hfit : c.Fits t) :
    (preferRuns t c).byteSize = min (runBytes c.numRuns) (expandedBytes t c.card) := by
  by_cases hc : c.encoding = .run
  · obtain ⟨rs, rfl⟩ := exists_of_encoding_run hc
    show (compactRuns t rs).byteSize = min (runBytes rs.size) (expandedBytes t (Runs.card rs))
    unfold compactRuns
    split
    · rename_i hle
      rw [plainSize_eq_min] at hle
      rw [byteSize]
      omega
    · rename_i hlt
      rw [byteSize_expandRuns, Nat.min_eq_right (expandedBytes_le_runBytes ht (by omega))]
  · rw [preferRuns_of_encoding hc, ← byteSize_of_fits h hfit hc]
    split
    · rename_i hlt
      obtain ⟨rs, hrs, hsize, -⟩ := exists_convert_run h
      rw [hrs, byteSize, hsize]
      omega
    · omega

/-- An array or a bitset that fits is only turned to runs that settling would leave. -/
theorem canonical_preferRuns (ht : t.maxArraySize ≤ 4096) (h : c.Valid) (hfit : c.Fits t) :
    (preferRuns t c).Canonical t := by
  by_cases hc : c.encoding = .run
  · obtain ⟨rs, rfl⟩ := exists_of_encoding_run hc
    exact (settled_compact h).canonical
  · rw [preferRuns_of_encoding hc, byteSize_of_fits h hfit hc]
    split
    · rename_i hlt
      obtain ⟨rs, hrs, hsize, hcard⟩ := exists_convert_run h
      rw [hrs, Canonical, hsize, hcard]
      by_contra hgt
      have := expandedBytes_le_runBytes ht (Nat.lt_of_not_le hgt)
      omega
    · exact (settled_of_fits h hfit hc).canonical

/-- A canonical container is left alone unless its values take less room as runs. -/
theorem preferRuns_eq_self (hcanon : c.Canonical t) (hle : c.byteSize ≤ runBytes c.numRuns) :
    preferRuns t c = c := by
  by_cases hc : c.encoding = .run
  · obtain ⟨rs, rfl⟩ := exists_of_encoding_run hc
    exact compact_eq_self hcanon
  · rw [preferRuns_of_encoding hc, if_neg (by omega)]

/-- Under thresholds up to 4096, a container that fits them turns to or away from runs so that it
takes the fewest bytes that runs or the encoding without runs can do with. It is told whether it
then consists of runs; it is canonical, holds the same values, and stays as it is from then on. -/
theorem runOptimize_smallest (t : Thresholds) (c : Container) (ht : t.maxArraySize ≤ 4096)
    (h : c.Valid) (hfit : c.Fits t) :
    ∃ d, runOptimize? t c = some (decide (d.encoding = .run), d) ∧
      Checked.runOptimize t c = some (decide (d.encoding = .run), d) ∧
      d.Valid ∧ d.Canonical t ∧ d.Fits t ∧ d.values = c.values ∧
      d.byteSize = min (runBytes c.numRuns)
        (if c.card ≤ t.maxArraySize then arrayBytes c.card else bitsetBytes) ∧
      runOptimize? t d = some (decide (d.encoding = .run), d) := by
  have hvalid := (recodes_preferRuns t c h).1
  have hvalues := (recodes_preferRuns t).values_eq h
  have hcanon := canonical_preferRuns ht h hfit
  have hsize := byteSize_preferRuns ht h hfit
  refine ⟨preferRuns t c, runOptimize?_eq t h, Checked.runOptimize_eq t h, hvalid, hcanon,
    fits_of_canonical hcanon, hvalues, hsize, ?_⟩
  have hself : preferRuns t (preferRuns t c) = preferRuns t c := by
    apply preferRuns_eq_self hcanon
    rw [numRuns_congr hvalid h hvalues, hsize]
    exact Nat.min_le_left _ _
  rw [runOptimize?_eq t hvalid, runOptimize, hself]

/-- Two values next to one another take six bytes either way, and stay an array. -/
theorem runOptimize_smallest_tie :
    (Thresholds.standard.maxArraySize ≤ 4096 ∧ (array #[7, 8]).Valid ∧
        (array #[7, 8]).Fits .standard) ∧
      ∃ d, runOptimize? .standard (array #[7, 8]) = some (decide (d.encoding = .run), d) ∧
        d.byteSize = 6 ∧ runOptimize? .standard d = some (decide (d.encoding = .run), d) := by
  have ht : Thresholds.standard.maxArraySize ≤ 4096 := by decide
  have h : (array #[7, 8]).Valid := by decide
  have hfit : (array #[7, 8]).Fits .standard := by
    show 2 ≤ 4096
    decide
  obtain ⟨d, hd, -, -, -, -, -, hsize, hagain⟩ := runOptimize_smallest .standard _ ht h hfit
  exact ⟨⟨ht, h, hfit⟩, d, hd, hsize.trans (by decide), hagain⟩

end Roaring.Container
