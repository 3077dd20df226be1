import Roaring.Proofs.Container.Deferred
import Roaring.Proofs.Runs.Query

/-!
# The order of operands

Intersection, union and symmetric difference do not depend on the order of their operands, down to
the encoding and the cached count. A run list and another encoding share one kernel in both orders;
two run lists have one valid list for their outcome; and without runs a set has one settled
container and one uncounted bitset.
-/
namespace Roaring

theorem SetOp.holds_comm {op : SetOp} (hop : op ≠ .diff) {p q : Prop} :
    op.Holds p q ↔ op.Holds q p := by
  cases op with
  | inter => exact and_comm
  | union => exact or_comm
  | diff => exact absurd rfl hop
  | symmDiff => exact or_comm

namespace Container

variable {op : SetOp} {a b : Container}

/-! ## By encodings -/

/-- The order of operands makes no difference when it makes none for two run lists, for a run list
and another encoding, and without run lists. -/
theorem comm_of_encodings {f : Container → Container → Container}
    (hruns : ∀ r s, Runs.Valid r → Runs.Valid s → f (run r) (run s) = f (run s) (run r))
    (hmixed : ∀ r c, c.encoding ≠ .run → f (run r) c = f c (run r))
    (hplain : ∀ c d : Container, c.Valid → d.Valid → c.encoding ≠ .run → d.encoding ≠ .run →
      f c d = f d c)
    (ha : a.Valid) (hb : b.Valid) : f a b = f b a := by
  by_cases hra : a.encoding = .run
  · obtain ⟨r, rfl⟩ := exists_of_encoding_run hra
    by_cases hrb : b.encoding = .run
    · obtain ⟨s, rfl⟩ := exists_of_encoding_run hrb
      exact hruns r s ha hb
    · exact hmixed r b hrb
  · by_cases hrb : b.encoding = .run
    · obtain ⟨s, rfl⟩ := exists_of_encoding_run hrb
      exact (hmixed s a hra).symm
    · exact hplain a b ha hb hra hrb

/-! ## Run lists -/

theorem covers_combineRuns (op : SetOp) {r s : Array Run} (hr : Runs.Valid r) (hs : Runs.Valid s)
    (v : UInt16) : Runs.covers (combineRuns op r s).toList v.toNat ↔
      op.Holds (Runs.covers r.toList v.toNat) (Runs.covers s.toList v.toNat) := by
  cases op with
  | inter => exact (interRuns_spec hr hs).2 v
  | union => exact (unionRuns_spec hr hs).2 v
  | diff =>
    rw [combineRuns, (Runs.diff_spec hr hs).2]
    simp [SetOp.Holds]
  | symmDiff =>
    rw [combineRuns, (Runs.symmDiff_spec hr hs).2]
    cases Runs.covers r.toList v.toNat <;> simp [SetOp.Holds]

/-- Whichever list a merge prefers, its outcome is the one valid list of the values. -/
theorem combineRuns_comm (hop : op ≠ .diff) {r s : Array Run} (hr : Runs.Valid r)
    (hs : Runs.Valid s) : combineRuns op r s = combineRuns op s r :=
  Runs.Valid.eq_of_values (valid_combineRuns op hr hs) (valid_combineRuns op hs hr) fun v => by
    rw [covers_combineRuns op hr hs, covers_combineRuns op hs hr, SetOp.holds_comm hop]

/-! ## Finished -/

theorem combine_runs (t : Thresholds) (op : SetOp) (r s : Array Run) :
    combine t op (run r) (run s) = compactRuns t (combineRuns op r s) := by
  cases op <;> rfl

/-- One kernel serves a run list and another encoding in both orders. -/
theorem combine_run_comm (t : Thresholds) (hop : op ≠ .diff) (r : Array Run) {c : Container}
    (hc : c.encoding ≠ .run) : combine t op (run r) c = combine t op c (run r) := by
  cases op with
  | diff => exact absurd rfl hop
  | _ =>
    cases c with
    | run s => exact absurd rfl hc
    | _ => rfl

theorem combine_comm (t : Thresholds) (hop : op ≠ .diff) (ha : a.Valid) (hb : b.Valid) :
    combine t op a b = combine t op b a := by
  refine comm_of_encodings (f := combine t op) (fun r s hr hs => ?_)
    (fun r c hc => combine_run_comm t hop r hc) (fun c d hc hd hrc hrd => ?_) ha hb
  · rw [combine_runs, combine_runs, combineRuns_comm hop hr hs]
  · have hswap := (settled_combine t op hd hc).congr fun v => SetOp.holds_comm hop
    exact (settled_combine t op hc hd).unique hswap (combine_encoding t op hrc hrd)
      (combine_encoding t op hrd hrc)

/-! ## Unfinished -/

theorem defer_runs (t : Thresholds) (hop : op.keepsRight) (r s : Array Run) :
    defer t op (run r) (run s) = run (combineRuns op r s) := by
  cases op with
  | inter | diff => cases hop
  | union | symmDiff => rfl

theorem defer_run_comm (t : Thresholds) (hop : op.keepsRight) (r : Array Run) {c : Container}
    (hc : c.encoding ≠ .run) : defer t op (run r) c = defer t op c (run r) := by
  cases op with
  | inter | diff => cases hop
  | union | symmDiff =>
    cases c with
    | run s => exact absurd rfl hc
    | _ => rfl

/-- Uncounted bitsets are told apart by their values alone. -/
theorem uncounted_congr {ws us : Words}
    (h : ∀ v, v ∈ bitset (.uncounted ws) ↔ v ∈ bitset (.uncounted us)) :
    bitset (.uncounted ws) = bitset (.uncounted us) := by
  have hwords : ws = us := Words.ext fun v => by
    simpa only [mem_bitset, Bitset.uncounted, ← Bool.eq_iff_iff] using h v
  rw [hwords]

/-- Two small arrays have a finished outcome, and two large ones an uncounted bitset. -/
theorem defer_arrays (t : Thresholds) (hop : op.keepsRight) (as bs : Array UInt16) :
    if as.size + bs.size ≤ deferBound t then
      defer t op (array as) (array bs) = combine t op (array as) (array bs)
    else ∃ ws, defer t op (array as) (array bs) = bitset (.uncounted ws) := by
  cases op with
  | inter | diff => cases hop
  | union | symmDiff =>
    split
    · exact if_pos ‹_›
    · exact ⟨_, if_neg ‹_›⟩

/-- A bitset and an encoding without runs always have an uncounted bitset for their outcome. -/
theorem defer_bitset (t : Thresholds) (hop : op.keepsRight) (s : Bitset) (hb : b.encoding ≠ .run) :
    (∃ ws, defer t op (bitset s) b = bitset (.uncounted ws)) ∧
      ∃ ws, defer t op b (bitset s) = bitset (.uncounted ws) := by
  cases op with
  | inter | diff => cases hop
  | union | symmDiff =>
    cases b with
    | run r => exact absurd rfl hb
    | _ => exact ⟨⟨_, rfl⟩, ⟨_, rfl⟩⟩

/-- Without run lists, an unfinished outcome is an uncounted bitset in both orders, or it is
finished in both. -/
theorem defer_plain_cases (t : Thresholds) (hop : op.keepsRight) (ha : a.encoding ≠ .run)
    (hb : b.encoding ≠ .run) :
    ((∃ ws, defer t op a b = bitset (.uncounted ws)) ∧
        ∃ ws, defer t op b a = bitset (.uncounted ws)) ∨
      (defer t op a b = combine t op a b ∧ defer t op b a = combine t op b a) := by
  cases a with
  | run r => exact absurd rfl ha
  | bitset s => exact .inl (defer_bitset t hop s hb)
  | array as =>
    cases b with
    | run r => exact absurd rfl hb
    | bitset s => exact .inl (defer_bitset t hop s ha).symm
    | array bs =>
      have hab := defer_arrays t hop as bs
      have hba := defer_arrays t hop bs as
      rw [Nat.add_comm bs.size] at hba
      split at hab
      · rename_i hsmall
        exact .inr ⟨hab, by rwa [if_pos hsmall] at hba⟩
      · rename_i hlarge
        exact .inl ⟨hab, by rwa [if_neg hlarge] at hba⟩

theorem defer_plain_comm (t : Thresholds) (hop : op.keepsRight) (ha : a.Valid) (hb : b.Valid)
    (hra : a.encoding ≠ .run) (hrb : b.encoding ≠ .run) : defer t op a b = defer t op b a := by
  have hne : op ≠ .diff := by
    rintro rfl
    cases hop
  obtain ⟨⟨ws, hab⟩, us, hba⟩ | ⟨hab, hba⟩ := defer_plain_cases t hop hra hrb
  · rw [hab, hba]
    refine uncounted_congr fun v => ?_
    rw [← hab, ← hba, mem_defer t op ha hb, mem_defer t op hb ha, SetOp.holds_comm hne]
  · rw [hab, hba, combine_comm t hne ha hb]

theorem defer_comm (t : Thresholds) (hop : op ≠ .diff) (ha : a.Valid) (hb : b.Valid) :
    defer t op a b = defer t op b a := by
  have hkeeps : op.keepsRight → defer t op a b = defer t op b a := fun hkeeps =>
    comm_of_encodings (f := defer t op)
      (fun r s hr hs => by
        rw [defer_runs t hkeeps, defer_runs t hkeeps, combineRuns_comm hop hr hs])
      (fun r c hc => defer_run_comm t hkeeps r hc)
      (fun c d hc hd hrc hrd => defer_plain_comm t hkeeps hc hd hrc hrd) ha hb
  cases op with
  | inter => exact combine_comm t hop ha hb
  | diff => exact absurd rfl hop
  | union | symmDiff => exact hkeeps rfl

/-! ## Both shapes -/

/-- For intersection, union and symmetric difference the two orders of a pair have one outcome,
finished and unfinished, with one encoding and one payload: values, words and cached count, or
runs. -/
theorem orders_have_one_outcome (t : Thresholds) (op : SetOp) (a b : Container) (hop : op ≠ .diff)
    (ha : a.Valid) (hb : b.Valid) :
    (∃ c, combine? t op a b = some c ∧ combine? t op b a = some c) ∧
      ∃ d, defer? t op a b = some d ∧ defer? t op b a = some d := by
  refine ⟨⟨combine t op a b, combine?_eq t op ha hb, ?_⟩, defer t op a b, defer?_eq t op ha hb, ?_⟩
  · rw [combine?_eq t op hb ha, combine_comm t hop ha hb]
  · rw [defer?_eq t op hb ha, defer_comm t hop ha hb]

theorem orders_have_one_outcome_array_run :
    SetOp.union ≠ .diff ∧ (array #[1, 3]).Valid ∧ (run #[⟨2, 1⟩]).Valid ∧
      (∃ c, combine? .standard .union (array #[1, 3]) (run #[⟨2, 1⟩]) = some c ∧
        combine? .standard .union (run #[⟨2, 1⟩]) (array #[1, 3]) = some c) ∧
      ∃ d, defer? .standard .union (array #[1, 3]) (run #[⟨2, 1⟩]) = some d ∧
        defer? .standard .union (run #[⟨2, 1⟩]) (array #[1, 3]) = some d := by
  have ha : (array #[1, 3]).Valid := by
    show Sorted.Increasing #[1, 3]
    decide
  have hb : (run #[⟨2, 1⟩]).Valid := ⟨by decide, by decide⟩
  have hop : SetOp.union ≠ .diff := by decide
  exact ⟨hop, ha, hb, orders_have_one_outcome .standard .union _ _ hop ha hb⟩

end Container
end Roaring
