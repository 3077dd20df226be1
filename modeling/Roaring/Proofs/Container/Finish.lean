import Roaring.Proofs.Container.Deferred

/-!
# Finishing what was taken in

A bitset absorbs a union or a symmetric difference by writing the other operand's values into its
words, whatever the encoding of that operand. Finishing it gives the container of the operation
itself, with one exception: the union of a bitset with the full run list is that run list, and a
bitset that has taken it in is not turned back into runs.
-/
namespace Roaring.Container

variable {t : Thresholds}

/-- The operands of a union of which the result is a run list, though the left one is a bitset. -/
def FillsBitset (op : SetOp) (a b : Container) : Prop :=
  op = .union ∧ a.encoding = .bitset ∧ b = run #[Run.whole]

/-- A bitset that has taken in or toggled a container is finished without runs. Where the operation
has no runs to give either, the two are one container. -/
theorem compact_uncounted_eq {op : SetOp} {a b : Container} {ws : Words} (ha : a.Valid)
    (hb : b.Valid) (hrun : (combine t op a b).encoding ≠ .run)
    (hmem : ∀ v, ws.test v ↔ op.Holds (v ∈ a) (v ∈ b)) :
    compact t (bitset (.uncounted ws)) = combine t op a b :=
  eq_compactBitset (settled_combine t op ha hb) hrun (Bitset.exact_uncounted ws) hmem

theorem unionRunBitset_encoding {r : Array Run} (b : Bitset) (h : r ≠ #[Run.whole]) :
    (union.unionRunBitset t r b).encoding ≠ .run := by
  rw [union.unionRunBitset, if_neg (mt (Runs.isFull_iff r).mp h)]
  exact compactBitset_encoding t _

theorem combine_union_bitset_encoding {s : Bitset} {b : Container} (h : b ≠ run #[Run.whole]) :
    (combine t .union (bitset s) b).encoding ≠ .run := by
  cases b with
  | array vs => exact compactBitset_encoding t _
  | bitset b => exact compactBitset_encoding t _
  | run rs => exact unionRunBitset_encoding s fun hrs => h (congrArg run hrs)

theorem combine_symmDiff_bitset_encoding (s : Bitset) (b : Container) :
    (combine t .symmDiff (bitset s) b).encoding ≠ .run := by
  cases b with
  | array vs | bitset b | run rs => exact compactBitset_encoding t _

theorem combine_union_whole (s : Bitset) :
    combine t .union (bitset s) (run #[Run.whole]) = run #[Run.whole] := by
  have hfull : Runs.isFull #[Run.whole] := (Runs.isFull_iff _).mpr rfl
  simp only [combine, union, union.unionRunBitset, hfull, if_true]

/-- In the place of the left operand, finishing comes to the operation wherever the operands do not
fill a bitset with runs. -/
theorem compact_absorbDeferred (op : SetOp) {a b : Container} (ha : a.Valid) (hb : b.Valid)
    (h : ¬FillsBitset op a b) : compact t (absorbDeferred t op a b) = combine t op a b := by
  have habsorb : compact t (absorb t op a b) = combine t op a b :=
    (settled_absorb t op ha hb).compact_eq.trans (absorb_eq t op ha hb)
  cases op with
  | inter => exact habsorb
  | diff => exact habsorb
  | union =>
    cases a with
    | array vs => exact compact_defer t .union ha hb
    | run rs => exact compact_defer t .union ha hb
    | bitset s =>
      have hne : b ≠ run #[Run.whole] := fun e => h ⟨rfl, rfl, e⟩
      refine compact_uncounted_eq ha hb (combine_union_bitset_encoding hne) fun v => ?_
      rw [mem_bitset]
      exact test_takeIn s.words hb v
  | symmDiff =>
    cases a with
    | array vs => exact compact_defer t .symmDiff ha hb
    | run rs => exact compact_defer t .symmDiff ha hb
    | bitset s =>
      refine compact_uncounted_eq ha hb (combine_symmDiff_bitset_encoding s b) fun v => ?_
      rw [mem_bitset]
      exact test_toggleIn s.words hb v

/-- A bitset filled with runs is finished as a bitset or an array, not as the run list. -/
theorem compact_absorbDeferred_ne {op : SetOp} {a b : Container} (h : FillsBitset op a b) :
    compact t (absorbDeferred t op a b) ≠ combine t op a b := by
  obtain ⟨rfl, henc, rfl⟩ := h
  cases a with
  | array vs => cases henc
  | run rs => cases henc
  | bitset s =>
    intro heq
    rw [combine_union_whole] at heq
    exact compactBitset_encoding t (.uncounted (takeIn s.words (run #[Run.whole])))
      (congrArg encoding heq)

/-- An operation in the place of the left operand, finished at once, has the values of the operation
that builds a new container, and both outcomes are canonical. They are one container exactly where
the operands do not fill a bitset with runs. -/
theorem finish_absorbDeferred (t : Thresholds) (op : SetOp) (a b : Container) (ha : a.Valid)
    (hb : b.Valid) :
    ∃ c d, (absorbDeferred? t op a b).bind (compact? t) = some c ∧ combine? t op a b = some d ∧
      c.Canonical t ∧ d.Canonical t ∧ c.values = d.values ∧ (c = d ↔ ¬FillsBitset op a b) := by
  obtain ⟨hvalid, hmem⟩ := absorbDeferred_spec t op ha hb
  have hfinished := settled_compact (t := t) hvalid
  have hcombined := settled_combine t op ha hb
  refine ⟨compact t (absorbDeferred t op a b), combine t op a b, ?_, combine?_eq t op ha hb,
    hfinished.canonical, hcombined.canonical, ?_, ?_, compact_absorbDeferred op ha hb⟩
  · rw [absorbDeferred?_eq t op ha hb, Option.bind_some, compact?_eq t hvalid]
  · exact Sorted.eq_of_mem_iff (increasing_values hfinished.valid)
      (increasing_values hcombined.valid) fun v =>
        (hfinished.mem v).trans ((hmem v).trans (hcombined.mem v).symm)
  · exact fun heq hfills => compact_absorbDeferred_ne hfills heq

theorem finish_absorbDeferred_array_run :
    (array #[1, 5]).Valid ∧ (run #[⟨3, 2⟩]).Valid ∧
      ∃ c d, (absorbDeferred? .standard .symmDiff (array #[1, 5]) (run #[⟨3, 2⟩])).bind
          (compact? .standard) = some c ∧
        combine? .standard .symmDiff (array #[1, 5]) (run #[⟨3, 2⟩]) = some d ∧ c.values = d.values ∧
        (c = d ↔ ¬FillsBitset .symmDiff (array #[1, 5]) (run #[⟨3, 2⟩])) := by
  have ha : (array #[1, 5]).Valid := by decide
  have hb : (run #[⟨3, 2⟩]).Valid := by decide
  obtain ⟨c, d, hc, hd, -, -, hvalues, heq⟩ := finish_absorbDeferred .standard .symmDiff _ _ ha hb
  exact ⟨ha, hb, c, d, hc, hd, hvalues, heq⟩

/-- A bitset takes in the full run list and is finished as a bitset, where the union is the run
list. -/
theorem finish_full_run :
    (bitset .empty).Valid ∧ (run #[Run.whole]).Valid ∧
      combine? .standard .union (bitset .empty) (run #[Run.whole]) = some (run #[Run.whole]) ∧
      (absorbDeferred? .standard .union (bitset .empty) (run #[Run.whole])).bind
          (compact? .standard) ≠
        combine? .standard .union (bitset .empty) (run #[Run.whole]) := by
  have ha : (bitset .empty).Valid := Bitset.exact_empty
  have hb : (run #[Run.whole]).Valid := by decide
  refine ⟨ha, hb, ?_, ?_⟩
  · rw [combine?_eq _ _ ha hb, combine_union_whole]
  · rw [combine?_eq _ _ ha hb, absorbDeferred?_eq _ _ ha hb, Option.bind_some,
      compact?_eq _ (absorbDeferred_spec _ _ ha hb).1]
    exact fun heq => compact_absorbDeferred_ne ⟨rfl, rfl, rfl⟩ (Option.some.inj heq)

end Roaring.Container
