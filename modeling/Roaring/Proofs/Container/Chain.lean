import Roaring.Proofs.Container.Deferred
import Roaring.Proofs.Container.Query

/-!
# Chains of unfinished operations

A chain applies operations one after the other, each as a new container or in the place of the one
before, and leaves every outcome unfinished. At each point the container is valid and answers
exactly, whatever it knows of its own size; `compact` settles it at the end.
-/
namespace Roaring.Container

/-- One operation of a chain. -/
structure Step where
  op : SetOp
  operand : Container
  /-- Whether the outcome takes the place of the container so far. -/
  inPlace : Bool

/-- The outcome of a step, unfinished. -/
def next? (t : Thresholds) (c : Container) (s : Step) : Option Container :=
  if s.inPlace then absorbDeferred? t s.op c s.operand else defer? t s.op c s.operand

/-- The outcome of a chain, unfinished. -/
def chain? (t : Thresholds) (c : Container) (steps : List Step) : Option Container :=
  steps.foldlM (next? t) c

/-- The values that a chain asks for, from those for which `p` holds on. -/
def folded (p : UInt16 → Prop) (steps : List Step) : UInt16 → Prop :=
  steps.foldl (fun q s v => s.op.Holds (q v) (v ∈ s.operand)) p

variable {t : Thresholds} {c : Container}

theorem next?_spec {s : Step} (hc : c.Valid) (hs : s.operand.Valid) :
    ∃ d, next? t c s = some d ∧ d.Valid ∧ ∀ v, v ∈ d ↔ s.op.Holds (v ∈ c) (v ∈ s.operand) := by
  unfold next?
  split
  · exact ⟨_, absorbDeferred?_eq t s.op hc hs, absorbDeferred_spec t s.op hc hs⟩
  · exact ⟨_, defer?_eq t s.op hc hs, valid_defer t s.op hc hs, mem_defer t s.op hc hs⟩

theorem chain?_spec (hc : c.Valid) (steps : List Step) (hs : ∀ s ∈ steps, s.operand.Valid) :
    ∃ d, chain? t c steps = some d ∧ d.Valid ∧ ∀ v, v ∈ d ↔ folded (· ∈ c) steps v := by
  induction steps generalizing c with
  | nil => exact ⟨c, rfl, hc, fun v => Iff.rfl⟩
  | cons s steps ih =>
    obtain ⟨hs, hrest⟩ := List.forall_mem_cons.mp hs
    obtain ⟨d, hd, hvalid, hmem⟩ := next?_spec (t := t) hc hs
    obtain ⟨e, he, hvalid', hmem'⟩ := ih hvalid hrest
    have hheld : (fun v => v ∈ d) = fun v => s.op.Holds (v ∈ c) (v ∈ s.operand) :=
      funext fun v => propext (hmem v)
    refine ⟨e, ?_, hvalid', fun v => ?_⟩
    · rw [chain?, List.foldlM_cons, hd]
      exact he
    · rw [hmem', hheld, folded, folded, List.foldl_cons]

/-- From any valid container, a chain with valid operands goes through. At every point the container
answers as the values folded so far do, and settling the last one gives a canonical container of
the values of the whole chain. -/
theorem chain_exact (t : Thresholds) (c : Container) (steps : List Step) (hc : c.Valid)
    (hs : ∀ s ∈ steps, s.operand.Valid) :
    (∀ k, ∃ d vs, chain? t c (steps.take k) = some d ∧ d.Valid ∧ vs.Pairwise (· < ·) ∧
      (∀ v, v ∈ vs ↔ folded (· ∈ c) (steps.take k) v) ∧ Answers d vs) ∧
    ∃ r, (chain? t c steps).bind (compact? t) = some r ∧ r.Valid ∧ r.Canonical t ∧
      ∀ v, v ∈ r ↔ folded (· ∈ c) steps v := by
  constructor
  · intro k
    obtain ⟨d, hd, hvalid, hmem⟩ := chain?_spec (t := t) hc (steps.take k)
      fun s hs' => hs s (List.mem_of_mem_take hs')
    exact ⟨d, d.values.toList, hd, hvalid, increasing_values hvalid,
      fun v => mem_values.trans (hmem v), answers_values hvalid⟩
  · obtain ⟨d, hd, hvalid, hmem⟩ := chain?_spec (t := t) hc steps hs
    have hsettled := settled_compact (t := t) hvalid
    refine ⟨compact t d, ?_, hsettled.valid, hsettled.canonical, fun v =>
      (hsettled.mem v).trans (hmem v)⟩
    rw [hd, Option.bind_some, compact?_eq t hvalid]

theorem chain_exact_array_run :
    (array #[1, 5]).Valid ∧
      (∀ s ∈ [(⟨.union, run #[⟨3, 2⟩], false⟩ : Step), ⟨.symmDiff, array #[1, 9], true⟩],
        s.operand.Valid) ∧
      ∃ r, (chain? ⟨0, 0, 0⟩ (array #[1, 5])
          [⟨.union, run #[⟨3, 2⟩], false⟩, ⟨.symmDiff, array #[1, 9], true⟩]).bind
            (compact? ⟨0, 0, 0⟩) = some r ∧
        r.Valid ∧ r.Canonical ⟨0, 0, 0⟩ ∧ ∀ v, v ∈ r ↔ folded (· ∈ array #[1, 5])
          [⟨.union, run #[⟨3, 2⟩], false⟩, ⟨.symmDiff, array #[1, 9], true⟩] v := by
  have hc : (array #[1, 5]).Valid := by decide
  have hs : ∀ s ∈ [(⟨.union, run #[⟨3, 2⟩], false⟩ : Step), ⟨.symmDiff, array #[1, 9], true⟩],
      s.operand.Valid := by decide
  exact ⟨hc, hs, (chain_exact ⟨0, 0, 0⟩ _ _ hc hs).2⟩

end Roaring.Container
