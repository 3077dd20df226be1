import Roaring.Proofs.Container.Query
import Roaring.Proofs.Container.Update

/-!
# Single values added and removed again

Whether a value was there decides what adding and removing it tell, and each undoes the other. The
encodings agree at the crossover because a container that fits its thresholds leaves no choice: runs
stay runs, and a container without runs is determined by its values.
-/
namespace Roaring.Container

variable {a b c : Container} {t : Thresholds} {v : UInt16}

/-! ## Containers that fit -/

/-- Without runs, a container that fits is settled on its values. -/
theorem settled_of_fits (h : c.Valid) (hfit : c.Fits t) (hrun : c.encoding ≠ .run) :
    Settled t (· ∈ c) c := by
  refine ⟨h, ?_, fun u => Iff.rfl⟩
  cases c with
  | array vs => exact hfit
  | bitset b => exact hfit
  | run rs => exact absurd rfl hrun

/-- Two containers that fit and have runs both or neither are one if they hold the same values. -/
theorem eq_of_fits (ha : a.Valid) (hb : b.Valid) (hfa : a.Fits t) (hfb : b.Fits t)
    (hrun : a.encoding = .run ↔ b.encoding = .run) (hmem : ∀ u, u ∈ a ↔ u ∈ b) : a = b := by
  by_cases hr : a.encoding = .run
  · obtain ⟨as, rfl⟩ := exists_of_encoding_run hr
    obtain ⟨bs, rfl⟩ := exists_of_encoding_run (hrun.mp hr)
    simp only [mem_run ha, mem_run hb] at hmem
    exact congrArg run (Runs.Valid.eq_of_values ha hb hmem)
  · have hsb := settled_of_fits hb hfb fun hb => hr (hrun.mpr hb)
    exact (settled_of_fits ha hfa hr).unique (hsb.congr fun u => (hmem u).symm) hr
      fun hb => hr (hrun.mpr hb)

/-! ## What is told -/

theorem insert_fst (t : Thresholds) (h : c.Valid) (v : UInt16) :
    (c.insert t v).1 ↔ ¬v ∈ c := by
  cases c with
  | array vs =>
    rw [insert, mem_array, ← Sorted.contains_iff h v]
    split
    · simp [*]
    · split <;> simp [*]
  | bitset b =>
    show (b.insert v).1 ↔ _
    rw [mem_bitset, Bitset.insert_fst]
    simp
  | run rs =>
    show (Runs.insert rs v).1 ↔ _
    rw [mem_run h, (Runs.insert_spec h v).2]
    simp

theorem erase_fst (t : Thresholds) (h : c.Valid) (v : UInt16) : (c.erase t v).1 ↔ v ∈ c := by
  cases c with
  | array vs => exact Sorted.contains_iff h v
  | bitset b =>
    rw [mem_bitset, ← Bitset.erase_fst, erase]
    split <;> simp [*]
  | run rs =>
    show (Runs.erase rs v).1 ↔ _
    rw [mem_run h, (Runs.erase_spec h v).2]

/-! ## Runs stay runs -/

theorem encoding_insert (c : Container) (t : Thresholds) (v : UInt16) :
    (c.insert t v).2.encoding = .run ↔ c.encoding = .run := by
  cases c with
  | array vs =>
    rw [insert]
    split
    · rfl
    · split <;> simp [encoding]
  | bitset b => exact Iff.rfl
  | run rs => exact Iff.rfl

theorem encoding_erase (c : Container) (t : Thresholds) (v : UInt16) :
    (c.erase t v).2.encoding = .run ↔ c.encoding = .run := by
  cases c with
  | array vs => exact Iff.rfl
  | bitset b =>
    rw [erase]
    split
    · simp only [compactBitset_encoding, false_iff]
      simp [encoding]
    · rfl
  | run rs => exact Iff.rfl

/-! ## Back and forth -/

/-- What a change of one value tells and leaves: whether it was needed, and a container that fits,
with the values that `p` asks for. -/
structure Outcome (t : Thresholds) (needed : Prop) (p : UInt16 → Prop) (o : Bool × Container) :
    Prop where
  told : o.1 ↔ needed
  mem : ∀ u, u ∈ o.2 ↔ p u
  valid : o.2.Valid
  fits : o.2.Fits t

theorem outcome_insert (h : c.Valid) (hfit : c.Fits t) (v : UInt16) :
    Outcome t (¬v ∈ c) (fun u => u = v ∨ u ∈ c) (c.insert t v) where
  told := insert_fst t h v
  mem := (insert_spec t v h).2
  valid := (insert_spec t v h).1
  fits := fits_insert t v h hfit

theorem outcome_erase (h : c.Valid) (hfit : c.Fits t) (v : UInt16) :
    Outcome t (v ∈ c) (fun u => u ∈ c ∧ u ≠ v) (c.erase t v) where
  told := erase_fst t h v
  mem := (erase_spec t v h).2
  valid := (erase_spec t v h).1
  fits := fits_erase t v h hfit

/-- An added value is removed without a trace. -/
theorem erase_insert (h : c.Valid) (hfit : c.Fits t) (hv : ¬v ∈ c) :
    (c.insert t v).2.erase t v = (true, c) := by
  have hin := outcome_insert h hfit v
  have hout := outcome_erase hin.valid hin.fits v
  refine Prod.ext (hout.told.mpr ((hin.mem v).mpr (.inl rfl))) ?_
  refine eq_of_fits hout.valid h hout.fits hfit ?_ ?_
  · rw [encoding_erase, encoding_insert]
  · intro u
    rw [hout.mem, hin.mem]
    constructor
    · rintro ⟨rfl | hu, hne⟩
      · exact absurd rfl hne
      · exact hu
    · intro hu
      exact ⟨.inr hu, fun heq => hv (heq ▸ hu)⟩

/-- A removed value is put back as it was. -/
theorem insert_erase (h : c.Valid) (hfit : c.Fits t) (hv : v ∈ c) :
    (c.erase t v).2.insert t v = (true, c) := by
  have hout := outcome_erase h hfit v
  have hin := outcome_insert hout.valid hout.fits v
  refine Prod.ext (hin.told.mpr fun hmem => ((hout.mem v).mp hmem).2 rfl) ?_
  refine eq_of_fits hin.valid h hin.fits hfit ?_ ?_
  · rw [encoding_insert, encoding_erase]
  · intro u
    rw [hin.mem, hout.mem]
    constructor
    · rintro (rfl | ⟨hu, -⟩)
      · exact hv
      · exact hu
    · intro hu
      by_cases heq : u = v
      · exact .inl heq
      · exact .inr ⟨hu, heq⟩

end Roaring.Container
