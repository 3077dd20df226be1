import Roaring.Proofs.Runs.Merge

/-!
# Bitsets under values and runs

What a change by a list of values, a range or a list of runs does to the bits. Together with the
exactness of the number of values this determines the outcome: two bitsets with the same bits have
the same words.
-/
namespace Roaring.Bitset

/-! ## Values -/

section Values

variable (b : Bitset) (vs : Array UInt16) (v : UInt16)

theorem test_insertAll : (b.insertAll vs).words.test v = (b.words.test v || decide (v ∈ vs)) :=
  (Words.putAll_spec b.words vs).1 v

theorem test_eraseAll : (b.eraseAll vs).words.test v = (b.words.test v && !decide (v ∈ vs)) :=
  (Words.clearAll_spec b.words vs).1 v

theorem test_toggleAll {vs : Array UInt16} (h : Sorted.Increasing vs) :
    (b.toggleAll vs).words.test v = (b.words.test v ^^ decide (v ∈ vs)) :=
  Words.test_flipAll h b.words v

theorem exact_ofValues : (ofValues vs).Exact := exact_insertAll exact_empty vs

theorem test_ofValues : (ofValues vs).words.test v = decide (v ∈ vs) := by
  rw [ofValues, test_insertAll]
  simp [empty]

theorem insert_fst : (b.insert v).1 = !b.words.test v := by
  unfold insert
  split <;> simp_all

theorem erase_fst : (b.erase v).1 = b.words.test v := by
  unfold erase
  split <;> simp_all

theorem test_insert : (b.insert v).2.words.test = (b.words.put v).test := by
  unfold insert
  split
  · rename_i h
    funext u
    by_cases hu : u = v
    · simp [hu, h]
    · simp [hu]
  · rfl

theorem test_erase : (b.erase v).2.words.test = (b.words.clear v).test := by
  unfold erase
  split
  · rfl
  · rename_i h
    funext u
    by_cases hu : u = v
    · simp [hu, h]
    · simp [hu]

end Values

/-! ## Ranges -/

section Ranges

variable (b : Bitset) (start stop : Nat) (v : UInt16)

/-- Also an empty range is changed in the way of a proper one. -/
theorem test_changeRange {change : Words → Nat → Nat → Words} {after : Nat → Nat → Nat}
    {g : Bool → Bool → Bool}
    (hchange : ∀ ws, (change ws start stop).test v =
      g (ws.test v) (decide (start ≤ v.toNat ∧ v.toNat < stop)))
    (hg : ∀ x, g x false = x) :
    (changeRange change after b start stop).words.test v =
      g (b.words.test v) (decide (start ≤ v.toNat ∧ v.toNat < stop)) := by
  unfold changeRange
  split
  · exact hchange b.words
  · have hout : ¬(start ≤ v.toNat ∧ v.toNat < stop) := by omega
    rw [decide_eq_false hout, hg]

theorem test_insertRange : (b.insertRange start stop).words.test v =
    (b.words.test v || decide (start ≤ v.toNat ∧ v.toNat < stop)) :=
  test_changeRange b start stop v (fun ws => Words.test_putRange ws start stop v) Bool.or_false

theorem test_eraseRange : (b.eraseRange start stop).words.test v =
    (b.words.test v && !decide (start ≤ v.toNat ∧ v.toNat < stop)) :=
  test_changeRange (g := fun x y => x && !y) b start stop v
    (fun ws => Words.test_clearRange ws start stop v) Bool.and_true

theorem test_toggleRange : (b.toggleRange start stop).words.test v =
    (b.words.test v ^^ decide (start ≤ v.toNat ∧ v.toNat < stop)) :=
  test_changeRange b start stop v (fun ws => Words.test_flipRange ws start stop v) Bool.xor_false

end Ranges

/-! ## Runs -/

section OverRuns

variable {change : Bitset → Nat → Nat → Bitset}

theorem exact_overRuns
    (hchange : ∀ {b : Bitset} {start stop : Nat}, b.Exact → stop ≤ 65536 →
      (change b start stop).Exact)
    {b : Bitset} (h : b.Exact) {runs : Array Run} (hruns : Runs.Valid runs) :
    (overRuns change b runs).Exact := by
  have hdom := hruns.1
  rw [overRuns, ← Array.foldl_toList]
  generalize runs.toList = rs at hdom
  induction rs generalizing b with
  | nil => exact h
  | cons r rs ih =>
    obtain ⟨hr, hrs⟩ := List.forall_mem_cons.mp hdom
    exact ih (hchange h hr) hrs

/-- The bits after every run has changed its range, where `covered` sums up what the runs do to
one number. -/
theorem test_overRuns {g : Bool → Bool → Bool} {covered : List Run → Nat → Bool}
    (hchange : ∀ b start stop (v : UInt16), (change b start stop).words.test v =
      g (b.words.test v) (decide (start ≤ v.toNat ∧ v.toNat < stop)))
    (hnil : ∀ x n, g x (covered [] n) = x)
    (hcons : ∀ x r rs n, g (g x (decide (r.first.toNat ≤ n ∧ n < r.stop))) (covered rs n) =
      g x (covered (r :: rs) n))
    (b : Bitset) (runs : Array Run) (v : UInt16) :
    (overRuns change b runs).words.test v =
      g (b.words.test v) (covered runs.toList v.toNat) := by
  rw [overRuns, ← Array.foldl_toList]
  generalize runs.toList = rs
  induction rs generalizing b with
  | nil => exact (hnil _ _).symm
  | cons r rs ih => rw [List.foldl_cons, ih, hchange, hcons]

end OverRuns

section Runs

variable {b : Bitset} {runs : Array Run}

theorem exact_insertRuns (h : b.Exact) (hruns : Runs.Valid runs) : (b.insertRuns runs).Exact :=
  exact_overRuns (fun h hs => exact_insertRange h hs) h hruns

theorem exact_eraseRuns (h : b.Exact) (hruns : Runs.Valid runs) : (b.eraseRuns runs).Exact :=
  exact_overRuns (fun h _ => exact_eraseRange h _ _) h hruns

theorem exact_toggleRuns (h : b.Exact) (hruns : Runs.Valid runs) : (b.toggleRuns runs).Exact :=
  exact_overRuns (fun h hs => exact_toggleRange h hs) h hruns

theorem test_insertRuns (b : Bitset) (runs : Array Run) (v : UInt16) :
    (b.insertRuns runs).words.test v = (b.words.test v || Runs.covers runs.toList v.toNat) :=
  test_overRuns test_insertRange (by simp) (by simp [Bool.or_assoc]) b runs v

theorem test_eraseRuns (b : Bitset) (runs : Array Run) (v : UInt16) :
    (b.eraseRuns runs).words.test v = (b.words.test v && !Runs.covers runs.toList v.toNat) :=
  test_overRuns (g := fun x y => x && !y) test_eraseRange (by simp)
    (by simp [Bool.and_assoc]) b runs v

theorem test_toggleRuns (b : Bitset) (hruns : Runs.Valid runs) (v : UInt16) :
    (b.toggleRuns runs).words.test v = (b.words.test v ^^ Runs.covers runs.toList v.toNat) := by
  rw [← hruns.ordered.coversOdd_eq]
  exact test_overRuns test_toggleRange (by simp [Runs.coversOdd]) (by simp [Runs.coversOdd])
    b runs v

theorem exact_ofRuns (hruns : Runs.Valid runs) : (ofRuns runs).Exact :=
  exact_insertRuns exact_empty hruns

theorem test_ofRuns (runs : Array Run) (v : UInt16) :
    (ofRuns runs).words.test v = Runs.covers runs.toList v.toNat := by
  rw [ofRuns, test_insertRuns]
  simp [empty]

/-! ## Gaps -/

theorem exact_eraseGapsFrom (h : b.Exact) (start : Nat) (rs : List Run) :
    (b.eraseGapsFrom start rs).Exact := by
  induction rs generalizing b start with
  | nil => exact exact_eraseRange h _ _
  | cons r rs ih => exact ih (exact_eraseRange h _ _) _

theorem exact_eraseGaps (h : b.Exact) (runs : Array Run) : (b.eraseGaps runs).Exact :=
  exact_eraseGapsFrom h 0 runs.toList

/-- From `start` on, what the runs do not cover is gone. -/
theorem test_eraseGapsFrom (b : Bitset) {start : Nat} {rs : List Run} (hrs : Runs.ValidList rs)
    (hstart : ∀ r ∈ rs, start ≤ r.first.toNat) (v : UInt16) :
    (b.eraseGapsFrom start rs).words.test v =
      (b.words.test v && (decide (v.toNat < start) || Runs.covers rs v.toNat)) := by
  induction rs generalizing b start with
  | nil =>
    have hv := v.toNat_lt
    rw [eraseGapsFrom, test_eraseRange, Runs.covers_nil, Bool.or_false, ← decide_not]
    congr 2
    rw [eq_iff_iff]
    unfold domainSize
    omega
  | cons r rs ih =>
    have hle := hstart r List.mem_cons_self
    have hrest : v.toNat ≤ r.stop → Runs.covers rs v.toNat = false := hrs.covers_tail
    have hlt := r.first_lt_stop
    rw [eraseGapsFrom, ih _ hrs.tail fun s hs => Nat.le_of_lt (hrs.apart s hs), test_eraseRange,
      Runs.covers_cons, Bool.and_assoc]
    congr 1
    grind

theorem test_eraseGaps (b : Bitset) (hruns : Runs.Valid runs) (v : UInt16) :
    (b.eraseGaps runs).words.test v = (b.words.test v && Runs.covers runs.toList v.toNat) := by
  rw [eraseGaps, test_eraseGapsFrom b hruns fun r _ => Nat.zero_le _]
  simp

end Runs

end Roaring.Bitset
