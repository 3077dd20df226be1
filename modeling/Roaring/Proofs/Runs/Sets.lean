import Mathlib.Algebra.Ring.Parity
import Roaring.Proofs.Checked.Runs.Merge

/-!
# Run lists as sets

The operations on run lists come to valid lists whose values are what the operation on sets says:
for two lists, for a list and increasing values, which may be next to one another, and for single
runs given to the end of a list. Such a run may start anywhere from the start of the last run on. A
toggle can move that start either way, so what may come next is told by the list as the steps so far
left it, and not by the runs that were given.
-/
namespace Roaring.Runs

/-- A computation comes to a run list, which is valid and has exactly the values asked for. -/
structure Lists (outcome : Option (Array Run)) (rs : Array Run) (p : UInt16 → Prop) : Prop where
  outcome_eq : outcome = some rs
  valid : Valid rs
  mem_iff v : v ∈ values rs ↔ p v

theorem lists_op (op : SetOp) {outcome : Option (Array Run)} {rs : Array Run} {p q : UInt16 → Bool}
    {P Q : UInt16 → Prop} (hout : outcome = some rs) (hvalid : Valid rs)
    (hcov : ∀ v, covers rs.toList v.toNat = op.eval (p v) (q v)) (hp : ∀ v, P v ↔ p v)
    (hq : ∀ v, Q v ↔ q v) : Lists outcome rs fun v => op.Holds (P v) (Q v) where
  outcome_eq := hout
  valid := hvalid
  mem_iff v := by rw [mem_values hvalid, hcov, op.eval_iff, hp, hq]

/-! ## Two operands -/

/-- The operations on two run lists are those on the sets of their values. -/
structure CombineAsSets (a b : Array Run) : Prop where
  union : Lists (Checked.union a b) (union a b) fun v => v ∈ values a ∨ v ∈ values b
  inter : Lists (Checked.inter a b) (inter a b) fun v => v ∈ values a ∧ v ∈ values b
  diff : Lists (Checked.diff a b) (diff a b) fun v => v ∈ values a ∧ v ∉ values b
  symmDiff : Lists (Checked.symmDiff a b) (symmDiff a b) fun v =>
    v ∈ values a ∧ v ∉ values b ∨ v ∈ values b ∧ v ∉ values a

/-- The operations on a run list and an array of values are those on the two sets. -/
structure CombineWithValues (a : Array Run) (vs : Array UInt16) : Prop where
  union : Lists (Checked.unionValues a vs) (unionValues a vs) fun v => v ∈ values a ∨ v ∈ vs
  diff : Lists (Checked.diffValues a vs) (diffValues a vs) fun v => v ∈ values a ∧ v ∉ vs
  symmDiff : Lists (Checked.symmDiffValues a vs) (symmDiffValues a vs) fun v =>
    v ∈ values a ∧ v ∉ vs ∨ v ∈ vs ∧ v ∉ values a

section Operands

variable {a b rs : Array Run} {vs : Array UInt16} {outcome : Option (Array Run)}

theorem lists_runs (op : SetOp) (ha : Valid a) (hb : Valid b) (hout : outcome = some rs)
    (hspec : Valid rs ∧
      ∀ n, covers rs.toList n = op.eval (covers a.toList n) (covers b.toList n)) :
    Lists outcome rs fun v => op.Holds (v ∈ values a) (v ∈ values b) :=
  lists_op op hout hspec.1 (fun v => hspec.2 v.toNat) (mem_values ha) (mem_values hb)

theorem lists_values (op : SetOp) (ha : Valid a) (hout : outcome = some rs)
    (hspec : Valid rs ∧
      ∀ v : UInt16, covers rs.toList v.toNat = op.eval (covers a.toList v.toNat) (v ∈ vs)) :
    Lists outcome rs fun v => op.Holds (v ∈ values a) (v ∈ vs) :=
  lists_op op hout hspec.1 hspec.2 (mem_values ha) fun _ => decide_eq_true_iff.symm

theorem combineAsSets (ha : Valid a) (hb : Valid b) : CombineAsSets a b where
  union := lists_runs .union ha hb (Checked.union_eq ha hb) (union_spec ha hb)
  inter := lists_runs .inter ha hb (Checked.inter_eq ha hb) (inter_spec ha hb)
  diff := lists_runs .diff ha hb (Checked.diff_eq ha hb) (diff_spec ha hb)
  symmDiff := lists_runs .symmDiff ha hb (Checked.symmDiff_eq ha hb) (symmDiff_spec ha hb)

theorem combineWithValues (ha : Valid a) (hvs : Sorted.Increasing vs) : CombineWithValues a vs where
  union := lists_values .union ha (Checked.unionValues_eq ha hvs) (unionValues_spec ha hvs)
  diff := lists_values .diff ha (Checked.diffValues_eq ha hvs) (diffValues_spec ha hvs)
  symmDiff :=
    lists_values .symmDiff ha (Checked.symmDiffValues_eq ha hvs) (symmDiffValues_spec ha hvs)

/-- Of two valid run lists, or of one and increasing values, every operation makes a valid run list
of exactly the values that it makes of the two sets. -/
theorem combined_as_sets (ha : Valid a) (hb : Valid b) (hvs : Sorted.Increasing vs) :
    CombineAsSets a b ∧ CombineWithValues a vs :=
  ⟨combineAsSets ha hb, combineWithValues ha hvs⟩

end Operands

/-- The lists share ends, and the values touch one another and the runs on both sides. -/
theorem combined_as_sets_touching :
    (Valid #[⟨0, 9⟩, ⟨20, 5⟩, ⟨65530, 5⟩] ∧ Valid #[⟨5, 4⟩, ⟨11, 3⟩, ⟨22, 1⟩, ⟨65535, 0⟩] ∧
        Sorted.Increasing #[9, 10, 11, 19, 20, 65535]) ∧
      CombineAsSets #[⟨0, 9⟩, ⟨20, 5⟩, ⟨65530, 5⟩] #[⟨5, 4⟩, ⟨11, 3⟩, ⟨22, 1⟩, ⟨65535, 0⟩] ∧
        CombineWithValues #[⟨0, 9⟩, ⟨20, 5⟩, ⟨65530, 5⟩] #[9, 10, 11, 19, 20, 65535] := by
  have ha : Valid #[⟨0, 9⟩, ⟨20, 5⟩, ⟨65530, 5⟩] := by decide
  have hb : Valid #[⟨5, 4⟩, ⟨11, 3⟩, ⟨22, 1⟩, ⟨65535, 0⟩] := by decide
  have hvs : Sorted.Increasing #[9, 10, 11, 19, 20, 65535] := by decide
  exact ⟨⟨ha, hb, hvs⟩, combined_as_sets ha hb hvs⟩

/-! ## One run after the other -/

/-- The run lies in the domain and does not start before the last one of the list. -/
def Follows (rs : Array Run) (r : Run) : Prop := r.InDomain ∧ ∀ l ∈ rs.back?, l.first ≤ r.first

instance (rs : Array Run) (r : Run) : Decidable (Follows rs r) :=
  inferInstanceAs (Decidable (_ ∧ _))

/-- Each run follows the list that the steps with those before it have come to. -/
def InTurn (step : Array Run → Run → Array Run) : Array Run → List Run → Prop
  | _, [] => True
  | rs, r :: l => Follows rs r ∧ InTurn step (step rs r) l

instance decidableInTurn (step : Array Run → Run → Array Run) (rs : Array Run) (l : List Run) :
    Decidable (InTurn step rs l) :=
  match l with
  | [] => .isTrue trivial
  | r :: l =>
    have := decidableInTurn step (step rs r) l
    inferInstanceAs (Decidable (Follows rs r ∧ InTurn step (step rs r) l))

section Steps

variable {rs : Array Run} {r : Run} {l : List Run}

theorem lists_run (op : SetOp) {rs' : Array Run} {outcome : Option (Array Run)} (h : Valid rs)
    (hout : outcome = some rs')
    (hspec : Valid rs' ∧ ∀ n, covers rs'.toList n =
      op.eval (covers rs.toList n) (decide (r.first.toNat ≤ n ∧ n < r.stop))) :
    Lists outcome rs' fun v => op.Holds (v ∈ values rs) (r.Holds v.toNat) :=
  lists_op op hout hspec.1 (fun v => hspec.2 v.toNat) (mem_values h)
    fun _ => decide_eq_true_iff.symm

theorem appendRun_lists (h : Valid rs) (hr : Follows rs r) :
    Lists (Checked.appendRun rs r) (appendRun rs r) fun v =>
      SetOp.union.Holds (v ∈ values rs) (r.Holds v.toNat) :=
  lists_run .union h (Checked.appendRun_eq (Checked.fits_of_valid h hr.1 hr.2))
    (appendRun_spec h hr.1 hr.2)

theorem toggleRun_lists (h : Valid rs) (hr : Follows rs r) :
    Lists (Checked.toggleRun rs r) (toggleRun rs r) fun v =>
      SetOp.symmDiff.Holds (v ∈ values rs) (r.Holds v.toNat) :=
  lists_run .symmDiff h (Checked.toggleRun_eq (Checked.fits_of_valid h hr.1 hr.2))
    (toggleRun_spec h hr.1 hr.2)

/-- If a step combines a list with a run, steps with runs in turn combine it with one after the
other. -/
theorem InTurn.lists (op : SetOp) {step : Array Run → Run → Array Run}
    {checked : Array Run → Run → Option (Array Run)}
    (hstep : ∀ {rs r}, Valid rs → Follows rs r → Lists (checked rs r) (step rs r) fun v =>
      op.Holds (v ∈ values rs) (r.Holds v.toNat))
    (h : Valid rs) (hl : InTurn step rs l) :
    Lists (l.foldlM checked rs) (l.foldl step rs) fun v =>
      l.foldl (fun p r => op.Holds p (r.Holds v.toNat)) (v ∈ values rs) := by
  induction l generalizing rs with
  | nil => exact ⟨rfl, h, fun _ => Iff.rfl⟩
  | cons r l ih =>
    obtain ⟨hr, hl⟩ := hl
    obtain ⟨hout, hvalid, hmem⟩ := hstep h hr
    obtain ⟨houts, hvalids, hmems⟩ := ih hvalid hl
    refine ⟨?_, hvalids, fun v => ?_⟩
    · rw [List.foldlM_cons, Machine.bind_of_eq hout]
      exact houts
    · rw [List.foldl_cons, List.foldl_cons, hmems, hmem]

theorem foldl_union_iff (q : Run → Prop) (l : List Run) (p : Prop) :
    l.foldl (fun p r => SetOp.union.Holds p (q r)) p ↔ p ∨ ∃ r ∈ l, q r := by
  induction l generalizing p with
  | nil => simp
  | cons r l ih => rw [List.foldl_cons, ih, SetOp.Holds, or_assoc, List.exists_mem_cons_iff]

theorem foldl_symmDiff_iff (q : Run → Prop) [DecidablePred q] (l : List Run) (k : Nat) :
    l.foldl (fun p r => SetOp.symmDiff.Holds p (q r)) (Odd k) ↔ Odd (k + l.countP q) := by
  induction l generalizing k with
  | nil => rfl
  | cons r l ih =>
    have hstep : SetOp.symmDiff.Holds (Odd k) (q r) = Odd (k + [r].countP q) := by
      by_cases hq : q r <;> simp [SetOp.Holds, hq, Nat.odd_add_one]
    rw [List.foldl_cons, hstep, ih, Nat.add_assoc, ← List.countP_append, List.singleton_append]

theorem coversOdd_iff (l : List Run) (n : Nat) :
    coversOdd l n ↔ Odd (l.countP fun r => r.Holds n) := by
  induction l with
  | nil => simp [coversOdd]
  | cons r l ih =>
    have hdecide : decide (r.first.toNat ≤ n ∧ n < r.stop) = decide (r.Holds n) := rfl
    rw [coversOdd, List.countP_cons, hdecide]
    by_cases hr : r.Holds n <;> simp [hr, Nat.odd_add_one, ← ih]

/-- A valid list holds no value twice. -/
theorem mem_values_iff_odd (h : Valid rs) (v : UInt16) :
    v ∈ values rs ↔ Odd (rs.toList.countP fun r => r.Holds v.toNat) := by
  rw [mem_values h, ← h.ordered.coversOdd_eq, coversOdd_iff]

/-- Runs given to the end of a list, each of which follows what the list is by then, are added to
its values or toggled in them: after toggles, a value is held if the list and the runs held it an
odd number of times. -/
structure TakesRuns (rs : Array Run) : Prop where
  append r : Follows rs r →
    Lists (Checked.appendRun rs r) (appendRun rs r) fun v => v ∈ values rs ∨ r.Holds v.toNat
  toggle r : Follows rs r → Lists (Checked.toggleRun rs r) (toggleRun rs r) fun v =>
    v ∈ values rs ∧ ¬r.Holds v.toNat ∨ r.Holds v.toNat ∧ v ∉ values rs
  appendAll l : InTurn appendRun rs l → Lists (l.foldlM Checked.appendRun rs) (l.foldl appendRun rs)
    fun v => v ∈ values rs ∨ ∃ r ∈ l, r.Holds v.toNat
  toggleAll l : InTurn toggleRun rs l → Lists (l.foldlM Checked.toggleRun rs) (l.foldl toggleRun rs)
    fun v => Odd ((rs.toList ++ l).countP fun r => r.Holds v.toNat)

/-- A valid run list stays valid, whatever is given to its end in turn. -/
theorem runs_added_and_toggled (h : Valid rs) : TakesRuns rs where
  append _ hr := appendRun_lists h hr
  toggle _ hr := toggleRun_lists h hr
  appendAll l hl := by
    obtain ⟨hout, hvalid, hmem⟩ := hl.lists .union appendRun_lists h
    exact ⟨hout, hvalid, fun v => by rw [hmem, foldl_union_iff]⟩
  toggleAll l hl := by
    obtain ⟨hout, hvalid, hmem⟩ := hl.lists .symmDiff toggleRun_lists h
    refine ⟨hout, hvalid, fun v => ?_⟩
    rw [hmem, List.countP_append, ← foldl_symmDiff_iff, mem_values_iff_odd h]

end Steps

/-- The first toggle splits the last run, the next one touches what is left of it, and the third
starts where that starts. -/
theorem runs_added_and_toggled_after_split :
    (Valid #[⟨10, 9⟩] ∧ Follows #[⟨10, 9⟩] ⟨15, 0⟩ ∧
        InTurn appendRun #[⟨10, 9⟩] [⟨12, 9⟩, ⟨22, 0⟩, ⟨30, 1⟩] ∧
        InTurn toggleRun #[⟨10, 9⟩] [⟨15, 0⟩, ⟨20, 4⟩, ⟨16, 2⟩]) ∧
      TakesRuns #[⟨10, 9⟩] ∧
      Lists ([⟨15, 0⟩, ⟨20, 4⟩, ⟨16, 2⟩].foldlM Checked.toggleRun #[⟨10, 9⟩])
        #[⟨10, 4⟩, ⟨19, 5⟩] fun v =>
          Odd ([⟨10, 9⟩, ⟨15, 0⟩, ⟨20, 4⟩, ⟨16, 2⟩].countP fun r : Run => r.Holds v.toNat) := by
  have h : Valid #[⟨10, 9⟩] := by decide
  have hturn : InTurn toggleRun #[⟨10, 9⟩] [⟨15, 0⟩, ⟨20, 4⟩, ⟨16, 2⟩] := by decide
  have htakes := runs_added_and_toggled h
  exact ⟨⟨h, by decide, by decide, hturn⟩, htakes, htakes.toggleAll _ hturn⟩

end Roaring.Runs
