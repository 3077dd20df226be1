import Mathlib.Data.List.SplitBy
import Roaring.Proofs.Sorted.Edit

/-!
# What sorted values answer

The rank of a value, the number of runs and the relations to another array, as facts about the
values alone. A number of values is a `countP` over the list of them.
-/
namespace Roaring.Sorted

/-! ## Rank -/

/-- The values at most `v` are those before the lower bound of `v`, and `v` itself. -/
theorem rank_eq {a : Array UInt16} (h : Increasing a) (v : UInt16) :
    rank a v = a.toList.countP (· ≤ v) := by
  obtain ⟨before, after, hs, hlt, hge⟩ := split_lowerBound h v
  have hbefore : before.countP (· ≤ v) = before.length :=
    List.countP_eq_length.mpr fun u hu => decide_eq_true (UInt16.le_of_lt (hlt u hu))
  have hafter : after.countP (· ≤ v) = after.countP (· == v) :=
    List.countP_congr fun u hu => by
      have := hge u hu
      simp only [decide_eq_true_eq, beq_iff_eq]
      exact ⟨fun hle => UInt16.le_antisymm hle this, fun e => e ▸ UInt16.le_refl v⟩
  have hmem : contains a v ↔ v ∈ after := by
    rw [contains_iff h, ← Array.mem_toList_iff, hs.eq, List.mem_append]
    exact or_iff_right fun hv => UInt16.lt_irrefl v (hlt v hv)
  have hnodup : after.Nodup := by
    have hinc : (before ++ after).Pairwise (· < ·) := hs.eq ▸ h
    exact nodup_of_increasing (List.pairwise_append.mp hinc).2.1
  rw [rank, hs.eq, List.countP_append, hbefore, hs.length, hafter, ← List.count_eq_countP,
    hnodup.count]
  simp only [hmem]

/-! ## Runs -/

/-- Whether a list lacks the number after a value. -/
def endsRun (vs : List UInt16) (v : UInt16) : Bool := !vs.any fun w => w.toNat = v.toNat + 1

theorem endsRun_iff {vs : List UInt16} {v : UInt16} :
    endsRun vs v ↔ ¬∃ w ∈ vs, w.toNat = v.toNat + 1 := by
  simp [endsRun]

/-- The number of runs of consecutive values: each has one value after which the next number is
absent. -/
def runEnds (vs : List UInt16) : Nat := vs.countP (endsRun vs)

/-- Of an increasing list, the first value ends a run when the second is not next to it. -/
theorem runEnds_cons_cons {u v : UInt16} {vs : List UInt16} (h : (u :: v :: vs).Pairwise (· < ·)) :
    runEnds (u :: v :: vs) = (if u.toNat + 1 = v.toNat then 0 else 1) + runEnds (v :: vs) := by
  obtain ⟨hu, hv⟩ := List.pairwise_cons.mp h
  obtain ⟨hv, -⟩ := List.pairwise_cons.mp hv
  simp only [UInt16.lt_iff_toNat_lt] at hu hv
  have hrest : (v :: vs).countP (endsRun (u :: v :: vs)) = runEnds (v :: vs) :=
    List.countP_congr fun w hw => by
      have := hu w hw
      have hne : u.toNat ≠ w.toNat + 1 := by omega
      simp [endsRun, hne]
  have hfirst : endsRun (u :: v :: vs) u ↔ ¬u.toNat + 1 = v.toNat := by
    have hself : u.toNat ≠ u.toNat + 1 := by omega
    have huv := hu v List.mem_cons_self
    have hlater : ∀ w ∈ vs, w.toNat ≠ u.toNat + 1 := fun w hw => by
      have := hv w hw
      omega
    rw [endsRun_iff]
    simp only [List.mem_cons, exists_eq_or_imp, hself, false_or]
    refine not_congr ⟨fun hex => ?_, fun e => .inl e.symm⟩
    rcases hex with e | ⟨w, hw, e⟩
    · exact e.symm
    · exact absurd e (hlater w hw)
  rw [runEnds, List.countP_cons, hrest, Nat.add_comm]
  simp only [hfirst]
  split <;> simp_all

/-- A run is counted at its start, when the value before is not next to it. -/
theorem numRunsFrom_eq (u : UInt16) (vs : List UInt16) (n : Nat)
    (h : (u :: vs).Pairwise (· < ·)) :
    numRunsFrom (some u) vs n + 1 = n + runEnds (u :: vs) := by
  induction vs generalizing u n with
  | nil =>
    have : runEnds [u] = 1 := by simp [runEnds, endsRun]
    rw [numRunsFrom, this]
  | cons v vs ih =>
    rw [numRunsFrom, ih v _ h.of_cons, runEnds_cons_cons h]
    simp only [Option.any_some, decide_eq_true_eq]
    split <;> omega

theorem numRuns_eq {a : Array UInt16} (h : Increasing a) : numRuns a = runEnds a.toList := by
  rw [numRuns]
  rw [Increasing] at h
  cases hl : a.toList with
  | nil => rfl
  | cons v vs =>
    have := numRunsFrom_eq v vs 1 (hl ▸ h)
    simp only [numRunsFrom, Option.any_none, Bool.false_eq_true, if_false, Nat.zero_add]
    omega

/-- The maximal blocks of consecutive values. -/
def blocks (vs : List UInt16) : List (List UInt16) :=
  vs.splitBy fun u v => u.toNat + 1 = v.toNat

/-- What a split has put together so far changes no block that is still to come. -/
theorem length_splitBy_loop {α : Type} (r : α → α → Bool) (l : List α) (a : α) (block : List α)
    (done : List (List α)) :
    (List.splitBy.loop r l a block done).length = done.length + ((a :: l).splitBy r).length := by
  induction l generalizing a block done with
  | nil => simp [List.splitBy, List.splitBy.loop]
  | cons b l ih =>
    rw [List.splitBy, List.splitBy.loop, List.splitBy.loop]
    split
    · rw [ih, ih b [a] [], List.length_nil, Nat.zero_add]
    · rw [ih, ih b [] [_], List.length_cons, List.length_singleton, Nat.add_assoc]

/-- The second value is in the block of the first, or begins the next one. -/
theorem length_blocks_cons_cons (u v : UInt16) (vs : List UInt16) :
    (blocks (u :: v :: vs)).length =
      (if u.toNat + 1 = v.toNat then 0 else 1) + (blocks (v :: vs)).length := by
  rw [blocks, List.splitBy, List.splitBy.loop, blocks]
  by_cases h : u.toNat + 1 = v.toNat
  · simp only [h, decide_true, if_true, length_splitBy_loop, List.length_nil]
  · simp only [h, decide_false, if_false, length_splitBy_loop, List.length_singleton]

theorem length_blocks {vs : List UInt16} (h : vs.Pairwise (· < ·)) :
    (blocks vs).length = runEnds vs := by
  induction vs with
  | nil => rfl
  | cons u vs ih =>
    cases vs with
    | nil => simp [blocks, List.splitBy, List.splitBy.loop, runEnds, endsRun]
    | cons v vs => rw [length_blocks_cons_cons, runEnds_cons_cons h, ih h.of_cons]

example : blocks [62, 63, 64, 66, 65535] = [[62, 63, 64], [66], [65535]] := by decide

/-! ## Two arrays -/

/-- Counting the intersection goes the way of listing it. -/
theorem interCountFrom_add_size (as bs : List UInt16) (n : Nat) (out : Array UInt16) :
    interCountFrom as bs n + out.size = n + (interInto as bs out).size := by
  fun_induction interCountFrom as bs n generalizing out with
  | case1 bs n => rw [interInto]
  | case2 as n hne => rw [interInto.eq_2 as out hne]
  | case3 a as b bs n hlt ih => rw [interInto, if_pos hlt, ih]
  | case4 a as b bs n hlt hgt ih => rw [interInto, if_neg hlt, if_pos hgt, ih]
  | case5 a as b bs n hlt hgt ih =>
    have := ih (out.push a)
    rw [Array.size_push] at this
    rw [interInto, if_neg hlt, if_neg hgt]
    omega

theorem interCount_eq {a b : Array UInt16} (ha : Increasing a) (hb : Increasing b) :
    interCount a b = a.toList.countP (· ∈ b) := by
  have hsize := interCountFrom_add_size a.toList b.toList 0 #[]
  have hlist := congrArg List.length (toList_interInto a.toList b.toList #[] ha hb)
  rw [Array.length_toList] at hlist
  rw [interCount, List.countP_eq_length_filter]
  simpa [hlist] using hsize

/-- A cursor meets every value of a list exactly when all of them are still ahead of it. -/
theorem gallopAll_iff {other : Array UInt16} (ho : Increasing other) (vs : List UInt16) (i : Nat)
    (hi : i ≤ other.size) (hv : vs.Pairwise (· < ·)) :
    gallopAll other vs i ↔ ∀ v ∈ vs, v ∈ other.toList.drop i := by
  induction vs generalizing i with
  | nil => simp [gallopAll]
  | cons v vs ih =>
    obtain ⟨hlt, hv⟩ := List.pairwise_cons.mp hv
    rw [gallopAll, Bool.and_eq_true, decide_eq_true_iff, getElem?_advance ho hi,
      ih _ (advance_le hi) hv, List.forall_mem_cons]
    exact and_congr_right fun _ => forall₂_congr fun w hw =>
      mem_drop_advance ho hi (UInt16.le_of_lt (hlt w hw))

theorem isSubset_iff {a b : Array UInt16} (ha : Increasing a) (hb : Increasing b) :
    isSubset a b ↔ ∀ v ∈ a, v ∈ b := by
  rw [isSubset, gallopAll_iff hb _ _ (Nat.zero_le _) ha]
  simp

end Roaring.Sorted
