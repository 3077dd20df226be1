import Mathlib.Data.List.Sort
import Mathlib.Data.List.Nodup
import Mathlib.Data.List.TakeWhile
import Roaring.Proofs.Search
import Roaring.Sorted.Basic
import Roaring.Sorted.Merge

/-!
# Merging sorted values, proved

What each merge of strictly increasing lists appends to its output. The intersections and
differences keep some values of their first list, so they are filters of it, and a search by a
cursor keeps the same ones as a walk. Unions and symmetric differences interleave two lists; of
them it is shown which values come out, and that these come out in order.
-/
namespace Roaring.Sorted

/-! ## Increasing lists -/

/-- An increasing array is determined by its values. -/
theorem eq_of_mem_iff {a b : Array UInt16} (ha : Increasing a) (hb : Increasing b)
    (h : ∀ v, v ∈ a ↔ v ∈ b) : a = b := by
  apply Array.toList_inj.mp
  apply List.Pairwise.eq_of_mem_iff ha hb
  intro v
  simpa using h v

theorem nodup_of_increasing {l : List UInt16} (h : l.Pairwise (· < ·)) : l.Nodup :=
  h.imp fun hlt => by grind

/-- Increasing values that all come from two arrays are no more than those arrays hold. -/
theorem size_le_of_mem {a b c : Array UInt16} (hc : Increasing c)
    (h : ∀ v ∈ c, v ∈ a ∨ v ∈ b) : c.size ≤ a.size + b.size := by
  have hsub : c.toList ⊆ a.toList ++ b.toList := by
    intro v hv
    simpa using h v (by simpa using hv)
  simpa using (nodup_of_increasing hc).length_le_of_subset hsub

theorem increasing_empty : Increasing #[] := List.Pairwise.nil

theorem increasing_filter {a : Array UInt16} (h : Increasing a) (p : UInt16 → Bool) :
    Increasing (a.filter p) := by
  unfold Increasing
  rw [Array.toList_filter]
  exact List.Pairwise.filter p h

/-! ## Interleaving two lists -/

theorem mem_unionInto (as bs : List UInt16) (out : Array UInt16) (v : UInt16) :
    v ∈ (unionInto as bs out).toList ↔ v ∈ out.toList ∨ v ∈ as ∨ v ∈ bs := by
  fun_induction unionInto as bs out with
  | case1 bs out => simp
  | case2 as out => simp
  | case3 a as b bs out hlt ih => grind
  | case4 a as b bs out hlt hgt ih => grind
  | case5 a as b bs out hlt hgt ih =>
    obtain rfl : a = b := by grind
    grind

theorem increasing_unionInto (as bs : List UInt16) (out : Array UInt16)
    (ha : (out.toList ++ as).Pairwise (· < ·)) (hb : (out.toList ++ bs).Pairwise (· < ·)) :
    Increasing (unionInto as bs out) := by
  unfold Increasing
  fun_induction unionInto as bs out with
  | case1 bs out => simpa using hb
  | case2 as out => simpa using ha
  | case3 a as b bs out hlt ih => apply ih <;> grind
  | case4 a as b bs out hlt hgt ih => apply ih <;> grind
  | case5 a as b bs out hlt hgt ih =>
    obtain rfl : a = b := by grind
    apply ih <;> grind

/-- The symmetric difference of increasing lists. -/
theorem mem_symmDiffInto (as bs : List UInt16) (out : Array UInt16)
    (ha : as.Pairwise (· < ·)) (hb : bs.Pairwise (· < ·)) (v : UInt16) :
    v ∈ (symmDiffInto as bs out).toList ↔
      v ∈ out.toList ∨ (v ∈ as ∧ v ∉ bs) ∨ (v ∈ bs ∧ v ∉ as) := by
  fun_induction symmDiffInto as bs out with
  | case1 bs out => simp
  | case2 as out => simp
  | case3 as b bs out ih =>
    obtain ⟨ha₁, ha₂⟩ := List.pairwise_cons.mp ha
    obtain ⟨hb₁, hb₂⟩ := List.pairwise_cons.mp hb
    grind
  | case4 a as b bs out hne hlt ih =>
    obtain ⟨ha₁, ha₂⟩ := List.pairwise_cons.mp ha
    obtain ⟨hb₁, hb₂⟩ := List.pairwise_cons.mp hb
    grind
  | case5 a as b bs out hne hlt ih =>
    obtain ⟨ha₁, ha₂⟩ := List.pairwise_cons.mp ha
    obtain ⟨hb₁, hb₂⟩ := List.pairwise_cons.mp hb
    grind

theorem increasing_symmDiffInto (as bs : List UInt16) (out : Array UInt16)
    (ha : (out.toList ++ as).Pairwise (· < ·)) (hb : (out.toList ++ bs).Pairwise (· < ·)) :
    Increasing (symmDiffInto as bs out) := by
  unfold Increasing
  fun_induction symmDiffInto as bs out with
  | case1 bs out => simpa using hb
  | case2 as out => simpa using ha
  | case3 as b bs out ih => apply ih <;> grind
  | case4 a as b bs out hne hlt ih => apply ih <;> grind
  | case5 a as b bs out hne hlt ih => apply ih <;> grind

theorem mem_union (a b : Array UInt16) (v : UInt16) : v ∈ union a b ↔ v ∈ a ∨ v ∈ b := by
  simp [union, ← Array.mem_toList_iff, mem_unionInto]

theorem increasing_union {a b : Array UInt16} (ha : Increasing a) (hb : Increasing b) :
    Increasing (union a b) :=
  increasing_unionInto _ _ _ ha hb

theorem mem_symmDiff {a b : Array UInt16} (ha : Increasing a) (hb : Increasing b) (v : UInt16) :
    v ∈ symmDiff a b ↔ (v ∈ a ∧ v ∉ b) ∨ (v ∈ b ∧ v ∉ a) := by
  simp [symmDiff, ← Array.mem_toList_iff, mem_symmDiffInto _ _ _ ha hb]

theorem increasing_symmDiff {a b : Array UInt16} (ha : Increasing a) (hb : Increasing b) :
    Increasing (symmDiff a b) :=
  increasing_symmDiffInto _ _ _ ha hb

/-! ## Filtering one list by another -/

theorem toList_interInto (as bs : List UInt16) (out : Array UInt16)
    (ha : as.Pairwise (· < ·)) (hb : bs.Pairwise (· < ·)) :
    (interInto as bs out).toList = out.toList ++ as.filter (· ∈ bs) := by
  fun_induction interInto as bs out with
  | case1 bs out => simp
  | case2 as out => simp
  | case3 a as b bs out hlt ih =>
    have hb' := (List.pairwise_cons.mp hb).1
    have : a ∉ b :: bs := by grind
    rw [ih ha.of_cons hb, List.filter_cons_of_neg (by simpa using this)]
  | case4 a as b bs out hlt hgt ih =>
    have ha' := (List.pairwise_cons.mp ha).1
    rw [ih ha hb.of_cons]
    congr 1
    apply List.filter_congr
    grind
  | case5 a as b bs out hlt hgt ih =>
    obtain rfl : a = b := by grind
    have ha' := (List.pairwise_cons.mp ha).1
    have hrest : as.filter (· ∈ a :: bs) = as.filter (· ∈ bs) := by
      apply List.filter_congr
      grind
    rw [ih ha.of_cons hb.of_cons, List.filter_cons_of_pos (by simp), hrest]
    simp

theorem toList_diffInto (as bs : List UInt16) (out : Array UInt16)
    (ha : as.Pairwise (· < ·)) (hb : bs.Pairwise (· < ·)) :
    (diffInto as bs out).toList = out.toList ++ as.filter (· ∉ bs) := by
  fun_induction diffInto as bs out with
  | case1 bs out => simp
  | case2 as out => simp
  | case3 a as b bs out hlt ih =>
    have hb' := (List.pairwise_cons.mp hb).1
    have : a ∉ b :: bs := by grind
    rw [ih ha.of_cons hb, List.filter_cons_of_pos (by simpa using this)]
    simp
  | case4 as b bs out hlt ih =>
    have ha' := (List.pairwise_cons.mp ha).1
    rw [ih ha.of_cons hb.of_cons, List.filter_cons_of_neg (by simp)]
    congr 1
    apply List.filter_congr
    grind
  | case5 a as b bs out hlt hne ih =>
    have ha' := (List.pairwise_cons.mp ha).1
    rw [ih ha hb.of_cons]
    congr 1
    apply List.filter_congr
    grind

/-! ## Filtering by a cursor -/

theorem passFirst_lt {a : Array UInt16} (h : Increasing a) (v : UInt16) (i : Nat) :
    PassFirst (· < v) a i :=
  passFirst_of_pairwise (h.sublist (List.drop_sublist i _)) fun x y hxy hy => by grind

/-- The values from `v` on stay ahead of a cursor that moves to `v`. -/
theorem mem_drop_advance {a : Array UInt16} (h : Increasing a) {i : Nat} (hi : i ≤ a.size)
    {v w : UInt16} (hvw : v ≤ w) :
    w ∈ a.toList.drop (advance (· < v) a i) ↔ w ∈ a.toList.drop i := by
  rw [← (advance_boundary (passFirst_lt h v i) hi).dropWhile_eq]
  constructor
  · intro hw
    exact (List.dropWhile_suffix _).subset hw
  · intro hw
    rw [← List.takeWhile_append_dropWhile (p := (· < v)) (l := a.toList.drop i)] at hw
    rcases List.mem_append.mp hw with hw | hw
    · have := List.mem_takeWhile_imp hw
      grind
    · exact hw

/-- A cursor that moved to `v` stands on `v` exactly when `v` was still ahead of it. -/
theorem getElem?_advance {a : Array UInt16} (h : Increasing a) {i : Nat} (hi : i ≤ a.size)
    (v : UInt16) : a[advance (· < v) a i]? = some v ↔ v ∈ a.toList.drop i := by
  have hb := advance_boundary (passFirst_lt h v i) hi
  rw [← mem_drop_advance h hi (Std.le_refl v)]
  generalize advance (· < v) a i = n at hb
  constructor
  · intro hv
    rw [← Array.getElem?_toList] at hv
    exact List.mem_of_getElem? (i := 0) (by simpa using hv)
  · intro hv
    obtain ⟨k, hk, hkv⟩ := List.getElem_of_mem hv
    rw [List.length_drop, Array.length_toList] at hk
    have hn : n < a.size := by omega
    have hge : ¬ a[n] < v := by simpa using hb.fails hn
    rw [List.getElem_drop, Array.getElem_toList] at hkv
    rcases Nat.eq_zero_or_pos k with rfl | hpos
    · rw [Array.getElem?_eq_getElem hn, ← hkv]
      rfl
    · have := List.pairwise_iff_getElem.mp h n (n + k) (by simpa using hn)
        (by rw [Array.length_toList]; omega) (by omega)
      simp only [Array.getElem_toList] at this
      grind

theorem toList_gallopInto {large : Array UInt16} (hl : Increasing large) (vs : List UInt16)
    (i : Nat) (out : Array UInt16) (hi : i ≤ large.size) (hv : vs.Pairwise (· < ·)) :
    (gallopInto large vs i out).toList =
      out.toList ++ vs.filter (· ∈ large.toList.drop i) := by
  induction vs generalizing i out with
  | nil => simp [gallopInto]
  | cons v vs ih =>
    have hle : advance (· < v) large i ≤ large.size := advance_le hi
    have hahead : vs.filter (· ∈ large.toList.drop (advance (· < v) large i)) =
        vs.filter (· ∈ large.toList.drop i) := by
      apply List.filter_congr
      intro w hw
      have := (List.pairwise_cons.mp hv).1 w hw
      simp only [mem_drop_advance hl hi (v := v) (w := w) (by grind)]
    have hhit := getElem?_advance hl hi v
    rw [gallopInto]
    split
    · rename_i hlt
      rw [ih _ _ hle hv.of_cons, hahead]
      rw [Array.getElem?_eq_getElem hlt, Option.some_inj] at hhit
      by_cases hmem : v ∈ large.toList.drop i
      · rw [if_pos (hhit.mpr hmem), List.filter_cons_of_pos (by simpa using hmem)]
        simp
      · rw [if_neg fun h => hmem (hhit.mp h), List.filter_cons_of_neg (by simpa using hmem)]
    · rename_i hlt
      have hend : large.toList.drop (advance (· < v) large i) = [] := by
        apply List.drop_eq_nil_of_le
        simpa using hlt
      have hnot : v ∉ large.toList.drop i := by
        rw [← mem_drop_advance hl hi (Std.le_refl v), hend]
        simp
      rw [List.filter_cons_of_neg (by simpa using hnot), ← hahead, hend]
      simp

theorem toList_gallopPastInto {other : Array UInt16} (ho : Increasing other) (vs : List UInt16)
    (i : Nat) (out : Array UInt16) (hi : i ≤ other.size) (hv : vs.Pairwise (· < ·)) :
    (gallopPastInto other vs i out).toList =
      out.toList ++ vs.filter (· ∉ other.toList.drop i) := by
  induction vs generalizing i out with
  | nil => simp [gallopPastInto]
  | cons v vs ih =>
    have hahead : vs.filter (· ∉ other.toList.drop (advance (· < v) other i)) =
        vs.filter (· ∉ other.toList.drop i) := by
      apply List.filter_congr
      intro w hw
      have := (List.pairwise_cons.mp hv).1 w hw
      simp only [mem_drop_advance ho hi (v := v) (w := w) (by grind)]
    rw [gallopPastInto, ih _ _ (advance_le hi) hv.of_cons, hahead]
    simp only [getElem?_advance ho hi]
    by_cases hmem : v ∈ other.toList.drop i
    · rw [if_pos hmem, List.filter_cons_of_neg (by simpa using hmem)]
    · rw [if_neg hmem, List.filter_cons_of_pos (by simpa using hmem)]
      simp

/-! ## The merges -/

/-- Whichever way is taken, the intersection keeps the values of `a` that `b` holds. -/
theorem inter_eq {a b : Array UInt16} (ha : Increasing a) (hb : Increasing b) :
    inter a b = a.filter (· ∈ b) := by
  unfold inter interOnto
  split
  · rename_i h
    rcases h with h | h <;> simp [Array.isEmpty_iff.mp h]
  · split
    · apply Array.toList_inj.mp
      rw [toList_gallopInto hb _ _ _ (Nat.zero_le _) ha]
      simp
    · split
      · have hlist := toList_gallopInto ha b.toList 0 #[] (Nat.zero_le _) hb
        apply eq_of_mem_iff
        · unfold Increasing
          rw [hlist]
          exact List.Pairwise.filter _ hb
        · exact increasing_filter ha _
        · intro v
          rw [← Array.mem_toList_iff, hlist]
          simp [and_comm]
      · apply Array.toList_inj.mp
        rw [toList_interInto _ _ _ ha hb]
        simp

theorem diff_eq {a b : Array UInt16} (ha : Increasing a) (hb : Increasing b) :
    diff a b = a.filter (· ∉ b) := by
  apply Array.toList_inj.mp
  rw [diff, toList_diffInto _ _ _ ha hb]
  simp

theorem keepShared_eq {a b : Array UInt16} (ha : Increasing a) (hb : Increasing b) :
    keepShared a b = a.filter (· ∈ b) := by
  apply Array.toList_inj.mp
  rw [keepShared, toList_gallopInto hb _ _ _ (Nat.zero_le _) ha]
  simp

theorem dropShared_eq {a b : Array UInt16} (ha : Increasing a) (hb : Increasing b) :
    dropShared a b = a.filter (· ∉ b) := by
  apply Array.toList_inj.mp
  rw [dropShared, toList_gallopPastInto hb _ _ _ (Nat.zero_le _) ha]
  simp

end Roaring.Sorted
