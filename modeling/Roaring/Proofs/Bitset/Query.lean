import Mathlib.Data.List.Induction
import Roaring.Proofs.Bitset.Runs
import Roaring.Proofs.Bitset.Scan
import Roaring.Proofs.Runs.Query

/-!
# What word vectors answer

Each scan of a word vector as a fact about the list of its values, and each count as a `countP` over
the domain. A scan goes word by word, so the list is taken apart in the values of each word.
-/
namespace Roaring

theorem length_domain : domain.length = domainSize := by
  rw [domain_eq, List.length_map, List.length_range]

namespace Words

/-! ## The values of each word -/

/-- The values of a word that is at place `i`. -/
def wordValues (i : Nat) (w : UInt64) : List UInt16 :=
  (Word.positions w).map fun k => (64 * i + k).toUInt16

/-- The values of the words from word `i` on. -/
def listFrom (i : Nat) : List UInt64 → List UInt16
  | [] => []
  | w :: ws => wordValues i w ++ listFrom (i + 1) ws

theorem toList_valuesFrom_eq (i : Nat) (ws : List UInt64) (out : Array UInt16) :
    (valuesFrom i ws out).toList = out.toList ++ listFrom i ws := by
  induction ws generalizing i out with
  | nil => simp [valuesFrom, listFrom]
  | cons w ws ih =>
    rw [valuesFrom, ih, Word.toList_valuesInto, listFrom, wordValues, List.append_assoc]

theorem toList_values_eq (ws : Words) : ws.values.toList = listFrom 0 ws.toList :=
  (toList_valuesFrom_eq 0 ws.toList #[]).trans (List.nil_append _)

theorem wordValues_zero (i : Nat) : wordValues i 0 = [] := by
  rw [wordValues, Word.positions_zero, List.map_nil]

theorem length_wordValues (i : Nat) (w : UInt64) : (wordValues i w).length = Word.count w := by
  rw [wordValues, List.length_map, Word.length_positions]

theorem listFrom_append (i : Nat) (as bs : List UInt64) :
    listFrom i (as ++ bs) = listFrom i as ++ listFrom (i + as.length) bs := by
  induction as generalizing i with
  | nil => rfl
  | cons a as ih =>
    rw [List.cons_append, listFrom, ih, listFrom, List.append_assoc, List.length_cons,
      show i + 1 + as.length = i + (as.length + 1) by omega]

/-! ## First, last and nth value -/

theorem minFrom_eq (i : Nat) (ws : List UInt64) : minFrom i ws = (listFrom i ws).head? := by
  induction ws generalizing i with
  | nil => rfl
  | cons w ws ih =>
    rw [minFrom, listFrom]
    split
    · rename_i hw
      rw [hw, wordValues_zero, List.nil_append, ih]
    · rename_i hw
      rw [wordValues, Word.positions_eq_cons hw]
      rfl

theorem min?_eq (ws : Words) : ws.min? = ws.values.toList.head? := by
  rw [min?, minFrom_eq, toList_values_eq]

theorem maxFrom_eq (i : Nat) (ws : List UInt64) :
    maxFrom (i + ws.length - 1) ws.reverse = (listFrom i ws).getLast? := by
  induction ws using List.reverseRecOn with
  | nil => rfl
  | append_singleton ws w ih =>
    have hplace : i + (ws ++ [w]).length - 1 = i + ws.length := by simp
    rw [List.reverse_concat, maxFrom, hplace, listFrom_append, listFrom, listFrom, List.append_nil]
    split
    · rename_i hw
      rw [hw, wordValues_zero, List.append_nil, ih]
    · rename_i hw
      rw [List.getLast?_append, wordValues, List.getLast?_map, Word.getLast?_positions hw]
      rfl

theorem max?_eq (ws : Words) : ws.max? = ws.values.toList.getLast? := by
  have h := maxFrom_eq 0 ws.toList
  rw [Vector.length_toList] at h
  rw [max?, toList_values_eq, ← h]

theorem selectFrom_eq (i : Nat) (ws : List UInt64) (n : Nat) :
    selectFrom i ws n = (listFrom i ws)[n]? := by
  induction ws generalizing i n with
  | nil => rfl
  | cons w ws ih =>
    rw [selectFrom, listFrom]
    split
    · rename_i hlt
      rw [List.getElem?_append_left (by rwa [length_wordValues]), wordValues, List.getElem?_map,
        Word.getElem?_positions hlt]
      rfl
    · rename_i hge
      rw [List.getElem?_append_right (by rw [length_wordValues]; omega), length_wordValues, ih]

theorem select_eq (ws : Words) (n : Nat) : ws.select n = ws.values.toList[n]? := by
  rw [select, selectFrom_eq, toList_values_eq]

/-! ## Counts -/

theorem countP_values (ws : Words) (p : UInt16 → Bool) :
    ws.values.toList.countP p = domain.countP fun v => ws.test v && p v := by
  rw [toList_values, List.countP_filter]
  exact List.countP_congr fun v _ => by rw [Bool.and_comm]

theorem sumFrom_succ (f : Nat → UInt64 → Nat) (ws : Words) (i n acc : Nat) (h : i + n < 1024) :
    sumFrom f ws i (n + 1) acc = sumFrom f ws i n acc + f (i + n) ws[i + n] := by
  induction n generalizing i acc with
  | zero => exact dif_pos h
  | succ n ih =>
    rw [sumFrom, dif_pos (by omega), ih (i + 1) _ (by omega), sumFrom, dif_pos (by omega)]
    have hplace : i + 1 + n = i + (n + 1) := by omega
    simp only [hplace]

theorem sumFrom_congr {f g : Nat → UInt64 → Nat} (ws : Words) (i n acc : Nat)
    (h : ∀ j, i ≤ j → j < i + n → ∀ w, f j w = g j w) :
    sumFrom f ws i n acc = sumFrom g ws i n acc := by
  induction n generalizing i acc with
  | zero => rfl
  | succ n ih =>
    rw [sumFrom, sumFrom]
    split
    · rw [h i (Nat.le_refl i) (by omega), ih (i + 1) _ fun j hj hj' => h j (by omega) (by omega)]
    · rfl

/-- The rank of a value is the number of values in the range up to it, which takes the words before
that of the value as a whole. -/
theorem rank_eq_countRange (ws : Words) (v : UInt16) :
    ws.rank v = ws.countRange 0 (v.toNat + 1) := by
  have hslot := slot_lt v
  have hlen : rangeLength 0 (v.toNat + 1) = v.toNat / 64 + 1 := by simp [rangeLength]
  have hstart : ∀ i : Nat, (if i = 0 / 64 then Word.maskFrom (0 % 64) else Word.allOnes) =
      Word.allOnes := fun i => by split <;> rfl
  have hwhole : ∀ i < v.toNat / 64, rangeMask 0 (v.toNat + 1) i = Word.allOnes := fun i hi => by
    rw [rangeMask, hstart, Word.allOnes_and, if_neg (by omega)]
  have hlast : rangeMask 0 (v.toNat + 1) (v.toNat / 64) = Word.maskUpTo (v.toNat % 64) := by
    rw [rangeMask, hstart, Word.allOnes_and, Nat.add_sub_cancel, if_pos rfl]
  rw [countRange, hlen, Nat.zero_div, sumFrom_succ _ _ _ _ _ (by omega)]
  simp only [Nat.zero_add, hlast]
  rw [rank, sumFrom_congr ws 0 _ 0 fun j _ hj w => ?_]
  rw [hwhole j (by omega), Word.and_allOnes]

theorem rank_eq (ws : Words) (v : UInt16) : ws.rank v = ws.values.toList.countP (· ≤ v) := by
  rw [rank_eq_countRange, countRange_eq_countP, countP_values]
  refine List.countP_congr fun u _ => ?_
  simp only [inRange, Bool.and_eq_true, decide_eq_true_eq, UInt16.le_iff_toNat_le, Nat.zero_le,
    true_and, Nat.lt_succ_iff]

/-! ## The number of runs -/

/-- Past the word at hand, what is ahead is set in the words after it. -/
theorem ahead_cons_of_past {i : Nat} (w : UInt64) (ws : List UInt64) {n : Nat}
    (hn : 64 * (i + 1) ≤ n) : ahead i (w :: ws) n = ahead (i + 1) ws n := by
  have hpast : ¬n / 64 = i := by omega
  rw [ahead_cons, decide_eq_false hpast, Bool.false_and, Bool.false_or]

theorem ahead_cons_at (i : Nat) (w : UInt64) (ws : List UInt64) {k : Nat} (hk : k < 64) :
    ahead i (w :: ws) (64 * i + k) = Word.test w k := by
  have hword : (64 * i + k) / 64 = i := by omega
  have hbit : (64 * i + k) % 64 = k := by omega
  have hrest : ahead (i + 1) ws (64 * i + k) = false := by
    rw [Bool.eq_false_iff]
    intro hset
    have := le_of_ahead hset
    omega
  rw [ahead_cons, hword, hbit, hrest, decide_eq_true rfl, Bool.true_and, Bool.or_false]

theorem ahead_cons_next (i : Nat) (w : UInt64) (ws : List UInt64) {k : Nat} (hk : k < 64) :
    ahead i (w :: ws) (64 * i + k + 1) =
      Word.testNext w (ahead (i + 1) ws (64 * (i + 1))) k := by
  unfold Word.testNext
  split
  · rename_i hlast
    rw [hlast]
    exact ahead_cons_of_past w ws (Nat.le_refl _)
  · exact ahead_cons_at i w ws (k := k + 1) (by omega)

/-- Whether a run of the words from word `i` on ends at a number. -/
def endsAt (i : Nat) (ws : List UInt64) (n : Nat) : Bool := ahead i ws n && !ahead i ws (n + 1)

theorem countP_endsAt_word (i : Nat) (w : UInt64) (ws : List UInt64) :
    (List.range' (64 * i) 64).countP (endsAt i (w :: ws)) =
      Word.runEnds w (ahead (i + 1) ws (64 * (i + 1))) := by
  rw [List.range'_eq_map_range, List.countP_map, Word.runEnds_eq]
  refine List.countP_congr fun k hk => ?_
  have hk := List.mem_range.mp hk
  rw [Function.comp_apply, endsAt, ahead_cons_at i w ws hk, ahead_cons_next i w ws hk]

theorem numRunsFrom_eq (i : Nat) (w : UInt64) (ws : List UInt64) (n : Nat) :
    numRunsFrom w ws n =
      n + (List.range' (64 * i) (64 * (ws.length + 1))).countP (endsAt i (w :: ws)) := by
  induction ws generalizing i w n with
  | nil => rw [numRunsFrom, List.length_nil, Nat.zero_add, Nat.mul_one, countP_endsAt_word, ahead]
  | cons next ws ih =>
    have hsplit : List.range' (64 * i) (64 * ((next :: ws).length + 1)) =
        List.range' (64 * i) 64 ++ List.range' (64 * (i + 1)) (64 * (ws.length + 1)) := by
      rw [show 64 * (i + 1) = 64 * i + 64 from rfl, List.range'_append_1, List.length_cons]
      congr 1
      omega
    have hfirst : ahead (i + 1) (next :: ws) (64 * (i + 1)) = Word.test next 0 :=
      ahead_cons_at (i + 1) next ws (k := 0) (by decide)
    have hrest : (List.range' (64 * (i + 1)) (64 * (ws.length + 1))).countP
          (endsAt i (w :: next :: ws)) =
        (List.range' (64 * (i + 1)) (64 * (ws.length + 1))).countP
          (endsAt (i + 1) (next :: ws)) := by
      refine List.countP_congr fun m hm => ?_
      have hm := (List.mem_range'_1.mp hm).1
      rw [endsAt, endsAt, ahead_cons_of_past w _ hm, ahead_cons_of_past w _ (Nat.le_succ_of_le hm)]
    rw [numRunsFrom, ih (i + 1), hsplit, List.countP_append, countP_endsAt_word, hfirst, hrest,
      Nat.add_assoc]

theorem ahead_past_end (ws : Words) {n : Nat} (hn : 65536 ≤ n) : ahead 0 ws.toList n = false := by
  have hslot : ws.toList.length ≤ n / 64 := by
    rw [Vector.length_toList]
    omega
  rw [ahead_eq_getD, Nat.sub_zero, List.getD_eq_getElem?_getD, List.getElem?_eq_none hslot,
    Option.getD_none, Word.test_zero (Nat.mod_lt n (by decide)), Bool.and_false]

/-- The number after a value is set when it is a value too. -/
theorem ahead_next_iff (ws : Words) (v : UInt16) :
    ahead 0 ws.toList (v.toNat + 1) ↔ ∃ u ∈ ws.values.toList, u.toNat = v.toNat + 1 := by
  constructor
  · intro hset
    have hlt : v.toNat + 1 < 65536 := by
      by_contra hge
      rw [ahead_past_end ws (Nat.le_of_not_lt hge)] at hset
      cases hset
    have hu : (v.toNat + 1).toUInt16.toNat = v.toNat + 1 := toNat_toUInt16 hlt
    refine ⟨(v.toNat + 1).toUInt16, ?_, hu⟩
    rwa [Array.mem_toList_iff, mem_values, ← ahead_toList, hu]
  · rintro ⟨u, hu, e⟩
    rwa [← e, ahead_toList, ← mem_values, ← Array.mem_toList_iff]

theorem numRuns_eq (ws : Words) : ws.numRuns = Sorted.runEnds ws.values.toList := by
  have hlen : ws.toList.length = 1024 := Vector.length_toList
  have hends : Sorted.runEnds ws.values.toList =
      (List.range' 0 65536).countP (endsAt 0 ws.toList) := by
    rw [Sorted.runEnds, countP_values, domain_eq, List.countP_map, List.range_eq_range']
    refine List.countP_congr fun n hn => ?_
    have hn : n < 65536 := by simpa [domainSize] using (List.mem_range'_1.mp hn).2
    have hv : n.toUInt16.toNat = n := toNat_toUInt16 hn
    have hat := ahead_toList ws n.toUInt16
    have hnext := ahead_next_iff ws n.toUInt16
    rw [hv] at hat hnext
    rw [Function.comp_apply, endsAt, hat, Bool.and_eq_true, Bool.and_eq_true, Sorted.endsRun_iff,
      Bool.not_eq_true', ← Bool.not_eq_true, hnext, hv]
  rw [hends, numRuns]
  split
  · rename_i heq
    rw [heq] at hlen
    cases hlen
  · rename_i w rest heq
    rw [heq, List.length_cons] at hlen
    rw [numRunsFrom_eq 0, hlen, heq, Nat.zero_add]

/-! ## Ranges -/

theorem allFrom_iff (p : Nat → UInt64 → Bool) (ws : Words) (i n : Nat) (h : i + n ≤ 1024) :
    allFrom p ws i n ↔ ∀ j (hj : j < 1024), i ≤ j → j < i + n → p j ws[j] := by
  induction n generalizing i with
  | zero => exact iff_of_true rfl fun j _ h1 h2 => by omega
  | succ n ih =>
    rw [allFrom, dif_pos (by omega), Bool.and_eq_true, ih (i + 1) (by omega)]
    constructor
    · rintro ⟨hfirst, hrest⟩ j hj hlo hhi
      rcases Nat.eq_or_lt_of_le hlo with rfl | hlo
      · exact hfirst
      · exact hrest j hj hlo (by omega)
    · intro hall
      exact ⟨hall i (by omega) (Nat.le_refl i) (by omega),
        fun j hj hlo hhi => hall j hj (by omega) (by omega)⟩

theorem testRange_iff (ws : Words) {start stop : Nat} (h : stop ≤ 65536) :
    ws.testRange start stop ↔ ∀ v : UInt16, start ≤ v.toNat → v.toNat < stop → ws.test v := by
  by_cases hlt : start < stop
  · rw [testRange, rangeLength, if_pos hlt, allFrom_iff _ _ _ _ (by omega)]
    simp only [decide_eq_true_iff, Word.and_eq_right_iff]
    constructor
    · intro hall v hlo hhi
      have hv : 64 * (v.toNat / 64) + v.toNat % 64 = v.toNat := by omega
      refine hall (v.toNat / 64) (slot_lt v) (by omega) (by omega) _ (bit_lt v) ?_
      rw [test_rangeMask (bit_lt v) (by omega) (by omega) hlt, hv, decide_eq_true_iff]
      exact ⟨hlo, hhi⟩
    · intro hall j hj hlo hhi k hk hmask
      rw [test_rangeMask hk (by omega) (by omega) hlt, decide_eq_true_iff] at hmask
      have hv : (64 * j + k).toUInt16.toNat = 64 * j + k := toNat_toUInt16 (by omega)
      have hword : (64 * j + k) / 64 = j := by omega
      have hbit : (64 * j + k) % 64 = k := by omega
      have hset := hall (64 * j + k).toUInt16 (by omega) (by omega)
      simpa only [test, hv, hword, hbit] using hset
  · rw [testRange, rangeLength, if_neg hlt, allFrom]
    exact iff_of_true rfl fun v hlo hhi => by omega

/-! ## Two vectors -/

theorem isSubset_iff (a b : Words) : isSubset a b ↔ ∀ v, a.test v → b.test v := by
  have hnone := Bitset.isEmpty_iff (Bitset.exact_uncounted (combine .diff a b))
  refine hnone.trans (forall_congr' fun v => ?_)
  show (combine .diff a b).test v = false ↔ _
  rw [test_combine]
  cases a.test v <;> cases b.test v <;> decide

theorem intersects_iff (a b : Words) : intersects a b ↔ ∃ v, a.test v ∧ b.test v := by
  have hnone := Bitset.isEmpty_iff (Bitset.exact_uncounted (combine .inter a b))
  have hnot : intersects a b = !(Bitset.uncounted (combine .inter a b)).isEmpty := by
    simp [intersects, Bitset.isEmpty, Bitset.uncounted, Vector.any_eq_not_all_not]
  rw [hnot, Bool.not_eq_true', ← Bool.not_eq_true, hnone, Classical.not_forall]
  refine exists_congr fun v => ?_
  show ¬(combine .inter a b).test v = false ↔ _
  rw [test_combine]
  cases a.test v <;> cases b.test v <;> decide

theorem interCount_eq (a b : Words) :
    interCount a b = domain.countP fun v => a.test v && b.test v := by
  rw [interCount, count_eq_countP]
  exact List.countP_congr fun v _ => by rw [test_combine]; rfl

end Words

namespace Bitset

theorem isFull_iff {b : Bitset} (h : b.Exact) : b.isFull ↔ ∀ v, b.words.test v := by
  rw [isFull, decide_eq_true_iff, card_eq h, Words.count_eq_countP, ← length_domain,
    List.countP_eq_length]
  exact ⟨fun hall v => hall v (mem_domain v), fun hall v _ => hall v⟩

theorem containsRange_iff (b : Bitset) {start stop : Nat} (h : stop ≤ 65536) :
    b.containsRange start stop ↔
      ∀ v : UInt16, start ≤ v.toNat → v.toNat < stop → b.words.test v := by
  unfold containsRange
  split
  · exact iff_of_true rfl fun v hlo hhi => by omega
  · rw [if_neg (by unfold domainSize; omega)]
    exact Words.testRange_iff b.words h

/-- Runs of a valid list have no value in common, so what they hold is counted run by run. -/
theorem countRuns_eq (b : Bitset) {runs : Array Run} (h : Runs.Valid runs) :
    b.countRuns runs = domain.countP fun v =>
      b.words.test v && Runs.covers runs.toList v.toNat := by
  suffices hsum : ∀ (rs : List Run), Runs.ValidList rs → ∀ n,
      rs.foldl (fun n r => n + b.words.countRange r.first.toNat r.stop) n =
        n + domain.countP fun v => b.words.test v && Runs.covers rs v.toNat by
    rw [countRuns, ← Array.foldl_toList, hsum _ h, Nat.zero_add]
  intro rs
  induction rs with
  | nil => simp
  | cons r rs ih =>
    intro hrs n
    rw [List.foldl_cons, ih hrs.tail, Words.countRange_eq_countP, Nat.add_assoc]
    congr 1
    refine (Words.countP_eq_add (fun v _ => ?_) fun v _ hv => ?_).symm
    · rw [Runs.covers_cons, ← Words.inRange, Bool.and_or_distrib_left]
    · rw [Bool.and_eq_true, Words.inRange, decide_eq_true_iff] at hv
      rw [hrs.covers_tail (by omega), Bool.and_false]

/-- A range that holds a value counts more than none. -/
theorem countRange_pos_iff (b : Bitset) (start stop : Nat) :
    0 < b.words.countRange start stop ↔
      ∃ v : UInt16, start ≤ v.toNat ∧ v.toNat < stop ∧ b.words.test v := by
  rw [Words.countRange_eq_countP, List.countP_pos_iff]
  simp only [mem_domain, true_and, Bool.and_eq_true, Words.inRange, decide_eq_true_iff]
  refine exists_congr fun v => ?_
  rw [and_comm, and_assoc]

end Bitset

end Roaring
