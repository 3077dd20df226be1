import Roaring.Container.Overrun
import Roaring.Proofs.Bitset.Query
import Roaring.Proofs.Container.Settled

/-!
# What containers answer

Whatever its encoding, a valid container answers as the ascending list of its values does. For two
valid containers, equality, inclusion, overlap and the size of the intersection are those of the two
sets.
-/
namespace Roaring.Container

variable {a b c : Container}

instance (v : UInt16) (c : Container) : Decidable (v ∈ c) :=
  inferInstanceAs (Decidable (v ∈ c.values))

/-! ## One container -/

theorem mem_values {v : UInt16} : v ∈ c.values.toList ↔ v ∈ c := Array.mem_toList_iff

/-- The values are those of the domain that the container holds. -/
theorem toList_values_eq (h : c.Valid) : c.values.toList = domain.filter (· ∈ c) :=
  List.Pairwise.eq_of_mem_iff (increasing_values h) (List.Pairwise.filter _ pairwise_domain)
    fun v => by rw [mem_values, List.mem_filter, decide_eq_true_iff, and_iff_right (mem_domain v)]

theorem countP_values (h : c.Valid) (p : UInt16 → Bool) :
    c.values.toList.countP p = domain.countP fun v => decide (v ∈ c) && p v := by
  rw [toList_values_eq h, List.countP_filter]
  exact List.countP_congr fun v _ => by rw [Bool.and_comm]

theorem contains_iff (h : c.Valid) (v : UInt16) : c.contains v ↔ v ∈ c := by
  cases c with
  | array vs => exact Sorted.contains_iff h v
  | bitset b => exact mem_bitset.symm
  | run rs => exact (Runs.contains_iff h v).trans (mem_run h).symm

theorem isFull_iff (h : c.Valid) : c.isFull ↔ ∀ v, v ∈ c := by
  cases c with
  | array vs =>
    have hsize : vs.size = domain.countP (· ∈ array vs) := by
      rw [List.countP_eq_length_filter, ← toList_values_eq h]
      exact Array.length_toList.symm
    rw [isFull, decide_eq_true_iff, hsize, ← length_domain, List.countP_eq_length]
    simp only [decide_eq_true_eq]
    exact ⟨fun hall v => hall v (mem_domain v), fun hall v _ => hall v⟩
  | bitset b =>
    simp only [mem_bitset]
    exact Bitset.isFull_iff h
  | run rs =>
    simp only [isFull, mem_run h]
    refine ⟨covers_of_isFull, fun hall => (Runs.isFull_iff rs).mpr ?_⟩
    have hwhole : Runs.Valid #[Run.whole] := ⟨by decide, List.pairwise_singleton _ _⟩
    exact h.eq_of_values hwhole fun v => iff_of_true (hall v) (Runs.covers_whole v.toNat_lt)

theorem min?_eq (c : Container) : c.min? = c.values.toList.head? := by
  cases c with
  | array vs => rw [min?, values, List.head?_eq_getElem?, Array.getElem?_toList]
  | bitset b => exact Words.min?_eq b.words
  | run rs => exact Runs.min?_eq rs

theorem max?_eq (c : Container) : c.max? = c.values.toList.getLast? := by
  cases c with
  | array vs => exact (Array.getLast?_toList vs).symm
  | bitset b => exact Words.max?_eq b.words
  | run rs => exact Runs.max?_eq rs

theorem rank_eq (h : c.Valid) (v : UInt16) : c.rank v = c.values.toList.countP (· ≤ v) := by
  cases c with
  | array vs => exact Sorted.rank_eq h v
  | bitset b => exact Words.rank_eq b.words v
  | run rs => exact Runs.rank_eq h v

theorem select_eq (c : Container) (n : Nat) : c.select n = c.values.toList[n]? := by
  cases c with
  | array vs => exact Array.getElem?_toList.symm
  | bitset b => exact Words.select_eq b.words n
  | run rs => exact Runs.select_eq rs n

theorem numRuns_eq (h : c.Valid) : c.numRuns = Sorted.runEnds c.values.toList := by
  cases c with
  | array vs => exact Sorted.numRuns_eq h
  | bitset b => exact Words.numRuns_eq b.words
  | run rs => exact Runs.size_eq_runEnds h

/-! ## Two containers -/

theorem values_eq_iff (ha : a.Valid) (hb : b.Valid) :
    a.values = b.values ↔ ∀ v, v ∈ a ↔ v ∈ b := by
  constructor
  · intro h v
    show v ∈ a.values ↔ v ∈ b.values
    rw [h]
  · exact Sorted.eq_of_mem_iff (increasing_values ha) (increasing_values hb)

/-- For two encodings, the values are compared one by one after their number. -/
theorem card_and_values_iff (ha : a.Valid) (hb : b.Valid) :
    (a.card = b.card && a.values = b.values) ↔ ∀ v, v ∈ a ↔ v ∈ b := by
  rw [Bool.and_eq_true, decide_eq_true_iff, decide_eq_true_iff, ← values_eq_iff ha hb,
    card_eq_size ha, card_eq_size hb]
  exact and_iff_right_of_imp fun h => by rw [h]

/-- Containers are the same set exactly when they hold the same values. -/
theorem sameValues_iff (ha : a.Valid) (hb : b.Valid) : a.sameValues b ↔ ∀ v, v ∈ a ↔ v ∈ b := by
  cases a with
  | array as =>
    cases b with
    | array bs => exact decide_eq_true_iff.trans (values_eq_iff ha hb)
    | bitset b => exact card_and_values_iff ha hb
    | run bs => exact card_and_values_iff ha hb
  | bitset a =>
    cases b with
    | array bs => exact card_and_values_iff ha hb
    | bitset b =>
      simp only [sameValues, decide_eq_true_iff, mem_bitset]
      exact ⟨fun h v => by rw [h], fun h => Words.ext fun v => Bool.eq_iff_iff.mpr (h v)⟩
    | run bs => exact card_and_values_iff ha hb
  | run as =>
    cases b with
    | array bs => exact card_and_values_iff ha hb
    | bitset b => exact card_and_values_iff ha hb
    | run bs =>
      simp only [sameValues, decide_eq_true_iff, mem_run ha, mem_run hb]
      exact ⟨fun h v => by rw [h], Runs.Valid.eq_of_values ha hb⟩

theorem card_le_of_subset (ha : a.Valid) (hb : b.Valid) (h : ∀ v, v ∈ a → v ∈ b) :
    a.card ≤ b.card := by
  rw [card_eq_size ha, card_eq_size hb, ← Array.length_toList, ← Array.length_toList]
  exact (Sorted.nodup_of_increasing (increasing_values ha)).length_le_of_subset
    fun v hv => mem_values.mpr (h v (mem_values.mp hv))

theorem all_contains_iff (hb : b.Valid) : a.values.all b.contains ↔ ∀ v, v ∈ a → v ∈ b := by
  rw [Array.all_eq_true_iff_forall_mem]
  exact forall₂_congr fun v _ => contains_iff hb v

/-- Going through the values of runs is going through each of its runs. -/
theorem forall_mem_run_iff {rs : Array Run} (h : Runs.Valid rs) {p : UInt16 → Prop} :
    (∀ v, v ∈ run rs → p v) ↔
      ∀ r ∈ rs, ∀ v : UInt16, r.first.toNat ≤ v.toNat → v.toNat < r.stop → p v := by
  simp only [mem_run h, Runs.covers_iff, Array.mem_toList_iff]
  exact ⟨fun hall r hr v hlo hhi => hall v ⟨r, hr, hlo, hhi⟩,
    fun hall v ⟨r, hr, hlo, hhi⟩ => hall r hr v hlo hhi⟩

theorem isSubset_iff (ha : a.Valid) (hb : b.Valid) : a.isSubset b ↔ ∀ v, v ∈ a → v ∈ b := by
  unfold isSubset
  split
  · rename_i hlt
    exact iff_of_false Bool.false_ne_true fun h =>
      absurd (card_le_of_subset ha hb h) (Nat.not_le.mpr hlt)
  · cases a with
    | array as =>
      cases b with
      | array bs => exact Sorted.isSubset_iff ha hb
      | bitset b => exact all_contains_iff hb
      | run bs =>
        simp only [mem_run hb]
        exact Runs.holdsAll_iff hb ha
    | bitset a =>
      cases b with
      | array bs => exact all_contains_iff hb
      | bitset b =>
        simp only [mem_bitset]
        exact Words.isSubset_iff a.words b.words
      | run bs => exact all_contains_iff hb
    | run as =>
      cases b with
      | array bs => exact all_contains_iff hb
      | bitset b =>
        simp only [Array.all_eq_true_iff_forall_mem, forall_mem_run_iff ha, mem_bitset]
        exact forall₂_congr fun r hr =>
          Bitset.containsRange_iff b (ha.1 r (Array.mem_toList_iff.mpr hr))
      | run bs =>
        simp only [mem_run ha, mem_run hb]
        exact Runs.isSubset_iff ha hb

/-! ### Overlap -/

theorem any_contains_iff {vs : Array UInt16} (hb : b.Valid) :
    vs.any b.contains ↔ ∃ v, v ∈ array vs ∧ v ∈ b := by
  rw [Array.any_eq_true']
  exact exists_congr fun v => and_congr_right fun _ => contains_iff hb v

/-- A bitset meets runs when a run has a bit set in it. -/
theorem runsMeet_iff {rs : Array Run} (h : Runs.Valid rs) (b : Bitset) :
    intersects.runsMeet rs b ↔ ∃ v, v ∈ run rs ∧ v ∈ bitset b := by
  simp only [intersects.runsMeet, Array.any_eq_true', decide_eq_true_iff,
    Bitset.countRange_pos_iff, mem_run h, mem_bitset, Runs.covers_iff, Array.mem_toList_iff]
  constructor
  · rintro ⟨r, hr, v, hlo, hhi, hv⟩
    exact ⟨v, ⟨r, hr, hlo, hhi⟩, hv⟩
  · rintro ⟨v, ⟨r, hr, hlo, hhi⟩, hv⟩
    exact ⟨r, hr, v, hlo, hhi, hv⟩

theorem intersects_iff (ha : a.Valid) (hb : b.Valid) : a.intersects b ↔ ∃ v, v ∈ a ∧ v ∈ b := by
  have hswap : (∃ v, v ∈ a ∧ v ∈ b) ↔ ∃ v, v ∈ b ∧ v ∈ a := exists_congr fun v => and_comm
  cases a with
  | array as =>
    cases b with
    | array bs =>
      rw [intersects, decide_eq_true_iff, Sorted.interCount_eq ha hb, List.countP_pos_iff]
      simp only [decide_eq_true_eq, Array.mem_toList_iff]
      exact Iff.rfl
    | bitset b => exact any_contains_iff hb
    | run bs => exact any_contains_iff hb
  | bitset a =>
    cases b with
    | array bs => exact (any_contains_iff ha).trans hswap.symm
    | bitset b =>
      simp only [mem_bitset]
      exact Words.intersects_iff a.words b.words
    | run bs => exact (runsMeet_iff hb a).trans hswap.symm
  | run as =>
    cases b with
    | array bs => exact (any_contains_iff ha).trans hswap.symm
    | bitset b => exact runsMeet_iff ha b
    | run bs =>
      simp only [mem_run ha, mem_run hb]
      exact Runs.intersects_iff ha hb

/-- Runs in the domain are asked for one after the other without a stop. -/
theorem runsMeet?_eq (b : Bitset) {rs : List Run} (h : ∀ r ∈ rs, r.InDomain) :
    runsMeet? b rs = some (rs.any fun r => 0 < b.words.countRange r.first.toNat r.stop) := by
  induction rs with
  | nil => rfl
  | cons r rs ih =>
    obtain ⟨hr, hrs⟩ := List.forall_mem_cons.mp h
    rw [runsMeet?, if_pos hr, ih hrs, List.any_cons]
    split <;> simp [*]

theorem intersects?_eq (ha : a.Valid) (hb : b.Valid) :
    a.intersects? b = some (a.intersects b) := by
  cases a with
  | array as => rfl
  | bitset a =>
    cases b with
    | run bs => exact (runsMeet?_eq a hb.1).trans (by rw [intersects, intersects.runsMeet]; simp)
    | _ => rfl
  | run as =>
    cases b with
    | bitset b => exact (runsMeet?_eq b ha.1).trans (by rw [intersects, intersects.runsMeet]; simp)
    | _ => rfl

/-! ### The size of the intersection -/

theorem countP_comm (ha : a.Valid) (hb : b.Valid) :
    a.values.toList.countP (· ∈ b) = b.values.toList.countP (· ∈ a) := by
  rw [countP_values ha, countP_values hb]
  exact List.countP_congr fun v _ => by rw [Bool.and_comm]

theorem countP_contains {vs : Array UInt16} (hb : b.Valid) :
    vs.countP b.contains = vs.toList.countP (· ∈ b) := by
  rw [← Array.countP_toList]
  exact List.countP_congr fun v _ => by rw [contains_iff hb, decide_eq_true_iff]

theorem countRuns_eq {rs : Array Run} (h : Runs.Valid rs) (b : Bitset) :
    b.countRuns rs = (bitset b).values.toList.countP (· ∈ run rs) := by
  show _ = b.words.values.toList.countP _
  rw [Bitset.countRuns_eq b h, Words.countP_values]
  exact List.countP_congr fun v _ => by
    rw [Bool.and_eq_true, Bool.and_eq_true, decide_eq_true_iff, mem_run h]

theorem interCard_eq (ha : a.Valid) (hb : b.Valid) :
    a.interCard b = a.values.toList.countP (· ∈ b) := by
  cases a with
  | array as =>
    cases b with
    | array bs =>
      refine (Sorted.interCount_eq ha hb).trans (List.countP_congr fun v _ => ?_)
      rw [decide_eq_true_iff, decide_eq_true_iff, mem_array]
    | bitset b => exact countP_contains hb
    | run bs => exact countP_contains hb
  | bitset a =>
    cases b with
    | array bs => exact (countP_contains ha).trans (countP_comm hb ha)
    | bitset b =>
      show Words.interCount a.words b.words = a.words.values.toList.countP _
      rw [Words.interCount_eq, Words.countP_values]
      exact List.countP_congr fun v _ => by
        rw [Bool.and_eq_true, Bool.and_eq_true, decide_eq_true_iff, mem_bitset]
    | run bs => exact countRuns_eq hb a
  | run as =>
    cases b with
    | array bs => exact (countP_contains ha).trans (countP_comm hb ha)
    | bitset b => exact (countRuns_eq ha b).trans (countP_comm hb ha)
    | run bs =>
      rw [countP_values ha]
      refine (Runs.interCount_eq ha hb).trans (List.countP_congr fun v _ => ?_)
      rw [Bool.and_eq_true, Bool.and_eq_true, decide_eq_true_iff, decide_eq_true_iff, mem_run ha,
        mem_run hb]

theorem interCard?_eq (ha : a.Valid) (hb : b.Valid) :
    a.interCard? b = some (a.interCard b) := by
  cases a with
  | array as => rfl
  | bitset a =>
    cases b with
    | run bs => exact unlessOverrun_of_valid hb _
    | _ => rfl
  | run as =>
    cases b with
    | bitset b => exact unlessOverrun_of_valid ha _
    | _ => rfl

/-! ## All of them -/

/-- The container answers every query, and every comparison with a valid container in either order,
as the ascending list `vs` does. -/
structure Answers (c : Container) (vs : List UInt16) : Prop where
  values : c.values.toList = vs
  card : c.card = vs.length
  isEmpty : c.isEmpty ↔ vs = []
  isFull : c.isFull ↔ ∀ v, v ∈ vs
  contains : ∀ v, c.contains v ↔ v ∈ vs
  min? : c.min? = vs.head?
  max? : c.max? = vs.getLast?
  rank : ∀ v, c.rank v = vs.countP (· ≤ v)
  select : ∀ n, c.select n = vs[n]?
  numRuns : c.numRuns = Sorted.runEnds vs
  sameValues : ∀ e, e.Valid →
    (c.sameValues e ↔ ∀ v, v ∈ vs ↔ v ∈ e) ∧ (e.sameValues c ↔ ∀ v, v ∈ e ↔ v ∈ vs)
  isSubset : ∀ e, e.Valid →
    (c.isSubset e ↔ ∀ v, v ∈ vs → v ∈ e) ∧ (e.isSubset c ↔ ∀ v, v ∈ e → v ∈ vs)
  intersects? : ∀ e, e.Valid →
    c.intersects? e = some (decide (∃ v ∈ vs, v ∈ e)) ∧
      e.intersects? c = some (decide (∃ v ∈ vs, v ∈ e))
  interCard? : ∀ e, e.Valid →
    c.interCard? e = some (vs.countP (· ∈ e)) ∧ e.interCard? c = some (vs.countP (· ∈ e))

theorem answers_values (h : c.Valid) : Answers c c.values.toList where
  values := rfl
  card := card_eq_size h
  isEmpty := by
    rw [isEmpty_iff h, List.eq_nil_iff_forall_not_mem]
    exact forall_congr' fun v => not_congr mem_values.symm
  isFull := (isFull_iff h).trans (forall_congr' fun v => mem_values.symm)
  contains v := (contains_iff h v).trans mem_values.symm
  min? := min?_eq c
  max? := max?_eq c
  rank := rank_eq h
  select := select_eq c
  numRuns := numRuns_eq h
  sameValues e he := by
    simp only [mem_values]
    exact ⟨sameValues_iff h he, sameValues_iff he h⟩
  isSubset e he := by
    simp only [mem_values]
    exact ⟨isSubset_iff h he, isSubset_iff he h⟩
  intersects? e he := by
    have hmeet : ∀ {x y : Container}, (x.intersects y ↔ ∃ v, v ∈ c ∧ v ∈ e) →
        some (x.intersects y) = some (decide (∃ v ∈ c.values.toList, v ∈ e)) := fun hxy => by
      rw [Option.some_inj, Bool.eq_iff_iff, decide_eq_true_iff, hxy]
      simp only [mem_values]
    rw [intersects?_eq h he, intersects?_eq he h]
    exact ⟨hmeet (intersects_iff h he),
      hmeet ((intersects_iff he h).trans (exists_congr fun v => and_comm))⟩
  interCard? e he := by
    rw [interCard?_eq h he, interCard?_eq he h, interCard_eq h he, interCard_eq he h,
      countP_comm he h]
    exact ⟨rfl, rfl⟩

end Roaring.Container
