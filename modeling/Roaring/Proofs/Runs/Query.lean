import Roaring.Proofs.Runs.Edit
import Roaring.Proofs.Runs.Tracker
import Roaring.Proofs.Sorted.Query
import Roaring.Runs.Merge

/-!
# What run lists answer

Each query of a valid run list as a fact about what the list covers or about the list of its values.
Runs never touch, so what a run of another list has to lie in is a single run.
-/
namespace Roaring.Runs

variable {runs : Array Run}

/-! ## Membership -/

theorem contains_iff (h : Valid runs) (v : UInt16) :
    contains runs v ↔ covers runs.toList v.toNat := by
  obtain ⟨before, after, hs, hbefore, hafter⟩ := split_startsUpTo h v
  rw [contains, candidate?_eq hs, hs.eq]
  rcases List.eq_nil_or_concat' before with rfl | ⟨init, r, rfl⟩
  · rw [List.nil_append, covers_eq_false_of_lt hafter]
    exact Iff.rfl
  · have hvalid : ValidList (init ++ r :: after) := by
      have : ValidList (init ++ [r] ++ after) := hs.eq ▸ h
      rwa [List.append_assoc] at this
    have hfirst : r.first.toNat ≤ v.toNat := hbefore r (by simp)
    have hoffset : (v - r.first).toNat = v.toNat - r.first.toNat :=
      UInt16.toNat_sub_of_le _ _ (UInt16.le_iff_toNat_le.mpr hfirst)
    rw [List.getLast?_concat, List.append_assoc, List.singleton_append]
    simp only [decide_eq_true_eq, UInt16.le_iff_toNat_le, hoffset]
    constructor
    · intro hle
      refine covers_iff.mpr ⟨r, by simp, hfirst, ?_⟩
      unfold Run.stop Run.last
      omega
    · intro hcov
      by_contra hgt
      have hpast : r.stop ≤ v.toNat := by
        unfold Run.stop Run.last
        omega
      rw [not_covers_past hvalid hfirst hpast hafter] at hcov
      cases hcov

/-! ## The first run of a list -/

section Head

variable {r : Run} {rs : List Run} {n : Nat}

theorem covers_first (r : Run) (rs : List Run) : covers (r :: rs) r.first.toNat := by
  rw [covers_cons, decide_eq_true ⟨Nat.le_refl _, r.first_lt_stop⟩, Bool.true_or]

theorem covers_cons_of_past (hn : r.stop ≤ n) : covers (r :: rs) n = covers rs n := by
  have hout : ¬(r.first.toNat ≤ n ∧ n < r.stop) := by omega
  rw [covers_cons, decide_eq_false hout, Bool.false_or]

theorem ValidList.covers_head (h : ValidList (r :: rs)) (hn : n ≤ r.stop) :
    covers (r :: rs) n = decide (r.first.toNat ≤ n ∧ n < r.stop) := by
  rw [covers_cons, h.covers_tail hn, Bool.or_false]

theorem ValidList.covers_stop (h : ValidList (r :: rs)) : covers (r :: rs) r.stop = false := by
  rw [covers_cons_of_past (Nat.le_refl _), h.covers_tail (Nat.le_refl _)]

theorem ValidList.first_le (h : ValidList (r :: rs)) (hn : covers (r :: rs) n) :
    r.first.toNat ≤ n := by
  by_contra hlt
  have := r.first_lt_stop
  rw [h.covers_head (by omega), decide_eq_true_iff] at hn
  omega

end Head

/-! ## The values of a run -/

theorem runValues_eq_cons (r : Run) :
    runValues r = r.first :: (List.range' (r.first.toNat + 1) r.extra.toNat).map Nat.toUInt16 := by
  rw [runValues, Run.card, List.range'_succ, List.map_cons]
  congr 1
  exact UInt16.toNat_inj.mp (toNat_toUInt16 r.first.toNat_lt)

theorem runValues_eq_concat (r : Run) :
    runValues r = (List.range' r.first.toNat r.extra.toNat).map Nat.toUInt16 ++
      [r.last.toUInt16] := by
  rw [runValues, Run.card, List.range'_1_concat, List.map_append]
  rfl

theorem length_runValues (r : Run) : (runValues r).length = r.card := by
  simp [runValues]

theorem min?_eq (runs : Array Run) : min? runs = (values runs).toList.head? := by
  rw [min?, toList_values, ← Array.getElem?_toList]
  cases runs.toList with
  | nil => rfl
  | cons r rs => rw [List.flatMap_cons, runValues_eq_cons]; rfl

theorem max?_eq (runs : Array Run) : max? runs = (values runs).toList.getLast? := by
  rw [max?, toList_values, ← Array.getLast?_toList]
  rcases List.eq_nil_or_concat' runs.toList with h | ⟨init, r, h⟩
  · rw [h]; rfl
  · rw [h, List.getLast?_concat, List.flatMap_append, List.flatMap_singleton, runValues_eq_concat,
      ← List.append_assoc, List.getLast?_concat]
    rfl

theorem selectFrom_eq (rs : List Run) (n : Nat) :
    selectFrom rs n = (rs.flatMap runValues)[n]? := by
  induction rs generalizing n with
  | nil => rfl
  | cons r rs ih =>
    rw [selectFrom, List.flatMap_cons]
    split
    · rename_i hlt
      rw [List.getElem?_append_left (by rwa [length_runValues]), runValues, List.getElem?_map,
        List.getElem?_range' hlt]
      simp
    · rename_i hge
      rw [List.getElem?_append_right (by rw [length_runValues]; omega), length_runValues, ih]

theorem select_eq (runs : Array Run) (n : Nat) : select runs n = (values runs).toList[n]? := by
  rw [toList_values]
  exact selectFrom_eq runs.toList n

theorem countP_range' (start n v : Nat) :
    (List.range' start n).countP (· ≤ v) = min (v + 1) (start + n) - start := by
  induction n generalizing start with
  | zero => simp
  | succ n ih =>
    rw [List.range'_succ, List.countP_cons, ih]
    simp only [decide_eq_true_eq]
    split <;> omega

theorem countP_runValues {r : Run} (h : r.InDomain) (v : UInt16) :
    (runValues r).countP (· ≤ v) = min (v.toNat + 1) r.stop - r.first.toNat := by
  have hstop : r.stop ≤ 65536 := h
  have heq := r.stop_eq
  have hcongr : (List.range' r.first.toNat r.card).countP ((fun u => decide (u ≤ v)) ∘ Nat.toUInt16)
      = (List.range' r.first.toNat r.card).countP (· ≤ v.toNat) := by
    refine List.countP_congr fun n hn => ?_
    have hn := List.mem_range'_1.mp hn
    simp only [Function.comp_apply, decide_eq_true_eq, UInt16.le_iff_toNat_le]
    rw [toNat_toUInt16 (by omega)]
  rw [runValues, List.countP_map, hcongr, countP_range', ← heq]

theorem rankFrom_eq {rs : List Run} (h : ValidList rs) (v : UInt16) (n : Nat) :
    rankFrom v.toNat rs n = n + (rs.flatMap runValues).countP (· ≤ v) := by
  induction rs generalizing n with
  | nil => rfl
  | cons r rs ih =>
    obtain ⟨hdom, hlt, hrs⟩ := validList_cons.mp h
    have hstop := r.stop_eq
    have hpast : v.toNat < r.stop → (rs.flatMap runValues).countP (· ≤ v) = 0 := by
      intro hv
      refine List.countP_eq_zero.mpr fun u hu => ?_
      obtain ⟨s, hs, hu⟩ := List.mem_flatMap.mp hu
      have hu := ((mem_runValues (hrs.1 s hs) u).mp hu).1
      have := hlt s hs
      simp only [decide_eq_true_eq, UInt16.le_iff_toNat_le]
      omega
    rw [rankFrom, List.flatMap_cons, List.countP_append, countP_runValues hdom]
    split
    · rw [hpast (by omega)]
      omega
    · split
      · rw [hpast ‹_›]
        omega
      · rw [ih hrs]
        omega

theorem rank_eq (h : Valid runs) (v : UInt16) :
    rank runs v = (values runs).toList.countP (· ≤ v) := by
  rw [rank, rankFrom_eq h, toList_values, Nat.zero_add]

/-! ## The number of runs -/

theorem mem_flatMap_runValues {rs : List Run} (h : ValidList rs) (v : UInt16) :
    v ∈ rs.flatMap runValues ↔ covers rs v.toNat := by
  rw [List.mem_flatMap, covers_iff]
  exact exists_congr fun r => and_congr_right fun hr => mem_runValues (h.1 r hr) v

/-- Each run has one value after which the next number is absent, its last one. -/
theorem countP_ends {rs : List Run} (h : ValidList rs) :
    ((rs.flatMap runValues).countP fun v => !covers rs (v.toNat + 1)) = rs.length := by
  induction rs with
  | nil => rfl
  | cons r rs ih =>
    obtain ⟨hdom, hlt, hrs⟩ := validList_cons.mp h
    have hstop : r.stop ≤ 65536 := hdom
    have hlast : r.last.toUInt16.toNat = r.last :=
      toNat_toUInt16 (by unfold Run.stop at hstop; omega)
    have hbefore : ((List.range' r.first.toNat r.extra.toNat).map Nat.toUInt16).countP
        (fun v => !covers (r :: rs) (v.toNat + 1)) = 0 := by
      refine List.countP_eq_zero.mpr fun v hv => ?_
      obtain ⟨n, hn, rfl⟩ := List.mem_map.mp hv
      have hn := List.mem_range'_1.mp hn
      unfold Run.stop Run.last at hstop
      have hnext : r.first.toNat ≤ n + 1 ∧ n + 1 < r.stop := by
        unfold Run.stop Run.last
        omega
      rw [toNat_toUInt16 (by omega), covers_cons, decide_eq_true hnext]
      simp
    have hend : covers (r :: rs) (r.last + 1) = false := h.covers_stop
    have hrest : ((rs.flatMap runValues).countP fun v => !covers (r :: rs) (v.toNat + 1)) =
        (rs.flatMap runValues).countP fun v => !covers rs (v.toNat + 1) := by
      refine List.countP_congr fun v hv => ?_
      obtain ⟨s, hs, hv⟩ := List.mem_flatMap.mp hv
      have hv := ((mem_runValues (hrs.1 s hs) v).mp hv).1
      have := hlt s hs
      have hout : ¬(r.first.toNat ≤ v.toNat + 1 ∧ v.toNat + 1 < r.stop) := by omega
      rw [covers_cons, decide_eq_false hout, Bool.false_or]
    rw [List.flatMap_cons, List.countP_append, hrest, ih hrs, runValues_eq_concat,
      List.countP_append, hbefore, List.countP_singleton, hlast, hend, List.length_cons]
    exact Nat.add_comm ..

theorem covers_eq_false_of_inDomain {rs : List Run} (h : ∀ r ∈ rs, r.InDomain) {n : Nat}
    (hn : 65536 ≤ n) : covers rs n = false :=
  covers_eq_false_of_ge fun r hr => Nat.le_trans (h r hr) hn

theorem size_eq_runEnds (h : Valid runs) : runs.size = Sorted.runEnds (values runs).toList := by
  rw [← Array.length_toList, ← countP_ends h, Sorted.runEnds, toList_values]
  refine List.countP_congr fun v _ => ?_
  rw [Sorted.endsRun_iff, Bool.not_eq_true']
  rw [← Bool.not_eq_true]
  refine not_congr ⟨fun hcov => ?_, ?_⟩
  · have hlt : v.toNat + 1 < 65536 := by
      by_contra hge
      rw [covers_eq_false_of_inDomain h.1 (Nat.le_of_not_lt hge)] at hcov
      cases hcov
    have hw : (v.toNat + 1).toUInt16.toNat = v.toNat + 1 := toNat_toUInt16 hlt
    exact ⟨(v.toNat + 1).toUInt16, (mem_flatMap_runValues h _).mpr (by rwa [hw]), hw⟩
  · rintro ⟨w, hw, e⟩
    rw [← e]
    exact (mem_flatMap_runValues h w).mp hw

/-- Counting gaps between neighbours counts every run but the one that the first value is in. -/
theorem countP_neighbours (u : UInt16) (vs : List UInt16) (n : Nat) :
    Sorted.numRunsFrom (some u) vs n =
      n + (neighbours (u :: vs)).countP isGap := by
  induction vs generalizing u n with
  | nil => rfl
  | cons v vs ih =>
    have hpair : neighbours (u :: v :: vs) = (u, v) :: neighbours (v :: vs) := rfl
    rw [Sorted.numRunsFrom, ih, hpair, List.countP_cons, Option.any_some]
    by_cases hnext : u.toNat + 1 = v.toNat
    · simp [isGap, hnext]
    · simp only [isGap, hnext, decide_false, Bool.false_eq_true, if_false, ne_eq, not_false_eq_true,
        decide_true, if_true]
      omega

/-- Both ways to count the runs of values agree, whether the values increase or not. -/
theorem countRuns_eq (vs : Array UInt16) : countRuns vs = Sorted.numRuns vs := by
  obtain ⟨vs⟩ := vs
  cases vs with
  | nil => rfl
  | cons u vs => exact (countP_neighbours u vs 1).symm

section OfValues

variable {vs : Array UInt16} (h : Sorted.Increasing vs)

include h

theorem values_ofValues : values (ofValues vs) = vs := by
  obtain ⟨hvalid, hcov⟩ := ofValues_spec h
  exact Sorted.eq_of_mem_iff (increasing_values hvalid) h fun v => by rw [mem_values hvalid, hcov]

/-- There are as many runs as are counted in the values. -/
theorem size_ofValues : (ofValues vs).size = Sorted.numRuns vs := by
  rw [size_eq_runEnds (ofValues_spec h).1, values_ofValues h, Sorted.numRuns_eq h]

end OfValues

/-! ## Two run lists -/

/-- A valid list is determined by what it covers. -/
theorem ValidList.eq_of_covers {rs ss : List Run} (hr : ValidList rs) (hs : ValidList ss)
    (h : ∀ n, covers rs n = covers ss n) : rs = ss := by
  induction rs generalizing ss with
  | nil =>
    cases ss with
    | nil => rfl
    | cons s ss =>
      have := h s.first.toNat
      rw [covers_cons, decide_eq_true ⟨Nat.le_refl _, s.first_lt_stop⟩] at this
      cases this
  | cons r rs ih =>
    cases ss with
    | nil =>
      have := (h r.first.toNat).symm.trans (covers_first r rs)
      cases this
    | cons s ss =>
      have hfirst : r.first.toNat = s.first.toNat :=
        Nat.le_antisymm (hr.first_le ((h _).trans (covers_first s ss)))
          (hs.first_le ((h _).symm.trans (covers_first r rs)))
      have hr_stop : covers (s :: ss) r.stop = false := (h _).symm.trans hr.covers_stop
      have hs_stop : covers (r :: rs) s.stop = false := (h _).trans hs.covers_stop
      have hstop : r.stop = s.stop := by
        have := r.first_lt_stop
        have := s.first_lt_stop
        rcases Nat.lt_trichotomy r.stop s.stop with hlt | heq | hlt
        · rw [hs.covers_head (Nat.le_of_lt hlt), decide_eq_false_iff_not] at hr_stop
          omega
        · exact heq
        · rw [hr.covers_head (Nat.le_of_lt hlt), decide_eq_false_iff_not] at hs_stop
          omega
      have hsame : r = s := by
        rw [← r.ofBounds_first_stop, ← s.ofBounds_first_stop, hfirst, hstop]
      subst hsame
      rw [ih hr.tail hs.tail fun n => ?_]
      rcases Nat.le_total n r.stop with hn | hn
      · rw [hr.covers_tail hn, hs.covers_tail hn]
      · have := h n
        rwa [covers_cons_of_past hn, covers_cons_of_past hn] at this

/-- Runs in the domain cover no number past it, so what holds of the values holds of all numbers. -/
theorem ValidList.covers_of_values {as bs : List Run} (ha : ValidList as)
    (h : ∀ v : UInt16, covers as v.toNat → covers bs v.toNat) {n : Nat} (hn : covers as n) :
    covers bs n := by
  rcases Nat.lt_or_ge n 65536 with hlt | hge
  · have := h n.toUInt16
    rw [toNat_toUInt16 hlt] at this
    exact this hn
  · rw [covers_eq_false_of_inDomain ha.1 hge] at hn
    cases hn

theorem Valid.eq_of_values {a b : Array Run} (ha : Valid a) (hb : Valid b)
    (h : ∀ v : UInt16, covers a.toList v.toNat ↔ covers b.toList v.toNat) : a = b :=
  Array.toList_inj.mp (ValidList.eq_of_covers ha hb fun _ => Bool.eq_iff_iff.mpr
    ⟨ValidList.covers_of_values ha fun v => (h v).mp,
      ValidList.covers_of_values hb fun v => (h v).mpr⟩)

/-- A run lies in a valid list when the first run that does not end before it holds it whole. -/
theorem covers_run_iff {a b : Run} {bs : List Run} (hb : ValidList (b :: bs))
    (hseek : a.first.toNat ≤ b.last) :
    (∀ n, a.first.toNat ≤ n → n < a.stop → covers (b :: bs) n) ↔
      b.first ≤ a.first ∧ a.last ≤ b.last := by
  have hfirst := a.first_lt_stop
  rw [UInt16.le_iff_toNat_le]
  constructor
  · intro hcov
    refine ⟨hb.first_le (hcov _ (Nat.le_refl _) hfirst), ?_⟩
    by_contra hlt
    have hstop := hcov b.stop (by unfold Run.stop; omega) (by unfold Run.stop; omega)
    rw [hb.covers_stop] at hstop
    cases hstop
  · rintro ⟨hle, hle'⟩ n hn hn'
    refine covers_iff.mpr ⟨b, List.mem_cons_self, Nat.le_trans hle hn, ?_⟩
    unfold Run.stop at hn' ⊢
    omega

theorem isSubsetList_iff {as bs : List Run} (ha : ValidList as) (hb : ValidList bs) :
    isSubsetList as bs ↔ ∀ n, covers as n → covers bs n := by
  induction as generalizing bs with
  | nil => simp [isSubsetList]
  | cons a as ih =>
    have hseek := hb.dropWhile fun b => decide (b.last < a.first.toNat)
    -- what the search for `a` drops is of no use to the runs after `a` either
    have hsame : (∀ n, covers (a :: as) n → covers bs n) ↔
        ∀ n, covers (a :: as) n → covers (bs.dropWhile (·.last < a.first.toNat)) n :=
      forall₂_congr fun n hn => by rw [covers_dropWhile bs (ha.first_le hn)]
    rw [hsame, isSubsetList]
    split
    · rename_i heq
      rw [heq]
      refine iff_of_false (by simp) fun hall => ?_
      cases hall _ (covers_first a as)
    · rename_i b bs' heq
      have hlast : a.first.toNat ≤ b.last := by
        have := List.head?_dropWhile_not (fun b : Run => decide (b.last < a.first.toNat)) bs
        simpa [heq] using this
      rw [heq] at hseek ⊢
      rw [Bool.and_eq_true, Bool.and_eq_true, decide_eq_true_iff, decide_eq_true_iff,
        ← covers_run_iff hseek hlast, ih ha.tail hseek]
      simp only [covers_cons a as, Bool.or_eq_true, decide_eq_true_iff, or_imp, forall_and, and_imp]

theorem isSubset_iff {a b : Array Run} (ha : Valid a) (hb : Valid b) :
    isSubset a b ↔ ∀ v : UInt16, covers a.toList v.toNat → covers b.toList v.toNat :=
  (isSubsetList_iff ha hb).trans
    ⟨fun h v => h v.toNat, fun h _ => ValidList.covers_of_values ha h⟩

/-- Two lists have nothing in common once one is used up, or when the first run of one ends before
the other begins; that run is then passed. -/
theorem intersectsList_iff {as bs : List Run} (ha : ValidList as) (hb : ValidList bs) :
    intersectsList as bs ↔ ∃ n, covers as n ∧ covers bs n := by
  fun_induction intersectsList as bs with
  | case1 bs => simp
  | case2 as => simp
  | case3 a as b bs hlt ih =>
    rw [ih ha.tail hb]
    refine exists_congr fun n => and_congr_left fun hn => ?_
    have := hb.first_le hn
    rw [covers_cons_of_past (by unfold Run.stop; omega)]
  | case4 a as b bs hnlt hlt ih =>
    rw [ih ha hb.tail]
    refine exists_congr fun n => and_congr_right fun hn => ?_
    have := ha.first_le hn
    rw [covers_cons_of_past (by unfold Run.stop; omega)]
  | case5 a as b bs hnlt hnlt' =>
    have ha := a.first_lt_stop
    have hb := b.first_lt_stop
    have hab : b.first.toNat < a.stop := Nat.lt_succ_of_le (Nat.le_of_not_lt hnlt)
    have hba : a.first.toNat < b.stop := Nat.lt_succ_of_le (Nat.le_of_not_lt hnlt')
    exact iff_of_true rfl ⟨max a.first.toNat b.first.toNat,
      covers_iff.mpr ⟨a, List.mem_cons_self, by omega, by omega⟩,
      covers_iff.mpr ⟨b, List.mem_cons_self, by omega, by omega⟩⟩

theorem intersects_iff {a b : Array Run} (ha : Valid a) (hb : Valid b) :
    intersects a b ↔ ∃ v : UInt16, covers a.toList v.toNat ∧ covers b.toList v.toNat := by
  refine (intersectsList_iff ha hb).trans ⟨fun ⟨n, hna, hnb⟩ => ?_, fun ⟨v, hv⟩ => ⟨v.toNat, hv⟩⟩
  have hlt : n < 65536 := by
    by_contra hge
    rw [covers_eq_false_of_inDomain ha.1 (Nat.le_of_not_lt hge)] at hna
    cases hna
  exact ⟨n.toUInt16, by rw [toNat_toUInt16 hlt]; exact ⟨hna, hnb⟩⟩

/-- The values that two runs share are those of one range. -/
theorem countP_both {a b : Run} (ha : a.InDomain) :
    (domain.countP fun v => decide (a.first.toNat ≤ v.toNat ∧ v.toNat < a.stop) &&
      decide (b.first.toNat ≤ v.toNat ∧ v.toNat < b.stop)) =
        min a.stop b.stop - max a.first.toNat b.first.toNat := by
  have hstop : a.stop ≤ 65536 := ha
  rcases Nat.le_total (max a.first.toNat b.first.toNat) (min a.stop b.stop) with hle | hle
  · rw [← Words.countP_inRange hle (by omega)]
    refine List.countP_congr fun v _ => ?_
    simp only [Words.inRange, Bool.and_eq_true, decide_eq_true_eq]
    omega
  · rw [Nat.sub_eq_zero_of_le hle]
    refine List.countP_eq_zero.mpr fun v _ => ?_
    simp only [Bool.and_eq_true, decide_eq_true_eq]
    omega

/-- Of two lists, the first run of the one and the other list share what the first runs share, if
the first run of the one is the first to end. -/
theorem countP_cons_both {a b : Run} {as bs : List Run} (ha : ValidList (a :: as))
    (hb : ValidList (b :: bs)) (hle : a.stop ≤ b.stop) :
    (domain.countP fun v => covers (a :: as) v.toNat && covers (b :: bs) v.toNat) =
      min a.stop b.stop - max a.first.toNat b.first.toNat +
        domain.countP fun v => covers as v.toNat && covers (b :: bs) v.toNat := by
  rw [← countP_both ha.head_inDomain]
  refine Words.countP_eq_add (fun v _ => ?_) fun v _ hv => ?_
  · rcases Nat.lt_or_ge v.toNat a.stop with hlt | hge
    · rw [ha.covers_head (Nat.le_of_lt hlt), hb.covers_head (by omega),
        ha.covers_tail (Nat.le_of_lt hlt), Bool.false_and, Bool.or_false]
    · have hout : ¬(a.first.toNat ≤ v.toNat ∧ v.toNat < a.stop) := by omega
      rw [covers_cons_of_past hge, decide_eq_false hout, Bool.false_and, Bool.false_or]
  · rw [Bool.and_eq_true, decide_eq_true_iff] at hv
    rw [ha.covers_tail (by omega), Bool.false_and]

theorem interCountFrom_eq {as bs : List Run} (ha : ValidList as) (hb : ValidList bs) (n : Nat) :
    interCountFrom as bs n = n + domain.countP fun v => covers as v.toNat && covers bs v.toNat := by
  fun_induction interCountFrom as bs n with
  | case1 bs n => simp
  | case2 as n => simp
  | case3 a as b bs n shared hlt ih =>
    rw [ih ha.tail hb, countP_cons_both ha hb (Nat.le_of_lt (Nat.succ_lt_succ hlt))]
    omega
  | case4 a as b bs n shared hnlt ih =>
    have hcomm : ∀ as bs : List Run,
        (domain.countP fun v => covers as v.toNat && covers bs v.toNat) =
          domain.countP fun v => covers bs v.toNat && covers as v.toNat := fun as bs =>
      List.countP_congr fun v _ => by rw [Bool.and_comm]
    rw [ih ha hb.tail, hcomm (a :: as) (b :: bs),
      countP_cons_both hb ha (Nat.succ_le_succ (Nat.le_of_not_lt hnlt)), hcomm bs]
    omega

theorem interCount_eq {a b : Array Run} (ha : Valid a) (hb : Valid b) :
    interCount a b = domain.countP fun v =>
      covers a.toList v.toNat && covers b.toList v.toNat := by
  rw [interCount, interCountFrom_eq ha hb, Nat.zero_add]

/-! ## Runs and sorted values -/

theorem holdsAll_iff (h : Valid runs) {vs : Array UInt16} (hvs : Sorted.Increasing vs) :
    holdsAll runs vs ↔ ∀ v ∈ vs, covers runs.toList v.toNat := by
  rw [holdsAll, Tracker.all_iff (t := ⟨runs.toList⟩) h hvs]
  simp

end Roaring.Runs
