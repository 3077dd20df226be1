import Roaring.Proofs.Container.Query

/-!
# Ranges in containers

Each encoding has its own way to tell that a whole range is there: an array looks at the value as
far behind the first one as the range is long, runs at the one run that the range has to lie in, and
a bitset at the words. Each of them finds that every value of the range is held.
-/
namespace Roaring

namespace Sorted

/-- What is no larger than the first of ascending values is among them only as that one. -/
theorem mem_cons_iff_of_le {u v : UInt16} {us : List UInt16} (h : (u :: us).Pairwise (· < ·))
    (hv : v ≤ u) : v ∈ u :: us ↔ v = u := by
  refine ⟨fun hmem => ?_, fun e => e ▸ List.mem_cons_self⟩
  rcases List.mem_cons.mp hmem with e | hus
  · exact e
  · exact absurd ((List.pairwise_cons.mp h).1 v hus) (UInt16.not_lt.mpr hv)

/-- In ascending values from `s` on, the next `n` numbers after `s` are there together with `s`
exactly when the value at position `n` has gone up no further than that. -/
theorem forall_mem_iff_getElem? {vs : List UInt16} (h : vs.Pairwise (· < ·)) {s n : Nat}
    (hs : ∀ u ∈ vs, s ≤ u.toNat) (hn : s + n < 65536) :
    (∀ v : UInt16, s ≤ v.toNat → v.toNat ≤ s + n → v ∈ vs) ↔
      ∃ v, vs[n]? = some v ∧ v.toNat = s + n := by
  have hfirst := toNat_toUInt16 (n := s) (by omega)
  induction vs generalizing s n with
  | nil =>
    refine iff_of_false (fun hall => ?_) (by simp)
    cases hall s.toUInt16 (by omega) (by omega)
  | cons u us ih =>
    obtain ⟨hlt, hus⟩ := List.pairwise_cons.mp h
    have hu := hs u List.mem_cons_self
    have hhead : s.toUInt16 ∈ u :: us ↔ s.toUInt16 = u :=
      mem_cons_iff_of_le h (UInt16.le_iff_toNat_le.mpr (by omega))
    cases n with
    | zero =>
      constructor
      · intro hall
        exact ⟨u, rfl, hhead.mp (hall _ (by omega) (by omega)) ▸ hfirst⟩
      · rintro ⟨v, hv, hvs⟩ w hlo hhi
        obtain rfl : u = v := Option.some.inj hv
        obtain rfl : w = u := UInt16.toNat_inj.mp (by omega)
        exact List.mem_cons_self
    | succ n =>
      have hnext := toNat_toUInt16 (n := s + 1) (by omega)
      have hlt : ∀ w ∈ us, u.toNat < w.toNat := fun w hw => UInt16.lt_iff_toNat_lt.mp (hlt w hw)
      have hstep := ih hus (s := s + 1) (n := n) (fun w hw => Nat.lt_of_le_of_lt hu (hlt w hw))
        (by omega) hnext
      rw [List.getElem?_cons_succ, show s + (n + 1) = s + 1 + n by omega]
      refine Iff.trans ?_ hstep
      constructor
      · intro hall v hlo hhi
        have hsu : s.toUInt16 = u := hhead.mp (hall _ (by omega) (by omega))
        refine (List.mem_cons.mp (hall v (by omega) hhi)).resolve_left fun hvu => ?_
        rw [hvu, ← hsu] at hlo
        omega
      · intro hall v hlo hhi
        have hle := hlt _ (hall (s + 1).toUInt16 (by omega) (by omega))
        rcases Nat.eq_or_lt_of_le hlo with heq | hlo
        · obtain rfl : v = u := UInt16.toNat_inj.mp (by omega)
          exact List.mem_cons_self
        · exact List.mem_cons_of_mem _ (hall v hlo hhi)

/-- A range is there when the value as far behind its first one as the range is long is its last. -/
theorem containsRange_iff {a : Array UInt16} (h : Increasing a) {start stop : Nat}
    (hstop : stop ≤ 65536) : containsRange a start stop ↔
      ∀ v : UInt16, start ≤ v.toNat → v.toNat < stop → v ∈ a := by
  unfold containsRange
  split
  · exact iff_of_true rfl fun v hlo hhi => by omega
  obtain ⟨n, rfl⟩ : ∃ n, stop = start + n + 1 := ⟨stop - start - 1, by omega⟩
  have hs := toNat_toUInt16 (n := start) (by omega)
  obtain ⟨before, after, hsplit, hbefore, hafter⟩ := split_lowerBound h start.toUInt16
  have hinc : (before ++ after).Pairwise (· < ·) := hsplit.eq ▸ h
  have hge : ∀ u ∈ after, start ≤ u.toNat := fun u hu =>
    hs ▸ UInt16.le_iff_toNat_le.mp (hafter u hu)
  have hmem : ∀ v : UInt16, start ≤ v.toNat → (v ∈ a ↔ v ∈ after) := fun v hlo => by
    rw [← Array.mem_toList_iff, hsplit.eq, List.mem_append, or_iff_right]
    intro hv
    have := UInt16.lt_iff_toNat_lt.mp (hbefore v hv)
    omega
  have hall : (∀ v : UInt16, start ≤ v.toNat → v.toNat < start + n + 1 → v ∈ a) ↔
      ∃ v, a[lowerBound a start.toUInt16 + n]? = some v ∧ v.toNat = start + n := by
    rw [hsplit.getElem?_add, ← forall_mem_iff_getElem? (List.pairwise_append.mp hinc).2.1 hge
      (by omega)]
    exact forall₂_congr fun v hlo => by rw [hmem v hlo, Nat.lt_succ_iff]
  rw [if_neg (by omega), hall, show start + n + 1 - start = n + 1 by omega]
  split
  · refine iff_of_false Bool.false_ne_true ?_
    rintro ⟨v, hv, -⟩
    have := (Array.getElem?_eq_some_iff.mp hv).1
    omega
  · show (contains a start.toUInt16 && _) ↔ _
    rw [Bool.and_eq_true, contains_iff h, ← Nat.add_assoc, Nat.add_sub_cancel, Nat.add_sub_cancel]
    cases hlast : a[lowerBound a start.toUInt16 + n]? with
    | none => simp
    | some v =>
      simp only [hlast, Option.some.injEq, exists_eq_left', decide_eq_true_eq] at hall ⊢
      exact and_iff_right_of_imp fun hv => hall.mpr hv _ (by omega) (by omega)

end Sorted

namespace Runs

/-- Runs never touch, so the number after a run that does not reach the end of a range is one that
the range lacks. -/
theorem containsRange_iff {runs : Array Run} (h : Valid runs) {start stop : Nat}
    (hstop : stop ≤ 65536) : containsRange runs start stop ↔
      ∀ v : UInt16, start ≤ v.toNat → v.toNat < stop → covers runs.toList v.toNat := by
  unfold containsRange
  split
  · exact iff_of_true rfl fun v hlo hhi => by omega
  rw [if_neg (by omega)]
  have hs := toNat_toUInt16 (n := start) (by omega)
  obtain ⟨before, after, hsplit, hbefore, hafter⟩ := split_startsUpTo h start.toUInt16
  rw [candidate?_eq hsplit, hsplit.eq]
  rcases List.eq_nil_or_concat' before with rfl | ⟨init, r, rfl⟩
  · refine iff_of_false Bool.false_ne_true fun hall => ?_
    have hcov := hall start.toUInt16 (by omega) (by omega)
    rw [List.nil_append, covers_eq_false_of_lt hafter] at hcov
    cases hcov
  · have hvalid : ValidList (init ++ r :: after) := by
      have : ValidList (init ++ [r] ++ after) := hsplit.eq ▸ h
      rwa [List.append_assoc] at this
    have hfirst := hbefore r (by simp)
    rw [List.getLast?_concat, List.append_assoc, List.singleton_append]
    simp only [decide_eq_true_eq]
    constructor
    · intro hle v hlo hhi
      exact covers_iff.mpr ⟨r, by simp, by omega, by omega⟩
    · intro hall
      by_contra hgt
      obtain ⟨-, -, hapart, -⟩ := validList_middle.mp hvalid
      have hpast := toNat_toUInt16 (n := max start r.stop) (by omega)
      have hcov := hall (max start r.stop).toUInt16 (by omega) (by omega)
      rw [not_covers_past hvalid (by omega) (by omega) fun s hs' => ?_] at hcov
      · cases hcov
      · have := hafter s hs'
        have := hapart s hs'
        omega

end Runs

namespace Container

/-- A range within the domain is held when each of its values is. -/
theorem containsRange_iff {c : Container} (h : c.Valid) {start stop : Nat} (hstop : stop ≤ 65536) :
    c.containsRange start stop ↔ ∀ v : UInt16, start ≤ v.toNat → v.toNat < stop → v ∈ c := by
  cases c with
  | array vs => exact Sorted.containsRange_iff h hstop
  | bitset b =>
    simp only [mem_bitset]
    exact Bitset.containsRange_iff b hstop
  | run rs =>
    simp only [mem_run h]
    exact Runs.containsRange_iff h hstop

end Container

end Roaring
