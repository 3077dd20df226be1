import Roaring.Proofs.Sorted
import Roaring.Proofs.Split

/-!
# Values inserted and erased

Binary search splits a strictly increasing array at a value: smaller values come before, and the
value itself, if it is there, comes first after. So one edit at that place adds or removes it.
-/
namespace Roaring.Sorted

variable {a : Array UInt16} {v : UInt16}

/-- What comes after the lower bound of a value starts with the value, or with a larger one. -/
theorem split_lowerBound (h : Increasing a) (v : UInt16) :
    ∃ before after, Split a (lowerBound a v) before after ∧ (∀ u ∈ before, u < v) ∧
      ∀ u ∈ after, v ≤ u := by
  obtain ⟨before, after, hs, hlt, hge⟩ := split_countWhile (passFirst_lt h v 0)
  refine ⟨before, after, hs, fun u hu => by simpa using hlt u hu, fun u hu => ?_⟩
  exact UInt16.not_lt.mp (by simpa using hge u hu)

theorem contains_iff (h : Increasing a) (v : UInt16) : contains a v ↔ v ∈ a := by
  obtain ⟨before, after, hs, hlt, hge⟩ := split_lowerBound h v
  have hinc : (before ++ after).Pairwise (· < ·) := hs.eq ▸ h
  rw [contains, hs.getElem?_eq, decide_eq_true_iff, ← Array.mem_toList_iff, hs.eq, List.mem_append]
  constructor
  · intro hv
    exact .inr (List.mem_of_mem_head? hv)
  · rintro (hv | hv)
    · exact absurd (hlt v hv) (UInt16.lt_irrefl v)
    · cases after with
      | nil => cases hv
      | cons u after =>
        rcases List.mem_cons.mp hv with rfl | hv
        · rfl
        · have huv := (List.pairwise_cons.mp (List.pairwise_append.mp hinc).2.1).1 v hv
          have hvu := hge u List.mem_cons_self
          exact absurd huv (UInt16.not_lt.mpr hvu)

/-- The lower bound of a value that is there splits the array around it. -/
theorem split_of_mem (h : Increasing a) (hv : v ∈ a) :
    ∃ before after, Split a (lowerBound a v) before (v :: after) := by
  obtain ⟨before, after, hs, -, -⟩ := split_lowerBound h v
  have hat := of_decide_eq_true ((contains_iff h v).mpr hv)
  obtain ⟨rest, rfl⟩ := hs.exists_cons_of_getElem? hat
  exact ⟨before, rest, hs⟩

/-- The lower bound of an absent value splits the array in smaller and larger values. -/
theorem split_of_not_mem (h : Increasing a) (hv : ¬v ∈ a) :
    ∃ before after, Split a (lowerBound a v) before after ∧ (∀ u ∈ before, u < v) ∧
      ∀ u ∈ after, v < u := by
  obtain ⟨before, after, hs, hlt, hge⟩ := split_lowerBound h v
  refine ⟨before, after, hs, hlt, fun u hu => UInt16.lt_of_le_of_ne (hge u hu) fun e => hv ?_⟩
  rw [← Array.mem_toList_iff, hs.eq, e]
  exact List.mem_append_right _ hu

theorem insert_spec (h : Increasing a) (v : UInt16) :
    Increasing (insert a v) ∧ ∀ u, u ∈ insert a v ↔ u = v ∨ u ∈ a := by
  unfold insert
  split
  · rename_i hc
    have hv := (contains_iff h v).mp hc
    exact ⟨h, fun u => ⟨.inr, fun hu => hu.elim (fun e => e ▸ hv) id⟩⟩
  · rename_i hc
    obtain ⟨before, after, hs, hlt, hgt⟩ :=
      split_of_not_mem h fun hv => hc ((contains_iff h v).mpr hv)
    have hinc : (before ++ after).Pairwise (· < ·) := hs.eq ▸ h
    obtain ⟨hbefore, hafter, hcross⟩ := List.pairwise_append.mp hinc
    refine ⟨?_, fun u => ?_⟩
    · rw [Increasing, hs.toList_insert, List.pairwise_append]
      refine ⟨hbefore, List.pairwise_cons.mpr ⟨hgt, hafter⟩, fun u hu w hw => ?_⟩
      rcases List.mem_cons.mp hw with rfl | hw
      · exact hlt u hu
      · exact hcross u hu w hw
    · rw [← Array.mem_toList_iff, ← Array.mem_toList_iff, hs.toList_insert, hs.eq]
      simp only [List.mem_append, List.mem_cons]
      exact or_left_comm

/-- The value is there afterwards exactly if the outcome says so. -/
theorem insertWithin_spec (max : Nat) (h : Increasing a) (v : UInt16) :
    Increasing (insertWithin max a v).2 ∧
      ∀ u, u ∈ (insertWithin max a v).2 ↔ (insertWithin max a v).1 ∧ u = v ∨ u ∈ a := by
  unfold insertWithin
  split_ifs with hc hfull
  · have hv := (contains_iff h v).mp hc
    exact ⟨h, fun u => ⟨.inr, fun hu => hu.elim (fun e => e.2 ▸ hv) id⟩⟩
  · exact ⟨h, fun u => by simp⟩
  · obtain ⟨hinc, hmem⟩ := insert_spec h v
    exact ⟨hinc, fun u => by simpa using hmem u⟩

theorem increasing_push (h : Increasing a) (hv : ∀ m ∈ a.back?, m < v) :
    Increasing (a.push v) := by
  rw [Increasing, Array.toList_push, List.pairwise_append]
  refine ⟨h, List.pairwise_singleton _ _, fun u hu w hw => ?_⟩
  rw [List.mem_singleton.mp hw]
  cases hback : a.back? with
  | none => simp [Array.back?_eq_none_iff.mp hback] at hu
  | some m =>
    obtain ⟨front, rfl⟩ := Array.back?_eq_some_iff.mp hback
    have hm := hv m hback
    rw [Increasing, Array.toList_push, List.pairwise_append] at h
    rw [Array.toList_push, List.mem_append, List.mem_singleton] at hu
    rcases hu with hu | rfl
    · exact UInt16.lt_trans (h.2.2 u hu m (List.mem_singleton.mpr rfl)) hm
    · exact hm

theorem size_insert (h : Increasing a) (hv : ¬v ∈ a) : (insert a v).size = a.size + 1 := by
  obtain ⟨before, after, hs, -, -⟩ := split_lowerBound h v
  have hc : ¬contains a v := fun hc => hv ((contains_iff h v).mp hc)
  rw [insert, if_neg hc, ← Array.length_toList, hs.toList_insert, ← Array.length_toList, hs.eq]
  simp only [List.length_append, List.length_cons]
  omega

theorem erase_spec (h : Increasing a) (v : UInt16) :
    Increasing (erase a v) ∧ (∀ u, u ∈ erase a v ↔ u ∈ a ∧ u ≠ v) ∧
      (erase a v).size ≤ a.size := by
  unfold erase
  split
  · rename_i hc
    obtain ⟨before, after, hs⟩ := split_of_mem h ((contains_iff h v).mp hc)
    have hinc : (before ++ v :: after).Pairwise (· < ·) := hs.eq ▸ h
    have hnodup := nodup_of_increasing hinc
    refine ⟨?_, fun u => ?_, ?_⟩
    · rw [Increasing, hs.toList_erase]
      exact hinc.sublist (List.Sublist.append_left (List.sublist_cons_self v after) before)
    · rw [← Array.mem_toList_iff, ← Array.mem_toList_iff, hs.toList_erase, hs.eq]
      have hv : ¬v ∈ before ++ after := (List.nodup_middle.mp hnodup).notMem
      simp only [List.mem_append, List.mem_cons] at hv ⊢
      constructor
      · intro hu
        exact ⟨hu.imp_right .inr, fun e => hv (e ▸ hu)⟩
      · rintro ⟨hu | rfl | hu, hne⟩
        · exact .inl hu
        · exact absurd rfl hne
        · exact .inr hu
    · rw [← Array.length_toList, hs.toList_erase, ← Array.length_toList, hs.eq]
      simp only [List.length_append, List.length_cons]
      omega
  · rename_i hc
    refine ⟨h, fun u => ⟨fun hu => ⟨hu, ?_⟩, And.left⟩, Nat.le_refl _⟩
    rintro rfl
    exact hc ((contains_iff h u).mpr hu)

end Roaring.Sorted
