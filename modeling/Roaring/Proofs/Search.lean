import Roaring.Search

/-!
# What a search finds

In an array whose elements that pass a test come before those that fail it, every search ends at
the boundary between the two. A boundary splits what lies ahead of its start in two: the elements
passed over by the search, and the rest of the array.
-/
namespace Roaring

variable {α : Type}

/-- From `lo` on, no element that passes comes after one that fails. -/
def PassFirst (p : α → Bool) (a : Array α) (lo : Nat) : Prop :=
  ∀ i j (hi : i < a.size) (hj : j < a.size), lo ≤ i → i ≤ j → p a[j] → p a[i]

/-- From `i` on, `n` is the index of the first element that fails, or the end of the array. -/
structure Boundary (p : α → Bool) (a : Array α) (i n : Nat) : Prop where
  le : i ≤ n
  le_size : n ≤ a.size
  passes : ∀ j (hj : j < a.size), i ≤ j → j < n → p a[j]
  fails : ∀ hn : n < a.size, p a[n] = false

theorem PassFirst.mono {p : α → Bool} {a : Array α} {lo lo' : Nat} (h : PassFirst p a lo)
    (hle : lo ≤ lo') : PassFirst p a lo' :=
  fun i j hi hj hlo => h i j hi hj (Nat.le_trans hle hlo)

theorem passFirst_of_pairwise {r : α → α → Prop} {p : α → Bool} {a : Array α} {lo : Nat}
    (h : (a.toList.drop lo).Pairwise r) (hr : ∀ x y, r x y → p y → p x) : PassFirst p a lo := by
  intro i j hi hj hlo hij hp
  rcases Nat.eq_or_lt_of_le hij with rfl | hij
  · exact hp
  · have hxy := List.pairwise_iff_getElem.mp h (i - lo) (j - lo) (by simp; omega) (by simp; omega)
      (by omega)
    have hi' : lo + (i - lo) = i := by omega
    have hj' : lo + (j - lo) = j := by omega
    simp only [List.getElem_drop, hi', hj', Array.getElem_toList] at hxy
    exact hr _ _ hxy hp

/-- Binary search splits its window into elements that pass and elements that fail. -/
theorem partitionPoint_spec {p : α → Bool} {a : Array α} (lo hi : Nat) (hhi : hi ≤ a.size)
    (h : PassFirst p a lo) :
    (∀ j (hj : j < a.size), lo ≤ j → j < partitionPoint p a lo hi hhi → p a[j]) ∧
      ∀ j (hj : j < a.size), partitionPoint p a lo hi hhi ≤ j → j < hi → p a[j] = false := by
  fun_induction partitionPoint p a lo hi hhi with
  | case1 lo hi hhi hlt mid_lt hp ih =>
    obtain ⟨hpass, hfail⟩ := ih (h.mono (by omega))
    refine ⟨fun j hj hlo hjr => ?_, hfail⟩
    rcases Nat.lt_or_ge (lo + (hi - lo) / 2) j with hmid | hmid
    · exact hpass j hj hmid hjr
    · exact h j _ hj mid_lt hlo hmid hp
  | case2 lo hi hhi hlt mid_lt hp ih =>
    obtain ⟨hpass, hfail⟩ := ih h
    refine ⟨hpass, fun j hj hrj hjhi => ?_⟩
    rcases Nat.lt_or_ge j (lo + (hi - lo) / 2) with hmid | hmid
    · exact hfail j hj hrj hmid
    · exact Bool.eq_false_iff.mpr fun hpj => hp (h _ j mid_lt hj (by omega) hmid hpj)
  | case3 lo hi hhi hlt =>
    exact ⟨fun j _ h1 h2 => by omega, fun j _ h1 h2 => by omega⟩

theorem gallop_boundary {p : α → Bool} {a : Array α} (lo span : Nat) (hspan : 0 < span)
    (h : PassFirst p a lo) (hlo : lo < a.size) (hp : p a[lo]) :
    Boundary p a lo (gallop p a lo span hspan) := by
  fun_induction gallop p a lo span hspan with
  | case1 lo span hspan hlt hnext ih =>
    -- the leap lands on an element that passes
    have hb := ih (h.mono (by omega)) hlt hnext
    refine ⟨by have := hb.le; omega, hb.le_size, fun j hj hl hr => ?_, hb.fails⟩
    rcases Nat.lt_or_ge j (lo + span) with hj' | hj'
    · exact h j _ hj hlt hl (by omega) hnext
    · exact hb.passes j hj hj' hr
  | case2 lo span hspan hlt hnext =>
    -- the leap lands on one that fails, and what it skipped is halved
    obtain ⟨hpass, hfail⟩ := partitionPoint_spec (lo + 1) (lo + span) (by omega)
      (h.mono (by omega))
    have hle := partitionPoint_le p a (lo + 1) (lo + span) (by omega) (by omega)
    refine ⟨Nat.le_of_succ_le (le_partitionPoint ..), by omega, fun j hj hl hr => ?_, fun hn => ?_⟩
    · rcases Nat.eq_or_lt_of_le hl with rfl | hl
      · exact hp
      · exact hpass j hj hl hr
    · rcases Nat.eq_or_lt_of_le hle with heq | hlt'
      · simpa only [heq, Bool.not_eq_true] using hnext
      · exact hfail _ hn (Nat.le_refl _) hlt'
  | case3 lo span hspan hlt =>
    -- the leap goes past the end, and the rest is halved
    obtain ⟨hpass, hfail⟩ := partitionPoint_spec (lo + 1) a.size (Nat.le_refl _)
      (h.mono (by omega))
    refine ⟨Nat.le_of_succ_le (le_partitionPoint ..), partitionPoint_le _ _ _ _ _ (by omega),
      fun j hj hl hr => ?_, fun hn => hfail _ hn (Nat.le_refl _) hn⟩
    rcases Nat.eq_or_lt_of_le hl with rfl | hl
    · exact hp
    · exact hpass j hj hl hr

theorem advance_boundary {p : α → Bool} {a : Array α} {i : Nat} (h : PassFirst p a i)
    (hi : i ≤ a.size) : Boundary p a i (advance p a i) := by
  unfold advance
  split
  · rename_i hlt
    split
    · rename_i hp
      exact gallop_boundary i 1 Nat.one_pos h hlt hp
    · rename_i hp
      exact ⟨Nat.le_refl _, hi, fun j _ h1 h2 => by omega, fun _ => by simpa using hp⟩
  · exact ⟨Nat.le_refl _, hi, fun j _ h1 h2 => by omega, fun hn => by omega⟩

theorem countWhile_boundary {p : α → Bool} {a : Array α} (h : PassFirst p a 0) :
    Boundary p a 0 (countWhile p a) := by
  obtain ⟨hpass, hfail⟩ := partitionPoint_spec 0 a.size (Nat.le_refl _) h
  exact ⟨Nat.zero_le _, partitionPoint_le _ _ _ _ _ (Nat.zero_le _), hpass,
    fun hn => hfail _ hn (Nat.le_refl _) hn⟩

/-! ## Searches by a key -/

section Map

variable {β : Type} (p : β → Bool) (key : α → β) (a : Array α)

/-- A search among the keys of the elements takes the steps of one by the keys. -/
theorem partitionPoint_map (lo hi : Nat) (hhi : hi ≤ a.size) :
    partitionPoint p (a.map key) lo hi (by simpa using hhi) =
      partitionPoint (fun x => p (key x)) a lo hi hhi := by
  fun_induction partitionPoint (fun x => p (key x)) a lo hi hhi with
  | case1 lo hi hhi hlt mid_lt hp ih =>
    rw [partitionPoint, dif_pos hlt, if_pos (by simpa using hp), ih]
  | case2 lo hi hhi hlt mid_lt hp ih =>
    rw [partitionPoint, dif_pos hlt, if_neg (by simpa using hp), ih]
  | case3 lo hi hhi hlt => rw [partitionPoint, dif_neg hlt]

theorem countWhile_map : countWhile p (a.map key) = countWhile (fun x => p (key x)) a := by
  simp only [countWhile, Array.size_map]
  exact partitionPoint_map p key a 0 a.size (Nat.le_refl _)

theorem gallop_map (lo span : Nat) (hspan : 0 < span) :
    gallop p (a.map key) lo span hspan = gallop (fun x => p (key x)) a lo span hspan := by
  fun_induction gallop (fun x => p (key x)) a lo span hspan with
  | case1 lo span hspan hlt hp ih =>
    rw [gallop, dif_pos (by simpa using hlt), if_pos (by simpa using hp), ih]
  | case2 lo span hspan hlt hp =>
    rw [gallop, dif_pos (by simpa using hlt), if_neg (by simpa using hp), partitionPoint_map]
  | case3 lo span hspan hlt =>
    rw [gallop, dif_neg (by simpa using hlt)]
    simp only [Array.size_map]
    exact partitionPoint_map p key a (lo + 1) a.size (Nat.le_refl _)

theorem advance_map (i : Nat) :
    advance p (a.map key) i = advance (fun x => p (key x)) a i := by
  simp only [advance, gallop_map, Array.size_map, Array.getElem_map]

end Map

namespace Boundary

variable {p : α → Bool} {a : Array α} {i n : Nat}

/-- A search by a key of the elements finds a boundary among the keys. -/
theorem map {β : Type} {key : α → β} {q : β → Bool} (h : Boundary (fun x => q (key x)) a i n) :
    Boundary q (a.map key) i n where
  le := h.le
  le_size := by simpa using h.le_size
  passes j hj hij hjn := by simpa using h.passes j (by simpa using hj) hij hjn
  fails hn := by simpa using h.fails (by simpa using hn)

theorem takeWhile_eq (h : Boundary p a i n) :
    (a.toList.drop i).takeWhile p = (a.toList.drop i).take (n - i) := by
  rw [List.takeWhile_eq_take_findIdx_not]
  congr 1
  have hle := h.le
  have hsz := h.le_size
  have hlen : (a.toList.drop i).length = a.size - i := by simp
  rcases Nat.eq_or_lt_of_le hsz with heq | hlt
  · rw [List.findIdx_eq_length.mpr, hlen, heq]
    intro x hx
    obtain ⟨k, hk, rfl⟩ := List.getElem_of_mem hx
    rw [hlen] at hk
    have := h.passes (i + k) (by omega) (by omega) (by omega)
    simpa using this
  · rw [List.findIdx_eq (by omega)]
    refine ⟨?_, fun k hk => ?_⟩
    · have := h.fails hlt
      have hin : i + (n - i) = n := by omega
      simpa [hin] using this
    · have := h.passes (i + k) (by omega) (by omega) (by omega)
      simpa using this

theorem dropWhile_eq (h : Boundary p a i n) :
    (a.toList.drop i).dropWhile p = a.toList.drop n := by
  have hsplit := List.takeWhile_append_dropWhile (p := p) (l := a.toList.drop i)
  rw [h.takeWhile_eq] at hsplit
  have htake := List.take_append_drop (n - i) (a.toList.drop i)
  have hin : i + (n - i) = n := by have := h.le; omega
  rw [← hin, ← List.drop_drop]
  exact List.append_cancel_left (hsplit.trans htake.symm)

theorem take_eq (h : Boundary p a i n) :
    a.toList.take n = a.toList.take i ++ (a.toList.drop i).takeWhile p := by
  have hin : i + (n - i) = n := by have := h.le; omega
  rw [h.takeWhile_eq, ← List.take_add, hin]

end Boundary

end Roaring
