import Roaring.Proofs.Search

/-!
# Arrays split at a place

An edit of an array at one index is an edit of a list where it is split: what comes before stays,
and what comes after loses, changes or is given a first element. A search in a sorted array finds
the place that splits it by the test.
-/
namespace Roaring

variable {α : Type}

/-- The elements before index `i` and those from it on. -/
structure Split (a : Array α) (i : Nat) (before after : List α) : Prop where
  eq : a.toList = before ++ after
  length : before.length = i

namespace Split

variable {a : Array α} {i : Nat} {before after : List α} {x : α}

theorem zero (a : Array α) : Split a 0 [] a.toList := ⟨rfl, rfl⟩

theorem at_le (h : i ≤ a.size) : Split a i (a.toList.take i) (a.toList.drop i) :=
  ⟨(List.take_append_drop i a.toList).symm, by simpa using Nat.min_eq_left h⟩

theorem getElem?_eq (h : Split a i before after) : a[i]? = after.head? := by
  rw [← Array.getElem?_toList, h.eq, ← h.length, List.getElem?_append_right (Nat.le_refl _),
    Nat.sub_self, List.head?_eq_getElem?]

theorem getElem?_add (h : Split a i before after) (n : Nat) : a[i + n]? = after[n]? := by
  rw [← Array.getElem?_toList, h.eq, ← h.length, List.getElem?_append_right (Nat.le_add_right _ _),
    Nat.add_sub_cancel_left]

theorem exists_cons_of_getElem? (h : Split a i before after) (hx : a[i]? = some x) :
    ∃ rest, after = x :: rest :=
  List.head?_eq_some_iff.mp (h.getElem?_eq.symm.trans hx)

/-- Before the end of the array, what comes after starts with the element there. -/
theorem exists_cons (h : Split a i before after) (hi : i < a.size) :
    ∃ rest, after = a[i] :: rest :=
  h.exists_cons_of_getElem? (Array.getElem?_eq_getElem hi)

theorem eq_nil (h : Split a i before after) (hi : ¬i < a.size) : after = [] := by
  have hhead := h.getElem?_eq
  rw [Array.getElem?_eq_none (Nat.le_of_not_lt hi)] at hhead
  exact List.head?_eq_none_iff.mp hhead.symm

theorem getElem?_cons (h : Split a i before (x :: after)) : a[i]? = some x := h.getElem?_eq

theorem getElem_eq (h : Split a i before (x :: after)) (hi : i < a.size) : a[i] = x := by
  have hhead := h.getElem?_cons
  rw [Array.getElem?_eq_getElem hi] at hhead
  exact Option.some.inj hhead

theorem lt_size (h : Split a i before (x :: after)) : i < a.size :=
  (Array.getElem?_eq_some_iff.mp h.getElem?_cons).1

theorem not_lt_size (h : Split a i before []) : ¬i < a.size := fun hi =>
  (h.exists_cons hi).elim fun _ he => nomatch he

/-- The same array split one element later. -/
theorem next (h : Split a i before (x :: after)) : Split a (i + 1) (before ++ [x]) after :=
  ⟨by rw [h.eq, List.append_assoc, List.singleton_append], by simp [h.length]⟩

theorem le_size (h : Split a i before after) : i ≤ a.size := by
  rw [← Array.length_toList, h.eq, ← h.length, List.length_append]
  omega

theorem set_eq (h : Split a i before (x :: after)) (y : α) :
    a.toList.set i y = before ++ y :: after := by
  rw [h.eq, ← h.length, List.set_append_right _ _ (Nat.le_refl _), Nat.sub_self,
    List.set_cons_zero]

theorem eraseIdx_eq (h : Split a i before (x :: after)) :
    a.toList.eraseIdx i = before ++ after := by
  rw [h.eq, ← h.length, List.eraseIdx_append_of_length_le (Nat.le_refl _), Nat.sub_self,
    List.eraseIdx_cons_zero]

theorem insertIdx_eq (h : Split a i before after) (y : α) :
    a.toList.insertIdx i y = before ++ y :: after := by
  rw [h.eq, ← h.length]
  clear h
  induction before with
  | nil => rfl
  | cons b before ih => exact congrArg (b :: ·) ih

theorem toList_take (h : Split a i before after) : (a.take i).toList = before := by
  have htake : (a.take i).toList = a.toList.take i := by simp
  rw [htake, h.eq, ← h.length, List.take_left]

theorem drop_eq (h : Split a i before after) : a.toList.drop i = after := by
  rw [h.eq, ← h.length, List.drop_left]

theorem extract_eq (h : Split a i before after) : a.extract i a.size = after.toArray := by
  refine Array.toList_inj.mp ?_
  rw [Array.toList_extract, List.extract_eq_take_drop, h.drop_eq, ← h.drop_eq]
  exact List.take_of_length_le (by simp)

theorem toList_drop (h : Split a i before after) : (a.drop i).toList = after := by
  rw [Array.drop_eq_extract, h.extract_eq]

theorem toList_set (h : Split a i before (x :: after)) (y : α) :
    (a.setIfInBounds i y).toList = before ++ y :: after := by
  rw [Array.toList_setIfInBounds, h.set_eq]

theorem toList_erase (h : Split a i before (x :: after)) :
    (a.eraseIdxIfInBounds i).toList = before ++ after := by
  rw [Array.toList_eraseIdxIfInBounds, h.eraseIdx_eq]

theorem toList_insert (h : Split a i before after) (y : α) :
    (a.insertIdxIfInBounds i y).toList = before ++ y :: after := by
  rw [Array.insertIdxIfInBounds, dif_pos h.le_size, Array.toList_insertIdx, h.insertIdx_eq]

/-- The same array split one element earlier. -/
theorem prev (h : Split a i (before ++ [x]) after) : Split a (i - 1) before (x :: after) :=
  ⟨by rw [h.eq, List.append_assoc, List.singleton_append], by simp [← h.length]⟩

end Split

/-! ## One element changed -/

theorem modify_eq_set {a : Array α} {i : Nat} (h : i < a.size) (f : α → α) :
    a.modify i f = a.set i (f a[i]) := by
  rw [Array.modify, Array.modifyM, dif_pos h]
  rfl

theorem forall_mem_modify {p : α → Prop} {f : α → α} {l : List α} (h : ∀ x ∈ l, p x)
    (hf : ∀ x ∈ l, p (f x)) (i : Nat) : ∀ x ∈ l.modify i f, p x := by
  intro x hx
  obtain ⟨j, hj⟩ := List.mem_iff_getElem?.mp hx
  rw [List.getElem?_modify] at hj
  obtain ⟨y, hy, rfl⟩ := Option.map_eq_some_iff.mp hj
  have hmem := List.mem_of_getElem? hy
  split
  · exact hf y hmem
  · exact h y hmem

/-- What a change does not touch stays the same along the list. -/
theorem map_modify_of_eq {β : Type} {g : α → β} {f : α → α} (hf : ∀ x, g (f x) = g x) (l : List α)
    (i : Nat) : (l.modify i f).map g = l.map g := by
  refine List.ext_getElem? fun j => ?_
  rw [List.getElem?_map, List.getElem?_map, List.getElem?_modify]
  cases l[j]? with
  | none => rfl
  | some x =>
    simp only [Option.map_eq_map, Option.map_some]
    split
    · rw [hf]
    · rfl

/-! ## Search -/

/-- Where the elements that pass come first, counting them splits the array by the test. -/
theorem split_countWhile {p : α → Bool} {a : Array α} (h : PassFirst p a 0) :
    ∃ before after, Split a (countWhile p a) before after ∧ (∀ x ∈ before, p x) ∧
      ∀ x ∈ after, p x = false := by
  have hb := countWhile_boundary h
  refine ⟨_, _, .at_le hb.le_size, fun x hx => ?_, fun x hx => ?_⟩
  · obtain ⟨k, hk, rfl⟩ := List.getElem_of_mem hx
    rw [List.length_take, Array.length_toList] at hk
    simpa using hb.passes k (by omega) (Nat.zero_le k) (by omega)
  · obtain ⟨k, hk, rfl⟩ := List.getElem_of_mem hx
    rw [List.length_drop, Array.length_toList] at hk
    rw [List.getElem_drop, Array.getElem_toList, Bool.eq_false_iff]
    intro hp
    have hn : countWhile p a < a.size := by omega
    have := h _ _ hn (by omega) (Nat.zero_le _) (Nat.le_add_right _ k) hp
    rw [hb.fails hn] at this
    cases this

end Roaring
