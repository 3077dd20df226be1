import Roaring.Proofs.Bitmap.Alter

/-!
# Indexes as maps

A sorted index is a finite map from keys to containers: what it looks up are its entries, a change
at a key shows under that key alone, and two indexes that look up the same are one.
-/
namespace Roaring

/-- Whether what is held for a key has a lower half. -/
def HeldBy (held : Option Container) (low : UInt16) : Prop := ∃ c, held = some c ∧ low ∈ c

@[simp] theorem heldBy_none {low : UInt16} : ¬HeldBy none low := fun ⟨_, h, _⟩ => nomatch h

@[simp] theorem heldBy_some {c : Container} {low : UInt16} : HeldBy (some c) low ↔ low ∈ c := by
  simp [HeldBy]

namespace Index

variable {es fs : Array Entry} {k key low : UInt16} {c : Container}

/-- The order of the keys. -/
def Increasing (es : Array Entry) : Prop := es.toList.Pairwise fun x y => x.key < y.key

/-! ## Entries and places -/

theorem Around.mem_iff {es before after : List Entry} {held : Option Container}
    (h : Around k es before held after) : ⟨k, c⟩ ∈ es ↔ held = some c := by
  rw [h.eq]
  constructor
  · intro hmem
    rcases List.mem_append.mp hmem with hmem | hafter
    · rcases List.mem_append.mp hmem with hbefore | hmid
      · exact absurd (h.lt _ hbefore) (UInt16.lt_irrefl k)
      · obtain ⟨c', hc', he⟩ := mem_entriesAt.mp hmid
        cases he
        exact hc'
    · exact absurd (h.gt _ hafter) (UInt16.lt_irrefl k)
  · rintro rfl
    simp [entriesAt]

theorem Around.mem_iff_of_ne {es before after : List Entry} {held : Option Container}
    (h : Around k es before held after) (hne : key ≠ k) :
    ⟨key, c⟩ ∈ es ↔ ⟨key, c⟩ ∈ before ∨ ⟨key, c⟩ ∈ after := by
  have hmid : ¬⟨key, c⟩ ∈ entriesAt k held := by
    intro hmem
    obtain ⟨c', -, he⟩ := mem_entriesAt.mp hmem
    cases he
    exact hne rfl
  rw [h.eq, List.mem_append, List.mem_append, or_iff_left hmid]

/-- What a key looks up is its entry. -/
theorem get?_eq_some_iff (h : Increasing es) : get? es k = some c ↔ ⟨k, c⟩ ∈ es.toList := by
  obtain ⟨before, after, hsplit, -⟩ := alter_spec h k
  exact hsplit.mem_iff.symm

theorem holds_iff_get? (h : Increasing es) :
    Holds es.toList key low ↔ HeldBy (get? es key) low := by
  constructor
  · rintro ⟨⟨k, c⟩, he, rfl, hlow⟩
    exact ⟨c, (get?_eq_some_iff h).mpr he, hlow⟩
  · rintro ⟨c, hc, hlow⟩
    exact ⟨⟨key, c⟩, (get?_eq_some_iff h).mp hc, rfl, hlow⟩

/-- An entry of the key stands at its place, even where the order is broken. -/
theorem exists_of_find? {i : Nat} (h : find? es k = some i) : ∃ c, es[i]? = some ⟨k, c⟩ := by
  simp only [find?] at h
  split at h
  · rename_i hkey
    obtain rfl := Option.some.inj h
    obtain ⟨⟨key, c⟩, he, hk⟩ := (Option.any_eq_true _ _).mp hkey
    obtain rfl : key = k := by simpa using hk
    exact ⟨c, he⟩
  · cases h

/-- The place of a key is that of its entry. -/
theorem find?_eq_some_iff (h : Increasing es) {i : Nat} :
    find? es k = some i ↔ ∃ c, es[i]? = some ⟨k, c⟩ := by
  constructor
  · exact exists_of_find?
  · rintro ⟨c, hc⟩
    obtain ⟨before, after, hs, hlt, hge⟩ := split_lowerBound h k
    -- neither the smaller keys nor the larger ones have the entry, so it is the first of the rest
    have hi : i = lowerBound es k := by
      have hsorted : (before ++ after).Pairwise fun x y => x.key < y.key := hs.eq ▸ h
      rw [← Array.getElem?_toList, hs.eq] at hc
      rcases Nat.lt_trichotomy i before.length with hlo | heq | hhi
      · rw [List.getElem?_append_left hlo] at hc
        exact absurd (hlt _ (List.mem_of_getElem? hc)) (UInt16.lt_irrefl k)
      · exact heq.trans hs.length
      · rw [List.getElem?_append_right (Nat.le_of_lt hhi)] at hc
        cases after with
        | nil => simp at hc
        | cons e rest =>
          obtain ⟨n, hn⟩ : ∃ n, i - before.length = n + 1 := ⟨i - before.length - 1, by omega⟩
          rw [hn, List.getElem?_cons_succ] at hc
          have hrest := (List.pairwise_cons.mp (List.pairwise_append.mp hsorted).2.1).1
          have hgt := hrest _ (List.mem_of_getElem? hc)
          exact absurd hgt (UInt16.not_lt.mpr (hge e List.mem_cons_self))
    subst hi
    simp [find?, hc]

/-! ## A change at a key -/

theorem Increasing.alter (h : Increasing es) (k : UInt16)
    (f : Option Container → Option Container) : Increasing (alter es k f) :=
  (Keeps.alter (P := fun _ => True) ⟨h, by simp⟩ (by simp)).sorted

/-- A change shows under its key alone. -/
theorem get?_alter (h : Increasing es) (k : UInt16) (f : Option Container → Option Container)
    (key : UInt16) : get? (alter es k f) key = if key = k then f (get? es k) else get? es key := by
  obtain ⟨before, after, hsplit, halter⟩ := alter_spec h k
  apply Option.ext
  intro c
  rw [get?_eq_some_iff (h.alter k f)]
  by_cases hkey : key = k
  · rw [if_pos hkey, hkey]
    exact (halter f).mem_iff
  · rw [if_neg hkey, (halter f).mem_iff_of_ne hkey, get?_eq_some_iff h,
      hsplit.mem_iff_of_ne hkey]

theorem holds_alter (h : Increasing es) (k : UInt16) (f : Option Container → Option Container) :
    Holds (alter es k f).toList key low ↔
      if key = k then HeldBy (f (get? es k)) low else Holds es.toList key low := by
  rw [holds_iff_get? (h.alter k f), get?_alter h, holds_iff_get? h]
  split <;> rfl

/-! ## Extensionality -/

/-- Sorted indexes that look up the same have the same entries. -/
theorem ext_get? (he : Increasing es) (hf : Increasing fs) (h : ∀ k, get? es k = get? fs k) :
    es = fs := by
  have hirrefl : Std.Irrefl fun x y : Entry => x.key < y.key := ⟨fun e => UInt16.lt_irrefl e.key⟩
  apply Array.ext'
  refine List.Pairwise.eq_of_mem_iff he hf ?_
  intro ⟨k, c⟩
  rw [← get?_eq_some_iff he, ← get?_eq_some_iff hf, h k]

/-- Two changes at one key are one. -/
theorem alter_alter (h : Increasing es) (k : UInt16) (f g : Option Container → Option Container) :
    alter (alter es k f) k g = alter es k fun held => g (f held) := by
  refine ext_get? ((h.alter k f).alter k g) (h.alter k _) ?_
  intro key
  rw [get?_alter (h.alter k f), get?_alter h, get?_alter h]
  by_cases hkey : key = k
  · simp [hkey, get?_alter h]
  · simp [hkey, get?_alter h]

/-- To hold for a key what is held already changes nothing. -/
theorem alter_eq_self (h : Increasing es) {f : Option Container → Option Container}
    (hf : f (get? es k) = get? es k) : alter es k f = es := by
  refine ext_get? (h.alter k f) h ?_
  intro key
  rw [get?_alter h]
  split
  · rename_i hkey
    rw [hkey, hf]
  · rfl

end Index

theorem Bitmap.WellFormed.increasing {b : Bitmap} (h : b.WellFormed) :
    Index.Increasing b.entries := h.1

end Roaring
