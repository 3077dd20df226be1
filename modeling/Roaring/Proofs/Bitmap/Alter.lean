import Roaring.Proofs.Bitmap.Combine
import Roaring.Proofs.Split

/-!
# Indexes changed at a key

A sorted index splits around any key into the smaller keys, what it holds for the key, and the
larger keys. `alter` changes the part in the middle, so it keeps the order, and all that it brings
in is what it was asked to hold.
-/
namespace Roaring.Index

/-- Increasing keys, each with a container of some kind. -/
structure Keeps (P : Container → Prop) (es : List Entry) : Prop where
  sorted : es.Pairwise fun x y => x.key < y.key
  kept : ∀ e ∈ es, P e.container

/-- What an index holds for a key, as a list of at most one entry. -/
def entriesAt (k : UInt16) (held : Option Container) : List Entry := held.toList.map (Entry.mk k)

/-- An index split around a key. -/
structure Around (k : UInt16) (es before : List Entry) (held : Option Container)
    (after : List Entry) : Prop where
  eq : es = before ++ entriesAt k held ++ after
  lt : ∀ e ∈ before, e.key < k
  gt : ∀ e ∈ after, k < e.key

theorem mem_entriesAt {k : UInt16} {held : Option Container} {e : Entry} :
    e ∈ entriesAt k held ↔ ∃ c, held = some c ∧ e = ⟨k, c⟩ := by
  cases held <;> simp [entriesAt]

theorem split_lowerBound {es : Array Entry} (h : es.toList.Pairwise fun x y => x.key < y.key)
    (k : UInt16) :
    ∃ before after, Split es (lowerBound es k) before after ∧ (∀ e ∈ before, e.key < k) ∧
      ∀ e ∈ after, k ≤ e.key := by
  obtain ⟨before, after, hs, hlt, hge⟩ := split_countWhile (passFirst_key (i := 0) h k)
  refine ⟨before, after, hs, fun e he => by simpa using hlt e he, fun e he => ?_⟩
  exact UInt16.not_lt.mp (by simpa using hge e he)

/-- The place of a key that is there, and what comes around it. -/
theorem around_of_mem {es : Array Entry} {k : UInt16} {before rest : List Entry} {c : Container}
    (hs : Split es (lowerBound es k) before (⟨k, c⟩ :: rest)) :
    get? es k = some c ∧
      ∀ f, (alter es k f).toList = before ++ entriesAt k (f (some c)) ++ rest := by
  have hat : es[lowerBound es k]? = some ⟨k, c⟩ := hs.getElem?_eq
  have hfind : find? es k = some (lowerBound es k) := by simp [find?, hat]
  refine ⟨by simp [get?, hfind, hat], fun f => ?_⟩
  simp only [alter, hfind, hat, Option.map_some]
  cases f (some c) with
  | none => simpa [entriesAt] using hs.toList_erase
  | some c' => simpa [entriesAt] using hs.toList_set ⟨k, c'⟩

/-- The place for a key that is absent, and what comes around it. -/
theorem around_of_not_mem {es : Array Entry} {k : UInt16} {before after : List Entry}
    (hs : Split es (lowerBound es k) before after) (hne : ∀ e ∈ after, e.key ≠ k) :
    get? es k = none ∧ ∀ f, (alter es k f).toList = before ++ entriesAt k (f none) ++ after := by
  have hfind : find? es k = none := by
    have hnot : ¬after.head?.any (·.key = k) := by
      cases after with
      | nil => simp
      | cons e rest => simpa using hne e List.mem_cons_self
    simp only [find?, hs.getElem?_eq, if_neg hnot]
  refine ⟨by simp [get?, hfind], fun f => ?_⟩
  simp only [alter, hfind]
  cases f none with
  | none => simpa [entriesAt] using hs.eq
  | some c => simpa [entriesAt] using hs.toList_insert ⟨k, c⟩

/-- The lookup of a key and a change at it, on a sorted index. -/
theorem alter_spec {es : Array Entry} (h : es.toList.Pairwise fun x y => x.key < y.key)
    (k : UInt16) :
    ∃ before after, Around k es.toList before (get? es k) after ∧
      ∀ f, Around k (alter es k f).toList before (f (get? es k)) after := by
  obtain ⟨before, after, hs, hlt, hge⟩ := split_lowerBound h k
  have hsorted : (before ++ after).Pairwise fun x y => x.key < y.key := hs.eq ▸ h
  have hafter := (List.pairwise_append.mp hsorted).2.1
  by_cases hmem : ∃ e ∈ after, e.key = k
  · obtain ⟨e, he, hkey⟩ := hmem
    cases after with
    | nil => cases he
    | cons x rest =>
      obtain ⟨hgt, -⟩ := List.pairwise_cons.mp hafter
      have hx : e = x := by
        rcases List.mem_cons.mp he with rfl | he
        · rfl
        · exact absurd (hkey ▸ hgt e he) (UInt16.not_lt.mpr (hge x List.mem_cons_self))
      subst hx hkey
      obtain ⟨hget, halter⟩ := around_of_mem hs
      rw [hget]
      exact ⟨before, rest, ⟨by rw [hs.eq]; simp [entriesAt], hlt, hgt⟩,
        fun f => ⟨halter f, hlt, hgt⟩⟩
  · have hne : ∀ e ∈ after, e.key ≠ k := fun e he hkey => hmem ⟨e, he, hkey⟩
    have hgt : ∀ e ∈ after, k < e.key := fun e he =>
      UInt16.lt_of_le_of_ne (hge e he) fun heq => hne e he heq.symm
    obtain ⟨hget, halter⟩ := around_of_not_mem hs hne
    rw [hget]
    exact ⟨before, after, ⟨by rw [hs.eq]; simp [entriesAt], hlt, hgt⟩,
      fun f => ⟨halter f, hlt, hgt⟩⟩

/-! ## What a change keeps -/

theorem Sound.keeps {es : List Entry} (h : Sound es) : Keeps Container.Valid es :=
  ⟨h.sorted, h.valid⟩

variable {P : Container → Prop} {es : Array Entry} {k : UInt16}

theorem Keeps.get? (h : Keeps P es.toList) {c : Container} (hc : get? es k = some c) : P c := by
  obtain ⟨before, after, hspec, -⟩ := alter_spec h.sorted k
  refine h.kept ⟨k, c⟩ ?_
  rw [hspec.eq, hc]
  simp [entriesAt]

/-- A change at a key keeps an index as it should be when it brings in a proper container. -/
theorem Keeps.alter (h : Keeps P es.toList) {f : Option Container → Option Container}
    (hf : ∀ c, f (Index.get? es k) = some c → P c) : Keeps P (alter es k f).toList := by
  obtain ⟨before, after, ⟨heq, hlt, hgt⟩, halter⟩ := alter_spec h.sorted k
  obtain ⟨hsorted, hkept⟩ := h
  rw [heq] at hsorted hkept
  obtain ⟨hleft, hafter, -⟩ := List.pairwise_append.mp hsorted
  have hbefore := (List.pairwise_append.mp hleft).1
  rw [(halter f).eq]
  constructor
  · rw [List.append_assoc, List.pairwise_append]
    have hkey : ∀ {held e}, e ∈ entriesAt k held → e.key = k := fun he => by
      obtain ⟨c, -, rfl⟩ := mem_entriesAt.mp he
      rfl
    have hmid : (entriesAt k (f (Index.get? es k)) ++ after).Pairwise fun x y => x.key < y.key := by
      refine sorted_append ?_ hafter (fun e he => hkey he) hgt
      cases f (Index.get? es k) <;> simp [entriesAt]
    refine ⟨hbefore, hmid, fun x hx y hy => ?_⟩
    rcases List.mem_append.mp hy with hy | hy
    · exact hkey hy ▸ hlt x hx
    · exact UInt16.lt_trans (hlt x hx) (hgt y hy)
  · intro e he
    rcases List.mem_append.mp he with he | he
    · rcases List.mem_append.mp he with he | he
      · exact hkept e (List.mem_append_left _ (List.mem_append_left _ he))
      · obtain ⟨c, hc, rfl⟩ := mem_entriesAt.mp he
        exact hf c hc
    · exact hkept e (List.mem_append_right _ he)

end Roaring.Index
