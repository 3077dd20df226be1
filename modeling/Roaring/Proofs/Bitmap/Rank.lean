import Roaring.Proofs.Bitmap.Query

/-!
# Rank and select

The rank of a value counts the stored values up to it, and selection reads the ascending list of the
values by position. On one ascending list the two undo one another, whether the list is that of a
container or of a whole bitmap, whose entries are gone through until the key or the position is
reached.
-/
namespace Roaring

/-! ## Ascending lists -/

section Ascending

variable {α : Type} [LT α] [LE α] [DecidableLE α]

/-- `rank` counts the values of an ascending list up to any value, `select` reads the list by
position, and each undoes the other. -/
structure Ranked (vs : List α) (card : Nat) (rank : α → Nat) (select : Nat → Option α) : Prop where
  ascending : vs.Pairwise (· < ·)
  card_eq : card = vs.length
  rank_eq : ∀ x, rank x = vs.countP (· ≤ x)
  select_eq : ∀ n, select n = vs[n]?
  select_eq_none : ∀ n, card ≤ n → select n = none
  rank_select : ∀ n < card, ∃ x, select n = some x ∧ rank x = n + 1
  select_rank : ∀ x ∈ vs, 0 < rank x ∧ select (rank x - 1) = some x

variable [Std.IsLinearOrder α] [Std.LawfulOrderLT α]

theorem countP_le_eq_zero {vs : List α} {x : α} (h : ∀ v ∈ vs, x < v) :
    vs.countP (· ≤ x) = 0 :=
  List.countP_eq_zero.mpr fun v hv => by simpa using Std.not_le.mpr (h v hv)

/-- In an ascending list, the values up to the one at position `n` are those of the positions up to
`n`. -/
theorem countP_le_getElem {vs : List α} (h : vs.Pairwise (· < ·)) {n : Nat} {x : α}
    (hx : vs[n]? = some x) : vs.countP (· ≤ x) = n + 1 := by
  induction vs generalizing n with
  | nil => cases hx
  | cons v vs ih =>
    obtain ⟨hlt, hvs⟩ := List.pairwise_cons.mp h
    cases n with
    | zero =>
      obtain rfl : v = x := Option.some.inj hx
      rw [List.countP_cons_of_pos (by simp), countP_le_eq_zero hlt]
    | succ n =>
      have hmem : x ∈ vs := List.mem_of_getElem? hx
      have hle : v ≤ x := Std.le_of_lt (hlt x hmem)
      rw [List.countP_cons_of_pos (by simpa using hle), ih hvs hx]

theorem Ranked.of_ascending {vs : List α} {card : Nat} {rank : α → Nat} {select : Nat → Option α}
    (ascending : vs.Pairwise (· < ·)) (hcard : card = vs.length)
    (hrank : ∀ x, rank x = vs.countP (· ≤ x)) (hselect : ∀ n, select n = vs[n]?) :
    Ranked vs card rank select where
  ascending := ascending
  card_eq := hcard
  rank_eq := hrank
  select_eq := hselect
  select_eq_none n hn := by rw [hselect, List.getElem?_eq_none (hcard ▸ hn)]
  rank_select n hn := by
    obtain ⟨x, hx⟩ : ∃ x, vs[n]? = some x := ⟨_, List.getElem?_eq_getElem (hcard ▸ hn)⟩
    exact ⟨x, (hselect n).trans hx, (hrank x).trans (countP_le_getElem ascending hx)⟩
  select_rank x hx := by
    obtain ⟨n, hn⟩ := List.mem_iff_getElem?.mp hx
    rw [hselect, hrank, countP_le_getElem ascending hn]
    exact ⟨Nat.succ_pos n, hn⟩

end Ascending

/-! ## Containers -/

theorem Container.ranked {c : Container} (h : c.Valid) :
    Ranked c.values.toList c.card c.rank c.select :=
  .of_ascending (increasing_values h) (card_eq_size h) (rank_eq h) (select_eq c)

/-! ## Bitmaps -/

namespace Bitmap

theorem joinHalves_le_iff {key low : UInt16} {v : UInt32} :
    joinHalves key low ≤ v ↔ key < highHalf v ∨ key = highHalf v ∧ low ≤ lowHalf v := by
  have hlow := low.toNat_lt
  rw [UInt32.le_iff_toNat_le, UInt16.lt_iff_toNat_lt, UInt16.le_iff_toNat_le, ← UInt16.toNat_inj,
    toNat_joinHalves, toNat_highHalf, toNat_lowHalf]
  omega

/-- The values of an entry up to `v`, by the place of its key. -/
theorem countP_entryValues {e : Entry} (h : e.container.Valid) (v : UInt32) :
    (entryValues e).countP (· ≤ v) =
      if e.key < highHalf v then e.container.card
      else if e.key = highHalf v then e.container.rank (lowHalf v) else 0 := by
  rw [entryValues, List.countP_map]
  split_ifs with hlt heq
  · rw [Container.card_eq_size h, ← Array.length_toList, List.countP_eq_length]
    exact fun low _ => decide_eq_true (joinHalves_le_iff.mpr (.inl hlt))
  · rw [Container.rank_eq h]
    refine List.countP_congr fun low _ => ?_
    simp [joinHalves_le_iff, heq]
  · rw [List.countP_eq_zero]
    simp [joinHalves_le_iff, hlt, heq]

/-- Nothing up to `v` lies under keys above its own. -/
theorem countP_above {es : List Entry} {v : UInt32} (h : ∀ e ∈ es, highHalf v < e.key) :
    (es.flatMap entryValues).countP (· ≤ v) = 0 := by
  refine countP_le_eq_zero fun w hw => ?_
  obtain ⟨e, he, hw⟩ := List.mem_flatMap.mp hw
  have hkey := h e he
  rw [(mem_entryValues.mp hw).1] at hkey
  rw [← joinHalves_halves v, ← joinHalves_halves w]
  exact joinHalves_lt_of_key hkey

theorem rankFrom_eq {es : List Entry} (h : Index.Sound es) (v : UInt32) (n : Nat) :
    rankFrom v es n = n + (es.flatMap entryValues).countP (· ≤ v) := by
  induction es generalizing n with
  | nil => rfl
  | cons e es ih =>
    obtain ⟨hvalid, -, hlt, hes⟩ := Index.sound_cons.mp h
    rw [rankFrom, List.flatMap_cons, List.countP_append, countP_entryValues hvalid]
    split_ifs with hbelow hat
    · rw [ih hes, Nat.add_assoc]
    · rw [countP_above (hat ▸ hlt), Nat.add_zero]
    · have habove : highHalf v < e.key := by grind
      rw [countP_above fun f hf => UInt16.lt_trans habove (hlt f hf), Nat.add_zero]

theorem selectFrom_eq {es : List Entry} (h : ∀ e ∈ es, e.container.Valid) (n : Nat) :
    selectFrom es n = (es.flatMap entryValues)[n]? := by
  induction es generalizing n with
  | nil => rfl
  | cons e es ih =>
    obtain ⟨hvalid, hes⟩ := List.forall_mem_cons.mp h
    rw [selectFrom, List.flatMap_cons, List.getElem?_append, length_entryValues hvalid, ih hes,
      entryValues, List.getElem?_map, Container.select_eq]

theorem ranked {b : Bitmap} (h : b.WellFormed) :
    Ranked b.values.toList b.card b.rank b.select := by
  have hsound := wellFormed_iff.mp h
  refine .of_ascending (pairwise_values h) (card_eq_length h) (fun v => ?_) fun n => ?_
  · rw [rank, rankFrom_eq hsound, toList_values, Nat.zero_add]
  · rw [select, selectFrom_eq hsound.valid, toList_values]

end Bitmap

/-- Rank and selection are exact and undo one another, in every valid container, counted or not,
and in every well formed bitmap. -/
theorem ranked_containers_and_bitmaps :
    (∀ c : Container, c.Valid → Ranked c.values.toList c.card c.rank c.select) ∧
      ∀ b : Bitmap, b.WellFormed → Ranked b.values.toList b.card b.rank b.select :=
  ⟨fun _ => Container.ranked, fun _ => Bitmap.ranked⟩

/-- An uncounted bitset, and a bitmap whose position 2 lies under its second key. -/
theorem ranked_containers_and_bitmaps_two_keys :
    (∃ v, (Container.bitset (.uncounted (Words.empty.putAll #[3, 9]).1)).select 0 = some v ∧
      (Container.bitset (.uncounted (Words.empty.putAll #[3, 9]).1)).rank v = 1) ∧
      (⟨.standard, #[⟨0, .array #[3, 7]⟩, ⟨2, .run #[⟨5, 1⟩]⟩]⟩ : Bitmap).select 2 =
        some 131077 ∧
      (⟨.standard, #[⟨0, .array #[3, 7]⟩, ⟨2, .run #[⟨5, 1⟩]⟩]⟩ : Bitmap).rank 131077 = 3 := by
  have hbitset : (Container.bitset (.uncounted (Words.empty.putAll #[3, 9]).1)).Valid :=
    Bitset.exact_uncounted _
  have hbitmap :
      (⟨.standard, #[⟨0, .array #[3, 7]⟩, ⟨2, .run #[⟨5, 1⟩]⟩]⟩ : Bitmap).WellFormed := by decide
  obtain ⟨containers, bitmaps⟩ := ranked_containers_and_bitmaps
  refine ⟨(containers _ hbitset).rank_select 0 ?_, ?_⟩
  · have hmem : 3 ∈ Container.bitset (.uncounted (Words.empty.putAll #[3, 9]).1) := by
      rw [Container.mem_bitset, Bitset.uncounted, (Words.putAll_spec _ _).1]
      simp
    rw [(containers _ hbitset).card_eq]
    exact List.length_pos_of_mem (Container.mem_values.mpr hmem)
  · have hranked := bitmaps _ hbitmap
    have hselect : Bitmap.select _ 2 = some 131077 := (hranked.select_eq 2).trans (by decide)
    obtain ⟨x, hx, hrank⟩ := hranked.rank_select 2 (by decide)
    obtain rfl : x = 131077 := Option.some.inj (hx.symm.trans hselect)
    exact ⟨hselect, hrank⟩

end Roaring
