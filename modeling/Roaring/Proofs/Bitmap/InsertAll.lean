import Roaring.Proofs.Bitmap.Single
import Roaring.Proofs.Checked.Bitmap.Update

/-!
# Lists of values added

The place that is remembered between two values of a list is the one that a search for its key would
find, so that a list is added as its values are, one by one. Bitmaps made by adding values have no
runs, and without runs a bitmap that fits its thresholds is determined by its values.
-/
namespace Roaring

/-! ## The remembered place -/

namespace Index

variable {es : Array Entry} {k : UInt16} {i : Nat}

/-- At the place of its key a container is changed as by a change at the key. -/
theorem modify_eq_set (h : find? es k = some i) {c : Container} (hc : get? es k = some c)
    (f : Container → Container) :
    es.modify i (fun e => { e with container := f e.container }) =
      es.setIfInBounds i ⟨k, f c⟩ := by
  obtain ⟨c', he⟩ := exists_of_find? h
  obtain rfl : c' = c := by simpa [get?, h, he] using hc
  obtain ⟨hi, he⟩ := Array.getElem?_eq_some_iff.mp he
  rw [Roaring.modify_eq_set hi, he, Array.setIfInBounds, dif_pos hi]

theorem Increasing.modify (h : Increasing es) (i : Nat) (f : Container → Container) :
    Increasing (es.modify i fun e => { e with container := f e.container }) := by
  have hkeeps : Keeps (fun _ => True) es.toList := ⟨h, fun _ _ => trivial⟩
  rw [Increasing, Array.toList_modify]
  exact (hkeeps.modify (fun _ _ => trivial) i).sorted

/-- A change of a container leaves every key where it was. -/
theorem find?_modify (h : Increasing es) (i : Nat) (f : Container → Container) :
    find? (es.modify i fun e => { e with container := f e.container }) k = find? es k := by
  apply Option.ext
  intro j
  rw [find?_eq_some_iff (h.modify i f), find?_eq_some_iff h, Array.getElem?_modify]
  by_cases hij : i = j
  · rw [if_pos hij]
    constructor
    · rintro ⟨c, hc⟩
      obtain ⟨⟨key, c'⟩, he, heq⟩ := Option.map_eq_some_iff.mp hc
      cases heq
      exact ⟨c', he⟩
    · rintro ⟨c, hc⟩
      exact ⟨f c, by rw [hc, Option.map_some]⟩
  · rw [if_neg hij]

end Index

namespace Bitmap

variable {a b : Bitmap} {u v : UInt32}

theorem insertAt_eq {i : Nat} (h : Index.find? b.entries (highHalf v) = some i) :
    b.insertAt i (lowHalf v) = (b.insert v).2 := by
  obtain ⟨c, he⟩ := Index.exists_of_find? h
  have hget : Index.get? b.entries (highHalf v) = some c := by simp [Index.get?, h, he]
  have hset := Index.modify_eq_set h hget fun c => (c.insert b.thresholds (lowHalf v)).2
  rw [insertAt, insert, hget, hset]
  simp only [Index.alter, h]

/-- What is remembered is where a search for its key would end. -/
def Remembers (s : Bitmap × Option (UInt16 × Nat)) : Prop :=
  ∀ place ∈ s.2, Index.find? s.1.entries place.1 = some place.2

/-- One value is added as it would be alone, and the place of its key is remembered. -/
theorem insertNext_spec {s : Bitmap × Option (UInt16 × Nat)} (h : s.1.WellFormed)
    (hs : Remembers s) (v : UInt32) :
    (insertNext s v).1 = (s.1.insert v).2 ∧ Remembers (insertNext s v) := by
  obtain ⟨b, last⟩ := s
  cases hlast : last.filter (·.1 = highHalf v) with
  | some place =>
    obtain ⟨hmem, hkey⟩ := Option.filter_eq_some_iff.mp hlast
    obtain ⟨key, i⟩ := place
    obtain rfl : key = highHalf v := by simpa using hkey
    have hfind : Index.find? b.entries (highHalf v) = some i := hs (highHalf v, i) hmem
    have hnext : insertNext (b, last) v = (b.insertAt i (lowHalf v), last) := by
      simp only [insertNext, hlast]
    have hsame : (insertNext (b, last) v).1 = (b.insert v).2 := by rw [hnext, insertAt_eq hfind]
    refine ⟨hsame, ?_⟩
    rw [hnext]
    intro place hplace
    have hplaces := Index.find?_modify h.increasing i
      (fun c => (c.insert b.thresholds (lowHalf v)).2) (k := place.1)
    exact hplaces.trans (hs place hplace)
  | none =>
    have hnext : insertNext (b, last) v = ((b.insert v).2,
        (Index.find? (b.insert v).2.entries (highHalf v)).map (highHalf v, ·)) := by
      simp only [insertNext, hlast]
    have hsame : (insertNext (b, last) v).1 = (b.insert v).2 := by rw [hnext]
    refine ⟨hsame, ?_⟩
    rw [hnext]
    intro place hplace
    obtain ⟨i, hfind, rfl⟩ := Option.map_eq_some_iff.mp hplace
    exact hfind

theorem foldl_insertNext {s : Bitmap × Option (UInt16 × Nat)} (h : s.1.WellFormed)
    (hs : Remembers s) (vs : List UInt32) :
    (vs.foldl insertNext s).1 = vs.foldl (fun b v => (b.insert v).2) s.1 := by
  induction vs generalizing s with
  | nil => rfl
  | cons v vs ih =>
    obtain ⟨hstep, hnext⟩ := insertNext_spec h hs v
    have hwf : (insertNext s v).1.WellFormed := (h.kept.insertNext v).wellFormed
    rw [List.foldl_cons, List.foldl_cons, ih hwf hnext, hstep]

/-- The values of a list are added as they would be one by one. -/
theorem insertAll_eq (h : b.WellFormed) (vs : Array UInt32) :
    b.insertAll vs = vs.foldl (fun b v => (b.insert v).2) b := by
  have hnothing : Remembers (b, none) := by
    intro place hplace
    simp at hplace
  rw [insertAll, ← Array.foldl_toList, ← Array.foldl_toList]
  exact foldl_insertNext h hnothing vs.toList

/-! ## Bitmaps without runs -/

/-- A bitmap that fits its thresholds and has no runs. -/
structure Plain (b : Bitmap) : Prop where
  wellFormed : b.WellFormed
  fits : b.FitsUnder b.thresholds
  noRuns : ∀ key, (b.containerOf key).encoding ≠ .run

theorem plain_empty (t : Thresholds) : (empty t).Plain := by
  have hkept : (empty t).Kept True := kept_empty t
  obtain ⟨hwf, hfits⟩ := kept_iff.mp hkept
  exact ⟨hwf, hfits trivial, fun key => nofun⟩

theorem Plain.insert (h : b.Plain) (v : UInt32) : (b.insert v).2.Plain := by
  have hkept : b.Kept True := kept_iff.mpr ⟨h.wellFormed, fun _ => h.fits⟩
  obtain ⟨hwf, hfits⟩ := kept_iff.mp (hkept.insert v)
  refine ⟨hwf, hfits trivial, ?_⟩
  intro key
  have hc := valid_containerOf h.wellFormed (highHalf v)
  rw [insert_eq h.wellFormed]
  by_cases hkey : key = highHalf v
  · rw [hkey, containerOf_withContainer h.wellFormed (nonEmpty_insert b.thresholds hc _), Ne,
      Container.encoding_insert]
    exact h.noRuns (highHalf v)
  · rw [containerOf_withContainer_of_ne h.wellFormed hkey]
    exact h.noRuns key

theorem Plain.insertAll (h : b.Plain) (vs : Array UInt32) : (b.insertAll vs).Plain := by
  rw [insertAll_eq h.wellFormed]
  exact Array.foldl_induction (fun _ (b : Bitmap) => b.Plain) h fun i _ hb => hb.insert vs[i]

/-- Each container is an array or a bitset by the number of its values. -/
theorem Plain.encoding_eq (h : b.Plain) {e : Entry} (he : e ∈ b.entries) :
    e.container.encoding =
      if e.container.card ≤ b.thresholds.maxArraySize then .array else .bitset := by
  have hvalid := (h.wellFormed.2 e he).1
  have hrun : e.container.encoding ≠ .run := containerOf_key h.wellFormed he ▸ h.noRuns e.key
  rw [Container.card_eq_size hvalid]
  exact (Container.settled_of_fits hvalid (h.fits e he) hrun).encoding_eq hrun

/-- Without runs, the thresholds and the values determine the whole bitmap. -/
theorem Plain.eq_of_mem_iff (ha : a.Plain) (hb : b.Plain) (ht : a.thresholds = b.thresholds)
    (h : ∀ v, v ∈ a ↔ v ∈ b) : a = b := by
  have hcontainer : ∀ key, a.containerOf key = b.containerOf key := by
    intro key
    refine Container.eq_of_fits (valid_containerOf ha.wellFormed key)
      (valid_containerOf hb.wellFormed key) (fits_containerOf ha.wellFormed ha.fits key)
      (ht ▸ fits_containerOf hb.wellFormed hb.fits key)
      (iff_of_false (ha.noRuns key) (hb.noRuns key)) ?_
    intro low
    have hmem := h (joinHalves key low)
    rwa [← mem_containerOf ha.wellFormed, ← mem_containerOf hb.wellFormed, highHalf_joinHalves,
      lowHalf_joinHalves] at hmem
  have hentries : a.entries = b.entries := by
    refine Index.ext_get? ha.wellFormed.increasing hb.wellFormed.increasing ?_
    intro key
    rw [← nonEmpty_containerOf ha.wellFormed, ← nonEmpty_containerOf hb.wellFormed, hcontainer]
  cases a
  cases b
  cases ht
  cases hentries
  rfl

/-! ## Lists as sets -/

theorem mem_foldl_insert (h : b.WellFormed) (vs : List UInt32) :
    u ∈ vs.foldl (fun b v => (b.insert v).2) b ↔ u ∈ vs ∨ u ∈ b := by
  induction vs generalizing b with
  | nil => simp
  | cons v vs ih =>
    rw [List.foldl_cons, ih (h.insert v), mem_insert h, List.mem_cons]
    tauto

theorem mem_insertAll (h : b.WellFormed) (vs : Array UInt32) :
    u ∈ b.insertAll vs ↔ u ∈ vs ∨ u ∈ b := by
  rw [insertAll_eq h, ← Array.foldl_toList, mem_foldl_insert h, Array.mem_toList_iff]

theorem mem_insertAll_empty (t : Thresholds) (vs : Array UInt32) :
    u ∈ (empty t).insertAll vs ↔ u ∈ vs := by
  rw [mem_insertAll (plain_empty t).wellFormed]
  exact or_iff_left (Array.not_mem_empty u)

theorem mem_keys_insertAll_empty (t : Thresholds) (vs : Array UInt32) (key : UInt16) :
    key ∈ ((empty t).insertAll vs).keys ↔ ∃ v ∈ vs, highHalf v = key := by
  rw [mem_keys_iff ((plain_empty t).insertAll vs).wellFormed]
  simp only [mem_insertAll_empty]
  constructor
  · rintro ⟨low, hmem⟩
    exact ⟨_, hmem, highHalf_joinHalves key low⟩
  · rintro ⟨v, hmem, rfl⟩
    exact ⟨lowHalf v, by rwa [joinHalves_halves]⟩

/-- Lists of the same values, in whatever order and however often, make the same bitmap. -/
theorem insertAll_empty_congr (t : Thresholds) {vs ws : Array UInt32}
    (h : ∀ v, v ∈ vs ↔ v ∈ ws) : (empty t).insertAll vs = (empty t).insertAll ws := by
  refine ((plain_empty t).insertAll vs).eq_of_mem_iff ((plain_empty t).insertAll ws) ?_ ?_
  · rw [thresholds_insertAll, thresholds_insertAll]
  · intro v
    rw [mem_insertAll_empty, mem_insertAll_empty, h]

/-- Adding a list to a well formed bitmap, where no step fails, is adding its values one by one in
their order. What a list leaves in an empty bitmap with any thresholds has the keys of its values,
and under each an array or a bitset by their number, and is the same for every list of the same
values; so is the bitmap of a list. -/
theorem lists_added_as_sets :
    (∀ (b : Bitmap) (vs : Array UInt32), b.WellFormed →
      Checked.insertAll b vs = some (b.insertAll vs) ∧
        b.insertAll vs = vs.foldl (fun b v => (b.insert v).2) b) ∧
    (∀ (t : Thresholds) (vs : Array UInt32),
      (∀ v, v ∈ (empty t).insertAll vs ↔ v ∈ vs) ∧
        (∀ key, key ∈ ((empty t).insertAll vs).keys ↔ ∃ v ∈ vs, highHalf v = key) ∧
        ∀ e ∈ ((empty t).insertAll vs).entries, e.container.Valid ∧
          e.container.encoding =
            if e.container.card ≤ t.maxArraySize then .array else .bitset) ∧
    (∀ (t : Thresholds) (vs ws : Array UInt32), (∀ v, v ∈ vs ↔ v ∈ ws) →
      (empty t).insertAll vs = (empty t).insertAll ws) ∧
    ∀ vs ws : Array UInt32, (∀ v, v ∈ vs ↔ v ∈ ws) → ofValues vs = ofValues ws := by
  refine ⟨?_, ?_, ?_, ?_⟩
  · intro b vs h
    exact ⟨Checked.insertAll_eq h vs, insertAll_eq h vs⟩
  · intro t vs
    have hplain := (plain_empty t).insertAll vs
    refine ⟨fun v => mem_insertAll_empty t vs, mem_keys_insertAll_empty t vs, ?_⟩
    intro e he
    have hencoding := hplain.encoding_eq he
    rw [thresholds_insertAll] at hencoding
    exact ⟨(hplain.wellFormed.2 e he).1, hencoding⟩
  · intro t vs ws h
    exact insertAll_empty_congr t h
  · intro vs ws h
    exact insertAll_empty_congr .standard h

/-- A list that goes back and forth between keys, with a value repeated. -/
theorem lists_added_as_sets_out_of_order :
    (⟨.standard, #[⟨1, .array #[9]⟩]⟩ : Bitmap).WellFormed ∧
      Checked.insertAll ⟨.standard, #[⟨1, .array #[9]⟩]⟩ #[65536, 3, 3, 131072] =
        some (insertAll ⟨.standard, #[⟨1, .array #[9]⟩]⟩ #[65536, 3, 3, 131072]) ∧
      (∀ v, v ∈ (#[65536, 3, 3, 131072] : Array UInt32) ↔ v ∈ #[3, 65536, 131072]) ∧
      (empty ⟨0, 0, 0⟩).insertAll #[65536, 3, 3, 131072] =
        (empty ⟨0, 0, 0⟩).insertAll #[3, 65536, 131072] ∧
      ofValues #[65536, 3, 3, 131072] = ofValues #[3, 65536, 131072] := by
  have hwf : (⟨.standard, #[⟨1, .array #[9]⟩]⟩ : Bitmap).WellFormed := by decide
  have hsame : ∀ v, v ∈ (#[65536, 3, 3, 131072] : Array UInt32) ↔ v ∈ #[3, 65536, 131072] := by
    intro v
    simp only [Array.mem_def, List.mem_cons]
    tauto
  obtain ⟨steps, -, lists, values⟩ := lists_added_as_sets
  exact ⟨hwf, (steps _ _ hwf).1, hsame, lists _ _ _ hsame, values _ _ hsame⟩

end Bitmap

end Roaring
