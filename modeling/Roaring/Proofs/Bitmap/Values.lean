import Roaring.Bitmap.Basic
import Roaring.Proofs.Bitmap.Index

/-!
# The values of a bitmap

The values of a well formed bitmap are listed in strictly ascending order, key by key. A value is
among them exactly when the index holds its two halves.
-/
namespace Roaring.Bitmap

theorem joinHalves_lt_of_key {k k' low low' : UInt16} (h : k < k') :
    joinHalves k low < joinHalves k' low' := by
  have hlow := low.toNat_lt
  have hk := UInt16.lt_iff_toNat_lt.mp h
  rw [UInt32.lt_iff_toNat_lt, toNat_joinHalves, toNat_joinHalves]
  omega

theorem joinHalves_lt_of_low {k low low' : UInt16} (h : low < low') :
    joinHalves k low < joinHalves k low' := by
  have hlow := UInt16.lt_iff_toNat_lt.mp h
  rw [UInt32.lt_iff_toNat_lt, toNat_joinHalves, toNat_joinHalves]
  omega

theorem wellFormed_iff {b : Bitmap} : b.WellFormed ↔ Index.Sound b.entries.toList := by
  constructor
  · rintro ⟨hsorted, hentries⟩
    exact ⟨hsorted, fun e he => (hentries e (Array.mem_toList_iff.mp he)).1,
      fun e he => (hentries e (Array.mem_toList_iff.mp he)).2⟩
  · rintro ⟨hsorted, hvalid, hne⟩
    exact ⟨hsorted, fun e he =>
      ⟨hvalid e (Array.mem_toList_iff.mpr he), hne e (Array.mem_toList_iff.mpr he)⟩⟩

/-- The values of an entry in ascending order. -/
def entryValues (e : Entry) : List UInt32 := e.container.values.toList.map (joinHalves e.key)

theorem toList_valuesInto (out : Array UInt32) (e : Entry) :
    (valuesInto out e).toList = out.toList ++ entryValues e := by
  rw [valuesInto, ← Array.foldl_toList, entryValues]
  simp

theorem toList_values (b : Bitmap) : b.values.toList = b.entries.toList.flatMap entryValues := by
  suffices h : ∀ (es : List Entry) (out : Array UInt32),
      (es.foldl valuesInto out).toList = out.toList ++ es.flatMap entryValues by
    rw [values, ← Array.foldl_toList, h]
    rfl
  intro es
  induction es with
  | nil => simp
  | cons e es ih =>
    intro out
    rw [List.foldl_cons, ih, toList_valuesInto, List.flatMap_cons, List.append_assoc]

theorem mem_entryValues {e : Entry} {v : UInt32} :
    v ∈ entryValues e ↔ e.key = highHalf v ∧ lowHalf v ∈ e.container := by
  simp only [entryValues, List.mem_map, Array.mem_toList_iff]
  constructor
  · rintro ⟨low, hlow, rfl⟩
    rw [highHalf_joinHalves, lowHalf_joinHalves]
    exact ⟨rfl, hlow⟩
  · rintro ⟨hkey, hlow⟩
    exact ⟨lowHalf v, hlow, by rw [hkey, joinHalves_halves]⟩

theorem mem_values {b : Bitmap} {v : UInt32} : v ∈ b.values.toList ↔ v ∈ b := Array.mem_toList_iff

theorem mem_iff {b : Bitmap} {v : UInt32} :
    v ∈ b ↔ Index.Holds b.entries.toList (highHalf v) (lowHalf v) := by
  rw [← mem_values, toList_values, List.mem_flatMap]
  exact exists_congr fun e => and_congr_right fun _ => mem_entryValues

theorem pairwise_values {b : Bitmap} (h : b.WellFormed) :
    b.values.toList.Pairwise (· < ·) := by
  rw [toList_values]
  have hs := wellFormed_iff.mp h
  generalize b.entries.toList = es at hs
  induction es with
  | nil => exact List.Pairwise.nil
  | cons e es ih =>
    obtain ⟨hvalid, -, hlt, hs⟩ := Index.sound_cons.mp hs
    rw [List.flatMap_cons, List.pairwise_append]
    refine ⟨?_, ih hs, fun v hv w hw => ?_⟩
    · exact List.pairwise_map.mpr
        ((Container.increasing_values hvalid).imp fun h => joinHalves_lt_of_low h)
    · obtain ⟨low, -, rfl⟩ := List.mem_map.mp hv
      obtain ⟨f, hf, hw⟩ := List.mem_flatMap.mp hw
      obtain ⟨low', -, rfl⟩ := List.mem_map.mp hw
      exact joinHalves_lt_of_key (hlt f hf)

theorem nodup_values {b : Bitmap} (h : b.WellFormed) : b.values.toList.Nodup :=
  (pairwise_values h).imp UInt32.ne_of_lt

/-! ## Their number -/

theorem length_entryValues {e : Entry} (h : e.container.Valid) :
    (entryValues e).length = e.container.card := by
  rw [entryValues, List.length_map, Array.length_toList, Container.card_eq_size h]

theorem card_eq_length {b : Bitmap} (h : b.WellFormed) : b.card = b.values.toList.length := by
  suffices hfold : ∀ (es : List Entry) (n : Nat), (∀ e ∈ es, e.container.Valid) →
      es.foldl (fun n e => n + e.container.card) n = n + (es.flatMap entryValues).length by
    rw [card, ← Array.foldl_toList, hfold _ _ (wellFormed_iff.mp h).valid, toList_values,
      Nat.zero_add]
  intro es
  induction es with
  | nil => exact fun _ _ => rfl
  | cons e es ih =>
    intro n h
    obtain ⟨hvalid, hes⟩ := List.forall_mem_cons.mp h
    rw [List.foldl_cons, ih _ hes, List.flatMap_cons, List.length_append, length_entryValues hvalid,
      Nat.add_assoc]

end Roaring.Bitmap
