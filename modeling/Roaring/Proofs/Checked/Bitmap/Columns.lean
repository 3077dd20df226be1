import Mathlib.Data.List.InsertIdx
import Roaring.Proofs.Bitmap.Lookup
import Roaring.Proofs.Checked.Machine

/-!
# Bitmaps in columns

The machine holds an index in two arrays, the keys in one and their containers in the other, and an
entry is what both have at one place. Nothing but the code keeps the arrays in step: each edit of an
index is an edit of the one and of the other, and a search of the one yields a place in the other.

`Columns.of` puts entries in columns. Every edit here takes the columns of an index to those of the
edited index, so columns that come from a bitmap stay in step, and `bitmap` reads the bitmap back.
-/
namespace Roaring

/-- A bitmap as the machine holds it. -/
structure Columns where
  thresholds : Thresholds
  keys : Array UInt16
  containers : Array Container

namespace Columns

open Machine

/-- The columns of an index. -/
def of (t : Thresholds) (es : Array Entry) : Columns := ⟨t, es.map (·.key), es.map (·.container)⟩

/-- The keys and containers side by side, up to the end of the shorter array. -/
def entries (s : Columns) : Array Entry := Array.zipWith Entry.mk s.keys s.containers

/-- The bitmap of two arrays of one length. -/
def bitmap (s : Columns) : Option Bitmap :=
  if s.keys.size = s.containers.size then some ⟨s.thresholds, s.entries⟩ else none

/-- The bitmap of columns that come with an answer. -/
def bitmapWith (r : Bool × Columns) : Option (Bool × Bitmap) := do some (r.1, ← r.2.bitmap)

/-! ## Edits -/

/-- Replaces the container at an index. -/
def store (s : Columns) (i : Nat) (c : Container) : Option Columns := do
  some { s with containers := ← Machine.store s.containers i c }

/-- Inserts a container and its key at an index, which may be the end. -/
def insertAt (s : Columns) (i : Nat) (k : UInt16) (c : Container) : Option Columns := do
  let cs ← Machine.insertAt s.containers i c
  some { s with containers := cs, keys := ← Machine.insertAt s.keys i k }

/-- Removes the container and the key at an index. -/
def removeAt (s : Columns) (i : Nat) : Option Columns := do
  let cs ← Machine.removeAt s.containers i
  some { s with containers := cs, keys := ← Machine.removeAt s.keys i }

/-- Replaces the container at an index, and drops it when it is empty; also whether it was. -/
def settle (s : Columns) (i : Nat) (c : Container) : Option (Bool × Columns) := do
  let s ← s.store i c
  if c.isEmpty then some (true, ← s.removeAt i) else some (false, s)

/-- Cuts out what lies between two indices. -/
def cut (s : Columns) (i j : Nat) : Option Columns := do
  let cs ← Machine.cut s.containers i j
  some { s with containers := cs, keys := ← Machine.cut s.keys i j }

/-- Drops what lies at an index or after it. -/
def truncate (s : Columns) (i : Nat) : Columns :=
  { s with containers := s.containers.take i, keys := s.keys.take i }

/-- Appends a key, which has to come after all others, unless its container is empty. -/
def push (s : Columns) (k : UInt16) (c : Container) : Option Columns := do
  check (s.keys.back?.all (· < k))
  some <| if c.isEmpty then s
    else { s with containers := s.containers.push c, keys := s.keys.push k }

/-- Appends what other columns hold from an index on. -/
def append (s r : Columns) (j : Nat) : Option Columns := do
  let ks ← slice r.keys j r.keys.size
  let cs ← slice r.containers j r.containers.size
  (Array.zipWith Entry.mk ks cs).toList.foldlM (fun s e => s.push e.key e.container) s

/-! ## Keys -/

/-- The index of the first key that is at least `k`. -/
def lowerBound (s : Columns) (k : UInt16) : Nat := countWhile (· < k) s.keys

/-- The place of a key. -/
def find? (s : Columns) (k : UInt16) : Option Nat :=
  let i := s.lowerBound k
  if s.keys[i]?.any (· = k) then some i else none

/-- The container of a key. -/
def get? (s : Columns) (k : UInt16) : Option (Option Container) :=
  match s.find? k with
  | some i => do some (some (← s.containers[i]?))
  | none => some none

/-- Changes what is held for one key. -/
def alter (s : Columns) (k : UInt16) (f : Option Container → Option (Option Container)) :
    Option Columns :=
  match s.find? k with
  | some i => do
    match ← f (some (← s.containers[i]?)) with
    | some c => s.store i c
    | none => s.removeAt i
  | none => do
    match ← f none with
    | some c => s.insertAt (s.lowerBound k) k c
    | none => some s

/-! ## Columns of an index -/

section Map

variable {α β : Type} (f : α → β) (a : Array α) (i : Nat)

theorem map_insertIdx (x : α) (h : i ≤ a.size) :
    (a.insertIdx i x h).map f = (a.map f).insertIdx i (f x) (by simpa using h) :=
  Array.ext' (by simp [List.map_insertIdx])

theorem map_eraseIdx (h : i < a.size) :
    (a.eraseIdx i h).map f = (a.map f).eraseIdx i (by simpa using h) :=
  Array.ext' (by simp [List.eraseIdx_map])

end Map

variable {t : Thresholds} {es : Array Entry} {i j : Nat} {k : UInt16} {c : Container}

@[simp] theorem thresholds_of : (of t es).thresholds = t := rfl

@[simp] theorem size_keys_of : (of t es).keys.size = es.size := Array.size_map

@[simp] theorem size_containers_of : (of t es).containers.size = es.size := Array.size_map

theorem toList_keys_of : (of t es).keys.toList = es.toList.map (·.key) := Array.toList_map

theorem toList_containers_of : (of t es).containers.toList = es.toList.map (·.container) :=
  Array.toList_map

theorem entries_of : (of t es).entries = es := by simp [entries, of]

/-- A part of both arrays side by side is that part of the index. -/
theorem zip_extract (i j : Nat) :
    Array.zipWith Entry.mk ((of t es).keys.extract i j) ((of t es).containers.extract i j) =
      es.extract i j := by
  rw [of, ← Array.map_extract, ← Array.map_extract]
  exact entries_of (t := t)

/-- Arrays of one length are the columns of one index. -/
theorem bitmap_eq_some_iff {s : Columns} {b : Bitmap} :
    s.bitmap = some b ↔ s = of b.thresholds b.entries := by
  unfold bitmap
  constructor
  · intro h
    split at h
    · rename_i hsize
      obtain rfl := Option.some.inj h
      obtain ⟨t, ks, cs⟩ := s
      have hsize : ks.size = cs.size := hsize
      have hkeys : (Array.zipWith Entry.mk ks cs).map (·.key) = ks :=
        Array.ext (by simp [hsize]) fun i _ _ => by simp
      have hcontainers : (Array.zipWith Entry.mk ks cs).map (·.container) = cs :=
        Array.ext (by simp [hsize]) fun i _ _ => by simp
      rw [of, entries, hkeys, hcontainers]
    · cases h
  · rintro rfl
    rw [if_pos (size_keys_of.trans size_containers_of.symm), entries_of, thresholds_of]

theorem getElem?_keys_of (i : Nat) : (of t es).keys[i]? = es[i]?.map (·.key) := Array.getElem?_map

theorem getElem?_containers_of (i : Nat) : (of t es).containers[i]? = es[i]?.map (·.container) :=
  Array.getElem?_map

theorem getElem_containers_of (hi : i < es.size) (h : i < (of t es).containers.size) :
    (of t es).containers[i] = es[i].container := by simp [of]

theorem key_at (hi : i < es.size) : (of t es).keys[i]? = some es[i].key := by
  rw [getElem?_keys_of, Array.getElem?_eq_getElem hi, Option.map_some]

theorem container_at (hi : i < es.size) : (of t es).containers[i]? = some es[i].container := by
  rw [getElem?_containers_of, Array.getElem?_eq_getElem hi, Option.map_some]

/-! ### Edits of an index -/

theorem store_of (hi : i < es.size) (c : Container) :
    (of t es).store i c = some (of t (es.set i ⟨es[i].key, c⟩)) := by
  have hkey : i < (es.map (·.key)).size := by simpa using hi
  have hsame : es[i].key = (es.map (·.key))[i] := (Array.getElem_map ..).symm
  have hcontainer : i < (of t es).containers.size := by simpa using hi
  have hkeys : (es.set i ⟨es[i].key, c⟩).map (·.key) = es.map (·.key) := by
    simp only [Array.map_set, hsame, Array.set_getElem_self]
  rw [store, bind_of_eq (store_of_lt hcontainer c), Array.setIfInBounds, dif_pos hcontainer]
  simp only [of, hkeys, Array.map_set]

theorem insertAt_of (hi : i ≤ es.size) (k : UInt16) (c : Container) :
    (of t es).insertAt i k c = some (of t (es.insertIdx i ⟨k, c⟩ hi)) := by
  rw [insertAt, bind_of_eq (insertAt_of_le (by simpa using hi) c),
    bind_of_eq (insertAt_of_le (by simpa using hi) k), of, of, map_insertIdx, map_insertIdx]
  simp [Array.insertIdxIfInBounds, hi]

theorem removeAt_of (hi : i < es.size) : (of t es).removeAt i = some (of t (es.eraseIdx i hi)) := by
  rw [removeAt, bind_of_eq (removeAt_of_lt (by simpa using hi)),
    bind_of_eq (removeAt_of_lt (by simpa using hi)), of, of, map_eraseIdx, map_eraseIdx]
  simp [Array.eraseIdxIfInBounds, hi]

/-- A container that is stored takes the place of the one before it, or that of nothing at all. -/
theorem settle_of (hi : i < es.size) (c : Container) :
    (of t es).settle i c = some (if c.isEmpty then (true, of t (es.eraseIdx i hi))
      else (false, of t (es.set i ⟨es[i].key, c⟩))) := by
  rw [settle, bind_of_eq (store_of hi c)]
  split
  · have hi' : i < (es.set i ⟨es[i].key, c⟩).size := by simpa using hi
    rw [bind_of_eq (removeAt_of hi'), Array.eraseIdx_set_eq]
  · rfl

theorem cut_of (hij : i ≤ j) (hj : j ≤ es.size) :
    (of t es).cut i j = some (of t (es.take i ++ es.drop j)) := by
  rw [cut, bind_of_eq (cut_of_le hij (by simpa using hj)),
    bind_of_eq (cut_of_le hij (by simpa using hj))]
  simp [of, Array.take_eq_extract, Array.drop_eq_extract]

theorem truncate_of (i : Nat) : (of t es).truncate i = of t (es.take i) := by
  simp [truncate, of, Array.take_eq_extract]

theorem push_of (h : es.back?.all (·.key < k)) (c : Container) :
    (of t es).push k c = some (of t (Index.pushNonEmpty es ⟨k, c⟩)) := by
  have hlast : (of t es).keys.back?.all (· < k) := by
    rw [of, Array.back?_map]
    cases hb : es.back? with
    | none => rfl
    | some e => simpa [hb] using h
  rw [push, bind_of_eq (check_of hlast), Index.pushNonEmpty]
  split
  · rfl
  · simp [of]

/-! ### Keys of an index -/

theorem lowerBound_of (k : UInt16) : (of t es).lowerBound k = Index.lowerBound es k :=
  countWhile_map _ _ _

theorem find?_of (k : UInt16) : (of t es).find? k = Index.find? es k := by
  simp only [find?, lowerBound_of, Index.find?, getElem?_keys_of]
  cases es[Index.lowerBound es k]? <;> rfl

theorem get?_of (k : UInt16) : (of t es).get? k = some (Index.get? es k) := by
  unfold get? Index.get?
  rw [find?_of]
  cases hfind : Index.find? es k with
  | none => rfl
  | some i =>
    obtain ⟨c, hc⟩ := Index.exists_of_find? hfind
    have hi : i < es.size := (Array.getElem?_eq_some_iff.mp hc).1
    dsimp only
    rw [bind_of_eq (container_at hi), Option.bind_some, Array.getElem?_eq_getElem hi,
      Option.map_some]

/-- A change at a key that comes to a plain one on what is held there. -/
theorem alter_of {f : Option Container → Option (Option Container)}
    {g : Option Container → Option Container}
    (h : f (Index.get? es k) = some (g (Index.get? es k))) :
    (of t es).alter k f = some (of t (Index.alter es k g)) := by
  unfold alter Index.alter
  unfold Index.get? at h
  rw [find?_of]
  cases hfind : Index.find? es k with
  | none =>
    rw [hfind, Option.bind_none] at h
    dsimp only
    rw [bind_of_eq h]
    cases g none with
    | none => rfl
    | some c =>
      have hle : Index.lowerBound es k ≤ es.size := countWhile_le _ _
      dsimp only
      rw [lowerBound_of, insertAt_of hle, Array.insertIdxIfInBounds, dif_pos hle]
  | some i =>
    obtain ⟨c, hc⟩ := Index.exists_of_find? hfind
    obtain ⟨hi, he⟩ := Array.getElem?_eq_some_iff.mp hc
    have hkey : es[i].key = k := by rw [he]
    rw [hfind, Option.bind_some, hc, Option.map_some] at h
    dsimp only
    rw [bind_of_eq (container_at hi), he, bind_of_eq h, hc, Option.map_some]
    cases g (some c) with
    | none =>
      dsimp only
      rw [removeAt_of hi, Array.eraseIdxIfInBounds, dif_pos hi]
    | some c =>
      dsimp only
      rw [store_of hi, hkey, Array.setIfInBounds, dif_pos hi]

theorem alter_const (k : UInt16) (held : Option Container) :
    (of t es).alter k (fun _ => some held) = some (of t (Index.alter es k fun _ => held)) :=
  alter_of rfl

end Columns

namespace Bitmap

/-- The columns of a bitmap. -/
abbrev columns (b : Bitmap) : Columns := .of b.thresholds b.entries

theorem bitmap_columns (b : Bitmap) : b.columns.bitmap = some b :=
  Columns.bitmap_eq_some_iff.mpr rfl

/-- An operation that ends with the columns of a bitmap has that bitmap for its outcome. -/
theorem bind_bitmap {o : Option Columns} {b : Bitmap} (h : o = some b.columns) :
    (o >>= Columns.bitmap) = some b := (Machine.bind_of_eq h _).trans (bitmap_columns b)

theorem bind_bitmapWith {o : Option (Bool × Columns)} {r : Bool × Bitmap}
    (h : o = some (r.1, r.2.columns)) : (o >>= Columns.bitmapWith) = some r :=
  (Machine.bind_of_eq h _).trans (Machine.bind_of_eq (bitmap_columns r.2) _)

end Bitmap

end Roaring
