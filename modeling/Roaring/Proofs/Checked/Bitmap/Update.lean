import Roaring.Proofs.Checked.Bitmap.Query

/-!
# Changes of bitmaps, checked

A range of 32 bit values ends at 2^32 at the latest, so the key of each of its pieces is a value and
the ends of a piece are numbers up to 65536. The place that a list of values remembers is that of a
container which is still there.
-/
namespace Roaring

open Machine

/-! ## Pieces of a range -/

namespace Bound.Checked

/-- The smallest number that a lower bound admits. -/
def start : Bound → Option Nat
  | unbounded => some 0
  | included v => some v.toNat
  | excluded v => to64 (v.toNat + 1)

/-- The smallest number that is past an upper bound. -/
def stop : Bound → Option Nat
  | unbounded => to64 UInt32.size
  | included v => to64 (v.toNat + 1)
  | excluded v => some v.toNat

theorem start_eq (b : Bound) : start b = some b.start := by
  cases b with
  | unbounded => rfl
  | included v => rfl
  | excluded v =>
    have hv := v.toNat_lt
    exact to64_of_lt (by omega)

theorem stop_eq (b : Bound) : stop b = some b.stop := by
  cases b with
  | unbounded => rfl
  | included v =>
    have hv := v.toNat_lt
    exact to64_of_lt (by omega)
  | excluded v => rfl

end Bound.Checked

namespace Piece.Checked

/-- The end of the piece under a key, for a range of which `last` is the last number. -/
def stopAt (last key : Nat) : Option Nat :=
  if key = last / 65536 then to32 (last % 65536 + 1) else some 65536

/-- The part of `[start, stop)` that lies under the upper half `key`. -/
def pieceAt (start stop key : Nat) : Option Piece := do
  let half ← to16 key
  some ⟨half, if key = start / 65536 then start % 65536 else 0, ← stopAt (← minus stop 1) key⟩

/-- The pieces of `[start, stop)`, one for each upper half in it. -/
def pieces (start stop : Nat) : Option (List Piece) :=
  if start < stop then do
    let last ← minus stop 1
    (List.range' (start / 65536) (last / 65536 + 1 - start / 65536)).mapM (pieceAt start stop)
  else some []

theorem stopAt_eq (last key : Nat) :
    stopAt last key = some (if key = last / 65536 then last % 65536 + 1 else 65536) := by
  unfold stopAt
  split
  · exact to32_of_lt (by omega)
  · rfl

theorem pieceAt_eq {start stop key : Nat} (hstop : 0 < stop) (hkey : key < 65536) :
    pieceAt start stop key = some (Roaring.pieceAt start stop key) := by
  rw [pieceAt, bind_of_eq (to16_of_lt hkey), bind_of_eq (minus_of_le hstop),
    bind_of_eq (stopAt_eq _ _), Roaring.pieceAt]

theorem pieces_eq {start stop : Nat} (hstop : stop ≤ 2 ^ 32) :
    pieces start stop = some (Roaring.pieces start stop) := by
  unfold pieces Roaring.pieces
  split
  · rename_i hlt
    rw [bind_of_eq (minus_of_le (by omega))]
    refine mapM_eq_some fun key hkey => pieceAt_eq (by omega) ?_
    have := (List.mem_range'_1.mp hkey).2
    omega
  · rfl

end Piece.Checked

/-! ## Single values -/

namespace Columns

/-- Adds a value; also whether it was absent. -/
def insert (s : Columns) (v : UInt32) : Option (Bool × Columns) := do
  match ← s.get? (highHalf v) with
  | some c => do
    let (added, c) ← Container.Checked.insert s.thresholds c (lowHalf v)
    some (added, ← s.alter (highHalf v) fun _ => some (some c))
  | none => do
    let (_, c) ← Container.Checked.insert s.thresholds ∅ (lowHalf v)
    some (true, ← s.alter (highHalf v) fun _ => some (some c))

/-- Removes a value; also whether it was there. -/
def erase (s : Columns) (v : UInt32) : Option (Bool × Columns) := do
  match ← s.get? (highHalf v) with
  | some c => do
    let (removed, c) ← Container.Checked.erase s.thresholds c (lowHalf v)
    some (removed, ← s.alter (highHalf v) fun _ => some (Bitmap.nonEmpty c))
  | none => some (false, s)

/-- Adds a value to the container at a known place. -/
def insertLow (s : Columns) (i : Nat) (low : UInt16) : Option Columns := do
  let (_, c) ← Container.Checked.insert s.thresholds (← s.containers[i]?) low
  s.store i c

/-- Adds one of the values of a list. -/
def insertNext :
    Columns × Option (UInt16 × Nat) → UInt32 → Option (Columns × Option (UInt16 × Nat))
  | (s, last), v =>
    match last.filter (·.1 = highHalf v) with
    | some (_, i) => do some (← s.insertLow i (lowHalf v), last)
    | none => do
      let (_, s) ← s.insert v
      some (s, (s.find? (highHalf v)).map (highHalf v, ·))

/-- Adds the values of a list, in any order and with repetitions. -/
def insertAll (s : Columns) (vs : Array UInt32) : Option Columns := do
  some (← vs.toList.foldlM insertNext (s, none)).1

/-- The columns of the values of a list, under the standard thresholds. -/
def ofValues (vs : Array UInt32) : Option Columns := (of .standard #[]).insertAll vs

variable {b : Bitmap}

theorem insert_of (h : b.WellFormed) (v : UInt32) :
    b.columns.insert v = some ((b.insert v).1, (b.insert v).2.columns) := by
  rw [insert, bind_of_eq (get?_of _), Bitmap.insert]
  cases hc : Index.get? b.entries (highHalf v) with
  | none =>
    dsimp only [thresholds_of]
    rw [bind_of_eq (Container.Checked.insert_eq b.thresholds (c := ∅) Sorted.increasing_empty _)]
    exact bind_of_eq (alter_const _ _) _
  | some c =>
    dsimp only [thresholds_of]
    rw [bind_of_eq (Container.Checked.insert_eq b.thresholds (Bitmap.valid_get? h hc) _)]
    exact bind_of_eq (alter_const _ _) _

theorem erase_of (h : b.WellFormed) (v : UInt32) :
    b.columns.erase v = some ((b.erase v).1, (b.erase v).2.columns) := by
  rw [erase, bind_of_eq (get?_of _), Bitmap.erase]
  cases hc : Index.get? b.entries (highHalf v) with
  | none => rfl
  | some c =>
    dsimp only [thresholds_of]
    rw [bind_of_eq (Container.Checked.erase_eq b.thresholds (Bitmap.valid_get? h hc) _)]
    exact bind_of_eq (alter_const _ _) _

theorem insertLow_of (h : b.WellFormed) {i : Nat} (hi : i < b.entries.size) (low : UInt16) :
    b.columns.insertLow i low = some (b.insertAt i low).columns := by
  have hvalid := (h.2 b.entries[i] (Array.getElem_mem hi)).1
  rw [insertLow, thresholds_of, bind_of_eq (container_at hi),
    bind_of_eq (Container.Checked.insert_eq b.thresholds hvalid low), Bitmap.insertAt,
    modify_eq_set hi]
  exact store_of hi _

/-- The bitmap is well formed, and the place that is remembered is one of its index. -/
structure Placed (s : Bitmap × Option (UInt16 × Nat)) : Prop where
  wellFormed : s.1.WellFormed
  lt_size : ∀ place ∈ s.2, place.2 < s.1.entries.size

theorem insertNext_of {s : Bitmap × Option (UInt16 × Nat)} (h : Placed s) (v : UInt32) :
    insertNext (s.1.columns, s.2) v =
        some ((Bitmap.insertNext s v).1.columns, (Bitmap.insertNext s v).2) ∧
      Placed (Bitmap.insertNext s v) := by
  have hnext : (Bitmap.insertNext s v).1.Kept False := h.wellFormed.kept.insertNext v
  have hwf := hnext.wellFormed
  obtain ⟨b, last⟩ := s
  cases hlast : last.filter (·.1 = highHalf v) with
  | some place =>
    obtain ⟨hplace, -⟩ := Option.filter_eq_some_iff.mp hlast
    simp only [insertNext, Bitmap.insertNext, hlast] at hwf ⊢
    refine ⟨bind_of_eq (insertLow_of h.wellFormed (h.lt_size place hplace) _) _, hwf,
      fun p hp => ?_⟩
    have hp := h.lt_size p hp
    simpa [Bitmap.insertAt, Bitmap.withEntries] using hp
  | none =>
    simp only [insertNext, Bitmap.insertNext, hlast] at hwf ⊢
    refine ⟨(bind_of_eq (insert_of h.wellFormed v) _).trans ?_, hwf, fun p hp => ?_⟩
    · rw [find?_of]
    · obtain ⟨i, hi, rfl⟩ := Option.map_eq_some_iff.mp hp
      obtain ⟨e, he⟩ := Index.exists_of_find? hi
      exact (Array.getElem?_eq_some_iff.mp he).1

theorem insertAll_of (h : b.WellFormed) (vs : Array UInt32) :
    b.columns.insertAll vs = some (b.insertAll vs).columns := by
  have hfold := foldlM_view (fun s : Bitmap × Option (UInt16 × Nat) => (s.1.columns, s.2))
    (fun s _ => Placed s) (fun s v _ hs => insertNext_of hs v) vs.toList (b, none) ⟨h, by simp⟩
  rw [insertAll, bind_of_eq hfold, Bitmap.insertAll, Array.foldl_toList]

theorem ofValues_of (vs : Array UInt32) : ofValues vs = some (Bitmap.ofValues vs).columns :=
  insertAll_of (b := ∅) (by decide) vs

end Columns

/-! ## All containers -/

namespace Columns

/-- Changes every container. -/
def mapContainers (f : Container → Option Container) (s : Columns) : Option Columns := do
  some { s with containers := (← s.containers.toList.mapM f).toArray }

/-- Whether any container consists of runs. -/
def anyRuns (s : Columns) : Bool := s.containers.any (·.encoding = .run)

/-- Turns containers to runs where that is smaller; also whether any consists of runs then. -/
def runOptimize (s : Columns) : Option (Bool × Columns) := do
  let s ← s.mapContainers (Container.Checked.preferRuns s.thresholds)
  some (s.anyRuns, s)

/-- Turns every run list to an array or a bitset; also whether there was any. -/
def removeRuns (s : Columns) : Option (Bool × Columns) := do
  some (s.anyRuns,
    ← s.mapContainers fun c => do some (← Container.Checked.removeRuns s.thresholds c).2)

/-- Removes every value. -/
def clear (s : Columns) : Columns := { s with keys := #[], containers := #[] }

/-- The operation on columns and themselves, in their place. -/
def absorbSelf (op : SetOp) (s : Columns) : Option Columns :=
  match op with
  | .inter | .union => s.mapContainers (Container.Checked.absorbSelf s.thresholds op)
  | .diff | .symmDiff => some s.clear

variable {b : Bitmap}

/-- The keys stay when all containers change. -/
theorem of_map {t : Thresholds} {es : Array Entry} (g : Container → Container) :
    of t (es.map fun e => { e with container := g e.container }) =
      { of t es with containers := (es.toList.map (g ∘ (·.container))).toArray } := by
  have hcontainers : es.map (g ∘ (·.container)) = (es.toList.map (g ∘ (·.container))).toArray :=
    Array.ext' Array.toList_map
  rw [of, Array.map_map, Array.map_map, ← hcontainers]
  rfl

theorem mapContainers_of {f : Container → Option Container} {g : Container → Container}
    (h : b.WellFormed) (hf : ∀ c : Container, c.Valid → f c = some (g c)) :
    b.columns.mapContainers f = some (b.mapContainers g).columns := by
  have hmap : b.entries.toList.mapM (f ∘ (·.container)) =
      some (b.entries.toList.map (g ∘ (·.container))) :=
    mapM_eq_some fun e he => hf _ (Bitmap.valid_of_mem h e he)
  rw [mapContainers, toList_containers_of, List.mapM_map, bind_of_eq hmap]
  exact congrArg some (of_map g).symm

theorem anyRuns_of : b.columns.anyRuns = b.entries.any (·.container.encoding = .run) := by
  simp [anyRuns, of]

theorem runOptimize_of (h : b.WellFormed) :
    b.columns.runOptimize = some (b.runOptimize.1, b.runOptimize.2.columns) := by
  rw [runOptimize, bind_of_eq (mapContainers_of h fun _ => Container.Checked.preferRuns_eq _),
    anyRuns_of]
  rfl

theorem removeRuns_of (h : b.WellFormed) :
    b.columns.removeRuns = some (b.removeRuns.1, b.removeRuns.2.columns) := by
  rw [removeRuns, anyRuns_of]
  exact bind_of_eq (mapContainers_of h fun _ hc =>
    bind_of_eq (Container.Checked.removeRuns_eq b.thresholds hc) _) _

theorem clear_of : b.columns.clear = b.clear.columns := by
  simp [clear, of, Bitmap.clear, Bitmap.withEntries]

theorem absorbSelf_of (op : SetOp) (h : b.WellFormed) :
    b.columns.absorbSelf op = some (b.absorbSelf op).columns := by
  have hmap := mapContainers_of h fun _ => Container.Checked.absorbSelf_eq b.thresholds op
  cases op with
  | inter => exact hmap
  | union => exact hmap
  | diff => exact congrArg some clear_of
  | symmDiff => exact congrArg some clear_of

end Columns

/-! ## Ranges -/

namespace Columns

/-- The pieces of the range between two bounds. -/
def piecesBetween (lo hi : Bound) : Option (List Piece) := do
  Piece.Checked.pieces (← Bound.Checked.start lo) (← Bound.Checked.stop hi)

/-- Changes the container of each piece. -/
def alterPieces (s : Columns) (lo hi : Bound)
    (f : Piece → Option Container → Option (Option Container)) : Option Columns := do
  (← piecesBetween lo hi).foldlM (fun s p => s.alter p.key (f p)) s

/-- Adds every value of a range. -/
def insertRange (s : Columns) (lo hi : Bound) : Option Columns :=
  s.alterPieces lo hi fun p held =>
    match held with
    | some c => do
      some (some (← Container.Checked.absorbRange s.thresholds .union c p.start p.stop))
    | none => do some (some (← Container.Checked.ofRange s.thresholds p.start p.stop))

/-- Removes every value of a range. -/
def eraseRange (s : Columns) (lo hi : Bound) : Option Columns :=
  s.alterPieces lo hi fun p held =>
    match held with
    | some c => do
      some (Bitmap.nonEmpty (← Container.Checked.absorbRange s.thresholds .diff c p.start p.stop))
    | none => some none

/-- Toggles every value of a range. -/
def toggleRange (s : Columns) (lo hi : Bound) : Option Columns :=
  s.alterPieces lo hi fun p held =>
    match held with
    | some c => do
      some (Bitmap.nonEmpty
        (← Container.Checked.absorbRange s.thresholds .symmDiff c p.start p.stop))
    | none => do some (some (← Container.Checked.ofRange s.thresholds p.start p.stop))

/-- The columns of the values of a range, under the standard thresholds. -/
def ofRange (lo hi : Bound) : Option Columns := (of .standard #[]).insertRange lo hi

section Ranges

variable {b : Bitmap} (lo hi : Bound)

theorem piecesBetween_eq : piecesBetween lo hi = some (pieces lo.start hi.stop) := by
  rw [piecesBetween, bind_of_eq (Bound.Checked.start_eq lo), bind_of_eq (Bound.Checked.stop_eq hi),
    Piece.Checked.pieces_eq hi.stop_le]

/-- A change of pieces comes to the plain one when it does at each piece, for what the index may
hold there, and leaves a proper container. -/
theorem alterPieces_of {f : Piece → Option Container → Option (Option Container)}
    {g : Piece → Option Container → Option Container} (h : b.WellFormed)
    (hfg : ∀ p ∈ pieces lo.start hi.stop, ∀ held : Option Container,
      (∀ c, held = some c → c.Kept False b.thresholds) → f p held = some (g p held) ∧
        ∀ c, g p held = some c → c.Kept False b.thresholds) :
    b.columns.alterPieces lo hi f = some (b.alterPieces lo hi g).columns := by
  rw [alterPieces, bind_of_eq (piecesBetween_eq lo hi), Bitmap.alterPieces]
  refine foldlM_view (of b.thresholds)
    (fun es ps => Index.Keeps (Container.Kept False b.thresholds) es.toList ∧
      ∀ p ∈ ps, p ∈ pieces lo.start hi.stop) ?_ _ _ ⟨h.kept, fun _ hp => hp⟩
  rintro es p ps ⟨hes, hmem⟩
  obtain ⟨hp, hmem⟩ := List.forall_mem_cons.mp hmem
  obtain ⟨heq, hkeep⟩ := hfg p hp _ fun c => hes.get?
  exact ⟨alter_of heq, hes.alter hkeep, hmem⟩

variable (h : b.WellFormed)

include h

theorem insertRange_of :
    b.columns.insertRange lo hi = some (b.insertRange lo hi).columns := by
  refine alterPieces_of lo hi h fun p hp held hheld => ?_
  cases held with
  | some c =>
    have hc := hheld c rfl
    exact ⟨bind_of_eq (Container.Checked.absorbRange_eq _ .union hc.valid _ _) _,
      fun c' hc' => Option.some.inj hc' ▸ hc.insertRange _ _⟩
  | none =>
    exact ⟨bind_of_eq (Container.Checked.ofRange_eq _ _ _) _, fun c => Bitmap.kept_piece hp⟩

theorem eraseRange_of : b.columns.eraseRange lo hi = some (b.eraseRange lo hi).columns := by
  refine alterPieces_of lo hi h fun p hp held hheld => ?_
  cases held with
  | some c =>
    have hc := hheld c rfl
    exact ⟨bind_of_eq (Container.Checked.absorbRange_eq _ .diff hc.valid _ _) _,
      fun c' => Bitmap.kept_of_nonEmpty rfl hc⟩
  | none => exact ⟨rfl, fun c hc => by cases hc⟩

theorem toggleRange_of : b.columns.toggleRange lo hi = some (b.toggleRange lo hi).columns := by
  refine alterPieces_of lo hi h fun p hp held hheld => ?_
  cases held with
  | some c =>
    have hc := hheld c rfl
    exact ⟨bind_of_eq (Container.Checked.absorbRange_eq _ .symmDiff hc.valid _ _) _,
      fun c' => Bitmap.kept_of_nonEmpty rfl hc⟩
  | none =>
    exact ⟨bind_of_eq (Container.Checked.ofRange_eq _ _ _) _, fun c => Bitmap.kept_piece hp⟩

end Ranges

theorem ofRange_of (lo hi : Bound) : ofRange lo hi = some (Bitmap.ofRange lo hi).columns :=
  insertRange_of lo hi (b := ∅) (by decide)

end Columns

/-! ## Changes of bitmaps

A bitmap is changed in columns, and read back from them. -/

namespace Bitmap.Checked

/-- Adds a value; also whether it was absent. -/
def insert (b : Bitmap) (v : UInt32) : Option (Bool × Bitmap) :=
  b.columns.insert v >>= Columns.bitmapWith

/-- Removes a value; also whether it was there. -/
def erase (b : Bitmap) (v : UInt32) : Option (Bool × Bitmap) :=
  b.columns.erase v >>= Columns.bitmapWith

/-- Adds the values of a list, in any order and with repetitions. -/
def insertAll (b : Bitmap) (vs : Array UInt32) : Option Bitmap :=
  b.columns.insertAll vs >>= Columns.bitmap

/-- The bitmap of the values of a list, under the standard thresholds. -/
def ofValues (vs : Array UInt32) : Option Bitmap := Columns.ofValues vs >>= Columns.bitmap

/-- Turns containers to runs where that is smaller; also whether any consists of runs then. -/
def runOptimize (b : Bitmap) : Option (Bool × Bitmap) :=
  b.columns.runOptimize >>= Columns.bitmapWith

/-- Turns every run list to an array or a bitset; also whether there was any. -/
def removeRuns (b : Bitmap) : Option (Bool × Bitmap) :=
  b.columns.removeRuns >>= Columns.bitmapWith

/-- The operation on a bitmap and itself, in its place. -/
def absorbSelf (op : SetOp) (b : Bitmap) : Option Bitmap :=
  b.columns.absorbSelf op >>= Columns.bitmap

/-- Adds every value of a range. -/
def insertRange (b : Bitmap) (lo hi : Bound) : Option Bitmap :=
  b.columns.insertRange lo hi >>= Columns.bitmap

/-- Removes every value of a range. -/
def eraseRange (b : Bitmap) (lo hi : Bound) : Option Bitmap :=
  b.columns.eraseRange lo hi >>= Columns.bitmap

/-- Toggles every value of a range. -/
def toggleRange (b : Bitmap) (lo hi : Bound) : Option Bitmap :=
  b.columns.toggleRange lo hi >>= Columns.bitmap

/-- The bitmap of the values of a range, under the standard thresholds. -/
def ofRange (lo hi : Bound) : Option Bitmap := Columns.ofRange lo hi >>= Columns.bitmap

/-- Whether every value of a piece is held. -/
def containsPiece (b : Bitmap) (p : Piece) : Option Bool := do
  match ← b.columns.get? p.key with
  | some c => Container.Checked.containsRange c p.start p.stop
  | none => some false

/-- Whether every value of a range is held; the empty range always is. -/
def containsRange (b : Bitmap) (lo hi : Bound) : Option Bool := do
  (← Columns.piecesBetween lo hi).allM (containsPiece b)

theorem ofValues_eq (vs : Array UInt32) : ofValues vs = some (Bitmap.ofValues vs) :=
  bind_bitmap (Columns.ofValues_of vs)

theorem ofRange_eq (lo hi : Bound) : ofRange lo hi = some (Bitmap.ofRange lo hi) :=
  bind_bitmap (Columns.ofRange_of lo hi)

section WellFormed

variable {b : Bitmap} (h : b.WellFormed)

include h

theorem insert_eq (v : UInt32) : insert b v = some (b.insert v) :=
  bind_bitmapWith (Columns.insert_of h v)

theorem erase_eq (v : UInt32) : erase b v = some (b.erase v) :=
  bind_bitmapWith (Columns.erase_of h v)

theorem insertAll_eq (vs : Array UInt32) : insertAll b vs = some (b.insertAll vs) :=
  bind_bitmap (Columns.insertAll_of h vs)

theorem runOptimize_eq : runOptimize b = some b.runOptimize :=
  bind_bitmapWith (Columns.runOptimize_of h)

theorem removeRuns_eq : removeRuns b = some b.removeRuns :=
  bind_bitmapWith (Columns.removeRuns_of h)

theorem absorbSelf_eq (op : SetOp) : absorbSelf op b = some (b.absorbSelf op) :=
  bind_bitmap (Columns.absorbSelf_of op h)

theorem insertRange_eq (lo hi : Bound) : insertRange b lo hi = some (b.insertRange lo hi) :=
  bind_bitmap (Columns.insertRange_of lo hi h)

theorem eraseRange_eq (lo hi : Bound) : eraseRange b lo hi = some (b.eraseRange lo hi) :=
  bind_bitmap (Columns.eraseRange_of lo hi h)

theorem toggleRange_eq (lo hi : Bound) : toggleRange b lo hi = some (b.toggleRange lo hi) :=
  bind_bitmap (Columns.toggleRange_of lo hi h)

theorem containsRange_eq (lo hi : Bound) :
    containsRange b lo hi = some (b.containsRange lo hi) := by
  rw [containsRange, bind_of_eq (Columns.piecesBetween_eq lo hi)]
  refine allM_eq_some fun p _ => ?_
  rw [containsPiece, bind_of_eq (Columns.get?_of _)]
  cases hc : Index.get? b.entries p.key with
  | none => rfl
  | some c => exact Container.Checked.containsRange_eq (valid_get? h hc) _ _

end WellFormed

end Bitmap.Checked

end Roaring
