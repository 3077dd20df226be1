import Roaring.Proofs.Bitmap.Query
import Roaring.Proofs.Bitmap.Update
import Roaring.Proofs.Checked.Bitmap.Columns
import Roaring.Proofs.Checked.Container.Update

/-!
# Queries of bitmaps, checked

A bitmap has at most 65536 keys, each with at most 65536 values, so what is added up over the index
fits with room to spare. A key is looked up in the one array and its container read in the other;
where only containers are asked for, the keys are not read at all.
-/
namespace Roaring

theorem Index.size_le {es : Array Entry} (h : es.toList.Pairwise fun x y => x.key < y.key) :
    es.size ≤ 65536 := by
  have hinc : Sorted.Increasing (es.map (·.key)) := by
    rw [Sorted.Increasing, Array.toList_map]
    exact List.pairwise_map.mpr h
  simpa using Sorted.size_le hinc

namespace Bitmap

variable {a b : Bitmap}

theorem size_entries_le (h : b.WellFormed) : b.entries.size ≤ 65536 := Index.size_le h.1

theorem valid_of_mem (h : b.WellFormed) : ∀ e ∈ b.entries.toList, e.container.Valid := fun e he =>
  (h.2 e (Array.mem_toList_iff.mp he)).1

theorem valid_get? (h : b.WellFormed) {k : UInt16} {c : Container}
    (hc : Index.get? b.entries k = some c) : c.Valid :=
  (wellFormed_iff.mp h).keeps.get? hc

/-- The number of values under the keys of a list of entries. -/
def cardOf (es : List Entry) (n : Nat) : Nat := es.foldl (fun n e => n + e.container.card) n

theorem cardOf_le (es : List Entry) (n : Nat) (h : ∀ e ∈ es, e.container.Valid) :
    cardOf es n ≤ n + es.length * 65536 := by
  induction es generalizing n with
  | nil => exact Nat.le_add_right _ _
  | cons e es ih =>
    obtain ⟨he, h⟩ := List.forall_mem_cons.mp h
    have hle := Container.Checked.card_le he
    have := ih (n + e.container.card) h
    rw [List.length_cons]
    show cardOf es (n + e.container.card) ≤ _
    omega

theorem card_eq_cardOf (b : Bitmap) : b.card = cardOf b.entries.toList 0 :=
  (Array.foldl_toList _).symm

theorem card_le (h : b.WellFormed) : b.card ≤ 2 ^ 32 := by
  have hsize := size_entries_le h
  have hle := cardOf_le b.entries.toList 0 (valid_of_mem h)
  rw [← card_eq_cardOf, Array.length_toList] at hle
  omega

end Bitmap

/-- The number of values. -/
def Columns.card (s : Columns) : Option Nat :=
  s.containers.toList.foldlM
    (fun n c => do Machine.to64 (n + (← Container.Checked.card c))) 0

namespace Bitmap

variable {a b : Bitmap}

namespace Checked

open Machine

/-- The number of values. -/
def card (b : Bitmap) : Option Nat := b.columns.card

def contains (b : Bitmap) (v : UInt32) : Option Bool := do
  match ← b.columns.get? (highHalf v) with
  | some c => Container.Checked.contains c (lowHalf v)
  | none => some false

/-- Adds to `n` the number of values at most `v` in sorted entries. -/
def rankFrom (v : UInt32) : List Entry → Nat → Option Nat
  | [], n => some n
  | e :: es, n =>
    if e.key < highHalf v then do
      rankFrom v es (← to64 (n + (← Container.Checked.card e.container)))
    else if e.key = highHalf v then do
      to64 (n + (← Container.Checked.rank e.container (lowHalf v)))
    else some n

/-- The number of values at most `v`. -/
def rank (b : Bitmap) (v : UInt32) : Option Nat := rankFrom v b.columns.entries.toList 0

/-- The value at position `n` in sorted entries. -/
def selectFrom : List Entry → Nat → Option (Option UInt32)
  | [], _ => some none
  | e :: es, n => do
    let card ← Container.Checked.card e.container
    if n < card then do some ((← Container.Checked.select e.container n).map (joinHalves e.key))
    else selectFrom es (← minus n card)

/-- The value at a position, the smallest one being at position 0. -/
def select (b : Bitmap) (n : Nat) : Option (Option UInt32) :=
  selectFrom b.columns.entries.toList n

def min? (b : Bitmap) : Option (Option UInt32) :=
  match b.columns.containers[0]? with
  | some c => do
    let first ← b.columns.keys[0]?
    some ((← Container.Checked.min? c).map (joinHalves first))
  | none => some none

/-- The key of the largest value is read at the last index. -/
def max? (b : Bitmap) : Option (Option UInt32) :=
  match b.columns.containers.back? with
  | some c => do
    let last ← b.columns.keys[(← minus b.columns.keys.size 1)]?
    some ((← Container.Checked.max? c).map (joinHalves last))
  | none => some none

/-- Appends the values of the containers from index `i` on, each under the key at its index. -/
def valuesFrom (s : Columns) (i : Nat) (out : Array UInt32) : Option (Array UInt32) :=
  if h : i < s.containers.size then do
    let lows ← Container.Checked.values s.containers[i]
    let k ← s.keys[i]?
    check (i + 1 < 2 ^ 64)
    valuesFrom s (i + 1) (lows.foldl (fun out low => out.push (joinHalves k low)) out)
  else some out
termination_by s.containers.size - i

/-- The values in ascending order. -/
def values (b : Bitmap) : Option (Array UInt32) := valuesFrom b.columns 0 #[]

/-- Whether two lists of containers hold the same values in step. -/
def sameContainers : List Container → List Container → Option Bool
  | [], [] => some true
  | c :: cs, d :: ds => do
    if ← Container.Checked.sameValues c d then sameContainers cs ds else some false
  | _, _ => some false

/-- Whether two bitmaps hold the same values, whatever the encodings of their containers. -/
def sameValues (a b : Bitmap) : Option Bool :=
  if a.columns.keys = b.columns.keys then
    sameContainers a.columns.containers.toList b.columns.containers.toList
  else some false

theorem min?_eq (b : Bitmap) : min? b = some b.min? := by
  unfold min? Bitmap.min?
  rw [Columns.getElem?_containers_of, Columns.getElem?_keys_of]
  cases b.entries[0]? with
  | none => rfl
  | some e => exact bind_of_eq (Container.Checked.min?_eq e.container) _

theorem rankFrom_eq (v : UInt32) (es : List Entry) (n : Nat) (hn : n + es.length * 65536 < 2 ^ 63)
    (h : ∀ e ∈ es, e.container.Valid) : rankFrom v es n = some (Bitmap.rankFrom v es n) := by
  induction es generalizing n with
  | nil => rfl
  | cons e es ih =>
    obtain ⟨he, h⟩ := List.forall_mem_cons.mp h
    have hcard := Container.Checked.card_le he
    have hrank := Container.Checked.rank_le he (lowHalf v)
    rw [List.length_cons] at hn
    rw [rankFrom, Bitmap.rankFrom]
    split
    · rw [bind_of_eq (Container.Checked.card_eq he), bind_of_eq (to64_of_lt (by omega)),
        ih _ (by omega) h]
    · split
      · rw [bind_of_eq (Container.Checked.rank_eq he _), to64_of_lt (by omega)]
      · rfl

theorem selectFrom_eq (es : List Entry) (n : Nat) (h : ∀ e ∈ es, e.container.Valid) :
    selectFrom es n = some (Bitmap.selectFrom es n) := by
  induction es generalizing n with
  | nil => rfl
  | cons e es ih =>
    obtain ⟨he, h⟩ := List.forall_mem_cons.mp h
    rw [selectFrom, bind_of_eq (Container.Checked.card_eq he), Bitmap.selectFrom]
    split
    · exact bind_of_eq (Container.Checked.select_eq he n) _
    · rw [bind_of_eq (minus_of_le (by omega)), ih _ h]

theorem valuesFrom_eq {t : Thresholds} {es : Array Entry} {i : Nat} {before after : List Entry}
    (out : Array UInt32) (hs : Split es i before after) (hsize : es.size < 2 ^ 62)
    (h : ∀ e ∈ after, e.container.Valid) :
    valuesFrom (.of t es) i out = some (after.foldl valuesInto out) := by
  induction after generalizing i before out with
  | nil => rw [valuesFrom, dif_neg (by simpa using hs.not_lt_size), List.foldl_nil]
  | cons e after ih =>
    obtain ⟨he, h⟩ := List.forall_mem_cons.mp h
    have hi := hs.lt_size
    rw [valuesFrom, dif_pos (by simpa using hi), Columns.getElem_containers_of hi,
      hs.getElem_eq hi, bind_of_eq (Container.Checked.values_eq he),
      bind_of_eq (Columns.key_at hi), hs.getElem_eq hi, bind_of_eq (check_of (by omega)),
      ih _ hs.next h]
    rfl

theorem keys_eq_of_sameEntries {es fs : List Entry} (h : Index.sameEntries es fs) :
    es.map (·.key) = fs.map (·.key) := by
  induction es generalizing fs with
  | nil =>
    cases fs with
    | nil => rfl
    | cons y ys => simp [Index.sameEntries] at h
  | cons x xs ih =>
    cases fs with
    | nil => simp [Index.sameEntries] at h
    | cons y ys =>
      simp only [Index.sameEntries, List.isEqv_cons_cons, Bool.and_eq_true,
        decide_eq_true_eq] at h
      rw [List.map_cons, List.map_cons, h.1.1, ih h.2]

theorem sameContainers_eq {es fs : List Entry} (hkeys : es.map (·.key) = fs.map (·.key))
    (hes : ∀ e ∈ es, e.container.Valid) (hfs : ∀ e ∈ fs, e.container.Valid) :
    sameContainers (es.map (·.container)) (fs.map (·.container)) =
      some (Index.sameEntries es fs) := by
  induction es generalizing fs with
  | nil => cases fs <;> rfl
  | cons x xs ih =>
    cases fs with
    | nil => rfl
    | cons y ys =>
      obtain ⟨hx, hxs⟩ := List.forall_mem_cons.mp hes
      obtain ⟨hy, hys⟩ := List.forall_mem_cons.mp hfs
      obtain ⟨hkey, hkeys⟩ := List.cons.inj hkeys
      rw [List.map_cons, List.map_cons, sameContainers,
        bind_of_eq (Container.Checked.sameValues_eq hx hy), Index.sameEntries,
        List.isEqv_cons_cons]
      cases x.container.sameValues y.container with
      | false => simp
      | true => simpa [hkey, Index.sameEntries] using ih hkeys hxs hys

section WellFormed

variable (h : b.WellFormed)

include h

theorem card_eq : card b = some b.card := by
  have hsize := size_entries_le h
  rw [card, Columns.card, Columns.toList_containers_of, List.foldlM_map, card_eq_cardOf]
  refine foldlM_eq_some (fun n es => n + es.length * 65536 < 2 ^ 63 ∧
    ∀ e ∈ es, e.container.Valid) ?_ _ _ ⟨by rw [Array.length_toList]; omega, valid_of_mem h⟩
  rintro n e es ⟨hn, hvalid⟩
  obtain ⟨he, hvalid⟩ := List.forall_mem_cons.mp hvalid
  have hle := Container.Checked.card_le he
  rw [List.length_cons] at hn
  rw [bind_of_eq (Container.Checked.card_eq he)]
  exact ⟨to64_of_lt (by omega), by omega, hvalid⟩

theorem contains_eq (v : UInt32) : contains b v = some (b.contains v) := by
  rw [contains, bind_of_eq (Columns.get?_of _), Bitmap.contains]
  cases hc : Index.get? b.entries (highHalf v) with
  | none => rfl
  | some c => exact Container.Checked.contains_eq (valid_get? h hc) _

theorem rank_eq (v : UInt32) : rank b v = some (b.rank v) := by
  have hsize := size_entries_le h
  rw [rank, Columns.entries_of]
  exact rankFrom_eq v _ 0 (by rw [Array.length_toList]; omega) (valid_of_mem h)

theorem select_eq (n : Nat) : select b n = some (b.select n) := by
  rw [select, Columns.entries_of]
  exact selectFrom_eq _ n (valid_of_mem h)

theorem max?_eq : max? b = some b.max? := by
  unfold max? Bitmap.max?
  have hback : b.columns.containers.back? = b.entries.back?.map (·.container) := Array.back?_map
  rw [hback, Columns.size_keys_of]
  cases he : b.entries.back? with
  | none => rfl
  | some e =>
    have hmem := Array.mem_of_back? he
    have hpos := Array.size_pos_of_mem hmem
    have hlast : b.columns.keys[b.entries.size - 1]? = some e.key := by
      rw [Columns.getElem?_keys_of, ← Array.back?_eq_getElem?, he, Option.map_some]
    rw [Option.map_some]
    dsimp only
    rw [bind_of_eq (minus_of_le hpos), bind_of_eq hlast,
      bind_of_eq (Container.Checked.max?_eq (h.2 e hmem).1), Option.bind_some]

theorem values_eq : values b = some b.values := by
  have hsize := size_entries_le h
  rw [values, valuesFrom_eq #[] (.zero b.entries) (by omega) (valid_of_mem h), Bitmap.values,
    Array.foldl_toList]

theorem sameValues_eq (ha : a.WellFormed) : sameValues a b = some (a.sameValues b) := by
  have hlists : a.sameValues b = Index.sameEntries a.entries.toList b.entries.toList :=
    (Array.isEqv_toList a.entries b.entries).symm
  have hkeys : a.columns.keys = b.columns.keys ↔
      a.entries.toList.map (·.key) = b.entries.toList.map (·.key) := by
    rw [← Array.toList_inj, Columns.toList_keys_of, Columns.toList_keys_of]
  rw [hlists, sameValues]
  by_cases h' : a.entries.toList.map (·.key) = b.entries.toList.map (·.key)
  · rw [if_pos (hkeys.mpr h'), Columns.toList_containers_of, Columns.toList_containers_of,
      sameContainers_eq h' (valid_of_mem ha) (valid_of_mem h)]
  · rw [if_neg (hkeys.not.mpr h'),
      Bool.eq_false_iff.mpr fun hsame => h' (keys_eq_of_sameEntries hsame)]

end WellFormed

end Checked

end Bitmap

end Roaring
