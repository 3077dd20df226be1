import Mathlib.Order.Bounds.Defs
import Roaring.Proofs.Bitmap.Combine
import Roaring.Proofs.Checked.Runs.Compare

/-!
# Cursors

Two cursors that only move forward. One walks an increasing array, of values or of the keys of an
index, and comes to a stop at the least index ahead where a value is reached; it finds no other, and
the end of the array only where none is left. The other walks a run list along queries that do not
go back, and tells of each whether a run holds it, whatever was asked before.
-/
namespace Roaring

open Machine (moveCursor)
open Sorted (Increasing)

/-! ## Searching ahead -/

/-- The indices from `i` on at which the array has reached `v`. -/
def reaching (a : Array UInt16) (i : Nat) (v : UInt16) : Set Nat :=
  {k | i ≤ k ∧ ∃ h : k < a.size, v ≤ a[k]}

/-- A computation comes to the least index from `i` on at which the array has reached `v`, and to
the end of the array if there is none. -/
structure Reaches (a : Array UInt16) (i : Nat) (v : UInt16) (outcome : Option Nat) (n : Nat) :
    Prop where
  outcome_eq : outcome = some n
  isLeast : (reaching a i v).Nonempty → IsLeast (reaching a i v) n
  eq_size : reaching a i v = ∅ → n = a.size

section Boundary

variable {a : Array UInt16} {i n : Nat} {v : UInt16} (h : Boundary (· < v) a i n)

include h

theorem Boundary.mem_reaching (hn : n < a.size) : n ∈ reaching a i v :=
  ⟨h.le, hn, UInt16.not_lt.mp (by simpa using h.fails hn)⟩

theorem Boundary.le_of_reaching {k : Nat} (hk : k ∈ reaching a i v) : n ≤ k := by
  obtain ⟨hik, hksize, hvk⟩ := hk
  by_contra hkn
  have hpass : a[k] < v := by simpa using h.passes k hksize hik (by omega)
  exact UInt16.not_lt.mpr hvk hpass

theorem Boundary.reaches {outcome : Option Nat} (hout : outcome = some n) :
    Reaches a i v outcome n where
  outcome_eq := hout
  isLeast := by
    rintro ⟨k, hk⟩
    have hksize : k < a.size := hk.2.1
    have hnk := h.le_of_reaching hk
    exact ⟨h.mem_reaching (by omega), fun _ => h.le_of_reaching⟩
  eq_size hempty := by
    refine Nat.le_antisymm h.le_size (Nat.le_of_not_lt fun hn => ?_)
    have hmem := h.mem_reaching hn
    rw [hempty] at hmem
    exact hmem

end Boundary

/-- A cursor finds its place among the values of an array, and among the entries of an index that
has those values for keys. -/
structure Finds (a : Array UInt16) : Prop where
  value i v : i ≤ a.size → Reaches a i v (moveCursor (· < v) a i) (advance (· < v) a i)
  entry (es : Array Entry) i v : es.map (·.key) = a → i ≤ a.size →
    Reaches a i v (moveCursor (·.key < v) es i) (advance (·.key < v) es i)

theorem finds {a : Array UInt16} (ha : Increasing a) : Finds a where
  value i v hi := by
    have hsize := Sorted.size_le ha
    exact (advance_boundary (Sorted.passFirst_lt ha v i) hi).reaches
      (Machine.moveCursor_eq _ i (by omega))
  entry es i v hkeys hi := by
    subst hkeys
    have hsize := Sorted.size_le ha
    rw [Array.size_map] at hsize hi
    have hsorted : es.toList.Pairwise fun x y => x.key < y.key := by
      rwa [Increasing, Array.toList_map, List.pairwise_map] at ha
    have hpass := Index.passFirst_key (hsorted.sublist (List.drop_sublist i _)) v
    exact (advance_boundary hpass hi).map.reaches (Machine.moveCursor_eq _ i (by omega))

/-! ## Tracking runs -/

/-- A tracker of the runs answers each of the queries as the list of their values does. -/
structure Tracks (runs : Array Run) (queries : List UInt16) : Prop where
  outcome_eq : Runs.Checked.answersAt runs queries 0 =
    some (Runs.Tracker.answers ⟨runs.toList⟩ queries)
  answers_eq : Runs.Tracker.answers ⟨runs.toList⟩ queries =
    queries.map fun v => decide (v ∈ Runs.values runs)

theorem tracks {runs : Array Run} {queries : List UInt16} (hruns : Runs.Valid runs)
    (hqueries : queries.Pairwise (· ≤ ·)) : Tracks runs queries where
  outcome_eq := by
    have hsize := Runs.size_le hruns
    exact Runs.Checked.answersAt_eq (by omega) _ (.zero runs)
  answers_eq := by
    rw [Runs.Tracker.answers_eq (t := ⟨runs.toList⟩) hruns hqueries]
    refine List.map_congr_left fun v _ => ?_
    rw [Bool.eq_iff_iff, decide_eq_true_iff, Runs.mem_values hruns]

/-- A search ahead of a cursor finds the least index that it is asked for, and a tracker answers
queries in ascending order, repeated ones too, as the runs do. -/
theorem cursors_find_and_track {a : Array UInt16} {runs : Array Run} {queries : List UInt16}
    (ha : Increasing a) (hruns : Runs.Valid runs) (hqueries : queries.Pairwise (· ≤ ·)) :
    Finds a ∧ Tracks runs queries :=
  ⟨finds ha, tracks hruns hqueries⟩

/-- The first search leaps past the end and comes back to the last value, the second one finds
nothing. A query asks again for a value in a gap, and the last one is the end of the domain. -/
theorem cursors_find_and_track_at_end :
    (Increasing #[1, 3, 5, 7, 9, 11, 13] ∧ Runs.Valid #[⟨2, 2⟩, ⟨10, 1⟩, ⟨65535, 0⟩] ∧
        List.Pairwise (· ≤ ·) ([2, 4, 5, 5, 11, 11, 65535] : List UInt16)) ∧
      (Finds #[1, 3, 5, 7, 9, 11, 13] ∧
        Tracks #[⟨2, 2⟩, ⟨10, 1⟩, ⟨65535, 0⟩] [2, 4, 5, 5, 11, 11, 65535]) ∧
      Reaches #[1, 3, 5, 7, 9, 11, 13] 1 12
        (moveCursor (· < (12 : UInt16)) #[1, 3, 5, 7, 9, 11, 13] 1) 6 ∧
      Reaches #[1, 3, 5, 7, 9, 11, 13] 1 14
        (moveCursor (· < (14 : UInt16)) #[1, 3, 5, 7, 9, 11, 13] 1) 7 := by
  have ha : Increasing #[1, 3, 5, 7, 9, 11, 13] := by decide
  have hruns : Runs.Valid #[⟨2, 2⟩, ⟨10, 1⟩, ⟨65535, 0⟩] := by decide
  have hqueries : List.Pairwise (· ≤ ·) ([2, 4, 5, 5, 11, 11, 65535] : List UInt16) := by decide
  have hexact := cursors_find_and_track ha hruns hqueries
  have hlast : advance (· < (12 : UInt16)) #[1, 3, 5, 7, 9, 11, 13] 1 = 6 := by decide +kernel
  have hnone : advance (· < (14 : UInt16)) #[1, 3, 5, 7, 9, 11, 13] 1 = 7 := by decide +kernel
  exact ⟨⟨ha, hruns, hqueries⟩, hexact, hlast ▸ hexact.1.value 1 12 (by decide),
    hnone ▸ hexact.1.value 1 14 (by decide)⟩

end Roaring
