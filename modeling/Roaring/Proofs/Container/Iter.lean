import Roaring.Container.Iter
import Roaring.Proofs.Checked.Container.Convert

/-!
# What a walk comes to

A walk over a container comes to its values in ascending order and then ends, in whichever encoding
they are kept. Each place of a walk stands for the values that are still to come; a step gives the
first of them and leaves a place that stands for the others.
-/
namespace Roaring

/-! ## What is to come -/

namespace Words.Cursor

/-- The values to come: those of the bits that are left of the word, and those of the words after
it. -/
def rest (c : Cursor) : List UInt16 := listFrom c.index (c.word :: c.ahead)

theorem listFrom_eq_nextFrom (i : Nat) (w : UInt64) (ahead : List UInt64) :
    listFrom i (w :: ahead) = (nextFrom i w ahead).elim [] fun (v, c) => v :: c.rest := by
  fun_induction nextFrom i w ahead with
  | case1 ahead i w hw =>
    rw [listFrom, wordValues, Word.positions_eq_cons hw]
    rfl
  | case2 i w hw =>
    rw [Decidable.not_not.mp hw, listFrom, wordValues_zero]
    rfl
  | case3 i w hw w' ahead ih =>
    rw [Decidable.not_not.mp hw, listFrom, wordValues_zero, List.nil_append, ih]

theorem rest_eq (c : Cursor) : c.rest = c.next?.elim [] fun (v, c') => v :: c'.rest :=
  listFrom_eq_nextFrom c.index c.word c.ahead

theorem rest_start (ws : Words) : (start ws).rest = ws.values.toList := by
  have hlen : ws.toList.length = 1024 := Vector.length_toList
  rw [toList_values_eq, start]
  split
  · rename_i h
    rw [h] at hlen
    cases hlen
  · rename_i w rest h
    rw [h, Cursor.rest]

end Words.Cursor

namespace Runs.Cursor

/-- The values to come: those that are left of the run, and those of the runs after it. -/
def rest (c : Cursor) : List UInt16 :=
  (List.range' c.next (c.stop - c.next)).map Nat.toUInt16 ++ c.ahead.flatMap runValues

theorem rest_eq_nextFrom (next stop : Nat) (ahead : List Run) :
    rest ⟨next, stop, ahead⟩ =
      (nextFrom next stop ahead).elim [] fun (v, c) => v :: c.rest := by
  fun_induction nextFrom next stop ahead with
  | case1 ahead next stop hlt =>
    have hleft : stop - next = (stop - (next + 1)) + 1 := by omega
    rw [rest, hleft, List.range'_succ]
    rfl
  | case2 next stop hge =>
    have hleft : stop - next = 0 := by omega
    rw [rest, hleft]
    rfl
  | case3 next stop hge r ahead ih =>
    have hleft : stop - next = 0 := by omega
    have hrun : r.stop - r.first.toNat = r.card := by
      rw [r.stop_eq]
      omega
    rw [← ih, rest, rest, hleft, hrun, List.flatMap_cons, ← runValues]
    rfl

theorem rest_eq (c : Cursor) : c.rest = c.next?.elim [] fun (v, c') => v :: c'.rest :=
  rest_eq_nextFrom c.next c.stop c.ahead

theorem rest_start (runs : Array Run) : (start runs).rest = (values runs).toList :=
  (toList_values runs).symm

end Runs.Cursor

namespace Container

variable {c : Container}

namespace Iter

/-- The values to come. -/
def rest : Iter → List UInt16
  | array ahead => ahead
  | bitset place => place.rest
  | run place => place.rest

/-- What is to come is what a step gives and what is to come after it. -/
theorem rest_eq (it : Iter) : it.rest = it.next?.elim [] fun (v, it') => v :: it'.rest := by
  cases it with
  | array ahead => cases ahead <;> rfl
  | bitset place => rw [next?, Option.elim_map]; exact place.rest_eq
  | run place => rw [next?, Option.elim_map]; exact place.rest_eq

theorem rest_iter (c : Container) : c.iter.rest = c.values.toList := by
  cases c with
  | array vs => rfl
  | bitset b => exact Words.Cursor.rest_start b.words
  | run rs => exact Runs.Cursor.rest_start rs

/-! ## Steps up to the end -/

/-- One step after the other comes to the values of a list, and then to the end. -/
inductive Yields : Iter → List UInt16 → Prop
  | done {it : Iter} (h : it.next? = none) : Yields it []
  | step {it it' : Iter} {v : UInt16} {vs : List UInt16} (h : it.next? = some (v, it'))
      (hrest : Yields it' vs) : Yields it (v :: vs)

theorem yields_rest (it : Iter) : it.Yields it.rest := by
  fun_induction toList it with
  | case1 it h =>
    rw [rest_eq, h]
    exact .done h
  | case2 it v it' h ih =>
    rw [rest_eq, h]
    exact .step h ih

theorem Yields.toList_eq {it : Iter} {vs : List UInt16} (h : it.Yields vs) : it.toList = vs := by
  induction h with
  | done h =>
    rw [toList]
    split <;> simp_all
  | step h hrest ih =>
    rw [toList]
    split <;> simp_all

end Iter

theorem yields_values (c : Container) : c.iter.Yields c.values.toList :=
  Iter.rest_iter c ▸ c.iter.yields_rest

theorem toList_iter (c : Container) : c.iter.toList = c.values.toList :=
  (yields_values c).toList_eq

/-! ## Queries -/

theorem toSortedValues_eq (h : c.Valid) : c.toSortedValues = .ok c.values := by
  have hcard : c.card ≤ 65536 := Checked.card_le h
  have hroom : ¬Storage.maxBytes < c.card * 2 := by
    unfold Storage.maxBytes
    omega
  rw [toSortedValues, Storage.elementBytes, if_neg hroom, toList_iter, Array.toArray_toList]

/-- A valid container is full when it has as many values as the domain. -/
theorem isFull_iff_length (h : c.Valid) : c.isFull ↔ c.values.toList.length = domainSize := by
  rw [isFull_iff h, toList_values_eq h, ← length_domain, List.length_filter_eq_length_iff]
  simp only [decide_eq_true_eq]
  exact ⟨fun hall v _ => hall v, fun hall v => hall v (mem_domain v)⟩

/-- A walk over the container comes to the values of the ascending list `vs`, and every query about
values is answered as this list answers it. -/
structure Lists (c : Container) (vs : List UInt16) : Prop where
  yields : c.iter.Yields vs
  ascending : vs.Pairwise (· < ·)
  contains : ∀ v, c.contains v ↔ v ∈ vs
  card : c.card = vs.length
  min? : c.min? = vs.head?
  max? : c.max? = vs.getLast?
  isEmpty : c.isEmpty ↔ vs = []
  isFull : c.isFull ↔ vs.length = domainSize
  toSortedValues : c.toSortedValues = .ok vs.toArray
  numRuns : c.numRuns = (Sorted.blocks vs).length

theorem lists_values (h : c.Valid) : Lists c c.values.toList where
  yields := yields_values c
  ascending := increasing_values h
  contains := (answers_values h).contains
  card := (answers_values h).card
  min? := (answers_values h).min?
  max? := (answers_values h).max?
  isEmpty := (answers_values h).isEmpty
  isFull := isFull_iff_length h
  toSortedValues := by rw [toSortedValues_eq h, Array.toArray_toList]
  numRuns := by rw [numRuns_eq h, Sorted.length_blocks (increasing_values h)]

/-- A walk over any valid container ends after it has come to the values that the container
contains, each once and in ascending order, and the queries are answered by this list. One list
answers them for all valid containers that contain the same values, in whichever encodings. -/
theorem walk_answers_queries (c : Container) (h : c.Valid) :
    ∃ vs, Lists c vs ∧
      ∀ d : Container, d.Valid → (∀ v, d.contains v = c.contains v) → Lists d vs := by
  refine ⟨c.values.toList, lists_values h, fun d hd hcontains => ?_⟩
  have hvalues : d.values = c.values := by
    refine (values_eq_iff hd h).mpr fun v => ?_
    rw [← contains_iff hd, ← contains_iff h, hcontains v]
  rw [← hvalues]
  exact lists_values hd

/-- Values at the edge between two words and the last one of the domain, as runs and as a bitset of
which the number of values is not known. -/
theorem walk_answers_queries_word_edge :
    (run #[⟨62, 3⟩, ⟨65535, 0⟩]).Valid ∧
      ∃ vs, Lists (run #[⟨62, 3⟩, ⟨65535, 0⟩]) vs ∧ (Sorted.blocks vs).length = 2 ∧
        Lists (bitset (.uncounted (Bitset.ofRuns #[⟨62, 3⟩, ⟨65535, 0⟩]).words)) vs := by
  have h : (run #[⟨62, 3⟩, ⟨65535, 0⟩]).Valid := by decide
  obtain ⟨vs, hvs, hsame⟩ := walk_answers_queries (run #[⟨62, 3⟩, ⟨65535, 0⟩]) h
  have hb : (bitset (.uncounted (Bitset.ofRuns #[⟨62, 3⟩, ⟨65535, 0⟩]).words)).Valid :=
    Bitset.exact_uncounted _
  refine ⟨h, vs, hvs, hvs.numRuns.symm, hsame _ hb fun v => ?_⟩
  rw [Bool.eq_iff_iff, contains_iff h, contains_iff hb, mem_run h, mem_bitset]
  exact Bool.eq_iff_iff.mp (Bitset.test_ofRuns _ v)

end Container

end Roaring
