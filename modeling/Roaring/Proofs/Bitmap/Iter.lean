import Roaring.Bitmap.Iter
import Roaring.Proofs.Bitmap.Values
import Roaring.Proofs.Container.Iter

/-!
# What a walk over a bitmap comes to

A place of a walk stands for the values still to come: those left of the container it is in, and
those of the containers after it. A step gives the first of them and leaves the others, however many
containers it has to enter to find it. So a walk over any bitmap comes to all its values and then to
an end that stays one.
-/
namespace Roaring.Bitmap

namespace Iter

variable {it it' : Iter}

/-! ## What is to come -/

/-- The values of the entries from an index on. -/
def valuesFrom (es : Array Entry) (i : Nat) : List UInt32 := (es.toList.drop i).flatMap entryValues

theorem valuesFrom_of_lt {es : Array Entry} {i : Nat} (h : i < es.size) :
    valuesFrom es i = entryValues es[i] ++ valuesFrom es (i + 1) := by
  rw [valuesFrom, List.drop_eq_getElem_cons (by simpa using h), List.flatMap_cons,
    Array.getElem_toList, valuesFrom]

/-- The values to come under the key of the container that the walk is in. -/
def here (it : Iter) : List UInt32 :=
  match it.entries[it.index]? with
  | some e => (it.current.elim [] (·.rest)).map (joinHalves e.key)
  | none => []

/-- The values to come. -/
def rest (it : Iter) : List UInt32 := it.here ++ valuesFrom it.entries it.upcoming

theorem here_of_some (it : Iter) {walk : Container.Iter} (hcurrent : it.current = some walk)
    (h : it.index < it.entries.size) :
    it.here = walk.rest.map (joinHalves it.entries[it.index].key) := by
  rw [here, Array.getElem?_eq_getElem h, hcurrent, Option.elim_some]

/-- A container that gives no value has none left. -/
theorem here_of_none (h : it.current.bind (·.next?) = none) : it.here = [] := by
  have hnil : it.current.elim [] (·.rest) = [] := by
    cases hcurrent : it.current with
    | none => rfl
    | some walk =>
      rw [hcurrent, Option.bind_some] at h
      rw [Option.elim_some, walk.rest_eq, h]
      rfl
  rw [here, hnil]
  split <;> rfl

theorem rest_of_none (h : it.current.bind (·.next?) = none) :
    it.rest = valuesFrom it.entries it.upcoming := by
  rw [rest, here_of_none h, List.nil_append]

/-- Where a container is entered, all its values are to come. -/
theorem rest_enter {es : Array Entry} {i : Nat} (h : i < es.size) :
    rest ⟨es, some es[i].container.iter, i, fun _ => h⟩ = valuesFrom es i := by
  rw [rest, here_of_some _ rfl h, Container.Iter.rest_iter, valuesFrom_of_lt h]
  rfl

theorem rest_iter (b : Bitmap) : b.iter.rest = b.values.toList := by
  rw [rest_of_none rfl, toList_values]
  rfl

/-! ## Steps up to the end -/

/-- A step gives the first value to come, and leaves the others. -/
theorem next_spec (it : Iter) : it.next.1 = it.rest.head? ∧ it.next.2.rest = it.rest.tail := by
  fun_induction next it with
  | case1 it low walk hnext hin =>
    obtain ⟨walk', hcurrent, hwalk⟩ := Option.bind_eq_some_iff.mp hnext
    have hhere : it.here = joinHalves it.entries[it.index].key low ::
        walk.rest.map (joinHalves it.entries[it.index].key) := by
      rw [here_of_some it hcurrent hin, walk'.rest_eq, hwalk]
      rfl
    have hleft := here_of_some { it with current := some walk, inside := fun _ => hin } rfl hin
    rw [rest.eq_def it, hhere, upcoming, hcurrent]
    exact ⟨rfl, congrArg (· ++ valuesFrom it.entries (it.index + 1)) hleft⟩
  | case2 it hnext index h walk =>
    rename_i ih
    rwa [rest_of_none hnext, ← rest_enter h]
  | case3 it hnext index h =>
    have hnil : ∀ i, it.entries.size ≤ i → valuesFrom it.entries i = [] := fun i hi => by
      rw [valuesFrom, List.drop_eq_nil_of_le (by simpa using hi)]
      rfl
    rw [rest_of_none hnext, rest_of_none rfl, hnil _ (Nat.le_of_not_lt h)]
    exact ⟨rfl, hnil _ (Nat.le_of_not_lt h)⟩

/-- A walk that has come to an end stays there. -/
theorem next_of_end (h : it.next = (none, it')) : it'.next = (none, it') := by
  fun_induction next it with
  | case1 it low walk hnext hin => cases h
  | case2 it hnext index hlt walk =>
    rename_i ih
    exact ih h
  | case3 it hnext index hge =>
    cases h
    rw [next]
    split
    · rename_i hnext'
      cases hnext'
    · exact dif_neg hge

/-- One step after the other comes to the values of a list, and then to an end that stays one. -/
inductive Yields : Iter → List UInt32 → Prop
  | done {it it' : Iter} (h : it.next = (none, it')) (hend : it'.next = (none, it')) : Yields it []
  | step {it it' : Iter} {v : UInt32} {vs : List UInt32} (h : it.next = (some v, it'))
      (hrest : Yields it' vs) : Yields it (v :: vs)

theorem yields_rest (it : Iter) : it.Yields it.rest := by
  generalize hvs : it.rest = vs
  induction vs generalizing it with
  | nil =>
    have hnext : it.next = (none, it.next.2) := Prod.ext (by rw [(next_spec it).1, hvs]; rfl) rfl
    exact .done hnext (next_of_end hnext)
  | cons v vs ih =>
    have hnext : it.next = (some v, it.next.2) := Prod.ext (by rw [(next_spec it).1, hvs]; rfl) rfl
    exact .step hnext (ih _ (by rw [(next_spec it).2, hvs]; rfl))

end Iter

/-- A walk over any bitmap comes to its values, key by key, and then ends. -/
theorem yields_values (b : Bitmap) : b.iter.Yields b.values.toList :=
  Iter.rest_iter b ▸ b.iter.yields_rest

end Roaring.Bitmap
