import Roaring.Bitmap.Basic
import Roaring.Container.Iter

/-!
# Going through the values of a bitmap

The values of a bitmap one at a time, key by key. A walk is inside the container at its index, or in
none, before its first step and once it has ended. A step takes the next value of that container; if
there is none, it enters the container after it, and tries again there.
-/
namespace Roaring.Bitmap

/-- A walk over the values of a bitmap. While it is inside a container, its index is that of an
entry. -/
structure Iter where
  entries : Array Entry
  current : Option Container.Iter := none
  index : Nat := 0
  inside : current.isSome → index < entries.size := by simp

/-- A walk that starts at the smallest value. -/
def iter (b : Bitmap) : Iter := { entries := b.entries }

namespace Iter

theorem isSome_current {it : Iter} {next : UInt16 × Container.Iter}
    (h : it.current.bind (·.next?) = some next) : it.current.isSome := by
  obtain ⟨walk, hwalk, -⟩ := Option.bind_eq_some_iff.mp h
  rw [hwalk]
  rfl

/-- The index of the entry that the walk enters next. -/
def upcoming (it : Iter) : Nat := if it.current.isSome then it.index + 1 else it.index

/-- The next value, if there is one, and the walk after it. -/
def next (it : Iter) : Option UInt32 × Iter :=
  match hnext : it.current.bind (·.next?) with
  | some (low, walk) =>
    have hin := it.inside (isSome_current hnext)
    (some (joinHalves it.entries[it.index].key low),
      { it with current := some walk, inside := fun _ => hin })
  | none =>
    let index := it.upcoming
    if h : index < it.entries.size then
      let walk := it.entries[index].container.iter
      next { it with current := some walk, index := index, inside := fun _ => h }
    else (none, { it with current := none, index := index, inside := by simp })
termination_by it.entries.size - it.upcoming
decreasing_by exact Nat.sub_succ_lt_self _ _ h

end Iter

end Roaring.Bitmap
