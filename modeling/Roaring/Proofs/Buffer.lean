import Roaring.Proofs.Split
import Roaring.Storage

/-!
# Outputs in reserved room

Room for the elements of a result is asked for before the result is built, and that request may be
refused. Nothing is asked for after it, so no element may come up that the room does not take. A
buffer is an output in such room: that it holds no more is part of its type, and a push onto a full
one has no outcome. What has an outcome in a buffer has kept to its room in every step.
-/
namespace Roaring

/-- An output in room for a number of elements. -/
structure Buffer (α : Type) (room : Nat) where
  items : Array α
  fits : items.size ≤ room

namespace Buffer

variable {α : Type} {room : Nat}

def empty (room : Nat) : Buffer α room := ⟨#[], Nat.zero_le _⟩

/-- An array as an output, if there is room for it. -/
def ofArray? (xs : Array α) : Option (Buffer α room) :=
  if fits : xs.size ≤ room then some ⟨xs, fits⟩ else none

/-- Adds an element, if there is room for it. -/
def push? (out : Buffer α room) (x : α) : Option (Buffer α room) := ofArray? (out.items.push x)

/-- Adds the elements of an array, if there is room for all of them. -/
def append? (out : Buffer α room) (xs : Array α) : Option (Buffer α room) :=
  ofArray? (out.items ++ xs)

/-- Replaces the last element. -/
def setLast (out : Buffer α room) (x : α) : Buffer α room :=
  ⟨out.items.setIfInBounds (out.items.size - 1) x, by simpa using out.fits⟩

/-- Removes the last element. -/
def pop (out : Buffer α room) : Buffer α room :=
  ⟨out.items.pop, Nat.le_trans (by simp) out.fits⟩

/-- Asks for room and has a result written into it, from nothing on. -/
def fill (e : Encoding) (room : Nat) (write : Buffer α room → Option (Buffer α room)) :
    Except StorageError (Option (Array α)) := do
  Storage.reserve e 0 room
  return (write (.empty room)).map (·.items)

/-! ## Outcomes -/

/-- There is an outcome, and it holds these elements. -/
def Leaves (outcome : Option (Buffer α room)) (xs : Array α) : Prop :=
  ∃ fits, outcome = some ⟨xs, fits⟩

section Leaves

variable {xs ys : Array α} {x : α} {outcome : Option (Buffer α room)}

theorem leaves_some (fits : xs.size ≤ room) : Leaves (some ⟨xs, fits⟩) xs := ⟨fits, rfl⟩

theorem ofArray?_of_le (h : xs.size ≤ room) : ofArray? xs = some (⟨xs, h⟩ : Buffer α room) :=
  dif_pos h

theorem isSome_ofArray : (ofArray? xs : Option (Buffer α room)).isSome ↔ xs.size ≤ room := by
  unfold ofArray?
  split <;> simp_all

theorem leaves_ofArray (h : xs.size ≤ room) :
    Leaves (ofArray? xs : Option (Buffer α room)) xs := ⟨h, ofArray?_of_le h⟩

theorem leaves_push (fits : xs.size ≤ room) (h : xs.size < room) :
    Leaves (push? ⟨xs, fits⟩ x) (xs.push x) :=
  leaves_ofArray (by rw [Array.size_push]; exact h)

theorem leaves_append (fits : xs.size ≤ room) (h : xs.size + ys.size ≤ room) :
    Leaves (append? ⟨xs, fits⟩ ys) (xs ++ ys) :=
  leaves_ofArray (by rw [Array.size_append]; exact h)

theorem leaves_setLast {y : α} (fits : (xs.push y).size ≤ room) :
    Leaves (some (setLast ⟨xs.push y, fits⟩ x)) (xs.push x) := by
  have hitems : (xs.push y).setIfInBounds ((xs.push y).size - 1) x = xs.push x :=
    Array.toList_inj.mp (by simp [List.set_append_right])
  exact ⟨by simpa using fits, by simp only [setLast, hitems]⟩

theorem leaves_pop {y : α} (fits : (xs.push y).size ≤ room) :
    Leaves (some (pop ⟨xs.push y, fits⟩)) xs := by
  refine ⟨by simp at fits; omega, ?_⟩
  simp only [pop, Array.pop_push]

theorem Leaves.eq_ofArray (h : Leaves outcome xs) : outcome = ofArray? xs := by
  obtain ⟨fits, rfl⟩ := h
  exact (ofArray?_of_le fits).symm

/-- The next step starts from what one step leaves. -/
theorem Leaves.bind_eq {β : Type} (h : Leaves outcome xs) (next : Buffer α room → Option β) :
    ∃ fits, (outcome >>= next) = next ⟨xs, fits⟩ := by
  obtain ⟨fits, rfl⟩ := h
  exact ⟨fits, rfl⟩

theorem Leaves.bind {next : Buffer α room → Option (Buffer α room)} (h : Leaves outcome xs)
    (hnext : ∀ fits, Leaves (next ⟨xs, fits⟩) ys) : Leaves (outcome >>= next) ys := by
  obtain ⟨fits, heq⟩ := h.bind_eq next
  rw [heq]
  exact hnext fits

end Leaves

/-- The request is granted, and the result is what the steps leave. -/
theorem fill_eq {e : Encoding} {write : Buffer α room → Option (Buffer α room)} {xs : Array α}
    (hroom : room * Storage.elementBytes e ≤ Storage.maxBytes)
    (h : Leaves (write (.empty room)) xs) : fill e room write = .ok (some xs) := by
  have hreserve : Storage.reserve e 0 room = .ok () :=
    (Storage.reserve_eq_ok_iff e 0 room).mpr (by rwa [Nat.zero_add])
  obtain ⟨fits, hwrite⟩ := h
  rw [fill, hreserve, hwrite]
  rfl

end Buffer

end Roaring
