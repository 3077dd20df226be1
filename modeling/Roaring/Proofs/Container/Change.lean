import Roaring.Proofs.Container.Update

/-!
# Changes to a container

All that can be done to one container: what every encoding offers, and what only arrays, bitsets or
run lists do. Some changes ask something of what they are given: a pushed value has to be the
largest, and a run to append may not start before the last one. Where that is met, a change keeps
the container valid, and it has an outcome unless a bitset is given a range that goes on past the
domain.
-/
namespace Roaring

/-! ## Outcomes -/

/-- An outcome that, where there is one, is as `p` asks; and there is one if `ok` holds. -/
def Gives {α : Type} (ok : Prop) (p : α → Prop) (o : Option α) : Prop :=
  (∀ x ∈ o, p x) ∧ (ok → o.isSome)

section Gives

variable {α β : Type} {ok : Prop} {p : α → Prop} {q : β → Prop} {o : Option α}

theorem gives_some {x : α} (hx : p x) : Gives ok p (some x) :=
  ⟨fun _ hy => Option.some.inj hy ▸ hx, fun _ => rfl⟩

theorem gives_of_eq {x : α} (h : o = some x) (hx : p x) : Gives ok p o := h ▸ gives_some hx

theorem Gives.map (h : Gives ok p o) {f : α → β} (hf : ∀ x, p x → q (f x)) :
    Gives ok q (o.map f) := by
  refine ⟨fun y hy => ?_, fun hok => ?_⟩
  · obtain ⟨x, hx, rfl⟩ := Option.map_eq_some_iff.mp hy
    exact hf x (h.1 x hx)
  · rw [Option.isSome_map]
    exact h.2 hok

theorem gives_ite [Decidable ok] {x : α} (hx : ok → p x) :
    Gives ok p (if ok then some x else none) := by
  split
  · exact gives_some (hx ‹_›)
  · exact ⟨by simp, fun hok => absurd hok ‹_›⟩

end Gives

/-! ## Changes of one encoding -/

namespace Sorted

/-- A change that only an array offers. -/
inductive Change where
  | push (v : UInt16)
  /-- Adds a value unless the array holds `max` others. -/
  | insertWithin (max : Nat) (v : UInt16)

namespace Change

def apply (c : Change) (vs : Array UInt16) : Array UInt16 :=
  match c with
  | push v => vs.push v
  | insertWithin max v => (Sorted.insertWithin max vs v).2

/-- A pushed value comes after all the others. -/
def Proper (c : Change) (vs : Array UInt16) : Prop :=
  match c with
  | push v => ∀ m ∈ vs.back?, m < v
  | insertWithin _ _ => True

theorem increasing_apply {c : Change} {vs : Array UInt16} (h : Increasing vs)
    (hc : c.Proper vs) : Increasing (c.apply vs) := by
  cases c with
  | push v => exact increasing_push h hc
  | insertWithin max v => exact (insertWithin_spec max h v).1

end Change

end Sorted

namespace Bitset

/-- A change that only a bitset offers. -/
inductive Change where
  | fill
  | recount
  /-- Removes a value without a change of encoding. -/
  | erase (v : UInt16)
  | insertAll (vs : Array UInt16)
  | eraseAll (vs : Array UInt16)
  | toggleAll (vs : Array UInt16)
  | insertRange (start stop : Nat)
  | eraseRange (start stop : Nat)
  | toggleRange (start stop : Nat)

section RangeOk

variable {b : Bitset} {start stop : Nat}

/-- An empty range leaves the number exact wherever it lies. -/
theorem exact_changeRange_of_rangeOk {change : Words → Nat → Nat → Words}
    {after : Nat → Nat → Nat} (h : b.Exact)
    (hin : stop ≤ 65536 → (changeRange change after b start stop).Exact)
    (hok : RangeOk start stop) : (changeRange change after b start stop).Exact := by
  by_cases hlt : start < stop
  · exact hin (hok hlt)
  · rw [changeRange, if_neg hlt]
    exact h

theorem gives_insertRange? (h : b.Exact) :
    Gives (RangeOk start stop) Exact (b.insertRange? start stop) :=
  gives_ite (exact_changeRange_of_rangeOk h (exact_insertRange h))

theorem gives_eraseRange? (h : b.Exact) :
    Gives (RangeOk start stop) Exact (b.eraseRange? start stop) :=
  gives_ite fun _ => exact_eraseRange h start stop

theorem gives_toggleRange? (h : b.Exact) :
    Gives (RangeOk start stop) Exact (b.toggleRange? start stop) :=
  gives_ite (exact_changeRange_of_rangeOk h (exact_toggleRange h))

end RangeOk

namespace Change

def after? (c : Change) (b : Bitset) : Option Bitset :=
  match c with
  | fill => some .full
  | recount => some b.recount
  | erase v => some (b.erase v).2
  | insertAll vs => some (b.insertAll vs)
  | eraseAll vs => some (b.eraseAll vs)
  | toggleAll vs => some (b.toggleAll vs)
  | insertRange start stop => b.insertRange? start stop
  | eraseRange start stop => b.eraseRange? start stop
  | toggleRange start stop => b.toggleRange? start stop

/-- No value of a given range is past the domain. -/
def InDomain : Change → Prop
  | insertRange start stop | eraseRange start stop | toggleRange start stop => RangeOk start stop
  | _ => True

theorem gives_exact {b : Bitset} (h : b.Exact) (c : Change) :
    Gives c.InDomain Exact (c.after? b) := by
  cases c with
  | fill => exact gives_some exact_full
  | recount => exact gives_some (exact_counted b.words)
  | erase v => exact gives_some (exact_erase h v)
  | insertAll vs => exact gives_some (exact_insertAll h vs)
  | eraseAll vs => exact gives_some (exact_eraseAll h vs)
  | toggleAll vs => exact gives_some (exact_toggleAll h vs)
  | insertRange start stop => exact gives_insertRange? h
  | eraseRange start stop => exact gives_eraseRange? h
  | toggleRange start stop => exact gives_toggleRange? h

end Change

end Bitset

namespace Runs

/-- A change that only a run list offers. -/
inductive Change where
  | append (r : Run)
  | toggle (r : Run)

namespace Change

def run : Change → Run
  | append r => r
  | toggle r => r

def apply (c : Change) (rs : Array Run) : Array Run :=
  match c with
  | append r => appendRun rs r
  | toggle r => toggleRun rs r

/-- The run lies in the domain and does not start before the last one. -/
def Proper (c : Change) (rs : Array Run) : Prop :=
  c.run.InDomain ∧ ∀ l ∈ rs.back?, l.first ≤ c.run.first

theorem valid_apply {c : Change} {rs : Array Run} (h : Valid rs) (hc : c.Proper rs) :
    Valid (c.apply rs) := by
  obtain ⟨hdom, hle⟩ := hc
  cases c with
  | append r => exact (appendRun_spec h hdom hle).1
  | toggle r => exact (toggleRun_spec h hdom hle).1

end Change

end Runs

/-! ## Changes of any container -/

namespace Container

/-- A change to one container. -/
inductive Change where
  | insert (v : UInt16)
  | erase (v : UInt16)
  | insertRange (start stop : Nat)
  | eraseRange (start stop : Nat)
  | toggleRange (start stop : Nat)
  | absorbSelf (op : SetOp)
  | compact
  | runOptimize
  | removeRuns
  | clear
  | reserve (n : Nat)
  /-- Gives back spare room, which changes no value. -/
  | shrink
  | onArray (c : Sorted.Change)
  | onBitset (c : Bitset.Change)
  | onRuns (c : Runs.Change)

namespace Change

/-- The container after a change. One that belongs to another encoding changes nothing, and neither
does room that is refused. -/
def after? (t : Thresholds) (c : Change) (a : Container) : Option Container :=
  match c, a with
  | insert v, a => some (a.insert t v).2
  | erase v, a => some (a.erase t v).2
  | insertRange start stop, a => insertRange? t a start stop
  | eraseRange start stop, a => eraseRange? t a start stop
  | toggleRange start stop, a => toggleRange? t a start stop
  | absorbSelf op, a => absorbSelf? t op a
  | compact, a => compact? t a
  | runOptimize, a => (runOptimize? t a).map (·.2)
  | removeRuns, a => (removeRuns? t a).map (·.2)
  | clear, a => some a.clear
  | reserve n, a => some ((a.reserve n).toOption.getD a)
  | shrink, a => some a
  | onArray c, array vs => some (array (c.apply vs))
  | onBitset c, bitset b => (c.after? b).map bitset
  | onRuns c, run rs => some (run (c.apply rs))
  | _, a => some a

/-- What a change asks of the container it is applied to. -/
def Proper (c : Change) (a : Container) : Prop :=
  match c, a with
  | onArray c, array vs => c.Proper vs
  | onRuns c, run rs => c.Proper rs
  | _, _ => True

/-- No range given to a bitset goes on past the domain. -/
def InDomain : Change → Prop
  | onBitset c => c.InDomain
  | _ => True

end Change

theorem valid_empty (e : Encoding) : (empty e).Valid := by
  cases e with
  | array => exact Sorted.increasing_empty
  | bitset => exact Bitset.exact_empty
  | run => exact Runs.validList_nil

theorem valid_absorbSelf (t : Thresholds) (op : SetOp) {c : Container} (h : c.Valid) :
    (absorbSelf t op c).Valid := by
  cases op with
  | inter | union => exact (settled_compact h).valid
  | diff | symmDiff => exact valid_empty .array

theorem reserve_eq (c : Container) (n : Nat) : (c.reserve n).toOption.getD c = c := by
  unfold reserve
  cases Storage.reserve c.encoding c.stored n <;> rfl

/-- A proper change keeps a container valid, and goes through if it stays in the domain. -/
theorem Change.gives_valid {t : Thresholds} {c : Change} {a : Container} (h : a.Valid)
    (hc : c.Proper a) : Gives c.InDomain Valid (c.after? t a) := by
  have hrange : ∀ {op : SetOp} {start stop : Nat} {ok : Prop}, op.keepsLeft →
      Gives ok Valid (absorbRange? t op a start stop) := fun hop =>
    gives_of_eq (absorbRange?_eq t _ h _ _) (absorbRange_spec t _ _ _ hop h).1
  cases c with
  | insert v => exact gives_some (insert_spec t v h).1
  | erase v => exact gives_some (erase_spec t v h).1
  | insertRange start stop => exact hrange rfl
  | eraseRange start stop => exact hrange rfl
  | toggleRange start stop => exact hrange rfl
  | absorbSelf op => exact gives_of_eq (absorbSelf?_eq t op h) (valid_absorbSelf t op h)
  | compact => exact gives_of_eq (compact?_eq t h) (settled_compact h).valid
  | runOptimize =>
    refine gives_of_eq ?_ (recodes_preferRuns t a h).1
    rw [after?, runOptimize?_eq t h]
    rfl
  | removeRuns =>
    refine gives_of_eq ?_ (recodes_removeRuns t a h).1
    rw [after?, removeRuns?_eq t h]
    rfl
  | clear => exact gives_some (valid_empty a.encoding)
  | reserve n => exact gives_some ((reserve_eq a n).symm ▸ h)
  | shrink => exact gives_some h
  | onArray c =>
    cases a with
    | array vs => exact gives_some (Sorted.Change.increasing_apply h hc)
    | bitset b => exact gives_some h
    | run rs => exact gives_some h
  | onBitset c =>
    cases a with
    | array vs => exact gives_some h
    | bitset b => exact (c.gives_exact h).map fun _ hx => hx
    | run rs => exact gives_some h
  | onRuns c =>
    cases a with
    | array vs => exact gives_some h
    | bitset b => exact gives_some h
    | run rs => exact gives_some (Runs.Change.valid_apply h hc)

end Container

end Roaring
