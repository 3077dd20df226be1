import Roaring.Proofs.Checked.Sorted
import Roaring.Proofs.Runs.Append

/-!
# Runs appended and toggled, checked

The end of a run is one past what fits a value, so it is a 32 bit number; where a run is cut or made
longer, its bounds are narrowed again. A run that is appended or toggled lies in the domain and does
not start before the last one, and so no bound is lost.
-/
namespace Roaring

/-! ## Bounds -/

namespace Run.Checked

open Machine

/-- The last value. -/
def last (r : Run) : Option Nat := to32 (r.first.toNat + r.extra.toNat)

/-- The first value past the run. -/
def stop (r : Run) : Option Nat := do to32 ((← last r) + 1)

/-- The number of values. -/
def card (r : Run) : Option Nat := to64 (r.extra.toNat + 1)

/-- The run of the values in `[start, stop)`. -/
def ofBounds (start stop : Nat) : Option Run := do
  let first ← to16 start
  let extra ← to16 (← minus (← minus stop start) 1)
  some ⟨first, extra⟩

@[simp] theorem last_eq (r : Run) : last r = some r.last := by
  have h1 := r.first.toNat_lt
  have h2 := r.extra.toNat_lt
  exact to32_of_lt (by omega)

@[simp] theorem stop_eq (r : Run) : stop r = some r.stop := by
  have h1 := r.first.toNat_lt
  have h2 := r.extra.toNat_lt
  rw [stop, bind_of_eq (last_eq r)]
  exact to32_of_lt (by rw [Run.last]; omega)

@[simp] theorem card_eq (r : Run) : card r = some r.card := by
  have h := r.extra.toNat_lt
  exact to64_of_lt (by omega)

theorem ofBounds_eq {start stop : Nat} (h : start < stop) (h' : stop ≤ 65536) :
    ofBounds start stop = some (Run.ofBounds start stop) := by
  rw [ofBounds, bind_of_eq (to16_of_lt (by omega)), bind_of_eq (minus_of_le (by omega)),
    bind_of_eq (minus_of_le (by omega)), bind_of_eq (to16_of_lt (by omega)), Run.ofBounds]

end Run.Checked

namespace Runs

theorem size_le {rs : Array Run} (h : Valid rs) : rs.size ≤ 65536 := by
  have hinc : Sorted.Increasing (rs.map (·.first)) := by
    rw [Sorted.Increasing, Array.toList_map]
    refine List.pairwise_map.mpr (h.2.imp fun {a b} hab => UInt16.lt_iff_toNat_lt.mpr ?_)
    have := a.first_lt_stop
    unfold Apart at hab
    omega
  simpa using Sorted.size_le hinc

theorem card_le {rs : Array Run} (h : Valid rs) : card rs ≤ 65536 := by
  rw [← size_values]
  exact Sorted.size_le (increasing_values h)

namespace Checked

open Machine

/-! ## The last run -/

/-- Adds a run, as part of the last one when the two overlap or touch. -/
def appendRun (out : Array Run) (r : Run) : Option (Array Run) :=
  match out.back? with
  | none => some (out.push r)
  | some last => do
    if r.first.toNat ≤ (← Run.Checked.stop last) then do
      let far := max (← Run.Checked.last r) (← Run.Checked.last last)
      let extra ← to16 (← minus far last.first.toNat)
      some (out.pop.push { last with extra := extra })
    else some (out.push r)

/-- What is left over of two runs past the end of the shorter one, if anything. -/
def tail (stop stop' : Nat) : Option (Option Run) :=
  if stop < stop' then (Run.Checked.ofBounds stop stop').map some
  else if stop' < stop then (Run.Checked.ofBounds stop' stop).map some
  else some none

/-- Toggles a run: the values that it shares with the last one go. -/
def toggleRun (out : Array Run) (r : Run) : Option (Array Run) := do
  let start := r.first.toNat
  let stop ← Run.Checked.stop r
  match out.back? with
  | none => some (out.push r)
  | some last => do
    let lastStart := last.first.toNat
    let lastStop ← Run.Checked.stop last
    if lastStop < start then some (out.push r)
    else do
      let i ← minus out.size 1
      if lastStop = start then do
        let extra ← to16 (← minus (← minus stop lastStart) 1)
        store out i { last with extra := extra }
      else if start = lastStart then do
        match ← tail stop lastStop with
        | none => some out.pop
        | some rest => store out i rest
      else do
        let extra ← to16 (← minus (← minus start lastStart) 1)
        let out ← store out i { last with extra := extra }
        some (out ++ (← tail stop lastStop).toList)

/-- The last run is the one at the last index. -/
theorem store_last {front : Array Run} {last r : Run} :
    store (front.push last) ((front.push last).size - 1) r = some (front.push r) := by
  rw [store_of_lt (by simp)]
  exact congrArg some (Array.toList_inj.mp (by simp [List.set_append_right]))

theorem onLast_push (step : List Run → List Run) (front : Array Run) (last : Run) :
    onLast step (front.push last) = front ++ (step [last]).reverse := by
  simp [onLast]

section Steps

variable {out : Array Run} {r : Run}

/-- A run may be added to an array: neither it nor the last run overruns, and it does not start
before that one. -/
structure Fits (out : Array Run) (r : Run) : Prop where
  inDomain : r.InDomain
  last : ∀ l ∈ out.back?, l.InDomain ∧ l.first ≤ r.first

theorem fits_of_valid (h : Valid out) (hr : r.InDomain)
    (hlast : ∀ l ∈ out.back?, l.first ≤ r.first) : Fits out r :=
  ⟨hr, fun l hl => ⟨h.1 l (Array.mem_toList_iff.mpr (Array.mem_of_back? hl)), hlast l hl⟩⟩

theorem appendRun_eq (h : Fits out r) : appendRun out r = some (Runs.appendRun out r) := by
  unfold appendRun Runs.appendRun
  split
  · rename_i hback
    rw [Array.back?_eq_none_iff.mp hback]
    rfl
  · rename_i last hback
    obtain ⟨front, rfl⟩ := Array.back?_eq_some_iff.mp hback
    obtain ⟨hlast, hle⟩ := h.last last hback
    have hr : r.last + 1 ≤ 65536 := h.inDomain
    have hlast : last.last + 1 ≤ 65536 := hlast
    have hfirst : last.first.toNat ≤ last.last := Nat.le_add_right _ _
    rw [bind_of_eq (Run.Checked.stop_eq last), onLast_push, append]
    split
    · rw [bind_of_eq (Run.Checked.last_eq r), bind_of_eq (Run.Checked.last_eq last),
        bind_of_eq (minus_of_le (by omega)), bind_of_eq (to16_of_lt (by omega))]
      simp
    · simp

theorem tail_cases {a b : Run} (ha : a.InDomain) (hb : b.InDomain) :
    (Runs.tail a b = [] ∧ tail a.stop b.stop = some none) ∨
      ∃ rest, Runs.tail a b = [rest] ∧ tail a.stop b.stop = some (some rest) := by
  unfold tail Runs.tail
  split
  · exact .inr ⟨_, rfl, congrArg _ (Run.Checked.ofBounds_eq ‹_› hb)⟩
  · split
    · exact .inr ⟨_, rfl, congrArg _ (Run.Checked.ofBounds_eq ‹_› ha)⟩
    · exact .inl ⟨rfl, rfl⟩

/-- A run that is cut off where another starts keeps the values in between. -/
theorem toUInt16_between {v w : UInt16} (h : v < w) :
    (w.toNat - v.toNat - 1).toUInt16 = w - v - 1 := by
  have hlt := UInt16.lt_iff_toNat_lt.mp h
  have hw := w.toNat_lt
  have hcut := Run.stop_cutBefore (r := ⟨v, 0⟩) h
  unfold Run.stop Run.last at hcut
  rw [← UInt16.toNat_inj, toNat_toUInt16 (by omega)]
  dsimp only at hcut
  omega

theorem toggleRun_eq (h : Fits out r) : toggleRun out r = some (Runs.toggleRun out r) := by
  rw [toggleRun, bind_of_eq (Run.Checked.stop_eq r), Runs.toggleRun]
  split
  · rename_i hback
    rw [Array.back?_eq_none_iff.mp hback]
    rfl
  · rename_i last hback
    obtain ⟨front, rfl⟩ := Array.back?_eq_some_iff.mp hback
    obtain ⟨hlast, hle⟩ := h.last last hback
    have hr : r.stop ≤ 65536 := h.inDomain
    have hfirst := UInt16.le_iff_toNat_le.mp hle
    have hrstop := r.first_lt_stop
    rw [bind_of_eq (Run.Checked.stop_eq last), onLast_push, toggle]
    split
    · simp
    · rw [bind_of_eq (minus_of_le (by simp))]
      split
      · rw [bind_of_eq (minus_of_le (by omega)), bind_of_eq (minus_of_le (by omega)),
          bind_of_eq (to16_of_lt (by omega)), store_last]
        simp
      · have htail := tail_cases h.inDomain hlast
        simp only [UInt16.toNat_inj]
        split
        · rcases htail with ⟨hplain, hrest⟩ | ⟨rest, hplain, hrest⟩
          · rw [bind_of_eq hrest, hplain]
            simp
          · rw [bind_of_eq hrest, hplain]
            simpa using store_last
        · rename_i hne
          have hlt : last.first < r.first := UInt16.lt_of_le_of_ne hle fun e => hne e.symm
          have hlt' := UInt16.lt_iff_toNat_lt.mp hlt
          rw [bind_of_eq (minus_of_le (by omega)), bind_of_eq (minus_of_le (by omega)),
            bind_of_eq (to16_of_lt (by omega)), bind_of_eq store_last, toUInt16_between hlt]
          rcases htail with ⟨hplain, hrest⟩ | ⟨rest, hplain, hrest⟩
          · rw [bind_of_eq hrest, hplain]
            simp
          · rw [bind_of_eq hrest, hplain]
            simp

end Steps

/-! ## One run after the other -/

/-- Takes a step with the bounds of each run in turn. -/
def overRuns {β : Type} (step : β → Nat → Nat → Option β) (b : β) (rs : Array Run) : Option β :=
  rs.toList.foldlM (fun b r => do step b r.first.toNat (← Run.Checked.stop r)) b

/-- Steps that come to plain ones within the domain, as long as something is kept, do so over valid
runs. -/
theorem overRuns_eq {β : Type} {step : β → Nat → Nat → Option β} {plain : β → Nat → Nat → β}
    (kept : β → Prop) (h : ∀ b start stop, kept b → stop ≤ 65536 →
      step b start stop = some (plain b start stop) ∧ kept (plain b start stop))
    {b : β} (hb : kept b) {rs : Array Run} (hrs : Valid rs) :
    overRuns step b rs = some (rs.foldl (fun b r => plain b r.first.toNat r.stop) b) := by
  rw [overRuns, ← Array.foldl_toList]
  refine foldlM_eq_some (fun b rs => kept b ∧ ∀ r ∈ rs, r.InDomain) ?_ _ _ ⟨hb, hrs.1⟩
  rintro b r rs ⟨hb, hdom⟩
  obtain ⟨hr, hdom⟩ := List.forall_mem_cons.mp hdom
  obtain ⟨hstep, hkept⟩ := h b r.first.toNat r.stop hb hr
  rw [bind_of_eq (Run.Checked.stop_eq r)]
  exact ⟨hstep, hkept, hdom⟩

end Checked

end Runs

end Roaring
