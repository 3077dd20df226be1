import Roaring.Proofs.Bitmap.Session
import Roaring.Proofs.Checked.Bitmap.InPlace

/-!
# Sessions in columns

A session whose bitmaps stay in columns from one command to the next. Each command takes the columns
of the bitmaps before it to those of the bitmaps after it, so no session fails, and whatever was
done the keys and the containers of every bitmap are in step.
-/
namespace Roaring

open Machine

namespace Columns

/-- The columns after a change. -/
def apply (c : Change) (s : Columns) : Option Columns :=
  match c with
  | .insert v => do some (← s.insert v).2
  | .insertAll vs => s.insertAll vs
  | .erase v => do some (← s.erase v).2
  | .insertRange lo hi => s.insertRange lo hi
  | .eraseRange lo hi => s.eraseRange lo hi
  | .toggleRange lo hi => s.toggleRange lo hi
  | .absorbSelf op => s.absorbSelf op
  | .runOptimize => do some (← s.runOptimize).2
  | .removeRuns => do some (← s.removeRuns).2
  | .clear => some s.clear
  | .shrink => some s

theorem apply_of {b : Bitmap} (h : b.WellFormed) (c : Change) :
    apply c b.columns = some (b.apply c).columns := by
  cases c with
  | insert v => exact bind_of_eq (insert_of h v) _
  | insertAll vs => exact insertAll_of h vs
  | erase v => exact bind_of_eq (erase_of h v) _
  | insertRange lo hi => exact insertRange_of lo hi h
  | eraseRange lo hi => exact eraseRange_of lo hi h
  | toggleRange lo hi => exact toggleRange_of lo hi h
  | absorbSelf op => exact absorbSelf_of op h
  | runOptimize => exact bind_of_eq (runOptimize_of h) _
  | removeRuns => exact bind_of_eq (removeRuns_of h) _
  | clear => exact congrArg some clear_of
  | shrink => rfl

/-- Keys in order, and under each a valid container that holds a value. -/
structure WellFormed (s : Columns) : Prop where
  size_eq : s.keys.size = s.containers.size
  sorted : s.keys.toList.Pairwise (· < ·)
  valid : ∀ c ∈ s.containers, c.Valid ∧ c.isEmpty = false

theorem wellFormed_of {b : Bitmap} (h : b.WellFormed) : b.columns.WellFormed where
  size_eq := size_keys_of.trans size_containers_of.symm
  sorted := by
    rw [toList_keys_of]
    exact List.pairwise_map.mpr h.1
  valid c hc := by
    obtain ⟨e, he, rfl⟩ := Array.mem_map.mp hc
    exact h.2 e he

end Columns

namespace Session.Checked

/-- Changes the columns at a place, if there are any. -/
def changeAt (ss : List Columns) (i : Nat) (f : Columns → Option Columns) :
    Option (List Columns) :=
  match ss[i]? with
  | some s => do some (ss.set i (← f s))
  | none => some ss

/-- The columns after a command. -/
def step (ss : List Columns) : Command → Option (List Columns)
  | .create t => some (ss ++ [.of t #[]])
  | .ofRange lo hi => do some (ss ++ [← Columns.ofRange lo hi])
  | .ofValues vs => do some (ss ++ [← Columns.ofValues vs])
  | .copy i => some (ss ++ ss[i]?.toList)
  | .combine op i j =>
    match ss[i]?, ss[j]? with
    | some s, some r => do some (ss ++ [← Columns.combine op s r])
    | _, _ => some ss
  | .unionAll places => do some (ss ++ [← Columns.unionAll (places.filterMap (ss[·]?))])
  | .change i c => changeAt ss i (Columns.apply c)
  | .absorb op i j =>
    match ss[j]? with
    | some r => changeAt ss i (Columns.absorb op · r)
    | none => some ss

/-- The columns of a session. -/
def run (cmds : List Command) : Option (List Columns) := cmds.foldlM step []

variable {s : List Bitmap}

/-! ## One step -/

/-- A bitmap that is worked out in columns joins the session in columns. -/
theorem append_of {o : Option Columns} {b : Bitmap} (h : o = some b.columns) :
    (do some (s.map Bitmap.columns ++ [← o])) = some ((s ++ [b]).map Bitmap.columns) := by
  rw [bind_of_eq h, List.map_append, List.map_singleton]

theorem changeAt_of {f : Columns → Option Columns} {g : Bitmap → Bitmap} (i : Nat)
    (h : ∀ b ∈ s, f b.columns = some (g b).columns) :
    changeAt (s.map Bitmap.columns) i f = some ((s.modify i g).map Bitmap.columns) := by
  unfold changeAt
  rw [List.getElem?_map, List.modify_eq_set_getElem?]
  cases hb : s[i]? with
  | none => rfl
  | some b =>
    rw [Option.map_some]
    dsimp only
    rw [bind_of_eq (h b (List.mem_of_getElem? hb))]
    exact congrArg some List.map_set.symm

/-- A command on columns comes to the one on their bitmaps. -/
theorem step_of (h : ∀ b ∈ s, b.WellFormed) (c : Command) :
    step (s.map Bitmap.columns) c = some ((Session.step s c).map Bitmap.columns) := by
  cases c with
  | create t => exact append_of (o := some _) rfl
  | ofRange lo hi => exact append_of (Columns.ofRange_of lo hi)
  | ofValues vs => exact append_of (Columns.ofValues_of vs)
  | copy i =>
    simp only [step, Session.step, List.getElem?_map, List.map_append]
    cases s[i]? <;> rfl
  | combine op i j =>
    simp only [step, Session.step, List.getElem?_map]
    cases ha : s[i]? with
    | none => rfl
    | some a =>
      cases hb : s[j]? with
      | none => rfl
      | some b =>
        exact append_of (Columns.combine_of op (h a (List.mem_of_getElem? ha))
          (h b (List.mem_of_getElem? hb)))
  | unionAll places =>
    have hplaces : places.filterMap ((s.map Bitmap.columns)[·]?) =
        (places.filterMap (s[·]?)).map Bitmap.columns := by
      simp only [List.getElem?_map, List.map_filterMap]
    simp only [step, hplaces]
    refine append_of (Columns.unionAll_of fun b hb => ?_)
    obtain ⟨i, -, hi⟩ := List.mem_filterMap.mp hb
    exact h b (List.mem_of_getElem? hi)
  | change i c => exact changeAt_of i fun b hb => Columns.apply_of (h b hb) c
  | absorb op i j =>
    simp only [step, Session.step, List.getElem?_map]
    cases hb : s[j]? with
    | none => rfl
    | some b =>
      exact changeAt_of i fun a ha => Columns.absorb_of op (h a ha) (h b (List.mem_of_getElem? hb))

/-! ## A whole session -/

/-- A session in columns never fails, and ends with the columns of the bitmaps that it is about. -/
theorem run_of (cmds : List Command) :
    run cmds = some ((Session.run cmds).map Bitmap.columns) := by
  refine foldlM_view (List.map Bitmap.columns) (fun s _ => ∀ b ∈ s, b.Kept False) ?_ cmds []
    (by simp)
  exact fun s c _ h => ⟨step_of (fun b hb => (h b hb).wellFormed) c,
    kept_step (t := .standard) False.elim h c⟩

/-- Whatever a session does, all its columns are well formed. -/
theorem columns_wellFormed (cmds : List Command) :
    ∃ ss, run cmds = some ss ∧ ∀ s ∈ ss, s.WellFormed := by
  refine ⟨_, run_of cmds, fun s hs => ?_⟩
  obtain ⟨b, hb, rfl⟩ := List.mem_map.mp hs
  have hkept : ∀ b ∈ Session.run cmds, b.Kept False :=
    kept_run (t := .standard) cmds False.elim (by simp)
  exact Columns.wellFormed_of (hkept b hb).wellFormed

end Session.Checked

end Roaring
