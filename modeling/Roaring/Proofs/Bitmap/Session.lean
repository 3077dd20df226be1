import Roaring.Proofs.Bitmap.Update

/-!
# Sessions

A session is a list of bitmaps that commands add to and change in any order. Bitmaps never leave it
and keep their thresholds, so the list at the end shows all that took part. Every step keeps every
bitmap well formed, and while all thresholds are the same, every container as they ask.
-/
namespace Roaring

/-- A change to one bitmap. -/
inductive Change where
  | insert (v : UInt32)
  | insertAll (vs : Array UInt32)
  | erase (v : UInt32)
  | insertRange (lo hi : Bound)
  | eraseRange (lo hi : Bound)
  | toggleRange (lo hi : Bound)
  | absorbSelf (op : SetOp)
  | runOptimize
  | removeRuns
  | clear
  /-- Gives back spare room, which changes no entry. -/
  | shrink

/-- A step of a session; bitmaps are named by their places. -/
inductive Command where
  | create (t : Thresholds)
  | ofRange (lo hi : Bound)
  | ofValues (vs : Array UInt32)
  | copy (i : Nat)
  | combine (op : SetOp) (i j : Nat)
  | unionAll (places : List Nat)
  | change (i : Nat) (c : Change)
  | absorb (op : SetOp) (i j : Nat)

namespace Bitmap

/-- The bitmap after a change. -/
def apply (c : Change) (b : Bitmap) : Bitmap :=
  match c with
  | .insert v => (b.insert v).2
  | .insertAll vs => b.insertAll vs
  | .erase v => (b.erase v).2
  | .insertRange lo hi => b.insertRange lo hi
  | .eraseRange lo hi => b.eraseRange lo hi
  | .toggleRange lo hi => b.toggleRange lo hi
  | .absorbSelf op => b.absorbSelf op
  | .runOptimize => b.runOptimize.2
  | .removeRuns => b.removeRuns.2
  | .clear => b.clear
  | .shrink => b

theorem Kept.apply {strict : Prop} {b : Bitmap} (h : b.Kept strict) (c : Change) :
    (b.apply c).Kept strict := by
  cases c with
  | insert v => exact h.insert v
  | insertAll vs => exact h.insertAll vs
  | erase v => exact h.erase v
  | insertRange lo hi => exact h.insertRange lo hi
  | eraseRange lo hi => exact h.eraseRange lo hi
  | toggleRange lo hi => exact h.toggleRange lo hi
  | absorbSelf op => exact h.absorbSelf op
  | runOptimize => exact h.runOptimize
  | removeRuns => exact h.removeRuns
  | clear => exact kept_empty b.thresholds
  | shrink => exact h

theorem thresholds_apply {b : Bitmap} (c : Change) : (b.apply c).thresholds = b.thresholds := by
  cases c with
  | insert v => exact thresholds_insert b v
  | insertAll vs => exact thresholds_insertAll b vs
  | erase v => exact thresholds_erase b v
  | absorbSelf op => cases op <;> rfl
  | _ => rfl

end Bitmap

namespace Session

/-- The bitmaps after a command; one that names a place without a bitmap changes nothing. -/
def step (s : List Bitmap) : Command → List Bitmap
  | .create t => s ++ [.empty t]
  | .ofRange lo hi => s ++ [.ofRange lo hi]
  | .ofValues vs => s ++ [.ofValues vs]
  | .copy i => s ++ s[i]?.toList
  | .combine op i j =>
    match s[i]?, s[j]? with
    | some a, some b => s ++ [a.combine op b]
    | _, _ => s
  | .unionAll places => s ++ [.unionAll (places.filterMap (s[·]?))]
  | .change i c => s.modify i (·.apply c)
  | .absorb op i j =>
    match s[j]? with
    | some b => s.modify i (·.absorb op b)
    | none => s

/-- The bitmaps of a session. -/
def run (cmds : List Command) : List Bitmap := cmds.foldl step []

/-- All bitmaps have given thresholds. -/
def Uniform (t : Thresholds) (s : List Bitmap) : Prop := ∀ b ∈ s, b.thresholds = t

variable {t : Thresholds} {s : List Bitmap} {strict : Prop}

/-! ## One step -/

theorem forall_append {p : Bitmap → Prop} {b : Bitmap} (h : ∀ c ∈ s, p c) (hb : p b) :
    ∀ c ∈ s ++ [b], p c :=
  List.forall_mem_append.mpr ⟨h, List.forall_mem_singleton.mpr hb⟩

/-- A step that ends with one set of thresholds began with it. -/
theorem uniform_of_step (c : Command) (h : Uniform t (step s c)) : Uniform t s := by
  have happend : ∀ {bs}, Uniform t (s ++ bs) → Uniform t s := fun h =>
    (List.forall_mem_append.mp h).1
  have hmodify : ∀ {i f}, (∀ b : Bitmap, (f b).thresholds = b.thresholds) →
      Uniform t (s.modify i f) → Uniform t s := by
    intro i f hf h b hb
    have hb := List.mem_map_of_mem (f := Bitmap.thresholds) hb
    rw [← map_modify_of_eq hf s i] at hb
    obtain ⟨b', hb', heq⟩ := List.mem_map.mp hb
    exact heq ▸ h b' hb'
  -- a step adds bitmaps or changes one that keeps its thresholds
  cases c with
  | create t' => exact happend h
  | ofRange lo hi => exact happend h
  | ofValues vs => exact happend h
  | copy i => exact happend h
  | combine op i j =>
    simp only [step] at h
    split at h
    · exact happend h
    · exact h
  | unionAll places => exact happend h
  | change i c => exact hmodify (fun b => Bitmap.thresholds_apply c) h
  | absorb op i j =>
    simp only [step] at h
    split at h
    · refine hmodify ?_ h
      exact fun _ => rfl
    · exact h

/-- Every command keeps the bitmaps of a session. -/
theorem kept_step (ht : strict → Uniform t s) (h : ∀ b ∈ s, b.Kept strict) (c : Command) :
    ∀ b ∈ step s c, b.Kept strict := by
  have hsame : ∀ {a b}, a ∈ s → b ∈ s → strict → b.thresholds = a.thresholds :=
    fun ha hb hs => (ht hs _ hb).trans (ht hs _ ha).symm
  cases c with
  | create t' => exact forall_append h (Bitmap.kept_empty t')
  | ofRange lo hi => exact forall_append h (Bitmap.kept_ofRange lo hi)
  | ofValues vs => exact forall_append h (Bitmap.kept_ofValues vs)
  | copy i => exact List.forall_mem_append.mpr ⟨h, fun b hb =>
      h b (List.mem_of_getElem? (Option.mem_toList.mp hb))⟩
  | combine op i j =>
    simp only [step]
    split
    · rename_i a b ha hb
      have ha := List.mem_of_getElem? ha
      have hb := List.mem_of_getElem? hb
      exact forall_append h ((h a ha).combine (h b hb) (hsame ha hb))
    · exact h
  | unionAll places =>
    refine forall_append h (Bitmap.kept_unionAll _ fun b hb => ?_)
    obtain ⟨i, -, hi⟩ := List.mem_filterMap.mp hb
    exact h b (List.mem_of_getElem? hi)
  | change i c => exact forall_mem_modify h (fun b hb => (h b hb).apply c) i
  | absorb op i j =>
    simp only [step]
    split
    · rename_i b hb
      have hb := List.mem_of_getElem? hb
      exact forall_mem_modify h (fun a ha => (h a ha).absorb (h b hb) (hsame ha hb)) i
    · exact h

/-! ## A whole session -/

theorem uniform_of_run (cmds : List Command) (h : Uniform t (cmds.foldl step s)) :
    Uniform t s := by
  induction cmds generalizing s with
  | nil => exact h
  | cons c cmds ih => exact uniform_of_step c (ih h)

theorem kept_run (cmds : List Command) (ht : strict → Uniform t (cmds.foldl step s))
    (h : ∀ b ∈ s, b.Kept strict) : ∀ b ∈ cmds.foldl step s, b.Kept strict := by
  induction cmds generalizing s with
  | nil => exact h
  | cons c cmds ih =>
    refine ih ht (kept_step (t := t) (fun hs => ?_) h c)
    exact uniform_of_step c (uniform_of_run cmds (ht hs))

/-- Whatever a session does, all its bitmaps are well formed; and if they have one set of
thresholds, all their containers are kept as it asks. -/
theorem bitmaps_kept (cmds : List Command) :
    (∀ b ∈ run cmds, b.WellFormed) ∧
      ∀ t, Uniform t (run cmds) → ∀ b ∈ run cmds, ∀ e ∈ b.entries, e.container.Fits t := by
  constructor
  · intro b hb
    have hkept : ∀ b ∈ run cmds, b.Kept False :=
      kept_run (t := .standard) cmds False.elim (by simp)
    exact (hkept b hb).wellFormed
  · intro t ht b hb e he
    have hkept : ∀ b ∈ run cmds, b.Kept (Uniform t (run cmds)) := kept_run cmds id (by simp)
    exact ht b hb ▸ (Bitmap.kept_iff.mp (hkept b hb)).2 ht e he

theorem bitmaps_kept_union :
    Uniform .standard
        (run [.create .standard, .change 0 (.insert 7), .copy 0, .absorb .union 0 1]) ∧
      ∀ b ∈ run [.create .standard, .change 0 (.insert 7), .copy 0, .absorb .union 0 1],
        ∀ e ∈ b.entries, e.container.Fits .standard := by
  have ht : Uniform .standard
      (run [.create .standard, .change 0 (.insert 7), .copy 0, .absorb .union 0 1]) := by
    unfold Uniform
    decide
  exact ⟨ht, (bitmaps_kept _).2 .standard ht⟩

end Session

end Roaring
