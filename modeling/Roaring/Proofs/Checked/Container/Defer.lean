import Roaring.Container.Defer
import Roaring.Proofs.Checked.Container.Combine

/-!
# Absorbing and deferring, checked

The operations in the place of the left operand and those that leave their outcome unfinished. A
bitset that takes in runs without counting is handed the bounds of each run, none of which lies past
the domain.
-/
namespace Roaring.Container.Checked

open Machine

/-! ## In place -/

def keepArrayRun (t : Thresholds) (a : Array UInt16) (r : Array Run) : Option Container :=
  if Runs.isFull r then compactArray t a else do compactArray t (← Runs.Checked.keepHeld r a)

def keepBitsetRun (t : Thresholds) (b : Bitset) (r : Array Run) : Option Container :=
  if Runs.isFull r then compactBitset t b else do compactBitset t (← Bitset.Checked.eraseGaps b r)

/-- Keeps the values of the left operand that the right one holds. -/
def keepFrom (t : Thresholds) : Container → Container → Option Container
  | array a, array b => do compactArray t (← Sorted.Checked.keepShared a b)
  | array a, bitset b => do compactArray t (← filter (Bitset.Checked.contains b) a)
  | array a, run r => keepArrayRun t a r
  | bitset a, bitset b => do compactBitset t (← combineWords .inter a b)
  | bitset b, run r => keepBitsetRun t b r
  | a, b => combine t .inter a b

/-- Two arrays merged, where both together are small enough for one. -/
def mergeFrom (t : Thresholds) (op : SetOp)
    (merge : Array UInt16 → Array UInt16 → Option (Array UInt16)) (a b : Array UInt16) :
    Option Container := do
  if t.maxArraySize < (← to64 (a.size + b.size)) then combine t op (array a) (array b)
  else do some (array (← merge a b))

/-- Adds the values of the right operand. -/
def addFrom (t : Thresholds) : Container → Container → Option Container
  | array a, array b => mergeFrom t .union Sorted.Checked.union a b
  | bitset b, array a => do compactBitset t (← Bitset.Checked.insertAll b a)
  | bitset a, bitset b => do compactBitset t (← combineWords .union a b)
  | bitset b, run r => unionRunBitset t r b
  | a, b => combine t .union a b

/-- Drops the values that the right operand holds. -/
def dropFrom (t : Thresholds) : Container → Container → Option Container
  | array a, array b => do compactArray t (← Sorted.Checked.dropShared a b)
  | array a, bitset b => do compactArray t (← filter (lacks b) a)
  | array a, run r => do compactArray t (← Runs.Checked.dropHeld r a)
  | bitset b, array a => do compactBitset t (← Bitset.Checked.eraseAll b a)
  | bitset a, bitset b => do compactBitset t (← combineWords .diff a b)
  | bitset b, run r => do compactBitset t (← Bitset.Checked.eraseRuns b r)
  | a, b => combine t .diff a b

/-- Toggles the values of the right operand. -/
def toggleFrom (t : Thresholds) : Container → Container → Option Container
  | array a, array b => mergeFrom t .symmDiff Sorted.Checked.symmDiff a b
  | bitset b, array a => do compactBitset t (← Bitset.Checked.toggleAll b a)
  | bitset a, bitset b => do compactBitset t (← combineWords .symmDiff a b)
  | bitset b, run r => do compactBitset t (← Bitset.Checked.toggleRuns b r)
  | a, b => combine t .symmDiff a b

/-- The operation on two containers, in the place of the left one. -/
def absorb (t : Thresholds) (op : SetOp) (a b : Container) : Option Container :=
  match op with
  | .inter => keepFrom t a b
  | .union => addFrom t a b
  | .diff => dropFrom t a b
  | .symmDiff => toggleFrom t a b

/-- The operation on a container and itself, in the container's place. -/
def absorbSelf (t : Thresholds) (op : SetOp) (c : Container) : Option Container :=
  match op with
  | .inter | .union => compact t c
  | .diff | .symmDiff => some ∅

section Absorb

variable (t : Thresholds) {a b : Container}

theorem compactFrom_eq {vs : Option (Array UInt16)} {us : Array UInt16} (h : vs = some us) :
    (vs >>= fun vs => compactArray t vs) = some (Container.compactArray t us) := by
  rw [bind_of_eq h, compactArray_eq]

theorem keepArrayRun_eq {r : Array Run} (hr : Runs.Valid r) (a : Array UInt16) :
    keepArrayRun t a r = some (Container.keepFrom t (array a) (run r)) := by
  rw [keepArrayRun, Container.keepFrom]
  split
  · exact compactArray_eq t a
  · exact compactFrom_eq t (Runs.Checked.keepHeld_eq hr a)

theorem keepBitsetRun_eq {s : Bitset} {r : Array Run} (hs : s.Exact) (hr : Runs.Valid r) :
    keepBitsetRun t s r = some (Container.keepFrom t (bitset s) (run r)) := by
  rw [keepBitsetRun, Container.keepFrom]
  split
  · exact compactBitset_eq t s
  · rw [bind_of_eq (Bitset.Checked.eraseGaps_eq hs hr), compactBitset_eq]

theorem mergeFrom_eq (op : SetOp) {merge : Array UInt16 → Array UInt16 → Option (Array UInt16)}
    {as bs cs : Array UInt16} (ha : Sorted.Increasing as) (hb : Sorted.Increasing bs)
    (hmerge : merge as bs = some cs) : mergeFrom t op merge as bs =
      some (if t.maxArraySize < as.size + bs.size then Container.combine t op (array as) (array bs)
        else array cs) := by
  rw [mergeFrom, bind_of_eq (to64_room ha hb)]
  split
  · exact combine_eq t op ha hb
  · exact bind_of_eq hmerge _

theorem keepFrom_eq (ha : a.Valid) (hb : b.Valid) :
    keepFrom t a b = some (Container.keepFrom t a b) := by
  cases a with
  | array as =>
    cases b with
    | array bs => exact compactFrom_eq t (Sorted.Checked.keepShared_eq ha hb)
    | bitset b => exact compactFrom_eq t (filter_eq (Bitset.Checked.contains_eq b) as)
    | run rs => exact keepArrayRun_eq t hb as
  | bitset a =>
    cases b with
    | array bs => exact combine_eq t .inter ha hb
    | bitset b => exact compactCombineWords_eq t .inter a b
    | run rs => exact keepBitsetRun_eq t ha hb
  | run rs => exact combine_eq t .inter ha hb

theorem addFrom_eq (ha : a.Valid) (hb : b.Valid) :
    addFrom t a b = some (Container.addFrom t a b) := by
  cases a with
  | array as =>
    cases b with
    | array bs => exact mergeFrom_eq t .union ha hb (Sorted.Checked.union_eq ha hb)
    | bitset b => exact combine_eq t .union ha hb
    | run rs => exact combine_eq t .union ha hb
  | bitset a =>
    cases b with
    | array bs => exact unionArrayBitset_eq t ha bs
    | bitset b => exact compactCombineWords_eq t .union a b
    | run rs => exact unionRunBitset_eq t hb ha
  | run rs => exact combine_eq t .union ha hb

theorem dropFrom_eq (ha : a.Valid) (hb : b.Valid) :
    dropFrom t a b = some (Container.dropFrom t a b) := by
  cases a with
  | array as =>
    cases b with
    | array bs => exact compactFrom_eq t (Sorted.Checked.dropShared_eq ha hb)
    | bitset b => exact compactFrom_eq t (filter_eq (lacks_eq b) as)
    | run rs => exact compactFrom_eq t (Runs.Checked.dropHeld_eq hb as)
  | bitset a =>
    cases b with
    | array bs => exact diffBitsetArray_eq t ha bs
    | bitset b => exact compactCombineWords_eq t .diff a b
    | run rs => exact diffBitsetRun_eq t ha hb
  | run rs => exact combine_eq t .diff ha hb

theorem toggleFrom_eq (ha : a.Valid) (hb : b.Valid) :
    toggleFrom t a b = some (Container.toggleFrom t a b) := by
  cases a with
  | array as =>
    cases b with
    | array bs => exact mergeFrom_eq t .symmDiff ha hb (Sorted.Checked.symmDiff_eq ha hb)
    | bitset b => exact combine_eq t .symmDiff ha hb
    | run rs => exact combine_eq t .symmDiff ha hb
  | bitset a =>
    cases b with
    | array bs => exact symmDiffArrayBitset_eq t ha bs
    | bitset b => exact compactCombineWords_eq t .symmDiff a b
    | run rs => exact symmDiffRunBitset_eq t hb ha
  | run rs => exact combine_eq t .symmDiff ha hb

theorem absorb_eq (op : SetOp) (ha : a.Valid) (hb : b.Valid) :
    absorb t op a b = some (a.absorb t op b) := by
  cases op with
  | inter => exact keepFrom_eq t ha hb
  | union => exact addFrom_eq t ha hb
  | diff => exact dropFrom_eq t ha hb
  | symmDiff => exact toggleFrom_eq t ha hb

theorem absorbSelf_eq (op : SetOp) (ha : a.Valid) :
    absorbSelf t op a = some (a.absorbSelf t op) := by
  cases op with
  | inter => exact compact_eq t ha
  | union => exact compact_eq t ha
  | diff => rfl
  | symmDiff => rfl

end Absorb

/-! ## Unfinished -/

/-- A bitset of an array's values with those of another one added or toggled, uncounted. -/
def deferArrays {β : Type} (change : Words → Array UInt16 → Option (Words × β))
    (b : Option Bitset) (vs : Array UInt16) : Option Container := do
  let (ws, _) ← change (← b).words vs
  some (bitset (.uncounted ws))

def deferUnionArrays (t : Thresholds) (a b : Array UInt16) : Option Container := do
  if (← to64 (a.size + b.size)) ≤ deferBound t then union t (array a) (array b)
  else deferArrays Words.Checked.putAll (Bitset.Checked.ofValues a) b

def deferRunBitset (r : Array Run) (b : Bitset) : Option Container :=
  if Runs.isFull r then some (run r)
  else do some (bitset (← Bitset.Checked.insertRuns (.uncounted b.words) r))

/-- The values of either operand, unfinished. -/
def deferUnion (t : Thresholds) : Container → Container → Option Container
  | array a, array b => deferUnionArrays t a b
  | array a, bitset b => deferArrays Words.Checked.putAll (some b) a
  | bitset b, array a => deferArrays Words.Checked.putAll (some b) a
  | array a, run r => do some (run (← unionRunsArray r a))
  | run r, array a => do some (run (← unionRunsArray r a))
  | bitset a, bitset b => some (bitset (.uncounted (Words.combine .union a.words b.words)))
  | bitset b, run r => deferRunBitset r b
  | run r, bitset b => deferRunBitset r b
  | run a, run b => do some (run (← unionRuns a b))

/-- The symmetric difference of two arrays, unfinished. -/
def deferSymmDiffArrays (t : Thresholds) (a b : Array UInt16) : Option Container := do
  if (← to64 (a.size + b.size)) ≤ deferBound t then symmDiffArrays t a b
  else deferArrays Words.Checked.flipAll (Bitset.Checked.ofValues a) b

def deferRunArray (t : Thresholds) (r : Array Run) (a : Array UInt16) : Option Container :=
  if a.size < t.xorSmallArray then do some (run (← toggleValues r a))
  else do
    if (← Runs.Checked.card r) ≤ t.maxArraySize then do
      let vs ← Runs.Checked.values r
      check (Sorted.Increasing vs)
      deferSymmDiffArrays t vs a
    else deferArrays Words.Checked.flipAll (Bitset.Checked.ofRuns r) a

/-- The values of exactly one operand, unfinished. -/
def deferSymmDiff (t : Thresholds) : Container → Container → Option Container
  | array a, array b => deferSymmDiffArrays t a b
  | array a, bitset b => deferArrays Words.Checked.flipAll (some b) a
  | bitset b, array a => deferArrays Words.Checked.flipAll (some b) a
  | array a, run r => deferRunArray t r a
  | run r, array a => deferRunArray t r a
  | bitset a, bitset b => some (bitset (.uncounted (Words.combine .symmDiff a.words b.words)))
  | bitset b, run r => do some (bitset (← Bitset.Checked.toggleRuns (.uncounted b.words) r))
  | run r, bitset b => do some (bitset (← Bitset.Checked.toggleRuns (.uncounted b.words) r))
  | run a, run b => do some (run (← built (a.size + b.size) (Runs.Checked.symmDiff a b)))

/-- The operation on two containers, unfinished. -/
def defer (t : Thresholds) (op : SetOp) (a b : Container) : Option Container :=
  match op with
  | .inter => combine t .inter a b
  | .diff => combine t .diff a b
  | .union => deferUnion t a b
  | .symmDiff => deferSymmDiff t a b

/-- The words of a bitset after it took in the values of a container. -/
def takeIn (ws : Words) : Container → Option Words
  | array vs => do some (← Words.Checked.putAll ws vs).1
  | bitset b => some (Words.combine .union ws b.words)
  | run rs => Runs.Checked.overRuns Words.Checked.putRange ws rs

/-- The words of a bitset after the values of a container were toggled in it. -/
def toggleIn (ws : Words) : Container → Option Words
  | array vs => do some (← Words.Checked.flipAll ws vs).1
  | bitset b => some (Words.combine .symmDiff ws b.words)
  | run rs => Runs.Checked.overRuns Words.Checked.flipRange ws rs

/-- The operation on two containers in the place of the left one, unfinished. -/
def absorbDeferred (t : Thresholds) (op : SetOp) (a b : Container) : Option Container :=
  match op, a with
  | .inter, a => absorb t .inter a b
  | .diff, a => absorb t .diff a b
  | .union, bitset s => do some (bitset (.uncounted (← takeIn s.words b)))
  | .symmDiff, bitset s => do some (bitset (.uncounted (← toggleIn s.words b)))
  | op, a => defer t op a b

section Defer

variable (t : Thresholds) {a b : Container} {as : Array UInt16} {s : Bitset} {r : Array Run}

theorem deferArrays_eq {β : Type} {change : Words → Array UInt16 → Option (Words × β)}
    {plain : Words → Array UInt16 → Words × β} (h : ∀ ws vs, change ws vs = some (plain ws vs))
    (b : Bitset) (vs : Array UInt16) : deferArrays change (some b) vs =
      some (bitset (.uncounted (plain b.words vs).1)) :=
  bind_of_eq (h b.words vs) _

theorem deferUnionArrays_eq {bs : Array UInt16} (ha : Sorted.Increasing as)
    (hb : Sorted.Increasing bs) :
    deferUnionArrays t as bs = some (Container.deferUnion t (array as) (array bs)) := by
  rw [deferUnionArrays, bind_of_eq (to64_room ha hb), Container.deferUnion]
  split
  · exact union_eq t ha hb
  · rw [Bitset.Checked.ofValues_eq, deferArrays_eq Words.Checked.putAll_eq]

theorem deferRunBitset_eq (hr : Runs.Valid r) (b : Bitset) :
    deferRunBitset r b = some (deferUnion.deferRunBitset r b) := by
  unfold deferRunBitset deferUnion.deferRunBitset
  split
  · rfl
  · exact bind_of_eq (Bitset.Checked.insertRuns_eq (Bitset.exact_uncounted b.words) hr) _

theorem deferUnion_eq (ha : a.Valid) (hb : b.Valid) :
    deferUnion t a b = some (Container.deferUnion t a b) := by
  cases a with
  | array as =>
    cases b with
    | array bs => exact deferUnionArrays_eq t ha hb
    | bitset b => exact deferArrays_eq Words.Checked.putAll_eq b as
    | run rs => exact bind_of_eq (unionRunsArray_eq hb ha) _
  | bitset a =>
    cases b with
    | array bs => exact deferArrays_eq Words.Checked.putAll_eq a bs
    | bitset b => rfl
    | run rs => exact deferRunBitset_eq hb a
  | run rs =>
    cases b with
    | array bs => exact bind_of_eq (unionRunsArray_eq ha hb) _
    | bitset b => exact deferRunBitset_eq ha b
    | run ss => exact bind_of_eq (unionRuns_eq ha hb) _

theorem deferSymmDiffArrays_eq {bs : Array UInt16} (ha : Sorted.Increasing as)
    (hb : Sorted.Increasing bs) :
    deferSymmDiffArrays t as bs = some (Container.deferSymmDiffArrays t as bs) := by
  rw [deferSymmDiffArrays, bind_of_eq (to64_room ha hb), Container.deferSymmDiffArrays]
  split
  · exact symmDiffArrays_eq t ha hb
  · rw [Bitset.Checked.ofValues_eq, deferArrays_eq Words.Checked.flipAll_eq]

theorem deferRunArray_eq (hr : Runs.Valid r) (ha : Sorted.Increasing as) :
    deferRunArray t r as = some (deferSymmDiff.deferRunArray t r as) := by
  unfold deferRunArray deferSymmDiff.deferRunArray
  split
  · exact bind_of_eq (toggleValues_eq hr ha) _
  · have hvalues := Runs.increasing_values hr
    rw [bind_of_eq (Runs.Checked.card_eq hr)]
    split
    · rw [bind_of_eq (Runs.Checked.values_eq hr), bind_of_eq (check_of hvalues),
        deferSymmDiffArrays_eq t hvalues ha]
    · rw [Bitset.Checked.ofRuns_eq hr, deferArrays_eq Words.Checked.flipAll_eq]

theorem toggleUncounted_eq (hr : Runs.Valid r) (b : Bitset) :
    (Bitset.Checked.toggleRuns (.uncounted b.words) r >>= fun b => some (bitset b)) =
      some (bitset ((Bitset.uncounted b.words).toggleRuns r)) :=
  bind_of_eq (Bitset.Checked.toggleRuns_eq (Bitset.exact_uncounted b.words) hr) _

theorem deferSymmDiff_eq (ha : a.Valid) (hb : b.Valid) :
    deferSymmDiff t a b = some (Container.deferSymmDiff t a b) := by
  cases a with
  | array as =>
    cases b with
    | array bs => exact deferSymmDiffArrays_eq t ha hb
    | bitset b => exact deferArrays_eq Words.Checked.flipAll_eq b as
    | run rs => exact deferRunArray_eq t hb ha
  | bitset a =>
    cases b with
    | array bs => exact deferArrays_eq Words.Checked.flipAll_eq a bs
    | bitset b => rfl
    | run rs => exact toggleUncounted_eq hb a
  | run rs =>
    cases b with
    | array bs => exact deferRunArray_eq t ha hb
    | bitset b => exact toggleUncounted_eq ha b
    | run ss =>
      rw [deferSymmDiff, Runs.Checked.symmDiff_eq ha hb,
        bind_of_eq (built_eq (runs_room ha hb) (Runs.symmDiff_spec ha hb).1),
        Container.deferSymmDiff]

theorem defer_eq (op : SetOp) (ha : a.Valid) (hb : b.Valid) :
    defer t op a b = some (a.defer t op b) := by
  cases op with
  | inter => exact combine_eq t .inter ha hb
  | union => exact deferUnion_eq t ha hb
  | diff => exact combine_eq t .diff ha hb
  | symmDiff => exact deferSymmDiff_eq t ha hb

theorem mapRange_overRuns_eq (f : UInt64 → UInt64 → UInt64) (hr : Runs.Valid r) (ws : Words) :
    Runs.Checked.overRuns (Words.Checked.mapRange f) ws r =
      some (r.foldl (fun ws r => Words.mapRange f ws r.first.toNat r.stop) ws) :=
  Runs.Checked.overRuns_eq (fun _ => True)
    (fun ws _ _ _ h => ⟨Words.Checked.mapRange_eq f ws h, trivial⟩) trivial hr

theorem takeIn_eq (hb : b.Valid) (ws : Words) : takeIn ws b = some (Container.takeIn ws b) := by
  cases b with
  | array vs => exact bind_of_eq (Words.Checked.putAll_eq ws vs) _
  | bitset b => rfl
  | run rs => exact mapRange_overRuns_eq (· ||| ·) hb ws

theorem toggleIn_eq (hb : b.Valid) (ws : Words) :
    toggleIn ws b = some (Container.toggleIn ws b) := by
  cases b with
  | array vs => exact bind_of_eq (Words.Checked.flipAll_eq ws vs) _
  | bitset b => rfl
  | run rs => exact mapRange_overRuns_eq (· ^^^ ·) hb ws

theorem absorbDeferred_eq (op : SetOp) (ha : a.Valid) (hb : b.Valid) :
    absorbDeferred t op a b = some (a.absorbDeferred t op b) := by
  cases op with
  | inter => exact absorb_eq t .inter ha hb
  | diff => exact absorb_eq t .diff ha hb
  | union =>
    cases a with
    | array as => exact defer_eq t .union ha hb
    | bitset s => exact bind_of_eq (takeIn_eq hb s.words) _
    | run rs => exact defer_eq t .union ha hb
  | symmDiff =>
    cases a with
    | array as => exact defer_eq t .symmDiff ha hb
    | bitset s => exact bind_of_eq (toggleIn_eq hb s.words) _
    | run rs => exact defer_eq t .symmDiff ha hb

end Defer

end Roaring.Container.Checked
