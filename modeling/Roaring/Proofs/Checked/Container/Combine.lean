import Roaring.Proofs.Checked.Container.Convert
import Roaring.Proofs.Checked.Runs.Merge
import Roaring.Proofs.Container.Combine

/-!
# Combining containers, checked

The kernels for each pair of encodings, with the room that they ask for and what they assert of the
lists they build. Two lists in order have no more than 65536 elements each, so the room for both
always fits.
-/
namespace Roaring.Container.Checked

open Machine

/-- The number of bits set in both vectors. -/
def interCount (a b : Words) : Option Nat := Words.Checked.count (Words.combine .inter a b)

/-- The bitset of two word vectors combined. -/
def combineWords (op : SetOp) (a b : Bitset) : Option Bitset :=
  Bitset.Checked.counted (Words.combine op a.words b.words)

/-- A list of values that is in order, as an array or above the largest array size as a bitset. -/
def compactNew (t : Thresholds) (vs : Array UInt16) : Option Container := do
  check (Sorted.Increasing vs)
  compactArray t vs

/-- Runs built in a list with room for `n` of them. -/
def built (n : Nat) (rs : Option (Array Run)) : Option (Array Run) := do
  check (n < 2 ^ 64)
  validRuns (← rs)

section Lists

variable {vs : Array UInt16} {rs : Array Run}

theorem interCount_eq (a b : Words) : interCount a b = some (Words.interCount a b) :=
  Words.Checked.count_eq _

theorem combineWords_eq (op : SetOp) (a b : Bitset) :
    combineWords op a b = some (Container.combineWords op a b) :=
  Bitset.Checked.counted_eq _

theorem compactNew_eq (t : Thresholds) (h : Sorted.Increasing vs) :
    compactNew t vs = some (Container.compactArray t vs) := by
  rw [compactNew, bind_of_eq (check_of h), compactArray_eq]

theorem built_eq {n : Nat} (hn : n ≤ 131072) (h : Runs.Valid rs) : built n (some rs) = some rs :=
  (bind_of_eq (check_of (by omega)) _).trans (validRuns_eq h)

theorem runs_room {a b : Array Run} (ha : Runs.Valid a) (hb : Runs.Valid b) :
    a.size + b.size ≤ 131072 :=
  Nat.add_le_add (Runs.size_le ha) (Runs.size_le hb)

theorem mixed_room (hr : Runs.Valid rs) (hvs : Sorted.Increasing vs) :
    rs.size + vs.size ≤ 131072 :=
  Nat.add_le_add (Runs.size_le hr) (Sorted.size_le hvs)

theorem to64_room {a b : Array UInt16} (ha : Sorted.Increasing a) (hb : Sorted.Increasing b) :
    to64 (a.size + b.size) = some (a.size + b.size) := by
  have hsa := Sorted.size_le ha
  have hsb := Sorted.size_le hb
  exact to64_of_lt (by omega)

end Lists

/-! ## Intersection -/

/-- The intersection of two run lists, as runs. -/
def interRuns (a b : Array Run) : Option (Array Run) :=
  if Runs.isFull a then some b
  else if Runs.isFull b then some a
  else built (a.size + b.size) (Runs.Checked.inter a b)

def interArrayRun (t : Thresholds) (a : Array UInt16) (r : Array Run) : Option Container :=
  if Runs.isFull r then compactNew t a else do compactNew t (← Runs.Checked.keepHeld r a)

def interRunBitset (t : Thresholds) (r : Array Run) (b : Bitset) : Option Container :=
  if Runs.isFull r then compactBitset t b
  else do
    if (← Runs.Checked.card r) ≤ t.maxArraySize then do
      ofIncreasing (← filter (Bitset.Checked.contains b) (← Runs.Checked.values r))
    else do compactBitset t (← Bitset.Checked.eraseGaps b r)

def interBitsets (t : Thresholds) (a b : Bitset) : Option Container := do
  if (← interCount a.words b.words) ≤ t.maxArraySize then
    arrayOfBits (.uncounted (Words.combine .inter a.words b.words))
  else do some (bitset (← combineWords .inter a b))

/-- The values of both operands. -/
def inter (t : Thresholds) : Container → Container → Option Container
  | array a, array b => do compactNew t (← Sorted.Checked.inter a b)
  | array a, bitset b => do compactNew t (← filter (Bitset.Checked.contains b) a)
  | bitset b, array a => do compactNew t (← filter (Bitset.Checked.contains b) a)
  | array a, run r => interArrayRun t a r
  | run r, array a => interArrayRun t a r
  | bitset a, bitset b => interBitsets t a b
  | bitset b, run r => interRunBitset t r b
  | run r, bitset b => interRunBitset t r b
  | run a, run b => do compactRuns t (← interRuns a b)

section Inter

variable (t : Thresholds) {a : Array UInt16} {b : Bitset} {r s : Array Run}

theorem interRuns_eq (hr : Runs.Valid r) (hs : Runs.Valid s) :
    interRuns r s = some (Container.interRuns r s) := by
  unfold interRuns Container.interRuns
  split
  · rfl
  · split
    · rfl
    · rw [Runs.Checked.inter_eq hr hs, built_eq (runs_room hr hs) (Runs.inter_spec hr hs).1]

theorem interArrayRun_eq (ha : Sorted.Increasing a) (hr : Runs.Valid r) :
    interArrayRun t a r = some (inter.interArrayRun t a r) := by
  unfold interArrayRun inter.interArrayRun
  split
  · exact compactNew_eq t ha
  · rw [bind_of_eq (Runs.Checked.keepHeld_eq hr a), compactNew_eq]
    rw [Runs.keepHeld_eq hr ha]
    exact Sorted.increasing_filter ha _

theorem interArrayBitset_eq (ha : Sorted.Increasing a) (b : Bitset) :
    (filter (Bitset.Checked.contains b) a >>= fun vs => compactNew t vs) =
      some (Container.compactArray t (a.filter b.contains)) := by
  rw [bind_of_eq (filter_eq (Bitset.Checked.contains_eq b) a),
    compactNew_eq t (Sorted.increasing_filter ha _)]

theorem interRunBitset_eq (hr : Runs.Valid r) (hb : b.Exact) :
    interRunBitset t r b = some (inter.interRunBitset t r b) := by
  unfold interRunBitset inter.interRunBitset
  split
  · exact compactBitset_eq t b
  · rw [bind_of_eq (Runs.Checked.card_eq hr)]
    split
    · rw [bind_of_eq (Runs.Checked.values_eq hr),
        bind_of_eq (filter_eq (Bitset.Checked.contains_eq b) _),
        ofIncreasing_eq (Sorted.increasing_filter (Runs.increasing_values hr) _)]
    · rw [bind_of_eq (Bitset.Checked.eraseGaps_eq hb hr), compactBitset_eq]

theorem interBitsets_eq (a b : Bitset) :
    interBitsets t a b = some (Container.inter t (bitset a) (bitset b)) := by
  rw [interBitsets, bind_of_eq (interCount_eq a.words b.words), Container.inter]
  split
  · exact arrayOfBits_eq _
  · exact bind_of_eq (combineWords_eq .inter a b) _

theorem inter_eq {a b : Container} (ha : a.Valid) (hb : b.Valid) :
    inter t a b = some (Container.inter t a b) := by
  cases a with
  | array as =>
    cases b with
    | array bs =>
      rw [inter, bind_of_eq (Sorted.Checked.inter_eq ha hb), compactNew_eq, Container.inter]
      rw [Sorted.inter_eq ha hb]
      exact Sorted.increasing_filter ha _
    | bitset b => exact interArrayBitset_eq t ha b
    | run rs => exact interArrayRun_eq t ha hb
  | bitset a =>
    cases b with
    | array bs => exact interArrayBitset_eq t hb a
    | bitset b => exact interBitsets_eq t a b
    | run rs => exact interRunBitset_eq t hb ha
  | run rs =>
    cases b with
    | array bs => exact interArrayRun_eq t hb ha
    | bitset b => exact interRunBitset_eq t ha hb
    | run ss =>
      rw [inter, bind_of_eq (interRuns_eq ha hb), compactRuns_eq t (interRuns_spec ha hb).1,
        Container.inter]

end Inter

/-! ## Union -/

/-- The union of runs with an array, as runs. -/
def unionRunsArray (r : Array Run) (a : Array UInt16) : Option (Array Run) :=
  if Runs.isFull r then some r else built (r.size + a.size) (Runs.Checked.unionValues r a)

/-- The union of two run lists, as runs. -/
def unionRuns (a b : Array Run) : Option (Array Run) :=
  if Runs.isFull a then some a
  else if Runs.isFull b then some b
  else built (a.size + b.size) (Runs.Checked.union a b)

def unionArrays (t : Thresholds) (a b : Array UInt16) : Option Container := do
  if (← to64 (a.size + b.size)) ≤ t.maxArraySize then do ofIncreasing (← Sorted.Checked.union a b)
  else do compactBitset t (← Bitset.Checked.insertAll (← Bitset.Checked.ofValues a) b)

def unionRunBitset (t : Thresholds) (r : Array Run) (b : Bitset) : Option Container :=
  if Runs.isFull r then some (run r) else do compactBitset t (← Bitset.Checked.insertRuns b r)

/-- The values of either operand. -/
def union (t : Thresholds) : Container → Container → Option Container
  | array a, array b => unionArrays t a b
  | array a, bitset b => do compactBitset t (← Bitset.Checked.insertAll b a)
  | bitset b, array a => do compactBitset t (← Bitset.Checked.insertAll b a)
  | array a, run r => do compactRuns t (← unionRunsArray r a)
  | run r, array a => do compactRuns t (← unionRunsArray r a)
  | bitset a, bitset b => do compactBitset t (← combineWords .union a b)
  | bitset b, run r => unionRunBitset t r b
  | run r, bitset b => unionRunBitset t r b
  | run a, run b => do compactRuns t (← unionRuns a b)

section Union

variable (t : Thresholds) {a : Array UInt16} {b : Bitset} {r s : Array Run}

theorem unionRunsArray_eq (hr : Runs.Valid r) (ha : Sorted.Increasing a) :
    unionRunsArray r a = some (Container.unionRunsArray r a) := by
  unfold unionRunsArray Container.unionRunsArray
  split
  · rfl
  · rw [Runs.Checked.unionValues_eq hr ha,
      built_eq (mixed_room hr ha) (Runs.unionValues_spec hr ha).1]

theorem unionRuns_eq (hr : Runs.Valid r) (hs : Runs.Valid s) :
    unionRuns r s = some (Container.unionRuns r s) := by
  unfold unionRuns Container.unionRuns
  split
  · rfl
  · split
    · rfl
    · rw [Runs.Checked.union_eq hr hs, built_eq (runs_room hr hs) (Runs.union_spec hr hs).1]

theorem unionArrays_eq {b : Array UInt16} (ha : Sorted.Increasing a) (hb : Sorted.Increasing b) :
    unionArrays t a b = some (Container.union t (array a) (array b)) := by
  rw [unionArrays, bind_of_eq (to64_room ha hb), Container.union]
  split
  · rw [bind_of_eq (Sorted.Checked.union_eq ha hb),
      ofIncreasing_eq (Sorted.increasing_union ha hb)]
  · rw [bind_of_eq (Bitset.Checked.ofValues_eq a),
      bind_of_eq (Bitset.Checked.insertAll_eq (Bitset.exact_ofValues a) b), compactBitset_eq]

theorem unionRunBitset_eq (hr : Runs.Valid r) (hb : b.Exact) :
    unionRunBitset t r b = some (union.unionRunBitset t r b) := by
  unfold unionRunBitset union.unionRunBitset
  split
  · rfl
  · rw [bind_of_eq (Bitset.Checked.insertRuns_eq hb hr), compactBitset_eq]

theorem unionArrayBitset_eq (hb : b.Exact) (a : Array UInt16) :
    (Bitset.Checked.insertAll b a >>= fun b => compactBitset t b) =
      some (Container.compactBitset t (b.insertAll a)) := by
  rw [bind_of_eq (Bitset.Checked.insertAll_eq hb a), compactBitset_eq]

theorem compactUnionRunsArray_eq (hr : Runs.Valid r) (ha : Sorted.Increasing a) :
    (unionRunsArray r a >>= fun rs => compactRuns t rs) =
      some (Container.compactRuns t (Container.unionRunsArray r a)) := by
  rw [bind_of_eq (unionRunsArray_eq hr ha), compactRuns_eq t (unionRunsArray_spec hr ha).1]

theorem compactCombineWords_eq (op : SetOp) (a b : Bitset) :
    (combineWords op a b >>= fun b => compactBitset t b) =
      some (Container.compactBitset t (Container.combineWords op a b)) := by
  rw [bind_of_eq (combineWords_eq op a b), compactBitset_eq]

theorem union_eq {a b : Container} (ha : a.Valid) (hb : b.Valid) :
    union t a b = some (Container.union t a b) := by
  cases a with
  | array as =>
    cases b with
    | array bs => exact unionArrays_eq t ha hb
    | bitset b => exact unionArrayBitset_eq t hb as
    | run rs => exact compactUnionRunsArray_eq t hb ha
  | bitset a =>
    cases b with
    | array bs => exact unionArrayBitset_eq t ha bs
    | bitset b => exact compactCombineWords_eq t .union a b
    | run rs => exact unionRunBitset_eq t hb ha
  | run rs =>
    cases b with
    | array bs => exact compactUnionRunsArray_eq t ha hb
    | bitset b => exact unionRunBitset_eq t ha hb
    | run ss =>
      rw [union, bind_of_eq (unionRuns_eq ha hb), compactRuns_eq t (unionRuns_spec ha hb).1,
        Container.union]

end Union

/-! ## Difference -/

/-- Whether a bitset lacks a value. -/
def lacks (b : Bitset) (v : UInt16) : Option Bool := do some !(← Bitset.Checked.contains b v)

def diffArrayRun (t : Thresholds) (a : Array UInt16) (r : Array Run) : Option Container :=
  if Runs.isFull r then some ∅ else do compactNew t (← Runs.Checked.dropHeld r a)

def diffRunArray (t : Thresholds) (r : Array Run) (a : Array UInt16) : Option Container := do
  if (← Runs.Checked.card r) ≤ t.maxArraySize then do
    ofIncreasing (← Sorted.Checked.dropShared (← Runs.Checked.values r) a)
  else do compactRuns t (← built (r.size + a.size) (Runs.Checked.diffValues r a))

def diffRunBitset (t : Thresholds) (r : Array Run) (b : Bitset) : Option Container := do
  if (← Runs.Checked.card r) ≤ t.maxArraySize then do
    ofIncreasing (← filter (lacks b) (← Runs.Checked.values r))
  else do compactBitset t (← combineWords .diff (← Bitset.Checked.ofRuns r) b)

/-- The values of the left operand that the right one lacks. -/
def diff (t : Thresholds) : Container → Container → Option Container
  | array a, array b => do compactNew t (← Sorted.Checked.diff a b)
  | array a, bitset b => do compactNew t (← filter (lacks b) a)
  | array a, run r => diffArrayRun t a r
  | bitset b, array a => do compactBitset t (← Bitset.Checked.eraseAll b a)
  | bitset a, bitset b => do compactBitset t (← combineWords .diff a b)
  | bitset b, run r => do compactBitset t (← Bitset.Checked.eraseRuns b r)
  | run r, array a => diffRunArray t r a
  | run r, bitset b => diffRunBitset t r b
  | run a, run b => do compactRuns t (← built (a.size + b.size) (Runs.Checked.diff a b))

section Diff

variable (t : Thresholds) {a : Array UInt16} {b : Bitset} {r s : Array Run}

theorem lacks_eq (b : Bitset) (v : UInt16) : lacks b v = some (!b.contains v) :=
  bind_of_eq (Bitset.Checked.contains_eq b v) _

theorem diffArrayRun_eq (ha : Sorted.Increasing a) (hr : Runs.Valid r) :
    diffArrayRun t a r = some (Container.diff t (array a) (run r)) := by
  rw [diffArrayRun, Container.diff]
  split
  · rfl
  · rw [bind_of_eq (Runs.Checked.dropHeld_eq hr a), compactNew_eq]
    rw [Runs.dropHeld_eq hr ha]
    exact Sorted.increasing_filter ha _

theorem diffRunArray_eq (hr : Runs.Valid r) (ha : Sorted.Increasing a) :
    diffRunArray t r a = some (Container.diff t (run r) (array a)) := by
  have hvalues := Runs.increasing_values hr
  rw [diffRunArray, bind_of_eq (Runs.Checked.card_eq hr), Container.diff]
  split
  · rw [bind_of_eq (Runs.Checked.values_eq hr),
      bind_of_eq (Sorted.Checked.dropShared_eq hvalues ha), ofIncreasing_eq]
    rw [Sorted.dropShared_eq hvalues ha]
    exact Sorted.increasing_filter hvalues _
  · have hvalid := (Runs.diffValues_spec hr ha).1
    rw [Runs.Checked.diffValues_eq hr ha, bind_of_eq (built_eq (mixed_room hr ha) hvalid),
      compactRuns_eq t hvalid]

theorem diffRunBitset_eq (hr : Runs.Valid r) (b : Bitset) :
    diffRunBitset t r b = some (Container.diff t (run r) (bitset b)) := by
  rw [diffRunBitset, bind_of_eq (Runs.Checked.card_eq hr), Container.diff]
  split
  · rw [bind_of_eq (Runs.Checked.values_eq hr), bind_of_eq (filter_eq (lacks_eq b) _),
      ofIncreasing_eq (Sorted.increasing_filter (Runs.increasing_values hr) _)]
  · rw [bind_of_eq (Bitset.Checked.ofRuns_eq hr), bind_of_eq (combineWords_eq .diff _ b),
      compactBitset_eq]

theorem diffBitsetArray_eq (hb : b.Exact) (a : Array UInt16) :
    (Bitset.Checked.eraseAll b a >>= fun b => compactBitset t b) =
      some (Container.compactBitset t (b.eraseAll a)) := by
  rw [bind_of_eq (Bitset.Checked.eraseAll_eq hb a), compactBitset_eq]

theorem diffBitsetRun_eq (hb : b.Exact) (hr : Runs.Valid r) :
    (Bitset.Checked.eraseRuns b r >>= fun b => compactBitset t b) =
      some (Container.compactBitset t (b.eraseRuns r)) := by
  rw [bind_of_eq (Bitset.Checked.eraseRuns_eq hb hr), compactBitset_eq]

theorem diff_eq {a b : Container} (ha : a.Valid) (hb : b.Valid) :
    diff t a b = some (Container.diff t a b) := by
  cases a with
  | array as =>
    cases b with
    | array bs =>
      rw [diff, bind_of_eq (Sorted.Checked.diff_eq ha hb), compactNew_eq, Container.diff]
      rw [Sorted.diff_eq ha hb]
      exact Sorted.increasing_filter ha _
    | bitset b =>
      rw [diff, bind_of_eq (filter_eq (lacks_eq b) as),
        compactNew_eq t (Sorted.increasing_filter ha _), Container.diff]
    | run rs => exact diffArrayRun_eq t ha hb
  | bitset a =>
    cases b with
    | array bs => exact diffBitsetArray_eq t ha bs
    | bitset b => exact compactCombineWords_eq t .diff a b
    | run rs => exact diffBitsetRun_eq t ha hb
  | run rs =>
    cases b with
    | array bs => exact diffRunArray_eq t ha hb
    | bitset b => exact diffRunBitset_eq t ha b
    | run ss =>
      have hvalid := (Runs.diff_spec ha hb).1
      rw [diff, Runs.Checked.diff_eq ha hb, bind_of_eq (built_eq (runs_room ha hb) hvalid),
        compactRuns_eq t hvalid, Container.diff]

end Diff

/-! ## Symmetric difference -/

/-- The symmetric difference of two arrays. -/
def symmDiffArrays (t : Thresholds) (a b : Array UInt16) : Option Container := do
  if (← to64 (a.size + b.size)) ≤ t.maxArraySize then do
    ofIncreasing (← Sorted.Checked.symmDiff a b)
  else do compactBitset t (← Bitset.Checked.toggleAll (← Bitset.Checked.ofValues a) b)

/-- The symmetric difference of runs and an array, as runs. -/
def toggleValues (r : Array Run) (a : Array UInt16) : Option (Array Run) :=
  built (r.size + a.size) (Runs.Checked.symmDiffValues r a)

def symmDiffRunArray (t : Thresholds) (r : Array Run) (a : Array UInt16) : Option Container :=
  if a.size < t.xorSmallArray then do compactRuns t (← toggleValues r a)
  else do
    if (← Runs.Checked.card r) ≤ t.maxArraySize then do
      let vs ← Runs.Checked.values r
      check (Sorted.Increasing vs)
      symmDiffArrays t vs a
    else do compactBitset t (← Bitset.Checked.toggleAll (← Bitset.Checked.ofRuns r) a)

/-- The values of exactly one operand. -/
def symmDiff (t : Thresholds) : Container → Container → Option Container
  | array a, array b => symmDiffArrays t a b
  | array a, bitset b => do compactBitset t (← Bitset.Checked.toggleAll b a)
  | bitset b, array a => do compactBitset t (← Bitset.Checked.toggleAll b a)
  | array a, run r => symmDiffRunArray t r a
  | run r, array a => symmDiffRunArray t r a
  | bitset a, bitset b => do compactBitset t (← combineWords .symmDiff a b)
  | bitset b, run r => do compactBitset t (← Bitset.Checked.toggleRuns b r)
  | run r, bitset b => do compactBitset t (← Bitset.Checked.toggleRuns b r)
  | run a, run b => do compactRuns t (← built (a.size + b.size) (Runs.Checked.symmDiff a b))

/-- The operation on two containers, with a result in its cheapest encoding. -/
def combine (t : Thresholds) (op : SetOp) (a b : Container) : Option Container :=
  match op with
  | .inter => inter t a b
  | .union => union t a b
  | .diff => diff t a b
  | .symmDiff => symmDiff t a b

section SymmDiff

variable (t : Thresholds) {a : Array UInt16} {b : Bitset} {r s : Array Run}

theorem symmDiffArrays_eq {b : Array UInt16} (ha : Sorted.Increasing a)
    (hb : Sorted.Increasing b) :
    symmDiffArrays t a b = some (Container.symmDiffArrays t a b) := by
  rw [symmDiffArrays, bind_of_eq (to64_room ha hb), Container.symmDiffArrays]
  split
  · rw [bind_of_eq (Sorted.Checked.symmDiff_eq ha hb),
      ofIncreasing_eq (Sorted.increasing_symmDiff ha hb)]
  · rw [bind_of_eq (Bitset.Checked.ofValues_eq a),
      bind_of_eq (Bitset.Checked.toggleAll_eq (Bitset.exact_ofValues a) b), compactBitset_eq]

theorem toggleValues_eq (hr : Runs.Valid r) (ha : Sorted.Increasing a) :
    toggleValues r a = some (Runs.symmDiffValues r a) := by
  rw [toggleValues, Runs.Checked.symmDiffValues_eq hr ha,
    built_eq (mixed_room hr ha) (Runs.symmDiffValues_spec hr ha).1]

theorem symmDiffRunArray_eq (hr : Runs.Valid r) (ha : Sorted.Increasing a) :
    symmDiffRunArray t r a = some (symmDiff.symmDiffRunArray t r a) := by
  unfold symmDiffRunArray symmDiff.symmDiffRunArray
  split
  · rw [bind_of_eq (toggleValues_eq hr ha), compactRuns_eq t (Runs.symmDiffValues_spec hr ha).1]
  · have hvalues := Runs.increasing_values hr
    rw [bind_of_eq (Runs.Checked.card_eq hr)]
    split
    · rw [bind_of_eq (Runs.Checked.values_eq hr), bind_of_eq (check_of hvalues),
        symmDiffArrays_eq t hvalues ha]
    · rw [bind_of_eq (Bitset.Checked.ofRuns_eq hr),
        bind_of_eq (Bitset.Checked.toggleAll_eq (Bitset.exact_ofRuns hr) a), compactBitset_eq]

theorem symmDiffArrayBitset_eq (hb : b.Exact) (a : Array UInt16) :
    (Bitset.Checked.toggleAll b a >>= fun b => compactBitset t b) =
      some (Container.compactBitset t (b.toggleAll a)) := by
  rw [bind_of_eq (Bitset.Checked.toggleAll_eq hb a), compactBitset_eq]

theorem symmDiffRunBitset_eq (hr : Runs.Valid r) (hb : b.Exact) :
    (Bitset.Checked.toggleRuns b r >>= fun b => compactBitset t b) =
      some (Container.compactBitset t (b.toggleRuns r)) := by
  rw [bind_of_eq (Bitset.Checked.toggleRuns_eq hb hr), compactBitset_eq]

theorem symmDiff_eq {a b : Container} (ha : a.Valid) (hb : b.Valid) :
    symmDiff t a b = some (Container.symmDiff t a b) := by
  cases a with
  | array as =>
    cases b with
    | array bs => exact symmDiffArrays_eq t ha hb
    | bitset b => exact symmDiffArrayBitset_eq t hb as
    | run rs => exact symmDiffRunArray_eq t hb ha
  | bitset a =>
    cases b with
    | array bs => exact symmDiffArrayBitset_eq t ha bs
    | bitset b => exact compactCombineWords_eq t .symmDiff a b
    | run rs => exact symmDiffRunBitset_eq t hb ha
  | run rs =>
    cases b with
    | array bs => exact symmDiffRunArray_eq t ha hb
    | bitset b => exact symmDiffRunBitset_eq t ha hb
    | run ss =>
      have hvalid := (Runs.symmDiff_spec ha hb).1
      rw [symmDiff, Runs.Checked.symmDiff_eq ha hb, bind_of_eq (built_eq (runs_room ha hb) hvalid),
        compactRuns_eq t hvalid, Container.symmDiff]

theorem combine_eq (op : SetOp) {a b : Container} (ha : a.Valid) (hb : b.Valid) :
    combine t op a b = some (Container.combine t op a b) := by
  cases op with
  | inter => exact inter_eq t ha hb
  | union => exact union_eq t ha hb
  | diff => exact diff_eq t ha hb
  | symmDiff => exact symmDiff_eq t ha hb

end SymmDiff

end Roaring.Container.Checked
