import Roaring.Proofs.Buffer
import Roaring.Proofs.Checked.Runs.Merge
import Roaring.Proofs.Runs.Query

/-!
# Runs merged in reserved room

The operations on run lists, written into a buffer with the cursors and the nested loops of a
machine. Each push is paid for by a run or a value of the operands that is not looked at again: a
union and a symmetric difference take one step for each of them, an intersection is done with one of
two runs whenever it pushes what they share, and a difference pushes once for each cut and once for
the end of each run. What is in the buffer and what is still ahead together never grow.
-/
namespace Roaring.Runs.Buffered

open Buffer
open Checked (finish_cons)

variable {room : Nat}

/-! ## One run -/

/-- Adds a run, as part of the last one when the two overlap or touch. -/
def append (out : Buffer Run room) (r : Run) : Option (Buffer Run room) :=
  match out.items.back? with
  | none => out.push? r
  | some last =>
    if r.first.toNat ≤ last.stop then
      some (out.setLast
        { last with extra := (max r.last last.last - last.first.toNat).toUInt16 })
    else out.push? r

/-- Toggles a run: the values that it shares with the last one go. -/
def toggle (out : Buffer Run room) (r : Run) : Option (Buffer Run room) :=
  match out.items.back? with
  | none => out.push? r
  | some last =>
    if last.stop < r.first.toNat then out.push? r
    else if last.stop = r.first.toNat then
      some (out.setLast { last with extra := (r.stop - last.first.toNat - 1).toUInt16 })
    else if r.first = last.first then
      if r.stop < last.stop then some (out.setLast (.ofBounds r.stop last.stop))
      else if last.stop < r.stop then some (out.setLast (.ofBounds last.stop r.stop))
      else some out.pop
    else
      let out := out.setLast { last with extra := r.first - last.first - 1 }
      if r.stop < last.stop then out.push? (.ofBounds r.stop last.stop)
      else if last.stop < r.stop then out.push? (.ofBounds last.stop r.stop)
      else some out

section Step

variable {r : Run} {newest : List Run}

@[simp] theorem size_finish (newest : List Run) : (finish newest).size = newest.length := by
  simp [finish]

theorem back?_finish_cons (last : Run) (rest : List Run) :
    (finish (last :: rest)).back? = some last := by
  rw [finish_cons, Array.back?_push]

theorem leaves_push_finish (fits : (finish newest).size ≤ room) (h : newest.length < room) :
    Leaves (push? ⟨finish newest, fits⟩ r) (finish (r :: newest)) := by
  rw [finish_cons]
  exact leaves_push fits (by simpa using h)

theorem leaves_setLast_finish {last : Run} {rest : List Run}
    (fits : (finish (last :: rest)).size ≤ room) :
    Leaves (some (setLast ⟨finish (last :: rest), fits⟩ r)) (finish (r :: rest)) := by
  simp only [finish_cons] at fits ⊢
  exact leaves_setLast fits

/-- Appending takes no run back and puts in one at most. -/
theorem length_append_bounds (r : Run) (out : List Run) :
    out.length ≤ (Runs.append r out).length ∧ (Runs.append r out).length ≤ out.length + 1 := by
  cases out with
  | nil => simp [Runs.append]
  | cons last rest =>
    rw [Runs.append]
    split <;> simp

theorem length_tail_le (a b : Run) : (tail a b).length ≤ 1 := by
  unfold tail
  split_ifs <;> simp

/-- Where a run is cut off and what is left over is put behind it, there is one run more. -/
theorem length_toggle_le (r : Run) (out : List Run) :
    (Runs.toggle r out).length ≤ out.length + 1 := by
  cases out with
  | nil => simp [Runs.toggle]
  | cons last rest =>
    have htail := length_tail_le r last
    rw [Runs.toggle]
    split_ifs
    · simp
    · simp
    · rw [List.length_append, List.length_cons]
      omega
    · rw [List.length_append, List.length_cons, List.length_cons]
      omega

/-- A run is appended exactly when what comes of it fits. -/
theorem append_eq (r : Run) (fits : (finish newest).size ≤ room) :
    append ⟨finish newest, fits⟩ r = ofArray? (finish (Runs.append r newest)) := by
  cases newest with
  | nil => rfl
  | cons last rest =>
    rw [append, Runs.append]
    simp only [back?_finish_cons]
    split
    · exact (leaves_setLast_finish fits).eq_ofArray
    · exact congrArg ofArray? (finish_cons r _).symm

/-- The part that is left over of two runs replaces the last run. -/
theorem leaves_tail_setLast {last : Run} {rest : List Run}
    (fits : (finish (last :: rest)).size ≤ room) :
    Leaves
      (if r.stop < last.stop then
        some (setLast ⟨finish (last :: rest), fits⟩ (.ofBounds r.stop last.stop))
      else if last.stop < r.stop then
        some (setLast ⟨finish (last :: rest), fits⟩ (.ofBounds last.stop r.stop))
      else some (pop ⟨finish (last :: rest), fits⟩))
      (finish (tail r last ++ rest)) := by
  unfold tail
  split_ifs
  · exact leaves_setLast_finish fits
  · exact leaves_setLast_finish fits
  · simp only [finish_cons] at fits ⊢
    exact leaves_pop fits

/-- The part that is left over of two runs is put behind the last run. -/
theorem leaves_tail_push (last : Run) (fits : (finish newest).size ≤ room)
    (h : newest.length < room) :
    Leaves
      (if r.stop < last.stop then push? ⟨finish newest, fits⟩ (.ofBounds r.stop last.stop)
      else if last.stop < r.stop then push? ⟨finish newest, fits⟩ (.ofBounds last.stop r.stop)
      else some ⟨finish newest, fits⟩)
      (finish (tail r last ++ newest)) := by
  unfold tail
  split_ifs
  · exact leaves_push_finish fits h
  · exact leaves_push_finish fits h
  · exact leaves_some fits

theorem toggle_leaves (fits : (finish newest).size ≤ room) (h : newest.length < room) :
    Leaves (toggle ⟨finish newest, fits⟩ r) (finish (Runs.toggle r newest)) := by
  cases newest with
  | nil => exact leaves_push_finish fits h
  | cons last rest =>
    rw [toggle, Runs.toggle]
    simp only [back?_finish_cons]
    split
    · exact leaves_push_finish fits h
    · split
      · exact leaves_setLast_finish fits
      · split
        · exact leaves_tail_setLast fits
        · -- the last run is cut off first, and that takes no room
          obtain ⟨fits', hcut⟩ := leaves_setLast_finish
            (r := { last with extra := r.first - last.first - 1 }) fits
          rw [Option.some.inj hcut]
          exact leaves_tail_push last fits' h

end Step

/-! ## Union and symmetric difference -/

section Visit

variable (step : Buffer Run room → Run → Option (Buffer Run room))

/-- Takes a step with each run of both arrays by their start, from the indices `i` and `j` on. -/
def visit (a b : Array Run) (i j : Nat) (out : Buffer Run room) : Option (Buffer Run room) :=
  if h : i < a.size ∧ j < b.size then
    have hi := h.1
    have hj := h.2
    if a[i].first ≤ b[j].first then do visit a b (i + 1) j (← step out a[i])
    else do visit a b i (j + 1) (← step out b[j])
  else (a.toList.drop i ++ b.toList.drop j).foldlM step out
termination_by (a.size - i) + (b.size - j)

/-- Takes a step with each run from index `i` on that starts at `v` or before it; also the index of
the first one that does not. -/
def visitUpTo (runs : Array Run) (v : UInt16) (i : Nat) (out : Buffer Run room) :
    Option (Nat × Buffer Run room) :=
  if h : i < runs.size then
    if runs[i].first ≤ v then do visitUpTo runs v (i + 1) (← step out runs[i])
    else some (i, out)
  else some (i, out)
termination_by runs.size - i

/-- Takes a step with each run from index `i` on and each value, as a run of its own, by their
start. -/
def visitValues (runs : Array Run) : List UInt16 → Nat → Buffer Run room →
    Option (Buffer Run room)
  | [], i, out => (runs.toList.drop i).foldlM step out
  | v :: vs, i, out => do
    let (i, out) ← visitUpTo step runs v i out
    visitValues runs vs i (← step out (.single v))

end Visit

def union (a b : Array Run) (out : Buffer Run room) : Option (Buffer Run room) :=
  visit append a b 0 0 out

def symmDiff (a b : Array Run) (out : Buffer Run room) : Option (Buffer Run room) :=
  visit toggle a b 0 0 out

/-- The union with a sorted list of values. -/
def unionValues (runs : Array Run) (values : Array UInt16) (out : Buffer Run room) :
    Option (Buffer Run room) :=
  visitValues append runs values.toList 0 out

/-- The symmetric difference with a sorted list of values. -/
def symmDiffValues (runs : Array Run) (values : Array UInt16) (out : Buffer Run room) :
    Option (Buffer Run room) :=
  visitValues toggle runs values.toList 0 out

/-- The runs of a strictly increasing list of values. -/
def ofValues (values : Array UInt16) (out : Buffer Run room) : Option (Buffer Run room) :=
  values.toList.foldlM (fun out v => append out (.single v)) out

section Order

variable {step : Buffer Run room → Run → Option (Buffer Run room)} {a b : Array Run} {i j : Nat}
  {before before' as bs : List Run}

theorem byStart_cons (r s : Run) (as bs : List Run) :
    byStart (r :: as) (s :: bs) =
      if r.first ≤ s.first then r :: byStart as (s :: bs) else s :: byStart (r :: as) bs := by
  rw [byStart, List.cons_merge_cons]
  simp only [decide_eq_true_eq]
  rfl

theorem visit_eq (ha : Split a i before as) (hb : Split b j before' bs) (out : Buffer Run room) :
    visit step a b i j out = (byStart as bs).foldlM step out := by
  fun_induction visit step a b i j out generalizing as bs before before' with
  | case1 i j out h hi hj hle ih =>
    obtain ⟨as, rfl⟩ := ha.exists_cons hi
    obtain ⟨bs, rfl⟩ := hb.exists_cons hj
    rw [byStart_cons, if_pos hle, List.foldlM_cons]
    exact congrArg _ (funext fun out => ih out ha.next hb)
  | case2 i j out h hi hj hgt ih =>
    obtain ⟨as, rfl⟩ := ha.exists_cons hi
    obtain ⟨bs, rfl⟩ := hb.exists_cons hj
    rw [byStart_cons, if_neg hgt, List.foldlM_cons]
    exact congrArg _ (funext fun out => ih out ha hb.next)
  | case3 i j out h =>
    rw [ha.drop_eq, hb.drop_eq, byStart]
    rcases not_and_or.mp h with h | h
    · rw [ha.eq_nil h, List.nil_merge, List.nil_append]
    · rw [hb.eq_nil h, List.merge_right, List.append_nil]

/-- The runs up to a value come before it, and the others wait for the next one. -/
theorem visitUpTo_eq (v : UInt16) (ha : Split a i before as) (out : Buffer Run room)
    (next : Nat → Buffer Run room → Option (Buffer Run room))
    (hnext : ∀ i before as out, Split a i before as →
      next i out = (byStart as bs).foldlM step out) :
    (do
      let (i, out) ← visitUpTo step a v i out
      next i (← step out (.single v))) = (byStart as (.single v :: bs)).foldlM step out := by
  fun_induction visitUpTo step a v i out generalizing as before with
  | case1 i out h hle ih =>
    obtain ⟨as, rfl⟩ := ha.exists_cons h
    rw [byStart_cons, if_pos (by simpa using hle), List.foldlM_cons, bind_assoc]
    exact congrArg _ (funext fun out => ih out ha.next)
  | case2 i out h hgt =>
    obtain ⟨as, rfl⟩ := ha.exists_cons h
    rw [byStart_cons, if_neg (by simpa using hgt), List.foldlM_cons]
    exact congrArg (step out (.single v) >>= ·) (funext fun out => hnext i _ _ out ha)
  | case3 i out h =>
    obtain rfl := ha.eq_nil h
    rw [byStart, List.nil_merge, List.foldlM_cons]
    refine congrArg (step out (.single v) >>= ·) (funext fun out => ?_)
    rw [hnext i _ _ out ha, byStart, List.nil_merge]

theorem visitValues_eq (vs : List UInt16) (ha : Split a i before as) (out : Buffer Run room) :
    visitValues step a vs i out = (byStart as (vs.map .single)).foldlM step out := by
  induction vs generalizing i before as out with
  | nil => rw [visitValues, ha.drop_eq, byStart, List.map_nil, List.merge_right]
  | cons v vs ih =>
    rw [visitValues, List.map_cons]
    exact visitUpTo_eq v ha out (visitValues step a vs) fun i before as out h => ih h out

/-- No run is taken back, so what fits in the end fits all the way. -/
theorem length_foldl_append_bounds (rs out : List Run) :
    out.length ≤ (rs.foldl (fun out r => Runs.append r out) out).length ∧
      (rs.foldl (fun out r => Runs.append r out) out).length ≤ out.length + rs.length := by
  induction rs generalizing out with
  | nil => simp
  | cons r rs ih =>
    have hstep := length_append_bounds r out
    have hrest := ih (Runs.append r out)
    rw [List.foldl_cons, List.length_cons]
    omega

/-- Runs are appended exactly when what comes of them all fits. -/
theorem foldlM_append_eq (rs newest : List Run) (fits : (finish newest).size ≤ room) :
    rs.foldlM append ⟨finish newest, fits⟩ =
      ofArray? (finish (rs.foldl (fun out r => Runs.append r out) newest)) := by
  induction rs generalizing newest with
  | nil => exact (leaves_some fits).eq_ofArray
  | cons r rs ih =>
    rw [List.foldlM_cons, List.foldl_cons, append_eq]
    by_cases h : (finish (Runs.append r newest)).size ≤ room
    · obtain ⟨fits', heq⟩ := (leaves_ofArray h).bind_eq (rs.foldlM append ·)
      rw [heq]
      exact ih _ fits'
    · have hlen := length_foldl_append_bounds rs (Runs.append r newest)
      rw [size_finish] at h
      rw [ofArray?, ofArray?, dif_neg (by rwa [size_finish]), dif_neg (by rw [size_finish]; omega)]
      rfl

/-- A step puts in one run more at most, so there is room for as many steps as are to come. -/
theorem foldlM_append_leaves (rs : List Run) (h : rs.length ≤ room) :
    Leaves (rs.foldlM append (.empty room))
      (finish (rs.foldl (fun out r => Runs.append r out) [])) := by
  have hlen := length_foldl_append_bounds rs []
  have fits : (finish []).size ≤ room := Nat.zero_le _
  have heq := foldlM_append_eq rs [] fits
  refine heq ▸ leaves_ofArray ?_
  rw [size_finish]
  rw [List.length_nil] at hlen
  omega

theorem foldlM_toggle_leaves (rs newest : List Run) (h : newest.length + rs.length ≤ room)
    (fits : (finish newest).size ≤ room) :
    Leaves (rs.foldlM toggle ⟨finish newest, fits⟩)
      (finish (rs.foldl (fun out r => Runs.toggle r out) newest)) := by
  induction rs generalizing newest with
  | nil => exact leaves_some fits
  | cons r rs ih =>
    have hlen := length_toggle_le r newest
    rw [List.length_cons] at h
    rw [List.foldlM_cons, List.foldl_cons]
    exact (toggle_leaves fits (by omega)).bind (ih _ (by omega))

end Order

section Sums

variable {a b : Array Run} {vs : Array UInt16}

theorem union_leaves :
    Leaves (union a b (.empty (a.size + b.size))) (Runs.union a b) := by
  rw [union, visit_eq (.zero a) (.zero b)]
  exact foldlM_append_leaves _ (by simp [byStart, List.length_merge])

theorem symmDiff_leaves :
    Leaves (symmDiff a b (.empty (a.size + b.size))) (Runs.symmDiff a b) := by
  rw [symmDiff, visit_eq (.zero a) (.zero b)]
  exact foldlM_toggle_leaves _ [] (by simp [byStart, List.length_merge]) (Nat.zero_le _)

theorem unionValues_leaves :
    Leaves (unionValues a vs (.empty (a.size + vs.size))) (Runs.unionValues a vs) := by
  rw [unionValues, visitValues_eq vs.toList (.zero a)]
  exact foldlM_append_leaves _ (by simp [byStart, List.length_merge])

theorem symmDiffValues_leaves :
    Leaves (symmDiffValues a vs (.empty (a.size + vs.size))) (Runs.symmDiffValues a vs) := by
  rw [symmDiffValues, visitValues_eq vs.toList (.zero a)]
  exact foldlM_toggle_leaves _ [] (by simp [byStart, List.length_merge]) (Nat.zero_le _)

end Sums

/-! ## Increasing values -/

theorem ofValues_eq (vs : Array UInt16) (room : Nat) :
    ofValues vs (.empty room) = ofArray? (Runs.ofValues vs) := by
  have fits : (finish []).size ≤ room := Nat.zero_le _
  have heq := foldlM_append_eq (vs.toList.map .single) [] fits
  rw [List.foldlM_map] at heq
  rw [Runs.ofValues_eq]
  exact heq

/-! ## Intersection -/

/-- Appends the parts that a run of each array share, from their indices `i` and `j` on. -/
def interAt (a b : Array Run) (i j : Nat) (out : Buffer Run room) : Option (Buffer Run room) :=
  if h : i < a.size ∧ j < b.size then
    have hi := h.1
    have hj := h.2
    let r := a[i]
    let s := b[j]
    if r.stop ≤ s.first.toNat then interAt a b (i + 1) j out
    else if s.stop ≤ r.first.toNat then interAt a b i (j + 1) out
    else do
      let stop := min r.stop s.stop
      let out ← out.push? (.ofBounds (max r.first.toNat s.first.toNat) stop)
      interAt a b (if r.stop ≤ s.stop then i + 1 else i) (if s.stop ≤ stop then j + 1 else j) out
  else some out
termination_by (a.size - i) + (b.size - j)
decreasing_by all_goals grind

def inter (a b : Array Run) (out : Buffer Run room) : Option (Buffer Run room) :=
  interAt a b 0 0 out

section Inter

variable {a b : Array Run} {as bs before before' : List Run} {i j : Nat}

theorem interAt_cons {r s : Run} (ha : Split a i before (r :: as))
    (hb : Split b j before' (s :: bs)) (out : Buffer Run room) :
    interAt a b i j out =
      if r.stop ≤ s.first.toNat then interAt a b (i + 1) j out
      else if s.stop ≤ r.first.toNat then interAt a b i (j + 1) out
      else
        out.push? (.ofBounds (max r.first.toNat s.first.toNat) (min r.stop s.stop)) >>= fun out =>
          if r.stop < s.stop then interAt a b (i + 1) j out
          else if s.stop < r.stop then interAt a b i (j + 1) out
          else interAt a b (i + 1) (j + 1) out := by
  have hi := ha.lt_size
  have hj := hb.lt_size
  rw [interAt, dif_pos ⟨hi, hj⟩]
  simp only [ha.getElem_eq hi, hb.getElem_eq hj]
  congr 3
  funext out
  rcases Nat.lt_trichotomy r.stop s.stop with h | h | h
  · rw [if_pos (Nat.le_of_lt h), if_neg (by omega), if_pos h]
  · rw [if_pos (by omega), if_pos (by omega), if_neg (by omega), if_neg (by omega)]
  · rw [if_neg (by omega), if_pos (by omega), if_neg (by omega), if_pos h]

theorem interAt_leaves (ha : Split a i before as) (hb : Split b j before' bs) (newest : List Run)
    (h : newest.length + as.length + bs.length ≤ room) (fits : (finish newest).size ≤ room) :
    Leaves (interAt a b i j ⟨finish newest, fits⟩) (finish (interFrom as bs newest)) := by
  fun_induction interFrom as bs newest generalizing i j before before' with
  | case1 bs out =>
    rw [interAt, dif_neg fun h => ha.not_lt_size h.1]
    exact leaves_some fits
  | case2 as out =>
    rw [interAt, dif_neg fun h => hb.not_lt_size h.2]
    exact leaves_some fits
  | case3 r as s bs out hle ih =>
    rw [interAt_cons ha hb, if_pos hle]
    exact ih ha.next hb (by grind) fits
  | case4 r as s bs out hle hle' ih =>
    rw [interAt_cons ha hb, if_neg hle, if_pos hle']
    exact ih ha hb.next (by grind) fits
  | case5 r as s bs out hle hle' shared hlt =>
    rename_i ih
    rw [interAt_cons ha hb, if_neg hle, if_neg hle']
    simp only [if_pos hlt]
    exact (leaves_push_finish fits (by grind)).bind (ih ha.next hb (by grind))
  | case6 r as s bs out hle hle' shared hlt hlt' =>
    rename_i ih
    rw [interAt_cons ha hb, if_neg hle, if_neg hle']
    simp only [if_neg hlt, if_pos hlt']
    exact (leaves_push_finish fits (by grind)).bind (ih ha hb.next (by grind))
  | case7 r as s bs out hle hle' shared hlt hlt' =>
    rename_i ih
    rw [interAt_cons ha hb, if_neg hle, if_neg hle']
    simp only [if_neg hlt, if_neg hlt']
    exact (leaves_push_finish fits (by grind)).bind (ih ha.next hb.next (by grind))

theorem inter_leaves : Leaves (inter a b (.empty (a.size + b.size))) (Runs.inter a b) :=
  interAt_leaves (.zero a) (.zero b) [] (by simp) (Nat.zero_le _)

end Inter

/-! ## Difference -/

/-- Appends the values of `[start, stop)`, unless that is empty. -/
def pushRange (start stop : Nat) (out : Buffer Run room) : Option (Buffer Run room) :=
  if start < stop then out.push? (.ofBounds start stop) else some out

/-- Appends the values of `[start, stop)`, the rest of the run of `a` at index `i`, and of the later
runs of `a` that the runs of `b` from index `j` on lack. -/
def diffAt (a b : Array Run) (i j start stop : Nat) (out : Buffer Run room) :
    Option (Buffer Run room) :=
  if h : i < a.size ∧ j < b.size then
    have hj := h.2
    let s := b[j]
    if stop ≤ s.first.toNat then do
      let out ← out.push? (.ofBounds start stop)
      match a[i + 1]? with
      | none => some out
      | some r => diffAt a b (i + 1) j r.first.toNat r.stop out
    else if hle : s.stop ≤ start then diffAt a b i (j + 1) start stop out
    else do
      let out ← pushRange start s.first.toNat out
      if hlt : s.stop < stop then diffAt a b i j s.stop stop out
      else
        match a[i + 1]? with
        | none => some out
        | some r => diffAt a b (i + 1) j r.first.toNat r.stop out
  else if i < a.size then do
    let out ← out.push? (.ofBounds start stop)
    out.append? (a.extract (i + 1))
  else some out
termination_by ((a.size - i) + (b.size - j), stop - start)
decreasing_by all_goals grind

def diff (a b : Array Run) (out : Buffer Run room) : Option (Buffer Run room) :=
  match a[0]? with
  | none => some out
  | some r => if b.isEmpty then out.append? a else diffAt a b 0 0 r.first.toNat r.stop out

section Diff

variable {a b : Array Run} {as bs before before' : List Run} {i j start stop : Nat}

theorem diffAt_cons {s : Run} (hi : i < a.size) (hb : Split b j before' (s :: bs))
    (out : Buffer Run room) :
    diffAt a b i j start stop out =
      if stop ≤ s.first.toNat then
        out.push? (.ofBounds start stop) >>= fun out =>
          match a[i + 1]? with
          | none => some out
          | some r => diffAt a b (i + 1) j r.first.toNat r.stop out
      else if s.stop ≤ start then diffAt a b i (j + 1) start stop out
      else
        pushRange start s.first.toNat out >>= fun out =>
          if s.stop < stop then diffAt a b i j s.stop stop out
          else
            match a[i + 1]? with
            | none => some out
            | some r => diffAt a b (i + 1) j r.first.toNat r.stop out := by
  have hj := hb.lt_size
  rw [diffAt, dif_pos ⟨hi, hj⟩]
  simp only [hb.getElem_eq hj, dite_eq_ite]

theorem length_pushRange_le (start stop : Nat) (out : List Run) :
    (Runs.pushRange start stop out).length ≤ out.length + 1 := by
  unfold Runs.pushRange
  split <;> simp

theorem pushRange_leaves {newest : List Run} (start stop : Nat)
    (fits : (finish newest).size ≤ room) (h : newest.length < room) :
    Leaves (pushRange start stop ⟨finish newest, fits⟩)
      (finish (Runs.pushRange start stop newest)) := by
  unfold pushRange Runs.pushRange
  split
  · exact leaves_push_finish fits h
  · exact leaves_some fits

/-- Room is needed for the rest of the run at hand, for every run after it, and for one piece in
front of every cut. -/
theorem diffAt_leaves (hi : i < a.size) (ha : Split a (i + 1) before as)
    (hb : Split b j before' bs) (newest : List Run)
    (h : newest.length + 1 + as.length + bs.length ≤ room) (fits : (finish newest).size ≤ room) :
    Leaves (diffAt a b i j start stop ⟨finish newest, fits⟩)
      (finish (diffFrom start stop as bs newest)) := by
  fun_induction diffFrom start stop as bs newest generalizing i j before before' with
  | case1 start stop as out =>
    have hrest : finish (as.reverse ++ .ofBounds start stop :: out) =
        finish (.ofBounds start stop :: out) ++ as.toArray :=
      Array.toList_inj.mp (by simp [finish])
    rw [diffAt, dif_neg fun h => hb.not_lt_size h.2, if_pos hi, ha.extract_eq, hrest]
    refine (leaves_push_finish fits (by omega)).bind fun fits => leaves_append fits ?_
    rw [size_finish, List.length_cons, List.size_toArray]
    omega
  | case2 start stop s bs out hle =>
    rw [diffAt_cons hi hb, if_pos hle, Array.getElem?_eq_none (Nat.le_of_not_lt ha.not_lt_size)]
    exact (leaves_push_finish fits (by grind)).bind leaves_some
  | case3 start stop s bs out hle r as ih =>
    rw [diffAt_cons hi hb, if_pos hle, ha.getElem?_cons]
    exact (leaves_push_finish fits (by grind)).bind (ih ha.lt_size ha.next hb (by grind))
  | case4 start stop as s bs out hle hle' ih =>
    rw [diffAt_cons hi hb, if_neg hle, if_pos hle']
    exact ih hi ha hb.next (by grind) fits
  | case5 start stop as s bs out hle hle' out' hcut =>
    rename_i ih
    -- the piece in front of the cut is paid for by the cut, which is passed next
    have hs := s.first_lt_stop
    have hlen : out'.length ≤ out.length + 1 := length_pushRange_le start s.first.toNat out
    rw [diffAt_cons hi hb, if_neg hle, if_neg hle']
    refine (pushRange_leaves _ _ fits (by grind)).bind fun fits => ?_
    rw [if_pos hcut, diffAt_cons hi hb, if_neg (by omega), if_pos (Nat.le_refl _)]
    rw [List.length_cons] at h
    exact ih hi ha hb.next (by omega) fits
  | case6 start stop s bs out hle hle' out' =>
    rename_i hcut
    rw [diffAt_cons hi hb, if_neg hle, if_neg hle',
      Array.getElem?_eq_none (Nat.le_of_not_lt ha.not_lt_size)]
    refine (pushRange_leaves _ _ fits (by grind)).bind fun fits => ?_
    rw [if_neg hcut]
    exact leaves_some fits
  | case7 start stop s bs out hle hle' out' hcut r as =>
    rename_i ih
    have hlen : out'.length ≤ out.length + 1 := length_pushRange_le start s.first.toNat out
    rw [diffAt_cons hi hb, if_neg hle, if_neg hle', ha.getElem?_cons]
    refine (pushRange_leaves _ _ fits (by grind)).bind fun fits => ?_
    rw [if_neg hcut]
    exact ih ha.lt_size ha.next hb (by grind) fits

/-- With nothing to cut with, the runs stay as they are. -/
theorem finish_diffList_nil (a : Array Run) : finish (diffList a.toList []) = a := by
  refine Array.toList_inj.mp ?_
  cases a.toList with
  | nil => rfl
  | cons r as => simp [diffList, diffFrom, Run.ofBounds_first_stop, finish]

theorem diff_leaves : Leaves (diff a b (.empty (a.size + b.size))) (Runs.diff a b) := by
  unfold diff Runs.diff
  split
  · rename_i h0
    have hnil : a.toList = [] := by simpa using h0
    rw [hnil]
    exact leaves_some _
  · rename_i r h0
    split
    · rename_i hb
      have hnil : b.toList = [] := by simpa using hb
      have hcopy : Leaves (append? (.empty (a.size + b.size)) a) (#[] ++ a) :=
        leaves_append _ (by simp)
      rw [hnil, finish_diffList_nil]
      rwa [Array.empty_append] at hcopy
    · have hsplit := Split.zero a
      obtain ⟨as, has⟩ := hsplit.exists_cons_of_getElem? h0
      have hlen := congrArg List.length has
      rw [Array.length_toList, List.length_cons] at hlen
      rw [has] at hsplit ⊢
      exact diffAt_leaves hsplit.lt_size hsplit.next (.zero b) [] (by simp; omega) _

end Diff

/-- Appends the values of `[start, stop)` that the values of an array from index `i` on lack; also
the index of the first value past that range. -/
def cutValues (vs : Array UInt16) (start stop i : Nat) (out : Buffer Run room) :
    Option (Nat × Buffer Run room) :=
  if h : i < vs.size then
    let v := vs[i].toNat
    if v < stop then
      if start ≤ v then do
        let out ← pushRange start v out
        cutValues vs (v + 1) stop (i + 1) out
      else cutValues vs start stop (i + 1) out
    else do some (i, ← pushRange start stop out)
  else do some (i, ← pushRange start stop out)
termination_by vs.size - i

/-- Appends the values of runs that the values of an array from index `i` on lack. -/
def diffValuesFrom (vs : Array UInt16) : List Run → Nat → Buffer Run room →
    Option (Buffer Run room)
  | [], _, out => some out
  | r :: rs, i, out => do
    let (i, out) ← cutValues vs r.first.toNat r.stop i out
    diffValuesFrom vs rs i out

/-- The values of the runs that a sorted list of values lacks. -/
def diffValues (runs : Array Run) (values : Array UInt16) (out : Buffer Run room) :
    Option (Buffer Run room) :=
  diffValuesFrom values runs.toList 0 out

section Cut

variable {vs : Array UInt16} {ws before : List UInt16} {i start stop : Nat}

/-- A piece ends at a value that is passed with it, or is the last one of the range. -/
theorem length_cutValues_le (start stop : Nat) (ws : List UInt16) (out : List Run) :
    (Runs.cutValues start stop ws out).1.length + (Runs.cutValues start stop ws out).2.length ≤
      out.length + 1 + ws.length := by
  fun_induction Runs.cutValues start stop ws out with
  | case1 start out =>
    have := length_pushRange_le start stop out
    exact this
  | case2 start v ws out hle =>
    have := length_pushRange_le start stop out
    exact Nat.add_le_add_right this _
  | case3 start v ws out hle hlt ih => grind
  | case4 start v ws out hle hlt ih =>
    have := length_pushRange_le start v.toNat out
    unfold Runs.pushRange at this
    grind

theorem cutValues_leaves (start stop : Nat) (hvs : Split vs i before ws) (newest : List Run)
    (h : newest.length + 1 + ws.length ≤ room) (fits : (finish newest).size ≤ room) :
    ∃ n before' fits', Split vs n before' (Runs.cutValues start stop ws newest).2 ∧
      cutValues vs start stop i ⟨finish newest, fits⟩ =
        some (n, ⟨finish (Runs.cutValues start stop ws newest).1, fits'⟩) := by
  fun_induction Runs.cutValues start stop ws newest generalizing i before with
  | case1 start out =>
    obtain ⟨fits', hpush⟩ := pushRange_leaves start stop fits (by omega)
    rw [cutValues, dif_neg hvs.not_lt_size, hpush]
    exact ⟨i, _, fits', hvs, rfl⟩
  | case2 start v ws out hle =>
    obtain ⟨fits', hpush⟩ := pushRange_leaves start stop fits (by omega)
    rw [cutValues, dif_pos hvs.lt_size, hvs.getElem_eq, if_neg (Nat.not_lt.mpr hle), hpush]
    exact ⟨i, _, fits', hvs, rfl⟩
  | case3 start v ws out hle hlt ih =>
    rw [cutValues, dif_pos hvs.lt_size, hvs.getElem_eq, if_pos (Nat.lt_of_not_le hle),
      if_neg (Nat.not_le.mpr hlt)]
    exact ih hvs.next (by grind) fits
  | case4 start v ws out hle hlt ih =>
    have hlen := length_pushRange_le start v.toNat out
    obtain ⟨fits', hpush⟩ := pushRange_leaves start v.toNat fits (by omega)
    rw [cutValues, dif_pos hvs.lt_size, hvs.getElem_eq, if_pos (Nat.lt_of_not_le hle),
      if_pos (Nat.le_of_not_lt hlt), hpush]
    exact ih hvs.next (by grind [Runs.pushRange]) fits'

theorem diffValuesFrom_leaves (rs : List Run) (hvs : Split vs i before ws) (newest : List Run)
    (h : newest.length + rs.length + ws.length ≤ room) (fits : (finish newest).size ≤ room) :
    Leaves (diffValuesFrom vs rs i ⟨finish newest, fits⟩)
      (finish (Runs.diffValuesFrom rs ws newest)) := by
  induction rs generalizing i before ws newest with
  | nil => exact leaves_some fits
  | cons r rs ih =>
    have hlen := length_cutValues_le r.first.toNat r.stop ws newest
    rw [List.length_cons] at h
    obtain ⟨n, before', fits', hsplit, hcut⟩ :=
      cutValues_leaves r.first.toNat r.stop hvs newest (by omega) fits
    rw [diffValuesFrom, hcut]
    exact ih hsplit _ (by omega) fits'

theorem diffValues_leaves {a : Array Run} :
    Leaves (diffValues a vs (.empty (a.size + vs.size))) (Runs.diffValues a vs) :=
  diffValuesFrom_leaves a.toList (.zero vs) [] (by simp) (Nat.zero_le _)

end Cut

end Roaring.Runs.Buffered
