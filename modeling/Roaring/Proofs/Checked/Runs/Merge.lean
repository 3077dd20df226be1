import Roaring.Proofs.Checked.Runs.Append
import Roaring.Proofs.Runs.Merge

/-!
# Runs merged, checked

Cursors walk two run arrays, and the runs that come of it are pushed onto a third. A union and a
symmetric difference are folds over the runs of both; that no bound is lost in a step is what the
order of the runs still to come is for. An intersection and a difference cut runs at the bounds of
others, none of which lies past the domain.
-/
namespace Roaring.Runs.Checked

open Machine

variable {a b out : Array Run} {as bs before before' : List Run} {i j : Nat}

theorem finish_cons (r : Run) (out : List Run) : finish (r :: out) = (finish out).push r :=
  Array.toList_inj.mp (by simp [finish])

@[simp] theorem reverse_finish (out : List Run) : (finish out).toList.reverse = out := by
  simp [finish]

theorem slice_rest (h : Split a i before as) : slice a i a.size = some as.toArray := by
  rw [slice_of_le h.le_size (Nat.le_refl _), h.extract_eq]

/-! ## Union and symmetric difference -/

/-- Takes a step with each run of both arrays by their start, from the indices `i` and `j` on. -/
def visit (step : Array Run → Run → Option (Array Run)) (a b : Array Run) (i j : Nat)
    (out : Array Run) : Option (Array Run) :=
  if h : i < a.size ∧ j < b.size then do
    check (i + 1 < 2 ^ 64 ∧ j + 1 < 2 ^ 64)
    if a[i].first ≤ b[j].first then do visit step a b (i + 1) j (← step out a[i])
    else do visit step a b i (j + 1) (← step out b[j])
  else do
    let rest ← slice a i a.size
    let rest' ← slice b j b.size
    (rest ++ rest').toList.foldlM step out
termination_by (a.size - i) + (b.size - j)

def union (a b : Array Run) : Option (Array Run) := visit appendRun a b 0 0 #[]

def symmDiff (a b : Array Run) : Option (Array Run) := visit toggleRun a b 0 0 #[]

/-- The union with a sorted list of values. -/
def unionValues (runs : Array Run) (values : Array UInt16) : Option (Array Run) :=
  visit appendRun runs (values.map .single) 0 0 #[]

/-- The symmetric difference with a sorted list of values. -/
def symmDiffValues (runs : Array Run) (values : Array UInt16) : Option (Array Run) :=
  visit toggleRun runs (values.map .single) 0 0 #[]

/-- Adds to `n` the number of gaps between neighbours in a list of values. -/
def countGaps : List UInt16 → Nat → Option Nat
  | u :: v :: vs, n => do
    if (← to32 (u.toNat + 1)) ≠ v.toNat then countGaps (v :: vs) (← to64 (n + 1))
    else countGaps (v :: vs) n
  | _, n => some n

/-- The number of runs of a strictly increasing list of values. -/
def countRuns (values : Array UInt16) : Option Nat :=
  if values.isEmpty then some 0 else do to64 (1 + (← countGaps values.toList 0))

/-- The runs of a strictly increasing list of values. They are counted first, to make room. -/
def ofValues (values : Array UInt16) : Option (Array Run) := do
  check (Sorted.Increasing values)
  let _ ← countRuns values
  (values.toList.map .single).foldlM appendRun #[]

theorem visit_eq (step : Array Run → Run → Option (Array Run)) (hsa : a.size < 2 ^ 63)
    (hsb : b.size < 2 ^ 63) (ha : Split a i before as) (hb : Split b j before' bs) :
    visit step a b i j out = (byStart as bs).foldlM step out := by
  fun_induction visit step a b i j out generalizing as bs before before' with
  | case1 i j out h ihLeft ihRight =>
    obtain ⟨as, rfl⟩ := ha.exists_cons h.1
    obtain ⟨bs, rfl⟩ := hb.exists_cons h.2
    rw [bind_of_eq (check_of ⟨by omega, by omega⟩), byStart, List.cons_merge_cons]
    simp only [decide_eq_true_eq]
    split
    · rw [List.foldlM_cons]
      exact congrArg _ (funext fun out => ihLeft out ha.next hb)
    · rw [List.foldlM_cons]
      exact congrArg _ (funext fun out => ihRight out ha hb.next)
  | case2 i j out h =>
    rw [bind_of_eq (slice_rest ha), bind_of_eq (slice_rest hb), byStart]
    rcases not_and_or.mp h with h | h
    · rw [ha.eq_nil h, List.nil_merge]
      simp
    · rw [hb.eq_nil h, List.merge_right]
      simp

theorem fits_finish {out : List Run} {r : Run} (h : Stacked out) (hr : r.InDomain)
    (hle : ∀ l ∈ out.head?, l.first ≤ r.first) : Fits (finish out) r := by
  refine ⟨hr, fun l hl => ?_⟩
  rw [← head?_reverse_toList, reverse_finish] at hl
  exact ⟨h.1 l (List.mem_of_mem_head? hl), hle l hl⟩

theorem foldlM_appendRun (rs : List Run) {out : List Run} (h : Stacked out)
    (hdom : ∀ r ∈ rs, r.InDomain) (hrs : rs.Pairwise fun a b => a.first ≤ b.first)
    (hle : ∀ l ∈ out.head?, ∀ r ∈ rs, l.first ≤ r.first) :
    rs.foldlM appendRun (finish out) =
      some (finish (rs.foldl (fun out r => append r out) out)) := by
  induction rs generalizing out with
  | nil => rfl
  | cons r rs ih =>
    obtain ⟨hr, hdom⟩ := List.forall_mem_cons.mp hdom
    obtain ⟨hfirst, hrs⟩ := List.pairwise_cons.mp hrs
    have hhead : ∀ l ∈ out.head?, l.first ≤ r.first := fun l hl =>
      hle l hl r List.mem_cons_self
    rw [List.foldlM_cons, bind_of_eq (appendRun_eq (fits_finish h hr hhead)), Runs.appendRun_eq,
      reverse_finish, List.foldl_cons]
    exact ih (stacked_append h hr hhead) hdom hrs fun l hl s hs =>
      UInt16.le_trans (head_append hhead l hl) (hfirst s hs)

theorem foldlM_toggleRun (rs : List Run) {out : List Run} (h : Stacked out)
    (hdom : ∀ r ∈ rs, r.InDomain) (hlay : Layered (out.head?.toList ++ rs)) :
    rs.foldlM toggleRun (finish out) =
      some (finish (rs.foldl (fun out r => toggle r out) out)) := by
  induction rs generalizing out with
  | nil => rfl
  | cons r rs ih =>
    obtain ⟨hr, hdom⟩ := List.forall_mem_cons.mp hdom
    have hle : ∀ l ∈ out.head?, l.first ≤ r.first := by
      intro l hl
      rw [Option.mem_def.mp hl] at hlay
      exact (layered_cons.mp hlay).1 r List.mem_cons_self
    rw [List.foldlM_cons, bind_of_eq (toggleRun_eq (fits_finish h hr hle)), Runs.toggleRun_eq,
      reverse_finish, List.foldl_cons]
    exact ih (stacked_toggle h hr hle) hdom (layered_toggle h hr hlay)

section Ordered

variable (ha : Ordered a.toList) (hb : Ordered b.toList) (hsa : a.size < 2 ^ 63)
  (hsb : b.size < 2 ^ 63)

include ha hb hsa hsb

theorem visit_appendRun_eq :
    visit appendRun a b 0 0 #[] = some (finish (unionList a.toList b.toList)) := by
  rw [visit_eq _ hsa hsb (.zero a) (.zero b)]
  exact foldlM_appendRun _ stacked_nil (inDomain_byStart ha hb) (sorted_byStart ha hb) (by simp)

theorem visit_toggleRun_eq :
    visit toggleRun a b 0 0 #[] = some (finish (symmDiffList a.toList b.toList)) := by
  rw [visit_eq _ hsa hsb (.zero a) (.zero b)]
  exact foldlM_toggleRun _ stacked_nil (inDomain_byStart ha hb) (layered_byStart ha hb)

end Ordered

theorem union_eq (ha : Valid a) (hb : Valid b) : union a b = some (Runs.union a b) := by
  have hsa := size_le ha
  have hsb := size_le hb
  exact visit_appendRun_eq ha.ordered hb.ordered (by omega) (by omega)

theorem symmDiff_eq (ha : Valid a) (hb : Valid b) : symmDiff a b = some (Runs.symmDiff a b) := by
  have hsa := size_le ha
  have hsb := size_le hb
  exact visit_toggleRun_eq ha.ordered hb.ordered (by omega) (by omega)

theorem countGaps_eq (vs : List UInt16) (n : Nat) (hn : n + vs.length < 2 ^ 64) :
    countGaps vs n =
      some (n + (neighbours vs).countP isGap) := by
  induction vs generalizing n with
  | nil => rfl
  | cons u vs ih =>
    cases vs with
    | nil => rfl
    | cons v vs =>
      have hu := u.toNat_lt
      have hpair : neighbours (u :: v :: vs) = (u, v) :: neighbours (v :: vs) := rfl
      rw [List.length_cons] at hn
      rw [countGaps, bind_of_eq (to32_of_lt (by omega)), hpair, List.countP_cons]
      split
      · rename_i hgap
        have hpay : isGap (u, v) = true := decide_eq_true hgap
        rw [bind_of_eq (to64_of_lt (by omega)), ih _ (by omega), if_pos hpay, Nat.add_right_comm,
          Nat.add_assoc]
      · rename_i hnext
        have hfree : ¬isGap (u, v) = true := fun h => hnext (of_decide_eq_true h)
        rw [ih _ (by omega), if_neg hfree, Nat.add_zero]

section Values

variable {vs : Array UInt16} (ha : Valid a) (hvs : Sorted.Increasing vs)

include hvs

theorem countRuns_eq : countRuns vs = some (Runs.countRuns vs) := by
  have hsize := Sorted.size_le hvs
  obtain ⟨vs⟩ := vs
  cases vs with
  | nil => rfl
  | cons v vs =>
    have hlen : (neighbours (v :: vs)).length ≤ vs.length := by simp [neighbours]
    have hle : (neighbours (v :: vs)).countP isGap ≤ vs.length :=
      Nat.le_trans List.countP_le_length hlen
    rw [List.size_toArray, List.length_cons] at hsize
    have hgaps : countGaps (v :: vs) 0 = some ((neighbours (v :: vs)).countP isGap) := by
      rw [countGaps_eq (v :: vs) 0 (by rw [List.length_cons]; omega), Nat.zero_add]
    exact (bind_of_eq hgaps _).trans (to64_of_lt (by omega))

theorem ofValues_eq : ofValues vs = some (Runs.ofValues vs) := by
  rw [ofValues, bind_of_eq (check_of hvs), bind_of_eq (countRuns_eq hvs), Runs.ofValues_eq]
  have hdom : ∀ r ∈ vs.toList.map Run.single, r.InDomain := by
    simp [Run.inDomain_single]
  exact foldlM_appendRun _ stacked_nil hdom (ordered_single hvs).sorted (by simp)

include ha

theorem unionValues_eq : unionValues a vs = some (Runs.unionValues a vs) := by
  have hsa := size_le ha
  have hsv := Sorted.size_le hvs
  have hsingle : Ordered (vs.map Run.single).toList := by
    simpa using ordered_single hvs
  rw [unionValues, visit_appendRun_eq ha.ordered hsingle (by omega) (by simpa using by omega),
    Array.toList_map, Runs.unionValues]

theorem symmDiffValues_eq : symmDiffValues a vs = some (Runs.symmDiffValues a vs) := by
  have hsa := size_le ha
  have hsv := Sorted.size_le hvs
  have hsingle : Ordered (vs.map Run.single).toList := by
    simpa using ordered_single hvs
  rw [symmDiffValues, visit_toggleRun_eq ha.ordered hsingle (by omega) (by simpa using by omega),
    Array.toList_map, Runs.symmDiffValues]

end Values

/-! ## Intersection -/

/-- Appends the parts that a run of each array share, from their indices `i` and `j` on. -/
def interAt (a b : Array Run) (i j : Nat) (out : Array Run) : Option (Array Run) :=
  if h : i < a.size ∧ j < b.size then do
    check (i + 1 < 2 ^ 64 ∧ j + 1 < 2 ^ 64)
    let start := a[i].first.toNat
    let stop ← Run.Checked.stop a[i]
    let start' := b[j].first.toNat
    let stop' ← Run.Checked.stop b[j]
    if stop ≤ start' then interAt a b (i + 1) j out
    else if stop' ≤ start then interAt a b i (j + 1) out
    else do
      let shared ← Run.Checked.ofBounds (max start start') (min stop stop')
      if stop < stop' then interAt a b (i + 1) j (out.push shared)
      else if stop' < stop then interAt a b i (j + 1) (out.push shared)
      else interAt a b (i + 1) (j + 1) (out.push shared)
  else some out
termination_by (a.size - i) + (b.size - j)

def inter (a b : Array Run) : Option (Array Run) := interAt a b 0 0 #[]

theorem interAt_cons {r s : Run} (hsa : a.size < 2 ^ 63) (hsb : b.size < 2 ^ 63)
    (hr : r.InDomain) (ha : Split a i before (r :: as)) (hb : Split b j before' (s :: bs)) :
    interAt a b i j out =
      if r.stop ≤ s.first.toNat then interAt a b (i + 1) j out
      else if s.stop ≤ r.first.toNat then interAt a b i (j + 1) out
      else
        let shared := Run.ofBounds (max r.first.toNat s.first.toNat) (min r.stop s.stop)
        if r.stop < s.stop then interAt a b (i + 1) j (out.push shared)
        else if s.stop < r.stop then interAt a b i (j + 1) (out.push shared)
        else interAt a b (i + 1) (j + 1) (out.push shared) := by
  have hi := ha.lt_size
  have hj := hb.lt_size
  have hr : r.stop ≤ 65536 := hr
  have hr' := r.first_lt_stop
  have hs' := s.first_lt_stop
  rw [interAt, dif_pos ⟨hi, hj⟩, bind_of_eq (check_of ⟨by omega, by omega⟩)]
  simp only [ha.getElem_eq hi, hb.getElem_eq hj]
  rw [bind_of_eq (Run.Checked.stop_eq r), bind_of_eq (Run.Checked.stop_eq s)]
  split
  · rfl
  · split
    · rfl
    · exact bind_of_eq (Run.Checked.ofBounds_eq (by omega) (by omega)) _

theorem interAt_eq (hsa : a.size < 2 ^ 63) (hsb : b.size < 2 ^ 63) (hdom : ∀ r ∈ as, r.InDomain)
    (ha : Split a i before as) (hb : Split b j before' bs) (out : List Run) :
    interAt a b i j (finish out) = some (finish (interFrom as bs out)) := by
  fun_induction interFrom as bs out generalizing i j before before' with
  | case1 bs out => rw [interAt, dif_neg fun h => ha.not_lt_size h.1]
  | case2 as out => rw [interAt, dif_neg fun h => hb.not_lt_size h.2]
  | case3 r as s bs out hle ih =>
    obtain ⟨hr, hdom⟩ := List.forall_mem_cons.mp hdom
    rw [interAt_cons hsa hsb hr ha hb, if_pos hle]
    exact ih hdom ha.next hb
  | case4 r as s bs out hle hle' ih =>
    rw [interAt_cons hsa hsb (hdom r List.mem_cons_self) ha hb, if_neg hle, if_pos hle']
    exact ih hdom ha hb.next
  | case5 r as s bs out hle hle' shared hlt =>
    rename_i ih
    obtain ⟨hr, hdom⟩ := List.forall_mem_cons.mp hdom
    rw [interAt_cons hsa hsb hr ha hb, if_neg hle, if_neg hle', if_pos hlt, ← finish_cons]
    exact ih hdom ha.next hb
  | case6 r as s bs out hle hle' shared hlt hlt' =>
    rename_i ih
    rw [interAt_cons hsa hsb (hdom r List.mem_cons_self) ha hb, if_neg hle, if_neg hle',
      if_neg hlt, if_pos hlt', ← finish_cons]
    exact ih hdom ha hb.next
  | case7 r as s bs out hle hle' shared hlt hlt' =>
    rename_i ih
    obtain ⟨hr, hdom⟩ := List.forall_mem_cons.mp hdom
    rw [interAt_cons hsa hsb hr ha hb, if_neg hle, if_neg hle', if_neg hlt, if_neg hlt',
      ← finish_cons]
    exact ih hdom ha.next hb.next

theorem inter_eq (ha : Valid a) (hb : Valid b) : inter a b = some (Runs.inter a b) := by
  have hsa := size_le ha
  have hsb := size_le hb
  exact interAt_eq (by omega) (by omega) ha.1 (.zero a) (.zero b) []

/-! ## Difference -/

/-- Appends the values of `[start, stop)`, unless that is empty. -/
def pushRange (start stop : Nat) (out : Array Run) : Option (Array Run) :=
  if start < stop then (Run.Checked.ofBounds start stop).map out.push else some out

/-- Appends the values of `[start, stop)`, the rest of the run of `a` at index `i`, and of the later
runs of `a` that the runs of `b` from index `j` on lack. -/
def diffAt (a b : Array Run) (i j start stop : Nat) (out : Array Run) : Option (Array Run) :=
  if h : i < a.size ∧ j < b.size then do
    check (i + 1 < 2 ^ 64 ∧ j + 1 < 2 ^ 64)
    let start' := b[j].first.toNat
    let stop' ← Run.Checked.stop b[j]
    if stop ≤ start' then do
      let out := out.push (← Run.Checked.ofBounds start stop)
      match a[i + 1]? with
      | none => some out
      | some r => do diffAt a b (i + 1) j r.first.toNat (← Run.Checked.stop r) out
    else if hle : stop' ≤ start then diffAt a b i (j + 1) start stop out
    else do
      let out ← pushRange start start' out
      if hlt : stop' < stop then diffAt a b i j stop' stop out
      else
        match a[i + 1]? with
        | none => some out
        | some r => do diffAt a b (i + 1) j r.first.toNat (← Run.Checked.stop r) out
  else if i < a.size then do
    let last ← Run.Checked.ofBounds start stop
    some (out.push last ++ (← slice a (i + 1) a.size))
  else some out
termination_by ((a.size - i) + (b.size - j), stop - start)

def diff (a b : Array Run) : Option (Array Run) :=
  match a[0]? with
  | none => some #[]
  | some r => do diffAt a b 0 0 r.first.toNat (← Run.Checked.stop r) #[]

theorem pushRange_eq {start stop : Nat} (hstop : stop ≤ 65536) (out : List Run) :
    pushRange start stop (finish out) = some (finish (Runs.pushRange start stop out)) := by
  unfold pushRange Runs.pushRange
  split
  · rw [Run.Checked.ofBounds_eq ‹_› hstop, finish_cons]
    rfl
  · rfl

section Step

variable {start stop : Nat} {s : Run} {out : Array Run} (hsa : a.size < 2 ^ 63)
  (hsb : b.size < 2 ^ 63) (hi : i < a.size) (hb : Split b j before' (s :: bs))

include hsa hsb hi hb

theorem diffAt_cons :
    diffAt a b i j start stop out =
      if stop ≤ s.first.toNat then do
        let out := out.push (← Run.Checked.ofBounds start stop)
        match a[i + 1]? with
        | none => some out
        | some r => diffAt a b (i + 1) j r.first.toNat r.stop out
      else if s.stop ≤ start then diffAt a b i (j + 1) start stop out
      else
        pushRange start s.first.toNat out >>= fun out =>
          if s.stop < stop then diffAt a b i j s.stop stop out
          else
            match a[i + 1]? with
            | none => some out
            | some r => diffAt a b (i + 1) j r.first.toNat r.stop out := by
  have hj := hb.lt_size
  rw [diffAt, dif_pos ⟨hi, hj⟩, bind_of_eq (check_of ⟨by omega, by omega⟩)]
  simp only [hb.getElem_eq hj]
  rw [bind_of_eq (Run.Checked.stop_eq s)]
  simp only [dite_eq_ite, Run.Checked.stop_eq, Option.bind_eq_bind, Option.bind_some]

end Step

theorem diffAt_eq {start stop : Nat} (hsa : a.size < 2 ^ 63) (hsb : b.size < 2 ^ 63)
    (hdom : ∀ r ∈ as, r.InDomain) (hlt : start < stop) (hstop : stop ≤ 65536) (hi : i < a.size)
    (ha : Split a (i + 1) before as) (hb : Split b j before' bs) (out : List Run) :
    diffAt a b i j start stop (finish out) = some (finish (diffFrom start stop as bs out)) := by
  fun_induction diffFrom start stop as bs out generalizing i j before before' with
  | case1 start stop as out =>
    rw [diffAt, dif_neg fun h => hb.not_lt_size h.2, if_pos hi,
      bind_of_eq (Run.Checked.ofBounds_eq hlt hstop), bind_of_eq (slice_rest ha)]
    exact congrArg some (Array.toList_inj.mp (by simp [finish]))
  | case2 start stop s bs out hle =>
    rw [diffAt_cons hsa hsb hi hb, if_pos hle, bind_of_eq (Run.Checked.ofBounds_eq hlt hstop),
      Array.getElem?_eq_none (Nat.le_of_not_lt ha.not_lt_size), finish_cons]
  | case3 start stop s bs out hle r as ih =>
    obtain ⟨hr, hdom⟩ := List.forall_mem_cons.mp hdom
    rw [diffAt_cons hsa hsb hi hb, if_pos hle, bind_of_eq (Run.Checked.ofBounds_eq hlt hstop),
      ha.getElem?_cons, ← finish_cons]
    exact ih hdom r.first_lt_stop hr ha.lt_size ha.next hb
  | case4 start stop as s bs out hle hle' ih =>
    rw [diffAt_cons hsa hsb hi hb, if_neg hle, if_pos hle']
    exact ih hdom hlt hstop hi ha hb.next
  | case5 start stop as s bs out hle hle' out' hcut =>
    -- what is left of the run at hand starts where the cut ends, so the cut is passed next
    rename_i ih
    have hs := s.first_lt_stop
    rw [diffAt_cons hsa hsb hi hb, if_neg hle, if_neg hle',
      bind_of_eq (pushRange_eq (Nat.le_of_lt s.first.toNat_lt) out), if_pos hcut,
      diffAt_cons hsa hsb hi hb, if_neg (by omega), if_pos (Nat.le_refl _)]
    exact ih hdom hcut hstop hi ha hb.next
  | case6 start stop s bs out hle hle' out' =>
    rename_i hcut
    rw [diffAt_cons hsa hsb hi hb, if_neg hle, if_neg hle',
      bind_of_eq (pushRange_eq (Nat.le_of_lt s.first.toNat_lt) out), if_neg hcut,
      Array.getElem?_eq_none (Nat.le_of_not_lt ha.not_lt_size)]
    rfl
  | case7 start stop s bs out hle hle' out' hcut r as =>
    rename_i ih
    obtain ⟨hr, hdom⟩ := List.forall_mem_cons.mp hdom
    rw [diffAt_cons hsa hsb hi hb, if_neg hle, if_neg hle',
      bind_of_eq (pushRange_eq (Nat.le_of_lt s.first.toNat_lt) out), if_neg hcut, ha.getElem?_cons]
    exact ih hdom r.first_lt_stop hr ha.lt_size ha.next hb

theorem diff_eq (ha : Valid a) (hb : Valid b) : diff a b = some (Runs.diff a b) := by
  have hsa := size_le ha
  have hsb := size_le hb
  unfold diff Runs.diff diffList
  split
  · rename_i h0
    have hnil : a.toList = [] := by simpa using h0
    rw [hnil]
    rfl
  · rename_i r h0
    have hsplit := Split.zero a
    obtain ⟨as, has⟩ := hsplit.exists_cons_of_getElem? h0
    obtain ⟨hr, hdom⟩ := List.forall_mem_cons.mp (has ▸ ha.1)
    rw [has] at hsplit ⊢
    rw [bind_of_eq (Run.Checked.stop_eq r)]
    exact diffAt_eq (by omega) (by omega) hdom r.first_lt_stop hr hsplit.lt_size hsplit.next
      (.zero b) []

/-- Appends the values of `[start, stop)` that the values of an array from index `i` on lack; also
the index of the first value past that range. -/
def cutValues (vs : Array UInt16) (start stop i : Nat) (out : Array Run) :
    Option (Array Run × Nat) :=
  if h : i < vs.size then
    if stop ≤ vs[i].toNat then (pushRange start stop out).map (·, i)
    else do
      check (i + 1 < 2 ^ 64)
      if vs[i].toNat < start then cutValues vs start stop (i + 1) out
      else do
        let out ← pushRange start vs[i].toNat out
        let start ← to32 (vs[i].toNat + 1)
        cutValues vs start stop (i + 1) out
  else (pushRange start stop out).map (·, i)
termination_by vs.size - i

/-- Appends the values of runs that the values of an array from index `i` on lack. -/
def diffValuesFrom (vs : Array UInt16) : List Run → Nat → Array Run → Option (Array Run)
  | [], _, out => some out
  | r :: rs, i, out => do
    let (out, i) ← cutValues vs r.first.toNat (← Run.Checked.stop r) i out
    diffValuesFrom vs rs i out

def diffValues (runs : Array Run) (values : Array UInt16) : Option (Array Run) :=
  diffValuesFrom values runs.toList 0 #[]

section Cut

variable {vs : Array UInt16} {ws wsBefore : List UInt16}

theorem cutValues_eq {start stop : Nat} (hsize : vs.size < 2 ^ 63) (hstop : stop ≤ 65536)
    (hvs : Split vs i wsBefore ws) (out : List Run) :
    ∃ n wsBefore', cutValues vs start stop i (finish out) =
        some (finish (Runs.cutValues start stop ws out).1, n) ∧
      Split vs n wsBefore' (Runs.cutValues start stop ws out).2 := by
  fun_induction Runs.cutValues start stop ws out generalizing i wsBefore with
  | case1 start out =>
    rw [cutValues, dif_neg hvs.not_lt_size, pushRange_eq hstop]
    exact ⟨i, _, rfl, hvs⟩
  | case2 start v ws out hle =>
    rw [cutValues, dif_pos hvs.lt_size, hvs.getElem_eq, if_pos hle, pushRange_eq hstop]
    exact ⟨i, _, rfl, hvs⟩
  | case3 start v ws out hle hlt ih =>
    have hi := hvs.lt_size
    rw [cutValues, dif_pos hi, hvs.getElem_eq, if_neg hle, bind_of_eq (check_of (by omega)),
      if_pos hlt]
    exact ih hvs.next
  | case4 start v ws out hle hlt ih =>
    have hi := hvs.lt_size
    have hv := v.toNat_lt
    rw [cutValues, dif_pos hi, hvs.getElem_eq, if_neg hle, bind_of_eq (check_of (by omega)),
      if_neg hlt, bind_of_eq (pushRange_eq (by omega) out), bind_of_eq (to32_of_lt (by omega))]
    exact ih hvs.next

theorem diffValuesFrom_eq (hsize : vs.size < 2 ^ 63) (rs : List Run) (hdom : ∀ r ∈ rs, r.InDomain)
    (hvs : Split vs i wsBefore ws) (out : List Run) :
    diffValuesFrom vs rs i (finish out) = some (finish (Runs.diffValuesFrom rs ws out)) := by
  induction rs generalizing i wsBefore ws out with
  | nil => rfl
  | cons r rs ih =>
    obtain ⟨hr, hdom⟩ := List.forall_mem_cons.mp hdom
    obtain ⟨n, before, hcut, hsplit⟩ := cutValues_eq hsize hr hvs out
    rw [diffValuesFrom, bind_of_eq (Run.Checked.stop_eq r), bind_of_eq hcut]
    exact ih hdom hsplit _

theorem diffValues_eq (ha : Valid a) (hvs : Sorted.Increasing vs) :
    diffValues a vs = some (Runs.diffValues a vs) := by
  have hsize := Sorted.size_le hvs
  exact diffValuesFrom_eq (by omega) _ ha.1 (.zero vs) []

end Cut

end Roaring.Runs.Checked
