import Roaring.Proofs.Checked.Runs.Append
import Roaring.Proofs.Runs.Edit

/-!
# Queries of run lists, checked

A value is looked up through the last run that starts at or before it, so its offset in that run is
not negative. Counts and positions add up the sizes of runs, and what is narrowed to a value lies in
a run of the domain.
-/
namespace Roaring.Runs.Checked

open Machine

variable {runs : Array Run} {v : UInt16}

/-! ## Looking up a value -/

/-- The last run that starts at or before `v`, and its index. -/
def candidate (runs : Array Run) (v : UInt16) : Option (Option (Nat × Run)) :=
  match startsUpTo runs v with
  | 0 => some none
  | i + 1 => do some (some (i, ← runs[i]?))

def contains (runs : Array Run) (v : UInt16) : Option Bool := do
  match ← candidate runs v with
  | some (_, r) => do some ((← minus16 v r.first) ≤ r.extra)
  | none => some false

def containsRange (runs : Array Run) (start stop : Nat) : Option Bool :=
  if stop ≤ start then some true
  else if 65536 < stop then some false
  else do
    match ← candidate runs (← to16 start) with
    | some (_, r) => do some ((← minus stop 1) ≤ (← Run.Checked.last r))
    | none => some false

theorem startsUpTo_le (runs : Array Run) (v : UInt16) : startsUpTo runs v ≤ runs.size :=
  countWhile_le _ _

theorem candidate_eq (runs : Array Run) (v : UInt16) :
    candidate runs v = some ((candidate? runs v).map (startsUpTo runs v - 1, ·)) := by
  have hle := startsUpTo_le runs v
  unfold candidate candidate?
  cases hn : startsUpTo runs v with
  | zero => rfl
  | succ i =>
    have hi : runs[i]? = some runs[i] := Array.getElem?_eq_getElem (by omega)
    dsimp only
    rw [bind_of_eq hi, hi]
    rfl

/-- A run found for a value does not start after it. -/
theorem first_le_of_candidate (h : Valid runs) {r : Run} (hr : candidate? runs v = some r) :
    r.first ≤ v := by
  obtain ⟨before, after, hs, hbefore, -⟩ := split_startsUpTo h v
  rw [candidate?_eq hs] at hr
  exact UInt16.le_iff_toNat_le.mpr (hbefore r (List.mem_of_getLast? hr))

theorem contains_eq (h : Valid runs) (v : UInt16) :
    contains runs v = some (Runs.contains runs v) := by
  rw [contains, bind_of_eq (candidate_eq runs v), Runs.contains]
  cases hr : candidate? runs v with
  | none => rfl
  | some r => exact bind_of_eq (minus16_of_le (first_le_of_candidate h hr)) _

theorem containsRange_eq (runs : Array Run) (start stop : Nat) :
    containsRange runs start stop = some (Runs.containsRange runs start stop) := by
  unfold containsRange Runs.containsRange
  split
  · rfl
  · split
    · rfl
    · rw [bind_of_eq (to16_of_lt (by omega)), bind_of_eq (candidate_eq runs _)]
      cases candidate? runs start.toUInt16 with
      | none => rfl
      | some r =>
        simp only [Option.map_some]
        rw [bind_of_eq (minus_of_le (by omega)), bind_of_eq (Run.Checked.last_eq r), Run.stop]
        congr 2
        rw [eq_iff_iff]
        omega

/-! ## Sizes and positions -/

def card (runs : Array Run) : Option Nat :=
  runs.toList.foldlM (fun n r => do to64 (n + (← Run.Checked.card r))) 0

def max? (runs : Array Run) : Option (Option UInt16) :=
  match runs.back? with
  | none => some none
  | some r => do some (some (← to16 (← Run.Checked.last r)))

/-- Adds to `n` the number of values at most `v` in sorted runs. -/
def rankFrom (v : Nat) : List Run → Nat → Option Nat
  | [], n => some n
  | r :: rs, n => do
    if v < r.first.toNat then some n
    else if v ≤ (← Run.Checked.last r) then to64 (n + (← minus v r.first.toNat) + 1)
    else rankFrom v rs (← to64 (n + (← Run.Checked.card r)))

def rank (runs : Array Run) (v : UInt16) : Option Nat := rankFrom v.toNat runs.toList 0

/-- The value at position `n` in sorted runs, of which others before hold `seen` values. -/
def selectFrom (n : Nat) : List Run → Nat → Option (Option UInt16)
  | [], _ => some none
  | r :: rs, seen => do
    let next ← to64 (seen + (← Run.Checked.card r))
    if n < next then do
      let offset ← to16 (← minus n seen)
      some (some (← plus16 r.first offset))
    else selectFrom n rs next

def select (runs : Array Run) (n : Nat) : Option (Option UInt16) := selectFrom n runs.toList 0

/-- Appends the values of `[next, stop)`. -/
def consecutiveInto (next stop : Nat) (out : Array UInt16) : Option (Array UInt16) :=
  if next < stop then do
    let v ← to16 next
    check (next + 1 < 2 ^ 32)
    consecutiveInto (next + 1) stop (out.push v)
  else some out
termination_by stop - next

def values (runs : Array Run) : Option (Array UInt16) :=
  runs.toList.foldlM (fun out r => do
    consecutiveInto r.first.toNat (← Run.Checked.stop r) out) #[]

/-- Whether no run of a list goes on past the domain. -/
def inDomain : List Run → Option Bool
  | [] => some true
  | r :: rs => do
    if (← Run.Checked.last r) ≤ 65535 then inDomain rs else some false

/-- Whether each run of a list is apart from the next one. -/
def separated : List Run → Option Bool
  | a :: b :: rs => do
    if (← Run.Checked.stop a) < b.first.toNat then separated (b :: rs) else some false
  | _ => some true

def isValid (runs : Array Run) : Option Bool := do
  if ← inDomain runs.toList then separated runs.toList else some false

theorem card_le_size (r : Run) : r.card ≤ 65536 := r.extra.toNat_lt

theorem card_eq (h : Valid runs) : card runs = some (Runs.card runs) := by
  have hsize := size_le h
  rw [card, Runs.card, ← Array.foldl_toList]
  refine foldlM_eq_some (fun n rs => n + rs.length * 65536 < 2 ^ 63) ?_ _ _ ?_
  · intro n r rs hn
    have hr := card_le_size r
    rw [List.length_cons] at hn
    rw [bind_of_eq (Run.Checked.card_eq r), to64_of_lt (by omega)]
    exact ⟨rfl, by omega⟩
  · rw [Array.length_toList]
    omega

theorem max?_eq (h : Valid runs) : max? runs = some (Runs.max? runs) := by
  unfold max? Runs.max?
  cases hback : runs.back? with
  | none => rfl
  | some r =>
    have hr : r.last + 1 ≤ 65536 := h.1 r (Array.mem_toList_iff.mpr (Array.mem_of_back? hback))
    dsimp only
    rw [bind_of_eq (Run.Checked.last_eq r), bind_of_eq (to16_of_lt hr)]
    rfl

theorem rankFrom_eq (v : Nat) (rs : List Run) (n : Nat) (hv : v < 65536)
    (hn : n + rs.length * 65536 < 2 ^ 63) : rankFrom v rs n = some (Runs.rankFrom v rs n) := by
  induction rs generalizing n with
  | nil => rfl
  | cons r rs ih =>
    have hr := card_le_size r
    rw [List.length_cons] at hn
    rw [rankFrom, Runs.rankFrom]
    split
    · rfl
    · rw [bind_of_eq (Run.Checked.last_eq r), Run.stop]
      simp only [Nat.lt_succ_iff]
      split
      · rw [bind_of_eq (minus_of_le (by omega)), to64_of_lt (by omega)]
      · rw [bind_of_eq (Run.Checked.card_eq r), bind_of_eq (to64_of_lt (by omega)),
          ih _ (by omega)]

theorem rank_eq (h : Valid runs) (v : UInt16) : rank runs v = some (Runs.rank runs v) := by
  have hsize := size_le h
  exact rankFrom_eq v.toNat _ 0 v.toNat_lt (by rw [Array.length_toList]; omega)

theorem selectFrom_eq (n : Nat) (rs : List Run) (seen : Nat) (hdom : ∀ r ∈ rs, r.InDomain)
    (hle : seen ≤ n) (hseen : seen + rs.length * 65536 < 2 ^ 63) :
    selectFrom n rs seen = some (Runs.selectFrom rs (n - seen)) := by
  induction rs generalizing seen with
  | nil => rfl
  | cons r rs ih =>
    obtain ⟨hr, hdom⟩ := List.forall_mem_cons.mp hdom
    have hcard := card_le_size r
    have hstop : r.first.toNat + r.card ≤ 65536 := r.stop_eq ▸ hr
    rw [List.length_cons] at hseen
    rw [selectFrom, bind_of_eq (Run.Checked.card_eq r), bind_of_eq (to64_of_lt (by omega)),
      Runs.selectFrom]
    split
    · have hoffset : n - seen < 65536 := by omega
      rw [bind_of_eq (minus_of_le hle), bind_of_eq (to16_of_lt hoffset), bind_of_eq
        (plus16_of_lt (by rw [toNat_toUInt16 hoffset]; omega)), if_pos (by omega)]
    · rw [ih _ hdom (by omega) (by omega), if_neg (by omega), Nat.sub_add_eq]

theorem select_eq (h : Valid runs) (n : Nat) : select runs n = some (Runs.select runs n) := by
  have hsize := size_le h
  exact selectFrom_eq n _ 0 h.1 (Nat.zero_le n) (by rw [Array.length_toList]; omega)

theorem consecutiveInto_eq (v n : Nat) (out : Array UInt16) (h : v + n ≤ 65536) :
    consecutiveInto v (v + n) out = some (Runs.consecutiveInto v n out) := by
  induction n generalizing v out with
  | zero => rw [consecutiveInto, if_neg (by omega), Runs.consecutiveInto]
  | succ n ih =>
    rw [consecutiveInto, if_pos (by omega), bind_of_eq (to16_of_lt (by omega)),
      bind_of_eq (check_of (by omega)), Runs.consecutiveInto, ← ih (v + 1) _ (by omega)]
    congr 1
    omega

theorem values_eq (h : Valid runs) : values runs = some (Runs.values runs) := by
  rw [values, Runs.values, ← Array.foldl_toList]
  refine foldlM_eq_some (fun _ rs => ∀ r ∈ rs, r.InDomain) ?_ _ _ h.1
  intro out r rs hdom
  obtain ⟨hr, hdom⟩ := List.forall_mem_cons.mp hdom
  rw [bind_of_eq (Run.Checked.stop_eq r), r.stop_eq]
  exact ⟨consecutiveInto_eq _ _ _ (r.stop_eq ▸ hr), hdom⟩

theorem separated_eq (rs : List Run) : separated rs = some (Runs.separated rs) := by
  induction rs with
  | nil => rfl
  | cons a rs ih =>
    cases rs with
    | nil => rfl
    | cons b rs =>
      rw [separated, bind_of_eq (Run.Checked.stop_eq a), ih, Runs.separated]
      split
      · rw [decide_eq_true ‹_›, Bool.true_and]
      · rw [decide_eq_false ‹_›, Bool.false_and]

theorem inDomain_eq (rs : List Run) :
    inDomain rs = some (rs.all fun r => decide r.InDomain) := by
  induction rs with
  | nil => rfl
  | cons r rs ih =>
    have hiff : r.last ≤ 65535 ↔ r.InDomain := Nat.lt_succ_iff.symm
    rw [inDomain, bind_of_eq (Run.Checked.last_eq r), ih, List.all_cons]
    simp only [hiff]
    split
    · rw [decide_eq_true ‹_›, Bool.true_and]
    · rw [decide_eq_false ‹_›, Bool.false_and]

/-- The check of a run array can be made on any array. -/
theorem isValid_eq (runs : Array Run) : isValid runs = some (Runs.isValid runs) := by
  rw [isValid, bind_of_eq (inDomain_eq _), separated_eq, Runs.isValid, Runs.inDomain,
    ← Array.all_toList]
  cases runs.toList.all fun r => decide r.InDomain <;> rfl

end Roaring.Runs.Checked
