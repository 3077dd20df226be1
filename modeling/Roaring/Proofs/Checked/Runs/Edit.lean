import Roaring.Proofs.Checked.Runs.Query

/-!
# Edits of run lists, checked

An inserted value makes a run longer, closes a gap or becomes a run; an erased one makes a run
shorter or splits it. The new bounds are those of runs that lie in the domain, and a run is made
longer only where a value outside it is there to be added.
-/
namespace Roaring.Runs.Checked

open Machine

variable {runs : Array Run} {v : UInt16}

/-- The run of the values in `[start, stop)`; those past the domain are left out. -/
def ofRange (start stop : Nat) : Option (Array Run) :=
  if start < min stop 65536 then (Run.Checked.ofBounds start (min stop 65536)).map (#[·])
  else some #[]

/-- The run at an index, if it starts right after `v`. -/
def after? (runs : Array Run) (i : Nat) (v : UInt16) : Option (Option Run) := do
  let start ← to32 (v.toNat + 1)
  some (runs[i]?.filter (·.first.toNat = start))

/-- Adds a value next to no run before it, at index `i`. -/
def insertApart (runs : Array Run) (i : Nat) (v : UInt16) : Option (Array Run) := do
  match ← after? runs i v with
  | some next => do store runs i ⟨v, ← plus16 next.extra 1⟩
  | none => insertAt runs i (.single v)

/-- Adds a value; also whether it was absent. -/
def insert (runs : Array Run) (v : UInt16) : Option (Bool × Array Run) := do
  match ← candidate runs v with
  | none => do some (true, ← insertApart runs 0 v)
  | some (i, r) => do
    let offset ← minus16 v r.first
    if offset ≤ r.extra then some (false, runs)
    else do
      let j ← to64 (i + 1)
      if offset.toNat = (← to32 (r.extra.toNat + 1)) then
        match ← after? runs j v with
        | some next => do
          let rest ← removeAt runs j
          let extra ← to16 (← minus (← Run.Checked.last next) r.first.toNat)
          some (true, ← store rest i { r with extra := extra })
        | none => do
          let extra ← plus16 r.extra 1
          some (true, ← store runs i { r with extra := extra })
      else do some (true, ← insertApart runs j v)

/-- Removes a value; also whether it was there. -/
def erase (runs : Array Run) (v : UInt16) : Option (Bool × Array Run) := do
  match ← candidate runs v with
  | none => some (false, runs)
  | some (i, r) => do
    let offset ← minus16 v r.first
    if r.extra < offset then some (false, runs)
    else if offset = 0 then
      if r.extra = 0 then do some (true, ← removeAt runs i)
      else do
        let first ← plus16 r.first 1
        let extra ← minus16 r.extra 1
        some (true, ← store runs i ⟨first, extra⟩)
    else if offset = r.extra then do
      let extra ← minus16 r.extra 1
      some (true, ← store runs i { r with extra := extra })
    else do
      let before ← minus16 offset 1
      let cut ← store runs i { r with extra := before }
      let j ← to64 (i + 1)
      let first ← plus16 v 1
      let extra ← minus16 (← minus16 r.extra offset) 1
      some (true, ← insertAt cut j ⟨first, extra⟩)

theorem ofRange_eq (start stop : Nat) : ofRange start stop = some (Runs.ofRange start stop) := by
  unfold ofRange Runs.ofRange
  split
  · rw [Run.Checked.ofBounds_eq ‹_› (Nat.min_le_right _ _)]
    rfl
  · rfl

theorem after?_eq (runs : Array Run) (i : Nat) (v : UInt16) :
    after? runs i v = some (runs[i]?.filter (·.first.toNat = v.toNat + 1)) := by
  have hv := v.toNat_lt
  exact bind_of_eq (to32_of_lt (by omega)) _

/-- What is known of a run that starts right after a value. -/
theorem of_after {i : Nat} {next : Run} (h : Valid runs)
    (hafter : runs[i]?.filter (·.first.toNat = v.toNat + 1) = some next) :
    i < runs.size ∧ next.InDomain ∧ next.first.toNat = v.toNat + 1 := by
  obtain ⟨hnext, hn⟩ := Option.filter_eq_some_iff.mp hafter
  obtain ⟨hlt, hget⟩ := Array.getElem?_eq_some_iff.mp hnext
  exact ⟨hlt, h.1 next (Array.mem_toList_iff.mpr (hget ▸ Array.getElem_mem hlt)),
    of_decide_eq_true hn⟩

/-- A run that starts right after a value can be made to start there. -/
theorem extra_lt_of_after {next : Run} (hdom : next.InDomain)
    (hn : next.first.toNat = v.toNat + 1) : next.extra.toNat + (1 : UInt16).toNat < 65536 := by
  have hone : (1 : UInt16).toNat = 1 := rfl
  have hdom : next.stop ≤ 65536 := hdom
  unfold Run.stop Run.last at hdom
  omega

theorem insertApart_eq {i : Nat} (h : Valid runs) (hi : i ≤ runs.size) (v : UInt16) :
    insertApart runs i v =
      some (match runs[i]?.filter (·.first.toNat = v.toNat + 1) with
        | some next => runs.setIfInBounds i ⟨v, next.extra + 1⟩
        | none => runs.insertIdxIfInBounds i (.single v)) := by
  rw [insertApart, bind_of_eq (after?_eq runs i v)]
  cases hafter : runs[i]?.filter (·.first.toNat = v.toNat + 1) with
  | none => exact insertAt_of_le hi _
  | some next =>
    obtain ⟨hlt, hdom, hn⟩ := of_after h hafter
    have hextra := extra_lt_of_after hdom hn
    exact (bind_of_eq (plus16_of_lt hextra) _).trans (store_of_lt hlt _)

/-- The last run that starts at or before a value, and what is known of its place. -/
structure Found (runs : Array Run) (v : UInt16) (r : Run) : Prop where
  lt : startsUpTo runs v - 1 < runs.size
  succ : startsUpTo runs v - 1 + 1 = startsUpTo runs v
  le : r.first ≤ v
  inDomain : r.InDomain
  offset : (v - r.first).toNat = v.toNat - r.first.toNat

theorem found (h : Valid runs) {r : Run} (hr : candidate? runs v = some r) : Found runs v r := by
  obtain ⟨before, after, hs, hbefore, -⟩ := split_startsUpTo h v
  rw [candidate?_eq hs] at hr
  obtain ⟨init, rfl⟩ := List.getLast?_eq_some_iff.mp hr
  have hle := UInt16.le_iff_toNat_le.mpr (hbefore r (by simp))
  have hlen := hs.length
  rw [List.length_append, List.length_singleton] at hlen
  exact ⟨hs.prev.lt_size, by omega, hle, h.1 r (hs.eq ▸ by simp), UInt16.toNat_sub_of_le _ _ hle⟩

/-- A value without a candidate comes before every run. -/
theorem startsUpTo_eq_zero (hr : candidate? runs v = none) : startsUpTo runs v = 0 := by
  have hplace := startsUpTo_le runs v
  unfold candidate? at hr
  split at hr
  · assumption
  · rename_i n hn
    rw [Array.getElem?_eq_none_iff] at hr
    omega

theorem insert_eq (h : Valid runs) (v : UInt16) :
    insert runs v = some (Runs.insert runs v) := by
  have hplace := startsUpTo_le runs v
  rw [insert, bind_of_eq (candidate_eq runs v), Runs.insert]
  cases hr : candidate? runs v with
  | none =>
    rw [startsUpTo_eq_zero hr, Option.map_none]
    dsimp only
    rw [bind_of_eq (insertApart_eq h (Nat.zero_le _) v)]
    cases runs[0]?.filter (·.first.toNat = v.toNat + 1) <;> rfl
  | some r =>
    obtain ⟨hlt, hsucc, hle, hdom, hoffset⟩ := found h hr
    have hsize := size_le h
    have hr := r.extra.toNat_lt
    have hv := v.toNat_lt
    have hle' := UInt16.le_iff_toNat_le.mp hle
    have hstop : r.stop = r.first.toNat + r.extra.toNat + 1 := rfl
    have hin : v - r.first ≤ r.extra ↔ v.toNat < r.stop := by
      rw [UInt16.le_iff_toNat_le, hoffset]
      omega
    have hend : (v - r.first).toNat = r.extra.toNat + 1 ↔ v.toNat = r.stop := by
      omega
    rw [Option.map_some]
    dsimp only
    rw [bind_of_eq (minus16_of_le hle)]
    simp only [hin]
    split
    · rfl
    · rw [bind_of_eq (to64_of_lt (by omega)), bind_of_eq (to32_of_lt (by omega)), hsucc]
      simp only [hend]
      split
      · rw [bind_of_eq (after?_eq runs _ v)]
        cases hafter : runs[startsUpTo runs v]?.filter (·.first.toNat = v.toNat + 1) with
        | none =>
          have hgrow : r.extra.toNat + (1 : UInt16).toNat < 65536 := by
            show r.extra.toNat + 1 < 65536
            omega
          exact (bind_of_eq (plus16_of_lt hgrow) _).trans (bind_of_eq (store_of_lt hlt _) _)
        | some next =>
          obtain ⟨hlt', hinDomain, hn⟩ := of_after h hafter
          have hdom' : next.last + 1 ≤ 65536 := hinDomain
          have hnext' : next.first.toNat ≤ next.last := Nat.le_add_right _ _
          have hsize' :
              startsUpTo runs v - 1 < (runs.eraseIdxIfInBounds (startsUpTo runs v)).size := by
            rw [Array.eraseIdxIfInBounds, dif_pos hlt', Array.size_eraseIdx]
            omega
          dsimp only
          rw [bind_of_eq (removeAt_of_lt hlt'), bind_of_eq (Run.Checked.last_eq next),
            bind_of_eq (minus_of_le (by omega)), bind_of_eq (to16_of_lt (by omega)),
            bind_of_eq (store_of_lt hsize' _)]
      · rw [bind_of_eq (insertApart_eq h hplace v)]
        cases runs[startsUpTo runs v]?.filter (·.first.toNat = v.toNat + 1) <;> rfl

theorem one_le {w : UInt16} (h : w ≠ 0) : 1 ≤ w :=
  UInt16.le_iff_toNat_le.mpr (Nat.pos_of_ne_zero fun e => h (UInt16.toNat_inj.mp e))

theorem erase_eq (h : Valid runs) (v : UInt16) :
    erase runs v = some (Runs.erase runs v) := by
  rw [erase, bind_of_eq (candidate_eq runs v), Runs.erase]
  cases hr : candidate? runs v with
  | none => rfl
  | some r =>
    obtain ⟨hlt, hsucc, hle, hdom, hoffset⟩ := found h hr
    have hsize := size_le h
    have hone : (1 : UInt16).toNat = 1 := rfl
    have hstop : r.first.toNat + r.extra.toNat + 1 ≤ 65536 := hdom
    rw [Option.map_some]
    dsimp only
    rw [bind_of_eq (minus16_of_le hle)]
    split
    · rfl
    · rename_i hin
      have hin' := UInt16.le_iff_toNat_le.mp (UInt16.not_lt.mp hin)
      split
      · split
        · rw [bind_of_eq (removeAt_of_lt hlt)]
        · rename_i hx
          have hx' := UInt16.le_iff_toNat_le.mp (one_le hx)
          rw [bind_of_eq (plus16_of_lt (by omega)), bind_of_eq (minus16_of_le (one_le hx)),
            bind_of_eq (store_of_lt hlt _)]
      · rename_i hx
        split
        · rename_i heq
          rw [bind_of_eq (minus16_of_le (heq ▸ one_le hx)),
            bind_of_eq (store_of_lt hlt _)]
        · rename_i hne
          have hne' : (v - r.first).toNat ≠ r.extra.toNat := fun e => hne (UInt16.toNat_inj.mp e)
          have hrest : (r.extra - (v - r.first)).toNat = r.extra.toNat - (v - r.first).toNat :=
            UInt16.toNat_sub_of_le _ _ (UInt16.not_lt.mp hin)
          have hle' := UInt16.le_iff_toNat_le.mp hle
          rw [bind_of_eq (minus16_of_le (one_le hx)),
            bind_of_eq (store_of_lt hlt _), bind_of_eq (to64_of_lt (by omega)),
            bind_of_eq (plus16_of_lt (by omega)),
            bind_of_eq (minus16_of_le (UInt16.not_lt.mp hin)),
            bind_of_eq (minus16_of_le (UInt16.le_iff_toNat_le.mpr (by omega))), hsucc,
            bind_of_eq (insertAt_of_le (by rw [Array.size_setIfInBounds]; omega) _)]

end Roaring.Runs.Checked
