import Roaring.Proofs.Runs.Append
import Roaring.Proofs.Split

/-!
# Runs with a value inserted or erased

The search for a value splits a run list after the last run that starts at or before it. Inserting
or erasing the value changes the runs at that place only, and each way to do so is a valid list with
one run in the middle exchanged.
-/
namespace Roaring.Runs

theorem validList_append {before after : List Run} :
    ValidList (before ++ after) ↔
      ValidList before ∧ ValidList after ∧ ∀ r ∈ before, ∀ s ∈ after, r.stop < s.first.toNat := by
  simp only [ValidList, List.mem_append, or_imp, forall_and, List.pairwise_append, Apart]
  constructor
  · rintro ⟨⟨h1, h2⟩, h3, h4, h5⟩
    exact ⟨⟨h1, h3⟩, ⟨h2, h4⟩, h5⟩
  · rintro ⟨⟨h1, h3⟩, ⟨h2, h4⟩, h5⟩
    exact ⟨⟨h1, h2⟩, h3, h4, h5⟩

theorem validList_cons {r : Run} {runs : List Run} :
    ValidList (r :: runs) ↔
      r.InDomain ∧ (∀ s ∈ runs, r.stop < s.first.toNat) ∧ ValidList runs := by
  simp only [ValidList, List.forall_mem_cons, List.pairwise_cons, Apart]
  constructor
  · rintro ⟨⟨h1, h2⟩, h3, h4⟩
    exact ⟨h1, h3, h2, h4⟩
  · rintro ⟨h1, h3, h2, h4⟩
    exact ⟨⟨h1, h2⟩, h3, h4⟩

/-- A list with a run in the middle is valid when it is without that run, and the run fits in. -/
theorem validList_middle {before after : List Run} {r : Run} :
    ValidList (before ++ r :: after) ↔
      r.InDomain ∧ (∀ s ∈ before, s.stop < r.first.toNat) ∧
        (∀ s ∈ after, r.stop < s.first.toNat) ∧ ValidList (before ++ after) := by
  rw [validList_append, validList_append, validList_cons]
  constructor
  · rintro ⟨hb, ⟨hdom, hr, ha⟩, hcross⟩
    exact ⟨hdom, fun s hs => hcross s hs r List.mem_cons_self, hr, hb, ha,
      fun s hs u hu => hcross s hs u (List.mem_cons_of_mem _ hu)⟩
  · rintro ⟨hdom, hbr, hr, hb, ha, hcross⟩
    refine ⟨hb, ⟨hdom, hr, ha⟩, fun s hs u hu => ?_⟩
    rcases List.mem_cons.mp hu with rfl | hu
    · exact hbr s hs
    · exact hcross s hs u hu

theorem covers_middle (before after : List Run) (r : Run) (n : Nat) :
    covers (before ++ r :: after) n =
      (covers (before ++ after) n || decide (r.first.toNat ≤ n ∧ n < r.stop)) := by
  rw [covers_append, covers_cons, covers_append, ← Bool.or_assoc, Bool.or_right_comm]

/-- Around a run of a valid list, the others leave its values and those next to it uncovered. -/
theorem covers_around {before after : List Run} {r : Run} (h : ValidList (before ++ r :: after))
    {n : Nat} (hn : r.first.toNat ≤ n) (hn' : n ≤ r.stop) : covers (before ++ after) n = false := by
  obtain ⟨-, hbefore, hafter, -⟩ := validList_middle.mp h
  rw [covers_append, Bool.or_eq_false_iff]
  exact ⟨covers_eq_false_of_ge fun s hs => Nat.le_trans (Nat.le_of_lt (hbefore s hs)) hn,
    covers_eq_false_of_lt fun s hs => Nat.lt_of_le_of_lt hn' (hafter s hs)⟩

/-! ## The place of a value -/

section Place

variable {runs : Array Run} {v : UInt16}

theorem split_startsUpTo (h : Valid runs) (v : UInt16) :
    ∃ before after, Split runs (startsUpTo runs v) before after ∧
      (∀ r ∈ before, r.first.toNat ≤ v.toNat) ∧ ∀ r ∈ after, v.toNat < r.first.toNat := by
  have hpass : PassFirst (fun r : Run => decide (r.first ≤ v)) runs 0 :=
    passFirst_of_pairwise (h.2.sublist (List.drop_sublist 0 _)) fun x y hxy hy => by
      simp only [decide_eq_true_eq, UInt16.le_iff_toNat_le] at *
      have := x.first_lt_stop
      unfold Apart at hxy
      omega
  obtain ⟨before, after, hs, hbefore, hafter⟩ := split_countWhile hpass
  refine ⟨before, after, hs, fun r hr => ?_, fun r hr => ?_⟩
  · exact UInt16.le_iff_toNat_le.mp (of_decide_eq_true (hbefore r hr))
  · have := of_decide_eq_false (hafter r hr)
    rw [UInt16.le_iff_toNat_le] at this
    omega

/-- The candidate for a value is the last run that starts at or before it. -/
theorem candidate?_eq {before after : List Run}
    (hs : Split runs (startsUpTo runs v) before after) :
    candidate? runs v = before.getLast? := by
  have hlen := hs.length
  unfold candidate?
  split
  · rename_i h0
    rw [h0] at hlen
    rw [List.eq_nil_of_length_eq_zero hlen]
    rfl
  · rename_i n hn
    rw [← Array.getElem?_toList, hs.eq, List.getLast?_eq_getElem?, hlen, hn,
      List.getElem?_append_left (by omega)]
    rfl

/-- Past the end of the last run that starts at or before it, a value is not there. -/
theorem not_covers_past {before after : List Run} {r : Run}
    (h : ValidList (before ++ r :: after)) (hr : r.first.toNat ≤ v.toNat)
    (hv : r.stop ≤ v.toNat) (hafter : ∀ s ∈ after, v.toNat < s.first.toNat) :
    covers (before ++ r :: after) v.toNat = false := by
  obtain ⟨-, hbefore, -, -⟩ := validList_middle.mp h
  rw [covers_middle, covers_append, Bool.or_eq_false_iff, Bool.or_eq_false_iff,
    decide_eq_false_iff_not]
  refine ⟨⟨covers_eq_false_of_ge fun s hs => ?_, covers_eq_false_of_lt hafter⟩, by omega⟩
  have := hbefore s hs
  omega

end Place

/-! ## Insertion -/

/-- The second list is valid and covers what the first does, and `v`. -/
def Adds (v : Nat) (old new : List Run) : Prop :=
  ValidList new ∧ ∀ n, covers new n = (covers old n || decide (n = v))

section Insert

variable {before after : List Run} {v : UInt16} {r : Run}

/-- A run takes the place of others when it holds what they do, and one value more. -/
theorem adds_within (inner : List Run) (h : ValidList (before ++ r :: after))
    (hcov : ∀ n, (r.first.toNat ≤ n ∧ n < r.stop) ↔ covers inner n ∨ n = v.toNat) :
    Adds v.toNat (before ++ (inner ++ after)) (before ++ r :: after) := by
  refine ⟨h, fun n => ?_⟩
  have hr : decide (r.first.toNat ≤ n ∧ n < r.stop) =
      (covers inner n || decide (n = v.toNat)) := by
    rw [Bool.eq_iff_iff, decide_eq_true_iff, hcov, Bool.or_eq_true, decide_eq_true_iff]
  rw [covers_middle, hr, covers_append, covers_append, covers_append]
  ac_rfl

/-- What follows a value is past the next one, or starts with a run that begins there. -/
theorem next_touches (h : ValidList after) (hafter : ∀ s ∈ after, v.toNat < s.first.toNat) :
    (after.head?.filter (·.first.toNat = v.toNat + 1) = none ∧
        ∀ s ∈ after, v.toNat + 1 < s.first.toNat) ∨
      ∃ next rest, after = next :: rest ∧ next.first.toNat = v.toNat + 1 ∧
        after.head?.filter (·.first.toNat = v.toNat + 1) = some next := by
  cases after with
  | nil => exact .inl ⟨rfl, by simp⟩
  | cons next rest =>
    obtain ⟨-, hlt, -⟩ := validList_cons.mp h
    by_cases hn : next.first.toNat = v.toNat + 1
    · exact .inr ⟨next, rest, rfl, hn, by simp [hn]⟩
    · refine .inl ⟨by simp [hn], fun s hs => ?_⟩
      have hnext := hafter next List.mem_cons_self
      rcases List.mem_cons.mp hs with rfl | hs
      · omega
      · have := hlt s hs
        have := next.first_lt_stop
        omega

theorem stop_extended {next : Run} (hdom : next.InDomain) (hn : next.first.toNat = v.toNat + 1) :
    (⟨v, next.extra + 1⟩ : Run).stop = next.stop := by
  have hdom : next.stop ≤ 65536 := hdom
  have hstop : (⟨v, next.extra⟩ : Run).stop + 1 = next.stop := by
    simp only [Run.stop, Run.last, hn]
    omega
  rw [← hstop]
  exact Run.stop_withOneMore (r := ⟨v, next.extra⟩) (by omega)

/-- A value between two runs joins the later one when it touches that. -/
theorem adds_extended {next : Run} (h : ValidList (before ++ next :: after))
    (hbefore : ∀ s ∈ before, s.stop < v.toNat) (hn : next.first.toNat = v.toNat + 1) :
    Adds v.toNat (before ++ next :: after) (before ++ ⟨v, next.extra + 1⟩ :: after) := by
  obtain ⟨hdom, -, hafter, hrest⟩ := validList_middle.mp h
  have hstop := stop_extended hdom hn
  have hlt := next.first_lt_stop
  refine adds_within [next] (validList_middle.mpr
    ⟨Nat.le_trans (Nat.le_of_eq hstop) hdom, hbefore, hstop ▸ hafter, hrest⟩) fun n => ?_
  simp [hstop]
  omega

/-- A value that touches no run becomes a run of its own. -/
theorem adds_single (h : ValidList (before ++ after)) (hbefore : ∀ s ∈ before, s.stop < v.toNat)
    (hafter : ∀ s ∈ after, v.toNat + 1 < s.first.toNat) :
    Adds v.toNat (before ++ after) (before ++ .single v :: after) := by
  refine adds_within [] (validList_middle.mpr ⟨Run.inDomain_single v, hbefore, hafter, h⟩)
    fun n => ?_
  simp
  omega

/-- A value next to the end of a run makes it longer. -/
theorem adds_grown (h : ValidList (before ++ r :: after)) (hv : r.stop = v.toNat)
    (hafter : ∀ s ∈ after, v.toNat + 1 < s.first.toNat) :
    Adds v.toNat (before ++ r :: after) (before ++ { r with extra := r.extra + 1 } :: after) := by
  obtain ⟨-, hbefore, -, hrest⟩ := validList_middle.mp h
  have hstop : ({ r with extra := r.extra + 1 } : Run).stop = v.toNat + 1 :=
    hv ▸ Run.stop_withOneMore (hv ▸ v.toNat_lt)
  have hlt := r.first_lt_stop
  refine adds_within [r] (validList_middle.mpr
    ⟨Nat.le_trans (Nat.le_of_eq hstop) v.toNat_lt, hbefore, hstop ▸ hafter, hrest⟩) fun n => ?_
  simp [hstop]
  omega

/-- A value that fills the gap between two runs makes them one. -/
theorem adds_joined {next : Run} (h : ValidList (before ++ r :: next :: after))
    (hv : r.stop = v.toNat) (hn : next.first.toNat = v.toNat + 1) :
    Adds v.toNat (before ++ r :: next :: after)
      (before ++ { r with extra := (next.last - r.first.toNat).toUInt16 } :: after) := by
  obtain ⟨-, hbefore, -, hrest⟩ := validList_middle.mp h
  obtain ⟨hdom, -, hafter, hrest⟩ := validList_middle.mp hrest
  have hdom' : next.stop ≤ 65536 := hdom
  have hr := r.first_lt_stop
  have hnext := next.first_lt_stop
  have hlast : next.stop = next.last + 1 := rfl
  have hstop : ({ r with extra := (next.last - r.first.toNat).toUInt16 } : Run).stop =
      next.stop := by
    rw [Run.stop_withExtra _ (by omega)]
    omega
  refine adds_within [r, next] (validList_middle.mpr
    ⟨Nat.le_trans (Nat.le_of_eq hstop) hdom, hbefore, hstop ▸ hafter, hrest⟩) fun n => ?_
  simp [hstop]
  omega

/-- A value that is there adds nothing. -/
theorem adds_nothing {runs : List Run} (h : ValidList runs) (hv : covers runs v.toNat) :
    Adds v.toNat runs runs := by
  refine ⟨h, fun n => ?_⟩
  by_cases hn : n = v.toNat
  · rw [hn, hv, Bool.true_or]
  · rw [decide_eq_false hn, Bool.or_false]

theorem insert_spec {runs : Array Run} (h : Valid runs) (v : UInt16) :
    Adds v.toNat runs.toList (insert runs v).2.toList ∧
      (insert runs v).1 = !covers runs.toList v.toNat := by
  obtain ⟨before, after, hs, hbefore, hafter⟩ := split_startsUpTo h v
  have hvalid : ValidList (before ++ after) := hs.eq ▸ h
  obtain ⟨-, hvafter, -⟩ := validList_append.mp hvalid
  have htouch := next_touches hvafter hafter
  simp only [insert, candidate?_eq hs, hs.getElem?_eq]
  rcases List.eq_nil_or_concat' before with rfl | ⟨init, r, rfl⟩
  -- no run starts at or before the value
  · have hnew : covers ([] ++ after) v.toNat = false := covers_eq_false_of_lt hafter
    rcases htouch with ⟨hnone, hfar⟩ | ⟨next, rest, rfl, hn, hsome⟩
    · simp only [List.getLast?_nil, hnone, hs.toList_insert]
      rw [hs.eq, hnew]
      exact ⟨adds_single hvalid (by simp) hfar, rfl⟩
    · simp only [List.getLast?_nil, hsome, hs.toList_set]
      rw [hs.eq, hnew]
      exact ⟨adds_extended hvalid (by simp) hn, rfl⟩
  · rw [List.getLast?_concat]
    have hr := hbefore r (by simp)
    have hmid : ValidList (init ++ r :: after) := hs.prev.eq ▸ h
    have hpast : r.stop ≤ v.toNat → covers runs.toList v.toNat = false := fun hle =>
      hs.prev.eq ▸ not_covers_past hmid hr hle hafter
    dsimp only
    split_ifs with hin hend
    -- the last run that starts at or before the value holds it
    · have hold : covers runs.toList v.toNat :=
        covers_iff.mpr ⟨r, by rw [hs.prev.eq]; simp, hr, hin⟩
      rw [hold]
      exact ⟨adds_nothing h hold, rfl⟩
    -- that run ends where the value begins
    · rw [hpast (Nat.le_of_eq hend.symm)]
      rcases htouch with ⟨hnone, hfar⟩ | ⟨next, rest, rfl, hn, hsome⟩
      · simp only [hnone, hs.prev.toList_set]
        rw [hs.prev.eq]
        exact ⟨adds_grown hmid hend.symm hfar, rfl⟩
      · have herase : Split (runs.eraseIdxIfInBounds (startsUpTo runs v))
            (startsUpTo runs v) (init ++ [r]) rest := ⟨hs.toList_erase, hs.length⟩
        simp only [hsome, herase.prev.toList_set]
        rw [hs.prev.eq]
        exact ⟨adds_joined hmid hend.symm hn, rfl⟩
    -- an absent value lies between that run and the value
    · have hover : ∀ s ∈ init ++ [r], s.stop < v.toNat := by
        obtain ⟨-, hinit, -, -⟩ := validList_middle.mp hmid
        intro s hs
        rcases List.mem_append.mp hs with hs | hs
        · have := hinit s hs
          omega
        · rw [List.mem_singleton.mp hs]
          omega
      rw [hpast (by omega)]
      rcases htouch with ⟨hnone, hfar⟩ | ⟨next, rest, rfl, hn, hsome⟩
      · simp only [hnone, hs.toList_insert]
        rw [hs.eq]
        exact ⟨adds_single hvalid hover hfar, rfl⟩
      · simp only [hsome, hs.toList_set]
        rw [hs.eq]
        exact ⟨adds_extended hvalid hover hn, rfl⟩

end Insert

/-! ## Erasure -/

/-- The second list is valid and covers what the first does, but not `v`. -/
def Drops (v : Nat) (old new : List Run) : Prop :=
  ValidList new ∧ ∀ n, covers new n = (covers old n && !decide (n = v))

section Erase

variable {before after : List Run} {v : UInt16} {r : Run}

/-- A run that holds a value gives way to runs of its other values. -/
theorem drops_within {inner : List Run} (h : ValidList (before ++ r :: after))
    (hinner : ValidList inner)
    (hwithin : ∀ s ∈ inner, r.first.toNat ≤ s.first.toNat ∧ s.stop ≤ r.stop)
    (hv : r.first.toNat ≤ v.toNat ∧ v.toNat < r.stop)
    (hcov : ∀ n, covers inner n ↔ (r.first.toNat ≤ n ∧ n < r.stop) ∧ n ≠ v.toNat) :
    Drops v.toNat (before ++ r :: after) (before ++ (inner ++ after)) := by
  obtain ⟨-, hbefore, hafter, hrest⟩ := validList_middle.mp h
  obtain ⟨hvb, hva, hcross⟩ := validList_append.mp hrest
  refine ⟨?_, fun n => ?_⟩
  · refine validList_append.mpr ⟨hvb, validList_append.mpr ⟨hinner, hva, ?_⟩, fun s hs u hu => ?_⟩
    · intro s hs u hu
      exact Nat.lt_of_le_of_lt (hwithin s hs).2 (hafter u hu)
    · rcases List.mem_append.mp hu with hu | hu
      · exact Nat.lt_of_lt_of_le (hbefore s hs) (hwithin u hu).1
      · exact hcross s hs u hu
  · by_cases hn : n = v.toNat
    · have hrest : covers (before ++ after) n = false :=
        covers_around h (hn ▸ hv.1) (Nat.le_of_lt (hn ▸ hv.2))
      rw [covers_append, Bool.or_eq_false_iff] at hrest
      have hinner : covers inner n = false :=
        Bool.eq_false_iff.mpr fun hc => ((hcov n).mp hc).2 hn
      rw [covers_append, covers_append, hrest.1, hrest.2, hinner]
      simp [hn]
    · have hinner : covers inner n = decide (r.first.toNat ≤ n ∧ n < r.stop) := by
        rw [Bool.eq_iff_iff, hcov, decide_eq_true_iff, and_iff_left hn]
      rw [covers_middle, covers_append, covers_append, hinner, covers_append, decide_eq_false hn,
        Bool.not_false, Bool.and_true, Bool.or_assoc, Bool.or_comm (covers after n)]

/-- A value that is not there takes nothing away. -/
theorem drops_nothing {runs : List Run} (h : ValidList runs) (hv : covers runs v.toNat = false) :
    Drops v.toNat runs runs := by
  refine ⟨h, fun n => ?_⟩
  by_cases hn : n = v.toNat
  · rw [hn, hv, Bool.false_and]
  · rw [decide_eq_false hn, Bool.not_false, Bool.and_true]

theorem validList_singleton (hr : r.InDomain) : ValidList [r] :=
  validList_cons.mpr ⟨hr, by simp, validList_nil⟩

theorem toNat_sub_one {w : UInt16} (h : w ≠ 0) : (w - 1).toNat = w.toNat - 1 := by
  have hpos : 1 ≤ w.toNat := Nat.pos_of_ne_zero fun e => h (UInt16.toNat_inj.mp e)
  exact UInt16.toNat_sub_of_le w 1 (UInt16.le_iff_toNat_le.mpr hpos)

theorem toNat_add_one {w : UInt16} {n : Nat} (h : w.toNat < n) (hn : n < 65536) :
    (w + 1).toNat = w.toNat + 1 := by
  have hone : (1 : UInt16).toNat = 1 := rfl
  rw [UInt16.toNat_add, hone]
  omega

/-- The only value of a run takes the run with it. -/
theorem drops_only (h : ValidList (before ++ r :: after)) (hv : v.toNat = r.first.toNat)
    (hx : r.extra.toNat = 0) : Drops v.toNat (before ++ r :: after) (before ++ after) := by
  have hstop : r.stop = r.first.toNat + r.extra.toNat + 1 := rfl
  refine drops_within h validList_nil (by simp) ⟨by omega, by omega⟩ fun n => ?_
  simp only [covers_nil, Bool.false_eq_true, false_iff]
  omega

/-- Without its first value a longer run starts one later. -/
theorem drops_first (h : ValidList (before ++ r :: after)) (hv : v.toNat = r.first.toNat)
    (hx : r.extra ≠ 0) :
    Drops v.toNat (before ++ r :: after) (before ++ ⟨r.first + 1, r.extra - 1⟩ :: after) := by
  have hdom : r.stop ≤ 65536 := (validList_middle.mp h).1
  have hstop : r.stop = r.first.toNat + r.extra.toNat + 1 := rfl
  have hpos : 0 < r.extra.toNat := Nat.pos_of_ne_zero fun e => hx (UInt16.toNat_inj.mp e)
  have hextra := toNat_sub_one hx
  have hfirst : (r.first + 1).toNat = r.first.toNat + 1 :=
    toNat_add_one (Nat.lt_add_of_pos_right hpos) (by omega)
  have hnew : (⟨r.first + 1, r.extra - 1⟩ : Run).stop = r.stop := by
    simp only [Run.stop, Run.last, hfirst, hextra]
    omega
  refine drops_within h (validList_singleton (Nat.le_trans (Nat.le_of_eq hnew) hdom)) ?_
    ⟨by omega, by omega⟩ fun n => ?_
  · simp [hnew, hfirst]
  · simp [hnew, hfirst]
    omega

/-- Without its last value a longer run ends one earlier. -/
theorem drops_last (h : ValidList (before ++ r :: after))
    (hv : v.toNat = r.first.toNat + r.extra.toNat) (hx : r.extra ≠ 0) :
    Drops v.toNat (before ++ r :: after) (before ++ { r with extra := r.extra - 1 } :: after) := by
  have hdom : r.stop ≤ 65536 := (validList_middle.mp h).1
  have hstop : r.stop = r.first.toNat + r.extra.toNat + 1 := rfl
  have hpos : 0 < r.extra.toNat := Nat.pos_of_ne_zero fun e => hx (UInt16.toNat_inj.mp e)
  have hnew : ({ r with extra := r.extra - 1 } : Run).stop = v.toNat := by
    simp only [Run.stop, Run.last, toNat_sub_one hx]
    omega
  refine drops_within h (validList_singleton ?_) ?_ ⟨by omega, by omega⟩ fun n => ?_
  · unfold Run.InDomain
    omega
  · simp [hnew]
    omega
  · simp [hnew]
    omega

/-- Without a value in its midst a run falls in two. -/
theorem drops_inner {offset : UInt16} (h : ValidList (before ++ r :: after))
    (hv : v.toNat = r.first.toNat + offset.toNat) (hzero : offset ≠ 0)
    (hlt : offset.toNat < r.extra.toNat) :
    Drops v.toNat (before ++ r :: after)
      (before ++ ([{ r with extra := offset - 1 }, ⟨v + 1, r.extra - offset - 1⟩] ++ after)) := by
  have hdom : r.stop ≤ 65536 := (validList_middle.mp h).1
  have hstop : r.stop = r.first.toNat + r.extra.toNat + 1 := rfl
  have hpos : 0 < offset.toNat := Nat.pos_of_ne_zero fun e => hzero (UInt16.toNat_inj.mp e)
  have hsub : (r.extra - offset).toNat = r.extra.toNat - offset.toNat :=
    UInt16.toNat_sub_of_le _ _ (UInt16.le_iff_toNat_le.mpr (Nat.le_of_lt hlt))
  have hrest : r.extra - offset ≠ 0 := by
    intro e
    rw [e] at hsub
    simp at hsub
    omega
  have hfirst : (v + 1).toNat = v.toNat + 1 :=
    toNat_add_one (Nat.lt_succ_self v.toNat) (by omega)
  have hlow : ({ r with extra := offset - 1 } : Run).stop = v.toNat := by
    simp only [Run.stop, Run.last, toNat_sub_one hzero]
    omega
  have hhigh : (⟨v + 1, r.extra - offset - 1⟩ : Run).stop = r.stop := by
    simp only [Run.stop, Run.last, hfirst, toNat_sub_one hrest, hsub]
    omega
  refine drops_within h ?_ ?_ ⟨by omega, by omega⟩ fun n => ?_
  · have hdom' : (⟨v + 1, r.extra - offset - 1⟩ : Run).InDomain :=
      Nat.le_trans (Nat.le_of_eq hhigh) hdom
    refine validList_cons.mpr ⟨?_, ?_, validList_singleton hdom'⟩
    · unfold Run.InDomain
      omega
    · simp [hlow, hfirst]
  · simp [hlow, hhigh, hfirst]
    omega
  · simp [hlow, hhigh, hfirst]
    omega

theorem erase_spec {runs : Array Run} (h : Valid runs) (v : UInt16) :
    Drops v.toNat runs.toList (erase runs v).2.toList ∧
      (erase runs v).1 = covers runs.toList v.toNat := by
  obtain ⟨before, after, hs, hbefore, hafter⟩ := split_startsUpTo h v
  simp only [erase, candidate?_eq hs]
  rcases List.eq_nil_or_concat' before with rfl | ⟨init, r, rfl⟩
  · have hold : covers runs.toList v.toNat = false := by
      rw [hs.eq]
      exact covers_eq_false_of_lt hafter
    rw [hold]
    exact ⟨drops_nothing h hold, rfl⟩
  · rw [List.getLast?_concat]
    have hr := hbefore r (by simp)
    have hmid : ValidList (init ++ r :: after) := hs.prev.eq ▸ h
    have hoffset : (v - r.first).toNat = v.toNat - r.first.toNat :=
      UInt16.toNat_sub_of_le _ _ (UInt16.le_iff_toNat_le.mpr hr)
    have hstop : r.stop = r.first.toNat + r.extra.toNat + 1 := rfl
    dsimp only
    split_ifs with hout hzero hextra hlast
    · have hout := UInt16.lt_iff_toNat_lt.mp hout
      have hold : covers runs.toList v.toNat = false := by
        rw [hs.prev.eq]
        exact not_covers_past hmid hr (by omega) hafter
      rw [hold]
      exact ⟨drops_nothing h hold, rfl⟩
    -- in all other cases the run holds the value
    all_goals
      rw [UInt16.lt_iff_toNat_lt] at hout
      have hold : covers runs.toList v.toNat :=
        covers_iff.mpr ⟨r, by rw [hs.prev.eq]; simp, hr, by omega⟩
      rw [hold]
      refine ⟨?_, rfl⟩
      rw [hs.prev.eq]
    · have hv : (v - r.first).toNat = 0 := congrArg UInt16.toNat hzero
      rw [hs.prev.toList_erase]
      exact drops_only hmid (by omega) (congrArg UInt16.toNat hextra)
    · have hv : (v - r.first).toNat = 0 := congrArg UInt16.toNat hzero
      rw [hs.prev.toList_set]
      exact drops_first hmid (by omega) hextra
    · have hv := congrArg UInt16.toNat hlast
      rw [hs.prev.toList_set]
      exact drops_last hmid (by omega) (hlast ▸ hzero)
    · have hne : (v - r.first).toNat ≠ r.extra.toNat := fun e => hlast (UInt16.toNat_inj.mp e)
      -- the lower half takes the place of the run, and the upper half goes in behind it
      have hset : Split (runs.setIfInBounds (startsUpTo runs v - 1)
          { r with extra := v - r.first - 1 }) (startsUpTo runs v)
          (init ++ [{ r with extra := v - r.first - 1 }]) after :=
        ⟨by rw [hs.prev.toList_set]; simp, by simpa using hs.length⟩
      rw [hset.toList_insert, List.append_assoc]
      exact drops_inner hmid (by omega) hzero (by omega)

end Erase

end Roaring.Runs
