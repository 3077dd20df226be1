import Roaring.Proofs.Runs.Cover
import Mathlib.Data.List.Triplewise

/-!
# Runs appended and toggled

`append` and `toggle` see the newest run of a list only. What makes one step right is that the run
it is given does not start before that one; what makes a whole pass right is an order on the runs
still to come. For `append` they have to be sorted by their start. `toggle` can leave behind the far
end of two runs that overlapped, so it also needs that of any two runs one is over before a third
starts: `Layered`.
-/
namespace Roaring

namespace Run

theorem stop_withExtra (r : Run) {n : Nat} (h : n < 65536) :
    ({ r with extra := n.toUInt16 } : Run).stop = r.first.toNat + n + 1 := by
  rw [stop, last, toNat_toUInt16 h]

theorem stop_withOneMore {r : Run} (h : r.stop < 65536) :
    ({ r with extra := r.extra + 1 } : Run).stop = r.stop + 1 := by
  have hone : (1 : UInt16).toNat = 1 := rfl
  unfold stop last at *
  rw [UInt16.toNat_add, hone]
  dsimp only
  omega

theorem stop_cutBefore {r : Run} {v : UInt16} (h : r.first < v) :
    ({ r with extra := v - r.first - 1 } : Run).stop = v.toNat := by
  have hlt := UInt16.lt_iff_toNat_lt.mp h
  have hone : (1 : UInt16).toNat = 1 := rfl
  have hsub : (v - r.first).toNat = v.toNat - r.first.toNat :=
    UInt16.toNat_sub_of_le _ _ (UInt16.le_of_lt h)
  have hle : (1 : UInt16) ≤ v - r.first := by
    rw [UInt16.le_iff_toNat_le]
    omega
  rw [stop, last, UInt16.toNat_sub_of_le _ _ hle, hsub, hone]
  dsimp only
  omega

end Run

namespace Runs

/-! ## Lists under construction -/

/-- The invariant of a list under construction, newest run first. -/
def Stacked (out : List Run) : Prop :=
  (∀ r ∈ out, r.InDomain) ∧ out.Pairwise fun a b => Apart b a

theorem stacked_nil : Stacked [] := ⟨by simp, List.Pairwise.nil⟩

theorem stacked_cons {r : Run} {out : List Run} :
    Stacked (r :: out) ↔
      r.InDomain ∧ (∀ s ∈ out, s.stop < r.first.toNat) ∧ Stacked out := by
  simp only [Stacked, List.forall_mem_cons, List.pairwise_cons, Apart]
  exact ⟨fun ⟨⟨h1, h2⟩, h3, h4⟩ => ⟨h1, h3, h2, h4⟩, fun ⟨h1, h3, h2, h4⟩ => ⟨⟨h1, h2⟩, h3, h4⟩⟩

theorem valid_finish {out : List Run} (h : Stacked out) : Valid (finish out) := by
  refine ⟨fun r hr => h.1 r (List.mem_reverse.mp hr), ?_⟩
  exact List.pairwise_reverse.mpr h.2

theorem stacked_reverse {runs : List Run} (h : ValidList runs) : Stacked runs.reverse :=
  ⟨fun r hr => h.1 r (List.mem_reverse.mp hr), List.pairwise_reverse.mpr h.2⟩

@[simp] theorem covers_finish (out : List Run) (n : Nat) :
    covers (finish out).toList n = covers out n := covers_reverse out n

/-- From the start of the newest run on, the others cover nothing. -/
theorem Stacked.covers_rest {last : Run} {rest : List Run} (h : Stacked (last :: rest)) {n : Nat}
    (hn : last.first.toNat ≤ n) : covers rest n = false :=
  covers_eq_false_of_ge fun s hs => Nat.le_trans (Nat.le_of_lt ((stacked_cons.mp h).2.1 s hs)) hn

/-- Every run of a stacked list is over before one that starts after the newest is over. -/
theorem Stacked.stop_lt {last : Run} {rest : List Run} (h : Stacked (last :: rest)) {n : Nat}
    (hn : last.stop < n) : ∀ s ∈ last :: rest, s.stop < n := by
  intro s hs
  rcases List.mem_cons.mp hs with rfl | hs
  · exact hn
  · have := (stacked_cons.mp h).2.1 s hs
    have := last.first_lt_stop
    omega

/-! ## Appending -/

section Append

variable {r : Run} {out : List Run}

theorem stacked_append (h : Stacked out) (hr : r.InDomain)
    (hle : ∀ l ∈ out.head?, l.first ≤ r.first) : Stacked (append r out) := by
  cases out with
  | nil => exact stacked_cons.mpr ⟨hr, by simp, stacked_nil⟩
  | cons last rest =>
    obtain ⟨hlast, hrest, hstack⟩ := stacked_cons.mp h
    have hfirst : last.first ≤ r.first := hle last rfl
    simp only [append]
    split
    · refine stacked_cons.mpr ⟨?_, hrest, hstack⟩
      unfold Run.InDomain at hr hlast ⊢
      unfold Run.stop at hr hlast
      rw [Run.stop_withExtra _ (by omega)]
      have : last.first.toNat ≤ last.last := by unfold Run.last; omega
      omega
    · exact stacked_cons.mpr ⟨hr, h.stop_lt (by omega), h⟩

theorem covers_append_run (h : Stacked out) (hr : r.InDomain)
    (hle : ∀ l ∈ out.head?, l.first ≤ r.first) (n : Nat) :
    covers (append r out) n =
      (covers out n || decide (r.first.toNat ≤ n ∧ n < r.stop)) := by
  cases out with
  | nil => simp [append]
  | cons last rest =>
    obtain ⟨hlast, -, -⟩ := stacked_cons.mp h
    have hfirst := UInt16.le_iff_toNat_le.mp (hle last rfl)
    simp only [append]
    split
    · unfold Run.InDomain at hr hlast
      have hstop := Run.stop_withExtra last (n := max r.last last.last - last.first.toNat)
        (by unfold Run.stop at hr hlast; omega)
      have h1 : last.first.toNat ≤ last.last := by unfold Run.last; omega
      have h2 : r.stop = r.last + 1 := rfl
      have h3 : last.stop = last.last + 1 := rfl
      rw [covers_cons, covers_cons, hstop, Bool.or_right_comm, ← Bool.decide_or]
      congr 2
      rw [eq_iff_iff]
      dsimp only
      omega
    · simp only [covers_cons]
      rw [Bool.or_comm]

/-- The newest run after a step starts no later than the run that was added. -/
theorem head_append (hle : ∀ l ∈ out.head?, l.first ≤ r.first) :
    ∀ l ∈ (append r out).head?, l.first ≤ r.first := by
  cases out with
  | nil => simp [append]
  | cons last rest =>
    have hfirst : last.first ≤ r.first := hle last rfl
    simp only [append]
    split <;> simp [hfirst]

end Append

theorem foldl_append_spec (rs : List Run) {out : List Run} (h : Stacked out)
    (hdom : ∀ r ∈ rs, r.InDomain) (hrs : rs.Pairwise fun a b => a.first ≤ b.first)
    (hle : ∀ l ∈ out.head?, ∀ r ∈ rs, l.first ≤ r.first) :
    Stacked (rs.foldl (fun out r => append r out) out) ∧
      ∀ n, covers (rs.foldl (fun out r => append r out) out) n = (covers out n || covers rs n) := by
  induction rs generalizing out with
  | nil => exact ⟨h, by simp⟩
  | cons r rs ih =>
    obtain ⟨hr, hdom⟩ := List.forall_mem_cons.mp hdom
    obtain ⟨hfirst, hrs⟩ := List.pairwise_cons.mp hrs
    have hhead : ∀ l ∈ out.head?, l.first ≤ r.first := fun l hl =>
      hle l hl r List.mem_cons_self
    obtain ⟨hstack, hcov⟩ := ih (stacked_append h hr hhead) hdom hrs fun l hl s hs =>
      UInt16.le_trans (head_append hhead l hl) (hfirst s hs)
    refine ⟨hstack, fun n => ?_⟩
    rw [List.foldl_cons, hcov, covers_append_run h hr hhead, covers_cons, Bool.or_assoc]

theorem ofValues_eq (vs : Array UInt16) :
    ofValues vs = finish ((vs.toList.map .single).foldl (fun out r => append r out) []) := by
  rw [ofValues, ← Array.foldl_toList, List.foldl_map]

theorem ofValues_spec {vs : Array UInt16} (h : Sorted.Increasing vs) :
    Valid (ofValues vs) ∧ ∀ v : UInt16, covers (ofValues vs).toList v.toNat ↔ v ∈ vs := by
  have hdom : ∀ r ∈ vs.toList.map Run.single, r.InDomain := by
    simp [Run.inDomain_single]
  have hsorted : (vs.toList.map Run.single).Pairwise fun a b => a.first ≤ b.first :=
    List.pairwise_map.mpr (h.imp UInt16.le_of_lt)
  obtain ⟨hstack, hcov⟩ := foldl_append_spec _ stacked_nil hdom hsorted (by simp)
  rw [ofValues_eq]
  refine ⟨valid_finish hstack, fun v => ?_⟩
  rw [covers_finish, hcov, covers_nil, Bool.false_or, covers_single_toNat, decide_eq_true_iff,
    Array.mem_toList_iff]

/-! ## Toggling -/

theorem mem_tail {a b s : Run} (ha : a.InDomain) (hb : b.InDomain) (h : s ∈ tail a b) :
    s.first.toNat = min a.stop b.stop ∧ s.stop = max a.stop b.stop ∧
      min a.stop b.stop < max a.stop b.stop := by
  unfold Run.InDomain at ha hb
  unfold tail at h
  split at h
  · rw [List.mem_singleton.mp h, Run.first_ofBounds (by omega), Run.stop_ofBounds ‹_› hb]
    omega
  · split at h
    · rw [List.mem_singleton.mp h, Run.first_ofBounds (by omega), Run.stop_ofBounds ‹_› ha]
      omega
    · cases h

theorem covers_tail {a b : Run} (ha : a.InDomain) (hb : b.InDomain) (n : Nat) :
    covers (tail a b) n = decide (min a.stop b.stop ≤ n ∧ n < max a.stop b.stop) := by
  unfold Run.InDomain at ha hb
  unfold tail
  split
  · rw [covers_cons, Run.first_ofBounds (by omega), Run.stop_ofBounds ‹_› hb, covers_nil,
      Bool.or_false, decide_eq_decide]
    omega
  · split
    · rw [covers_cons, Run.first_ofBounds (by omega), Run.stop_ofBounds ‹_› ha, covers_nil,
        Bool.or_false, decide_eq_decide]
      omega
    · rw [covers_nil, eq_comm, decide_eq_false_iff_not]
      omega

/-- What is left over past the end of two runs goes on top of a list that is over before that. -/
theorem stacked_tail_append {a b : Run} {out : List Run} (ha : a.InDomain) (hb : b.InDomain)
    (h : Stacked out) (hout : ∀ s ∈ out, s.stop < min a.stop b.stop) :
    Stacked (tail a b ++ out) := by
  refine ⟨fun s hs => ?_, List.pairwise_append.mpr ⟨?_, h.2, fun s hs t ht => ?_⟩⟩
  · rcases List.mem_append.mp hs with hs | hs
    · have hmem := mem_tail ha hb hs
      unfold Run.InDomain at *
      omega
    · exact h.1 s hs
  · unfold tail
    split
    · exact List.pairwise_singleton _ _
    · split
      · exact List.pairwise_singleton _ _
      · exact List.Pairwise.nil
  · have hmem := mem_tail ha hb hs
    have := hout t ht
    unfold Apart
    omega

/-- The newest run above a list is what is left over of two runs, or else that of the list. -/
theorem head_tail_append {a b l : Run} {out : List Run} (ha : a.InDomain) (hb : b.InDomain)
    (hl : l ∈ (tail a b ++ out).head?) :
    l.first.toNat = min a.stop b.stop ∧ (l.stop = a.stop ∨ l.stop = b.stop) ∨ l ∈ out.head? := by
  rw [List.head?_append, Option.mem_def, Option.or_eq_some_iff] at hl
  rcases hl with hl | ⟨-, hl⟩
  · have hmem := mem_tail ha hb (List.mem_of_mem_head? hl)
    refine .inl ⟨hmem.1, ?_⟩
    omega
  · exact .inr hl

section Toggle

variable {r : Run} {out : List Run}

theorem stacked_toggle (h : Stacked out) (hr : r.InDomain)
    (hle : ∀ l ∈ out.head?, l.first ≤ r.first) : Stacked (toggle r out) := by
  cases out with
  | nil => exact stacked_cons.mpr ⟨hr, by simp, stacked_nil⟩
  | cons last rest =>
    obtain ⟨hlast, hrest, hstack⟩ := stacked_cons.mp h
    have hfirst : last.first ≤ r.first := hle last rfl
    have hnat := UInt16.le_iff_toNat_le.mp hfirst
    have hlast' := last.first_lt_stop
    have hr' := r.first_lt_stop
    simp only [toggle]
    split_ifs with hgap htouch hsame
    · exact stacked_cons.mpr ⟨hr, h.stop_lt hgap, h⟩
    · refine stacked_cons.mpr ⟨?_, hrest, hstack⟩
      unfold Run.InDomain at hr ⊢
      rw [Run.stop_withExtra _ (by omega)]
      show last.first.toNat + (r.stop - last.first.toNat - 1) + 1 ≤ 65536
      omega
    · refine stacked_tail_append hr hlast hstack fun s hs => ?_
      have hs := hrest s hs
      rw [← hsame] at hs hlast'
      omega
    · have hlt : last.first < r.first := UInt16.lt_of_le_of_ne hfirst fun e => hsame e.symm
      have hcut := Run.stop_cutBefore hlt
      refine stacked_tail_append hr hlast (stacked_cons.mpr ⟨?_, hrest, hstack⟩) ?_
      · unfold Run.InDomain at hr ⊢
        omega
      · intro s hs
        rcases List.mem_cons.mp hs with rfl | hs
        · omega
        · have hs := hrest s hs
          omega

theorem covers_toggle (h : Stacked out) (hr : r.InDomain)
    (hle : ∀ l ∈ out.head?, l.first ≤ r.first) (n : Nat) :
    covers (toggle r out) n =
      (covers out n ^^ decide (r.first.toNat ≤ n ∧ n < r.stop)) := by
  cases out with
  | nil => simp [toggle]
  | cons last rest =>
    obtain ⟨hlast, hrest, hstack⟩ := stacked_cons.mp h
    have hfirst : last.first ≤ r.first := hle last rfl
    have hnat := UInt16.le_iff_toNat_le.mp hfirst
    have hlast' := last.first_lt_stop
    have hr' := r.first_lt_stop
    -- the runs below the newest one matter only before it starts, where nothing else is covered
    have hbelow : last.first.toNat ≤ n → covers rest n = false := h.covers_rest
    simp only [toggle]
    split_ifs with hgap htouch hsame
    · simp only [covers_cons]
      grind
    · unfold Run.InDomain at hr
      have hstop := Run.stop_withExtra last (n := r.stop - last.first.toNat - 1) (by omega)
      simp only [covers_cons, hstop]
      grind
    · rw [covers_append, covers_tail hr hlast, covers_cons, hsame]
      rw [hsame] at hr'
      grind
    · have hlt : last.first < r.first := UInt16.lt_of_le_of_ne hfirst fun e => hsame e.symm
      have hlt' := UInt16.lt_iff_toNat_lt.mp hlt
      rw [covers_append, covers_tail hr hlast, covers_cons, covers_cons, Run.stop_cutBefore hlt]
      grind

/-- The newest run after a step: where it starts and where it is over. -/
theorem head_toggle (h : Stacked out) (hr : r.InDomain)
    (hle : ∀ l ∈ out.head?, l.first ≤ r.first) :
    ∀ l ∈ (toggle r out).head?,
      (l.first ≤ r.first ∨ ∃ o ∈ out.head?, l.first.toNat = min r.stop o.stop) ∧
        (l.stop ≤ r.first.toNat ∨ l.stop = r.stop ∨ ∃ o ∈ out.head?, l.stop = o.stop) := by
  cases out with
  | nil => simp [toggle]
  | cons last rest =>
    obtain ⟨hlast, hrest, -⟩ := stacked_cons.mp h
    have hfirst : last.first ≤ r.first := hle last rfl
    have hnat := UInt16.le_iff_toNat_le.mp hfirst
    simp only [toggle, List.head?_cons, Option.mem_some_iff, exists_eq_left']
    split_ifs with hgap htouch hsame
    · rintro l ⟨⟩
      exact ⟨.inl (UInt16.le_refl _), .inr (.inl rfl)⟩
    · rintro l ⟨⟩
      unfold Run.InDomain at hr
      have hr' := r.first_lt_stop
      refine ⟨.inl hfirst, .inr (.inl ?_)⟩
      rw [Run.stop_withExtra _ (by omega)]
      show last.first.toNat + (r.stop - last.first.toNat - 1) + 1 = r.stop
      omega
    · intro l hl
      rcases head_tail_append hr hlast hl with ⟨hmin, hstop⟩ | hl
      · exact ⟨.inr hmin, .inr hstop⟩
      · have hs := hrest l (List.mem_of_mem_head? hl)
        have hl' := l.first_lt_stop
        rw [UInt16.le_iff_toNat_le]
        omega
    · have hlt : last.first < r.first := UInt16.lt_of_le_of_ne hfirst fun e => hsame e.symm
      intro l hl
      rcases head_tail_append hr hlast hl with ⟨hmin, hstop⟩ | hl
      · exact ⟨.inr hmin, .inr hstop⟩
      · cases hl
        exact ⟨.inl hfirst, .inl (Nat.le_of_eq (Run.stop_cutBefore hlt))⟩

end Toggle

/-! ## Run arrays -/

theorem head?_reverse_toList (runs : Array Run) : runs.toList.reverse.head? = runs.back? := by
  rw [List.head?_reverse, Array.getLast?_toList]

/-- A step that changes the newest run only can be given the whole array. -/
theorem onLast_eq {step : List Run → List Run} {r : Run} (hnil : step [] = [r])
    (hcons : ∀ last rest, step (last :: rest) = step [last] ++ rest) (runs : Array Run) :
    onLast step runs = finish (step runs.toList.reverse) := by
  unfold onLast
  split
  · rename_i h
    rw [Array.back?_eq_none_iff.mp h, hnil]
    simp [finish, hnil]
  · rename_i last h
    obtain ⟨front, rfl⟩ := Array.back?_eq_some_iff.mp h
    rw [Array.pop_push, Array.toList_push, List.reverse_concat, hcons last front.toList.reverse,
      finish, List.reverse_append, List.reverse_reverse]
    exact Array.toList_inj.mp Array.toList_appendList

theorem appendRun_eq (runs : Array Run) (r : Run) :
    appendRun runs r = finish (append r runs.toList.reverse) := by
  refine onLast_eq (show append r [] = [r] from rfl) (fun last rest => ?_) runs
  simp only [append]
  split <;> rfl

theorem toggleRun_eq (runs : Array Run) (r : Run) :
    toggleRun runs r = finish (toggle r runs.toList.reverse) := by
  refine onLast_eq (show toggle r [] = [r] from rfl) (fun last rest => ?_) runs
  simp only [toggle]
  split_ifs <;> simp

section Arrays

variable {runs : Array Run} {r : Run}

/-- A run that does not start before the last one is added. -/
theorem appendRun_spec (h : Valid runs) (hr : r.InDomain)
    (hle : ∀ l ∈ runs.back?, l.first ≤ r.first) :
    Valid (appendRun runs r) ∧ ∀ n, covers (appendRun runs r).toList n =
      (covers runs.toList n || decide (r.first.toNat ≤ n ∧ n < r.stop)) := by
  have hstack := stacked_reverse h
  rw [← head?_reverse_toList] at hle
  rw [appendRun_eq]
  refine ⟨valid_finish (stacked_append hstack hr hle), fun n => ?_⟩
  rw [covers_finish, covers_append_run hstack hr hle, covers_reverse]

/-- A run that does not start before the last one is toggled. -/
theorem toggleRun_spec (h : Valid runs) (hr : r.InDomain)
    (hle : ∀ l ∈ runs.back?, l.first ≤ r.first) :
    Valid (toggleRun runs r) ∧ ∀ n, covers (toggleRun runs r).toList n =
      (covers runs.toList n ^^ decide (r.first.toNat ≤ n ∧ n < r.stop)) := by
  have hstack := stacked_reverse h
  rw [← head?_reverse_toList] at hle
  rw [toggleRun_eq]
  refine ⟨valid_finish (stacked_toggle hstack hr hle), fun n => ?_⟩
  rw [covers_finish, covers_toggle hstack hr hle, covers_reverse]

end Arrays

/-! ## Passes -/

/-- Runs sorted by their start, of which one of any two is over before a third starts. -/
def Layered (rs : List Run) : Prop :=
  rs.Pairwise (fun a b => a.first ≤ b.first) ∧
    rs.Triplewise fun a b c => min a.stop b.stop ≤ c.first.toNat

theorem layered_cons {r : Run} {rs : List Run} :
    Layered (r :: rs) ↔
      (∀ s ∈ rs, r.first ≤ s.first) ∧
        rs.Pairwise (fun b c => min r.stop b.stop ≤ c.first.toNat) ∧ Layered rs := by
  simp only [Layered, List.pairwise_cons, List.triplewise_cons]
  exact ⟨fun ⟨⟨h1, h2⟩, h3, h4⟩ => ⟨h1, h3, h2, h4⟩, fun ⟨h1, h3, h2, h4⟩ => ⟨⟨h1, h2⟩, h3, h4⟩⟩

/-- A step of `toggle` keeps the newest run and the runs to come layered. -/
theorem layered_toggle {r : Run} {rs out : List Run} (h : Stacked out) (hr : r.InDomain)
    (hlay : Layered (out.head?.toList ++ r :: rs)) :
    Layered ((toggle r out).head?.toList ++ rs) := by
  have hrs : Layered (r :: rs) := by
    cases ho : out.head? with
    | none => simpa [ho] using hlay
    | some o =>
      rw [ho] at hlay
      exact (layered_cons.mp hlay).2.2
  obtain ⟨hfirst, hmin, hrest⟩ := layered_cons.mp hrs
  have hle : ∀ o ∈ out.head?, o.first ≤ r.first ∧ (∀ s ∈ rs, min o.stop r.stop ≤ s.first.toNat) ∧
      rs.Pairwise (fun b c => min o.stop b.stop ≤ c.first.toNat) := by
    intro o ho
    rw [Option.mem_def.mp ho] at hlay
    obtain ⟨h1, h2, -⟩ := layered_cons.mp hlay
    obtain ⟨h2, h3⟩ := List.pairwise_cons.mp h2
    exact ⟨h1 r List.mem_cons_self, h2, h3⟩
  cases hl : (toggle r out).head? with
  | none => exact hrest
  | some l =>
    obtain ⟨hstart, hstop⟩ := head_toggle h hr (fun o ho => (hle o ho).1) l hl
    refine layered_cons.mpr ⟨fun s hs => ?_, ?_, hrest⟩
    · rcases hstart with hstart | ⟨o, ho, hstart⟩
      · exact UInt16.le_trans hstart (hfirst s hs)
      · have := (hle o ho).2.1 s hs
        rw [UInt16.le_iff_toNat_le]
        omega
    · rcases hstop with hstop | hstop | ⟨o, ho, hstop⟩
      · refine List.Pairwise.imp_of_mem ?_ hmin
        intro b c hb hc _
        have := UInt16.le_iff_toNat_le.mp (hfirst c hc)
        omega
      · rw [hstop]
        exact hmin
      · rw [hstop]
        exact (hle o ho).2.2

/-- The numbers that a layered list covers an odd number of times. -/
def coversOdd : List Run → Nat → Bool
  | [], _ => false
  | r :: rs, n => decide (r.first.toNat ≤ n ∧ n < r.stop) ^^ coversOdd rs n

theorem foldl_toggle_spec (rs : List Run) {out : List Run} (h : Stacked out)
    (hdom : ∀ r ∈ rs, r.InDomain) (hlay : Layered (out.head?.toList ++ rs)) :
    Stacked (rs.foldl (fun out r => toggle r out) out) ∧
      ∀ n, covers (rs.foldl (fun out r => toggle r out) out) n =
        (covers out n ^^ coversOdd rs n) := by
  induction rs generalizing out with
  | nil => exact ⟨h, by simp [coversOdd]⟩
  | cons r rs ih =>
    obtain ⟨hr, hdom⟩ := List.forall_mem_cons.mp hdom
    have hle : ∀ l ∈ out.head?, l.first ≤ r.first := by
      intro l hl
      rw [Option.mem_def.mp hl] at hlay
      exact (layered_cons.mp hlay).1 r List.mem_cons_self
    obtain ⟨hstack, hcov⟩ := ih (stacked_toggle h hr hle) hdom (layered_toggle h hr hlay)
    refine ⟨hstack, fun n => ?_⟩
    rw [List.foldl_cons, hcov, covers_toggle h hr hle, coversOdd, Bool.xor_assoc]

end Runs

end Roaring
