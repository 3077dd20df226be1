import Mathlib.Data.List.Sort
import Roaring.Proofs.Runs.Append
import Roaring.Runs.Merge

/-!
# Runs merged

The operations on two run lists keep the lists valid and cover what the operation says. A list of
single values need not be valid, for its values may touch, but it is in order, and that is enough
for a merge to be layered.
-/
namespace Roaring.Runs

/-- Runs in the domain of which each is over when the next one starts. -/
def Ordered (rs : List Run) : Prop :=
  (∀ r ∈ rs, r.InDomain) ∧ rs.Pairwise fun a b => a.stop ≤ b.first.toNat

theorem ValidList.ordered {rs : List Run} (h : ValidList rs) : Ordered rs :=
  ⟨h.1, h.2.imp Nat.le_of_lt⟩

theorem ordered_single {vs : List UInt16} (h : vs.Pairwise (· < ·)) :
    Ordered (vs.map .single) := by
  refine ⟨by simp [Run.inDomain_single], List.pairwise_map.mpr (h.imp fun hlt => ?_)⟩
  exact UInt16.lt_iff_toNat_lt.mp hlt

theorem Ordered.sorted {rs : List Run} (h : Ordered rs) :
    rs.Pairwise fun a b => a.first ≤ b.first := by
  refine h.2.imp fun {a b} hab => ?_
  have := a.first_lt_stop
  rw [UInt16.le_iff_toNat_le]
  omega

/-! ## Both lists by their start -/

theorem mem_byStart {as bs : List Run} {r : Run} : r ∈ byStart as bs ↔ r ∈ as ∨ r ∈ bs :=
  List.mem_merge

/-- A relation between earlier and later runs of a merge comes from each list and, across the two,
from how the runs start. -/
theorem pairwise_byStart {R : Run → Run → Prop} {as bs : List Run}
    (has : as.Pairwise fun a b => a.first ≤ b.first)
    (hbs : bs.Pairwise fun a b => a.first ≤ b.first)
    (hra : as.Pairwise R) (hrb : bs.Pairwise R)
    (hab : ∀ a ∈ as, ∀ b ∈ bs, a.first ≤ b.first → R a b)
    (hba : ∀ a ∈ as, ∀ b ∈ bs, b.first ≤ a.first → R b a) :
    (byStart as bs).Pairwise R := by
  unfold byStart
  induction as generalizing bs with
  | nil => simpa using hrb
  | cons a as iha =>
    induction bs with
    | nil => simpa using hra
    | cons b bs ihb =>
      obtain ⟨haa, has'⟩ := List.pairwise_cons.mp has
      obtain ⟨hbb, hbs'⟩ := List.pairwise_cons.mp hbs
      obtain ⟨hraa, hra'⟩ := List.pairwise_cons.mp hra
      obtain ⟨hrbb, hrb'⟩ := List.pairwise_cons.mp hrb
      rw [List.cons_merge_cons]
      split
      · rename_i hle
        have hle : a.first ≤ b.first := of_decide_eq_true hle
        refine List.pairwise_cons.mpr ⟨fun s hs => ?_, ?_⟩
        · rcases List.mem_merge.mp hs with hs | hs
          · exact hraa s hs
          · refine hab a List.mem_cons_self s hs ?_
            rcases List.mem_cons.mp hs with rfl | hs
            · exact hle
            · exact UInt16.le_trans hle (hbb s hs)
        · exact iha has' hbs hra' hrb (fun c hc => hab c (List.mem_cons_of_mem _ hc))
            fun c hc => hba c (List.mem_cons_of_mem _ hc)
      · rename_i hle
        have hle : b.first ≤ a.first := by
          rcases UInt16.le_total a.first b.first with h | h
          · exact absurd (decide_eq_true h) hle
          · exact h
        refine List.pairwise_cons.mpr ⟨fun s hs => ?_, ?_⟩
        · rcases List.mem_merge.mp hs with hs | hs
          · refine hba s hs b List.mem_cons_self ?_
            rcases List.mem_cons.mp hs with rfl | hs
            · exact hle
            · exact UInt16.le_trans hle (haa s hs)
          · exact hrbb s hs
        · exact ihb hbs' hrb' (fun c hc d hd => hab c hc d (List.mem_cons_of_mem _ hd))
            fun c hc d hd => hba c hc d (List.mem_cons_of_mem _ hd)

theorem sorted_byStart {as bs : List Run} (ha : Ordered as) (hb : Ordered bs) :
    (byStart as bs).Pairwise fun a b => a.first ≤ b.first :=
  pairwise_byStart ha.sorted hb.sorted ha.sorted hb.sorted (fun _ _ _ _ h => h)
    fun _ _ _ _ h => h

theorem Ordered.tail {r : Run} {rs : List Run} (h : Ordered (r :: rs)) : Ordered rs :=
  ⟨fun s hs => h.1 s (List.mem_cons_of_mem _ hs), h.2.of_cons⟩

theorem Ordered.stop_le {r : Run} {rs : List Run} (h : Ordered (r :: rs)) :
    ∀ s ∈ rs, r.stop ≤ s.first.toNat :=
  (List.pairwise_cons.mp h.2).1

/-- Behind the first run of a merge, of any two runs the second starts when the first or the run
before both is over: two of the three are from one list. -/
theorem pairwise_min_stop {r : Run} {as bs : List Run} (has : Ordered as) (hbs : Ordered bs)
    (hr : (∀ a ∈ as, r.stop ≤ a.first.toNat) ∨ ∀ b ∈ bs, r.stop ≤ b.first.toNat) :
    (byStart as bs).Pairwise fun b c => min r.stop b.stop ≤ c.first.toNat := by
  refine pairwise_byStart has.sorted hbs.sorted ?_ ?_ (fun a ha b hb hab => ?_)
    fun a ha b hb hba => ?_
  · exact has.2.imp fun h => Nat.le_trans (Nat.min_le_right ..) h
  · exact hbs.2.imp fun h => Nat.le_trans (Nat.min_le_right ..) h
  · have hab := UInt16.le_iff_toNat_le.mp hab
    rcases hr with hr | hr
    · have := hr a ha
      omega
    · have := hr b hb
      omega
  · have hba := UInt16.le_iff_toNat_le.mp hba
    rcases hr with hr | hr
    · have := hr a ha
      omega
    · have := hr b hb
      omega

theorem Ordered.layered {rs : List Run} (h : Ordered rs) : Layered rs := by
  induction rs with
  | nil => exact ⟨List.Pairwise.nil, List.Triplewise.nil⟩
  | cons r rs ih =>
    refine layered_cons.mpr ⟨(List.pairwise_cons.mp h.sorted).1, ?_, ih h.tail⟩
    exact h.tail.2.imp fun hbc => Nat.le_trans (Nat.min_le_right ..) hbc

theorem layered_byStart {as bs : List Run} (ha : Ordered as) (hb : Ordered bs) :
    Layered (byStart as bs) := by
  refine ⟨sorted_byStart ha hb, ?_⟩
  unfold byStart
  induction as generalizing bs with
  | nil =>
    rw [List.nil_merge]
    exact hb.layered.2
  | cons a as iha =>
    induction bs with
    | nil =>
      rw [List.merge_right]
      exact ha.layered.2
    | cons b bs ihb =>
      rw [List.cons_merge_cons]
      split
      · exact List.triplewise_cons.mpr
          ⟨pairwise_min_stop ha.tail hb (.inl ha.stop_le), iha ha.tail hb⟩
      · exact List.triplewise_cons.mpr
          ⟨pairwise_min_stop ha hb.tail (.inr hb.stop_le), ihb hb.tail⟩

theorem covers_byStart (as bs : List Run) (n : Nat) :
    covers (byStart as bs) n = (covers as n || covers bs n) := by
  rw [← covers_append]
  exact (List.merge_perm_append _).any_eq

theorem coversOdd_append (as bs : List Run) (n : Nat) :
    coversOdd (as ++ bs) n = (coversOdd as n ^^ coversOdd bs n) := by
  induction as with
  | nil => simp [coversOdd]
  | cons a as ih => rw [List.cons_append, coversOdd, ih, coversOdd, Bool.xor_assoc]

theorem coversOdd_perm {as bs : List Run} (h : as.Perm bs) (n : Nat) :
    coversOdd as n = coversOdd bs n := by
  induction h with
  | nil => rfl
  | cons r _ ih => rw [coversOdd, coversOdd, ih]
  | swap r s rs => rw [coversOdd, coversOdd, coversOdd, coversOdd, Bool.xor_left_comm]
  | trans _ _ ih ih' => exact ih.trans ih'

theorem Ordered.coversOdd_eq {rs : List Run} (h : Ordered rs) (n : Nat) :
    coversOdd rs n = covers rs n := by
  induction rs with
  | nil => rfl
  | cons r rs ih =>
    rw [coversOdd, covers_cons, ih h.tail]
    by_cases hn : n < r.stop
    · have hrest : covers rs n = false :=
        covers_eq_false_of_lt fun s hs => Nat.lt_of_lt_of_le hn (h.stop_le s hs)
      rw [hrest, Bool.xor_false, Bool.or_false]
    · have hr : ¬(r.first.toNat ≤ n ∧ n < r.stop) := fun h => hn h.2
      rw [decide_eq_false hr, Bool.false_xor, Bool.false_or]

theorem coversOdd_byStart {as bs : List Run} (ha : Ordered as) (hb : Ordered bs) (n : Nat) :
    coversOdd (byStart as bs) n = (covers as n ^^ covers bs n) := by
  rw [← ha.coversOdd_eq, ← hb.coversOdd_eq, ← coversOdd_append]
  exact coversOdd_perm (List.merge_perm_append _) n

theorem inDomain_byStart {as bs : List Run} (ha : Ordered as) (hb : Ordered bs) :
    ∀ r ∈ byStart as bs, r.InDomain := fun r hr =>
  (mem_byStart.mp hr).elim (ha.1 r) (hb.1 r)

theorem unionList_spec {as bs : List Run} (ha : Ordered as) (hb : Ordered bs) :
    Stacked (unionList as bs) ∧
      ∀ n, covers (unionList as bs) n = (covers as n || covers bs n) := by
  obtain ⟨hstack, hcov⟩ := foldl_append_spec (byStart as bs) stacked_nil (inDomain_byStart ha hb)
    (sorted_byStart ha hb) (by simp)
  refine ⟨hstack, fun n => ?_⟩
  rw [unionList, hcov, covers_nil, Bool.false_or, covers_byStart]

theorem symmDiffList_spec {as bs : List Run} (ha : Ordered as) (hb : Ordered bs) :
    Stacked (symmDiffList as bs) ∧
      ∀ n, covers (symmDiffList as bs) n = (covers as n ^^ covers bs n) := by
  obtain ⟨hstack, hcov⟩ := foldl_toggle_spec (byStart as bs) stacked_nil (inDomain_byStart ha hb)
    (layered_byStart ha hb)
  refine ⟨hstack, fun n => ?_⟩
  rw [symmDiffList, hcov, covers_nil, Bool.false_xor, coversOdd_byStart ha hb]

/-! ## Intersection -/

/-- The runs made so far are over before the next one that both lists can share starts. -/
def Behind (out as bs : List Run) : Prop :=
  ∀ s ∈ out, ∀ a ∈ as, ∀ b ∈ bs, s.stop < max a.first.toNat b.first.toNat

theorem Behind.mono {out as bs as' bs' : List Run} (h : Behind out as bs) (ha : as' ⊆ as)
    (hb : bs' ⊆ bs) : Behind out as' bs' :=
  fun s hs a has b hbs => h s hs a (ha has) b (hb hbs)

section Shared

variable {a b : Run} {as bs out : List Run}

theorem shared_bounds (ha : ValidList (a :: as)) (hlt : b.first.toNat < a.stop)
    (hlt' : a.first.toNat < b.stop) :
    (Run.ofBounds (max a.first.toNat b.first.toNat) (min a.stop b.stop)).first.toNat =
        max a.first.toNat b.first.toNat ∧
      (Run.ofBounds (max a.first.toNat b.first.toNat) (min a.stop b.stop)).stop =
        min a.stop b.stop := by
  have hdom := ha.head_inDomain
  have h1 := a.first_lt_stop
  have h2 := b.first_lt_stop
  exact ⟨Run.first_ofBounds (by omega), Run.stop_ofBounds (by omega) (by omega)⟩

theorem stacked_shared (ha : ValidList (a :: as)) (hlt : b.first.toNat < a.stop)
    (hlt' : a.first.toNat < b.stop) (h : Stacked out) (hbehind : Behind out (a :: as) (b :: bs)) :
    Stacked (.ofBounds (max a.first.toNat b.first.toNat) (min a.stop b.stop) :: out) := by
  obtain ⟨hfirst, hstop⟩ := shared_bounds ha hlt hlt'
  have hdom := ha.head_inDomain
  refine stacked_cons.mpr ⟨?_, fun s hs => ?_, h⟩
  · unfold Run.InDomain
    omega
  · rw [hfirst]
    exact hbehind s hs a List.mem_cons_self b List.mem_cons_self

theorem covers_shared (ha : ValidList (a :: as)) (hlt : b.first.toNat < a.stop)
    (hlt' : a.first.toNat < b.stop) (n : Nat) :
    covers (.ofBounds (max a.first.toNat b.first.toNat) (min a.stop b.stop) :: out) n =
      (covers out n ||
        (decide (a.first.toNat ≤ n ∧ n < a.stop) && decide (b.first.toNat ≤ n ∧ n < b.stop))) := by
  obtain ⟨hfirst, hstop⟩ := shared_bounds ha hlt hlt'
  rw [covers_cons, hfirst, hstop, Bool.or_comm, ← Bool.decide_and]
  congr 2
  rw [eq_iff_iff]
  omega

/-- Where one of the two runs is over with the part they share, later runs start behind it. -/
theorem behind_shared (ha : ValidList (a :: as)) (hlt : b.first.toNat < a.stop)
    (hlt' : a.first.toNat < b.stop) (hbehind : Behind out (a :: as) (b :: bs))
    {as' bs' : List Run} (hsub : as' ⊆ a :: as) (hsub' : bs' ⊆ b :: bs)
    (hnew : ∀ x ∈ as', ∀ y ∈ bs', min a.stop b.stop < max x.first.toNat y.first.toNat) :
    Behind (.ofBounds (max a.first.toNat b.first.toNat) (min a.stop b.stop) :: out) as' bs' := by
  intro s hs x hx y hy
  rcases List.mem_cons.mp hs with rfl | hs
  · rw [(shared_bounds ha hlt hlt').2]
    exact hnew x hx y hy
  · exact (hbehind.mono hsub hsub') s hs x hx y hy

end Shared

theorem interFrom_spec (as bs out : List Run) (ha : ValidList as) (hb : ValidList bs)
    (h : Stacked out) (hbehind : Behind out as bs) :
    Stacked (interFrom as bs out) ∧
      ∀ n, covers (interFrom as bs out) n = (covers out n || (covers as n && covers bs n)) := by
  fun_induction interFrom as bs out with
  | case1 bs out => exact ⟨h, by simp⟩
  | case2 as out => exact ⟨h, by simp⟩
  | case3 a as b bs out hle ih =>
    -- the left run is over before the right one starts
    obtain ⟨hstack, hcov⟩ := ih ha.tail hb h
      (hbehind.mono (List.subset_cons_self ..) (List.Subset.refl _))
    refine ⟨hstack, fun n => ?_⟩
    have := hb.covers_tail (n := n)
    have := b.first_lt_stop
    rw [hcov, covers_cons, covers_cons]
    grind
  | case4 a as b bs out hle hle' ih =>
    -- the right run is over before the left one starts
    obtain ⟨hstack, hcov⟩ := ih ha hb.tail h
      (hbehind.mono (List.Subset.refl _) (List.subset_cons_self ..))
    refine ⟨hstack, fun n => ?_⟩
    have := ha.covers_tail (n := n)
    have := a.first_lt_stop
    rw [hcov, covers_cons, covers_cons]
    grind
  | case5 a as b bs out hle hle' _ hlt ih =>
    -- they overlap, and the left one is over first
    have hba : b.first.toNat < a.stop := Nat.lt_of_not_le hle
    have hab : a.first.toNat < b.stop := Nat.lt_of_not_le hle'
    obtain ⟨hstack, hcov⟩ := ih ha.tail hb (stacked_shared ha hba hab h hbehind)
      (behind_shared ha hba hab hbehind (List.subset_cons_self ..) (List.Subset.refl _)
        fun x hx y _ => by have := ha.apart x hx; omega)
    refine ⟨hstack, fun n => ?_⟩
    have := hb.covers_tail (n := n)
    rw [hcov, covers_shared ha hba hab, covers_cons, covers_cons]
    grind
  | case6 a as b bs out hle hle' _ hlt hlt' ih =>
    -- they overlap, and the right one is over first
    have hba : b.first.toNat < a.stop := Nat.lt_of_not_le hle
    have hab : a.first.toNat < b.stop := Nat.lt_of_not_le hle'
    obtain ⟨hstack, hcov⟩ := ih ha hb.tail (stacked_shared ha hba hab h hbehind)
      (behind_shared ha hba hab hbehind (List.Subset.refl _) (List.subset_cons_self ..)
        fun x _ y hy => by have := hb.apart y hy; omega)
    refine ⟨hstack, fun n => ?_⟩
    have := ha.covers_tail (n := n)
    rw [hcov, covers_shared ha hba hab, covers_cons, covers_cons]
    grind
  | case7 a as b bs out hle hle' _ hlt hlt' ih =>
    -- they overlap and end together
    have hba : b.first.toNat < a.stop := Nat.lt_of_not_le hle
    have hab : a.first.toNat < b.stop := Nat.lt_of_not_le hle'
    obtain ⟨hstack, hcov⟩ := ih ha.tail hb.tail (stacked_shared ha hba hab h hbehind)
      (behind_shared ha hba hab hbehind (List.subset_cons_self ..) (List.subset_cons_self ..)
        fun x hx y _ => by have := ha.apart x hx; omega)
    refine ⟨hstack, fun n => ?_⟩
    have := ha.covers_tail (n := n)
    have := hb.covers_tail (n := n)
    rw [hcov, covers_shared ha hba hab, covers_cons, covers_cons]
    grind

/-! ## Difference -/

/-- Adds the run of `[start, stop)` unless that is empty. -/
def pushRange (start stop : Nat) (out : List Run) : List Run :=
  if start < stop then .ofBounds start stop :: out else out

theorem pushRange_of_lt {start stop : Nat} (h : start < stop) (out : List Run) :
    pushRange start stop out = .ofBounds start stop :: out := if_pos h

section PushRange

variable {start stop : Nat} {out : List Run}

theorem stacked_pushRange (hstop : stop ≤ 65536) (h : Stacked out)
    (hbehind : ∀ s ∈ out, s.stop < start) : Stacked (pushRange start stop out) := by
  unfold pushRange
  split
  · rename_i hlt
    refine stacked_cons.mpr ⟨Run.inDomain_ofBounds hlt hstop, ?_, h⟩
    rw [Run.first_ofBounds (by omega)]
    exact hbehind
  · exact h

theorem stop_pushRange (hstop : stop ≤ 65536) (hbehind : ∀ s ∈ out, s.stop < start) :
    ∀ s ∈ pushRange start stop out, s.stop ≤ max start stop := by
  intro s hs
  unfold pushRange at hs
  split at hs
  · rename_i hlt
    rcases List.mem_cons.mp hs with rfl | hs
    · rw [Run.stop_ofBounds hlt hstop]
      omega
    · have := hbehind s hs
      omega
  · have := hbehind s hs
    omega

theorem covers_pushRange (hstop : stop ≤ 65536) (n : Nat) :
    covers (pushRange start stop out) n =
      (covers out n || decide (start ≤ n ∧ n < stop)) := by
  unfold pushRange
  split
  · rename_i hlt
    rw [covers_cons, Run.first_ofBounds (by omega), Run.stop_ofBounds hlt hstop, Bool.or_comm]
  · have : ¬(start ≤ n ∧ n < stop) := by omega
    rw [decide_eq_false this, Bool.or_false]

end PushRange

/-- A difference in progress: what is left of the run at hand, the runs after it, and the runs
made so far. -/
structure Cutting (start stop : Nat) (as out : List Run) : Prop where
  lt : start < stop
  le : stop ≤ 65536
  valid : ValidList as
  apart : ∀ a ∈ as, stop < a.first.toNat
  stacked : Stacked out
  behind : ∀ s ∈ out, s.stop < start

namespace Cutting

variable {start stop : Nat} {a : Run} {as out : List Run}

theorem head (h : ValidList (a :: as)) : Cutting a.first.toNat a.stop as [] :=
  ⟨a.first_lt_stop, h.head_inDomain, h.tail, h.apart, stacked_nil, by simp⟩

/-- The run at hand is done with after its values before `e` are kept. -/
theorem next (h : Cutting start stop (a :: as) out) {e : Nat} (he : e ≤ stop) :
    Cutting a.first.toNat a.stop as (pushRange start e out) := by
  have ha := h.apart a List.mem_cons_self
  have hlt := h.lt
  have hle := h.le
  refine ⟨a.first_lt_stop, h.valid.head_inDomain, h.valid.tail, h.valid.apart,
    stacked_pushRange (by omega) h.stacked h.behind, fun s hs => ?_⟩
  have := stop_pushRange (by omega) h.behind s hs
  omega

/-- Of the run at hand the values before `e` are kept, and those up to `start'` dropped. -/
theorem cut (h : Cutting start stop as out) {e start' : Nat} (he : e < start')
    (hstart : start < start') (hstop : start' < stop) :
    Cutting start' stop as (pushRange start e out) := by
  have hle := h.le
  refine ⟨hstop, h.le, h.valid, h.apart, stacked_pushRange (by omega) h.stacked h.behind,
    fun s hs => ?_⟩
  have := stop_pushRange (by omega) h.behind s hs
  omega

/-- The runs after the one at hand cover nothing up to its end. -/
theorem covers_rest (h : Cutting start stop as out) {n : Nat} (hn : n ≤ stop) :
    covers as n = false :=
  covers_eq_false_of_lt fun s hs => Nat.lt_of_le_of_lt hn (h.apart s hs)

/-- With nothing left to cut with, the run at hand and those after it are kept. -/
theorem stacked_rest (h : Cutting start stop as out) :
    Stacked (as.reverse ++ pushRange start stop out) := by
  have hpush := stacked_pushRange h.le h.stacked h.behind
  refine ⟨fun r hr => ?_, List.pairwise_append.mpr ⟨?_, hpush.2, fun r hr s hs => ?_⟩⟩
  · rcases List.mem_append.mp hr with hr | hr
    · exact h.valid.1 r (List.mem_reverse.mp hr)
    · exact hpush.1 r hr
  · exact List.pairwise_reverse.mpr h.valid.2
  · have := h.apart r (List.mem_reverse.mp hr)
    have := stop_pushRange h.le h.behind s hs
    have := h.lt
    unfold Apart
    omega

end Cutting

theorem diffFrom_spec (start stop : Nat) (as bs out : List Run) (h : Cutting start stop as out)
    (hb : ValidList bs) :
    Stacked (diffFrom start stop as bs out) ∧
      ∀ n, covers (diffFrom start stop as bs out) n =
        (covers out n ||
          ((decide (start ≤ n ∧ n < stop) || covers as n) && !covers bs n)) := by
  fun_induction diffFrom start stop as bs out with
  | case1 start stop as out =>
    -- nothing is left to cut with: the rest is kept as it is
    rw [← pushRange_of_lt h.lt]
    refine ⟨h.stacked_rest, fun n => ?_⟩
    rw [covers_append, covers_reverse, covers_pushRange h.le, covers_nil, Bool.not_false,
      Bool.and_true, Bool.or_left_comm, Bool.or_comm (covers as n)]
  | case2 start stop b bs out hle =>
    -- the run at hand, which is the last one, ends before the cut
    rw [← pushRange_of_lt h.lt]
    refine ⟨stacked_pushRange h.le h.stacked h.behind, fun n => ?_⟩
    have := hb.covers_tail (n := n)
    have := b.first_lt_stop
    rw [covers_pushRange h.le, covers_cons, covers_nil, Bool.not_or]
    grind
  | case3 start stop b bs out hle a as ih =>
    -- the run at hand ends before the cut, and the next one takes its place
    rw [← pushRange_of_lt h.lt] at ih ⊢
    obtain ⟨hstack, hcov⟩ := ih (h.next (Nat.le_refl _)) hb
    refine ⟨hstack, fun n => ?_⟩
    have := hb.covers_tail (n := n)
    have := b.first_lt_stop
    rw [hcov, covers_pushRange h.le, covers_cons, covers_cons, Bool.not_or]
    grind
  | case4 start stop as b bs out hle hle' ih =>
    -- the cut is over before the run at hand starts
    obtain ⟨hstack, hcov⟩ := ih h hb.tail
    refine ⟨hstack, fun n => ?_⟩
    have := h.covers_rest (n := n)
    have := h.lt
    rw [hcov, covers_cons, Bool.not_or]
    grind
  | case5 start stop as b bs out hle hle' out' hlt ih =>
    -- the cut leaves values behind it in the run at hand
    have hstart : start < b.stop := Nat.lt_of_not_le hle'
    obtain ⟨hstack, hcov⟩ := ih (h.cut b.first_lt_stop hstart hlt) hb.tail
    refine ⟨hstack, fun n => ?_⟩
    have := h.covers_rest (n := n)
    have := hb.covers_tail (n := n)
    have hout : covers out' n = (covers out n || decide (start ≤ n ∧ n < b.first.toNat)) :=
      covers_pushRange (Nat.le_of_lt b.first.toNat_lt) n
    have := b.first_lt_stop
    rw [hcov, hout, covers_cons, Bool.not_or]
    clear hcov ih
    grind
  | case6 start stop b bs out hle hle' out' hlt =>
    -- the cut takes all the rest of the last run
    have hdom : b.first.toNat ≤ 65536 := Nat.le_of_lt b.first.toNat_lt
    refine ⟨stacked_pushRange hdom h.stacked h.behind, fun n => ?_⟩
    have := hb.covers_tail (n := n)
    have hout : covers out' n = (covers out n || decide (start ≤ n ∧ n < b.first.toNat)) :=
      covers_pushRange hdom n
    rw [hout, covers_cons, covers_nil, Bool.not_or]
    grind
  | case7 start stop b bs out hle hle' out' hlt a as ih =>
    -- the cut takes all the rest of the run at hand and may reach into the next one
    obtain ⟨hstack, hcov⟩ := ih (h.next (Nat.le_of_lt (Nat.lt_of_not_le hle))) hb
    refine ⟨hstack, fun n => ?_⟩
    have := hb.covers_tail (n := n)
    have hout : covers out' n = (covers out n || decide (start ≤ n ∧ n < b.first.toNat)) :=
      covers_pushRange (Nat.le_of_lt b.first.toNat_lt) n
    rw [hcov, hout, covers_cons, covers_cons, Bool.not_or]
    grind

theorem diffList_spec {as bs : List Run} (ha : ValidList as) (hb : ValidList bs) :
    Stacked (diffList as bs) ∧
      ∀ n, covers (diffList as bs) n = (covers as n && !covers bs n) := by
  cases as with
  | nil => exact ⟨stacked_nil, by simp [diffList]⟩
  | cons a as =>
    obtain ⟨hstack, hcov⟩ := diffFrom_spec _ _ as bs [] (.head ha) hb
    refine ⟨hstack, fun n => ?_⟩
    rw [diffList, hcov, covers_nil, Bool.false_or, covers_cons]

theorem covers_single_of_lt {vs : List UInt16} {n : Nat} (h : ∀ w ∈ vs, n < w.toNat) :
    covers (vs.map .single) n = false := by
  refine covers_eq_false_of_lt fun s hs => ?_
  obtain ⟨w, hw, rfl⟩ := List.mem_map.mp hs
  exact h w hw

/-- The values past the range at hand are left for the runs that come after it. -/
theorem cutValues_spec (start stop : Nat) (vs : List UInt16) (out : List Run) (hle : start ≤ stop)
    (hstop : stop ≤ 65536) (hvs : vs.Pairwise (· < ·)) (h : Stacked out)
    (hbehind : ∀ s ∈ out, s.stop < start) :
    Stacked (cutValues start stop vs out).1 ∧
      (∀ s ∈ (cutValues start stop vs out).1, s.stop ≤ stop) ∧
      (∀ n, covers (cutValues start stop vs out).1 n =
        (covers out n || (decide (start ≤ n ∧ n < stop) && !covers (vs.map .single) n))) ∧
      (cutValues start stop vs out).2 = vs.dropWhile (·.toNat < stop) := by
  fun_induction cutValues start stop vs out with
  | case1 start out =>
    refine ⟨stacked_pushRange hstop h hbehind, fun s hs => ?_, fun n => ?_, rfl⟩
    · have := stop_pushRange hstop hbehind s hs
      omega
    · rw [List.map_nil, covers_nil, Bool.not_false, Bool.and_true]
      exact covers_pushRange hstop n
  | case2 start v vs out hv =>
    -- the next value is past the range
    refine ⟨stacked_pushRange hstop h hbehind, fun s hs => ?_, fun n => ?_, ?_⟩
    · have := stop_pushRange hstop hbehind s hs
      omega
    · have hpast : n < stop → covers ((v :: vs).map .single) n = false := fun hn =>
        covers_single_of_lt fun w hw => by
          rcases List.mem_cons.mp hw with rfl | hw
          · omega
          · have := UInt16.lt_iff_toNat_lt.mp ((List.pairwise_cons.mp hvs).1 w hw)
            omega
      have hout : covers (pushRange start stop out) n = _ := covers_pushRange hstop n
      refine hout.trans ?_
      grind
    · rw [List.dropWhile_cons_of_neg (by simpa using hv)]
  | case3 start v vs out hv hlt ih =>
    -- the next value comes before what is left of the range
    obtain ⟨hstack, hends, hcov, hrest⟩ := ih hle hvs.of_cons h hbehind
    refine ⟨hstack, hends, fun n => ?_, ?_⟩
    · rw [hcov, List.map_cons, covers_cons, Run.first_single, Run.stop_single, Bool.not_or]
      clear hcov ih
      grind
    · rw [List.dropWhile_cons_of_pos (by simpa using hv)]
      exact hrest
  | case4 start v vs out hv hlt ih =>
    -- the next value ends a piece of the range
    have hv := Nat.lt_of_not_le hv
    have hdom := Nat.le_of_lt v.toNat_lt
    obtain ⟨hstack, hends, hcov, hrest⟩ := ih hv hvs.of_cons (stacked_pushRange hdom h hbehind)
      fun s hs => by have := stop_pushRange hdom hbehind s hs; omega
    refine ⟨hstack, hends, fun n => ?_, ?_⟩
    · have hout : covers (pushRange start v.toNat out) n = _ := covers_pushRange hdom n
      have hpast : n ≤ v.toNat → covers (vs.map .single) n = false := fun hn =>
        covers_single_of_lt fun w hw =>
          Nat.lt_of_le_of_lt hn (UInt16.lt_iff_toNat_lt.mp ((List.pairwise_cons.mp hvs).1 w hw))
      refine (hcov n).trans ?_
      rw [List.map_cons, covers_cons, Run.first_single, Run.stop_single, Bool.not_or]
      clear hcov ih
      unfold pushRange at hout
      rw [hout]
      grind
    · rw [List.dropWhile_cons_of_pos (by simpa using hv)]
      exact hrest

theorem diffValuesFrom_spec (rs : List Run) (vs : List UInt16) (out : List Run)
    (hrs : ValidList rs) (hvs : vs.Pairwise (· < ·)) (h : Stacked out)
    (hbehind : ∀ s ∈ out, ∀ r ∈ rs, s.stop < r.first.toNat) :
    Stacked (diffValuesFrom rs vs out) ∧
      ∀ n, covers (diffValuesFrom rs vs out) n =
        (covers out n || (covers rs n && !covers (vs.map .single) n)) := by
  induction rs generalizing vs out with
  | nil => exact ⟨h, by simp [diffValuesFrom]⟩
  | cons r rs ih =>
    obtain ⟨hstack, hends, hcov, hrest⟩ := cutValues_spec r.first.toNat r.stop vs out
      (Nat.le_of_lt r.first_lt_stop) hrs.head_inDomain hvs h
      fun s hs => hbehind s hs r List.mem_cons_self
    rcases hcut : cutValues r.first.toNat r.stop vs out with ⟨out', vs'⟩
    simp only [hcut] at hstack hends hcov hrest
    obtain ⟨hstack', hcov'⟩ := ih vs' out' hrs.tail
      (hrest ▸ hvs.sublist (List.dropWhile_sublist _)) hstack
      fun s hs t ht => Nat.lt_of_le_of_lt (hends s hs) (hrs.apart t ht)
    simp only [diffValuesFrom, hcut]
    refine ⟨hstack', fun n => ?_⟩
    -- the values passed with this run are in no later one
    have hpast : r.stop ≤ n → covers (vs'.map .single) n = covers (vs.map .single) n := by
      intro hn
      rw [hrest, covers_single, covers_single, decide_eq_decide, List.mem_map, List.mem_map]
      refine ⟨fun ⟨w, hw, he⟩ => ⟨w, (List.dropWhile_sublist _).mem hw, he⟩, ?_⟩
      rintro ⟨w, hw, rfl⟩
      rw [← List.takeWhile_append_dropWhile (p := fun x : UInt16 => x.toNat < r.stop) (l := vs),
        List.mem_append] at hw
      rcases hw with hw | hw
      · have hlt := List.mem_takeWhile_imp (p := fun x : UInt16 => x.toNat < r.stop) hw
        have := of_decide_eq_true hlt
        omega
      · exact ⟨w, hw, rfl⟩
    have := hrs.covers_tail (n := n)
    rw [hcov', hcov, covers_cons]
    clear ih hcov hcov'
    grind

/-! ## Run arrays -/

section Arrays

variable {a b : Array Run}

theorem union_spec (ha : Valid a) (hb : Valid b) :
    Valid (union a b) ∧
      ∀ n, covers (union a b).toList n = (covers a.toList n || covers b.toList n) := by
  obtain ⟨hstack, hcov⟩ := unionList_spec ha.ordered hb.ordered
  exact ⟨valid_finish hstack, fun n => (covers_finish _ n).trans (hcov n)⟩

theorem symmDiff_spec (ha : Valid a) (hb : Valid b) :
    Valid (symmDiff a b) ∧
      ∀ n, covers (symmDiff a b).toList n = (covers a.toList n ^^ covers b.toList n) := by
  obtain ⟨hstack, hcov⟩ := symmDiffList_spec ha.ordered hb.ordered
  exact ⟨valid_finish hstack, fun n => (covers_finish _ n).trans (hcov n)⟩

theorem inter_spec (ha : Valid a) (hb : Valid b) :
    Valid (inter a b) ∧
      ∀ n, covers (inter a b).toList n = (covers a.toList n && covers b.toList n) := by
  obtain ⟨hstack, hcov⟩ := interFrom_spec _ _ [] ha hb stacked_nil (by simp [Behind])
  exact ⟨valid_finish hstack, fun n => (covers_finish _ n).trans ((hcov n).trans (by simp))⟩

theorem diff_spec (ha : Valid a) (hb : Valid b) :
    Valid (diff a b) ∧
      ∀ n, covers (diff a b).toList n = (covers a.toList n && !covers b.toList n) := by
  obtain ⟨hstack, hcov⟩ := diffList_spec ha hb
  exact ⟨valid_finish hstack, fun n => (covers_finish _ n).trans (hcov n)⟩

variable {vs : Array UInt16}

theorem unionValues_spec (ha : Valid a) (hvs : Sorted.Increasing vs) :
    Valid (unionValues a vs) ∧
      ∀ v : UInt16, covers (unionValues a vs).toList v.toNat =
        (covers a.toList v.toNat || decide (v ∈ vs)) := by
  obtain ⟨hstack, hcov⟩ := unionList_spec ha.ordered (ordered_single hvs)
  refine ⟨valid_finish hstack, fun v => ?_⟩
  rw [unionValues, covers_finish, hcov, covers_single_toNat]
  simp

theorem symmDiffValues_spec (ha : Valid a) (hvs : Sorted.Increasing vs) :
    Valid (symmDiffValues a vs) ∧
      ∀ v : UInt16, covers (symmDiffValues a vs).toList v.toNat =
        (covers a.toList v.toNat ^^ decide (v ∈ vs)) := by
  obtain ⟨hstack, hcov⟩ := symmDiffList_spec ha.ordered (ordered_single hvs)
  refine ⟨valid_finish hstack, fun v => ?_⟩
  rw [symmDiffValues, covers_finish, hcov, covers_single_toNat]
  simp

theorem diffValues_spec (ha : Valid a) (hvs : Sorted.Increasing vs) :
    Valid (diffValues a vs) ∧
      ∀ v : UInt16, covers (diffValues a vs).toList v.toNat =
        (covers a.toList v.toNat && !decide (v ∈ vs)) := by
  obtain ⟨hstack, hcov⟩ := diffValuesFrom_spec _ _ [] ha hvs stacked_nil (by simp)
  refine ⟨valid_finish hstack, fun v => ?_⟩
  rw [diffValues, covers_finish, hcov, covers_single_toNat]
  simp

end Arrays

end Roaring.Runs
