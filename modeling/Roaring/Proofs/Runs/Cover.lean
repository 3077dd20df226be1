import Mathlib.Data.List.Sort
import Roaring.Proofs.Bitset
import Roaring.Runs.Append
import Roaring.Runs.Basic

/-!
# What a run list covers

A run list stands for the numbers that its runs hold. For a valid one these are its values, listed
in ascending order and as many as `card` counts.
-/
namespace Roaring

namespace Run

@[simp] theorem first_single (v : UInt16) : (single v).first = v := rfl

@[simp] theorem stop_single (v : UInt16) : (single v).stop = v.toNat + 1 := rfl

theorem inDomain_single (v : UInt16) : (single v).InDomain := v.toNat_lt

theorem inDomain_ofBounds {start stop : Nat} (h : start < stop) (h' : stop ≤ 65536) :
    (ofBounds start stop).InDomain := by
  rw [InDomain, stop_ofBounds h h']
  exact h'

end Run

namespace Runs

/-- Whether one of the runs holds a number. -/
def covers (runs : List Run) (n : Nat) : Bool := runs.any fun r => decide (r.Holds n)

@[simp] theorem covers_nil (n : Nat) : covers [] n = false := rfl

@[simp] theorem covers_cons (r : Run) (runs : List Run) (n : Nat) :
    covers (r :: runs) n = (decide (r.first.toNat ≤ n ∧ n < r.stop) || covers runs n) := rfl

@[simp] theorem covers_append (as bs : List Run) (n : Nat) :
    covers (as ++ bs) n = (covers as n || covers bs n) := List.any_append

@[simp] theorem covers_reverse (runs : List Run) (n : Nat) :
    covers runs.reverse n = covers runs n := List.any_reverse

theorem covers_iff {runs : List Run} {n : Nat} :
    covers runs n ↔ ∃ r ∈ runs, r.first.toNat ≤ n ∧ n < r.stop := by
  simp only [covers, List.any_eq_true, decide_eq_true_iff]
  exact Iff.rfl

theorem covers_eq_false_of_lt {runs : List Run} {n : Nat} (h : ∀ r ∈ runs, n < r.first.toNat) :
    covers runs n = false := by
  rw [Bool.eq_false_iff, ne_eq, covers_iff]
  rintro ⟨r, hr, hle, -⟩
  have := h r hr
  omega

theorem covers_eq_false_of_ge {runs : List Run} {n : Nat} (h : ∀ r ∈ runs, r.stop ≤ n) :
    covers runs n = false := by
  rw [Bool.eq_false_iff, ne_eq, covers_iff]
  rintro ⟨r, hr, -, hlt⟩
  have := h r hr
  omega

theorem covers_single (vs : List UInt16) (n : Nat) :
    covers (vs.map .single) n = decide (n ∈ vs.map UInt16.toNat) := by
  rw [Bool.eq_iff_iff, covers_iff, decide_eq_true_iff]
  simp only [List.mem_map, exists_exists_and_eq_and, Run.first_single, Run.stop_single]
  refine exists_congr fun v => and_congr_right fun _ => ?_
  omega

theorem covers_single_toNat (vs : List UInt16) (v : UInt16) :
    covers (vs.map .single) v.toNat = decide (v ∈ vs) := by
  rw [covers_single, decide_eq_decide]
  simp [UInt16.toNat_inj]

/-! ## Valid lists -/

theorem validList_nil : ValidList [] := ⟨by simp, List.Pairwise.nil⟩

theorem ValidList.tail {r : Run} {runs : List Run} (h : ValidList (r :: runs)) :
    ValidList runs :=
  ⟨fun s hs => h.1 s (List.mem_cons_of_mem _ hs), h.2.of_cons⟩

theorem ValidList.apart {r : Run} {runs : List Run} (h : ValidList (r :: runs)) :
    ∀ s ∈ runs, r.stop < s.first.toNat :=
  (List.pairwise_cons.mp h.2).1

theorem ValidList.head_inDomain {r : Run} {runs : List Run} (h : ValidList (r :: runs)) :
    r.stop ≤ 65536 :=
  h.1 r List.mem_cons_self

/-- Past the first run of a valid list, only the others cover anything. -/
theorem ValidList.covers_tail {r : Run} {runs : List Run} (h : ValidList (r :: runs)) {n : Nat}
    (hn : n ≤ r.stop) : covers runs n = false :=
  covers_eq_false_of_lt fun s hs => Nat.lt_of_le_of_lt hn (h.apart s hs)

theorem separated_iff (runs : List Run) : separated runs ↔ runs.Pairwise Apart := by
  induction runs with
  | nil => simp [separated]
  | cons a rs ih =>
    cases rs with
    | nil => simp [separated]
    | cons b rs =>
      have hb := b.first_lt_stop
      simp only [separated, Bool.and_eq_true, decide_eq_true_eq, ih]
      rw [List.pairwise_cons (a := a)]
      refine ⟨fun ⟨hab, h⟩ => ⟨?_, h⟩, fun ⟨hab, h⟩ => ⟨hab b List.mem_cons_self, h⟩⟩
      intro s hs
      rcases List.mem_cons.mp hs with rfl | hs
      · exact hab
      · have hbs : b.stop < s.first.toNat := List.rel_of_pairwise_cons h hs
        show a.stop < s.first.toNat
        omega

/-- The check of a run array decides its invariant. -/
theorem isValid_iff (runs : Array Run) : isValid runs ↔ Valid runs := by
  rw [isValid, Bool.and_eq_true, inDomain_iff, separated_iff, Valid, ValidList]
  simp only [Array.mem_toList_iff]

/-! ## Values -/

theorem toList_consecutiveInto (v n : Nat) (out : Array UInt16) :
    (consecutiveInto v n out).toList = out.toList ++ (List.range' v n).map Nat.toUInt16 := by
  induction n generalizing v out with
  | zero => simp [consecutiveInto]
  | succ n ih => simp [consecutiveInto, ih, List.range'_succ]

/-- The values of a run in ascending order. -/
def runValues (r : Run) : List UInt16 := (List.range' r.first.toNat r.card).map Nat.toUInt16

theorem toList_values (runs : Array Run) :
    (values runs).toList = runs.toList.flatMap runValues := by
  suffices h : ∀ (l : List Run) (out : Array UInt16),
      (l.foldl (fun out r => consecutiveInto r.first.toNat r.card out) out).toList =
        out.toList ++ l.flatMap runValues by
    rw [values, ← Array.foldl_toList, h]
    rfl
  intro l
  induction l with
  | nil => simp
  | cons r l ih =>
    intro out
    rw [List.foldl_cons, ih, toList_consecutiveInto, List.flatMap_cons, List.append_assoc]
    rfl

theorem size_values (runs : Array Run) : (values runs).size = card runs := by
  have h : ∀ (l : List Run) (n : Nat),
      l.foldl (fun n r => n + r.card) n = n + (l.flatMap runValues).length := by
    intro l
    induction l with
    | nil => simp
    | cons r l ih => intro n; simp [ih, runValues, Nat.add_assoc]
  rw [← Array.length_toList, toList_values, card, ← Array.foldl_toList, h, Nat.zero_add]

theorem mem_runValues {r : Run} (h : r.InDomain) (v : UInt16) :
    v ∈ runValues r ↔ r.first.toNat ≤ v.toNat ∧ v.toNat < r.stop := by
  have hstop : r.stop ≤ 65536 := h
  have heq := r.stop_eq
  simp only [runValues, List.mem_map, List.mem_range'_1]
  constructor
  · rintro ⟨n, hn, rfl⟩
    rw [toNat_toUInt16 (by omega)]
    omega
  · intro hv
    exact ⟨v.toNat, by omega, UInt16.toNat_inj.mp (toNat_toUInt16 v.toNat_lt)⟩

theorem pairwise_runValues {r : Run} (h : r.InDomain) : (runValues r).Pairwise (· < ·) := by
  have hstop : r.stop ≤ 65536 := h
  have heq := r.stop_eq
  refine List.pairwise_map.mpr (List.Pairwise.imp_of_mem ?_ (List.pairwise_lt_range' _))
  intro i j hi hj hij
  have hi := List.mem_range'_1.mp hi
  have hj := List.mem_range'_1.mp hj
  rw [UInt16.lt_iff_toNat_lt, toNat_toUInt16 (by omega), toNat_toUInt16 (by omega)]
  exact hij

theorem mem_values {runs : Array Run} (h : Valid runs) (v : UInt16) :
    v ∈ values runs ↔ covers runs.toList v.toNat := by
  rw [← Array.mem_toList_iff, toList_values, List.mem_flatMap, covers_iff]
  exact exists_congr fun r => and_congr_right fun hr => mem_runValues (h.1 r hr) v

theorem increasing_values {runs : Array Run} (h : Valid runs) :
    Sorted.Increasing (values runs) := by
  rw [Sorted.Increasing, toList_values]
  obtain ⟨hdom, hapart⟩ := h
  generalize runs.toList = l at hdom hapart
  induction l with
  | nil => exact List.Pairwise.nil
  | cons r l ih =>
    have hr := hdom r List.mem_cons_self
    have hl : ∀ s ∈ l, s.InDomain := fun s hs => hdom s (List.mem_cons_of_mem _ hs)
    rw [List.flatMap_cons, List.pairwise_append]
    refine ⟨pairwise_runValues hr, ih hl hapart.of_cons, fun v hv w hw => ?_⟩
    obtain ⟨s, hs, hw⟩ := List.mem_flatMap.mp hw
    have hv := (mem_runValues hr v).mp hv
    have hw := (mem_runValues (hl s hs) w).mp hw
    have hrs : r.stop < s.first.toNat := (List.pairwise_cons.mp hapart).1 s hs
    rw [UInt16.lt_iff_toNat_lt]
    omega

/-! ## The full domain and ranges -/

theorem isFull_iff (runs : Array Run) : isFull runs ↔ runs = #[Run.whole] := by
  simp [isFull]

theorem covers_whole {n : Nat} (h : n < 65536) : covers (#[Run.whole] : Array Run).toList n := by
  simp [Run.whole, Run.stop, Run.last, h]

theorem valid_ofRange (start stop : Nat) : Valid (ofRange start stop) := by
  unfold ofRange
  split
  · refine ⟨fun r hr => ?_, List.pairwise_singleton _ _⟩
    rw [List.mem_singleton.mp hr]
    exact Run.inDomain_ofBounds ‹_› (Nat.min_le_right _ _)
  · exact validList_nil

theorem covers_ofRange (start stop : Nat) {n : Nat} (hn : n < 65536) :
    covers (ofRange start stop).toList n = decide (start ≤ n ∧ n < stop) := by
  unfold ofRange
  split
  · rename_i h
    rw [covers_cons, Run.first_ofBounds (by omega), Run.stop_ofBounds h (by omega)]
    simp [hn]
  · simp
    omega

end Runs

end Roaring
