import Roaring.Proofs.Runs.Cover
import Roaring.Runs.Tracker

/-!
# Membership by tracking

A run that ends before a query covers no later query, so for ascending queries dropping it changes
no answer: the answers of a tracker are those of the whole list. What is built from a tracker, the
values that the runs hold or lack and whether they hold them all, is read off its answers.
-/
namespace Roaring.Runs

theorem ValidList.dropWhile {rs : List Run} (h : ValidList rs) (p : Run → Bool) :
    ValidList (rs.dropWhile p) :=
  ⟨fun r hr => h.1 r ((List.dropWhile_sublist p).mem hr), h.2.sublist (List.dropWhile_sublist p)⟩

/-- The runs dropped on the way to a query cover nothing from there on. -/
theorem covers_dropWhile (rs : List Run) {v n : Nat} (hn : v ≤ n) :
    covers (rs.dropWhile (·.last < v)) n = covers rs n := by
  induction rs with
  | nil => rfl
  | cons r rs ih =>
    by_cases hr : r.last < v
    · have hover : ¬(r.first.toNat ≤ n ∧ n < r.stop) := by
        unfold Run.stop
        omega
      rw [List.dropWhile_cons_of_pos (by simpa using hr), ih, covers_cons, decide_eq_false hover,
        Bool.false_or]
    · rw [List.dropWhile_cons_of_neg (by simpa using hr)]

namespace Tracker

theorem valid_seek {t : Tracker} (h : ValidList t.ahead) (v : UInt16) :
    ValidList (t.seek v).ahead := h.dropWhile _

theorem atHead_seek {t : Tracker} (h : ValidList t.ahead) (v : UInt16) :
    (t.seek v).atHead v = covers t.ahead v.toNat := by
  have hvalid := valid_seek h v
  rw [seek] at hvalid
  rw [← covers_dropWhile t.ahead (Nat.le_refl v.toNat), atHead, seek]
  dsimp only
  split
  · rename_i heq
    rw [heq, covers_nil]
  · rename_i r rs heq
    rw [heq] at hvalid
    have hr : ¬r.last < v.toNat := by
      have := List.head?_dropWhile_not (fun r : Run => decide (r.last < v.toNat)) t.ahead
      simpa [heq] using this
    rw [heq, covers_cons]
    by_cases hle : r.first ≤ v
    · have hin : r.first.toNat ≤ v.toNat ∧ v.toNat < r.stop := by
        rw [UInt16.le_iff_toNat_le] at hle
        unfold Run.stop
        omega
      rw [decide_eq_true hle, decide_eq_true hin, Bool.true_or]
    · have hlt : v.toNat < r.first.toNat := by
        rw [UInt16.le_iff_toNat_le] at hle
        omega
      have hout : ¬(r.first.toNat ≤ v.toNat ∧ v.toNat < r.stop) := by omega
      have hrest : covers rs v.toNat = false :=
        hvalid.covers_tail (Nat.le_of_lt (Nat.lt_trans hlt r.first_lt_stop))
      rw [decide_eq_false hle, decide_eq_false hout, hrest, Bool.or_false]

/-- The tracker left by a query answers those that do not go back as the one before it would. -/
theorem covers_seek (t : Tracker) {v w : UInt16} (h : v ≤ w) :
    covers (t.seek v).ahead w.toNat = covers t.ahead w.toNat :=
  covers_dropWhile t.ahead (UInt16.le_iff_toNat_le.mp h)

/-- The answers to queries in turn, each by the tracker that the one before left. -/
def answers : Tracker → List UInt16 → List Bool
  | _, [] => []
  | t, v :: vs =>
    let (held, t) := t.query v
    held :: answers t vs

theorem answers_eq {t : Tracker} {vs : List UInt16} (h : ValidList t.ahead)
    (hvs : vs.Pairwise (· ≤ ·)) : t.answers vs = vs.map fun v => covers t.ahead v.toNat := by
  induction vs generalizing t with
  | nil => rfl
  | cons v vs ih =>
    obtain ⟨hle, hvs⟩ := List.pairwise_cons.mp hvs
    have hsame : (vs.map fun w => covers (t.seek v).ahead w.toNat) =
        vs.map fun w => covers t.ahead w.toNat :=
      List.map_congr_left fun w hw => t.covers_seek (hle w hw)
    rw [answers, query]
    dsimp only
    rw [ih (valid_seek h v) hvs, hsame, atHead_seek h, List.map_cons]

theorem filterInto_eq (keep : Bool) (t : Tracker) (vs : List UInt16) (out : Array UInt16) :
    (filterInto keep t vs out).toList =
      out.toList ++ ((vs.zip (t.answers vs)).filter (·.2 == keep)).map (·.1) := by
  induction vs generalizing t out with
  | nil => simp [filterInto]
  | cons v vs ih =>
    rw [filterInto, answers]
    dsimp only
    rw [ih, List.zip_cons_cons, List.filter_cons]
    by_cases hk : (t.query v).1 = keep
    · simp [hk]
    · simp [hk]

theorem all_eq (t : Tracker) (vs : List UInt16) : t.all vs = (t.answers vs).all id := by
  induction vs generalizing t with
  | nil => rfl
  | cons v vs ih =>
    rw [all, answers]
    dsimp only
    rw [ih, List.all_cons, id]

theorem toList_filterInto (keep : Bool) (t : Tracker) (vs : List UInt16) (out : Array UInt16)
    (h : ValidList t.ahead) (hvs : vs.Pairwise (· < ·)) :
    (filterInto keep t vs out).toList =
      out.toList ++ vs.filter fun v => covers t.ahead v.toNat == keep := by
  have hzip : vs.zip (vs.map fun v => covers t.ahead v.toNat) =
      vs.map fun v => (v, covers t.ahead v.toNat) := by
    simpa using List.zip_map' (f := id)
  rw [filterInto_eq, answers_eq h (hvs.imp Std.le_of_lt), hzip, List.filter_map, List.map_map]
  exact congrArg (out.toList ++ ·) (List.map_id _)

theorem all_iff {t : Tracker} {vs : List UInt16} (h : ValidList t.ahead)
    (hvs : vs.Pairwise (· < ·)) : t.all vs ↔ ∀ v ∈ vs, covers t.ahead v.toNat := by
  rw [all_eq, answers_eq h (hvs.imp Std.le_of_lt)]
  simp

end Tracker

theorem keepHeld_eq {runs : Array Run} {vs : Array UInt16} (h : Valid runs)
    (hvs : Sorted.Increasing vs) :
    keepHeld runs vs = vs.filter fun v => covers runs.toList v.toNat := by
  rw [← Array.toList_inj, keepHeld, Tracker.toList_filterInto true ⟨runs.toList⟩ _ _ h hvs]
  simp

theorem dropHeld_eq {runs : Array Run} {vs : Array UInt16} (h : Valid runs)
    (hvs : Sorted.Increasing vs) :
    dropHeld runs vs = vs.filter fun v => !covers runs.toList v.toNat := by
  rw [← Array.toList_inj, dropHeld, Tracker.toList_filterInto false ⟨runs.toList⟩ _ _ h hvs]
  simp

end Roaring.Runs
