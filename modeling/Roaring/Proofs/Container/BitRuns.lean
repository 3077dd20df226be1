import Roaring.Proofs.Checked.Container.Convert
import Roaring.Proofs.Runs.Edit

/-!
# The maximal runs of a bitset

A run is maximal for a set of values when it lies in the set and no value of the set is next to it
on either side. Two maximal runs of a set that share a value are one, so the runs of a valid list
are the maximal ones of the values it covers, and a set has one such list. The walk over the words
of a bitset comes to this list, as appending the values one by one does, and it comes to as many
runs as were counted before it began.
-/
namespace Roaring

namespace Run

theorem eq_of_bounds {a b : Run} (hfirst : a.first.toNat = b.first.toNat)
    (hstop : a.stop = b.stop) : a = b := by
  rw [← a.ofBounds_first_stop, ← b.ofBounds_first_stop, hfirst, hstop]

/-- Every value of the run is in the set, and none next to it is. -/
structure Maximal (p : UInt16 → Prop) (r : Run) : Prop where
  inDomain : r.InDomain
  within : ∀ v : UInt16, r.Holds v.toNat → p v
  before : ∀ v : UInt16, v.toNat + 1 = r.first.toNat → ¬p v
  after : ∀ v : UInt16, v.toNat = r.stop → ¬p v

section Maximal

variable {p : UInt16 → Prop} {a b : Run} {n : Nat}

theorem Maximal.first_le (ha : a.Maximal p) (hb : b.Maximal p) (hna : a.Holds n)
    (hnb : b.Holds n) : a.first.toNat ≤ b.first.toNat := by
  obtain ⟨hlo, -⟩ := hna
  obtain ⟨-, hhi⟩ := hnb
  by_contra hgt
  have hlt := a.first.toNat_lt
  have hv := toNat_toUInt16 (n := a.first.toNat - 1) (by omega)
  have hheld : b.Holds (a.first.toNat - 1).toUInt16.toNat := ⟨by omega, by omega⟩
  exact ha.before _ (by omega) (hb.within _ hheld)

theorem Maximal.stop_le (ha : a.Maximal p) (hb : b.Maximal p) (hna : a.Holds n)
    (hnb : b.Holds n) : a.stop ≤ b.stop := by
  obtain ⟨hlo, -⟩ := hna
  obtain ⟨-, hhi⟩ := hnb
  by_contra hgt
  have hdom : a.stop ≤ 65536 := ha.inDomain
  have hv := toNat_toUInt16 (n := b.stop) (by omega)
  have hheld : a.Holds b.stop.toUInt16.toNat := ⟨by omega, by omega⟩
  exact hb.after _ hv (ha.within _ hheld)

/-- Maximal runs that share a value are one. -/
theorem Maximal.eq_of_holds (ha : a.Maximal p) (hb : b.Maximal p) (hna : a.Holds n)
    (hnb : b.Holds n) : a = b :=
  eq_of_bounds (Nat.le_antisymm (ha.first_le hb hna hnb) (hb.first_le ha hnb hna))
    (Nat.le_antisymm (ha.stop_le hb hna hnb) (hb.stop_le ha hnb hna))

end Maximal

end Run

namespace Runs

variable {rs : Array Run} {r : Run}

/-- Runs of a valid list never touch, so nothing next to a run is covered. -/
theorem maximal_of_mem (h : Valid rs) (hr : r ∈ rs) :
    r.Maximal fun v => covers rs.toList v.toNat := by
  have hr := Array.mem_toList_iff.mpr hr
  obtain ⟨before, after, hsplit⟩ := List.append_of_mem hr
  rw [Valid, hsplit] at h
  obtain ⟨hdom, hbefore, hafter, -⟩ := validList_middle.mp h
  have hlt := r.first_lt_stop
  have hbeside : ∀ n, n + 1 = r.first.toNat ∨ n = r.stop → ¬covers rs.toList n := by
    intro n hn hcov
    obtain ⟨s, hs, hlo, hhi⟩ := covers_iff.mp hcov
    rw [hsplit, List.mem_append, List.mem_cons] at hs
    rcases hs with hs | rfl | hs
    · have := hbefore s hs
      omega
    · omega
    · have := hafter s hs
      omega
  exact ⟨hdom, fun v hv => covers_iff.mpr ⟨r, hr, hv⟩, fun v hv => hbeside _ (.inl hv),
    fun v hv => hbeside _ (.inr hv)⟩

/-- The runs of a valid list are the maximal ones of what it covers. -/
theorem mem_iff_maximal (h : Valid rs) (r : Run) :
    r ∈ rs ↔ r.Maximal fun v => covers rs.toList v.toNat := by
  refine ⟨maximal_of_mem h, fun hr => ?_⟩
  have hfirst : r.Holds r.first.toNat := ⟨Nat.le_refl _, r.first_lt_stop⟩
  obtain ⟨s, hs, hheld⟩ := covers_iff.mp (hr.within r.first hfirst)
  have hs := Array.mem_toList_iff.mp hs
  exact hr.eq_of_holds (maximal_of_mem h hs) hfirst hheld ▸ hs

end Runs

namespace Words

theorem mem_runs_iff (ws : Words) (r : Run) : r ∈ ws.runs ↔ r.Maximal fun v => ws.test v := by
  obtain ⟨hvalid, hcov⟩ := runs_spec ws
  simp only [Runs.mem_iff_maximal hvalid, hcov]

/-- The walk over the words and the walk over the values come to the same list. -/
theorem runs_eq_ofValues (ws : Words) : ws.runs = Runs.ofValues ws.values := by
  obtain ⟨hvalid, hcov⟩ := runs_spec ws
  obtain ⟨hvalid', hcov'⟩ := Runs.ofValues_spec (increasing_values ws)
  exact hvalid.eq_of_values hvalid' fun v => by rw [hcov, hcov', mem_values]

/-- The runs are counted by their ends, before the walk that lists them. -/
theorem size_runs (ws : Words) : ws.runs.size = ws.numRuns := by
  have hinc := increasing_values ws
  rw [runs_eq_ofValues, Runs.size_ofValues hinc, Sorted.numRuns_eq hinc, numRuns_eq]

end Words

namespace Container

/-- The conversion of any bitset to runs goes through and comes to exactly the maximal runs of its
bits, in order, which is also what its ascending values come to one by one. As many runs are put
into the list as room was made for, and that room is never refused. -/
theorem bits_to_maximal_runs (b : Bitset) :
    ∃ rs, convert? .run (bitset b) = some (run rs) ∧
      Checked.convert .run (bitset b) = some (run rs) ∧
      Runs.Valid rs ∧ (∀ r, r ∈ rs ↔ r.Maximal fun v => b.contains v) ∧
      rs = Runs.ofValues b.words.values ∧ Runs.Checked.ofValues b.words.values = some rs ∧
      rs.size = b.words.numRuns ∧ Words.Checked.numRuns b.words = some rs.size ∧
      withCapacity .run rs.size = .ok (run #[]) := by
  have hvalid := (Words.runs_spec b.words).1
  have hvalues := Words.runs_eq_ofValues b.words
  have hsize := Words.size_runs b.words
  have hle := Runs.size_le hvalid
  have hroom : Storage.reserve .run 0 b.words.runs.size = .ok () := by
    rw [Storage.reserve_eq_ok_iff, Storage.elementBytes, Storage.maxBytes]
    omega
  refine ⟨b.words.runs, unlessOverrun_of_valid Runs.validList_nil _,
    Machine.bind_of_eq (Checked.runsOfBits_eq b) _, hvalid, Words.mem_runs_iff b.words, hvalues, ?_,
    hsize, ?_, ?_⟩
  · rw [Runs.Checked.ofValues_eq (Words.increasing_values b.words), hvalues]
  · rw [Words.Checked.numRuns_eq, hsize]
  · rw [withCapacity, hroom]
    rfl

end Container

end Roaring
