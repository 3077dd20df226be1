import Roaring.Proofs.Checked.Container.Update
import Roaring.Proofs.Container.Range
import Roaring.Proofs.Container.Update

/-!
# Ranges whatever their bounds

The bounds of a range may lie past the domain or stand the wrong way round. Asking for a range that
goes on past the domain is asking for values that no container holds, so the answer is no; but a
change by such a range is a change by the values that are left of it, and a change by no values
leaves the container as it is, down to an unknown size.
-/
namespace Roaring.Container

variable {t : Thresholds} {c : Container} {start stop : Nat}

/-- The first value of a range is the one to look at. -/
theorem exists_between_iff :
    (∃ v : UInt16, start ≤ v.toNat ∧ v.toNat < stop) ↔ start < min stop domainSize := by
  rw [domainSize]
  constructor
  · rintro ⟨v, hlo, hhi⟩
    have := v.toNat_lt
    omega
  · intro hlt
    refine ⟨start.toUInt16, ?_⟩
    rw [toNat_toUInt16 (by omega)]
    omega

/-! ## Asking for a range -/

theorem containsRange_of_ge (c : Container) (h : stop ≤ start) : c.containsRange start stop := by
  cases c with
  | array vs => exact if_pos h
  | bitset b => exact if_pos h
  | run rs => exact if_pos h

theorem containsRange_past (c : Container) (hlt : start < stop) (hpast : 65536 < stop) :
    c.containsRange start stop = false := by
  have hne : ¬stop ≤ start := Nat.not_le.mpr hlt
  cases c with
  | array vs => exact (if_neg hne).trans (if_pos hpast)
  | bitset b => exact (if_neg hne).trans (if_pos hpast)
  | run rs => exact (if_neg hne).trans (if_pos hpast)

/-- Asking for a range always has an answer, in every encoding. It is yes exactly when the range is
empty, or lies in the domain and each of its values is contained. -/
theorem containsRange_any_bounds (c : Container) (start stop : Nat) (h : c.Valid) :
    Checked.containsRange c start stop = some (c.containsRange start stop) ∧
      (c.containsRange start stop ↔ stop ≤ start ∨
        stop ≤ 65536 ∧ ∀ v : UInt16, start ≤ v.toNat → v.toNat < stop → c.contains v) := by
  refine ⟨Checked.containsRange_eq h start stop, ?_⟩
  simp only [contains_iff h]
  rcases Nat.lt_or_ge start stop with hlt | hge
  · have hne : ¬stop ≤ start := Nat.not_le.mpr hlt
    rw [or_iff_right hne]
    rcases Nat.lt_or_ge 65536 stop with hpast | hin
    · rw [containsRange_past c hlt hpast]
      exact iff_of_false Bool.false_ne_true fun hall => absurd hall.1 (Nat.not_le.mpr hpast)
    · rw [containsRange_iff h hin, and_iff_right hin]
  · exact iff_of_true (containsRange_of_ge c hge) (.inl hge)

/-- Runs up to the last value of the domain: a range that fills a run, one with a value more, one
that goes on past the domain, and one that is reversed there. -/
theorem containsRange_any_bounds_at_end :
    (run #[⟨62, 3⟩, ⟨65534, 1⟩]).Valid ∧
      (run #[⟨62, 3⟩, ⟨65534, 1⟩]).containsRange 65534 65536 ∧
      ¬(run #[⟨62, 3⟩, ⟨65534, 1⟩]).containsRange 62 67 ∧
      ¬(run #[⟨62, 3⟩, ⟨65534, 1⟩]).containsRange 65534 65537 ∧
      (run #[⟨62, 3⟩, ⟨65534, 1⟩]).containsRange 4294967295 70000 := by
  have h : (run #[⟨62, 3⟩, ⟨65534, 1⟩]).Valid := by decide
  have hasked := fun start stop => (containsRange_any_bounds _ start stop h).2
  refine ⟨h, (hasked _ _).mpr (.inr ⟨by decide, fun v hlo hhi => ?_⟩), fun hall => ?_,
    fun hall => ?_, (hasked _ _).mpr (.inl (by decide))⟩
  · rw [contains_iff h, mem_run h, Runs.covers_iff]
    exact ⟨⟨65534, 1⟩, by simp, hlo, hhi⟩
  · rcases (hasked 62 67).mp hall with hge | ⟨-, hin⟩
    · omega
    · have hlast := hin 66 (by decide) (by decide)
      rw [contains_iff h, mem_run h] at hlast
      exact absurd hlast (by decide)
  · rcases (hasked 65534 65537).mp hall with hge | ⟨hin, -⟩ <;> omega

/-! ## Changing a range -/

/-- What an operation with a range makes of a container: the values are those of the operation with
the part of the range in the domain. Where there is no such part the container is the very same, and
elsewhere it is valid and in its cheapest encoding. -/
structure RangeAbsorbed (t : Thresholds) (op : SetOp) (c : Container) (start stop : Nat)
    (d : Container) : Prop where
  plain : absorbRange? t op c start stop = some d
  checked : Checked.absorbRange t op c start stop = some d
  mem : ∀ v, v ∈ d ↔ op.Holds (v ∈ c) (start ≤ v.toNat ∧ v.toNat < stop)
  untouched : (∀ v : UInt16, ¬(start ≤ v.toNat ∧ v.toNat < stop)) → d = c
  settled : (∃ v : UInt16, start ≤ v.toNat ∧ v.toNat < stop) → d.Valid ∧ d.Canonical t

theorem rangeAbsorbed (t : Thresholds) {op : SetOp} (hop : op.keepsLeft) (h : c.Valid)
    (start stop : Nat) : RangeAbsorbed t op c start stop (absorbRange t op c start stop) where
  plain := absorbRange?_eq t op h start stop
  checked := Checked.absorbRange_eq t op h start stop
  mem := (absorbRange_spec t start stop op hop h).2
  untouched hno := if_neg fun hlt => (exists_between_iff.mpr hlt).elim hno
  settled hsome := by
    have hs := settled_absorbRange t start stop op h (exists_between_iff.mp hsome)
    exact ⟨hs.valid, hs.canonical⟩

/-- Adding, removing and toggling a range are union, difference and symmetric difference with its
values in the domain, wherever the bounds lie. -/
theorem ranges_absorbed (t : Thresholds) (c : Container) (start stop : Nat) (h : c.Valid) :
    RangeAbsorbed t .union c start stop (insertRange t c start stop) ∧
      RangeAbsorbed t .diff c start stop (eraseRange t c start stop) ∧
      RangeAbsorbed t .symmDiff c start stop (toggleRange t c start stop) :=
  ⟨rangeAbsorbed t rfl h start stop, rangeAbsorbed t rfl h start stop,
    rangeAbsorbed t rfl h start stop⟩

/-- Ranges that reach into the domain from within and from its start, one that begins past it, and
for a bitset of unknown size one that is reversed. -/
theorem ranges_absorbed_past_domain :
    ((array #[1, 65530]).Valid ∧ (bitset (.uncounted .full)).Valid) ∧
      65535 ∈ insertRange .standard (array #[1, 65530]) 65534 100000 ∧
      (∀ v, ¬v ∈ eraseRange .standard (array #[1, 65530]) 0 4294967295) ∧
      (¬65530 ∈ toggleRange .standard (array #[1, 65530]) 65530 1048576 ∧
        (toggleRange .standard (array #[1, 65530]) 65530 1048576).Canonical .standard) ∧
      insertRange .standard (array #[1, 65530]) 70000 80000 = array #[1, 65530] ∧
      toggleRange .standard (bitset (.uncounted .full)) 900 100 = bitset (.uncounted .full) := by
  have ha : (array #[1, 65530]).Valid := by decide
  have hb : (bitset (.uncounted .full)).Valid := Bitset.exact_uncounted _
  have hasked := fun start stop => ranges_absorbed .standard _ start stop ha
  refine ⟨⟨ha, hb⟩, ?_, fun v hv => ?_, ⟨fun hv => ?_, ?_⟩, ?_, ?_⟩
  · exact ((hasked _ _).1.mem _).mpr (.inr ⟨by decide, by decide⟩)
  · have := v.toNat_lt
    exact (((hasked _ _).2.1.mem v).mp hv).2 ⟨Nat.zero_le _, by omega⟩
  · rcases ((hasked _ _).2.2.mem _).mp hv with ⟨-, hout⟩ | ⟨-, hlacks⟩
    · exact hout ⟨by decide, by decide⟩
    · exact hlacks (mem_array.mpr (by simp))
  · exact ((hasked _ _).2.2.settled ⟨65530, by decide, by decide⟩).2
  · refine (hasked _ _).1.untouched fun v hv => ?_
    have := v.toNat_lt
    omega
  · refine (ranges_absorbed .standard _ 900 100 hb).2.2.untouched fun v hv => ?_
    omega

end Roaring.Container
