import Roaring.Proofs.Checked.Container.Convert
import Roaring.Proofs.Container.Query
import Roaring.Proofs.Container.Update

/-!
# Chains of conversions

A conversion loses no value, however empty, full or scattered the container is. Each encoding has
one way to store a set, so a chain of conversions that comes back to the first encoding comes back
to what was stored in it.
-/
namespace Roaring.Container

variable {a b c : Container}

/-! ## What is stored -/

/-- What a container stores, apart from the size that a bitset may remember. -/
def forgetCount : Container → Container
  | bitset b => bitset (.uncounted b.words)
  | c => c

/-- A bitset of known size, or another encoding. -/
def Counted : Container → Prop
  | bitset b => b.cached.isSome
  | _ => True

/-- In one encoding the same values are stored in the same way. -/
theorem forgetCount_eq_of_mem_iff (ha : a.Valid) (hb : b.Valid) (henc : a.encoding = b.encoding)
    (hmem : ∀ v, v ∈ a ↔ v ∈ b) : a.forgetCount = b.forgetCount := by
  have hsame := (sameValues_iff ha hb).mpr hmem
  cases a with
  | array as =>
    cases b with
    | array bs => exact congrArg array (of_decide_eq_true hsame)
    | bitset _ => cases henc
    | run _ => cases henc
  | bitset as =>
    cases b with
    | array _ => cases henc
    | bitset bs => exact congrArg (fun ws => bitset (.uncounted ws)) (of_decide_eq_true hsame)
    | run _ => cases henc
  | run as =>
    cases b with
    | array _ => cases henc
    | bitset _ => cases henc
    | run bs => exact congrArg run (of_decide_eq_true hsame)

theorem eq_of_forgetCount (ha : a.Valid) (hb : b.Valid) (hka : a.Counted) (hkb : b.Counted)
    (h : a.forgetCount = b.forgetCount) : a = b := by
  cases a with
  | array as =>
    cases b with
    | array bs => exact h
    | bitset _ => cases h
    | run _ => cases h
  | bitset as =>
    cases b with
    | array _ => cases h
    | bitset bs =>
      have hwords : as.words = bs.words := by simpa [forgetCount, Bitset.uncounted] using h
      exact congrArg bitset (Bitset.eq_of_counted ha hb hka hkb hwords)
    | run _ => cases h
  | run as =>
    cases b with
    | array _ => cases h
    | bitset _ => cases h
    | run bs => exact h

/-! ## One conversion -/

theorem encoding_convert (e : Encoding) (c : Container) : (convert e c).encoding = e := by
  cases c <;> cases e <;> rfl

theorem counted_convert (e : Encoding) (h : c.Counted) : (convert e c).Counted := by
  cases c with
  | array vs =>
    cases e with
    | array => trivial
    | bitset => exact Bitset.known_ofValues vs
    | run => trivial
  | bitset b =>
    cases e with
    | array => trivial
    | bitset => exact h
    | run => trivial
  | run rs =>
    cases e with
    | array => trivial
    | bitset => exact Bitset.known_ofRuns rs
    | run => trivial

/-! ## Chains -/

/-- Conversions to each of a list of encodings, one after the other. -/
def convertAll (es : List Encoding) (c : Container) : Container :=
  es.foldl (fun c e => convert e c) c

theorem convertAll_cons (e : Encoding) (es : List Encoding) (c : Container) :
    convertAll (e :: es) c = convertAll es (convert e c) := rfl

theorem recodes_convertAll (es : List Encoding) : Recodes (convertAll es) := by
  induction es with
  | nil => exact fun c h => ⟨h, fun v => Iff.rfl⟩
  | cons e es ih =>
    intro c h
    obtain ⟨hvalid, hmem⟩ := recodes_convert e c h
    obtain ⟨hvalid', hmem'⟩ := ih (convert e c) hvalid
    exact ⟨hvalid', fun v => (hmem' v).trans (hmem v)⟩

theorem encoding_convertAll (es : List Encoding) (c : Container) :
    (convertAll es c).encoding = es.getLastD c.encoding := by
  induction es generalizing c with
  | nil => rfl
  | cons e es ih => rw [convertAll_cons, ih, encoding_convert, List.getLastD_cons]

theorem counted_convertAll (es : List Encoding) (h : c.Counted) : (convertAll es c).Counted := by
  induction es generalizing c with
  | nil => exact h
  | cons e es ih => exact ih (counted_convert e h)

/-- A way to convert that never fails on a valid container goes through a whole chain. -/
theorem foldlM_convert {step : Container → Encoding → Option Container}
    (hstep : ∀ (c : Container) (e : Encoding), c.Valid → step c e = some (convert e c))
    (es : List Encoding) (h : c.Valid) : es.foldlM step c = some (convertAll es c) :=
  Machine.foldlM_eq_some (fun (c : Container) _ => c.Valid)
    (fun c e _ hc => ⟨hstep c e hc, (recodes_convert e c hc).1⟩) es c h

/-- A chain of conversions of any valid container goes through, without a step that fails, to a
valid container in the last encoding with the same values; where that is the encoding of the first
container, it stores the same list, bits or runs, and it is the very same container where the first
one was counted. -/
theorem conversions_lossless (c : Container) (es : List Encoding) (h : c.Valid) :
    ∃ d, es.foldlM (fun c e => convert? e c) c = some d ∧
      es.foldlM (fun c e => Checked.convert e c) c = some d ∧
      d.Valid ∧ d.encoding = es.getLastD c.encoding ∧ d.values = c.values ∧
      (∀ v, v ∈ d ↔ v ∈ c) ∧
      (d.encoding = c.encoding → d.forgetCount = c.forgetCount ∧ (c.Counted → d = c)) := by
  obtain ⟨hvalid, hmem⟩ := recodes_convertAll es c h
  have hvalues := Sorted.eq_of_mem_iff (increasing_values hvalid) (increasing_values h) hmem
  refine ⟨convertAll es c, ?_, ?_, hvalid, encoding_convertAll es c, hvalues, hmem, ?_⟩
  · exact foldlM_convert (fun c e hc => convert?_eq e hc) es h
  · exact foldlM_convert (fun c e hc => Checked.convert_eq e hc) es h
  · intro henc
    have hstored := forgetCount_eq_of_mem_iff hvalid h henc hmem
    refine ⟨hstored, ?_⟩
    intro hcounted
    exact eq_of_forgetCount hvalid h (counted_convertAll es hcounted) hcounted hstored

/-- Runs across a border between words and up to the last value come back as they were. -/
theorem conversions_lossless_back_to_runs :
    (run #[⟨62, 3⟩, ⟨65535, 0⟩]).Valid ∧
      [Encoding.bitset, .array, .run].foldlM (fun c e => convert? e c)
        (run #[⟨62, 3⟩, ⟨65535, 0⟩]) = some (run #[⟨62, 3⟩, ⟨65535, 0⟩]) := by
  have h : (run #[⟨62, 3⟩, ⟨65535, 0⟩]).Valid := by decide
  obtain ⟨d, hd, -, -, henc, -, -, hback⟩ := conversions_lossless _ [.bitset, .array, .run] h
  have hsame : d = run #[⟨62, 3⟩, ⟨65535, 0⟩] := (hback henc).2 trivial
  exact ⟨h, hsame ▸ hd⟩

end Roaring.Container
