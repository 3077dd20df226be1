import Roaring.Proofs.Checked.Bitset
import Roaring.Proofs.Container.Change

/-!
# Bitsets, step by step

A list of values comes to what its values come to one at a time, and a range to what it does to each
bit. The number kept beside the words is brought up to date by other means, by differences that are
counted apart from the bits; a sequence of steps of any kind keeps it exact while it is known, and
nothing but a count of all bits makes it known.
-/
namespace Roaring.Bitset

variable {b b' : Bitset}

/-! ## Lists one value at a time -/

/-- Removes a value that is there, and adds one that is not. -/
def toggle (b : Bitset) (v : UInt16) : Bitset :=
  if b.contains v then (b.erase v).2 else (b.insert v).2

theorem words_insert (b : Bitset) (v : UInt16) : (b.insert v).2.words = b.words.put v :=
  Words.ext fun u => congrFun (test_insert b v) u

theorem words_erase (b : Bitset) (v : UInt16) : (b.erase v).2.words = b.words.clear v :=
  Words.ext fun u => congrFun (test_erase b v) u

theorem words_toggle (b : Bitset) (v : UInt16) : (b.toggle v).words = b.words.flip v := by
  refine Words.ext fun u => ?_
  rw [toggle, Words.test_flip]
  split
  · rename_i hv
    rw [words_erase, Words.test_clear]
    by_cases hu : u = v
    · simp [hu, show b.words.test v = true from hv]
    · simp [hu]
  · rename_i hv
    rw [words_insert, Words.test_put]
    by_cases hu : u = v
    · simp [hu, show b.words.test v = false from Bool.eq_false_iff.mpr hv]
    · simp [hu]

/-- The words after a list of changes are those after the changes of words alone. -/
theorem words_foldl {step : Bitset → UInt16 → Bitset} {one : Words → UInt16 → Words}
    (h : ∀ b v, (step b v).words = one b.words v) (b : Bitset) (vs : Array UInt16) :
    (vs.foldl step b).words = vs.foldl one b.words :=
  (Array.foldl_hom words fun b v => (h b v).symm).symm

theorem words_insertAll (b : Bitset) (vs : Array UInt16) :
    (b.insertAll vs).words = vs.foldl Words.put b.words :=
  (Array.foldl_hom Prod.fst fun _ _ => rfl).symm

theorem words_eraseAll (b : Bitset) (vs : Array UInt16) :
    (b.eraseAll vs).words = vs.foldl Words.clear b.words :=
  (Array.foldl_hom Prod.fst fun _ _ => rfl).symm

theorem words_toggleAll (b : Bitset) (vs : Array UInt16) :
    (b.toggleAll vs).words = vs.foldl Words.flip b.words :=
  (Array.foldl_hom Prod.fst fun _ _ => rfl).symm

/-- A list of values leaves the bits that its values leave one at a time, in the order of the list.
Each occurrence of a value toggles it. -/
structure InTurn (b : Bitset) (vs : Array UInt16) : Prop where
  insertAll : (b.insertAll vs).words = (vs.foldl (fun b v => (b.insert v).2) b).words
  eraseAll : (b.eraseAll vs).words = (vs.foldl (fun b v => (b.erase v).2) b).words
  toggleAll : (b.toggleAll vs).words = (vs.foldl toggle b).words
  occurrences : ∀ v, (b.toggleAll vs).contains v =
    (b.contains v ^^ decide (vs.toList.count v % 2 = 1))

theorem inTurn (b : Bitset) (vs : Array UInt16) : InTurn b vs where
  insertAll := (words_insertAll b vs).trans (words_foldl words_insert b vs).symm
  eraseAll := (words_eraseAll b vs).trans (words_foldl words_erase b vs).symm
  toggleAll := (words_toggleAll b vs).trans (words_foldl words_toggle b vs).symm
  occurrences := (Words.flipAll_spec b.words vs).1

/-! ## Ranges bit by bit -/

/-- An outcome whose bits in a range are those that `f` makes of the bits of `b`, and whose other
bits are those of `b`. -/
def ChangesWithin (f : Bool → Bool) (start stop : Nat) (b : Bitset) (o : Option Bitset) : Prop :=
  ∃ b', o = some b' ∧ ∀ v : UInt16, b'.contains v =
    if start ≤ v.toNat ∧ v.toNat < stop then f (b.contains v) else b.contains v

theorem changesWithin_of_test {f : Bool → Bool} {g : Bool → Bool → Bool} {start stop : Nat}
    (hs : stop ≤ 65536)
    (htest : ∀ v : UInt16, b'.words.test v =
      g (b.words.test v) (decide (start ≤ v.toNat ∧ v.toNat < stop)))
    (htrue : ∀ x, g x true = f x) (hfalse : ∀ x, g x false = x) :
    ChangesWithin f start stop b (if RangeOk start stop then some b' else none) := by
  refine ⟨b', if_pos (Checked.rangeOk_of_le hs), fun v => ?_⟩
  rw [contains, htest]
  split
  · rename_i hin
    rw [decide_eq_true hin, htrue, contains]
  · rename_i hout
    rw [decide_eq_false hout, hfalse, contains]

section Ranges

variable {start stop : Nat} (b : Bitset) (hs : stop ≤ 65536)

include hs

theorem changesWithin_insertRange :
    ChangesWithin (fun _ => true) start stop b (b.insertRange? start stop) :=
  changesWithin_of_test hs (test_insertRange b start stop) Bool.or_true Bool.or_false

theorem changesWithin_eraseRange :
    ChangesWithin (fun _ => false) start stop b (b.eraseRange? start stop) :=
  changesWithin_of_test (g := fun x y => x && !y) hs (test_eraseRange b start stop) Bool.and_false
    Bool.and_true

theorem changesWithin_toggleRange :
    ChangesWithin (!·) start stop b (b.toggleRange? start stop) :=
  changesWithin_of_test hs (test_toggleRange b start stop) Bool.xor_true Bool.xor_false

end Ranges

/-! ## One change -/

namespace Change

/-- The bit of a value after a change, given the one before. -/
def bit (c : Change) (v : UInt16) (held : Bool) : Bool :=
  match c with
  | fill => true
  | recount => held
  | erase u => held && !decide (v = u)
  | insertAll vs => held || decide (v ∈ vs)
  | eraseAll vs => held && !decide (v ∈ vs)
  | toggleAll vs => held ^^ decide (vs.toList.count v % 2 = 1)
  | insertRange start stop => held || Words.inRange start stop v
  | eraseRange start stop => held && !Words.inRange start stop v
  | toggleRange start stop => held ^^ Words.inRange start stop v

/-- Whether the change makes the number of values known. -/
def counts : Change → Bool
  | fill | recount => true
  | _ => false

theorem known_after {c : Change} (h : c.after? b = some b') :
    b'.cached.isSome = (b.cached.isSome || c.counts) := by
  have hkept : ∀ {x : Bitset}, x.cached.isSome = b.cached.isSome → some x = some b' →
      b'.cached.isSome = (b.cached.isSome || false) := by
    rintro x hx ⟨⟩
    rw [hx, Bool.or_false]
  cases c with
  | fill =>
    cases h
    exact (Bool.or_true _).symm
  | recount =>
    cases h
    exact (Bool.or_true _).symm
  | erase v => exact hkept (known_erase b v) h
  | insertAll vs => exact hkept (known_replace b _ _) h
  | eraseAll vs => exact hkept (known_replace b _ _) h
  | toggleAll vs => exact hkept (known_replace b _ _) h
  | insertRange start stop =>
    exact hkept (known_changeRange _ _ b start stop) (Option.ite_none_right_eq_some.mp h).2
  | eraseRange start stop =>
    exact hkept (known_changeRange _ _ b start stop) (Option.ite_none_right_eq_some.mp h).2
  | toggleRange start stop =>
    exact hkept (known_changeRange _ _ b start stop) (Option.ite_none_right_eq_some.mp h).2

theorem contains_after {c : Change} (h : c.after? b = some b') (v : UInt16) :
    b'.contains v = c.bit v (b.contains v) := by
  cases c with
  | fill =>
    cases h
    exact Words.test_full v
  | recount =>
    cases h
    rfl
  | erase u =>
    cases h
    exact (congrFun (test_erase b u) v).trans (Words.test_clear b.words u v)
  | insertAll vs =>
    cases h
    exact test_insertAll b vs v
  | eraseAll vs =>
    cases h
    exact test_eraseAll b vs v
  | toggleAll vs =>
    cases h
    exact (inTurn b vs).occurrences v
  | insertRange start stop =>
    obtain ⟨-, ⟨⟩⟩ := Option.ite_none_right_eq_some.mp h
    exact test_insertRange b start stop v
  | eraseRange start stop =>
    obtain ⟨-, ⟨⟩⟩ := Option.ite_none_right_eq_some.mp h
    exact test_eraseRange b start stop v
  | toggleRange start stop =>
    obtain ⟨-, ⟨⟩⟩ := Option.ite_none_right_eq_some.mp h
    exact test_toggleRange b start stop v

end Change

/-- A change, with every operation of the machine checked. -/
def Checked.change (c : Change) (b : Bitset) : Option Bitset :=
  match c with
  | .fill => some .full
  | .recount => recount b
  | .erase v => do some (← erase b v).2
  | .insertAll vs => insertAll b vs
  | .eraseAll vs => eraseAll b vs
  | .toggleAll vs => toggleAll b vs
  | .insertRange start stop => insertRange b start stop
  | .eraseRange start stop => eraseRange b start stop
  | .toggleRange start stop => toggleRange b start stop

theorem Checked.change_eq (h : b.Exact) (c : Change) : change c b = c.after? b := by
  cases c with
  | fill => rfl
  | recount => exact recount_eq b
  | erase v => exact Machine.bind_of_eq (erase_eq h v) _
  | insertAll vs => exact insertAll_eq h vs
  | eraseAll vs => exact eraseAll_eq h vs
  | toggleAll vs => exact toggleAll_eq h vs
  | insertRange start stop => exact insertRange_eq h start stop
  | eraseRange start stop => exact eraseRange_eq h start stop
  | toggleRange start stop => exact toggleRange_eq h start stop

/-! ## Steps -/

/-- A change that every encoding offers, or one of a bitset's own. -/
inductive Step where
  | insert (v : UInt16)
  | clear
  | own (c : Change)

namespace Step

def after? (s : Step) (b : Bitset) : Option Bitset :=
  match s with
  | insert v => some (b.insert v).2
  | clear => some empty
  | own c => c.after? b

/-- No value of a given range is past the domain. -/
def InDomain : Step → Prop
  | own c => c.InDomain
  | _ => True

/-- The bit of a value after a step, given the one before. -/
def bit (s : Step) (v : UInt16) (held : Bool) : Bool :=
  match s with
  | insert u => held || decide (v = u)
  | clear => false
  | own c => c.bit v held

/-- Whether the step makes the number of values known. -/
def counts : Step → Bool
  | insert _ => false
  | clear => true
  | own c => c.counts

end Step

/-- A step, with every operation of the machine checked. -/
def Checked.step (s : Step) (b : Bitset) : Option Bitset :=
  match s with
  | .insert v => do some (← insert b v).2
  | .clear => some empty
  | .own c => change c b

/-- What some steps make of a bitset, one after the other. They go through, also on the machine, the
number of values is exact where it is known, and it is known where it was or has been counted since;
and each bit has gone through what the steps do to it. -/
structure Makes (steps : List Step) (b b' : Bitset) : Prop where
  plain : steps.foldlM (fun b s => s.after? b) b = some b'
  checked : steps.foldlM (fun b s => Checked.step s b) b = some b'
  exact : b'.Exact
  known : b'.cached.isSome = (b.cached.isSome || steps.any Step.counts)
  bits : ∀ v, b'.contains v = steps.foldl (fun held s => s.bit v held) (b.contains v)

theorem makes_nil (h : b.Exact) : Makes [] b b where
  plain := rfl
  checked := rfl
  exact := h
  known := (Bool.or_false _).symm
  bits _ := rfl

/-- One step, and then the others. -/
theorem Makes.cons {s : Step} {steps : List Step} {c : Bitset} (hplain : s.after? b = some c)
    (hchecked : Checked.step s b = some c)
    (hknown : c.cached.isSome = (b.cached.isSome || s.counts))
    (hbits : ∀ v, c.contains v = s.bit v (b.contains v)) (h : Makes steps c b') :
    Makes (s :: steps) b b' where
  plain := by rw [List.foldlM_cons, Machine.bind_of_eq hplain, h.plain]
  checked := by rw [List.foldlM_cons, Machine.bind_of_eq hchecked, h.checked]
  exact := h.exact
  known := by rw [h.known, hknown, List.any_cons, Bool.or_assoc]
  bits v := by rw [h.bits, hbits, List.foldl_cons]

/-- Every step in the domain is one that the others can follow. -/
theorem exists_after (h : b.Exact) {s : Step} (hs : s.InDomain) :
    ∃ c, s.after? b = some c ∧ Checked.step s b = some c ∧ c.Exact ∧
      c.cached.isSome = (b.cached.isSome || s.counts) ∧
      ∀ v, c.contains v = s.bit v (b.contains v) := by
  cases s with
  | insert u =>
    refine ⟨(b.insert u).2, rfl, Machine.bind_of_eq (Checked.insert_eq h u) _, exact_insert h u, ?_,
      fun v => ?_⟩
    · exact (known_insert b u).trans (Bool.or_false _).symm
    · exact (congrFun (test_insert b u) v).trans (Words.test_put b.words u v)
  | clear =>
    exact ⟨empty, rfl, rfl, exact_empty, (Bool.or_true _).symm, Words.test_empty⟩
  | own c =>
    obtain ⟨hexact, hsome⟩ := c.gives_exact h
    obtain ⟨b', hb'⟩ := Option.isSome_iff_exists.mp (hsome hs)
    exact ⟨b', hb', (Checked.change_eq h c).trans hb', hexact b' hb', Change.known_after hb',
      Change.contains_after hb'⟩

/-- A sequence of steps in the domain goes through, by induction on it. -/
theorem exists_makes (steps : List Step) (h : b.Exact) (hs : ∀ s ∈ steps, s.InDomain) :
    ∃ b', Makes steps b b' := by
  induction steps generalizing b with
  | nil => exact ⟨b, makes_nil h⟩
  | cons s steps ih =>
    obtain ⟨hstep, hrest⟩ := List.forall_mem_cons.mp hs
    obtain ⟨c, hplain, hchecked, hexact, hknown, hbits⟩ := exists_after h hstep
    obtain ⟨b', hb'⟩ := ih hexact hrest
    exact ⟨b', hb'.cons hplain hchecked hknown hbits⟩

/-- A list of values leaves the bits that its values leave one at a time, and a range within the
domain changes each bit in it and no other, whatever is known of the number of values. Over any
sequence of steps that number, while it is known, is the number of set bits, and once known it stays
known. -/
theorem changes_bit_by_bit (b : Bitset) :
    (∀ vs, InTurn b vs) ∧
      (∀ start stop, start < stop → stop ≤ 65536 →
        ChangesWithin (fun _ => true) start stop b (b.insertRange? start stop) ∧
          ChangesWithin (fun _ => false) start stop b (b.eraseRange? start stop) ∧
          ChangesWithin (!·) start stop b (b.toggleRange? start stop)) ∧
      (b.Exact → ∀ steps : List Step, (∀ s ∈ steps, s.InDomain) → ∃ b', Makes steps b b') :=
  ⟨inTurn b, fun _ _ _ hs => ⟨changesWithin_insertRange b hs, changesWithin_eraseRange b hs,
    changesWithin_toggleRange b hs⟩, fun h steps => exists_makes steps h⟩

/-- At the edge between two words: a value three times in a list, and a range across the edge, in a
bitset of which the size is not known until it is counted. -/
theorem changes_bit_by_bit_word_edge :
    ((uncounted Words.empty).Exact ∧ 63 < 65 ∧ 65 ≤ 65536 ∧
        ∀ s ∈ [Step.own (.toggleAll #[64, 63, 64, 64]), .own .recount, .own (.eraseRange 60 64)],
          s.InDomain) ∧
      InTurn (uncounted Words.empty) #[64, 63, 64, 64] ∧
      ChangesWithin (!·) 63 65 (uncounted Words.empty)
        ((uncounted Words.empty).toggleRange? 63 65) ∧
      ∃ b', Makes [.own (.toggleAll #[64, 63, 64, 64]), .own .recount, .own (.eraseRange 60 64)]
          (uncounted Words.empty) b' ∧
        b'.cached.isSome ∧ b'.contains 63 = false ∧ b'.contains 64 = true := by
  have h : (uncounted Words.empty).Exact := exact_uncounted _
  have hs : ∀ s ∈ [Step.own (.toggleAll #[64, 63, 64, 64]), .own .recount,
      .own (.eraseRange 60 64)], s.InDomain := by
    simp only [List.forall_mem_cons]
    exact ⟨trivial, trivial, fun _ => by decide, List.forall_mem_nil _⟩
  obtain ⟨hlists, hranges, hsteps⟩ := changes_bit_by_bit (uncounted Words.empty)
  obtain ⟨b', hb'⟩ := hsteps h _ hs
  have hempty : ∀ v, (uncounted Words.empty).contains v = false := Words.test_empty
  refine ⟨⟨h, by decide, by decide, hs⟩, hlists _, (hranges 63 65 (by decide) (by decide)).2.2, b',
    hb', hb'.known, ?_, ?_⟩
  · rw [hb'.bits, hempty]
    decide
  · rw [hb'.bits, hempty]
    decide

end Roaring.Bitset
