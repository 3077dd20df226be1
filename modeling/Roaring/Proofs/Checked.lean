import Roaring.Proofs.Checked.Bitmap.InPlace
import Roaring.Proofs.Checked.Bitmap.Relate

/-!
# No operation fails

On valid operands every step of every operation is one that the machine can take, so each operation
has an outcome, and it is the plain one. This is whatever the thresholds, the ends of ranges, the
positions asked for and the values that are added or removed. Of all calls only four on a bitset
can fail: those that change or count a range of bits, exactly when the range has a value and goes on
past the domain. The operations on bitmaps work on columns, and a bitmap is only read back from two
arrays of one length.
-/
namespace Roaring

/-! ## One encoding -/

namespace Sorted

/-- No call on an array fails. A value put at the end has to be the largest. -/
structure Unfailing (vs : Array UInt16) : Prop where
  rank v : Checked.rank vs v = some (rank vs v)
  numRuns : Checked.numRuns vs = some (numRuns vs)
  containsRange start stop :
    Checked.containsRange vs start stop = some (containsRange vs start stop)
  insertWithin max v : Checked.insertWithin max vs v = some (insertWithin max vs v)
  erase v : Checked.erase vs v = some (erase vs v)
  push v : (∀ m ∈ vs.back?, m < v) → Checked.push vs v = some (vs.push v)

theorem unfailing {vs : Array UInt16} (h : Increasing vs) : Unfailing vs where
  rank := Checked.rank_eq h
  numRuns := Checked.numRuns_eq h
  containsRange := Checked.containsRange_eq h
  insertWithin := Checked.insertWithin_eq
  erase := Checked.erase_eq
  push _ := Checked.push_eq

end Sorted

namespace Runs

/-- No call on a run list fails, nor does one that makes a list from increasing values or from a
range. A run that is appended or toggled has to lie in the domain, and must not start before the
last one. -/
structure Unfailing (rs : Array Run) : Prop where
  ofValues vs : Sorted.Increasing vs → Checked.ofValues vs = some (ofValues vs)
  ofRange start stop : Checked.ofRange start stop = some (ofRange start stop)
  isValid : Checked.isValid rs = some (isValid rs)
  values : Checked.values rs = some (values rs)
  card : Checked.card rs = some (card rs)
  max? : Checked.max? rs = some (max? rs)
  rank v : Checked.rank rs v = some (rank rs v)
  select n : Checked.select rs n = some (select rs n)
  contains v : Checked.contains rs v = some (contains rs v)
  containsRange start stop :
    Checked.containsRange rs start stop = some (containsRange rs start stop)
  insert v : Checked.insert rs v = some (insert rs v)
  erase v : Checked.erase rs v = some (erase rs v)
  appendRun r : r.InDomain → (∀ l ∈ rs.back?, l.first ≤ r.first) →
    Checked.appendRun rs r = some (appendRun rs r)
  toggleRun r : r.InDomain → (∀ l ∈ rs.back?, l.first ≤ r.first) →
    Checked.toggleRun rs r = some (toggleRun rs r)

theorem unfailing {rs : Array Run} (h : Valid rs) : Unfailing rs where
  ofValues _ := Checked.ofValues_eq
  ofRange := Checked.ofRange_eq
  isValid := Checked.isValid_eq rs
  values := Checked.values_eq h
  card := Checked.card_eq h
  max? := Checked.max?_eq h
  rank := Checked.rank_eq h
  select := Checked.select_eq h
  contains := Checked.contains_eq h
  containsRange := Checked.containsRange_eq rs
  insert := Checked.insert_eq h
  erase := Checked.erase_eq h
  appendRun _ hr hlast := Checked.appendRun_eq (Checked.fits_of_valid h hr hlast)
  toggleRun _ hr hlast := Checked.toggleRun_eq (Checked.fits_of_valid h hr hlast)

end Runs

namespace Bitset

/-- A call on a range of bits fails exactly when the range has a value and goes on past the domain,
and has its plain outcome otherwise. -/
def FailsPastDomain {α : Type} (call : Nat → Nat → Option α) (plain : Nat → Nat → α) : Prop :=
  ∀ start stop, (call start stop = none ↔ start < stop ∧ 65536 < stop) ∧
    (¬(start < stop ∧ 65536 < stop) → call start stop = some (plain start stop))

theorem failsPastDomain_of_eq {α : Type} {call : Nat → Nat → Option α} {plain : Nat → Nat → α}
    (h : ∀ start stop, call start stop =
      if RangeOk start stop then some (plain start stop) else none) :
    FailsPastDomain call plain := by
  intro start stop
  rw [h start stop]
  rcases Checked.rangeOk_or start stop with ⟨hok, hs⟩ | ⟨hok, hs⟩
  · have hin : ¬(start < stop ∧ 65536 < stop) := by omega
    rw [if_pos hok]
    exact ⟨iff_of_false (Option.some_ne_none _) hin, fun _ => rfl⟩
  · rw [if_neg hok]
    exact ⟨iff_of_true rfl hs, fun hin => absurd hs hin⟩

/-- Apart from the four calls on a range of bits, no call on a bitset fails. -/
structure Unfailing (b : Bitset) : Prop where
  values : Words.Checked.values b.words = some b.words.values
  card : Checked.card b = some b.card
  isFull : Checked.isFull b = some b.isFull
  recount : Checked.recount b = some b.recount
  min? : Words.Checked.min? b.words = some b.words.min?
  max? : Words.Checked.max? b.words = some b.words.max?
  rank v : Words.Checked.rank b.words v = some (b.words.rank v)
  select n : Words.Checked.select b.words n = some (b.words.select n)
  numRuns : Words.Checked.numRuns b.words = some b.words.numRuns
  contains v : Checked.contains b v = some (b.contains v)
  containsRange start stop : Checked.containsRange b start stop = some (b.containsRange start stop)
  insert v : Checked.insert b v = some (b.insert v)
  erase v : Checked.erase b v = some (b.erase v)
  insertAll vs : Checked.insertAll b vs = some (b.insertAll vs)
  eraseAll vs : Checked.eraseAll b vs = some (b.eraseAll vs)
  toggleAll vs : Checked.toggleAll b vs = some (b.toggleAll vs)
  insertRange : FailsPastDomain (Checked.insertRange b) b.insertRange
  eraseRange : FailsPastDomain (Checked.eraseRange b) b.eraseRange
  toggleRange : FailsPastDomain (Checked.toggleRange b) b.toggleRange
  countRange : FailsPastDomain (Checked.countRange b) b.words.countRange

theorem unfailing {b : Bitset} (h : b.Exact) : b.Unfailing where
  values := Words.Checked.values_eq b.words
  card := Checked.card_eq b
  isFull := Checked.isFull_eq b
  recount := Checked.recount_eq b
  min? := Words.Checked.min?_eq b.words
  max? := Words.Checked.max?_eq b.words
  rank := Words.Checked.rank_eq b.words
  select := Words.Checked.select_eq b.words
  numRuns := Words.Checked.numRuns_eq b.words
  contains := Checked.contains_eq b
  containsRange := Checked.containsRange_eq b
  insert := Checked.insert_eq h
  erase := Checked.erase_eq h
  insertAll := Checked.insertAll_eq h
  eraseAll := Checked.eraseAll_eq h
  toggleAll := Checked.toggleAll_eq h
  insertRange := failsPastDomain_of_eq (Checked.insertRange_eq h)
  eraseRange := failsPastDomain_of_eq (Checked.eraseRange_eq h)
  toggleRange := failsPastDomain_of_eq (Checked.toggleRange_eq h)
  countRange := failsPastDomain_of_eq (Checked.countRange_eq b)

end Bitset

namespace Container

/-! ## Containers -/

/-- No operation fails on a container, alone or with another one, nor does one that makes a
container from increasing values or from a range. Sizes in bytes are asked of no more values or runs
than a container can have. -/
structure Unfailing (t : Thresholds) (a b : Container) : Prop where
  arrayBytes n : n ≤ 65536 → Checked.arrayBytes n = some (arrayBytes n)
  runBytes n : n ≤ 65536 → Checked.runBytes n = some (runBytes n)
  ofValues vs : Sorted.Increasing vs → Checked.ofValues t vs = some (ofValues t vs)
  ofRange start stop : Checked.ofRange t start stop = some (ofRange t start stop)
  values : Checked.values a = some a.values
  card : Checked.card a = some a.card
  isFull : Checked.isFull a = some a.isFull
  min? : Checked.min? a = some a.min?
  max? : Checked.max? a = some a.max?
  rank v : Checked.rank a v = some (a.rank v)
  select n : Checked.select a n = some (a.select n)
  numRuns : Checked.numRuns a = some a.numRuns
  byteSize : Checked.byteSize a = some a.byteSize
  contains v : Checked.contains a v = some (a.contains v)
  containsRange start stop : Checked.containsRange a start stop = some (a.containsRange start stop)
  sameValues : Checked.sameValues a b = some (a.sameValues b)
  isSubset : Checked.isSubset a b = some (a.isSubset b)
  intersects : Checked.intersects a b = some (a.intersects b)
  interCard : Checked.interCard a b = some (a.interCard b)
  convert e : Checked.convert e a = some (a.convert e)
  compact : Checked.compact t a = some (a.compact t)
  runOptimize : Checked.runOptimize t a = some (a.runOptimize t)
  removeRuns : Checked.removeRuns t a = some (a.removeRuns t)
  insert v : Checked.insert t a v = some (a.insert t v)
  erase v : Checked.erase t a v = some (a.erase t v)
  absorbRange op start stop :
    Checked.absorbRange t op a start stop = some (a.absorbRange t op start stop)
  combine op : Checked.combine t op a b = some (a.combine t op b)
  defer op : Checked.defer t op a b = some (a.defer t op b)
  absorb op : Checked.absorb t op a b = some (a.absorb t op b)
  absorbDeferred op : Checked.absorbDeferred t op a b = some (a.absorbDeferred t op b)
  absorbSelf op : Checked.absorbSelf t op a = some (a.absorbSelf t op)

theorem unfailing (t : Thresholds) {a b : Container} (ha : a.Valid) (hb : b.Valid) :
    Unfailing t a b where
  arrayBytes _ := Checked.arrayBytes_eq
  runBytes _ := Checked.runBytes_eq
  ofValues _ h := Checked.ofValues_eq t h
  ofRange := Checked.ofRange_eq t
  values := Checked.values_eq ha
  card := Checked.card_eq ha
  isFull := Checked.isFull_eq ha
  min? := Checked.min?_eq a
  max? := Checked.max?_eq ha
  rank := Checked.rank_eq ha
  select := Checked.select_eq ha
  numRuns := Checked.numRuns_eq ha
  byteSize := Checked.byteSize_eq ha
  contains := Checked.contains_eq ha
  containsRange := Checked.containsRange_eq ha
  sameValues := Checked.sameValues_eq ha hb
  isSubset := Checked.isSubset_eq ha hb
  intersects := Checked.intersects_eq ha hb
  interCard := Checked.interCard_eq ha hb
  convert e := Checked.convert_eq e ha
  compact := Checked.compact_eq t ha
  runOptimize := Checked.runOptimize_eq t ha
  removeRuns := Checked.removeRuns_eq t ha
  insert := Checked.insert_eq t ha
  erase := Checked.erase_eq t ha
  absorbRange op := Checked.absorbRange_eq t op ha
  combine op := Checked.combine_eq t op ha hb
  defer op := Checked.defer_eq t op ha hb
  absorb op := Checked.absorb_eq t op ha hb
  absorbDeferred op := Checked.absorbDeferred_eq t op ha hb
  absorbSelf op := Checked.absorbSelf_eq t op ha

end Container

namespace Bitmap

/-! ## Bitmaps -/

/-- No operation fails on a bitmap, alone, with another one or with many, nor does one that makes a
bitmap from values or from a range. -/
structure Unfailing (a b : Bitmap) : Prop where
  ofValues vs : Checked.ofValues vs = some (ofValues vs)
  ofRange lo hi : Checked.ofRange lo hi = some (ofRange lo hi)
  values : Checked.values a = some a.values
  card : Checked.card a = some a.card
  min? : Checked.min? a = some a.min?
  max? : Checked.max? a = some a.max?
  rank v : Checked.rank a v = some (a.rank v)
  select n : Checked.select a n = some (a.select n)
  contains v : Checked.contains a v = some (a.contains v)
  containsRange lo hi : Checked.containsRange a lo hi = some (a.containsRange lo hi)
  sameValues : Checked.sameValues a b = some (a.sameValues b)
  isSubset : Checked.isSubset a b = some (a.isSubset b)
  intersects : Checked.intersects a b = some (a.intersects b)
  opCard op : Checked.opCard op a b = some (opCard op a b)
  insert v : Checked.insert a v = some (a.insert v)
  erase v : Checked.erase a v = some (a.erase v)
  insertAll vs : Checked.insertAll a vs = some (a.insertAll vs)
  insertRange lo hi : Checked.insertRange a lo hi = some (a.insertRange lo hi)
  eraseRange lo hi : Checked.eraseRange a lo hi = some (a.eraseRange lo hi)
  toggleRange lo hi : Checked.toggleRange a lo hi = some (a.toggleRange lo hi)
  runOptimize : Checked.runOptimize a = some a.runOptimize
  removeRuns : Checked.removeRuns a = some a.removeRuns
  combine op : Checked.combine op a b = some (a.combine op b)
  absorb op : Checked.absorb op a b = some (a.absorb op b)
  absorbSelf op : Checked.absorbSelf op a = some (a.absorbSelf op)
  unionAll bs : (∀ c ∈ bs, c.WellFormed) → Checked.unionAll bs = some (unionAll bs)

theorem unfailing {a b : Bitmap} (ha : a.WellFormed) (hb : b.WellFormed) : Unfailing a b where
  ofValues := Checked.ofValues_eq
  ofRange := Checked.ofRange_eq
  values := Checked.values_eq ha
  card := Checked.card_eq ha
  min? := Checked.min?_eq a
  max? := Checked.max?_eq ha
  rank := Checked.rank_eq ha
  select := Checked.select_eq ha
  contains := Checked.contains_eq ha
  containsRange := Checked.containsRange_eq ha
  sameValues := Checked.sameValues_eq hb ha
  isSubset := Checked.isSubset_eq ha hb
  intersects := Checked.intersects_eq ha hb
  opCard := Checked.opCard_eq ha hb
  insert := Checked.insert_eq ha
  erase := Checked.erase_eq ha
  insertAll := Checked.insertAll_eq ha
  insertRange := Checked.insertRange_eq ha
  eraseRange := Checked.eraseRange_eq ha
  toggleRange := Checked.toggleRange_eq ha
  runOptimize := Checked.runOptimize_eq ha
  removeRuns := Checked.removeRuns_eq ha
  combine op := Checked.combine_eq op ha hb
  absorb op := Checked.absorb_eq op ha hb
  absorbSelf := Checked.absorbSelf_eq ha
  unionAll _ h := Checked.unionAll_eq h

end Bitmap

/-! ## All of them -/

/-- No index leaves its array, no difference goes below zero, no sum leaves its width and no
narrowing loses anything, in any operation on valid operands: every operation has its plain outcome,
but for the calls on a range of bits that has a value and goes on past the domain. -/
theorem operations_unfailing (t : Thresholds) {vs : Array UInt16} {rs : Array Run} {s : Bitset}
    {c d : Container} {a b : Bitmap} (hvs : Sorted.Increasing vs) (hrs : Runs.Valid rs)
    (hs : s.Exact) (hc : c.Valid) (hd : d.Valid) (ha : a.WellFormed) (hb : b.WellFormed) :
    Sorted.Unfailing vs ∧ Runs.Unfailing rs ∧ s.Unfailing ∧ Container.Unfailing t c d ∧
      Bitmap.Unfailing a b :=
  ⟨Sorted.unfailing hvs, Runs.unfailing hrs, Bitset.unfailing hs, Container.unfailing t hc hd,
    Bitmap.unfailing ha hb⟩

theorem operations_unfailing_at_ends :
    (Sorted.Increasing #[0, 65535] ∧ Runs.Valid #[⟨0, 65535⟩] ∧ Bitset.empty.Exact ∧
        (⟨⟨0, 0, 0⟩, #[⟨65535, .run #[⟨0, 65535⟩]⟩]⟩ : Bitmap).WellFormed ∧
        (⟨.standard, #[⟨65535, .array #[65535]⟩]⟩ : Bitmap).WellFormed) ∧
      Sorted.Unfailing #[0, 65535] ∧ Runs.Unfailing #[⟨0, 65535⟩] ∧ Bitset.empty.Unfailing ∧
      Container.Unfailing ⟨0, 0, 0⟩ (.run #[⟨0, 65535⟩]) (.array #[0, 65535]) ∧
      Bitmap.Unfailing ⟨⟨0, 0, 0⟩, #[⟨65535, .run #[⟨0, 65535⟩]⟩]⟩
        ⟨.standard, #[⟨65535, .array #[65535]⟩]⟩ := by
  have hvs : Sorted.Increasing #[0, 65535] := by
    show [(0 : UInt16), 65535].Pairwise (· < ·)
    decide
  have hrs : Runs.Valid #[⟨0, 65535⟩] := ⟨by decide, List.pairwise_singleton _ _⟩
  have hs : Bitset.empty.Exact := Bitset.exact_empty
  have ha : (⟨⟨0, 0, 0⟩, #[⟨65535, .run #[⟨0, 65535⟩]⟩]⟩ : Bitmap).WellFormed := by decide
  have hb : (⟨.standard, #[⟨65535, .array #[65535]⟩]⟩ : Bitmap).WellFormed := by decide
  exact ⟨⟨hvs, hrs, hs, ha, hb⟩, operations_unfailing ⟨0, 0, 0⟩ hvs hrs hs hrs hvs ha hb⟩

end Roaring
