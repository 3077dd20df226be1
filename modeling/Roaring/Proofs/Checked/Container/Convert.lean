import Roaring.Proofs.Checked.Bitset
import Roaring.Proofs.Checked.Runs.Compare
import Roaring.Proofs.Checked.Runs.Edit
import Roaring.Proofs.Container.Query

/-!
# Containers, checked

A query of a container is one of its encoding. Byte sizes fit because a container holds no more than
65536 values. Where a list is wrapped into a container, that it is in order is asserted.
-/
namespace Roaring.Container.Checked

open Machine

/-! ## Lists tested value by value -/

section Tested

variable {p : UInt16 → Option Bool} {q : UInt16 → Bool}

/-- The values of a list that pass a test. -/
def filter (p : UInt16 → Option Bool) (vs : Array UInt16) : Option (Array UInt16) :=
  vs.toList.foldlM (fun out v => do some (if ← p v then out.push v else out)) #[]

/-- The number of values of a list that pass a test. -/
def count (p : UInt16 → Option Bool) (vs : Array UInt16) : Option Nat :=
  vs.toList.foldlM (fun n v => do to64 (if ← p v then n + 1 else n)) 0

def all (p : UInt16 → Option Bool) (vs : Array UInt16) : Option Bool := vs.toList.allM p

def any (p : UInt16 → Option Bool) (vs : Array UInt16) : Option Bool := vs.toList.anyM p

theorem foldl_push_filter (q : UInt16 → Bool) (vs : List UInt16) (out : Array UInt16) :
    vs.foldl (fun out v => if q v then out.push v else out) out = out ++ (vs.filter q).toArray := by
  induction vs generalizing out with
  | nil => simp
  | cons v vs ih => cases hq : q v <;> simp [ih, hq]

theorem foldl_countP (q : UInt16 → Bool) (vs : List UInt16) (n : Nat) :
    vs.foldl (fun n v => if q v then n + 1 else n) n = n + vs.countP q := by
  induction vs generalizing n with
  | nil => rfl
  | cons v vs ih =>
    rw [List.foldl_cons, ih, List.countP_cons]
    split <;> omega

variable (h : ∀ v, p v = some (q v))

include h

theorem filter_eq (vs : Array UInt16) : filter p vs = some (vs.filter q) := by
  have hplain : vs.filter q =
      vs.toList.foldl (fun out v => if q v then out.push v else out) #[] := by
    rw [foldl_push_filter, Array.empty_append, ← Array.toList_filter]
  rw [filter, hplain]
  refine foldlM_eq_some (fun _ _ => True) (fun out v _ _ => ⟨?_, trivial⟩) _ _ trivial
  rw [bind_of_eq (h v)]

theorem count_eq {vs : Array UInt16} (hsize : vs.size < 2 ^ 63) :
    count p vs = some (vs.countP q) := by
  have hplain : vs.countP q = vs.toList.foldl (fun n v => if q v then n + 1 else n) 0 := by
    rw [foldl_countP, Nat.zero_add, Array.countP_toList]
  rw [count, hplain]
  refine foldlM_eq_some (fun n rest => n + rest.length < 2 ^ 63) ?_ _ _ (by simpa using hsize)
  intro n v rest hn
  rw [List.length_cons] at hn
  rw [bind_of_eq (h v)]
  split
  · exact ⟨to64_of_lt (by omega), by omega⟩
  · exact ⟨to64_of_lt (by omega), by omega⟩

theorem all_eq (vs : Array UInt16) : all p vs = some (vs.all q) := by
  rw [all, allM_eq_some fun v _ => h v, Array.all_toList]

theorem any_eq (vs : Array UInt16) : any p vs = some (vs.any q) := by
  rw [any, anyM_eq_some fun v _ => h v, Array.any_toList]

end Tested

/-! ## Queries -/

def values : Container → Option (Array UInt16)
  | array vs => some vs
  | bitset b => Words.Checked.values b.words
  | run rs => Runs.Checked.values rs

def card : Container → Option Nat
  | array vs => some vs.size
  | bitset b => Bitset.Checked.card b
  | run rs => Runs.Checked.card rs

def isFull : Container → Option Bool
  | array vs => some (vs.size = domainSize)
  | bitset b => Bitset.Checked.isFull b
  | run rs => some (Runs.isFull rs)

def contains (c : Container) (v : UInt16) : Option Bool :=
  match c with
  | array vs => some (Sorted.contains vs v)
  | bitset b => Bitset.Checked.contains b v
  | run rs => Runs.Checked.contains rs v

def containsRange (c : Container) (start stop : Nat) : Option Bool :=
  match c with
  | array vs => Sorted.Checked.containsRange vs start stop
  | bitset b => Bitset.Checked.containsRange b start stop
  | run rs => Runs.Checked.containsRange rs start stop

def min? : Container → Option (Option UInt16)
  | array vs => some vs[0]?
  | bitset b => Words.Checked.min? b.words
  | run rs => some (Runs.min? rs)

def max? : Container → Option (Option UInt16)
  | array vs => some vs.back?
  | bitset b => Words.Checked.max? b.words
  | run rs => Runs.Checked.max? rs

def rank (c : Container) (v : UInt16) : Option Nat :=
  match c with
  | array vs => Sorted.Checked.rank vs v
  | bitset b => Words.Checked.rank b.words v
  | run rs => Runs.Checked.rank rs v

def select (c : Container) (n : Nat) : Option (Option UInt16) :=
  match c with
  | array vs => some vs[n]?
  | bitset b => Words.Checked.select b.words n
  | run rs => Runs.Checked.select rs n

def numRuns : Container → Option Nat
  | array vs => Sorted.Checked.numRuns vs
  | bitset b => Words.Checked.numRuns b.words
  | run rs => some rs.size

/-- Bytes taken by an array of `n` values. -/
def arrayBytes (n : Nat) : Option Nat := to64 (2 * n + 2)

/-- Bytes taken by `n` runs. -/
def runBytes (n : Nat) : Option Nat := to64 (4 * n + 2)

/-- Bytes taken by the container. -/
def byteSize : Container → Option Nat
  | array vs => arrayBytes vs.size
  | bitset _ => some bitsetBytes
  | run rs => runBytes rs.size

/-- Whether two containers hold the same values, whatever their encodings. -/
def sameValues : Container → Container → Option Bool
  | array a, array b => some (a = b)
  | bitset a, bitset b => some (a.words = b.words)
  | run a, run b => some (a = b)
  | a, b => do
    if (← card a) = (← card b) then do some ((← values a) = (← values b)) else some false

theorem arrayBytes_eq {n : Nat} (h : n ≤ 65536) : arrayBytes n = some (Container.arrayBytes n) :=
  to64_of_lt (by omega)

theorem runBytes_eq {n : Nat} (h : n ≤ 65536) : runBytes n = some (Container.runBytes n) :=
  to64_of_lt (by omega)

section Queries

variable {a b c : Container} (h : c.Valid)

theorem min?_eq (c : Container) : min? c = some c.min? := by
  cases c with
  | array vs => rfl
  | bitset b => exact Words.Checked.min?_eq b.words
  | run rs => rfl

include h

theorem values_eq : values c = some c.values := by
  cases c with
  | array vs => rfl
  | bitset b => exact Words.Checked.values_eq b.words
  | run rs => exact Runs.Checked.values_eq h

theorem card_eq : card c = some c.card := by
  cases c with
  | array vs => rfl
  | bitset b => exact Bitset.Checked.card_eq b
  | run rs => exact Runs.Checked.card_eq h

theorem card_le : c.card ≤ 65536 := by
  rw [card_eq_size h]
  exact Sorted.size_le (increasing_values h)

theorem isFull_eq : isFull c = some c.isFull := by
  cases c with
  | array vs => rfl
  | bitset b => exact Bitset.Checked.isFull_eq b
  | run rs => rfl

theorem contains_eq (v : UInt16) : contains c v = some (c.contains v) := by
  cases c with
  | array vs => rfl
  | bitset b => exact Bitset.Checked.contains_eq b v
  | run rs => exact Runs.Checked.contains_eq h v

theorem containsRange_eq (start stop : Nat) :
    containsRange c start stop = some (c.containsRange start stop) := by
  cases c with
  | array vs => exact Sorted.Checked.containsRange_eq h start stop
  | bitset b => exact Bitset.Checked.containsRange_eq b start stop
  | run rs => exact Runs.Checked.containsRange_eq rs start stop

theorem max?_eq : max? c = some c.max? := by
  cases c with
  | array vs => rfl
  | bitset b => exact Words.Checked.max?_eq b.words
  | run rs => exact Runs.Checked.max?_eq h

theorem rank_eq (v : UInt16) : rank c v = some (c.rank v) := by
  cases c with
  | array vs => exact Sorted.Checked.rank_eq h v
  | bitset b => exact Words.Checked.rank_eq b.words v
  | run rs => exact Runs.Checked.rank_eq h v

theorem rank_le (v : UInt16) : c.rank v ≤ 65536 := by
  have hsize := Sorted.size_le (increasing_values h)
  rw [Container.rank_eq h]
  exact Nat.le_trans List.countP_le_length hsize

theorem select_eq (n : Nat) : select c n = some (c.select n) := by
  cases c with
  | array vs => rfl
  | bitset b => exact Words.Checked.select_eq b.words n
  | run rs => exact Runs.Checked.select_eq h n

theorem numRuns_eq : numRuns c = some c.numRuns := by
  cases c with
  | array vs => exact Sorted.Checked.numRuns_eq h
  | bitset b => exact Words.Checked.numRuns_eq b.words
  | run rs => rfl

theorem numRuns_le : c.numRuns ≤ 65536 := by
  have hsize := Sorted.size_le (increasing_values h)
  rw [Container.numRuns_eq h]
  exact Nat.le_trans List.countP_le_length hsize

theorem byteSize_eq : byteSize c = some c.byteSize := by
  cases c with
  | array vs => exact arrayBytes_eq (Sorted.size_le h)
  | bitset b => rfl
  | run rs => exact runBytes_eq (Runs.size_le h)

end Queries

theorem sameValues_eq {a b : Container} (ha : a.Valid) (hb : b.Valid) :
    sameValues a b = some (a.sameValues b) := by
  have hmixed : (do
      if (← card a) = (← card b) then do some ((← values a) = (← values b) : Bool)
      else some false) =
      some (a.card = b.card && a.values = b.values : Bool) := by
    rw [bind_of_eq (card_eq ha), bind_of_eq (card_eq hb)]
    by_cases hcard : a.card = b.card
    · rw [if_pos hcard, bind_of_eq (values_eq ha), bind_of_eq (values_eq hb)]
      simp [hcard]
    · simp [hcard]
  cases a <;> cases b <;> first | rfl | exact hmixed

/-! ## Wrapping lists -/

/-- An array of values that are strictly increasing. -/
def ofIncreasing (vs : Array UInt16) : Option Container := do
  check (Sorted.Increasing vs)
  some (array vs)

/-- Runs that are valid. -/
def validRuns (rs : Array Run) : Option (Array Run) := do
  check ((← Runs.Checked.isValid rs) = true)
  some rs

theorem ofIncreasing_eq {vs : Array UInt16} (h : Sorted.Increasing vs) :
    ofIncreasing vs = some (array vs) := bind_of_eq (check_of h) _

theorem validRuns_eq {rs : Array Run} (h : Runs.Valid rs) : validRuns rs = some rs := by
  rw [validRuns, bind_of_eq (Runs.Checked.isValid_eq rs),
    bind_of_eq (check_of ((Runs.isValid_iff rs).mpr h))]

/-! ## Conversions

Room is made for as many values or runs as are counted first. -/

/-- The values of a bitset as an array. -/
def arrayOfBits (b : Bitset) : Option Container := do
  let _ ← Bitset.Checked.card b
  ofIncreasing (← Words.Checked.values b.words)

/-- The values of runs as an array. -/
def arrayOfRuns (rs : Array Run) : Option Container := do
  let _ ← Runs.Checked.card rs
  ofIncreasing (← Runs.Checked.values rs)

/-- The values of a bitset as runs. -/
def runsOfBits (b : Bitset) : Option (Array Run) := do
  let _ ← Words.Checked.numRuns b.words
  validRuns (← Words.Checked.runs b.words)

/-- The container's values in a given encoding. -/
def convert (e : Encoding) (c : Container) : Option Container :=
  match c, e with
  | array vs, .bitset => do some (bitset (← Bitset.Checked.ofValues vs))
  | array vs, .run => do some (run (← Runs.Checked.ofValues vs))
  | bitset b, .array => arrayOfBits b
  | bitset b, .run => do some (run (← runsOfBits b))
  | run rs, .array => arrayOfRuns rs
  | run rs, .bitset => do some (bitset (← Bitset.Checked.ofRuns rs))
  | c, _ => some c

/-- Bytes taken by `card` values as an array, where that is allowed, or as a bitset. -/
def plainSize (t : Thresholds) (card : Nat) : Option Nat :=
  if card ≤ t.maxArraySize then do some (min (← arrayBytes card) bitsetBytes) else some bitsetBytes

/-- An array, or above the largest array size a bitset. -/
def compactArray (t : Thresholds) (vs : Array UInt16) : Option Container :=
  if vs.size ≤ t.maxArraySize then some (array vs)
  else do some (bitset (← Bitset.Checked.ofValues vs))

/-- The bitset with its size known. -/
def known (b : Bitset) : Option Bitset :=
  if b.cached.isSome then some b else Bitset.Checked.recount b

/-- A bitset of known size, or up to the largest array size an array. -/
def compactBitset (t : Thresholds) (b : Bitset) : Option Container := do
  let b ← known b
  if (← Bitset.Checked.card b) ≤ t.maxArraySize then arrayOfBits b else some (bitset b)

/-- The values of runs as an array or a bitset, by their number. -/
def expandRuns (t : Thresholds) (rs : Array Run) : Option Container := do
  if (← Runs.Checked.card rs) ≤ t.maxArraySize then arrayOfRuns rs
  else do some (bitset (← Bitset.Checked.ofRuns rs))

/-- Runs, unless their values take less room otherwise. -/
def compactRuns (t : Thresholds) (rs : Array Run) : Option Container := do
  let size ← runBytes rs.size
  if size ≤ (← plainSize t (← Runs.Checked.card rs)) then some (run rs) else expandRuns t rs

/-- The container in its cheapest encoding, with its size known. -/
def compact (t : Thresholds) : Container → Option Container
  | array vs => compactArray t vs
  | bitset b => compactBitset t b
  | run rs => compactRuns t rs

/-- The container of strictly increasing values. -/
def ofValues (t : Thresholds) (vs : Array UInt16) : Option Container :=
  if vs.size ≤ t.maxArraySize then ofIncreasing vs
  else do some (bitset (← Bitset.Checked.ofValues vs))

/-- The container of the values in `[start, stop)`; those past the domain are left out. -/
def ofRange (t : Thresholds) (start stop : Nat) : Option Container :=
  if start < min stop domainSize then do compactRuns t (← Runs.Checked.ofRange start stop)
  else some ∅

/-- Turns to runs where they take less room than the present encoding, and away from them where
they are not the cheapest. -/
def preferRuns (t : Thresholds) (c : Container) : Option Container :=
  match c with
  | array vs => do
    let size ← runBytes (← Sorted.Checked.numRuns vs)
    if size < (← arrayBytes vs.size) then do some (run (← Runs.Checked.ofValues vs))
    else some (array vs)
  | bitset b => do
    let size ← runBytes (← Words.Checked.numRuns b.words)
    if size < bitsetBytes then do some (run (← runsOfBits b)) else some (bitset b)
  | run rs => compactRuns t rs

/-- The outcome of `preferRuns`; also whether it consists of runs. -/
def runOptimize (t : Thresholds) (c : Container) : Option (Bool × Container) := do
  let c ← preferRuns t c
  some (c.encoding = .run, c)

/-- Turns away from runs; also whether there were any to turn away from. -/
def removeRuns (t : Thresholds) (c : Container) : Option (Bool × Container) :=
  match c with
  | run rs => do some (true, ← expandRuns t rs)
  | c => some (false, c)

section Convert

variable {c : Container} {rs : Array Run} {vs : Array UInt16}

theorem arrayOfBits_eq (b : Bitset) : arrayOfBits b = some (array b.words.values) := by
  rw [arrayOfBits, bind_of_eq (Bitset.Checked.card_eq b),
    bind_of_eq (Words.Checked.values_eq b.words), ofIncreasing_eq (Words.increasing_values b.words)]

theorem arrayOfRuns_eq (h : Runs.Valid rs) : arrayOfRuns rs = some (array (Runs.values rs)) := by
  rw [arrayOfRuns, bind_of_eq (Runs.Checked.card_eq h), bind_of_eq (Runs.Checked.values_eq h),
    ofIncreasing_eq (Runs.increasing_values h)]

theorem runsOfBits_eq (b : Bitset) : runsOfBits b = some b.words.runs := by
  rw [runsOfBits, bind_of_eq (Words.Checked.numRuns_eq b.words),
    bind_of_eq (Words.Checked.runs_eq b.words), validRuns_eq (Words.runs_spec b.words).1]

theorem convert_eq (e : Encoding) (h : c.Valid) : convert e c = some (c.convert e) := by
  cases c with
  | array vs =>
    cases e with
    | array => rfl
    | bitset => exact bind_of_eq (Bitset.Checked.ofValues_eq vs) _
    | run => exact bind_of_eq (Runs.Checked.ofValues_eq h) _
  | bitset b =>
    cases e with
    | array => exact arrayOfBits_eq b
    | bitset => rfl
    | run => exact bind_of_eq (runsOfBits_eq b) _
  | run rs =>
    cases e with
    | array => exact arrayOfRuns_eq h
    | bitset => exact bind_of_eq (Bitset.Checked.ofRuns_eq h) _
    | run => rfl

variable (t : Thresholds)

theorem plainSize_eq {n : Nat} (h : n ≤ 65536) :
    plainSize t n = some (Container.plainSize t n) := by
  unfold plainSize Container.plainSize
  split
  · exact bind_of_eq (arrayBytes_eq h) _
  · rfl

theorem compactArray_eq (vs : Array UInt16) :
    compactArray t vs = some (Container.compactArray t vs) := by
  unfold compactArray Container.compactArray
  split
  · rfl
  · exact bind_of_eq (Bitset.Checked.ofValues_eq vs) _

theorem known_eq (b : Bitset) : known b = some (if b.cached.isSome then b else b.recount) := by
  unfold known
  split
  · rfl
  · exact Bitset.Checked.recount_eq b

theorem compactBitset_eq (b : Bitset) :
    compactBitset t b = some (Container.compactBitset t b) := by
  rw [compactBitset, bind_of_eq (known_eq b), bind_of_eq (Bitset.Checked.card_eq _),
    Container.compactBitset]
  generalize (if b.cached.isSome then b else b.recount) = b
  split
  · exact arrayOfBits_eq b
  · rfl

theorem expandRuns_eq (h : Runs.Valid rs) : expandRuns t rs = some (Container.expandRuns t rs) := by
  rw [expandRuns, bind_of_eq (Runs.Checked.card_eq h), Container.expandRuns]
  split
  · exact arrayOfRuns_eq h
  · exact bind_of_eq (Bitset.Checked.ofRuns_eq h) _

theorem compactRuns_eq (h : Runs.Valid rs) :
    compactRuns t rs = some (Container.compactRuns t rs) := by
  rw [compactRuns, bind_of_eq (runBytes_eq (Runs.size_le h)), bind_of_eq (Runs.Checked.card_eq h),
    bind_of_eq (plainSize_eq t (Runs.card_le h)), Container.compactRuns]
  split
  · rfl
  · exact expandRuns_eq t h

theorem compact_eq (h : c.Valid) : compact t c = some (c.compact t) := by
  cases c with
  | array vs => exact compactArray_eq t vs
  | bitset b => exact compactBitset_eq t b
  | run rs => exact compactRuns_eq t h

theorem ofValues_eq (h : Sorted.Increasing vs) :
    ofValues t vs = some (Container.ofValues t vs) := by
  unfold ofValues Container.ofValues Container.compactArray
  split
  · exact ofIncreasing_eq h
  · exact bind_of_eq (Bitset.Checked.ofValues_eq vs) _

theorem ofRange_eq (start stop : Nat) :
    ofRange t start stop = some (Container.ofRange t start stop) := by
  unfold ofRange Container.ofRange
  split
  · rw [bind_of_eq (Runs.Checked.ofRange_eq start stop),
      compactRuns_eq t (Runs.valid_ofRange start stop)]
  · rfl

theorem preferRuns_eq (h : c.Valid) : preferRuns t c = some (c.preferRuns t) := by
  cases c with
  | array vs =>
    have hle : Sorted.numRuns vs ≤ 65536 := numRuns_le h
    rw [preferRuns, bind_of_eq (Sorted.Checked.numRuns_eq h), bind_of_eq (runBytes_eq hle),
      bind_of_eq (arrayBytes_eq (Sorted.size_le h)), Container.preferRuns]
    split
    · exact bind_of_eq (Runs.Checked.ofValues_eq h) _
    · rfl
  | bitset b =>
    have hle : b.words.numRuns ≤ 65536 := numRuns_le h
    rw [preferRuns, bind_of_eq (Words.Checked.numRuns_eq b.words), bind_of_eq (runBytes_eq hle),
      Container.preferRuns]
    split
    · exact bind_of_eq (runsOfBits_eq b) _
    · rfl
  | run rs => exact compactRuns_eq t h

theorem runOptimize_eq (h : c.Valid) : runOptimize t c = some (c.runOptimize t) :=
  bind_of_eq (preferRuns_eq t h) _

theorem removeRuns_eq (h : c.Valid) : removeRuns t c = some (c.removeRuns t) := by
  cases c with
  | array vs => rfl
  | bitset b => rfl
  | run rs => exact bind_of_eq (expandRuns_eq t h) _

end Convert

end Roaring.Container.Checked
