import Mathlib.Data.List.Nodup
import Roaring.Bitset
import Roaring.Bitset.Bits
import Roaring.Proofs.Sorted
import Roaring.Proofs.Word

/-!
# Values and counts of bitsets

The values of a word vector are the set bits of the domain in ascending order, and the number kept
beside it is how many of them there are. Every change to a bitset is given by its bits, and leaves
a known number exact.
-/
namespace Roaring

/-- Every value of the domain in ascending order. -/
def domain : List UInt16 := (List.range domainSize).map Nat.toUInt16

theorem toNat_toUInt16 {n : Nat} (h : n < 65536) : n.toUInt16.toNat = n := by
  rw [Nat.toUInt16_eq, UInt16.toNat_ofNat', Nat.mod_eq_of_lt h]

theorem domain_eq : domain = (List.range domainSize).map Nat.toUInt16 := rfl

-- Unfolding `domain` would evaluate it.
attribute [irreducible] domain

theorem mem_domain (v : UInt16) : v ∈ domain := by
  rw [domain_eq]
  refine List.mem_map.mpr ⟨v.toNat, List.mem_range.mpr v.toNat_lt, ?_⟩
  exact UInt16.toNat_inj.mp (toNat_toUInt16 v.toNat_lt)

theorem pairwise_domain : domain.Pairwise (· < ·) := by
  rw [domain_eq]
  refine List.pairwise_map.mpr (List.Pairwise.imp_of_mem ?_ List.pairwise_lt_range)
  intro i j hi hj hij
  rw [UInt16.lt_iff_toNat_lt, toNat_toUInt16 (List.mem_range.mp hi),
    toNat_toUInt16 (List.mem_range.mp hj)]
  exact hij

namespace Words

/-! ## Values -/

theorem toList_valuesFrom (i : Nat) (ws : List UInt64) (out : Array UInt16) :
    (valuesFrom i ws out).toList = out.toList ++
      ((List.range' (64 * i) (64 * ws.length)).filter fun n =>
        Word.test (ws.getD (n / 64 - i) 0) (n % 64)).map Nat.toUInt16 := by
  induction ws generalizing i out with
  | nil => simp [valuesFrom]
  | cons w ws ih =>
    have hsplit : List.range' (64 * i) (64 * (w :: ws).length) =
        List.range' (64 * i) 64 ++ List.range' (64 * (i + 1)) (64 * ws.length) := by
      rw [show 64 * (i + 1) = 64 * i + 64 from rfl, List.range'_append_1, List.length_cons]
      congr 1
      omega
    have hfirst : ((List.range' (64 * i) 64).filter fun n =>
          Word.test ((w :: ws).getD (n / 64 - i) 0) (n % 64)) =
        (Word.positions w).map (64 * i + ·) := by
      rw [List.range'_eq_map_range, List.filter_map, Word.positions]
      congr 1
      apply List.filter_congr
      intro k hk
      have hk := List.mem_range.mp hk
      have hd : (64 * i + k) / 64 - i = 0 := by omega
      have hm : (64 * i + k) % 64 = k := by omega
      simp [hd, hm]
    have hrest : ((List.range' (64 * (i + 1)) (64 * ws.length)).filter fun n =>
          Word.test ((w :: ws).getD (n / 64 - i) 0) (n % 64)) =
        (List.range' (64 * (i + 1)) (64 * ws.length)).filter fun n =>
          Word.test (ws.getD (n / 64 - (i + 1)) 0) (n % 64) := by
      apply List.filter_congr
      intro n hn
      have hn := (List.mem_range'_1.mp hn).1
      have hd : n / 64 - i = (n / 64 - (i + 1)) + 1 := by omega
      simp [hd]
    rw [valuesFrom, ih, Word.toList_valuesInto, hsplit, List.filter_append, hfirst, hrest]
    simp

/-- The values are the set bits of the domain. -/
theorem toList_values (ws : Words) : ws.values.toList = domain.filter ws.test := by
  rw [values, toList_valuesFrom, domain_eq, List.filter_map, List.range_eq_range']
  simp only [Nat.mul_zero, Vector.length_toList, Nat.reduceMul, List.nil_append, Nat.sub_zero]
  congr 1
  apply List.filter_congr
  intro n hn
  have hn : n < 65536 := by simpa [domainSize] using (List.mem_range'_1.mp hn).2
  have hslot : n / 64 < 1024 := by omega
  simp [test, toNat_toUInt16 hn, List.getD_eq_getElem?_getD, hslot]

@[simp] theorem mem_values (ws : Words) (v : UInt16) : v ∈ ws.values ↔ ws.test v := by
  rw [← Array.mem_toList_iff, toList_values]
  simp [mem_domain]

theorem increasing_values (ws : Words) : Sorted.Increasing ws.values := by
  rw [Sorted.Increasing, toList_values]
  exact List.Pairwise.filter _ pairwise_domain

/-! ## Counts -/

theorem size_valuesFrom (i : Nat) (ws : List UInt64) (out : Array UInt16) :
    (valuesFrom i ws out).size = out.size + (ws.map Word.count).foldr (· + ·) 0 := by
  induction ws generalizing i out with
  | nil => rfl
  | cons w ws ih =>
    have hword := congrArg List.length (Word.toList_valuesInto (64 * i) w out)
    simp only [Array.length_toList, List.length_append, List.length_map,
      Word.length_positions] at hword
    rw [valuesFrom, ih, hword, List.map_cons, List.foldr_cons, Nat.add_assoc]

theorem size_values (ws : Words) : ws.values.size = ws.count := by
  simp [values, size_valuesFrom, count_eq_foldr]

/-- The number of set bits, counted over the domain. -/
theorem count_eq_countP (ws : Words) : ws.count = domain.countP ws.test := by
  rw [← size_values, ← Array.length_toList, toList_values, List.countP_eq_length_filter]

/-- Two vectors that agree on all values but one differ in count by that value alone. -/
theorem count_add_of_agree {a b : Words} {u : UInt16} (h : ∀ v, v ≠ u → a.test v = b.test v) :
    a.count + (b.test u).toNat = b.count + (a.test u).toNat := by
  have key : ∀ l : List UInt16, l.Nodup → u ∈ l →
      l.countP a.test + (b.test u).toNat = l.countP b.test + (a.test u).toNat := by
    intro l hl hu
    have hrest : ∀ l' : List UInt16, u ∉ l' → l'.countP a.test = l'.countP b.test := by
      intro l' hu'
      exact List.countP_congr fun v hv => by rw [h v fun e => hu' (e ▸ hv)]
    obtain ⟨s, t, rfl⟩ := List.append_of_mem hu
    have hs : u ∉ s := fun hus => (List.disjoint_of_nodup_append hl) hus List.mem_cons_self
    have ht : u ∉ t := (List.nodup_cons.mp (List.nodup_append'.mp hl).2.1).1
    simp only [List.countP_append, List.countP_cons, hrest s hs, hrest t ht]
    cases a.test u <;> cases b.test u <;> simp <;> omega
  rw [count_eq_countP, count_eq_countP]
  exact key domain (Sorted.nodup_of_increasing pairwise_domain) (mem_domain u)

/-! ## Lists of values -/

theorem count_put (ws : Words) (u : UInt16) :
    (ws.put u).count = if ws.test u then ws.count else ws.count + 1 := by
  have h := count_add_of_agree (a := ws.put u) (b := ws) (u := u) fun v hv => by simp [hv]
  cases hu : ws.test u <;> simp [hu] at h ⊢ <;> omega

theorem count_clear (ws : Words) (u : UInt16) :
    (ws.clear u).count = if ws.test u then ws.count - 1 else ws.count := by
  have h := count_add_of_agree (a := ws.clear u) (b := ws) (u := u) fun v hv => by simp [hv]
  cases hu : ws.test u <;> simp [hu] at h ⊢ <;> omega

theorem count_pos_of_test {ws : Words} {u : UInt16} (h : ws.test u) : 0 < ws.count := by
  rw [count_eq_countP]
  exact List.countP_pos_iff.mpr ⟨u, mem_domain u, h⟩

theorem count_flip (ws : Words) (u : UInt16) :
    ((ws.flip u).count : Int) = if ws.test u then (ws.count : Int) - 1 else ws.count + 1 := by
  have h := count_add_of_agree (a := ws.flip u) (b := ws) (u := u) fun v hv => by simp [hv]
  cases hu : ws.test u <;> simp [hu] at h ⊢ <;> omega

theorem putAll_spec (ws : Words) (vs : Array UInt16) :
    (∀ v, (ws.putAll vs).1.test v = (ws.test v || decide (v ∈ vs))) ∧
      (ws.putAll vs).1.count = ws.count + (ws.putAll vs).2 := by
  suffices h : ∀ (l : List UInt16) (ws : Words) (n : Nat),
      let r := l.foldl (fun r v => (r.1.put v, if r.1.test v then r.2 else r.2 + 1)) (ws, n)
      (∀ v, r.1.test v = (ws.test v || decide (v ∈ l))) ∧ r.1.count + n = ws.count + r.2 by
    have := h vs.toList ws 0
    simpa only [putAll, ← Array.foldl_toList, Array.mem_toList_iff, Nat.add_zero] using this
  intro l
  induction l with
  | nil => simp
  | cons u l ih =>
    intro ws n
    obtain ⟨hbits, hcount⟩ := ih (ws.put u) (if ws.test u then n else n + 1)
    simp only [List.foldl_cons]
    refine ⟨fun v => ?_, ?_⟩
    · rw [hbits, test_put]
      simp [Bool.or_assoc]
    · rw [count_put] at hcount
      cases hu : ws.test u <;>
        simp only [hu, Bool.false_eq_true, if_true, if_false] at hcount ⊢ <;> omega

theorem clearAll_spec (ws : Words) (vs : Array UInt16) :
    (∀ v, (ws.clearAll vs).1.test v = (ws.test v && !decide (v ∈ vs))) ∧
      (ws.clearAll vs).1.count + (ws.clearAll vs).2 = ws.count := by
  suffices h : ∀ (l : List UInt16) (ws : Words) (n : Nat),
      let r := l.foldl (fun r v => (r.1.clear v, if r.1.test v then r.2 + 1 else r.2)) (ws, n)
      (∀ v, r.1.test v = (ws.test v && !decide (v ∈ l))) ∧ r.1.count + r.2 = ws.count + n by
    have := h vs.toList ws 0
    simpa only [clearAll, ← Array.foldl_toList, Array.mem_toList_iff, Nat.add_zero] using this
  intro l
  induction l with
  | nil => simp
  | cons u l ih =>
    intro ws n
    obtain ⟨hbits, hcount⟩ := ih (ws.clear u) (if ws.test u then n + 1 else n)
    simp only [List.foldl_cons]
    refine ⟨fun v => ?_, ?_⟩
    · rw [hbits, test_clear]
      simp [Bool.and_assoc]
    · rw [count_clear] at hcount
      cases hu : ws.test u with
      | false => simpa only [hu, Bool.false_eq_true, if_false] using hcount
      | true =>
        have := count_pos_of_test hu
        simp only [hu, if_true] at hcount ⊢
        omega

/-- Every occurrence of a value toggles it. -/
theorem flipAll_spec (ws : Words) (vs : Array UInt16) :
    (∀ v, (ws.flipAll vs).1.test v = (ws.test v ^^ decide (vs.toList.count v % 2 = 1))) ∧
      ((ws.flipAll vs).1.count : Int) = ws.count + (ws.flipAll vs).2 := by
  suffices h : ∀ (l : List UInt16) (ws : Words) (n : Int),
      let r := l.foldl (fun r v => (r.1.flip v, if r.1.test v then r.2 - 1 else r.2 + 1)) (ws, n)
      (∀ v, r.1.test v = (ws.test v ^^ decide (l.count v % 2 = 1))) ∧
        (r.1.count : Int) + n = ws.count + r.2 by
    have := h vs.toList ws 0
    simpa only [flipAll, ← Array.foldl_toList, Int.add_zero] using this
  intro l
  induction l with
  | nil => simp
  | cons u l ih =>
    intro ws n
    obtain ⟨hbits, hcount⟩ := ih (ws.flip u) (if ws.test u then n - 1 else n + 1)
    simp only [List.foldl_cons]
    refine ⟨fun v => ?_, ?_⟩
    · rw [hbits, test_flip, List.count_cons, Bool.xor_assoc]
      congr 1
      by_cases hvu : v = u
      · subst hvu
        rcases Nat.mod_two_eq_zero_or_one (l.count v) with hl | hl
        · have : (l.count v + 1) % 2 = 1 := by omega
          simp [hl, this]
        · have : (l.count v + 1) % 2 = 0 := by omega
          simp [hl, this]
      · simp [hvu, Ne.symm hvu]
    · rw [count_flip] at hcount
      cases hu : ws.test u <;>
        simp only [hu, Bool.false_eq_true, if_true, if_false] at hcount ⊢ <;> omega

theorem test_flipAll {vs : Array UInt16} (h : Sorted.Increasing vs) (ws : Words) (v : UInt16) :
    (ws.flipAll vs).1.test v = (ws.test v ^^ decide (v ∈ vs)) := by
  rw [(flipAll_spec ws vs).1, List.Nodup.count (Sorted.nodup_of_increasing h)]
  simp only [Array.mem_toList_iff]
  split <;> simp_all

/-! ## Ranges -/

theorem countP_and_add_countP_and_not {α : Type} (p q : α → Bool) (l : List α) :
    l.countP (fun a => p a && q a) + l.countP (fun a => p a && !q a) = l.countP p := by
  induction l with
  | nil => rfl
  | cons a l ih =>
    simp only [List.countP_cons]
    cases p a <;> cases q a <;> simp <;> omega

/-- What passes one of two tests that exclude each other is counted by either. -/
theorem countP_eq_add {α : Type} {p q r : α → Bool} {l : List α}
    (h : ∀ a ∈ l, r a = (p a || q a)) (hdisjoint : ∀ a ∈ l, p a → q a = false) :
    l.countP r = l.countP p + l.countP q := by
  rw [← countP_and_add_countP_and_not r p l]
  congr 1
  · refine List.countP_congr fun a ha => ?_
    rw [h a ha]
    cases p a <;> simp
  · refine List.countP_congr fun a ha => ?_
    rw [h a ha]
    cases hp : p a with
    | false => simp
    | true => simp [hdisjoint a ha hp]

/-- Whether a value is in a range. -/
def inRange (start stop : Nat) (v : UInt16) : Bool := decide (start ≤ v.toNat ∧ v.toNat < stop)

theorem countP_inRange {start stop : Nat} (h : start ≤ stop) (h' : stop ≤ 65536) :
    domain.countP (inRange start stop) = stop - start := by
  have hfilter : (List.range domainSize).filter (fun n => decide (start ≤ n ∧ n < stop)) =
      List.range' start (stop - start) := by
    refine List.Pairwise.eq_of_mem_iff (r := (· < ·))
      (List.Pairwise.filter _ List.pairwise_lt_range) (List.pairwise_lt_range' _) fun n => ?_
    simp only [List.mem_filter, List.mem_range, List.mem_range'_1, decide_eq_true_eq, domainSize]
    omega
  have hcongr : (List.range domainSize).countP (inRange start stop ∘ Nat.toUInt16) =
      (List.range domainSize).countP fun n => decide (start ≤ n ∧ n < stop) := by
    refine List.countP_congr fun n hn => ?_
    simp [inRange, toNat_toUInt16 (List.mem_range.mp hn)]
  rw [domain_eq, List.countP_map, hcongr, List.countP_eq_length_filter, hfilter, List.length_range']

theorem count_set (ws : Words) {i : Nat} (hi : i < 1024) (w : UInt64) :
    count (ws.set i w) + Word.count ws[i] = ws.count + Word.count w := by
  have key : ∀ (l : List UInt64) (i : Nat) (hi : i < l.length),
      ((l.set i w).map Word.count).foldr (· + ·) 0 + Word.count l[i] =
        (l.map Word.count).foldr (· + ·) 0 + Word.count w := by
    intro l
    induction l with
    | nil => intro i hi; cases hi
    | cons u l ih =>
      intro i hi
      cases i with
      | zero => simp; omega
      | succ i =>
        have := ih i (by simpa using hi)
        simp only [List.set_cons_succ, List.map_cons, List.foldr_cons, List.getElem_cons_succ]
        omega
  have := key ws.toList i (by simpa using hi)
  simpa [count_eq_foldr, Vector.toList_set] using this

theorem sumFrom_set (g : Nat → UInt64 → Nat) (ws : Words) {i j : Nat} (hi : i < 1024) (w : UInt64)
    (n acc : Nat) (hij : i < j) : sumFrom g (ws.set i w) j n acc = sumFrom g ws j n acc := by
  induction n generalizing j acc with
  | zero => rfl
  | succ n ih =>
    rw [sumFrom, sumFrom]
    split
    · rw [ih _ (by omega), Vector.getElem_set_ne _ _ (by omega)]
    · rfl

/-- Taking out of each word what a sum counts in it takes the sum out of the count. -/
theorem count_mapFrom_add_sumFrom {f : Nat → UInt64 → UInt64} {g : Nat → UInt64 → Nat}
    (h : ∀ i w, Word.count (f i w) + g i w = Word.count w) (ws : Words) (i n acc : Nat) :
    (mapFrom f ws i n).count + sumFrom g ws i n acc = ws.count + acc := by
  induction n generalizing ws i acc with
  | zero => rfl
  | succ n ih =>
    rw [mapFrom, sumFrom]
    split
    · rename_i hi
      have hset := count_set ws hi (f i ws[i])
      have hrest := ih (ws.set i (f i ws[i])) (i + 1) (acc + g i ws[i])
      rw [sumFrom_set g ws hi _ _ _ (by omega : i < i + 1)] at hrest
      have := h i ws[i]
      omega
    · rfl

theorem count_clearRange_add (ws : Words) (start stop : Nat) :
    (ws.clearRange start stop).count + ws.countRange start stop = ws.count := by
  refine count_mapFrom_add_sumFrom (fun i w => ?_) ws _ _ 0
  simp only [← Word.length_positions, Word.positions, ← List.countP_eq_length_filter]
  rw [Nat.add_comm, ← countP_and_add_countP_and_not (Word.test w)
    (Word.test (rangeMask start stop i)) (List.range 64)]
  congr 1
  · refine List.countP_congr fun k hk => ?_
    rw [Word.test_and (List.mem_range.mp hk)]
  · refine List.countP_congr fun k hk => ?_
    rw [Word.test_and (List.mem_range.mp hk), Word.test_not (List.mem_range.mp hk)]

theorem countRange_eq_countP (ws : Words) (start stop : Nat) :
    ws.countRange start stop = domain.countP fun v => ws.test v && inRange start stop v := by
  have h := count_clearRange_add ws start stop
  have hsplit := countP_and_add_countP_and_not ws.test (inRange start stop) domain
  have hclear : (ws.clearRange start stop).count =
      domain.countP fun v => ws.test v && !inRange start stop v := by
    rw [count_eq_countP]
    exact List.countP_congr fun v _ => by rw [test_clearRange, inRange]
  rw [count_eq_countP ws] at h
  omega

theorem count_putRange (ws : Words) {start stop : Nat} (h : start ≤ stop) (h' : stop ≤ 65536) :
    (ws.putRange start stop).count = (ws.clearRange start stop).count + (stop - start) := by
  have hsplit := countP_and_add_countP_and_not (ws.putRange start stop).test
    (inRange start stop) domain
  rw [count_eq_countP, count_eq_countP, ← hsplit, ← countP_inRange h h', Nat.add_comm]
  congr 1
  · refine List.countP_congr fun v _ => ?_
    rw [test_putRange, test_clearRange, ← inRange]
    cases ws.test v <;> cases inRange start stop v <;> rfl
  · refine List.countP_congr fun v _ => ?_
    rw [test_putRange, ← inRange]
    cases ws.test v <;> cases inRange start stop v <;> simp

theorem count_flipRange (ws : Words) {start stop : Nat} (h : start ≤ stop) (h' : stop ≤ 65536) :
    (ws.flipRange start stop).count =
      (ws.clearRange start stop).count + (stop - start - ws.countRange start stop) := by
  have hsplit := countP_and_add_countP_and_not (ws.flipRange start stop).test
    (inRange start stop) domain
  have hrange := countP_and_add_countP_and_not (inRange start stop) ws.test domain
  rw [countP_inRange h h'] at hrange
  have hheld : ws.countRange start stop =
      domain.countP fun v => inRange start stop v && ws.test v := by
    rw [countRange_eq_countP]
    exact List.countP_congr fun v _ => by rw [Bool.and_comm]
  have hin : (domain.countP fun v => (ws.flipRange start stop).test v && inRange start stop v) =
      domain.countP fun v => inRange start stop v && !ws.test v := by
    refine List.countP_congr fun v _ => ?_
    rw [test_flipRange, ← inRange]
    cases ws.test v <;> cases inRange start stop v <;> rfl
  have hout : (domain.countP fun v => (ws.flipRange start stop).test v && !inRange start stop v) =
      (ws.clearRange start stop).count := by
    rw [count_eq_countP]
    refine List.countP_congr fun v _ => ?_
    rw [test_flipRange, test_clearRange, ← inRange]
    cases ws.test v <;> cases inRange start stop v <;> rfl
  rw [count_eq_countP (ws.flipRange start stop)]
  omega

end Words

/-! ## Whether the number is known

A change keeps a known number known, and an unknown one unknown. -/

namespace Bitset

theorem known_replace (b : Bitset) (ws : Words) (change : Int) :
    (b.replace ws change).cached.isSome = b.cached.isSome := by
  unfold replace
  cases b.cached <;> rfl

theorem known_insert (b : Bitset) (v : UInt16) :
    (b.insert v).2.cached.isSome = b.cached.isSome := by
  unfold insert
  split
  · rfl
  · exact known_replace b _ _

theorem known_erase (b : Bitset) (v : UInt16) :
    (b.erase v).2.cached.isSome = b.cached.isSome := by
  unfold erase
  split
  · exact known_replace b _ _
  · rfl

theorem known_ofValues (vs : Array UInt16) : (ofValues vs).cached.isSome :=
  known_replace empty _ _

theorem known_changeRange (change : Words → Nat → Nat → Words) (after : Nat → Nat → Nat)
    (b : Bitset) (start stop : Nat) :
    (changeRange change after b start stop).cached.isSome = b.cached.isSome := by
  unfold changeRange
  split
  · dsimp only
    rw [Option.isSome_map]
  · rfl

theorem known_overRuns {change : Bitset → Nat → Nat → Bitset}
    (h : ∀ b start stop, (change b start stop).cached.isSome = b.cached.isSome) (b : Bitset)
    (rs : Array Run) : (overRuns change b rs).cached.isSome = b.cached.isSome := by
  rw [overRuns, ← Array.foldl_toList]
  induction rs.toList generalizing b with
  | nil => rfl
  | cons r rs ih => exact (ih _).trans (h b _ _)

theorem known_ofRuns (rs : Array Run) : (ofRuns rs).cached.isSome :=
  known_overRuns (known_changeRange _ _) empty rs

end Bitset

/-! ## The number kept beside the words -/

namespace Bitset

/-- Bitsets with the same bits, each of known size, are one. -/
theorem eq_of_counted {a b : Bitset} (ha : a.Exact) (hb : b.Exact) (hka : a.cached.isSome)
    (hkb : b.cached.isSome) (hwords : a.words = b.words) : a = b := by
  obtain ⟨n, hn⟩ := Option.isSome_iff_exists.mp hka
  obtain ⟨m, hm⟩ := Option.isSome_iff_exists.mp hkb
  have hcount : n = m := by rw [ha n hn, hb m hm, hwords]
  cases a
  cases b
  simp_all

theorem card_eq {b : Bitset} (h : b.Exact) : b.card = b.words.count := by
  cases hc : b.cached with
  | none => simp [card, hc]
  | some n => simp [card, hc, h n hc]

theorem isEmpty_iff {b : Bitset} (h : b.Exact) : b.isEmpty ↔ ∀ v, b.words.test v = false := by
  have hcount : b.words.count = 0 ↔ ∀ v, b.words.test v = false := by
    rw [Words.count_eq_countP, List.countP_eq_zero]
    constructor
    · intro hz v
      simpa using hz v (mem_domain v)
    · intro hz v _
      simp [hz v]
  cases hc : b.cached with
  | none =>
    simp only [isEmpty, hc]
    constructor
    · intro hall v
      have := Vector.all_iff_forall.mp hall (v.toNat / 64) (Words.slot_lt v)
      simp only [decide_eq_true_eq] at this
      simp [Words.test, this, Word.test_zero (Words.bit_lt v)]
    · intro hz
      have : b.words = Words.empty := Words.ext fun v => by simp [hz v]
      simp [this, Words.empty]
  | some n =>
    simp only [isEmpty, hc, decide_eq_true_eq]
    rw [h n hc, hcount]

theorem exact_replace {b : Bitset} (h : b.Exact) {ws : Words} {change : Int}
    (hc : (ws.count : Int) = b.words.count + change) : (b.replace ws change).Exact := by
  intro n hn
  cases hm : b.cached with
  | none => simp [replace, hm] at hn
  | some m =>
    have hn : ((m : Int) + change).toNat = n := by simpa [replace, hm] using hn
    have := h m hm
    show n = ws.count
    omega

theorem exact_insert {b : Bitset} (h : b.Exact) (v : UInt16) : (b.insert v).2.Exact := by
  unfold insert
  split
  · exact h
  · exact exact_replace h (by rw [Words.count_put, if_neg ‹_›]; omega)

theorem exact_erase {b : Bitset} (h : b.Exact) (v : UInt16) : (b.erase v).2.Exact := by
  unfold erase
  split
  · have := Words.count_pos_of_test ‹_›
    exact exact_replace h (by rw [Words.count_clear, if_pos ‹_›]; omega)
  · exact h

theorem exact_insertAll {b : Bitset} (h : b.Exact) (vs : Array UInt16) :
    (b.insertAll vs).Exact := by
  have hc := (Words.putAll_spec b.words vs).2
  show (b.replace (b.words.putAll vs).1 (b.words.putAll vs).2).Exact
  exact exact_replace h (by omega)

theorem exact_eraseAll {b : Bitset} (h : b.Exact) (vs : Array UInt16) :
    (b.eraseAll vs).Exact := by
  have hc := (Words.clearAll_spec b.words vs).2
  show (b.replace (b.words.clearAll vs).1 (-(b.words.clearAll vs).2)).Exact
  exact exact_replace h (by omega)

theorem exact_toggleAll {b : Bitset} (h : b.Exact) (vs : Array UInt16) : (b.toggleAll vs).Exact :=
  exact_replace h (Words.flipAll_spec b.words vs).2

theorem exact_changeRange {change : Words → Nat → Nat → Words} {after : Nat → Nat → Nat}
    {b : Bitset} (h : b.Exact) {start stop : Nat}
    (hc : (change b.words start stop).count = (b.words.clearRange start stop).count +
      after (stop - start) (b.words.countRange start stop)) :
    (changeRange change after b start stop).Exact := by
  unfold changeRange
  split
  · intro n hn
    obtain ⟨m, hm, rfl⟩ := Option.map_eq_some_iff.mp hn
    have := Words.count_clearRange_add b.words start stop
    simp only [h m hm, hc]
    omega
  · exact h

theorem exact_insertRange {b : Bitset} (h : b.Exact) {start stop : Nat} (hs : stop ≤ 65536) :
    (b.insertRange start stop).Exact := by
  rcases Nat.le_total start stop with hle | hle
  · exact exact_changeRange h (Words.count_putRange b.words hle hs)
  · rw [insertRange, changeRange, if_neg (Nat.not_lt.mpr hle)]
    exact h

theorem exact_eraseRange {b : Bitset} (h : b.Exact) (start stop : Nat) :
    (b.eraseRange start stop).Exact :=
  exact_changeRange h rfl

theorem exact_toggleRange {b : Bitset} (h : b.Exact) {start stop : Nat} (hs : stop ≤ 65536) :
    (b.toggleRange start stop).Exact := by
  rcases Nat.le_total start stop with hle | hle
  · exact exact_changeRange h (Words.count_flipRange b.words hle hs)
  · rw [toggleRange, changeRange, if_neg (Nat.not_lt.mpr hle)]
    exact h

end Bitset

end Roaring
