import Roaring.Bitmap.Combine
import Roaring.Proofs.Container.Shapes

/-!
# Indexes

An index is read as a list of entries, sound when its keys increase and every container is valid
and holds a value. `mergeBy` says what two indexes in step come to, one entry at a time; the
operation that writes a third index and the one that edits the first in place both compute it.
-/
namespace Roaring

namespace Index

/-- The invariant of an index. -/
structure Sound (es : List Entry) : Prop where
  sorted : es.Pairwise fun x y => x.key < y.key
  valid : ∀ e ∈ es, e.container.Valid
  nonEmpty : ∀ e ∈ es, e.container.isEmpty = false

/-- Whether an index holds the value of two halves. -/
def Holds (es : List Entry) (key low : UInt16) : Prop :=
  ∃ e ∈ es, e.key = key ∧ low ∈ e.container

theorem sound_cons {e : Entry} {es : List Entry} :
    Sound (e :: es) ↔ e.container.Valid ∧ e.container.isEmpty = false ∧
      (∀ x ∈ es, e.key < x.key) ∧ Sound es := by
  constructor
  · rintro ⟨hsorted, hvalid, hne⟩
    obtain ⟨hlt, hsorted⟩ := List.pairwise_cons.mp hsorted
    obtain ⟨hv, hvalid⟩ := List.forall_mem_cons.mp hvalid
    obtain ⟨hn, hne⟩ := List.forall_mem_cons.mp hne
    exact ⟨hv, hn, hlt, hsorted, hvalid, hne⟩
  · rintro ⟨hv, hn, hlt, hsorted, hvalid, hne⟩
    exact ⟨List.pairwise_cons.mpr ⟨hlt, hsorted⟩, List.forall_mem_cons.mpr ⟨hv, hvalid⟩,
      List.forall_mem_cons.mpr ⟨hn, hne⟩⟩

theorem Sound.sublist {es fs : List Entry} (h : Sound fs) (hsub : es.Sublist fs) : Sound es :=
  ⟨h.sorted.sublist hsub, fun e he => h.valid e (hsub.mem he),
    fun e he => h.nonEmpty e (hsub.mem he)⟩

variable {es fs : List Entry} {key low : UInt16}

@[simp] theorem not_holds_nil : ¬Holds [] key low := by simp [Holds]

theorem holds_cons {e : Entry} :
    Holds (e :: es) key low ↔ (e.key = key ∧ low ∈ e.container) ∨ Holds es key low := by
  simp [Holds]

theorem holds_append : Holds (es ++ fs) key low ↔ Holds es key low ∨ Holds fs key low := by
  simp only [Holds, List.mem_append, or_and_right, exists_or]

theorem not_holds_of_lt (h : ∀ e ∈ es, key < e.key) : ¬Holds es key low := by
  rintro ⟨e, he, rfl, -⟩
  exact UInt16.lt_irrefl _ (h e he)

/-- What comes before the head of a sorted index comes before all of it. -/
theorem lt_cons {e : Entry} (h : key < e.key) (hlt : ∀ x ∈ es, e.key < x.key) :
    ∀ x ∈ e :: es, key < x.key :=
  List.forall_mem_cons.mpr ⟨h, fun x hx => UInt16.lt_trans h (hlt x hx)⟩

/-! ## Two indexes in step -/

/-- Entries that are kept or left out together. -/
def only (keep : Bool) (es : List Entry) : List Entry := if keep then es else []

theorem only_sublist (keep : Bool) (es : List Entry) : (only keep es).Sublist es := by
  unfold only
  split
  · exact List.Sublist.refl es
  · exact List.nil_sublist es

theorem holds_only {keep : Bool} : Holds (only keep es) key low ↔ keep ∧ Holds es key low := by
  cases keep <;> simp [only]

/-- The entry of a container that may be empty. -/
def entryOf (key : UInt16) (c : Container) : List Entry := if c.isEmpty then [] else [⟨key, c⟩]

theorem mem_entryOf {c : Container} {e : Entry} :
    e ∈ entryOf key c ↔ c.isEmpty = false ∧ e = ⟨key, c⟩ := by
  unfold entryOf
  cases c.isEmpty <;> simp

theorem holds_entryOf {k : UInt16} {c : Container} (h : c.Valid) :
    Holds (entryOf k c) key low ↔ k = key ∧ low ∈ c := by
  simp only [Holds, mem_entryOf]
  constructor
  · rintro ⟨e, ⟨-, rfl⟩, hk, hl⟩
    exact ⟨hk, hl⟩
  · rintro ⟨hk, hl⟩
    exact ⟨⟨k, c⟩, ⟨(Container.isEmpty_eq_false_iff h).mpr ⟨low, hl⟩, rfl⟩, hk, hl⟩

/-- The entries of two indexes combined. Containers under a key of both are made one by `shared`,
and the key leaves when nothing remains under it. -/
def mergeBy (shared : Container → Container → Container) (op : SetOp) :
    List Entry → List Entry → List Entry
  | [], bs => only op.keepsRight bs
  | as, [] => only op.keepsLeft as
  | a :: as, b :: bs =>
    if a.key = b.key then
      entryOf a.key (shared a.container b.container) ++ mergeBy shared op as bs
    else if a.key < b.key then only op.keepsLeft [a] ++ mergeBy shared op as (b :: bs)
    else only op.keepsRight [b] ++ mergeBy shared op (a :: as) bs
termination_by as bs => as.length + bs.length

/-- Containers under one key become a valid one with the values that the operation asks for. -/
def Meets (op : SetOp) (shared : Container → Container → Container) : Prop :=
  ∀ a b : Container, a.Valid → b.Valid →
    (shared a b).Valid ∧ ∀ v, v ∈ shared a b ↔ op.Holds (v ∈ a) (v ∈ b)

theorem meets_combine (t : Thresholds) (op : SetOp) : Meets op (Container.combine t op) :=
  fun _ _ ha hb =>
    have h := Container.settled_combine t op ha hb
    ⟨h.valid, h.mem⟩

section MergeBy

variable {shared : Container → Container → Container} {op : SetOp}

/-- An entry of a merge is from the left index, from the right one, or shared. -/
theorem forall_mergeBy {P : Entry → Prop} (as bs : List Entry) (ha : ∀ a ∈ as, P a)
    (hb : ∀ b ∈ bs, P b)
    (hshared : ∀ a ∈ as, ∀ b ∈ bs, a.key = b.key →
      (shared a.container b.container).isEmpty = false →
      P ⟨a.key, shared a.container b.container⟩) :
    ∀ e ∈ mergeBy shared op as bs, P e := by
  fun_induction mergeBy shared op as bs with
  | case1 bs => exact fun e he => hb e ((only_sublist _ bs).mem he)
  | case2 as => exact fun e he => ha e ((only_sublist _ as).mem he)
  | case3 a as b bs hkey ih =>
    intro e he
    rcases List.mem_append.mp he with he | he
    · obtain ⟨hne, rfl⟩ := mem_entryOf.mp he
      exact hshared a List.mem_cons_self b List.mem_cons_self hkey hne
    · exact ih (fun x hx => ha x (List.mem_cons_of_mem _ hx))
        (fun x hx => hb x (List.mem_cons_of_mem _ hx))
        (fun x hx y hy => hshared x (List.mem_cons_of_mem _ hx) y (List.mem_cons_of_mem _ hy)) e he
  | case4 a as b bs hkey hlt ih =>
    intro e he
    rcases List.mem_append.mp he with he | he
    · rw [List.mem_singleton.mp ((only_sublist _ _).mem he)]
      exact ha a List.mem_cons_self
    · exact ih (fun x hx => ha x (List.mem_cons_of_mem _ hx)) hb
        (fun x hx => hshared x (List.mem_cons_of_mem _ hx)) e he
  | case5 a as b bs hkey hlt ih =>
    intro e he
    rcases List.mem_append.mp he with he | he
    · rw [List.mem_singleton.mp ((only_sublist _ _).mem he)]
      exact hb b List.mem_cons_self
    · exact ih ha (fun x hx => hb x (List.mem_cons_of_mem _ hx))
        (fun x hx y hy => hshared x hx y (List.mem_cons_of_mem _ hy)) e he

/-- What comes before all keys of both indexes comes before all keys of their merge. -/
theorem lt_key_mergeBy {k : UInt16} (as bs : List Entry) (ha : ∀ a ∈ as, k < a.key)
    (hb : ∀ b ∈ bs, k < b.key) : ∀ e ∈ mergeBy shared op as bs, k < e.key :=
  forall_mergeBy as bs ha hb fun a has _ _ _ _ => ha a has

theorem sorted_append {es fs : List Entry} {k : UInt16}
    (he : es.Pairwise fun x y => x.key < y.key) (hf : fs.Pairwise fun x y => x.key < y.key)
    (hk : ∀ e ∈ es, e.key = k) (hlt : ∀ f ∈ fs, k < f.key) :
    (es ++ fs).Pairwise fun x y => x.key < y.key :=
  List.pairwise_append.mpr ⟨he, hf, fun e hes f hfs => hk e hes ▸ hlt f hfs⟩

theorem pairwise_only_singleton (keep : Bool) (e : Entry) :
    (only keep [e]).Pairwise fun x y => x.key < y.key :=
  (List.pairwise_singleton _ e).sublist (only_sublist keep [e])

theorem sorted_mergeBy (as bs : List Entry) (ha : as.Pairwise fun x y => x.key < y.key)
    (hb : bs.Pairwise fun x y => x.key < y.key) :
    (mergeBy shared op as bs).Pairwise fun x y => x.key < y.key := by
  fun_induction mergeBy shared op as bs with
  | case1 bs => exact hb.sublist (only_sublist _ bs)
  | case2 as => exact ha.sublist (only_sublist _ as)
  | case3 a as b bs hkey ih =>
    obtain ⟨hlta, ha⟩ := List.pairwise_cons.mp ha
    obtain ⟨hltb, hb⟩ := List.pairwise_cons.mp hb
    refine sorted_append ?_ (ih ha hb) (fun e he => by rw [(mem_entryOf.mp he).2])
      (lt_key_mergeBy as bs hlta fun x hx => hkey ▸ hltb x hx)
    unfold entryOf
    split
    · exact List.Pairwise.nil
    · exact List.pairwise_singleton _ _
  | case4 a as b bs hkey hlt ih =>
    obtain ⟨hlta, ha⟩ := List.pairwise_cons.mp ha
    have hltb := (List.pairwise_cons.mp hb).1
    refine sorted_append (pairwise_only_singleton _ a) (ih ha hb)
      (fun e he => by rw [List.mem_singleton.mp ((only_sublist _ _).mem he)])
      (lt_key_mergeBy as (b :: bs) hlta (lt_cons hlt hltb))
  | case5 a as b bs hkey hnlt ih =>
    obtain ⟨hltb, hb⟩ := List.pairwise_cons.mp hb
    have hlta := (List.pairwise_cons.mp ha).1
    have hlt : b.key < a.key :=
      UInt16.lt_of_le_of_ne (UInt16.not_lt.mp hnlt) fun e => hkey e.symm
    refine sorted_append (pairwise_only_singleton _ b) (ih ha hb)
      (fun e he => by rw [List.mem_singleton.mp ((only_sublist _ _).mem he)])
      (lt_key_mergeBy (a :: as) bs (lt_cons hlt hlta) hltb)

theorem sound_mergeBy (hshared : Meets op shared) {as bs : List Entry} (ha : Sound as)
    (hb : Sound bs) : Sound (mergeBy shared op as bs) where
  sorted := sorted_mergeBy as bs ha.sorted hb.sorted
  valid := forall_mergeBy as bs ha.valid hb.valid fun a has b hbs _ _ =>
    (hshared _ _ (ha.valid a has) (hb.valid b hbs)).1
  nonEmpty := forall_mergeBy as bs ha.nonEmpty hb.nonEmpty fun _ _ _ _ _ hne => hne

theorem holds_mergeBy (hshared : Meets op shared) (as bs : List Entry) (ha : Sound as)
    (hb : Sound bs) (key low : UInt16) :
    Holds (mergeBy shared op as bs) key low ↔
      op.Holds (Holds as key low) (Holds bs key low) := by
  fun_induction mergeBy shared op as bs with
  | case1 bs => rw [holds_only, ← op.holds_false_left, iff_false_intro not_holds_nil]
  | case2 as => rw [holds_only, ← op.holds_false_right, iff_false_intro not_holds_nil]
  | case3 a as b bs hkey ih =>
    obtain ⟨hva, -, hlta, ha⟩ := sound_cons.mp ha
    obtain ⟨hvb, -, hltb, hb⟩ := sound_cons.mp hb
    obtain ⟨hvalid, hmem⟩ := hshared _ _ hva hvb
    rw [holds_append, holds_entryOf hvalid, ih ha hb, holds_cons, holds_cons, hmem, hkey]
    by_cases hk : b.key = key
    · subst hk
      have hna : ¬Holds as b.key low := not_holds_of_lt fun x hx => hkey ▸ hlta x hx
      have hnb : ¬Holds bs b.key low := not_holds_of_lt hltb
      simp [hna, hnb, SetOp.holds_false_left]
    · simp [hk]
  | case4 a as b bs hkey hlt ih =>
    obtain ⟨-, -, hlta, ha⟩ := sound_cons.mp ha
    have hltb := lt_cons hlt (sound_cons.mp hb).2.2.1
    rw [holds_append, holds_only, ih ha hb, @holds_cons as]
    by_cases hk : a.key = key
    · subst hk
      have hna : ¬Holds as a.key low := not_holds_of_lt hlta
      have hnb : ¬Holds (b :: bs) a.key low := not_holds_of_lt hltb
      simp [hna, hnb, SetOp.holds_false_right, holds_cons]
    · simp [hk, holds_cons]
  | case5 a as b bs hkey hnlt ih =>
    obtain ⟨-, -, hltb, hb⟩ := sound_cons.mp hb
    have hlt : b.key < a.key :=
      UInt16.lt_of_le_of_ne (UInt16.not_lt.mp hnlt) fun e => hkey e.symm
    have hlta := lt_cons hlt (sound_cons.mp ha).2.2.1
    rw [holds_append, holds_only, ih ha hb, @holds_cons bs]
    by_cases hk : b.key = key
    · subst hk
      have hnb : ¬Holds bs b.key low := not_holds_of_lt hltb
      have hna : ¬Holds (a :: as) b.key low := not_holds_of_lt hlta
      simp [hna, hnb, SetOp.holds_false_left, holds_cons]
    · simp [hk, holds_cons]

end MergeBy

end Index

end Roaring
