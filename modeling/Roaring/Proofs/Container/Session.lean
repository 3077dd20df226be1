import Roaring.Proofs.Container.Change
import Roaring.Proofs.Container.Deferred
import Roaring.Proofs.Container.InPlace

/-!
# Sessions of containers

A session is a list of containers that commands add to and change in any order, each command under
thresholds of its own. As long as every command meets what it asks of its input, all containers that
a session reaches are valid, and a session goes on unless a bitset is given a range past the domain.
-/
namespace Roaring.Container

/-! ## New containers -/

/-- What a container is made of. -/
inductive Source where
  | empty (e : Encoding)
  | withCapacity (e : Encoding) (n : Nat)
  /-- A bitset of every value. -/
  | full
  | values (vs : Array UInt16)
  | valuesAs (e : Encoding) (vs : Array UInt16)
  | range (start stop : Nat)
  | rangeAsRuns (start stop : Nat)

namespace Source

/-- The new container; none where its storage is refused. -/
def make? (t : Thresholds) : Source → Option Container
  | empty e => some (.empty e)
  | withCapacity e n => (Container.withCapacity e n).toOption
  | full => some (bitset .full)
  | values vs => some (ofValues t vs)
  | valuesAs e vs => some (ofValuesAs e vs)
  | range start stop => some (ofRange t start stop)
  | rangeAsRuns start stop => some (run (Runs.ofRange start stop))

/-- Values are given in strictly increasing order. -/
def Proper : Source → Prop
  | values vs | valuesAs _ vs => Sorted.Increasing vs
  | _ => True

end Source

theorem ofValuesAs_eq (e : Encoding) (vs : Array UInt16) :
    ofValuesAs e vs = convert e (array vs) := by
  cases e <;> rfl

theorem eq_empty_of_withCapacity {e : Encoding} {n : Nat} {c : Container}
    (h : c ∈ (withCapacity e n).toOption) : c = empty e := by
  unfold withCapacity at h
  cases hr : Storage.reserve e 0 n with
  | error err =>
    rw [hr] at h
    cases h
  | ok _ =>
    rw [hr] at h
    exact (Option.some.inj h).symm

theorem Source.valid_make {t : Thresholds} {src : Source} (h : src.Proper) :
    ∀ c ∈ src.make? t, c.Valid := by
  have hsome : ∀ {d : Container}, d.Valid → ∀ c ∈ some d, c.Valid :=
    fun hd c hc => Option.some.inj hc ▸ hd
  cases src with
  | empty e => exact hsome (valid_empty e)
  | withCapacity e n => exact fun c hc => eq_empty_of_withCapacity hc ▸ valid_empty e
  | full => exact hsome Bitset.exact_full
  | values vs => exact hsome (settled_compactArray (t := t) h fun _ => Iff.rfl).valid
  | valuesAs e vs =>
    refine hsome ?_
    rw [ofValuesAs_eq]
    exact (recodes_convert e (array vs) h).1
  | range start stop => exact hsome (settled_ofRange t start stop).valid
  | rangeAsRuns start stop => exact hsome (Runs.valid_ofRange start stop)

/-! ## Commands -/

/-- A step of a session; containers are named by their places. -/
inductive Command where
  | make (src : Source)
  | copy (i : Nat)
  | convert (i : Nat) (e : Encoding)
  | change (i : Nat) (c : Change)
  | combine (op : SetOp) (i j : Nat)
  | defer (op : SetOp) (i j : Nat)
  | absorb (op : SetOp) (i j : Nat)
  | absorbDeferred (op : SetOp) (i j : Nat)
  /-- Leaves a replacement beside the left operand; that operand is also what stays behind where a
  replacement finds no room. -/
  | absorbInPlace (op : SetOp) (i j : Nat)

/-- What a command asks of what it is given. -/
def Command.Proper (s : List Container) : Command → Prop
  | .make src => src.Proper
  | .change i c => ∀ a ∈ s[i]?, c.Proper a
  | _ => True

/-- No range given to a bitset goes on past the domain. -/
def Command.InDomain : Command → Prop
  | .change _ c => c.InDomain
  | _ => True

namespace Session

/-- What comes of a container of the session; without one at the place nothing changes. -/
def onPlace (s : List Container) (i : Nat) (f : Container → Option (List Container)) :
    Option (List Container) :=
  match s[i]? with
  | some a => f a
  | none => some s

/-- What comes of two containers of the session. -/
def onPair (s : List Container) (i j : Nat)
    (f : Container → Container → Option (List Container)) : Option (List Container) :=
  onPlace s i fun a => onPlace s j (f a)

/-- The containers after a command. -/
def step? (t : Thresholds) (s : List Container) : Command → Option (List Container)
  | .make src => some (s ++ (src.make? t).toList)
  | .copy i => some (s ++ s[i]?.toList)
  | .convert i e => onPlace s i fun a => (convert? e a).map (s ++ [·])
  | .change i c => onPlace s i fun a => (c.after? t a).map (s.set i ·)
  | .combine op i j => onPair s i j fun a b => (combine? t op a b).map (s ++ [·])
  | .defer op i j => onPair s i j fun a b => (defer? t op a b).map (s ++ [·])
  | .absorb op i j => onPair s i j fun a b => (absorb? t op a b).map (s.set i ·)
  | .absorbDeferred op i j => onPair s i j fun a b => (absorbDeferred? t op a b).map (s.set i ·)
  | .absorbInPlace op i j => onPair s i j fun a b =>
      (absorbInPlace? t op a b).map fun l => s.set i l.own ++ l.replacement.toList

/-- The containers after some proper commands. -/
inductive Reached : List Container → Prop
  | start : Reached []
  | next {s s' : List Container} {t : Thresholds} {c : Command} :
      Reached s → c.Proper s → step? t s c = some s' → Reached s'

/-- Every container of the session is valid. -/
def Sound (s : List Container) : Prop := ∀ c ∈ s, c.Valid

variable {t : Thresholds} {s : List Container} {ok : Prop}

/-! ## One step -/

theorem sound_append {cs : List Container} (hs : Sound s) (h : Sound cs) : Sound (s ++ cs) :=
  List.forall_mem_append.mpr ⟨hs, h⟩

theorem sound_add {c : Container} (hs : Sound s) (h : c.Valid) : Sound (s ++ [c]) :=
  sound_append hs (List.forall_mem_singleton.mpr h)

theorem sound_set {c : Container} (hs : Sound s) (i : Nat) (h : c.Valid) :
    Sound (s.set i c) := fun d hd =>
  (List.mem_or_eq_of_mem_set hd).elim (hs d) fun e => e ▸ h

theorem gives_onPlace {i : Nat} {f : Container → Option (List Container)} (hs : Sound s)
    (hf : ∀ a ∈ s[i]?, a.Valid → Gives ok Sound (f a)) : Gives ok Sound (onPlace s i f) := by
  unfold onPlace
  split
  · rename_i a ha
    exact hf a ha (hs a (List.mem_of_getElem? ha))
  · exact gives_some hs

theorem gives_onPair {i j : Nat} {f : Container → Container → Option (List Container)}
    (hs : Sound s) (hf : ∀ {a b : Container}, a.Valid → b.Valid → Gives ok Sound (f a b)) :
    Gives ok Sound (onPair s i j f) :=
  gives_onPlace hs fun _ _ ha => gives_onPlace hs fun _ _ hb => hf ha hb

/-- What an operation in place leaves is valid, on both sides. -/
theorem gives_absorbInPlace? (t : Thresholds) (op : SetOp) {a b : Container} (ha : a.Valid)
    (hb : b.Valid) :
    Gives ok (fun l : Left => l.own.Valid ∧ ∀ c ∈ l.replacement, c.Valid)
      (absorbInPlace? t op a b) := by
  refine gives_of_eq (unlessOverrun_of_valid (valid_combineWrites t op ha hb) _) ⟨?_, ?_⟩
  · rcases own_absorbInPlace_spec t op ha hb with hsame | ⟨hvalid, -⟩
    · exact hsame.symm ▸ ha
    · exact hvalid
  · intro c hc
    have hfinal : (absorbInPlace t op a b).final = c := by
      rw [Left.final, Option.mem_def.mp hc, Option.getD_some]
    rw [← hfinal, final_absorbInPlace t op ha hb]
    exact (settled_absorb t op ha hb).valid

/-- Every proper command keeps the containers of a session valid. -/
theorem gives_step (hs : Sound s) {c : Command} (hc : c.Proper s) :
    Gives c.InDomain Sound (step? t s c) := by
  cases c with
  | make src =>
    exact gives_some (sound_append hs fun c h => Source.valid_make hc c (Option.mem_toList.mp h))
  | copy i =>
    refine gives_some (sound_append hs fun c h => hs c ?_)
    exact List.mem_of_getElem? (Option.mem_toList.mp h)
  | convert i e =>
    refine gives_onPlace hs fun a _ ha => ?_
    exact (gives_of_eq (convert?_eq e ha) (recodes_convert e a ha).1).map fun _ => sound_add hs
  | change i c =>
    refine gives_onPlace hs fun a hi ha => ?_
    exact (Change.gives_valid ha (hc a hi)).map fun _ => sound_set hs i
  | combine op i j =>
    refine gives_onPair hs fun ha hb => ?_
    exact (gives_of_eq (combine?_eq t op ha hb) (settled_combine t op ha hb).valid).map
      fun _ => sound_add hs
  | defer op i j =>
    refine gives_onPair hs fun ha hb => ?_
    exact (gives_of_eq (defer?_eq t op ha hb) (valid_defer t op ha hb)).map fun _ => sound_add hs
  | absorb op i j =>
    refine gives_onPair hs fun ha hb => ?_
    exact (gives_of_eq (absorb?_eq t op ha hb) (settled_absorb t op ha hb).valid).map
      fun _ => sound_set hs i
  | absorbDeferred op i j =>
    refine gives_onPair hs fun ha hb => ?_
    exact (gives_of_eq (absorbDeferred?_eq t op ha hb) (absorbDeferred_spec t op ha hb).1).map
      fun _ => sound_set hs i
  | absorbInPlace op i j =>
    refine gives_onPair hs fun ha hb => (gives_absorbInPlace? t op ha hb).map fun l hl => ?_
    exact sound_append (sound_set hs i hl.1) fun c h => hl.2 c (Option.mem_toList.mp h)

/-! ## Whole sessions -/

theorem Reached.sound (h : Reached s) : Sound s := by
  induction h with
  | start => exact List.forall_mem_nil _
  | next _ hc hstep ih => exact (gives_step ih hc).1 _ hstep

/-- In every state that proper commands can reach, all containers are valid, and run lists pass the
check; and every proper command has an outcome there unless it takes a bitset past the domain. -/
theorem containers_valid (h : Reached s) :
    (∀ c ∈ s, c.Valid ∧ ∀ rs, c = run rs → Runs.isValid rs) ∧
      ∀ (t : Thresholds) (c : Command), c.Proper s → c.InDomain →
        ∃ s', step? t s c = some s' ∧ Reached s' := by
  constructor
  · intro c hc
    have hvalid := h.sound c hc
    refine ⟨hvalid, fun rs hrs => ?_⟩
    subst hrs
    exact (Runs.isValid_iff rs).mpr hvalid
  · intro t c hc hdom
    obtain ⟨s', hs'⟩ := Option.isSome_iff_exists.mp ((gives_step (t := t) h.sound hc).2 hdom)
    exact ⟨s', hs', h.next hc hs'⟩

theorem containers_valid_append :
    Reached [array #[3, 9], run #[⟨5, 4⟩]] ∧
      ∀ c ∈ [array #[3, 9], run #[⟨5, 4⟩]], c.Valid ∧ ∀ rs, c = run rs → Runs.isValid rs := by
  have hpush : Reached [array #[3]] :=
    (Reached.start.next (t := .standard) (c := .make (.empty .array)) trivial rfl).next
      (t := .standard) (c := .change 0 (.onArray (.push 3))) (by rintro a ⟨⟩ m ⟨⟩) rfl
  have hpush' : Reached [array #[3, 9]] :=
    hpush.next (t := .standard) (c := .change 0 (.onArray (.push 9)))
      (by rintro a ⟨⟩ m ⟨⟩; decide) rfl
  have hrange : Reached [array #[3, 9], run #[⟨5, 2⟩]] :=
    hpush'.next (t := .standard) (c := .make (.rangeAsRuns 5 8)) trivial rfl
  have hrun : (Command.change 1 (.onRuns (.append ⟨8, 1⟩))).Proper
      [array #[3, 9], run #[⟨5, 2⟩]] := by
    rintro a ⟨⟩
    exact ⟨by decide, by rintro l ⟨⟩; decide⟩
  have h : Reached [array #[3, 9], run #[⟨5, 4⟩]] := hrange.next (t := .standard) hrun rfl
  exact ⟨h, (containers_valid h).1⟩

end Session

end Roaring.Container
