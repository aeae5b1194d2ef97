import Mathlib
import MiniLisp.Proofs.Closed
import MiniLisp.Proofs.Lifetime

/-!
# What survives is what is owned

A sweep goes on until nothing more is taken away (`Machine.kept_survivors`), and it takes away nothing that has an
owner left. Hence on a closed machine a frame or an atom is live exactly if something live owns it or it is held, and
with a frame everything outwards of it is live.

* `Machine.OwnedBy`: who owns a frame or an atom.
* `Machine.Upheld`: what is live is what has a live owner.
* `Machine.Closed.upheld`: that is so on every closed machine.
-/

namespace MiniLisp

open Refers (refs Within)

/-! ## Owners -/

/-- Whether what is referred to is owned by what refers to it. A rooted builtin does not own its root. -/
def Ref.Owning (x : Ref) : Prop := x.kind = .frame ∨ x.kind = .atom

namespace Machine

/-- What holds a frame or an atom, if some frames and atoms are live: what is held from outside, a frame below, a value
that a frame binds or that an atom contains. A value holds what the closures and atoms in it refer to. -/
inductive OwnedBy (m : Machine) (held : Holds) (live : Ref → Prop) : Ref → Prop
  | handle {e : FrameId} (h : e ∈ held.frames) : OwnedBy m held live ⟨.frame, e⟩
  | value {v : Value} {x : Ref} (hv : v ∈ held.values) (hx : x ∈ refs v) : OwnedBy m held live x
  | child {e o : FrameId} {f : Frame} (he : live ⟨.frame, e⟩) (hf : m.frames[e]? = some f) (ho : f.outer = some o) :
    OwnedBy m held live ⟨.frame, o⟩
  | bound {e : FrameId} {f : Frame} {b : String × Value} {x : Ref} (he : live ⟨.frame, e⟩)
    (hf : m.frames[e]? = some f) (hb : b ∈ f.bindings) (hx : x ∈ refs b.2) : OwnedBy m held live x
  | stored {a : AtomId} {x : Ref} (ha : live ⟨.atom, a⟩) (hx : x ∈ refs (m.atomValue a)) : OwnedBy m held live x

/-- Whether a frame or an atom is still there. -/
def Live (m : Machine) (held : Holds) : Ref → Prop
  | ⟨.frame, e⟩ => m.isAlive held e = true
  | ⟨.atom, a⟩ => (m.survivors held).atoms.has a = true
  | _ => False

/-- The root of a frame: the last one outwards. -/
def RootOf (m : Machine) (e r : FrameId) : Prop :=
  (m.chain e).getLast? = some r ∧ ∃ g, m.frames[r]? = some g ∧ g.outer = none

/-- What is live is what something live owns, and with a frame everything outwards of it is live up to its root. -/
structure Upheld (m : Machine) (held : Holds) : Prop where
  live {x : Ref} (hx : x.Owning) : m.Live held x ↔ m.OwnedBy held (m.Live held) x
  chain {e : FrameId} (h : m.isAlive held e = true) : ∀ o ∈ m.chain e, m.isAlive held o = true
  root {e : FrameId} (h : m.isAlive held e = true) : ∃ r, m.RootOf e r

end Machine

/-! ## Lots and marks -/

/-- Whether a frame or an atom belongs to a lot. -/
def Owned.Has (o : Owned) : Ref → Prop
  | ⟨.frame, e⟩ => e ∈ o.frames
  | ⟨.atom, a⟩ => a ∈ o.atoms
  | _ => False

namespace Owned

variable {x : Ref}

/-- Owned together is owned by one of the two. -/
theorem has_union (o p : Owned) : (o.union p).Has x ↔ o.Has x ∨ p.Has x := by
  obtain ⟨k, i⟩ := x
  cases k <;> simp [Has, union]

theorem not_has_none : ¬none.Has x := by
  obtain ⟨k, i⟩ := x
  cases k <;> simp [Has, none]

/-- Owned by any of a list. -/
theorem has_foldl {α : Type} (g : α → Owned) (as : List α) (o : Owned) :
    (as.foldl (fun acc a => (g a).union acc) o).Has x ↔ o.Has x ∨ ∃ a ∈ as, (g a).Has x := by
  induction as generalizing o with
  | nil => simp
  | cons a as ih =>
    rw [List.foldl_cons, ih, has_union]
    simp only [List.mem_cons, exists_eq_or_imp]
    tauto

end Owned

namespace Value

mutual

/-- A value owns the frames and atoms that it refers to. -/
theorem has_owned (x : Ref) : ∀ v : Value, v.owned.Has x ↔ x.Owning ∧ x ∈ v.refs
  | list xs | vector xs => has_ownedItems x xs
  | map es => has_ownedEntries x es
  | closure id _ body captured _ => by
    have inner := has_owned x body
    obtain ⟨k, i⟩ := x
    cases k <;> simp_all [owned, refs, Owned.Has, Ref.Owning]
  | atom a => by
    obtain ⟨k, i⟩ := x
    cases k <;> simp [owned, refs, Owned.Has, Ref.Owning]
  | rooted _ root => by
    obtain ⟨k, i⟩ := x
    cases k <;> simp [owned, refs, Owned.Has, Owned.none, Ref.Owning]
  | nil | bool _ | int _ | float _ | text _ | symbol _ | keyword _ | builtin _ => by
    simp [owned, refs, Owned.not_has_none]

/-- Items own what they refer to, as far as it can be owned. -/
theorem has_ownedItems (x : Ref) : ∀ xs : List Value, (ownedItems xs).Has x ↔ x.Owning ∧ x ∈ refsItems xs
  | [] => by simp [ownedItems, refsItems, Owned.not_has_none]
  | v :: vs => by
    rw [ownedItems, refsItems, Owned.has_union, has_owned x v, has_ownedItems x vs, List.mem_append, and_or_left]

theorem has_ownedEntries (x : Ref) : ∀ es : List (Key × Value), (ownedEntries es).Has x ↔ x.Owning ∧ x ∈ refsEntries es
  | [] => by simp [ownedEntries, refsEntries, Owned.not_has_none]
  | (_, v) :: es => by
    rw [ownedEntries, refsEntries, Owned.has_union, has_owned x v, has_ownedEntries x es, List.mem_append, and_or_left]

end

end Value

/-- A frame owns the frame around it and what its bindings own. -/
theorem Frame.has_owned (f : Frame) (x : Ref) :
    f.owned.Has x ↔ (∃ o, f.outer = some o ∧ x = ⟨.frame, o⟩) ∨ ∃ b ∈ f.bindings, b.2.owned.Has x := by
  rw [Frame.owned, Owned.has_foldl fun b : String × Value => b.2.owned]
  refine or_congr_left ?_
  obtain ⟨k, i⟩ := x
  cases k <;> simp [Owned.Has, eq_comm]

/-- What is held is owned, and so is what held values own. -/
theorem Holds.has_owned (h : Holds) (x : Ref) :
    h.owned.Has x ↔ (∃ e ∈ h.frames, x = ⟨.frame, e⟩) ∨ ∃ v ∈ h.values, v.owned.Has x := by
  rw [Holds.owned, Owned.has_foldl Value.owned]
  refine or_congr_left ?_
  obtain ⟨k, i⟩ := x
  cases k <;> simp [Owned.Has]

namespace Marks

/-- Whether a frame or an atom is marked. -/
def Has (s : Marks) : Ref → Prop
  | ⟨.frame, e⟩ => s.frames.has e = true
  | ⟨.atom, a⟩ => s.atoms.has a = true
  | _ => False

/-- Whether a frame or an atom may be marked. -/
def Bounds (s : Marks) : Ref → Prop
  | ⟨.frame, e⟩ => e < s.frames.size
  | ⟨.atom, a⟩ => a < s.atoms.size
  | _ => False

variable {s t : Marks} {x : Ref}

theorem bounds_add (s : Marks) (o : Owned) : (s.add o).Bounds x ↔ s.Bounds x := by
  obtain ⟨k, i⟩ := x
  cases k <;> simp [Bounds, add, Flags.size_addAll]

/-- Marks that are added to have what they had and what was added, within bounds. -/
theorem has_add (s : Marks) (o : Owned) : (s.add o).Has x ↔ s.Has x ∨ s.Bounds x ∧ o.Has x := by
  obtain ⟨k, i⟩ := x
  cases k <;> simp [Has, Bounds, Owned.Has, add, Flags.has_addAll, and_comm]

theorem bounds_addEach (os : List Owned) (s : Marks) : (s.addEach os).Bounds x ↔ s.Bounds x := by
  induction os generalizing s with
  | nil => exact Iff.rfl
  | cons o os ih => exact (ih (s.add o)).trans (bounds_add s o)

/-- The same for a list of additions. -/
theorem has_addEach (os : List Owned) (s : Marks) :
    (s.addEach os).Has x ↔ s.Has x ∨ s.Bounds x ∧ ∃ o ∈ os, o.Has x := by
  induction os generalizing s with
  | nil => simp [addEach]
  | cons o os ih =>
    have tail := ih (s.add o)
    rw [has_add, bounds_add] at tail
    refine tail.trans ?_
    simp only [List.mem_cons, exists_eq_or_imp]
    tauto

theorem has_inter (s t : Marks) : (s.inter t).Has x ↔ s.Has x ∧ t.Has x := by
  obtain ⟨k, i⟩ := x
  cases k <;> simp [Has, inter, Flags.has_inter]

theorem LE.has (h : s.LE t) (hx : s.Has x) : t.Has x := by
  obtain ⟨k, i⟩ := x
  cases k with
  | frame => exact h.frames.has hx
  | atom => exact h.atoms.has hx
  | root => exact hx
  | closure => exact hx

end Marks

/-! ## A sweep comes to its end -/

namespace Flags

/-- How many numbers belong to the set. -/
def card (a : Flags) : Nat := ((Finset.range a.size).filter fun i => a.has i = true).card

theorem LE.filter_subset {a b : Flags} (h : LE a b) :
    ((Finset.range a.size).filter fun i => a.has i = true) ⊆ (Finset.range b.size).filter fun i => b.has i = true := by
  intro i hi
  rw [Finset.mem_filter] at hi ⊢
  exact ⟨h.size ▸ hi.1, h.has hi.2⟩

/-- A smaller set of flags has fewer of them. -/
theorem LE.card_le {a b : Flags} (h : LE a b) : a.card ≤ b.card := Finset.card_le_card h.filter_subset

/-- A set with no fewer numbers is the same. -/
theorem LE.eq_of_card {a b : Flags} (h : LE a b) (hc : b.card ≤ a.card) : a = b := by
  have same := Finset.eq_of_subset_of_card_le h.filter_subset hc
  refine Array.ext h.size fun i hi hi' => ?_
  have iff : a.has i = true ↔ b.has i = true := by
    have mem := Finset.ext_iff.1 same i
    simpa [Finset.mem_filter, hi, hi'] using mem
  have get {d : Flags} (hd : i < d.size) : d.has i = d[i] := by
    rw [Flags.has, Array.getD_eq_getD_getElem?, Array.getElem?_eq_getElem hd]
    rfl
  rwa [get hi, get hi', ← Bool.eq_iff_iff] at iff

theorem card_le_size (a : Flags) : a.card ≤ a.size :=
  (Finset.card_filter_le _ _).trans (Finset.card_range _).le

end Flags

namespace Marks

def card (s : Marks) : Nat := s.frames.card + s.atoms.card

/-- A set of marks that shrinks has fewer marks, so a sweep comes to a stop. -/
theorem LE.card_lt {s t : Marks} (h : s.LE t) (hne : s ≠ t) : s.card < t.card := by
  by_contra hc
  have frames := h.frames.card_le
  have atoms := h.atoms.card_le
  simp only [card] at hc
  refine hne ?_
  obtain ⟨sf, sa⟩ := s
  obtain ⟨tf, ta⟩ := t
  have hf : sf = tf := h.frames.eq_of_card (by omega)
  have ha : sa = ta := h.atoms.eq_of_card (by omega)
  rw [hf, ha]

end Marks

namespace Machine

variable {m : Machine} {held : Holds} {x : Ref}

/-- After as many rounds as there are marks the sweep changes nothing any more. -/
theorem kept_sweep (rounds : Nat) (s : Marks) (h : s.card < rounds) :
    m.kept held (m.sweep held rounds s) = m.sweep held rounds s := by
  induction rounds generalizing s with
  | zero => exact absurd h (Nat.not_lt_zero _)
  | succ rounds ih =>
    rw [sweep]
    split
    · next hs => exact hs
    · next hs =>
      have fewer : (m.kept held s).card < s.card := Marks.LE.card_lt (Marks.inter_le _ _) hs
      exact ih _ (by omega)

/-- Everything that survives has an owner. -/
theorem kept_survivors (m : Machine) (held : Holds) : m.kept held (m.survivors held) = m.survivors held := by
  refine kept_sweep _ _ ?_
  have frames := m.marked.frames.card_le_size
  have atoms := m.marked.atoms.card_le_size
  simp only [marked, Array.size_replicate] at frames atoms
  simp only [Marks.card, marked]
  omega

/-! ## What a set owns -/

/-- A marked frame owns what it has. -/
theorem has_frameOwned (s : Marks) (e : FrameId) :
    (m.frameOwned s e).Has x ↔ ∃ f, s.Has ⟨.frame, e⟩ ∧ m.frames[e]? = some f ∧ f.owned.Has x := by
  unfold frameOwned
  split
  · next f hs hf => simp [Marks.Has, hs, hf]
  · next hn =>
    refine iff_of_false Owned.not_has_none ?_
    rintro ⟨f, hs, hf, -⟩
    exact hn f hs hf

/-- A marked atom owns what its value owns. -/
theorem has_atomOwned (s : Marks) (a : AtomId) :
    (m.atomOwned s a).Has x ↔ s.Has ⟨.atom, a⟩ ∧ (m.atomValue a).owned.Has x := by
  unfold atomOwned
  split
  · next hs => simp [Marks.Has, hs]
  · next hs => simp [Marks.Has, hs, Owned.not_has_none]

/-- One round keeps what is owned by what was marked. -/
theorem has_ownedFrom (s : Marks) (hx : x.Owning) :
    (m.ownedFrom held s).Has x ↔ m.Has x ∧ m.OwnedBy held s.Has x := by
  have bounds : m.unmarked.Bounds x ↔ m.Has x := by
    obtain ⟨k, i⟩ := x
    rcases hx with rfl | rfl <;> simp [Marks.Bounds, unmarked, Has]
  have nothing : ¬m.unmarked.Has x := by
    obtain ⟨k, i⟩ := x
    cases k <;> simp only [Marks.Has, unmarked, Flags.has, Array.getD_eq_getD_getElem?, Array.getElem?_replicate] <;>
      grind
  rw [ownedFrom, Marks.has_addEach, Marks.has_addEach, Marks.has_add, Marks.bounds_addEach, Marks.bounds_add, bounds]
  simp only [nothing, false_or, List.mem_map, List.mem_range, exists_exists_and_eq_and, has_frameOwned, has_atomOwned,
    Holds.has_owned, Frame.has_owned, Value.has_owned, ← and_or_left]
  refine and_congr_right fun hm => ⟨?_, fun h => ?_⟩
  · rintro (((⟨e, he, rfl⟩ | ⟨v, hv, -, hr⟩) | ⟨e, -, f, he, hf, ⟨o, ho, rfl⟩ | ⟨b, hb, -, hr⟩⟩) | ⟨a, -, ha, -, hr⟩)
    · exact .handle he
    · exact .value hv hr
    · exact .child he hf ho
    · exact .bound he hf hb hr
    · exact .stored ha hr
  · cases h with
    | handle he => exact .inl (.inl (.inl ⟨_, he, rfl⟩))
    | value hv hr => exact .inl (.inl (.inr ⟨_, hv, hx, hr⟩))
    | @child e o f he hf ho =>
      exact .inl (.inr ⟨e, (Array.getElem?_eq_some_iff.1 hf).1, f, he, hf, .inl ⟨o, ho, rfl⟩⟩)
    | @bound e f b _ he hf hb hr =>
      exact .inl (.inr ⟨e, (Array.getElem?_eq_some_iff.1 hf).1, f, he, hf, .inr ⟨b, hb, hx, hr⟩⟩)
    | @stored a _ ha hr =>
      have there : a < m.atoms.size := by
        by_contra hn
        rw [atomValue, Array.getD_eq_getD_getElem?, Array.getElem?_eq_none (Nat.le_of_not_lt hn)] at hr
        cases hr
      exact .inr ⟨a, there, ha, hx, hr⟩

/-! ## What survives -/

/-- What has an owner is not taken away. -/
theorem has_sweep (hx : x.Owning) (hm : m.Has x) (ho : m.OwnedBy held (m.survivors held).Has x) (rounds : Nat)
    {s : Marks} (hs : (m.survivors held).LE s) (h : s.Has x) : (m.sweep held rounds s).Has x := by
  induction rounds generalizing s with
  | zero => exact h
  | succ rounds ih =>
    rw [sweep]
    split
    · exact h
    · have kept : (m.survivors held).LE (m.kept held s) := by
        have below := m.kept_mono (.refl held) hs
        rwa [kept_survivors] at below
      refine ih kept ((Marks.has_inter _ _).2 ⟨h, ?_⟩)
      exact (m.ownedFrom_mono (.refl held) hs).has ((has_ownedFrom _ hx).2 ⟨hm, ho⟩)

/-- What survives is owned by what survives, or held. -/
theorem has_survivors (hx : x.Owning) :
    (m.survivors held).Has x ↔ m.Has x ∧ m.OwnedBy held (m.survivors held).Has x := by
  refine ⟨fun h => ?_, fun ⟨hm, ho⟩ => ?_⟩
  · rw [← kept_survivors] at h
    exact (has_ownedFrom _ hx).1 ((Marks.has_inter _ _).1 h).2
  · refine has_sweep hx hm ho _ (m.sweep_le _ _) ?_
    have all {n i : Nat} (hi : i < n) : Flags.has (Array.replicate n true) i = true := by
      rw [Flags.has, Array.getD_eq_getD_getElem?, Array.getElem?_replicate, if_pos hi]
      rfl
    obtain ⟨k, i⟩ := x
    rcases hx with rfl | rfl <;> exact all hm

/-! ## Frames outwards -/

namespace Nested

variable {e : FrameId}

/-- The frame around a frame is there. -/
theorem outer_mem (h : m.Nested) {o : FrameId} {g : Frame} (hg : m.frames[e]? = some g) (ho : g.outer = some o) :
    m.Has ⟨.frame, o⟩ :=
  (h e o g hg ho).trans (Array.getElem?_eq_some_iff.1 hg).1

/-- The frames outwards survive with a frame. -/
theorem chainWithin_survives (h : m.Nested) (steps : Nat) (hs : (m.survivors held).Has ⟨.frame, e⟩) :
    ∀ o ∈ m.chainWithin steps e, (m.survivors held).Has ⟨.frame, o⟩ := by
  induction steps generalizing e with
  | zero => intro o ho; cases ho
  | succ steps ih =>
    intro o ho
    unfold chainWithin at ho
    split at ho
    · cases ho
    · next f hf =>
      split at ho
      · next o' hout =>
        rcases List.mem_cons.1 ho with rfl | ho
        · exact hs
        · refine ih ?_ o ho
          exact (has_survivors (.inl rfl)).2 ⟨h.outer_mem hf hout, .child hs hf hout⟩
      · rw [List.mem_singleton.1 ho]
        exact hs

/-- A frame that is held is there, and hence what lies outwards of one survives with it. -/
theorem isAlive_iff (h : m.Nested) (hh : ∀ e ∈ held.frames, m.Has ⟨.frame, e⟩) (e : FrameId) :
    m.isAlive held e = true ↔ (m.survivors held).Has ⟨.frame, e⟩ := by
  unfold isAlive
  rw [Bool.or_eq_true]
  refine ⟨fun alive => ?_, .inr⟩
  rcases alive with alive | alive
  · obtain ⟨f, hf, he⟩ := List.any_eq_true.1 alive
    have held : (m.survivors held).Has ⟨.frame, f⟩ := (has_survivors (.inl rfl)).2 ⟨hh f hf, .handle hf⟩
    exact h.chainWithin_survives _ held e (List.contains_iff_mem.1 he)
  · exact alive

end Nested

/-! ## Closed machines -/

namespace Closed

variable {e : FrameId}

theorem isAlive_iff (h : m.Closed) (hh : ∀ e ∈ held.frames, m.Has ⟨.frame, e⟩) (e : FrameId) :
    m.isAlive held e = true ↔ (m.survivors held).Has ⟨.frame, e⟩ :=
  h.nested.isAlive_iff hh e

/-- What is live is what survives the sweep. -/
theorem live_eq (h : m.Closed) (hh : ∀ e ∈ held.frames, m.Has ⟨.frame, e⟩) :
    m.Live held = (m.survivors held).Has := by
  funext ⟨k, i⟩
  cases k with
  | frame => exact propext (h.isAlive_iff hh i)
  | _ => rfl

/-- Outwards of a frame is a root. -/
theorem exists_root (h : m.Closed) (he : m.Has ⟨.frame, e⟩) : ∃ r, m.RootOf e r := by
  -- outwards the numbers of frames get smaller, so the search goes on long enough
  have within : ∀ steps e, m.Has ⟨.frame, e⟩ → e < steps →
      ∃ r, (m.chainWithin steps e).getLast? = some r ∧ ∃ g, m.frames[r]? = some g ∧ g.outer = none := by
    intro steps
    induction steps with
    | zero => intro e _ hlt; exact absurd hlt (Nat.not_lt_zero e)
    | succ steps ih =>
      intro e he hlt
      obtain ⟨g, hg⟩ : ∃ g, m.frames[e]? = some g := ⟨_, Array.getElem?_eq_getElem he⟩
      simp only [chainWithin, hg]
      cases ho : g.outer with
      | none => exact ⟨e, rfl, g, hg, ho⟩
      | some o =>
        obtain ⟨r, hr, there⟩ := ih o (h.outer_mem hg ho) (Nat.lt_of_lt_of_le (h.outer hg ho) (Nat.le_of_lt_succ hlt))
        refine ⟨r, ?_, there⟩
        rw [List.getLast?_cons, hr]
        rfl
  exact within (e + 1) e he (Nat.lt_succ_self e)

/-- On a closed machine, what is live is what has a live owner. -/
theorem upheld (h : m.Closed) (hf : ∀ e ∈ held.frames, m.Has ⟨.frame, e⟩)
    (hv : ∀ v ∈ held.values, Within m.known v) : m.Upheld held where
  live {x} hx := by
    rw [h.live_eq hf, has_survivors hx, and_iff_right_iff_imp]
    intro ho
    cases ho with
    | handle he => exact hf _ he
    | value hw hr => exact hv _ hw _ hr
    | child _ hg hout => exact h.outer_mem hg hout
    | bound _ hg hb hr => exact (h.bindings hg).of_mem hb _ (List.mem_append_right _ hr)
    | stored _ hr => exact h.atomValue _ _ hr
  chain {e} he o ho := by
    rw [h.isAlive_iff hf] at he ⊢
    exact h.nested.chainWithin_survives _ he o ho
  root {e} he := h.exists_root ((has_survivors (.inl rfl)).1 ((h.isAlive_iff hf e).1 he)).1

end Closed

end Machine

end MiniLisp
