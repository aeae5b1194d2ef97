import Mathlib
import MiniLisp.Proofs.Reach
import MiniLisp.Proofs.Survival

/-!
# What is gone stays gone

What survives is the largest set of frames and atoms of which each is held or led to by a member of the set
(`Machine.survives`). So what is gone on one machine is gone on every other one on which it leads to nothing more and
nothing else leads to it (`gone_stays_gone`), and on machines that agree what survives on the first one survives on the
second one (`survives_rename`).

* `Machine.Leads`: what a frame or an atom leads to at once.
* `Machine.gone`: the frames and atoms that are there and do not survive.
* `Machine.Spares`: a machine on which nothing leads into a set from elsewhere.
-/

namespace MiniLisp

open Refers (rename refs)

/-! ## What is held -/

namespace Holds

variable {h : Holds} {x : Ref}

theorem has_handle {e : FrameId} (he : e ∈ h.frames) : h.owned.Has ⟨.frame, e⟩ :=
  (h.has_owned _).2 (.inl ⟨e, he, rfl⟩)

theorem has_frame (e : FrameId) : (h.frame e).owned.Has x ↔ x = ⟨.frame, e⟩ ∨ h.owned.Has x := by
  rw [has_owned, has_owned, ← or_assoc]
  refine or_congr ?_ Iff.rfl
  simp [frame]

theorem has_items (vs : List Value) : (h.items vs).owned.Has x ↔ x.Owning ∧ x ∈ refs vs ∨ h.owned.Has x := by
  have values : (∃ v ∈ vs, v.owned.Has x) ↔ x.Owning ∧ x ∈ refs vs := by
    simp only [Value.has_owned]
    constructor
    · rintro ⟨v, hv, ho, hx⟩
      exact ⟨ho, List.mem_flatMap.2 ⟨v, hv, hx⟩⟩
    · rintro ⟨ho, hx⟩
      obtain ⟨v, hv, hx⟩ := List.mem_flatMap.1 hx
      exact ⟨v, hv, ho, hx⟩
  rw [has_owned, has_owned, ← values]
  simp only [items, List.mem_append, or_and_right, exists_or]
  exact or_left_comm

end Holds

theorem Marks.owning_of_has {s : Marks} {x : Ref} (h : s.Has x) : x.Owning := by
  obtain ⟨k, i⟩ := x
  cases k with
  | frame => exact .inl rfl
  | atom => exact .inr rfl
  | root => exact h.elim
  | closure => exact h.elim

namespace Machine

/-! ## What leads where -/

/-- What a frame or an atom leads to at once. -/
def Leads (m : Machine) : Ref → Ref → Prop
  | ⟨.frame, e⟩, x => ∃ g, m.frames[e]? = some g ∧ x ∈ refs g
  | ⟨.atom, a⟩, x => x ∈ refs (m.atomValue a)
  | _, _ => False

variable {m k : Machine} {held : Holds} {x y : Ref}

theorem Leads.has (h : m.Leads y x) : y.Owning ∧ m.Has y := by
  obtain ⟨kind, i⟩ := y
  cases kind with
  | frame =>
    obtain ⟨g, hg, -⟩ := h
    exact ⟨.inl rfl, (Array.getElem?_eq_some_iff.1 hg).1⟩
  | atom =>
    refine ⟨.inr rfl, ?_⟩
    by_contra hn
    have none : m.atoms[i]? = none := Array.getElem?_eq_none (Nat.le_of_not_lt hn)
    simp only [Leads, atomValue, Array.getD_eq_getD_getElem?, none] at h
    cases h
  | root => exact h.elim
  | closure => exact h.elim

theorem ownedBy_iff {live : Ref → Prop} (hx : x.Owning) :
    m.OwnedBy held live x ↔ held.owned.Has x ∨ ∃ y, live y ∧ m.Leads y x := by
  constructor
  · rintro (he | ⟨hv, hr⟩ | ⟨he, hf, ho⟩ | ⟨he, hf, hb, hr⟩ | ⟨ha, hr⟩)
    · exact .inl (Holds.has_handle he)
    · exact .inl ((held.has_owned x).2 (.inr ⟨_, hv, (Value.has_owned x _).2 ⟨hx, hr⟩⟩))
    · exact .inr ⟨_, he, _, hf, List.mem_append_right _ (by simp [ho])⟩
    · exact .inr ⟨_, he, _, hf, List.mem_append_left _ (List.mem_flatMap.2 ⟨_, hb, List.mem_append_right _ hr⟩)⟩
    · exact .inr ⟨_, ha, hr⟩
  · rintro (h | ⟨⟨kind, i⟩, hl, h⟩)
    · rcases (held.has_owned x).1 h with ⟨e, he, rfl⟩ | ⟨v, hv, hr⟩
      · exact .handle he
      · exact .value hv ((Value.has_owned x v).1 hr).2
    · cases kind with
      | frame =>
        obtain ⟨g, hg, hr⟩ := h
        rcases List.mem_append.1 hr with hr | hr
        · obtain ⟨b, hb, hr⟩ := List.mem_flatMap.1 hr
          exact .bound hl hg hb hr
        · obtain ⟨o, ho, rfl⟩ := List.mem_map.1 hr
          exact .child hl hg (Option.mem_toList.1 ho)
      | atom => exact .stored hl h
      | root => exact h.elim
      | closure => exact h.elim

/-- What survives is held, or something that survives leads to it. -/
theorem leads_of_survivors (h : (m.survivors held).Has x) :
    m.Has x ∧ (held.owned.Has x ∨ ∃ y, (m.survivors held).Has y ∧ m.Leads y x) := by
  have hx := Marks.owning_of_has h
  obtain ⟨there, owned⟩ := (has_survivors hx).1 h
  exact ⟨there, (ownedBy_iff hx).1 owned⟩

/-- The marks of the frames and atoms of which something holds. -/
noncomputable def marks (m : Machine) (P : Ref → Prop) : Marks :=
  open Classical in
  ⟨.ofFn fun i : Fin m.frames.size => decide (P ⟨.frame, i⟩), .ofFn fun i : Fin m.atoms.size => decide (P ⟨.atom, i⟩)⟩

theorem has_marks (P : Ref → Prop) (hx : x.Owning) : (m.marks P).Has x ↔ m.Has x ∧ P x := by
  obtain ⟨kind, i⟩ := x
  rcases hx with rfl | rfl <;> simp only [Marks.Has, marks, Flags.has, Has, Array.getD_eq_getD_getElem?] <;>
    rw [Array.getElem?_ofFn] <;> split <;> simp_all

theorem marks_le_marked (m : Machine) (P : Ref → Prop) : (m.marks P).LE m.marked := by
  refine ⟨⟨by simp [marks, marked], fun {i} hi => ?_⟩, ⟨by simp [marks, marked], fun {i} hi => ?_⟩⟩
  · have there : i < m.frames.size := ((has_marks (x := ⟨.frame, i⟩) P (.inl rfl)).1 hi).1
    simp [marked, Flags.has, there]
  · have there : i < m.atoms.size := ((has_marks (x := ⟨.atom, i⟩) P (.inr rfl)).1 hi).1
    simp [marked, Flags.has, there]

/-- **Whatever is held** or led to by its own survives. -/
theorem survives (P : Ref → Prop) (hP : ∀ x, P x → x.Owning ∧ m.Has x ∧ (held.owned.Has x ∨ ∃ y, P y ∧ m.Leads y x))
    (h : P x) : (m.survivors held).Has x := by
  have marked {x : Ref} (hx : P x) : (m.marks P).Has x := (has_marks P (hP x hx).1).2 ⟨(hP x hx).2.1, hx⟩
  have kept {x : Ref} (hx : (m.marks P).Has x) : (m.kept held (m.marks P)).Has x := by
    have hPx := ((has_marks P (Marks.owning_of_has hx)).1 hx).2
    obtain ⟨owning, there, owned⟩ := hP x hPx
    refine (Marks.has_inter _ _).2 ⟨hx, (has_ownedFrom _ owning).2 ⟨there, (ownedBy_iff owning).2 ?_⟩⟩
    exact owned.imp_right fun ⟨y, hy, hl⟩ => ⟨y, marked hy, hl⟩
  have le : (m.marks P).LE (m.kept held (m.marks P)) :=
    ⟨⟨(Flags.size_inter _ _).symm, fun {i} hi => kept (x := ⟨.frame, i⟩) hi⟩,
      ⟨(Flags.size_inter _ _).symm, fun {i} hi => kept (x := ⟨.atom, i⟩) hi⟩⟩
  exact (m.le_sweep le _ (m.marks_le_marked P)).has (marked h)

/-! ## What is gone -/

/-- The frames and atoms that are there and do not survive. -/
def gone (m : Machine) (held : Holds) : Set Ref := {x | x.Owning ∧ m.Has x ∧ ¬(m.survivors held).Has x}

/-- Nothing that is held, and nothing outside of a set, leads into the set. -/
structure Spares (m : Machine) (held : Holds) (S : Set Ref) : Prop where
  held {x : Ref} (h : held.owned.Has x) : x ∉ S
  leads {x y : Ref} (hy : y ∉ S) (h : m.Leads y x) : x ∉ S

/-- **What is gone stays gone** as long as it leads to nothing more and nothing else leads to it. -/
theorem gone_stays_gone {held' : Holds} (hs : k.Spares held' (m.gone held))
    (hl : ∀ {x y : Ref}, x ∈ m.gone held → k.Leads x y → m.Leads x y) (hx : x ∈ m.gone held) :
    ¬(k.survivors held').Has x := by
  intro alive
  -- with what survives, it would have been owned from the start
  refine hx.2.2 (survives (fun x => (m.survivors held).Has x ∨ x ∈ m.gone held ∧ (k.survivors held').Has x)
    (fun x hx => ?_) (.inr ⟨hx, alive⟩))
  rcases hx with h | ⟨hx, h⟩
  · obtain ⟨there, owned⟩ := leads_of_survivors h
    exact ⟨Marks.owning_of_has h, there, owned.imp_right fun ⟨y, hy, hl⟩ => ⟨y, .inl hy, hl⟩⟩
  · refine ⟨hx.1, hx.2.1, .inr ?_⟩
    obtain ⟨-, owned | ⟨y, hy, hyx⟩⟩ := leads_of_survivors h
    · exact absurd hx (hs.held owned)
    · have within : y ∈ m.gone held := by
        by_contra hn
        exact hs.leads hn hyx hx
      exact ⟨y, .inr ⟨within, hy⟩, hl within hyx⟩

/-- Things that have not changed lead where they led. -/
theorem ChangesWithin.leads_iff {S : Set Ref} {m' : Machine} (h : m.ChangesWithin S m') (hy : m.Has y)
    (hn : y ∉ S) : m'.Leads y x ↔ m.Leads y x := by
  obtain ⟨kind, i⟩ := y
  cases kind with
  | frame => simp only [Leads, h.frame hy hn]
  | atom => simp only [Leads, h.atomValue hy hn]
  | root => exact Iff.rfl
  | closure => exact Iff.rfl

end Machine

/-! ## Machines that agree -/

namespace World

variable {W : World} {m n : Machine} {x y : Ref}

/-- What is shared leads to what is shared, and where its like in the second machine leads. -/
theorem Agrees.leads (h : W.Agrees m n) (hy : y ∈ W.shared) (hl : m.Leads y x) :
    x ∈ W.shared ∧ n.Leads (y.rename W.map) (x.rename W.map) := by
  obtain ⟨k, i⟩ := y
  cases k with
  | frame =>
    obtain ⟨g, hg, hx⟩ := hl
    obtain ⟨g₁, g', hg₁, hg', rel, -⟩ := h.frame hy
    rw [hg] at hg₁
    cases hg₁
    refine ⟨rel.shared hx, g', hg', ?_⟩
    rw [rel.eq, Refers.refs_rename]
    exact List.mem_map_of_mem hx
  | atom =>
    refine ⟨(h.atom hy).shared hl, ?_⟩
    change _ ∈ refs (n.atomValue (W.map .atom i))
    rw [(h.atom hy).eq, Refers.refs_rename]
    exact List.mem_map_of_mem hl
  | root => exact hl.elim
  | closure => exact hl.elim

theorem Agrees.leads_image (h : W.Agrees m n) (hy : y ∈ W.image) (hl : n.Leads y x) : x ∈ W.image :=
  (h.symm.leads hy hl).1

/-- What survives on the first machine survives on the second one if what is held there is held here. -/
theorem Agrees.survives_rename (h : W.Agrees m n) {held held' : Holds}
    (hs : ∀ {x : Ref}, (m.survivors held).Has x → x ∈ W.shared)
    (hh : ∀ {x : Ref}, held.owned.Has x → held'.owned.Has (x.rename W.map)) (hx : (m.survivors held).Has x) :
    (n.survivors held').Has (x.rename W.map) := by
  refine Machine.survives (fun y => ∃ x, (m.survivors held).Has x ∧ y = x.rename W.map) ?_ ⟨x, hx, rfl⟩
  rintro _ ⟨x, hx, rfl⟩
  obtain ⟨-, owned⟩ := Machine.leads_of_survivors hx
  have owning := Marks.owning_of_has hx
  refine ⟨owning, ?_, ?_⟩
  · obtain ⟨k, i⟩ := x
    rcases owning with rfl | rfl
    · exact (h.bound (hs hx)).2
    · exact (h.bound (hs hx)).2
  · rcases owned with owned | ⟨y, hy, hl⟩
    · exact .inl (hh owned)
    · exact .inr ⟨_, ⟨y, hy, rfl⟩, (h.leads (hs hy) hl).2⟩

end World

end MiniLisp
