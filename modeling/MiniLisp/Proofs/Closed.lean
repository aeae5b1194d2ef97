import Mathlib
import MiniLisp.Proofs.Invariant

/-!
# References that lead somewhere

What a machine has can be referred to: frames and atoms by their numbers, and frames without an outer one in which the
rooted builtins were installed as roots. On a closed machine every reference leads to something that is there, and
outwards of a frame are older ones. That is an invariant which asks no condition of values.

* `Machine.Has`: whether what is referred to is there.
* `Machine.Closed`: no reference is astray.
* `Invariant.references`: closed machines are those that keep to an invariant (`Invariant.references_holds`).
-/

namespace MiniLisp

open Refers (Within)

namespace Machine

/-- A frame without an outer one that has the rooted builtins. -/
def HasRoot (m : Machine) (r : FrameId) : Prop :=
  ∃ g, m.frames[r]? = some g ∧ g.outer = none ∧ ∀ b : Rooted, (g.bindings.find? b.name).isSome = true

/-- Whether what is referred to is there. The identity of a closure leads nowhere. -/
def Has (m : Machine) : Ref → Prop
  | ⟨.frame, e⟩ => e < m.frames.size
  | ⟨.root, r⟩ => m.HasRoot r
  | ⟨.atom, a⟩ => a < m.atoms.size
  | ⟨.closure, _⟩ => True

/-- All that is there. -/
def known (m : Machine) : Set Ref := {x | m.Has x}

/-- Frames and atoms refer to nothing but what is there, and outwards of a frame are older ones. -/
structure Closed (m : Machine) : Prop where
  frame {e : FrameId} {g : Frame} (h : m.frames[e]? = some g) : Within m.known g
  outer {e o : FrameId} {g : Frame} (h : m.frames[e]? = some g) (ho : g.outer = some o) : o < e
  atom {a : AtomId} {v : Value} (h : m.atoms[a]? = some v) : Within m.known v

variable {m m' : Machine}

/-- A machine that grows loses nothing. -/
theorem known_mono (hf : m.Grows m') (ha : m.atoms.size ≤ m'.atoms.size) : m.known ⊆ m'.known := by
  rintro ⟨k, i⟩ h
  cases k with
  | frame =>
    obtain ⟨g, hg, -⟩ := hf i _ (Array.getElem?_eq_getElem h)
    exact (Array.getElem?_eq_some_iff.1 hg).1
  | root =>
    obtain ⟨g, hg, ho, hb⟩ := h
    obtain ⟨g', hg', grown⟩ := hf i g hg
    exact ⟨g', hg', grown.outer.trans ho, fun b => grown.names (hb b)⟩
  | atom => exact Nat.lt_of_lt_of_le h ha
  | closure => trivial

/-- A new root binds the rooted builtins. -/
theorem hasRoot_addFrame (m : Machine) :
    (m.addFrame (Interpreter.rootBindings m.frames.size) none).2.HasRoot m.frames.size :=
  ⟨_, Array.getElem?_push_size, rfl, fun b => by cases b <;> rfl⟩

end Machine

/-! ## Closed machines as an invariant -/

namespace Invariant

/-- No reference is astray, whatever the values. -/
def references : Invariant where
  has := Machine.known
  value _ := True
  parameters _ := True
  frame := Iff.rfl
  cell := Iff.rfl
  root := fun ⟨_, hg, _⟩ => (Array.getElem?_eq_some_iff.1 hg).1
  newRoot := Machine.hasRoot_addFrame
  newClosure _ := trivial
  mono hf ha _ := Machine.known_mono hf ha
  hereditary := ⟨fun _ => trivial, by simp, by simp, by simp⟩
  builtin _ := trivial
  rooted _ _ := trivial
  atom _ := trivial
  closure := by simp
  signature _ := trivial

variable {m : Machine} {S : Set Ref} {v : Value}

/-- Under the invariant of references a value fits when it refers only to what is there. -/
theorem references_fits : references.Fits S v ↔ Within S v := and_iff_left trivial

/-- The invariant of references is that the machine is closed. -/
theorem references_holds : references.Holds m ↔ m.Closed := by
  refine ⟨fun h => ⟨h.frameWithin, h.outer, fun hv => (h.atom hv).within⟩,
    fun h => ⟨fun hg b hb => references_fits.2 ?_, h.outer, fun hv => references_fits.2 (h.atom hv)⟩⟩
  have bound : Within m.known _ := fun x hx => h.frame hg x (List.mem_append_left _ hx)
  exact (bound.of_mem hb).snd

end Invariant

namespace Machine.Closed

variable {m : Machine} (h : m.Closed)
include h

theorem holds : Invariant.references.Holds m := Invariant.references_holds.2 h

/-- In a closed machine every frame lies inside an older one. -/
theorem nested : m.Nested := h.holds.nested

theorem outer_mem {e o : FrameId} {g : Frame} (hg : m.frames[e]? = some g) (ho : g.outer = some o) :
    ⟨.frame, o⟩ ∈ m.known :=
  h.frame hg _ (List.mem_append_right _ (by simp [ho]))

/-- A frame's bindings refer only to what is there. -/
theorem bindings {e : FrameId} {g : Frame} (hg : m.frames[e]? = some g) : Within m.known g.bindings :=
  fun x hx => h.frame hg x (List.mem_append_left _ hx)

theorem atomValue (a : AtomId) : Within m.known (m.atomValue a) := (h.holds.atomValue a).within

/-- A closed machine stays closed with a new atom, when its value refers only to what is there. -/
theorem addAtom {v : Value} (hv : Within m.known v) : (m.addAtom v).2.Closed :=
  Invariant.references_holds.1 (h.holds.addAtom (Invariant.references_fits.2 hv)).1

/-- It stays closed with a new frame, whose bindings may refer to the frame itself. -/
theorem addFrame {bs : Bindings} {o : Option FrameId} (hb : Within (m.addFrame bs o).2.known bs)
    (ho : ∀ o', o = some o' → ⟨.frame, o'⟩ ∈ m.known) : (m.addFrame bs o).2.Closed :=
  Invariant.references_holds.1
    (h.holds.addFrame (fun _ h => Invariant.references_fits.2 (hb.of_mem h).snd) ho).1

end Machine.Closed

/-- The machine with nothing in it refers to nothing. -/
theorem Machine.closed_empty : Machine.empty.Closed := Invariant.references_holds.1 (Invariant.holds_empty _)

end MiniLisp
