import Mathlib
import MiniLisp.Interpreter
import MiniLisp.Proofs.Growth
import MiniLisp.Proofs.Hereditary

/-!
# Invariants of machines

An invariant says what is there on a machine, and asks a condition of values. A machine keeps to it if the values in
its frames and atoms satisfy the condition and refer to nothing but what is there, and if outwards of a frame are older
ones. What the operations of evaluation do to a machine keeps it so as long as what they are given is such a value.

* `Refers.Within`: data that refer to nothing but what is in a set.
* `Invariant`: what is there on machines, and a condition on values.
* `Invariant.Fits`: values that satisfy the condition and refer to nothing but what is in a set.
* `Invariant.Holds`: machines that keep to an invariant, and what keeps them so.
-/

namespace MiniLisp

open Refers (refs)

/-! ## Data within a set -/

namespace Refers

variable {α β : Type} [Refers α] [Refers β] {S T : Set Ref} {a : α} {b : β}

/-- The data refer to nothing but what is in the set. -/
def Within (S : Set Ref) (a : α) : Prop := ∀ x ∈ refs a, x ∈ S

namespace Within

theorem mono (h : Within S a) (hs : S ⊆ T) : Within T a := fun x hx => hs (h x hx)

/-- Operations that do not look at references bring no new ones. -/
theorem map {g : α → β} (h : Within S a) (hg : Equivariant g) : Within S (g a) :=
  fun x hx => h x (hg.refs_subset a hx)

theorem of_nil (h : refs a = []) : Within S a := fun x hx => by rw [h] at hx; cases hx

/-- A pair refers to what its parts refer to. -/
theorem pair (h : Within S a) (h' : Within S b) : Within S (a, b) :=
  fun x hx => (List.mem_append.1 hx).elim (h x) (h' x)

theorem snd (h : Within S (a, b)) : Within S b := fun x hx => h x (List.mem_append_right _ hx)

theorem nil : Within S ([] : List α) := of_nil rfl

theorem cons {as : List α} (h : Within S a) (hs : Within S as) : Within S (a :: as) :=
  fun x hx => (List.mem_append.1 hx).elim (h x) (hs x)

theorem head {as : List α} (h : Within S (a :: as)) : Within S a := fun x hx => h x (List.mem_append_left _ hx)

/-- An element refers to no more than its list. -/
theorem of_mem {as : List α} (h : Within S as) (ha : a ∈ as) : Within S a :=
  fun x hx => h x (List.mem_flatMap.2 ⟨a, ha, hx⟩)

/-- A list whose elements all stay within a set stays within it. -/
theorem of_forall {as : List α} (h : ∀ a ∈ as, Within S a) : Within S as := by
  intro x hx
  obtain ⟨a, ha, hx⟩ := List.mem_flatMap.1 hx
  exact h a ha x hx

/-- A name or a key refers to nothing. -/
theorem of_snd {ps : List (α × β)} (ha : ∀ a : α, refs a = []) (h : ∀ p ∈ ps, Within S p.2) : Within S ps :=
  of_forall fun p hp => (Within.of_nil (ha p.1)).pair (h p hp)

theorem list {xs : List Value} (h : Within S xs) : Within S (Value.list xs) :=
  h.map fun f xs => (Value.rename_list f xs).symm

theorem vector {xs : List Value} (h : Within S xs) : Within S (Value.vector xs) :=
  h.map fun f xs => (Value.rename_vector f xs).symm

theorem entries {es : Entries} (h : Within S es) : Within S (Value.map es) :=
  h.map fun f es => (Value.rename_map f es).symm

theorem items {xs : List Value} (h : Within S (Value.list xs)) : Within S xs :=
  fun x hx => h x (by rw [← Value.refsItems_eq] at hx; exact hx)

theorem vectorItems {xs : List Value} (h : Within S (Value.vector xs)) : Within S xs :=
  fun x hx => h x (by rw [← Value.refsItems_eq] at hx; exact hx)

theorem mapEntries {es : Entries} (h : Within S (Value.map es)) : Within S es :=
  fun x hx => h x (by rw [← Value.refsEntries_eq] at hx; exact hx)

/-- A closure refers to itself, to its frame and to what its body refers to. -/
theorem closure {id : ClosureId} {params : Params} {body : Value} {e : FrameId} {isMacro : Bool}
    (hi : ⟨.closure, id⟩ ∈ S) (hb : Within S body) (he : ⟨.frame, e⟩ ∈ S) :
    Within S (Value.closure id params body e isMacro) := by
  intro x hx
  rcases List.mem_cons.1 hx with rfl | hx
  · exact hi
  rcases List.mem_cons.1 hx with rfl | hx
  · exact he
  · exact hb x hx

/-- A list, a vector or a map refers to what is in it. -/
theorem hereditary (S : Set Ref) : Hereditary fun v => Within S v where
  data h := of_nil (Value.refs_of_isData h)
  list := ⟨fun h _ => h.items.of_mem, fun h => list (of_forall h)⟩
  vector := ⟨fun h _ => h.vectorItems.of_mem, fun h => vector (of_forall h)⟩
  map := ⟨fun h _ hp => (h.mapEntries.of_mem hp).snd, fun h => entries (of_snd (fun _ => rfl) h)⟩

end Within

end Refers

open Refers (Within)

/-! ## Invariants -/

/-- What is there on a machine, and a condition on values.

Frames and atoms are there by their numbers. Which roots and closures are there is left open, as long as the frame of a
root is there too, new ones are, and nothing is lost while a machine grows. The condition is hereditary. Whether a
closure satisfies it is a matter of its parameters and its body, and the parameters that `fn*` takes from a form do. -/
structure Invariant where
  has : Machine → Set Ref
  value : Value → Prop
  parameters : Params → Prop
  frame {m : Machine} {e : FrameId} : ⟨.frame, e⟩ ∈ has m ↔ e < m.frames.size
  cell {m : Machine} {a : AtomId} : ⟨.atom, a⟩ ∈ has m ↔ a < m.atoms.size
  root {m : Machine} {r : FrameId} (h : ⟨.root, r⟩ ∈ has m) : ⟨.frame, r⟩ ∈ has m
  newRoot (m : Machine) : ⟨.root, m.frames.size⟩ ∈ has (m.addFrame (Interpreter.rootBindings m.frames.size) none).2
  newClosure (m : Machine) : ⟨.closure, m.closures⟩ ∈ has m.newClosure.2
  mono {m m' : Machine} (hf : m.Grows m') (ha : m.atoms.size ≤ m'.atoms.size) (hc : m.closures ≤ m'.closures) :
    has m ⊆ has m'
  hereditary : Hereditary value
  builtin (b : Builtin) : value (.builtin b)
  rooted (b : Rooted) (root : FrameId) : value (.rooted b root)
  atom (a : AtomId) : value (.atom a)
  closure {id : ClosureId} {params : Params} {body : Value} {captured : FrameId} {isMacro : Bool} :
    value (.closure id params body captured isMacro) ↔ parameters params ∧ value body
  signature {v : Value} {params : Params} (h : Step.signature v = .ok params) : parameters params

namespace Invariant

variable {I : Invariant} {S T : Set Ref} {v : Value}

/-- A value that satisfies the condition and refers to nothing but what is in the set. -/
def Fits (I : Invariant) (S : Set Ref) (v : Value) : Prop := Within S v ∧ I.value v

/-- Values that fit are made of values that fit. -/
theorem fits (I : Invariant) (S : Set Ref) : Hereditary (I.Fits S) := (Within.hereditary S).and I.hereditary

namespace Fits

theorem within (h : I.Fits S v) : Within S v := h.1

/-- A value that fits still does when more is there. -/
theorem mono (h : I.Fits S v) (hs : S ⊆ T) : I.Fits T v := ⟨h.1.mono hs, h.2⟩

theorem all {xs : List Value} (h : ∀ x ∈ xs, I.Fits S x) : Within S xs := .of_forall fun x hx => (h x hx).1

/-- An atom is a value that fits as soon as it is there. -/
theorem atom {a : AtomId} (h : ⟨.atom, a⟩ ∈ S) : I.Fits S (.atom a) :=
  ⟨fun x hx => by rwa [List.mem_singleton.1 hx], I.atom a⟩

/-- A builtin refers to nothing. -/
theorem builtin (b : Builtin) : I.Fits S (.builtin b) := ⟨.of_nil rfl, I.builtin b⟩

theorem rooted (b : Rooted) {root : FrameId} (h : ⟨.root, root⟩ ∈ S) : I.Fits S (.rooted b root) :=
  ⟨fun x hx => by rwa [List.mem_singleton.1 hx], I.rooted b root⟩

/-- A closure fits when its parameters are as they should be, when it and its frame are there and when its body fits.
-/
theorem closure_iff {id : ClosureId} {params : Params} {body : Value} {captured : FrameId} {isMacro : Bool} :
    I.Fits S (.closure id params body captured isMacro) ↔
      I.parameters params ∧ ⟨.closure, id⟩ ∈ S ∧ ⟨.frame, captured⟩ ∈ S ∧ I.Fits S body := by
  refine ⟨fun ⟨hr, hv⟩ => ?_, fun ⟨hp, hi, he, hb⟩ => ⟨.closure hi hb.1 he, I.closure.2 ⟨hp, hb.2⟩⟩⟩
  obtain ⟨hp, hb⟩ := I.closure.1 hv
  exact ⟨hp, hr _ List.mem_cons_self, hr _ (List.mem_cons_of_mem _ List.mem_cons_self),
    fun x hx => hr x (List.mem_cons_of_mem _ (List.mem_cons_of_mem _ hx)), hb⟩

end Fits

/-! ## Machines that keep to an invariant -/

/-- The values in frames and atoms fit what is there, and outwards of a frame are older ones. -/
structure Holds (I : Invariant) (m : Machine) : Prop where
  frame {e : FrameId} {g : Frame} (h : m.frames[e]? = some g) : ∀ b ∈ g.bindings, I.Fits (I.has m) b.2
  outer {e o : FrameId} {g : Frame} (h : m.frames[e]? = some g) (ho : g.outer = some o) : o < e
  atom {a : AtomId} {v : Value} (h : m.atoms[a]? = some v) : I.Fits (I.has m) v

/-- The machine with nothing in it is where every invariant starts. -/
theorem holds_empty (I : Invariant) : I.Holds .empty where
  frame h := nomatch h
  outer h := nomatch h
  atom h := nomatch h

/-- A frame in the table is there. -/
theorem has_frame (I : Invariant) {m : Machine} {e : FrameId} {g : Frame} (h : m.frames[e]? = some g) :
    ⟨.frame, e⟩ ∈ I.has m :=
  I.frame.2 (Array.getElem?_eq_some_iff.1 h).1

namespace Holds

variable {m m' : Machine} (h : I.Holds m)
include h

/-- Every frame lies inside an older one. -/
theorem nested : m.Nested := fun _ _ _ hf ho => h.outer hf ho

/-- A frame refers to nothing but what is there. -/
theorem frameWithin {e : FrameId} {g : Frame} (hg : m.frames[e]? = some g) : Within (I.has m) g := by
  intro x hx
  rcases List.mem_append.1 hx with hx | hx
  · exact Within.of_snd (fun _ => rfl) (fun b hb => (h.frame hg b hb).1) x hx
  · obtain ⟨o, ho, rfl⟩ := List.mem_map.1 hx
    exact I.frame.2 ((h.outer hg (Option.mem_toList.1 ho)).trans (I.frame.1 (I.has_frame hg)))

/-- An atom holds a value that fits; what is no atom holds `nil`. -/
theorem atomValue (a : AtomId) : I.Fits (I.has m) (m.atomValue a) := by
  rw [Machine.atomValue, Array.getD_eq_getD_getElem?]
  cases ha : m.atoms[a]? with
  | none => exact (I.fits _).nil
  | some v => exact h.atom ha

/-- A name is bound to what fits. -/
theorem lookup (e : FrameId) {name : String} {v : Value} (hv : m.lookup e name = some v) : I.Fits (I.has m) v := by
  have within : ∀ steps e, m.lookupWithin name steps e = some v → I.Fits (I.has m) v := by
    intro steps
    induction steps with
    | zero => intro e he; cases he
    | succ steps ih =>
      intro e he
      cases hg : m.frames[e]? with
      | none =>
        rw [Machine.lookupWithin_missing hg] at he
        cases he
      | some g =>
        rw [Machine.lookupWithin_succ hg, Option.or_eq_some_iff] at he
        rcases he with he | ⟨-, he⟩
        · exact h.frame hg _ (Bindings.mem_of_find? he)
        · obtain ⟨o, -, he⟩ := Option.bind_eq_some_iff.1 he
          exact ih o he
  exact within (e + 1) e hv

/-- A macro found in a form fits, and so do the operands it is called with. -/
theorem macroCall? (hs : S ⊆ I.has m) {e : FrameId} {form f : Value} {operands : List Value} (hf : I.Fits S form)
    (hc : m.macroCall? e form = some (f, operands)) :
    I.Fits (I.has m) f ∧ ∀ v ∈ operands, I.Fits (I.has m) v := by
  obtain ⟨name, rfl, hl, -⟩ := Machine.macroCall?_eq_some hc
  exact ⟨h.lookup e hl, Hereditary.tail ((I.fits _).list.1 (hf.mono hs))⟩

/-! ### Operations -/

/-- Frames and atoms are as they were, and no closure is lost. -/
theorem of_eq (hf : m'.frames = m.frames) (ha : m'.atoms = m.atoms) (hc : m.closures ≤ m'.closures) :
    I.Holds m' ∧ I.has m ⊆ I.has m' := by
  have more : I.has m ⊆ I.has m' := I.mono (Machine.ChangesOnly.of_frames_eq hf []).grows (by rw [ha]) hc
  exact ⟨⟨fun hg b hb => (h.frame (hf ▸ hg) b hb).mono more, fun hg => h.outer (hf ▸ hg),
    fun hv => (h.atom (ha ▸ hv)).mono more⟩, more⟩

theorem addRecord (level : Level) (text : String) :
    I.Holds (m.addRecord level text) ∧ I.has m ⊆ I.has (m.addRecord level text) := h.of_eq rfl rfl (Nat.le_refl _)

theorem printLine (line : String) : I.Holds (m.printLine line) ∧ I.has m ⊆ I.has (m.printLine line) :=
  h.of_eq rfl rfl (Nat.le_refl _)

/-- A new frame may refer to itself as a root. -/
theorem addFrame {bs : Bindings} {o : Option FrameId} (hb : ∀ b ∈ bs, I.Fits (I.has (m.addFrame bs o).2) b.2)
    (ho : ∀ o', o = some o' → ⟨.frame, o'⟩ ∈ I.has m) :
    I.Holds (m.addFrame bs o).2 ∧ I.has m ⊆ I.has (m.addFrame bs o).2 := by
  have more : I.has m ⊆ I.has (m.addFrame bs o).2 :=
    I.mono (Machine.ChangesOnly.addFrame m bs o []).grows (Nat.le_refl _) (Nat.le_refl _)
  have split {e : FrameId} {g : Frame} (hg : (m.addFrame bs o).2.frames[e]? = some g) :
      m.frames[e]? = some g ∨ e = m.frames.size ∧ g = ⟨bs, o⟩ := by
    rw [Machine.addFrame, Array.getElem?_push] at hg
    split at hg
    · next he => exact .inr ⟨he, (Option.some.inj hg).symm⟩
    · exact .inl hg
  refine ⟨⟨fun hg b hm => ?_, fun hg ho' => ?_, fun hv => (h.atom hv).mono more⟩, more⟩
  · rcases split hg with hg | ⟨-, rfl⟩
    · exact (h.frame hg b hm).mono more
    · exact hb b hm
  · rcases split hg with hg | ⟨rfl, rfl⟩
    · exact h.outer hg ho'
    · exact I.frame.1 (ho _ ho')

/-- A binding of a value that fits keeps the invariant, and nothing is lost. -/
theorem bind (e : FrameId) (name : String) {v : Value} (hv : I.Fits (I.has m) v) :
    I.Holds (m.bind e name v) ∧ I.has m ⊆ I.has (m.bind e name v) := by
  have more : I.has m ⊆ I.has (m.bind e name v) :=
    I.mono (Machine.ChangesOnly.bind m e name v []).grows (Nat.le_refl _) (Nat.le_refl _)
  have split {e' : FrameId} {g : Frame} (hg : (m.bind e name v).frames[e']? = some g) :
      ∃ g₀, m.frames[e']? = some g₀ ∧ g.outer = g₀.outer ∧
        (g.bindings = g₀.bindings ∨ g.bindings = g₀.bindings.insert name v) := by
    rw [Machine.bind, Array.getElem?_modify] at hg
    split at hg
    · obtain ⟨g₀, hg₀, rfl⟩ := Option.map_eq_some_iff.1 hg
      exact ⟨g₀, hg₀, rfl, .inr rfl⟩
    · exact ⟨g, hg, rfl, .inl rfl⟩
  refine ⟨⟨fun hg b hb => ?_, fun hg ho => ?_, fun ha => (h.atom ha).mono more⟩, more⟩
  · obtain ⟨g₀, hg₀, -, same | inserted⟩ := split hg
    · exact (h.frame hg₀ b (same ▸ hb)).mono more
    · rcases Bindings.mem_insert (inserted ▸ hb) with rfl | hb
      · exact hv.mono more
      · exact (h.frame hg₀ b hb).mono more
  · obtain ⟨g₀, hg₀, outer, -⟩ := split hg
    exact h.outer hg₀ (outer ▸ ho)

/-- A new atom with a value that fits keeps the invariant. -/
theorem addAtom {v : Value} (hv : I.Fits (I.has m) v) :
    I.Holds (m.addAtom v).2 ∧ I.has m ⊆ I.has (m.addAtom v).2 := by
  have more : I.has m ⊆ I.has (m.addAtom v).2 := I.mono (.refl m) (by simp [Machine.addAtom]) (Nat.le_refl _)
  refine ⟨⟨fun hg b hb => (h.frame hg b hb).mono more, h.outer, fun hw => ?_⟩, more⟩
  rw [Machine.addAtom, Array.getElem?_push] at hw
  split at hw
  · cases hw
    exact hv.mono more
  · exact (h.atom hw).mono more

/-- A write of a value that fits keeps the invariant. -/
theorem setAtom (a : AtomId) {v : Value} (hv : I.Fits (I.has m) v) :
    I.Holds (m.setAtom a v) ∧ I.has m ⊆ I.has (m.setAtom a v) := by
  have more : I.has m ⊆ I.has (m.setAtom a v) := I.mono (.refl m) (by simp [Machine.setAtom]) (Nat.le_refl _)
  refine ⟨⟨fun hg b hb => (h.frame hg b hb).mono more, h.outer, fun hw => ?_⟩, more⟩
  rw [Machine.setAtom, Array.getElem?_setIfInBounds] at hw
  split at hw
  · split at hw
    · cases hw
      exact hv.mono more
    · cases hw
  · exact (h.atom hw).mono more

end Holds

end Invariant

end MiniLisp
