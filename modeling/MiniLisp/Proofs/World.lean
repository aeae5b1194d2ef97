import Mathlib
import MiniLisp.Proofs.Contents

/-!
# Two machines with something in common

Two machines agree in a world: a set of references of the first machine that is closed under what they lead to, and
what each of them is in the second machine. What can be seen of the machines through such references is the same in
both (`Agrees.lookup`, `Agrees.contents`). They match if the frames of all roots in common are in common as well.

* `World`, `World.Rel`: references in common, and data that refer to nothing else.
* `World.Agrees`, `World.Matches`: two machines agree, or match, in a world.
-/

namespace MiniLisp

open Refers (rename refs)

/-- How many things of a kind there are. -/
def Machine.count (m : Machine) : RefKind → Nat
  | .frame | .root => m.frames.size
  | .atom => m.atoms.size
  | .closure => m.closures

/-- What two machines have in common: references of the first one, and what they are in the second one. -/
structure World where
  map : Renaming
  shared : Set Ref

namespace World

variable {W W' W'' : World}

/-! ## Related data -/

section

variable {α β : Type} [Refers α] [Refers β] {a a' : α} {b b' : β}

/-- The first of the two refers to nothing but what is shared, and the second one is what it is in the second
machine. -/
structure Rel (W : World) (a a' : α) : Prop where
  eq : a' = rename W.map a
  shared {x : Ref} (hx : x ∈ refs a) : x ∈ W.shared

namespace Rel

/-- Operations that do not look at references take related data to related data. -/
theorem map {g : α → β} (h : W.Rel a a') (hg : Equivariant g) : W.Rel (g a) (g a') :=
  ⟨by rw [h.eq, hg W.map a], fun hx => h.shared (hg.refs_subset a hx)⟩

/-- Data without references. -/
theorem of_nil (ha : refs a = []) (hr : rename W.map a = a) : W.Rel a a :=
  ⟨hr.symm, fun hx => by rw [ha] at hx; cases hx⟩

/-- Data side by side refer to what both refer to. -/
theorem pair (h : W.Rel a a') (h' : W.Rel b b') : W.Rel (a, b) (a', b') := by
  refine ⟨by rw [h.eq, h'.eq]; rfl, fun hx => ?_⟩
  rcases List.mem_append.1 hx with hx | hx
  · exact h.shared hx
  · exact h'.shared hx

theorem fst (h : W.Rel (a, b) (a', b')) : W.Rel a a' := h.map (fun _ _ => rfl : Equivariant (Prod.fst : α × β → α))

theorem snd (h : W.Rel (a, b) (a', b')) : W.Rel b b' := h.map (fun _ _ => rfl : Equivariant (Prod.snd : α × β → β))

theorem nil : W.Rel ([] : List α) [] := of_nil rfl rfl

theorem cons {as as' : List α} (h : W.Rel a a') (hs : W.Rel as as') : W.Rel (a :: as) (a' :: as') :=
  (h.pair hs).map (g := fun p : α × List α => p.1 :: p.2) fun _ _ => rfl

theorem append {as as' bs bs' : List α} (h : W.Rel as as') (h' : W.Rel bs bs') : W.Rel (as ++ bs) (as' ++ bs') :=
  (h.pair h').map (g := fun p : List α × List α => p.1 ++ p.2) fun f p => (Refers.rename_append f p.1 p.2).symm

/-- What is related to a list with a head is such a list, and its parts are related. -/
theorem of_cons {as as' : List α} (h : W.Rel (a :: as) as') :
    ∃ b bs, as' = b :: bs ∧ W.Rel a b ∧ W.Rel as bs :=
  ⟨_, _, h.eq, ⟨rfl, fun hx => h.shared (List.mem_append_left _ hx)⟩,
    ⟨rfl, fun hx => h.shared (List.mem_append_right _ hx)⟩⟩

theorem of_nil_list {as' : List α} (h : W.Rel [] as') : as' = [] := h.eq

theorem some (h : W.Rel a a') : W.Rel (some a) (some a') := h.map fun _ _ => rfl

theorem of_some {o : Option α} (h : W.Rel (.some a) o) : ∃ b, o = .some b ∧ W.Rel a b :=
  ⟨_, h.eq, ⟨rfl, h.shared⟩⟩

/-- Lists that are related are of one length. -/
theorem length_eq {as as' : List α} (h : W.Rel as as') : as'.length = as.length := by
  rw [h.eq, Refers.length_rename]

end Rel

end

/-- A number of the first machine is another one in the second. -/
abbrev Names (W : World) (k : RefKind) (i j : Nat) : Prop := W.Rel (Ref.mk k i) (Ref.mk k j)

/-- A number has one name in the second machine. -/
theorem Names.eq {k : RefKind} {i j : Nat} (h : W.Names k i j) : j = W.map k i := congrArg Ref.index h.1

theorem Names.mem {k : RefKind} {i j : Nat} (h : W.Names k i j) : ⟨k, i⟩ ∈ W.shared := h.shared List.mem_cons_self

theorem names {k : RefKind} {i : Nat} (h : ⟨k, i⟩ ∈ W.shared) : W.Names k i (W.map k i) :=
  ⟨rfl, fun hx => by rwa [List.mem_singleton.1 hx]⟩

/-! ## Related values -/

namespace Rel

variable {v w : Value}

theorem list {xs ys : List Value} (h : W.Rel xs ys) : W.Rel (Value.list xs) (.list ys) :=
  h.map fun f xs => (Value.rename_list f xs).symm

theorem vector {xs ys : List Value} (h : W.Rel xs ys) : W.Rel (Value.vector xs) (.vector ys) :=
  h.map fun f xs => (Value.rename_vector f xs).symm

theorem entries {es fs : Entries} (h : W.Rel es fs) : W.Rel (Value.map es) (.map fs) :=
  h.map fun f es => (Value.rename_map f es).symm

theorem atom {a b : AtomId} (h : W.Names .atom a b) : W.Rel (Value.atom a) (.atom b) :=
  ⟨congrArg Value.atom h.eq, fun hx => by rw [List.mem_singleton.1 hx]; exact h.mem⟩

/-- A closure is related to another one if their identities, bodies and captured frames are; the parameters are the
same. -/
theorem closure {id id' : ClosureId} {params : Params} {body body' : Value} {e e' : FrameId} {isMacro : Bool}
    (hi : W.Names .closure id id') (hb : W.Rel body body') (he : W.Names .frame e e') :
    W.Rel (Value.closure id params body e isMacro) (.closure id' params body' e' isMacro) := by
  refine ⟨by rw [hb.eq, hi.eq, he.eq]; rfl, fun {x} hx => ?_⟩
  rcases List.mem_cons.1 hx with rfl | hx
  · exact hi.mem
  rcases List.mem_cons.1 hx with rfl | hx
  · exact he.mem
  · exact hb.shared hx

/-- What is related to a list is a list, and so on for each kind of value that has references in it. -/
theorem of_list {xs : List Value} (h : W.Rel (.list xs) w) : ∃ ys, w = .list ys ∧ W.Rel xs ys :=
  ⟨_, h.eq.trans (Value.rename_list _ xs), rfl, fun hx => h.shared (by rw [← Value.refsItems_eq] at hx; exact hx)⟩

theorem of_vector {xs : List Value} (h : W.Rel (.vector xs) w) : ∃ ys, w = .vector ys ∧ W.Rel xs ys :=
  ⟨_, h.eq.trans (Value.rename_vector _ xs), rfl, fun hx => h.shared (by rw [← Value.refsItems_eq] at hx; exact hx)⟩

theorem of_map {es : Entries} (h : W.Rel (.map es) w) : ∃ fs, w = .map fs ∧ W.Rel es fs :=
  ⟨_, h.eq.trans (Value.rename_map _ es), rfl, fun hx => h.shared (by rw [← Value.refsEntries_eq] at hx; exact hx)⟩

theorem of_atom {a : AtomId} (h : W.Rel (.atom a) w) : ∃ b, w = .atom b ∧ W.Names .atom a b :=
  ⟨_, h.eq, names (h.shared List.mem_cons_self)⟩

/-- A rooted builtin is related to the same one of another root. -/
theorem of_rooted {b : Rooted} {root : FrameId} (h : W.Rel (.rooted b root) w) :
    ∃ root', w = .rooted b root' ∧ W.Names .root root root' :=
  ⟨_, h.eq, names (h.shared List.mem_cons_self)⟩

/-- What is related to a closure is a closure with the same parameters, and the parts are related. -/
theorem of_closure {id : ClosureId} {params : Params} {body : Value} {e : FrameId} {isMacro : Bool}
    (h : W.Rel (.closure id params body e isMacro) w) :
    ∃ id' body' e', w = .closure id' params body' e' isMacro ∧ W.Names .closure id id' ∧ W.Rel body body' ∧
      W.Names .frame e e' :=
  ⟨_, _, _, h.eq, names (h.shared List.mem_cons_self),
    ⟨rfl, fun hx => h.shared (List.mem_cons_of_mem _ (List.mem_cons_of_mem _ hx))⟩,
    names (h.shared (List.mem_cons_of_mem _ List.mem_cons_self))⟩

theorem done (h : W.Rel v w) : W.Rel (Turn.done v) (.done w) := h.map fun _ _ => rfl

/-- A form that is left to be evaluated is related to another one in a frame that is what the frame is. -/
theorem again {e e' : FrameId} (he : W.Names .frame e e') (h : W.Rel v w) : W.Rel (Turn.again e v) (.again e' w) := by
  refine ⟨by rw [h.eq, he.eq]; rfl, fun {x} hx => ?_⟩
  rcases List.mem_cons.1 hx with rfl | hx
  · exact he.mem
  · exact h.shared hx

theorem of_done {turn : Turn} (h : W.Rel (.done v) turn) : ∃ w, turn = .done w ∧ W.Rel v w := ⟨_, h.eq, rfl, h.shared⟩

theorem of_again {e : FrameId} {turn : Turn} (h : W.Rel (.again e v) turn) :
    ∃ e' w, turn = .again e' w ∧ W.Names .frame e e' ∧ W.Rel v w :=
  ⟨_, _, h.eq, names (h.shared List.mem_cons_self), rfl, fun hx => h.shared (List.mem_cons_of_mem _ hx)⟩

/-- A frame below another one refers to what it binds and to that one. -/
theorem frame {bs bs' : Bindings} {o o' : FrameId} (hb : W.Rel bs bs') (ho : W.Names .frame o o') :
    W.Rel (Frame.mk bs (Option.some o)) ⟨bs', Option.some o'⟩ := by
  refine ⟨by rw [hb.eq, ho.eq]; rfl, fun {x} hx => ?_⟩
  rcases List.mem_append.1 hx with hx | hx
  · exact hb.shared hx
  · rw [List.mem_singleton.1 hx]
    exact ho.mem

theorem bindings {g g' : Frame} (h : W.Rel g g') : W.Rel g.bindings g'.bindings := h.map fun _ _ => rfl

/-- Related frames lie below related ones, or both below none. -/
theorem outer {g g' : Frame} (h : W.Rel g g') : g'.outer = g.outer.map (W.map .frame) := by rw [h.eq]; rfl

theorem of_none {α : Type} [Refers α] {o : Option α} (h : W.Rel none o) : o = none := h.eq

end Rel

/-! ## Worlds grow -/

/-- A world in which more is shared. Roots are only there from the start. -/
structure LE (W W' : World) : Prop where
  shared {x : Ref} (h : x ∈ W.shared) : x ∈ W'.shared
  map {x : Ref} (h : x ∈ W.shared) : x.rename W'.map = x.rename W.map
  root {r : FrameId} (h : ⟨.root, r⟩ ∈ W'.shared) : ⟨.root, r⟩ ∈ W.shared

protected theorem LE.refl (W : World) : W.LE W := ⟨fun h => h, fun _ => rfl, fun h => h⟩

/-- Worlds grow step by step: what was shared keeps its names. -/
theorem LE.trans (h : W.LE W') (h' : W'.LE W'') : W.LE W'' :=
  ⟨fun hx => h'.shared (h.shared hx), fun hx => (h'.map (h.shared hx)).trans (h.map hx), fun hr => h.root (h'.root hr)⟩

theorem LE.apply (h : W.LE W') {k : RefKind} {i : Nat} (hi : ⟨k, i⟩ ∈ W.shared) : W'.map k i = W.map k i :=
  congrArg Ref.index (h.map hi)

/-- What is related stays related as the world grows. -/
theorem Rel.mono {α : Type} [Refers α] {a a' : α} (hr : W.Rel a a') (h : W.LE W') : W'.Rel a a' :=
  ⟨hr.eq.trans (Refers.rename_congr fun _ hx => (h.map (hr.shared hx)).symm), fun hx => h.shared (hr.shared hx)⟩

/-! ## Machines that agree -/

/-- Two machines that agree in a world. What is shared is there, outwards of a frame are older ones, and what is shared
leads to nothing but what is shared; a root need not lead to its frame. -/
structure Agrees (W : World) (m n : Machine) : Prop where
  bound {x : Ref} (h : x ∈ W.shared) : x.index < m.count x.kind ∧ W.map x.kind x.index < n.count x.kind
  frame {e : FrameId} (h : ⟨.frame, e⟩ ∈ W.shared) :
    ∃ g g', m.frames[e]? = some g ∧ n.frames[W.map .frame e]? = some g' ∧ W.Rel g g' ∧
      ∀ o, g.outer = some o → o < e ∧ W.map .frame o < W.map .frame e
  atom {a : AtomId} (h : ⟨.atom, a⟩ ∈ W.shared) : W.Rel (m.atomValue a) (n.atomValue (W.map .atom a))

/-- Two machines that match in a world. What is shared is there, outwards of a frame are older ones, and what is shared
leads to nothing but what is shared. -/
structure Matches (W : World) (m n : Machine) : Prop where
  bound {x : Ref} (h : x ∈ W.shared) : x.index < m.count x.kind ∧ W.map x.kind x.index < n.count x.kind
  root {r : FrameId} (h : ⟨.root, r⟩ ∈ W.shared) : ⟨.frame, r⟩ ∈ W.shared ∧ W.map .root r = W.map .frame r
  frame {e : FrameId} (h : ⟨.frame, e⟩ ∈ W.shared) :
    ∃ g g', m.frames[e]? = some g ∧ n.frames[W.map .frame e]? = some g' ∧ W.Rel g g' ∧
      ∀ o, g.outer = some o → o < e ∧ W.map .frame o < W.map .frame e
  atom {a : AtomId} (h : ⟨.atom, a⟩ ∈ W.shared) : W.Rel (m.atomValue a) (n.atomValue (W.map .atom a))

/-- The frames of the roots in common are in common. -/
def RootsShared (W : World) : Prop :=
  ∀ r : FrameId, ⟨.root, r⟩ ∈ W.shared → ⟨.frame, r⟩ ∈ W.shared ∧ W.map .root r = W.map .frame r

/-- Roots are shared from the start, so no growth takes their frames away. -/
theorem RootsShared.mono (h : W.RootsShared) (le : W.LE W') : W'.RootsShared := by
  intro r hr
  obtain ⟨hs, same⟩ := h r (le.root hr)
  exact ⟨le.shared hs, by rw [le.apply (le.root hr), le.apply hs, same]⟩

variable {m n : Machine}

theorem Matches.rootsShared (h : W.Matches m n) : W.RootsShared := fun _ => h.root

theorem Matches.agrees (h : W.Matches m n) : W.Agrees m n := ⟨h.bound, h.frame, h.atom⟩

/-- Machines that agree match as soon as the frames of the shared roots are shared too. -/
theorem Agrees.matches (h : W.Agrees m n) (hr : W.RootsShared) : W.Matches m n :=
  ⟨h.bound, hr _, h.frame, h.atom⟩

namespace Agrees

/-- Atoms that are shared hold related values. -/
theorem atomValue (h : W.Agrees m n) {a b : AtomId} (ha : W.Names .atom a b) :
    W.Rel (m.atomValue a) (n.atomValue b) := by
  rw [ha.eq]
  exact h.atom ha.mem

/-- **A name** means related values in frames that are shared, or nothing in both. -/
theorem lookup (h : W.Agrees m n) {e e' : FrameId} (he : W.Names .frame e e') (name : String) :
    W.Rel (m.lookup e name) (n.lookup e' name) := by
  -- outwards the numbers of frames get smaller on both sides, so both searches go on long enough
  have within : ∀ steps steps' e, ⟨.frame, e⟩ ∈ W.shared → e < steps → W.map .frame e < steps' →
      W.Rel (m.lookupWithin name steps e) (n.lookupWithin name steps' (W.map .frame e)) := by
    intro steps
    induction steps with
    | zero => intro _ e _ he; exact absurd he (Nat.not_lt_zero e)
    | succ steps ih =>
      intro steps' e hs he he'
      obtain ⟨steps', rfl⟩ := Nat.exists_eq_add_one_of_ne_zero (Nat.ne_zero_of_lt he')
      obtain ⟨g, g', hg, hg', rel, outer⟩ := h.frame hs
      have found : W.Rel (g.bindings.find? name) (g'.bindings.find? name) :=
        rel.bindings.map fun f bs => Bindings.find?_rename f name bs
      simp only [Machine.lookupWithin, hg, hg', rel.outer]
      cases hb : g.bindings.find? name with
      | some v =>
        rw [hb] at found
        obtain ⟨w, hw, hvw⟩ := found.of_some
        simp only [hw]
        exact hvw.some
      | none =>
        rw [hb] at found
        simp only [found.of_none]
        cases ho : g.outer with
        | none => exact Rel.of_nil rfl rfl
        | some o =>
          obtain ⟨lt, lt'⟩ := outer o ho
          exact ih steps' o (rel.shared (List.mem_append_right _ (by simp [ho])))
            (Nat.lt_of_lt_of_le lt (Nat.le_of_lt_succ he)) (Nat.lt_of_lt_of_le lt' (Nat.le_of_lt_succ he'))
  rw [he.eq]
  exact within (e + 1) (W.map .frame e + 1) e he.mem (Nat.lt_succ_self e) (Nat.lt_succ_self _)

/-- A form is a call of a macro in both frames or in neither, and then of related macros on related operands. -/
theorem macroCall? (h : W.Agrees m n) {e e' : FrameId} (he : W.Names .frame e e') {form form' : Value}
    (hf : W.Rel form form') : W.Rel (m.macroCall? e form) (n.macroCall? e' form') := by
  have other (h : m.macroCall? e form = none) (h' : n.macroCall? e' form' = none) :
      W.Rel (m.macroCall? e form) (n.macroCall? e' form') := by
    rw [h, h']
    exact Rel.of_nil rfl rfl
  cases form with
  | list xs =>
    obtain ⟨ys, rfl, hxs⟩ := hf.of_list
    cases xs with
    | nil => obtain rfl := hxs.of_nil_list; exact other rfl rfl
    | cons x xs =>
      obtain ⟨y, ys, rfl, hx, hys⟩ := hxs.of_cons
      cases x with
      | symbol name =>
        obtain rfl := hx.eq
        have found := h.lookup he name
        simp only [Machine.macroCall?, Value.rename_symbol]
        cases hl : m.lookup e name with
        | none =>
          rw [hl] at found
          rw [found.of_none]
          exact Rel.of_nil rfl rfl
        | some f =>
          rw [hl] at found
          obtain ⟨f', hf', hff'⟩ := found.of_some
          have expands : f'.expands = f.expands := by rw [hff'.eq, Value.expands_rename]
          simp only [hf', expands]
          split
          · exact (hff'.pair hys).some
          · exact Rel.of_nil rfl rfl
      | _ => obtain rfl := hx.eq; exact other rfl rfl
  | _ => obtain rfl := hf.eq; exact other rfl rfl

/-! ## Texts -/

/-- The shared atoms hold no others. -/
theorem holdsAtoms (h : W.Agrees m n) : m.HoldsAtoms {a | ⟨.atom, a⟩ ∈ W.shared} :=
  ⟨fun ha => (h.bound ha).1, fun ha hb => (h.atom ha).shared hb⟩

theorem holdsAtoms_image (h : W.Agrees m n) : n.HoldsAtoms {b | ∃ a, W.Names .atom a b} := by
  refine ⟨fun ⟨a, ha⟩ => ha.eq ▸ (h.bound ha.mem).2, fun {b c} ⟨a, ha⟩ hc => ?_⟩
  rw [(h.atomValue ha).eq, Refers.refs_rename] at hc
  obtain ⟨x, hx, hxc⟩ := List.mem_map.1 hc
  obtain ⟨k, i⟩ := x
  obtain ⟨rfl, rfl⟩ := Ref.mk.inj hxc
  exact ⟨i, names ((h.atomValue ha).shared hx)⟩

/-- What is shared has the same text in both machines. -/
theorem contents (h : W.Agrees m n) (mode : Mode) {a b : AtomId} (ha : W.Names .atom a b) :
    n.contents mode b = m.contents mode a := by
  have within : ∀ d a, ⟨.atom, a⟩ ∈ W.shared → n.contentsWithin mode d (W.map .atom a) = m.contentsWithin mode d a := by
    intro d
    induction d with
    | zero => intro a _; rfl
    | succ d ih =>
      intro a ha
      have rel := h.atom ha
      simp only [Machine.contentsWithin, rel.eq]
      exact Value.render_rename fun b hb => ih b (rel.shared hb)
  have deep : m.contentsWithin mode (max m.atoms.size n.atoms.size) a = m.contents mode a :=
    Machine.contentsWithin_stable h.holdsAtoms ha.mem (Nat.le_max_left _ _)
  have deep' : n.contentsWithin mode (max m.atoms.size n.atoms.size) b = n.contents mode b :=
    Machine.contentsWithin_stable h.holdsAtoms_image ⟨a, ha⟩ (Nat.le_max_right _ _)
  rw [← deep, ← deep', ha.eq]
  exact within _ a ha.mem

/-- Related values are printed alike. -/
theorem render (h : W.Agrees m n) (mode : Mode) {v w : Value} (hv : W.Rel v w) :
    w.render mode (n.contents mode) = v.render mode (m.contents mode) := by
  rw [hv.eq]
  exact Value.render_rename fun a ha => h.contents mode (names (hv.shared ha))

theorem text? (h : W.Agrees m n) (mode : Mode) {v w : Value} (hv : W.Rel v w) : n.text? mode w = m.text? mode v :=
  congrArg (Option.map String.ofList) (h.render mode hv)

end Agrees

/-- A root that is held on both sides is there on both. -/
theorem Matches.isAlive (h : W.Matches m n) {r r' : FrameId} (hr : W.Names .root r r') {held held' : Holds}
    (hh : r ∈ held.frames) (hh' : r' ∈ held'.frames) : m.isAlive held r = true ∧ n.isAlive held' r' = true := by
  have alive {k : Machine} {held : Holds} {r : FrameId} {g : Frame} (hg : k.frames[r]? = some g)
      (hh : r ∈ held.frames) : k.isAlive held r = true := by
    have own : r ∈ k.chain r := by
      simp only [Machine.chain, Machine.chainWithin, hg]
      cases g.outer <;> simp
    simp only [Machine.isAlive, Bool.or_eq_true, List.any_eq_true, List.contains_iff_mem]
    exact .inl ⟨r, hh, own⟩
  obtain ⟨hs, hm⟩ := h.root hr.mem
  obtain ⟨g, g', hg, hg', -⟩ := h.frame hs
  rw [← hm, ← hr.eq] at hg'
  exact ⟨alive hg hh, alive hg' hh'⟩

end World

end MiniLisp
