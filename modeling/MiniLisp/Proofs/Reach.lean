import Mathlib
import MiniLisp.Proofs.Isolation

/-!
# What an evaluation can reach

From a form and a frame other things can be reached: through elements and bindings, outwards, through closures,
through what atoms hold and through the roots of rooted builtins. Where two machines agree on all of that, evaluation
ends alike (`evaluate_sameEnd`).

* `Machine.reach`: what can be reached from a form in a frame.
* `Machine.Sound`: references to what is there.
* `World.SameEnd`: two evaluations that end alike.
-/

namespace MiniLisp

open Refers (rename refs)

/-! ## Worlds the other way round -/

namespace World

variable {W W' : World} {m m' n : Machine} {ctx ctx' : Context}

/-- The same world seen from the second machine. -/
def symm (W : World) : World := ⟨W.map⁻¹, W.image⟩

/-- The relation of a world, read from the other side. -/
theorem Rel.symm {α : Type} [Refers α] {a b : α} (h : W.Rel a b) : W.symm.Rel b a := by
  obtain rfl := h.eq
  refine ⟨(Refers.rename_inv W.map a).symm, fun {y} hy => ?_⟩
  rw [Refers.refs_rename] at hy
  obtain ⟨x, hx, rfl⟩ := List.mem_map.1 hy
  exact ⟨x, h.shared hx, rfl⟩

theorem symm_map_map (W : World) (k : RefKind) (i : Nat) : W.symm.map k (W.map k i) = i :=
  (W.map k).symm_apply_apply i

/-- Machines that agree in a world agree in the world turned around. -/
theorem Agrees.symm (h : W.Agrees m n) : W.symm.Agrees n m where
  bound {y} hy := by
    obtain ⟨x, hx, rfl⟩ := hy
    obtain ⟨lt, lt'⟩ := h.bound hx
    refine ⟨lt', ?_⟩
    rw [Ref.rename, symm_map_map]
    exact lt
  frame {e} he := by
    obtain ⟨⟨k, i⟩, hx, hxe⟩ := he
    obtain ⟨rfl, rfl⟩ := Ref.mk.inj hxe
    obtain ⟨g, g', hg, hg', rel, outer⟩ := h.frame hx
    refine ⟨g', g, hg', by rw [symm_map_map]; exact hg, rel.symm, fun o' ho => ?_⟩
    rw [rel.outer] at ho
    obtain ⟨o, hog, rfl⟩ := Option.map_eq_some_iff.1 ho
    rw [symm_map_map, symm_map_map]
    exact (outer o hog).symm
  atom {a} ha := by
    obtain ⟨⟨k, i⟩, hx, hxa⟩ := ha
    obtain ⟨rfl, rfl⟩ := Ref.mk.inj hxa
    rw [symm_map_map]
    exact (h.atom hx).symm

theorem Matches.symm (h : W.Matches m n) : W.symm.Matches n m := by
  refine h.agrees.symm.matches fun r hr => ?_
  obtain ⟨⟨k, i⟩, hx, hxr⟩ := hr
  obtain ⟨rfl, rfl⟩ := Ref.mk.inj hxr
  obtain ⟨hs, same⟩ := h.root hx
  exact ⟨⟨_, hs, congrArg (Ref.mk .frame) same.symm⟩, by rw [symm_map_map, same, symm_map_map]⟩

/-- Contexts are related the other way around too. -/
theorem Contexts.symm (h : W.Contexts ctx ctx') : W.symm.Contexts ctx' ctx := by
  refine ⟨h.files.symm, h.recorded.symm, fun {r} hr => ?_⟩
  obtain ⟨⟨k, i⟩, hx, hxr⟩ := hr
  obtain ⟨rfl, rfl⟩ := Ref.mk.inj hxr
  rw [symm_map_map]
  exact (h.held hx).symm

/-! ## Evaluations that end alike -/

/-- Both evaluations go on for ever; or both end, with outcomes that correspond and the same output, on machines that
match again, and nothing has changed in either but what was shared. -/
inductive SameEnd (W : World) (m n : Machine) :
    Option (Except EvalError Value × Machine) → Option (Except EvalError Value × Machine) → Prop
  | neither : SameEnd W m n none none
  | both {W' : World} {r s : Except EvalError Value} {m' n' : Machine} (hm : W'.Matches m' n')
    (advances : W.Advances m n W' m' n') (hr : W'.Rel r s) : SameEnd W m n (some (r, m')) (some (s, n'))

theorem Outcome.rel {r s : Except EvalError Value} (h : W.Outcome Related r s) : W.Rel r s := by
  cases h with
  | ok h => exact h.map fun _ _ => rfl
  | error h => exact h.map fun _ _ => rfl

/-- On machines that match, related forms are evaluated alike. -/
theorem evaluate_sameEnd (hm : W.Matches m n) (hc : W.Contexts ctx ctx') {e e' : FrameId} (he : W.Names .frame e e')
    {form form' : Value} (hf : W.Rel form form') :
    W.SameEnd m n (evaluate ctx e form m) (evaluate ctx' e' form' n) := by
  cases hx : evaluate ctx e form m with
  | some out =>
    obtain ⟨W', s, n', hy, hm', adv, hr⟩ := alike_evaluate hm hc he hf hx
    rw [hy]
    exact .both hm' adv hr.rel
  | none =>
    cases hy : evaluate ctx' e' form' n with
    | none => exact .neither
    | some out =>
      -- the first evaluation would follow the second one
      obtain ⟨W', s, m', hx', -⟩ := alike_evaluate hm.symm hc.symm he.symm hf.symm hy
      rw [hx] at hx'
      cases hx'

end World

/-! ## Reachability -/

namespace Machine

/-- What can be reached from some references. -/
inductive Reaches (m : Machine) (start : Set Ref) : Ref → Prop
  | start {x : Ref} (h : x ∈ start) : Reaches m start x
  | frame {e : FrameId} {g : Frame} {x : Ref} (h : Reaches m start ⟨.frame, e⟩) (hg : m.frames[e]? = some g)
    (hx : x ∈ refs g) : Reaches m start x
  | atom {a : AtomId} {x : Ref} (h : Reaches m start ⟨.atom, a⟩) (hx : x ∈ refs (m.atomValue a)) : Reaches m start x
  | root {r : FrameId} (h : Reaches m start ⟨.root, r⟩) : Reaches m start ⟨.frame, r⟩

/-- What can be reached from a form in a frame. -/
def reach (m : Machine) (e : FrameId) (form : Value) : Set Ref :=
  {x | m.Reaches {x | x = ⟨.frame, e⟩ ∨ x ∈ refs form} x}

/-- The world of what can be reached from a form in a frame, under other names. -/
abbrev world (m : Machine) (f : Renaming) (e : FrameId) (form : Value) : World := ⟨f, m.reach e form⟩

/-- References to what is there, from which nothing else can be reached. Outwards of a frame are older ones. -/
abbrev Sound (m : Machine) (S : Set Ref) : Prop := (World.mk 1 S).Matches m m

variable {m m' n : Machine} {S T : Set Ref}

theorem mem_reach_frame (m : Machine) (e : FrameId) (form : Value) : ⟨.frame, e⟩ ∈ m.reach e form :=
  .start (.inl rfl)

theorem mem_reach_form {x : Ref} {form : Value} (hx : x ∈ refs form) (m : Machine) (e : FrameId) : x ∈ m.reach e form :=
  .start (.inr hx)

/-- A set that is sound and holds the start holds everything that is reached. -/
theorem Reaches.mem {start : Set Ref} {x : Ref} (h : m.Reaches start x) (hS : m.Sound S) (hs : start ⊆ S) : x ∈ S := by
  induction h with
  | start h => exact hs h
  | frame _ hg hx ih =>
    obtain ⟨g, g', hg', -, rel, -⟩ := hS.frame ih
    rw [hg] at hg'
    cases hg'
    exact rel.shared hx
  | atom _ hx ih => exact (hS.atom ih).shared hx
  | root _ ih => exact (hS.root ih).1

end Machine

namespace World

variable {W : World} {m m' n : Machine} {S : Set Ref}

/-- What is shared refers only to what is shared. -/
theorem Matches.left (h : W.Matches m n) : m.Sound W.shared where
  bound hx := ⟨(h.bound hx).1, (h.bound hx).1⟩
  root hr := ⟨(h.root hr).1, rfl⟩
  frame he := by
    obtain ⟨g, g', hg, -, rel, outer⟩ := h.frame he
    exact ⟨g, g, hg, hg, ⟨(Refers.rename_one g).symm, rel.shared⟩, fun o ho => ⟨(outer o ho).1, (outer o ho).1⟩⟩
  atom ha := ⟨(Refers.rename_one _).symm, (h.atom ha).shared⟩

/-- The same on the other side. -/
theorem Matches.right (h : W.Matches m n) : n.Sound W.image := h.symm.left

/-- Machines match in what can be reached already. -/
theorem Matches.reach (h : W.Matches m n) {e : FrameId} {form : Value} (hs : m.reach e form ⊆ W.shared) :
    (m.world W.map e form).Matches m n where
  bound hx := h.bound (hs hx)
  root hr := ⟨.root hr, (h.root (hs hr)).2⟩
  frame he := by
    obtain ⟨g, g', hg, hg', rel, outer⟩ := h.frame (hs he)
    exact ⟨g, g', hg, hg', ⟨rel.eq, fun hx => .frame he hg hx⟩, outer⟩
  atom ha := ⟨(h.atom (hs ha)).eq, fun hx => .atom ha hx⟩

/-- What can be reached in the second machine is what can be reached in the first one, under its other names. -/
theorem image_reach {f : Renaming} {e : FrameId} {form : Value} (h : (m.world f e form).Matches m n) :
    (m.world f e form).image = n.reach (f .frame e) (rename f form) := by
  apply Set.Subset.antisymm
  · rintro _ ⟨x, hx, rfl⟩
    change m.Reaches _ x at hx
    induction hx with
    | start hx =>
      rcases hx with rfl | hx
      · exact Machine.mem_reach_frame _ _ _
      · refine Machine.mem_reach_form ?_ _ _
        rw [Refers.refs_rename]
        exact List.mem_map_of_mem hx
    | frame he hg hx ih =>
      obtain ⟨g, g', hg', hg'', rel, -⟩ := h.frame he
      rw [hg] at hg'
      cases hg'
      refine .frame ih hg'' ?_
      rw [rel.eq, Refers.refs_rename]
      exact List.mem_map_of_mem hx
    | atom ha hx ih =>
      refine .atom ih ?_
      rw [(h.atom ha).eq, Refers.refs_rename]
      exact List.mem_map_of_mem hx
    | root hr ih =>
      have same := (h.root hr).2
      change n.Reaches _ ⟨.frame, f .frame _⟩
      rw [← same]
      exact .root ih
  · refine fun y hy => Machine.Reaches.mem hy h.right fun x hx => ?_
    rcases hx with rfl | hx
    · exact ⟨_, Machine.mem_reach_frame m e form, rfl⟩
    · rw [Refers.refs_rename] at hx
      obtain ⟨z, hz, rfl⟩ := List.mem_map.1 hx
      exact ⟨z, Machine.mem_reach_form hz m e, rfl⟩

/-- A machine goes on to agree when nothing changes but what is not shared. -/
theorem Agrees.of_changes (h : W.Agrees m n) (hc : m.ChangesWithin S m') (hd : Disjoint S W.shared) :
    W.Agrees m' n where
  bound hx := ⟨(h.bound hx).1.trans_le (hc.count _), (h.bound hx).2⟩
  frame he := by
    obtain ⟨g, g', hg, rest⟩ := h.frame he
    exact ⟨g, g', (hc.frame (h.bound he).1 (Set.disjoint_right.1 hd he)).trans hg, rest⟩
  atom {a} ha := by
    rw [hc.atomValue (h.bound ha).1 (Set.disjoint_right.1 hd ha)]
    exact h.atom ha

/-- Changes outside of what is shared leave a match a match. -/
theorem Matches.of_changes (h : W.Matches m n) (hc : m.ChangesWithin S m') (hd : Disjoint S W.shared) :
    W.Matches m' n :=
  (h.agrees.of_changes hc hd).matches h.rootsShared

theorem image_one (S : Set Ref) : (World.mk 1 S).image = S := Set.image_id S

theorem symm_symm (W : World) : W.symm.symm = W := by
  obtain ⟨f, S⟩ := W
  have back (x : Ref) : (x.rename f).rename f⁻¹ = x := by rw [Ref.rename_mul, inv_mul_cancel, Ref.rename_one]
  simp only [symm, image, inv_inv, Set.image_image, back, Set.image_id']

theorem symm_one (S : Set Ref) : (World.mk 1 S).symm = World.mk 1 S := by
  rw [symm, image_one, inv_one]

end World

namespace Machine

variable {m m' : Machine} {S T : Set Ref}

/-- Changes elsewhere leave a sound set sound. -/
theorem Sound.of_changes (h : m.Sound S) (hc : m.ChangesWithin T m') (hd : Disjoint T S) : m'.Sound S :=
  (World.Matches.of_changes h hc hd).left

/-- What can be reached stays the same when nothing of it changes. -/
theorem Sound.reach_eq {e : FrameId} {form : Value} (h : m.Sound (m.reach e form)) (hc : m.ChangesWithin T m')
    (hd : Disjoint T (m.reach e form)) : m'.reach e form = m.reach e form := by
  have hm : (m.world 1 e form).Matches m m' := by
    have back := (World.Matches.of_changes h hc hd).symm
    rwa [World.symm_one] at back
  have image := World.image_reach hm
  rwa [World.image_one, Refers.rename_one, eq_comm] at image

end Machine

end MiniLisp
