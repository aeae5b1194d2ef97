import Mathlib
import MiniLisp.Proofs.Reach

/-!
# Worlds put together

Worlds follow one another (`World.trans`), and several worlds in which two machines agree make up one if they meet only
where all of them leave the names as they are (`World.exists_join`).

* `World.Keeps`: a world that leaves the names in a set as they are.
* `World.Sub`: a part of a world.
-/

namespace MiniLisp

open Refers (rename refs)

/-- What is one-to-one on finitely many numbers is part of a permutation. -/
theorem exists_perm_eqOn {s : Set Nat} (hs : s.Finite) {f : Nat → Nat} (hf : s.InjOn f) :
    ∃ g : Equiv.Perm Nat, s.EqOn g f := by
  induction s, hs using Set.Finite.induction_on with
  | empty => exact ⟨1, Set.eqOn_empty _ _⟩
  | @insert a s ha _ ih =>
    obtain ⟨g, hg⟩ := ih (hf.mono (Set.subset_insert a s))
    refine ⟨Equiv.swap (g a) (f a) * g, fun i hi => ?_⟩
    rcases Set.mem_insert_iff.1 hi with rfl | hi
    · simp
    · have other : i ≠ a := fun h => ha (h ▸ hi)
      have image : f i ≠ f a := fun h => other (hf (Set.mem_insert_of_mem a hi) (Set.mem_insert a s) h)
      have kept : g i ≠ g a := fun h => other (g.injective h)
      rw [Equiv.Perm.mul_apply, Equiv.swap_apply_of_ne_of_ne kept (hg hi ▸ image), hg hi]

/-- A renaming gives different objects different names. -/
theorem Ref.rename_injective (f : Renaming) : Function.Injective (Ref.rename f) := by
  rintro ⟨k, i⟩ ⟨l, j⟩ h
  obtain ⟨rfl, h⟩ := Ref.mk.inj h
  exact congrArg (Ref.mk k) ((f k).injective h)

namespace World

variable {W W' : World} {m n k : Machine} {T : Set Ref}

/-! ## One after another -/

/-- What is shared with a third machine by way of a second one. -/
def trans (W W' : World) : World := ⟨W'.map * W.map, W.shared⟩

/-- Two relations, one after the other, are the relation of the composed world. -/
theorem Rel.trans {α : Type} [Refers α] {a b c : α} (h : W.Rel a b) (h' : W'.Rel b c) : (W.trans W').Rel a c :=
  ⟨by rw [h'.eq, h.eq, Refers.rename_mul]; rfl, h.shared⟩

/-- Machines that agree by way of a third agree, when what the first world names is shared by the second. -/
theorem Agrees.trans (h : W.Agrees m n) (h' : W'.Agrees n k) (hs : W.image ⊆ W'.shared) :
    (W.trans W').Agrees m k where
  bound hx := ⟨(h.bound hx).1, (h'.bound (hs ⟨_, hx, rfl⟩)).2⟩
  frame he := by
    obtain ⟨g, g', hg, hg', rel, outer⟩ := h.frame he
    obtain ⟨f, f', hf, hf', rel', outer'⟩ := h'.frame (hs ⟨_, he, rfl⟩)
    rw [hg'] at hf
    cases hf
    refine ⟨g, f', hg, hf', rel.trans rel', fun o ho => ⟨(outer o ho).1, (outer' _ ?_).2⟩⟩
    rw [rel.outer, ho]
    rfl
  atom ha := (h.atom ha).trans (h'.atom (hs ⟨_, ha, rfl⟩))

/-- The composed world names what the second one names. -/
theorem image_trans (h : W.image = W'.shared) : (W.trans W').image = W'.image := by
  rw [image, image, ← h, image, Set.image_image]
  rfl

/-! ## Names that are kept -/

/-- A world that leaves the names in a set as they are and does not mix up other things with them. Its roots are in
the set. -/
structure Keeps (W : World) (T : Set Ref) : Prop where
  mem_iff {x : Ref} (h : x ∈ W.shared) : x.rename W.map ∈ T ↔ x ∈ T
  eq {x : Ref} (h : x ∈ W.shared) (hT : x ∈ T) : x.rename W.map = x
  root {r : FrameId} (h : ⟨.root, r⟩ ∈ W.shared) : ⟨.root, r⟩ ∈ T

theorem keeps_one (T : Set Ref) : (World.mk 1 T).Keeps T := ⟨fun _ => Iff.rfl, fun _ _ => rfl, fun h => h⟩

/-- The other direction of a world keeps what it keeps. -/
theorem Keeps.symm (h : W.Keeps T) : W.symm.Keeps T where
  mem_iff hy := by
    obtain ⟨x, hx, rfl⟩ := hy
    change (x.rename W.map).rename W.map⁻¹ ∈ T ↔ _
    rw [Ref.rename_mul, inv_mul_cancel, Ref.rename_one, h.mem_iff hx]
  eq hy hT := by
    obtain ⟨x, hx, rfl⟩ := hy
    change (x.rename W.map).rename W.map⁻¹ = _
    rw [Ref.rename_mul, inv_mul_cancel, Ref.rename_one, h.eq hx ((h.mem_iff hx).1 hT)]
  root hr := by
    obtain ⟨⟨k, i⟩, hx, hxr⟩ := hr
    obtain ⟨rfl, -⟩ := Ref.mk.inj hxr
    rw [← hxr]
    exact (h.mem_iff hx).2 (h.root hx)

/-- Worlds that keep a set keep it together. -/
theorem Keeps.trans (h : W.Keeps T) (h' : W'.Keeps T) (hs : W.image ⊆ W'.shared) : (W.trans W').Keeps T where
  mem_iff hx := (h'.mem_iff (hs ⟨_, hx, rfl⟩)).trans (h.mem_iff hx)
  eq {x} hx hT := by
    change (x.rename W.map).rename W'.map = x
    rw [h'.eq (hs ⟨_, hx, rfl⟩) ((h.mem_iff hx).2 hT), h.eq hx hT]
  root := h.root

/-! ## Several worlds -/

/-- A part of a world. -/
structure Sub (W W' : World) : Prop where
  shared {x : Ref} (h : x ∈ W.shared) : x ∈ W'.shared
  map {x : Ref} (h : x ∈ W.shared) : x.rename W'.map = x.rename W.map

theorem Rel.of_sub {α : Type} [Refers α] {a b : α} (h : W.Rel a b) (hs : W.Sub W') : W'.Rel a b :=
  ⟨h.eq.trans (Refers.rename_congr fun _ hx => (hs.map (h.shared hx)).symm), fun hx => hs.shared (h.shared hx)⟩

theorem Sub.names (h : W.Sub W') {k : RefKind} {i : Nat} (hi : ⟨k, i⟩ ∈ W.shared) : W'.map k i = W.map k i :=
  congrArg Ref.index (h.map hi)

section

variable {ι : Type} {U : ι → World}

/-- Machines agree in a world that is put together of parts when they agree in each of them. -/
theorem Agrees.of_parts (hU : ∀ i, (U i).Agrees m n) (hs : ∀ i, (U i).Sub W)
    (hW : ∀ x ∈ W.shared, ∃ i, x ∈ (U i).shared) : W.Agrees m n where
  bound {x} hx := by
    obtain ⟨i, hx⟩ := hW x hx
    rw [(hs i).names hx]
    exact (hU i).bound hx
  frame {e} he := by
    obtain ⟨i, he⟩ := hW _ he
    obtain ⟨g, g', hg, hg', rel, outer⟩ := (hU i).frame he
    refine ⟨g, g', hg, by rw [(hs i).names he]; exact hg', rel.of_sub (hs i), fun o ho => ?_⟩
    rw [(hs i).names he, (hs i).names (rel.shared (List.mem_append_right _ (by simp [ho])))]
    exact outer o ho
  atom {a} ha := by
    obtain ⟨i, ha⟩ := hW _ ha
    rw [(hs i).names ha]
    exact ((hU i).atom ha).of_sub (hs i)

/-- Such a world keeps what its parts keep. -/
theorem Keeps.of_parts (hU : ∀ i, (U i).Keeps T) (hs : ∀ i, (U i).Sub W)
    (hW : ∀ x ∈ W.shared, ∃ i, x ∈ (U i).shared) : W.Keeps T where
  mem_iff {x} hx := by
    obtain ⟨i, hx⟩ := hW x hx
    rw [(hs i).map hx]
    exact (hU i).mem_iff hx
  eq {x} hx hT := by
    obtain ⟨i, hx⟩ := hW x hx
    rw [(hs i).map hx]
    exact (hU i).eq hx hT
  root {r} hr := by
    obtain ⟨i, hr⟩ := hW _ hr
    exact (hU i).root hr

/-- Worlds that meet only in names that they keep give one name to one thing. -/
theorem rename_eq_iff (hk : ∀ i, (U i).Keeps T) (hs : ∀ i j, i ≠ j → (U i).shared ∩ (U j).shared ⊆ T)
    (hi : ∀ i j, i ≠ j → (U i).image ∩ (U j).image ⊆ T) {i j : ι} {x y : Ref} (hx : x ∈ (U i).shared)
    (hy : y ∈ (U j).shared) : x.rename (U i).map = y.rename (U j).map ↔ x = y := by
  by_cases hij : i = j
  · subst hij
    exact (Ref.rename_injective _).eq_iff
  constructor
  · intro h
    have hT : x.rename (U i).map ∈ T := hi i j hij ⟨⟨x, hx, rfl⟩, ⟨y, hy, h.symm⟩⟩
    have hT' : y.rename (U j).map ∈ T := h ▸ hT
    rwa [(hk i).eq hx (((hk i).mem_iff hx).1 hT), (hk j).eq hy (((hk j).mem_iff hy).1 hT')] at h
  · rintro rfl
    have hT := hs i j hij ⟨hx, hy⟩
    rw [(hk i).eq hx hT, (hk j).eq hy hT]

/-- **Worlds that meet** only in names that they all keep make up one world. -/
theorem exists_join (hU : ∀ i, (U i).Agrees m n) (hk : ∀ i, (U i).Keeps T)
    (hs : ∀ i j, i ≠ j → (U i).shared ∩ (U j).shared ⊆ T) (hi : ∀ i j, i ≠ j → (U i).image ∩ (U j).image ⊆ T) :
    ∃ W : World, W.Agrees m n ∧ W.Keeps T ∧ ∀ i, (U i).Sub W := by
  classical
  let f (k : RefKind) (a : Nat) : Nat := if h : ∃ i, ⟨k, a⟩ ∈ (U i).shared then (U h.choose).map k a else 0
  have hf {i : ι} {k : RefKind} {a : Nat} (h : ⟨k, a⟩ ∈ (U i).shared) : f k a = (U i).map k a := by
    have some : ∃ i, ⟨k, a⟩ ∈ (U i).shared := ⟨i, h⟩
    simp only [f, dif_pos some]
    exact congrArg Ref.index ((rename_eq_iff hk hs hi some.choose_spec h).2 rfl)
  have permutes (k : RefKind) : ∃ g : Equiv.Perm Nat, {a | ∃ i, ⟨k, a⟩ ∈ (U i).shared}.EqOn g (f k) := by
    refine exists_perm_eqOn ((Set.finite_lt_nat (m.count k)).subset ?_) ?_
    · rintro a ⟨i, ha⟩
      exact ((hU i).bound ha).1
    · rintro a ⟨i, ha⟩ b ⟨j, hb⟩ hab
      rw [hf ha, hf hb] at hab
      exact congrArg Ref.index ((rename_eq_iff hk hs hi ha hb).1 (congrArg (Ref.mk k) hab))
  choose g hg using permutes
  have parts (i : ι) : (U i).Sub ⟨g, {x | ∃ i, x ∈ (U i).shared}⟩ :=
    ⟨fun hx => ⟨i, hx⟩, fun {x} hx => congrArg (Ref.mk x.kind) ((hg x.kind ⟨i, hx⟩).trans (hf hx))⟩
  exact ⟨_, .of_parts hU parts fun _ hx => hx, .of_parts hk parts fun _ hx => hx, parts⟩

end

end World

end MiniLisp
