import MiniLisp.Machine.Lifetime

/-!
# What is held keeps alive

A set of flags lies below another one (`Flags.LE`) if it has the same bound and no more numbers. What is owned grows
with what is held and with what owns it (`ownedFrom_mono`), every round of a sweep keeps that order, and so do the
survivors.

* **Monotonicity** (`Machine.isAlive_mono`): what is alive stays alive when more is held.
-/

namespace MiniLisp

/-! ## Flags -/

namespace Flags

/-- A flag that is set is on from then on, if it is there at all. -/
theorem has_setIfInBounds (a : Flags) (i j : Nat) :
    Flags.has (a.setIfInBounds i true) j = (a.has j || decide (i = j ∧ j < a.size)) := by
  simp only [has, Array.getD_eq_getD_getElem?, Array.getElem?_setIfInBounds]
  by_cases hij : i = j
  · subst hij
    by_cases hi : i < a.size <;> simp [hi]
  · simp [hij]

theorem size_addAll (a : Flags) (is : List Nat) : (a.addAll is).size = a.size := by
  induction is generalizing a with
  | nil => rfl
  | cons i is ih =>
    have tail := ih (a.setIfInBounds i true)
    rw [Array.size_setIfInBounds] at tail
    exact tail

/-- The flags that are on after several were set. -/
theorem has_addAll (a : Flags) (is : List Nat) (j : Nat) :
    (a.addAll is).has j = (a.has j || decide (j ∈ is ∧ j < a.size)) := by
  induction is generalizing a with
  | nil => simp [addAll]
  | cons i is ih =>
    have tail := ih (a.setIfInBounds i true)
    rw [has_setIfInBounds, Array.size_setIfInBounds] at tail
    refine tail.trans ?_
    by_cases hj : j = i
    · subst hj
      by_cases hs : j < a.size <;> simp [hs]
    · simp [hj, Ne.symm hj]

theorem size_inter (a b : Flags) : (a.inter b).size = a.size := by simp [inter]

theorem has_inter (a b : Flags) (j : Nat) : (a.inter b).has j = (a.has j && b.has j) := by
  simp only [inter, has, Array.getD_eq_getD_getElem?, Array.getElem?_mapIdx]
  cases a[j]? <;> simp

/-- The same bound and no more numbers. -/
structure LE (a b : Flags) : Prop where
  size : a.size = b.size
  has {j : Nat} (h : a.has j = true) : b.has j = true

theorem LE.refl (a : Flags) : LE a a := ⟨rfl, fun h => h⟩

theorem LE.trans {a b c : Flags} (h : LE a b) (h' : LE b c) : LE a c :=
  ⟨h.size.trans h'.size, fun hj => h'.has (h.has hj)⟩

/-- Setting more flags in a larger set of flags gives a larger set. -/
theorem LE.addAll {a b : Flags} {is js : List Nat} (h : LE a b) (hs : is ⊆ js) : LE (a.addAll is) (b.addAll js) := by
  refine ⟨by rw [size_addAll, size_addAll, h.size], fun {j} hj => ?_⟩
  rw [has_addAll, Bool.or_eq_true, decide_eq_true_eq] at hj ⊢
  rcases hj with hj | ⟨hj, bound⟩
  · exact .inl (h.has hj)
  · exact .inr ⟨hs hj, h.size ▸ bound⟩

/-- Intersections grow with their parts. -/
theorem LE.inter {a b a' b' : Flags} (h : LE a b) (h' : LE a' b') : LE (a.inter a') (b.inter b') := by
  refine ⟨by rw [size_inter, size_inter, h.size], fun {j} hj => ?_⟩
  rw [has_inter, Bool.and_eq_true] at hj ⊢
  exact ⟨h.has hj.1, h'.has hj.2⟩

theorem inter_le (a b : Flags) : LE (a.inter b) a := by
  refine ⟨size_inter a b, fun hj => ?_⟩
  rw [has_inter, Bool.and_eq_true] at hj
  exact hj.1

end Flags

/-! ## What is owned -/

/-- No more frames and no more atoms. -/
structure Owned.LE (o p : Owned) : Prop where
  frames : o.frames ⊆ p.frames
  atoms : o.atoms ⊆ p.atoms

namespace Owned

theorem LE.refl (o : Owned) : o.LE o := ⟨fun _ he => he, fun _ ha => ha⟩

theorem LE.trans {o p q : Owned} (h : o.LE p) (h' : p.LE q) : o.LE q :=
  ⟨fun _ he => h'.frames (h.frames he), fun _ ha => h'.atoms (h.atoms ha)⟩

theorem none_le (o : Owned) : none.LE o := ⟨List.nil_subset _, List.nil_subset _⟩

theorem le_union_left (o p : Owned) : o.LE (o.union p) :=
  ⟨List.subset_append_left _ _, List.subset_append_left _ _⟩

theorem le_union_right (o p : Owned) : p.LE (o.union p) :=
  ⟨List.subset_append_right _ _, List.subset_append_right _ _⟩

/-- What two parts own, the whole owns. -/
theorem union_le {o p q : Owned} (h : o.LE q) (h' : p.LE q) : (o.union p).LE q :=
  ⟨List.append_subset.2 ⟨h.frames, h'.frames⟩, List.append_subset.2 ⟨h.atoms, h'.atoms⟩⟩

end Owned

namespace Holds

/-- A frame is owned by what is held if it is held itself or owned by a value that is held. -/
theorem mem_owned (h : Holds) :
    (∀ e, e ∈ h.owned.frames ↔ e ∈ h.frames ∨ ∃ v ∈ h.values, e ∈ v.owned.frames) ∧
      ∀ a, a ∈ h.owned.atoms ↔ ∃ v ∈ h.values, a ∈ v.owned.atoms := by
  have fold : ∀ (vs : List Value) (o : Owned),
      (∀ e, e ∈ (vs.foldl (fun acc v => v.owned.union acc) o).frames ↔
        e ∈ o.frames ∨ ∃ v ∈ vs, e ∈ v.owned.frames) ∧
      ∀ a, a ∈ (vs.foldl (fun acc v => v.owned.union acc) o).atoms ↔ a ∈ o.atoms ∨ ∃ v ∈ vs, a ∈ v.owned.atoms := by
    intro vs
    induction vs with
    | nil => intro o; simp
    | cons v vs ih =>
      intro o
      refine ⟨fun e => ((ih _).1 e).trans ?_, fun a => ((ih _).2 a).trans ?_⟩ <;>
        simp only [Owned.union, List.mem_append, List.mem_cons, exists_eq_or_imp] <;> grind
  refine ⟨fun e => (fold _ _).1 e, fun a => ((fold _ _).2 a).trans ?_⟩
  simp

/-- What is held owns what each held value owns. -/
theorem le_owned {h : Holds} {v : Value} (hv : v ∈ h.values) : v.owned.LE h.owned :=
  ⟨fun e he => (h.mem_owned.1 e).2 (.inr ⟨v, hv, he⟩), fun a ha => (h.mem_owned.2 a).2 ⟨v, hv, ha⟩⟩

/-- No more frames, and no value that owns anything further. -/
structure LE (h h' : Holds) : Prop where
  frames : h.frames ⊆ h'.frames
  values {v : Value} (hv : v ∈ h.values) : v.owned.LE h'.owned

/-- Who holds more owns more. -/
theorem LE.owned {h h' : Holds} (le : h.LE h') : h.owned.LE h'.owned := by
  refine ⟨fun e he => ?_, fun a ha => ?_⟩
  · rcases (h.mem_owned.1 e).1 he with he | ⟨v, hv, he⟩
    · exact (h'.mem_owned.1 e).2 (.inl (le.frames he))
    · exact (le.values hv).frames he
  · obtain ⟨v, hv, ha⟩ := (h.mem_owned.2 a).1 ha
    exact (le.values hv).atoms ha

theorem LE.refl (h : Holds) : h.LE h := ⟨fun _ he => he, le_owned⟩

theorem LE.trans {h h' h'' : Holds} (le : h.LE h') (le' : h'.LE h'') : h.LE h'' :=
  ⟨fun _ he => le'.frames (le.frames he), fun hv => (le.values hv).trans le'.owned⟩

/-- Holding a frame besides loses nothing. -/
theorem le_frame (h : Holds) (e : FrameId) : h.LE (h.frame e) := by
  refine ⟨List.subset_cons_self _ _, fun hv => ?_⟩
  exact le_owned (h := h.frame e) hv

theorem le_items (h : Holds) (vs : List Value) : h.LE (h.items vs) :=
  ⟨fun _ he => he, fun hv => le_owned (h := h.items vs) (List.mem_append_right vs hv)⟩

/-- The order is kept when both hold a frame besides. -/
theorem LE.frame {h h' : Holds} (le : h.LE h') (e : FrameId) : (h.frame e).LE (h'.frame e) :=
  ⟨List.cons_subset_cons e le.frames, fun hv => (le.values hv).trans (h'.le_frame e).owned⟩

/-- What is held besides may be any values that own no more. -/
theorem LE.items_of {h h' : Holds} (le : h.LE h') {vs vs' : List Value}
    (hvs : ∀ v ∈ vs, v.owned.LE (h'.items vs').owned) : (h.items vs).LE (h'.items vs') := by
  refine ⟨le.frames, fun {v} hv => ?_⟩
  rcases List.mem_append.1 hv with hv | hv
  · exact hvs v hv
  · exact (le.values hv).trans (h'.le_items vs').owned

/-- It is kept when both hold values besides. -/
theorem LE.items {h h' : Holds} (le : h.LE h') (vs : List Value) : (h.items vs).LE (h'.items vs) :=
  le.items_of fun _ hv => le_owned (h := h'.items vs) (List.mem_append_left _ hv)

end Holds

/-! ## Sweeps -/

namespace Marks

structure LE (s t : Marks) : Prop where
  frames : s.frames.LE t.frames
  atoms : s.atoms.LE t.atoms

theorem LE.refl (s : Marks) : s.LE s := ⟨.refl _, .refl _⟩

theorem LE.trans {s t u : Marks} (h : s.LE t) (h' : t.LE u) : s.LE u :=
  ⟨h.frames.trans h'.frames, h.atoms.trans h'.atoms⟩

theorem LE.add {s t : Marks} {o p : Owned} (h : s.LE t) (ho : o.LE p) : (s.add o).LE (t.add p) :=
  ⟨h.frames.addAll ho.frames, h.atoms.addAll ho.atoms⟩

/-- Marks grow with what each object adds to them. -/
theorem LE.addEach {α : Type} {f g : α → Owned} {s t : Marks} (h : s.LE t) (xs : List α) (hfg : ∀ x, (f x).LE (g x)) :
    (s.addEach (xs.map f)).LE (t.addEach (xs.map g)) := by
  induction xs generalizing s t with
  | nil => exact h
  | cons x xs ih => exact ih (h.add (hfg x))

theorem LE.inter {s t s' t' : Marks} (h : s.LE t) (h' : s'.LE t') : (s.inter s').LE (t.inter t') :=
  ⟨h.frames.inter h'.frames, h.atoms.inter h'.atoms⟩

theorem inter_le (s t : Marks) : (s.inter t).LE s := ⟨Flags.inter_le _ _, Flags.inter_le _ _⟩

end Marks

namespace Machine

variable (m : Machine) {held held' : Holds} {s t : Marks}

/-- A frame that is marked owns what it did under fewer marks. -/
theorem frameOwned_mono (h : s.LE t) (e : FrameId) : (m.frameOwned s e).LE (m.frameOwned t e) := by
  unfold frameOwned
  cases hs : s.frames.has e with
  | false => exact Owned.none_le _
  | true =>
    rw [h.frames.has hs]
    exact .refl _

theorem atomOwned_mono (h : s.LE t) (a : AtomId) : (m.atomOwned s a).LE (m.atomOwned t a) := by
  unfold atomOwned
  cases hs : s.atoms.has a with
  | false => exact Owned.none_le _
  | true =>
    rw [h.atoms.has hs]
    exact .refl _

/-- What is owned grows with what is held and with the marks. -/
theorem ownedFrom_mono (hh : held.LE held') (h : s.LE t) : (m.ownedFrom held s).LE (m.ownedFrom held' t) :=
  (((Marks.LE.refl _).add hh.owned).addEach _ (m.frameOwned_mono h)).addEach _ (m.atomOwned_mono h)

/-- So does what is kept in one round of the sweep. -/
theorem kept_mono (hh : held.LE held') (h : s.LE t) : (m.kept held s).LE (m.kept held' t) :=
  h.inter (m.ownedFrom_mono hh h)

/-- The sweep only takes marks away. -/
theorem sweep_le (rounds : Nat) (s : Marks) : (m.sweep held rounds s).LE s := by
  induction rounds generalizing s with
  | zero => exact .refl s
  | succ rounds ih =>
    rw [sweep]
    split
    · exact .refl s
    · exact (ih _).trans (Marks.inter_le _ _)

/-- What is owned by its own members survives every sweep of a larger set. -/
theorem le_sweep (hs : s.LE (m.kept held s)) (rounds : Nat) (h : s.LE t) : s.LE (m.sweep held rounds t) := by
  induction rounds generalizing t with
  | zero => exact h
  | succ rounds ih =>
    rw [sweep]
    split
    · exact h
    · exact ih (hs.trans (m.kept_mono (.refl held) h))

/-- Either sweep may come to its end before the other one does. -/
theorem sweep_mono (hh : held.LE held') (rounds : Nat) (h : s.LE t) :
    (m.sweep held rounds s).LE (m.sweep held' rounds t) := by
  induction rounds generalizing s t with
  | zero => exact h
  | succ rounds ih =>
    have hk := m.kept_mono hh h
    rw [sweep, sweep]
    by_cases hs : m.kept held s = s
    · rw [if_pos hs]
      have owned : s.LE (m.kept held' s) := by
        have more := m.kept_mono hh (.refl s)
        rwa [hs] at more
      have above := m.le_sweep owned (rounds + 1) h
      rwa [sweep] at above
    · rw [if_neg hs]
      split
      · next ht => exact (m.sweep_le rounds _).trans (ht ▸ hk)
      · exact ih hk

/-- What is alive stays alive when more is held. -/
theorem isAlive_mono (hh : held.LE held') {e : FrameId} (h : m.isAlive held e = true) : m.isAlive held' e = true := by
  unfold isAlive at h ⊢
  rw [Bool.or_eq_true] at h ⊢
  rcases h with h | h
  · obtain ⟨f, hf, he⟩ := List.any_eq_true.1 h
    exact .inl (List.any_eq_true.2 ⟨f, hh.frames hf, he⟩)
  · exact .inr ((m.sweep_mono hh _ (.refl _)).frames.has h)

end Machine

end MiniLisp
