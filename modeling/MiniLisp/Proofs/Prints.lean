import Mathlib
import MiniLisp.Proofs.Closed
import MiniLisp.Proofs.Contents

/-!
# Prints that end

The print of a value goes into every atom that is met in it. It ends unless an atom is met in what it holds itself,
directly or through others. To look for it as deep as there are atoms is enough.

* `Machine.Meets`: the atoms that are met on the way.
* `Machine.print_isSome_iff_not_meets`: a print ends unless an atom that is met in it is met in what it holds.
* `Machine.acyclic_iff`: where no atom is met in what it holds, all prints end, and nowhere else.
* `Machine.Closed.text?_eq_print`: the bounded search finds every print that ends.
* `Machine.Closed.acyclic_addAtom`, `Machine.Acyclic.setAtom_iff`: a new atom makes no circle, and a value that is put
  into an atom makes one exactly if the atom is met in it.
-/

namespace MiniLisp

open Refers (refs Within)

/-! ## Atoms in values -/

namespace Value

mutual

/-- The atoms that are met in a value, through the elements of sequences and the values of maps. -/
def cells : Value → List AtomId
  | list xs | vector xs => cellsItems xs
  | map es => cellsEntries es
  | atom a => [a]
  | _ => []

def cellsItems : List Value → List AtomId
  | [] => []
  | x :: xs => x.cells ++ cellsItems xs

def cellsEntries : List (Key × Value) → List AtomId
  | [] => []
  | (_, x) :: es => x.cells ++ cellsEntries es

end

section

variable {contents : AtomId → Option (List Char)} {mode : Mode}

mutual

/-- A value has a text if the atoms in it have texts, and not otherwise. -/
theorem render_isSome_iff : ∀ {v : Value},
    (v.render mode contents).isSome = true ↔ ∀ a ∈ v.cells, (contents a).isSome = true
  | list xs | vector xs => by
    rw [render, Option.isSome_map, cells]
    exact renderItems_isSome_iff
  | map es => by
    rw [render, Option.isSome_map, cells]
    exact renderEntries_isSome_iff
  | atom a => by simp [render, cells]
  | nil | bool _ | int _ | float _ | text _ | symbol _ | keyword _ | builtin _ | rooted _ _ | closure _ _ _ _ _ =>
    ⟨fun _ _ ha => (nomatch ha), fun _ => rfl⟩

theorem renderItems_isSome_iff : ∀ {xs : List Value},
    (renderItems mode contents xs).isSome = true ↔ ∀ a ∈ cellsItems xs, (contents a).isSome = true
  | [] => ⟨fun _ _ ha => (nomatch ha), fun _ => rfl⟩
  | x :: xs => by
    rw [cellsItems, List.forall_mem_append, ← render_isSome_iff, ← renderItems_isSome_iff, renderItems]
    cases render mode contents x <;> cases renderItems mode contents xs <;> simp

theorem renderEntries_isSome_iff : ∀ {es : List (Key × Value)},
    (renderEntries mode contents es).isSome = true ↔ ∀ a ∈ cellsEntries es, (contents a).isSome = true
  | [] => ⟨fun _ _ ha => (nomatch ha), fun _ => rfl⟩
  | (k, x) :: es => by
    rw [cellsEntries, List.forall_mem_append, ← render_isSome_iff, ← renderEntries_isSome_iff, renderEntries]
    cases render mode contents x <;> cases renderEntries mode contents es <;> simp

end

end

mutual

/-- The atoms in a value are among what it refers to. -/
theorem mem_refs_of_mem_cells {a : AtomId} : ∀ {v : Value}, a ∈ v.cells → ⟨.atom, a⟩ ∈ v.refs
  | list _, h | vector _, h => mem_refsItems_of_mem_cells h
  | map _, h => mem_refsEntries_of_mem_cells h
  | atom b, h => by
    rw [List.mem_singleton.1 h]
    exact List.mem_cons_self

theorem mem_refsItems_of_mem_cells {a : AtomId} : ∀ {xs : List Value}, a ∈ cellsItems xs → ⟨.atom, a⟩ ∈ refsItems xs
  | _ :: _, h => (List.mem_append.1 h).elim
    (fun h => List.mem_append_left _ (mem_refs_of_mem_cells h))
    fun h => List.mem_append_right _ (mem_refsItems_of_mem_cells h)

theorem mem_refsEntries_of_mem_cells {a : AtomId} : ∀ {es : List (Key × Value)},
    a ∈ cellsEntries es → ⟨.atom, a⟩ ∈ refsEntries es
  | (_, _) :: _, h => (List.mem_append.1 h).elim
    (fun h => List.mem_append_left _ (mem_refs_of_mem_cells h))
    fun h => List.mem_append_right _ (mem_refsEntries_of_mem_cells h)

end

end Value

namespace Machine

variable {m : Machine} {mode : Mode} {v w : Value} {a b : AtomId}

/-! ## Atoms met on the way -/

/-- The atoms that the print of a value comes to, through elements and through what atoms hold. -/
inductive Meets (m : Machine) : Value → AtomId → Prop
  | here {v : Value} {a : AtomId} (h : a ∈ v.cells) : Meets m v a
  | inside {v : Value} {a b : AtomId} (hb : b ∈ v.cells) (h : Meets m (m.atomValue b) a) : Meets m v a

/-- No atom is met in what it holds. -/
def Acyclic (m : Machine) : Prop := ∀ a, ¬m.Meets (m.atomValue a) a

theorem Meets.trans (h : m.Meets v b) (h' : m.Meets (m.atomValue b) a) : m.Meets v a := by
  induction h with
  | here hb => exact .inside hb h'
  | inside hc _ ih => exact .inside hc (ih h')

/-! ## Prints -/

theorem print_isSome_iff :
    (m.print mode v).isSome = true ↔ ∀ a ∈ v.cells, (m.print mode (m.atomValue a)).isSome = true := by
  rw [print_eq, Value.render_isSome_iff]

/-- A print depends on what the atoms hold, and on nothing else of the machine. -/
theorem print_of_atoms_eq {n : Machine} (h : n.atoms = m.atoms) (mode : Mode) (v : Value) :
    n.print mode v = m.print mode v := by
  have le {m n : Machine} (h : n.atoms = m.atoms) {t : List Char} (ht : n.print mode v = some t) :
      m.print mode v = some t := by
    refine print.partial_correctness n mode (fun v t => m.print mode v = some t) (fun print ih v t ht => ?_) v t ht
    rw [print_eq]
    refine Value.render_mono (fun a s hs => ?_) ht
    rw [atomValue, ← h]
    exact ih _ s hs
  exact Option.ext fun t => ⟨le h, le h.symm⟩

/-! ### Prints without an end -/

/-- In a value whose print ends, no atom is met that is met in what it holds. -/
theorem not_meets_of_print {t : List Char} (h : m.print mode v = some t) (ha : m.Meets (m.atomValue a) a) :
    ¬m.Meets v a := by
  refine print.partial_correctness m mode (fun v _ => ¬m.Meets v a) (fun print ih v t ht hm => ?_) v t h
  -- what the atoms in the value hold has a print as well
  have inner : ∀ b ∈ v.cells, ¬m.Meets (m.atomValue b) a := by
    intro b hb
    obtain ⟨s, hs⟩ := Option.isSome_iff_exists.1 (Value.render_isSome_iff.1 (Option.isSome_of_eq_some ht) b hb)
    exact ih _ s hs
  cases hm with
  | here hv => exact inner a hv ha
  | inside hb hm => exact inner _ hb hm

/-! ### Prints that end -/

/-- Where there is no atom, nothing is held. -/
theorem atomValue_of_size_le (h : m.atoms.size ≤ a) : m.atomValue a = .nil := by
  rw [atomValue, Array.getD_eq_getD_getElem?, Array.getElem?_eq_none h]
  rfl

theorem not_meets_nil : ¬m.Meets .nil a := by
  rintro (ha | ⟨hb, -⟩)
  · cases ha
  · cases hb

theorem print_isSome_of_size_le (h : m.atoms.size ≤ a) (mode : Mode) :
    (m.print mode (m.atomValue a)).isSome = true := by
  rw [atomValue_of_size_le h, print_eq]
  rfl

/-- To go from atoms in a value to atoms in what they hold comes to an end if it never comes back to an atom. -/
theorem wellFounded_meets (h : ∀ a, m.Meets v a → ¬m.Meets (m.atomValue a) a) :
    WellFounded fun a b : {a : Fin m.atoms.size // m.Meets v a} => m.Meets (m.atomValue b.1) a.1 := by
  let below := fun a b : {a : Fin m.atoms.size // m.Meets v a} => m.Meets (m.atomValue b.1) a.1
  have irrefl : Std.Irrefl below := ⟨fun a => h a.1 a.2⟩
  have trans : IsTrans _ below := ⟨fun _ _ _ ha hb => hb.trans ha⟩
  exact Finite.wellFounded_of_trans_of_irrefl below

/-- **A print ends** if no atom that is met in it is met in what that atom holds, and not otherwise. -/
theorem print_isSome_iff_not_meets :
    (m.print mode v).isSome = true ↔ ∀ a, m.Meets v a → ¬m.Meets (m.atomValue a) a := by
  refine ⟨fun h a met inner => ?_, fun h => ?_⟩
  · obtain ⟨t, ht⟩ := Option.isSome_iff_exists.1 h
    exact not_meets_of_print ht inner met
  · have atoms : ∀ a : {a : Fin m.atoms.size // m.Meets v a}, (m.print mode (m.atomValue a.1)).isSome = true := by
      intro a
      induction a using (wellFounded_meets h).induction with
      | _ a ih =>
        refine print_isSome_iff.2 fun b hb => ?_
        rcases Nat.lt_or_ge b m.atoms.size with there | away
        · exact ih ⟨⟨b, there⟩, a.2.trans (.here hb)⟩ (.here hb)
        · exact print_isSome_of_size_le away mode
    refine print_isSome_iff.2 fun b hb => ?_
    rcases Nat.lt_or_ge b m.atoms.size with there | away
    · exact atoms ⟨⟨b, there⟩, .here hb⟩
    · exact print_isSome_of_size_le away mode

/-- All prints end where no atom is met in what it holds, and nowhere else. -/
theorem acyclic_iff : m.Acyclic ↔ ∀ (mode : Mode) (v : Value), (m.print mode v).isSome = true :=
  ⟨fun h _ _ => print_isSome_iff_not_meets.2 fun a _ => h a,
    fun h a => print_isSome_iff_not_meets.1 (h .readable (.atom a)) a (.here List.mem_cons_self)⟩

/-! ### The bounded search -/

theorem print_of_contentsWithin {d : Nat} {t : List Char} (h : m.contentsWithin mode d a = some t) :
    m.print mode (m.atomValue a) = some t := by
  induction d generalizing a t with
  | zero => cases h
  | succ d ih =>
    rw [print_eq]
    exact Value.render_mono (fun b t hb => ih hb) h

/-- Atoms that have texts at some depth each have texts at one depth all. -/
theorem exists_depth {as : List AtomId} (h : ∀ a ∈ as, ∃ d, (m.contentsWithin mode d a).isSome = true) :
    ∃ d, ∀ a ∈ as, (m.contentsWithin mode d a).isSome = true := by
  induction as with
  | nil => exact ⟨0, fun _ ha => nomatch ha⟩
  | cons a as ih =>
    obtain ⟨⟨d, hd⟩, others⟩ := List.forall_mem_cons.1 h
    obtain ⟨d', hd'⟩ := ih others
    have deeper {k : Nat} {b : AtomId} (hk : k ≤ max d d') (hb : (m.contentsWithin mode k b).isSome = true) :
        (m.contentsWithin mode (max d d') b).isSome = true := by
      obtain ⟨t, ht⟩ := Option.isSome_iff_exists.1 hb
      rw [contentsWithin_mono hk ht]
      rfl
    exact ⟨max d d', List.forall_mem_cons.2
      ⟨deeper (Nat.le_max_left _ _) hd, fun b hb => deeper (Nat.le_max_right _ _) (hd' b hb)⟩⟩

/-- A print that ends goes no deeper than some depth. -/
theorem exists_depth_of_print {t : List Char} (h : m.print mode v = some t) :
    ∃ d, (v.render mode (m.contentsWithin mode d)).isSome = true := by
  refine print.partial_correctness m mode (fun v _ => ∃ d, (v.render mode (m.contentsWithin mode d)).isSome = true)
    (fun print ih v t ht => ?_) v t h
  obtain ⟨d, hd⟩ : ∃ d, ∀ b ∈ v.cells, (m.contentsWithin mode d b).isSome = true := by
    refine exists_depth fun b hb => ?_
    obtain ⟨s, hs⟩ := Option.isSome_iff_exists.1 (Value.render_isSome_iff.1 (Option.isSome_of_eq_some ht) b hb)
    obtain ⟨d, hd⟩ := ih _ s hs
    exact ⟨d + 1, hd⟩
  exact ⟨d, Value.render_isSome_iff.2 hd⟩

theorem Closed.holdsAtoms (h : m.Closed) : m.HoldsAtoms {a | ⟨.atom, a⟩ ∈ m.known} where
  bound ha := ha
  inner {a} _ _ hb := h.atomValue a _ hb

/-- What an atom holds is printed in full no deeper than there are atoms. -/
theorem Closed.contents_eq_print (h : m.Closed) (ha : ⟨.atom, a⟩ ∈ m.known) :
    m.contents mode a = m.print mode (m.atomValue a) := by
  cases hp : m.print mode (m.atomValue a) with
  | some t =>
    obtain ⟨d, hd⟩ := exists_depth_of_print hp
    obtain ⟨s, hs⟩ : ∃ s, m.contentsWithin mode (d + 1) a = some s := Option.isSome_iff_exists.1 hd
    have deep := contentsWithin_mono (Nat.le_max_left (d + 1) m.atoms.size) hs
    rw [contentsWithin_stable h.holdsAtoms ha (Nat.le_max_right _ _)] at deep
    exact deep.trans ((print_of_contentsWithin hs).symm.trans hp)
  | none =>
    cases hc : m.contents mode a with
    | none => rfl
    | some t => cases hp.symm.trans (print_of_contentsWithin hc)

/-- The text of a value is its print. -/
theorem Closed.text?_eq_print (h : m.Closed) (hv : Within m.known v) (mode : Mode) :
    m.text? mode v = (m.print mode v).map String.ofList := by
  have same : v.render mode (m.contents mode) = m.print mode v := by
    rw [print_eq]
    exact Value.render_congr fun a ha => h.contents_eq_print (hv _ ha)
  rw [text?, same]

/-! ## What makes a circle -/

theorem meets_of_atoms_eq {n : Machine} (h : n.atoms = m.atoms) (hm : n.Meets v a) : m.Meets v a := by
  induction hm with
  | here hv => exact .here hv
  | inside hb _ ih =>
    rw [atomValue, h] at ih
    exact .inside hb ih

theorem Acyclic.of_atoms_eq {n : Machine} (hm : m.Acyclic) (h : n.atoms = m.atoms) : n.Acyclic := by
  intro a ha
  have met := meets_of_atoms_eq h ha
  rw [atomValue, h] at met
  exact hm a met

theorem atomValue_addAtom (h : a < m.atoms.size) : (m.addAtom v).2.atomValue a = m.atomValue a := by
  rw [atomValue, atomValue, Array.getD_eq_getD_getElem?, Array.getD_eq_getD_getElem?, addAtom, Array.getElem?_push,
    if_neg (Nat.ne_of_lt h)]

theorem atomValue_addAtom_self : (m.addAtom v).2.atomValue m.atoms.size = v := by
  rw [atomValue, Array.getD_eq_getD_getElem?, addAtom, Array.getElem?_push_size]
  rfl

theorem atomValue_setAtom_of_ne (h : b ≠ a) : (m.setAtom a v).atomValue b = m.atomValue b := by
  rw [atomValue, atomValue, Array.getD_eq_getD_getElem?, Array.getD_eq_getD_getElem?, setAtom,
    Array.getElem?_setIfInBounds_ne h.symm]

theorem atomValue_setAtom_self (h : a < m.atoms.size) : (m.setAtom a v).atomValue a = v := by
  rw [atomValue, Array.getD_eq_getD_getElem?, setAtom, Array.getElem?_setIfInBounds_self_of_lt h]
  rfl

/-! ### A new atom -/

/-- What was there before a new atom does not meet it. -/
theorem Closed.meets_addAtom (h : m.Closed) (hw : Within m.known w) (hm : (m.addAtom v).2.Meets w a) :
    m.Meets w a ∧ a < m.atoms.size := by
  induction hm with
  | here ha => exact ⟨.here ha, hw _ (Value.mem_refs_of_mem_cells ha)⟩
  | @inside w a b hb _ ih =>
    have there : b < m.atoms.size := hw _ (Value.mem_refs_of_mem_cells hb)
    rw [atomValue_addAtom there] at ih
    obtain ⟨met, bound⟩ := ih (h.atomValue b)
    exact ⟨.inside hb met, bound⟩

/-- A new atom makes no circle: nothing that was there before has it inside. -/
theorem Closed.acyclic_addAtom (h : m.Closed) (hv : Within m.known v) (hm : m.Acyclic) :
    (m.addAtom v).2.Acyclic := by
  intro a ha
  rcases Nat.lt_trichotomy a m.atoms.size with there | rfl | beyond
  · rw [atomValue_addAtom there] at ha
    exact hm a (h.meets_addAtom (h.atomValue a) ha).1
  · rw [atomValue_addAtom_self] at ha
    exact Nat.lt_irrefl _ (h.meets_addAtom hv ha).2
  · rw [atomValue_of_size_le (by rw [Machine.addAtom, Array.size_push]; exact beyond)] at ha
    exact not_meets_nil ha

/-! ### A new value of an atom -/

/-- What is met in what an atom holds, after a value is put into an atom. -/
theorem meets_atomValue_setAtom {c : AtomId} (hm : m.Meets ((m.setAtom a v).atomValue b) c) :
    m.Meets (m.atomValue b) c ∨ b = a ∧ m.Meets v c := by
  rcases eq_or_ne b a with rfl | other
  · by_cases there : b < m.atoms.size
    · rw [atomValue_setAtom_self there] at hm
      exact .inr ⟨rfl, hm⟩
    -- nothing is put into an atom that is not there
    · rw [atomValue_of_size_le (by simpa [setAtom] using there)] at hm
      exact absurd hm not_meets_nil
  · rw [atomValue_setAtom_of_ne other] at hm
    exact .inl hm

/-- What is met after a value is put into an atom was met before, or in the value where the atom was met. -/
theorem meets_of_setAtom (hm : (m.setAtom a v).Meets w b) : m.Meets w b ∨ m.Meets w a ∧ m.Meets v b := by
  induction hm with
  | here hb => exact .inl (.here hb)
  | inside hc _ ih =>
    rcases ih with met | ⟨met, inner⟩
    · rcases meets_atomValue_setAtom met with met | ⟨rfl, inner⟩
      · exact .inl (.inside hc met)
      · exact .inr ⟨.here hc, inner⟩
    · rcases meets_atomValue_setAtom met with met | ⟨rfl, -⟩
      · exact .inr ⟨.inside hc met, inner⟩
      · exact .inr ⟨.here hc, inner⟩

/-- A circle is made only by a value that is put into an atom that is met in it. -/
theorem Acyclic.meets_of_setAtom (h : m.Acyclic) (hn : ¬(m.setAtom a v).Acyclic) : m.Meets v a := by
  obtain ⟨b, hb⟩ := not_forall_not.1 hn
  rcases Machine.meets_of_setAtom hb with met | ⟨met, inner⟩
  · rcases meets_atomValue_setAtom met with met | ⟨rfl, inner⟩
    · exact absurd met (h b)
    · exact inner
  · rcases meets_atomValue_setAtom met with met | ⟨rfl, -⟩
    · exact inner.trans met
    · exact inner

/-- Up to an atom, the way does not depend on what the atom holds. -/
theorem meets_setAtom (hm : m.Meets w a) : (m.setAtom a v).Meets w a := by
  induction hm with
  | here ha => exact .here ha
  | @inside w a b hb _ ih =>
    rcases eq_or_ne b a with rfl | other
    · exact .here hb
    · exact .inside hb (by rwa [atomValue_setAtom_of_ne other])

/-- A value that is put into an atom makes a circle if the atom is met in it, and not otherwise. -/
theorem Acyclic.setAtom_iff (h : m.Acyclic) (ha : a < m.atoms.size) : (m.setAtom a v).Acyclic ↔ ¬m.Meets v a := by
  refine ⟨fun h' met => h' a ?_, fun h' => ?_⟩
  · rw [atomValue_setAtom_self ha]
    exact meets_setAtom met
  · by_contra hn
    exact h' (h.meets_of_setAtom hn)

end Machine

end MiniLisp
