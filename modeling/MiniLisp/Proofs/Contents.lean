import Mathlib
import MiniLisp.Machine.Print
import MiniLisp.Proofs.Equivariance

/-!
# How deep atoms nest

The text of what an atom holds is looked for as deep as there are atoms. To look deeper finds nothing more: where the
print of an atom ends at all, the atoms met on a way inwards all differ (`contentsWithin_stable`).
-/

namespace MiniLisp

open Refers (refs)

namespace Value

variable {contents contents' : AtomId → Option (List Char)} {mode : Mode}

/-- The text of a value depends on the texts of the atoms in it only. -/
theorem render_congr {v : Value} (h : ∀ a, ⟨.atom, a⟩ ∈ refs v → contents' a = contents a) :
    v.render mode contents' = v.render mode contents := by
  have same : (rename 1 v).render mode contents' = v.render mode contents := render_rename h
  rwa [rename_one] at same

end Value

namespace Machine

variable {m : Machine} {mode : Mode}

theorem contentsWithin_mono {d d' : Nat} (hd : d ≤ d') {a : AtomId} {t : List Char}
    (h : m.contentsWithin mode d a = some t) : m.contentsWithin mode d' a = some t := by
  induction d generalizing d' a t with
  | zero => cases h
  | succ d ih =>
    obtain ⟨d', rfl⟩ := Nat.exists_eq_add_of_le' (Nat.le_of_add_left_le hd)
    exact Value.render_mono (fun b t hb => ih (Nat.le_of_succ_le_succ hd) hb) h

/-- The text of what an atom holds is found at a depth, and not above it. -/
def NestsAt (m : Machine) (mode : Mode) (d : Nat) (a : AtomId) : Prop :=
  m.contentsWithin mode d a = none ∧ (m.contentsWithin mode (d + 1) a).isSome = true

theorem NestsAt.unique {d d' : Nat} {a : AtomId} (h : m.NestsAt mode d a) (h' : m.NestsAt mode d' a) : d ≤ d' := by
  by_contra hlt
  obtain ⟨t, ht⟩ := Option.isSome_iff_exists.1 h'.2
  have found := contentsWithin_mono (Nat.succ_le_of_lt (Nat.lt_of_not_le hlt)) ht
  rw [h.1] at found
  cases found

/-- Inside an atom with a text at some depth is one with a text one step less deep. -/
theorem NestsAt.inner {d : Nat} {a : AtomId} (h : m.NestsAt mode (d + 1) a) :
    ∃ b, ⟨.atom, b⟩ ∈ refs (m.atomValue a) ∧ m.NestsAt mode d b := by
  by_contra hn
  have same : m.contentsWithin mode (d + 1 + 1) a = m.contentsWithin mode (d + 1) a := by
    refine Value.render_congr fun b hb => ?_
    cases hd : m.contentsWithin mode d b with
    | some t => exact contentsWithin_mono (Nat.le_succ d) hd
    | none =>
      cases hd' : m.contentsWithin mode (d + 1) b with
      | none => rfl
      | some t => exact absurd ⟨b, hb, hd, by rw [hd']; rfl⟩ hn
  have found := h.2
  rw [same, h.1] at found
  cases found

/-- Atoms that all are there. -/
structure HoldsAtoms (m : Machine) (S : Set AtomId) : Prop where
  bound {a : AtomId} (h : a ∈ S) : a < m.atoms.size
  inner {a b : AtomId} (h : a ∈ S) (hb : ⟨.atom, b⟩ ∈ refs (m.atomValue a)) : b ∈ S

theorem NestsAt.lt {S : Set AtomId} (hS : m.HoldsAtoms S) {d : Nat} {a : AtomId} (ha : a ∈ S)
    (h : m.NestsAt mode d a) : d < m.atoms.size := by
  -- there is an atom for every depth up to this one
  have all : ∀ i, i < d + 1 → ∃ b ∈ S, m.NestsAt mode i b := by
    induction d generalizing a with
    | zero =>
      intro i hi
      obtain rfl : i = 0 := by omega
      exact ⟨a, ha, h⟩
    | succ d ih =>
      intro i hi
      rcases Nat.lt_succ_iff_lt_or_eq.1 hi with hi | rfl
      · obtain ⟨b, hb, hin⟩ := h.inner
        exact ih (hS.inner ha hb) hin i hi
      · exact ⟨a, ha, h⟩
  choose! g hg hn using all
  have le := Finset.card_le_card_of_injOn (s := Finset.range (d + 1)) (t := Finset.range m.atoms.size) g
    (fun i hi => Finset.mem_coe.2 (Finset.mem_range.2 (hS.bound (hg i (Finset.mem_range.1 hi)))))
    (fun i hi j hj hij => by
      have hi := hn i (Finset.mem_range.1 hi)
      have hj := hn j (Finset.mem_range.1 hj)
      rw [hij] at hi
      exact Nat.le_antisymm (hi.unique hj) (hj.unique hi))
  simpa using le

/-- Deeper than there are atoms, nothing more is found. -/
theorem contentsWithin_stable {S : Set AtomId} (hS : m.HoldsAtoms S) {a : AtomId} (ha : a ∈ S) {d : Nat}
    (hd : m.atoms.size ≤ d) : m.contentsWithin mode d a = m.contents mode a := by
  unfold contents
  by_cases h : ∃ k, (m.contentsWithin mode k a).isSome = true
  · -- the least depth at which there is a text is no more than the count of atoms
    classical
    obtain ⟨t, ht⟩ := Option.isSome_iff_exists.1 (Nat.find_spec h)
    have least : Nat.find h ≤ m.atoms.size := by
      cases hk : Nat.find h with
      | zero => exact Nat.zero_le _
      | succ k =>
        have nests : m.NestsAt mode k a :=
          ⟨Option.not_isSome_iff_eq_none.1 (Nat.find_min h (by omega)), hk ▸ Nat.find_spec h⟩
        exact nests.lt hS ha
    rw [contentsWithin_mono least ht, contentsWithin_mono (least.trans hd) ht]
  · have none (k : Nat) : m.contentsWithin mode k a = Option.none :=
      Option.not_isSome_iff_eq_none.1 fun hk => h ⟨k, hk⟩
    rw [none, none]

end Machine

end MiniLisp
