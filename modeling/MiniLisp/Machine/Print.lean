import MiniLisp.Machine.Basic

/-!
# Prints

The print of a value goes into the atoms in it, and into what these hold, as deep as they nest. Where an atom holds
itself it has no end; it is the least function that its equation allows, which makes sense because a value that has a
text keeps it where more atoms have texts (`Value.render_mono`).

* `Machine.print`: the print of a value.
* `Machine.depth?`, `Machine.isOrdered?`: how deep a value nests, and whether its print depends on an order of entries.
-/

namespace MiniLisp

namespace Value

variable {contents contents' : AtomId → Option (List Char)} {mode : Mode}

mutual

/-- A value that has a text keeps it where more atoms have texts. -/
theorem render_mono (h : ∀ a t, contents a = some t → contents' a = some t) : ∀ {v : Value} {t : List Char},
    v.render mode contents = some t → v.render mode contents' = some t
  | list xs, _, ht | vector xs, _, ht => by
    obtain ⟨ts, hts, rfl⟩ := Option.map_eq_some_iff.1 ht
    rw [render, renderItems_mono h hts]
    rfl
  | map es, _, ht => by
    obtain ⟨ts, hts, rfl⟩ := Option.map_eq_some_iff.1 ht
    rw [render, renderEntries_mono h hts]
    rfl
  | atom a, _, ht => by
    obtain ⟨t, hta, rfl⟩ := Option.map_eq_some_iff.1 ht
    rw [render, h a t hta]
    rfl
  | rooted _ _, _, ht | closure _ _ _ _ _, _, ht | nil, _, ht | bool _, _, ht | int _, _, ht | float _, _, ht
  | text _, _, ht | symbol _, _, ht | keyword _, _, ht | builtin _, _, ht => ht

theorem renderItems_mono (h : ∀ a t, contents a = some t → contents' a = some t) :
    ∀ {xs : List Value} {ts : List (List Char)}, renderItems mode contents xs = some ts →
      renderItems mode contents' xs = some ts
  | [], _, hts => hts
  | x :: xs, ts, hts => by
    unfold renderItems at hts ⊢
    split at hts
    · next t ts ht hts' =>
      rw [render_mono h ht, renderItems_mono h hts']
      exact hts
    · cases hts

theorem renderEntries_mono (h : ∀ a t, contents a = some t → contents' a = some t) :
    ∀ {es : List (Key × Value)} {ts : List (List Char)}, renderEntries mode contents es = some ts →
      renderEntries mode contents' es = some ts
  | [], _, hts => hts
  | (k, x) :: es, ts, hts => by
    unfold renderEntries at hts ⊢
    split at hts
    · next t ts ht hts' =>
      rw [render_mono h ht, renderEntries_mono h hts']
      exact hts
    · cases hts

end

end Value

namespace Machine

/-- The print of a value, with no bound on how deep atoms nest; `none` if it has no end. -/
def print (m : Machine) (mode : Mode) (v : Value) : Option (List Char) :=
  v.render mode fun a => (by apply print : Machine → Mode → Value → Option (List Char)) m mode (m.atomValue a)
partial_fixpoint monotonicity fun f g h v => by
  have le : ∀ a t, f (m.atomValue a) = some t → g (m.atomValue a) = some t := by
    intro a t ht
    have below := h (m.atomValue a)
    generalize f (m.atomValue a) = x at below ht
    cases below with
    | bot => cases ht
    | refl => exact ht
  cases hx : v.render mode fun a => f (m.atomValue a) with
  | none => simpa only [hx] using .bot
  | some t =>
    have same := Value.render_mono le hx
    simpa only [hx, same] using .refl

/-- One step of printing: an atom among the parts is printed as its value. -/
theorem print_eq (m : Machine) (mode : Mode) (v : Value) :
    m.print mode v = v.render mode fun a => m.print mode (m.atomValue a) := print.eq_1 m mode v

end Machine

/-! ## The shape of values -/

namespace Value

mutual

/-- How deep a value nests, if its atoms nest at all: scalars not at all, an empty sequence once. -/
def depth? (contents : AtomId → Option Nat) : Value → Option Nat
  | list xs | vector xs => (depthItems? contents xs).map (· + 1)
  | map es => (depthEntries? contents es).map (· + 1)
  | closure _ _ body _ _ => (depth? contents body).map (· + 1)
  | atom a => (contents a).map (· + 1)
  | _ => some 0

def depthItems? (contents : AtomId → Option Nat) : List Value → Option Nat
  | [] => some 0
  | x :: xs =>
    match depth? contents x, depthItems? contents xs with
    | some a, some b => some (max a b)
    | _, _ => none

def depthEntries? (contents : AtomId → Option Nat) : List (Key × Value) → Option Nat
  | [] => some 0
  | (_, x) :: es =>
    match depth? contents x, depthEntries? contents es with
    | some a, some b => some (max a b)
    | _, _ => none

end

mutual

/-- Whether no map with more than one entry is printed inside a value. -/
def isOrdered? (contents : AtomId → Option Bool) : Value → Option Bool
  | list xs | vector xs => orderedItems? contents xs
  | map es => (orderedEntries? contents es).map fun b => b && es.length ≤ 1
  | atom a => contents a
  | _ => some true

def orderedItems? (contents : AtomId → Option Bool) : List Value → Option Bool
  | [] => some true
  | x :: xs =>
    match isOrdered? contents x, orderedItems? contents xs with
    | some a, some b => some (a && b)
    | _, _ => none

def orderedEntries? (contents : AtomId → Option Bool) : List (Key × Value) → Option Bool
  | [] => some true
  | (_, x) :: es =>
    match isOrdered? contents x, orderedEntries? contents es with
    | some a, some b => some (a && b)
    | _, _ => none

end

end Value

namespace Machine

def depthWithin (m : Machine) : Nat → AtomId → Option Nat
  | 0, _ => none
  | nesting + 1, a => (m.atomValue a).depth? (depthWithin m nesting)

/-- How deep a value nests, unless an atom in it holds itself. -/
def depth? (m : Machine) (v : Value) : Option Nat := v.depth? (m.depthWithin m.atoms.size)

def orderedWithin (m : Machine) : Nat → AtomId → Option Bool
  | 0, _ => none
  | nesting + 1, a => (m.atomValue a).isOrdered? (orderedWithin m nesting)

/-- Whether the print of a value depends on no order of entries, unless an atom in it holds itself. -/
def isOrdered? (m : Machine) (v : Value) : Option Bool := v.isOrdered? (m.orderedWithin m.atoms.size)

end Machine

end MiniLisp
