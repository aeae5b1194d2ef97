import Mathlib
import MiniLisp.Proofs.Blame
import MiniLisp.Proofs.Ownership
import MiniLisp.Proofs.Prints

/-!
# What makes a circle of atoms

Prints end as long as no atom is met in what it holds itself. An evaluation changes atoms by the builtins `atom` and
`reset!` only, and `swap!` puts its value into an atom by an evaluation of `reset!`. A new atom is met in nothing that
was there before it. So there is a circle only once `reset!` is called with a value in which the very atom is met.

* `Call.builtin_closes_circle`: of the builtins, only `reset!` makes a circle, and with such a value only.
* `Start.ClosesCircle`: a call of that kind in the course of an evaluation.
* `prints_end_unless_circular`: prints end unless such a call takes place.
-/

namespace MiniLisp

open Refers (Within)

/-! ## Builtins -/

/-- All ordinary builtins but `atom` and `reset!` leave the atoms alone. -/
theorem Builtin.keepsAtoms {b : Builtin} (ha : b ≠ .atom) (hr : b ≠ .reset) (ctx : Context) (args : List Value) :
    (b.run ctx args).KeepsAtoms := by
  have joined (mode : Mode) (between : String) : (Run.joined mode between args).KeepsAtoms := .gets? _
  have text (s : String) : (Run.pure (.text s) : Run Value).KeepsAtoms := .ofExcept (.ok _)
  have printed (mode : Mode) : (Builtin.printLine mode args).KeepsAtoms := by
    refine (joined mode " ").bind fun line m r hr => ?_
    cases hr
    rfl
  unfold Builtin.run
  split
  -- most builtins look at their arguments only
  any_goals exact .ofExcept _
  · exact (joined _ _).bind text
  · exact (joined _ _).bind text
  · exact printed _
  · exact printed _
  · refine (Run.KeepsAtoms.ofExcept _).bind fun path => (Run.KeepsAtoms.record _ _ _).bind fun _ => ?_
    split
    · exact .ofExcept (.ok _)
    · exact .ofExcept (.error _)
  · exact absurd rfl ha
  · refine (Run.KeepsAtoms.ofExcept _).bind fun a m r hr => ?_
    cases hr
    rfl
  · exact absurd rfl hr

section

variable {ctx : Context} {args : List Value} {m : Machine} {r : Except EvalError Value × Machine}

theorem Builtin.atom_eq_some (h : Builtin.atom.run ctx args m = some r) :
    r.2 = m ∨ ∃ v, args = [v] ∧ r.2 = (m.addAtom v).2 := by
  match args with
  | [v] =>
    cases h
    exact .inr ⟨v, rfl, rfl⟩
  | [] | _ :: _ :: _ =>
    cases h
    exact .inl rfl

theorem Builtin.reset_eq_some (h : Builtin.reset.run ctx args m = some r) :
    r.2 = m ∨ ∃ a v, args = [.atom a, v] ∧ r.2 = m.setAtom a v := by
  match args with
  | [cell, v] =>
    cases cell with
    | atom a =>
      cases h
      exact .inr ⟨a, v, rfl, rfl⟩
    | _ =>
      cases h
      exact .inl rfl
  | [] | [_] | _ :: _ :: _ :: _ =>
    cases h
    exact .inl rfl

end

/-- Beside the work of a builtin there are checks and records only. -/
theorem Call.builtin_atoms {ctx : Context} {b : Builtin} {args : List Value} {m : Machine}
    {r : Except EvalError Value × Machine} (h : Call.builtin ctx b args m = some r) :
    r.2.atoms = m.atoms ∨ ∃ n s, n.atoms = m.atoms ∧ b.run ctx args n = some s ∧ r.2.atoms = s.2.atoms := by
  rcases Run.bind_eq_some h with ⟨fault, n, hc, rfl⟩ | ⟨_, m₁, hc, h⟩
  · exact .inl (Run.KeepsAtoms.checkCount _ _ _ _ _ hc)
  have same₁ : m₁.atoms = m.atoms := Run.KeepsAtoms.checkCount _ _ _ _ _ hc
  rcases Run.bind_eq_some h with ⟨fault, n, hv, rfl⟩ | ⟨_, m₂, hv, h⟩
  · exact .inl ((Run.KeepsAtoms.record _ _ _ _ _ hv).trans same₁)
  have same₂ : m₂.atoms = m.atoms := (Run.KeepsAtoms.record _ _ _ _ _ hv).trans same₁
  refine .inr ⟨m₂, ?_⟩
  rcases Run.observe_eq_some h with ⟨fault, k, hs, h⟩ | ⟨a, k, hs, h⟩
  · exact ⟨_, same₂, hs, ((Run.KeepsAtoms.record _ _ _).bind fun _ => .ofExcept (.error fault)) _ _ h⟩
  · exact ⟨_, same₂, hs, ((Run.KeepsAtoms.record _ _ _).bind fun _ => .ofExcept (.ok a)) _ _ h⟩

variable {m : Machine} {b : Builtin} {args : List Value}

/-- Of the builtins, only `reset!` makes a circle, and only with a value in which the atom is met. -/
theorem Call.builtin_closes_circle (hc : m.Closed) (hargs : Within m.known args) {ctx : Context}
    {r : Except EvalError Value × Machine} (h : Call.builtin ctx b args m = some r) (hm : m.Acyclic)
    (hn : ¬r.2.Acyclic) : ∃ a v, b = .reset ∧ args = [.atom a, v] ∧ m.Meets v a := by
  rcases Call.builtin_atoms h with same | ⟨n, s, hn₁, hs, same⟩
  · exact absurd (hm.of_atoms_eq same) hn
  have circle : ¬s.2.Acyclic := fun acyclic => hn (acyclic.of_atoms_eq same)
  have acyclic : n.Acyclic := hm.of_atoms_eq hn₁
  by_cases ha : b = .atom
  · subst ha
    rcases Builtin.atom_eq_some hs with kept | ⟨v, rfl, added⟩
    · exact absurd (acyclic.of_atoms_eq (congrArg Machine.atoms kept)) circle
    · refine absurd ((hc.acyclic_addAtom hargs.head hm).of_atoms_eq ?_) circle
      rw [added, Machine.addAtom, Machine.addAtom, hn₁]
  by_cases hr : b = .reset
  · subst hr
    rcases Builtin.reset_eq_some hs with kept | ⟨a, v, rfl, put⟩
    · exact absurd (acyclic.of_atoms_eq (congrArg Machine.atoms kept)) circle
    · refine ⟨a, v, rfl, rfl, hm.meets_of_setAtom fun acyclic => circle (acyclic.of_atoms_eq ?_)⟩
      rw [put, Machine.setAtom, Machine.setAtom, hn₁]
  · exact absurd (acyclic.of_atoms_eq (Builtin.keepsAtoms ha hr ctx args n s hs)) circle

/-! ## Evaluations -/

namespace Start

/-- In the course of an evaluation, `reset!` is called with a value in which the very atom is met. -/
def ClosesCircle (p : Start) : Prop :=
  ∃ q, p.Inside q ∧ ∃ ctx a v m, Calls q.ctx q.e q.form q.machine ctx (.builtin .reset) [.atom a, v] m ∧ m.Meets v a

/-- All evaluations in the course of one start without a circle, and if it ends, there is none then. -/
def StaysAcyclic (p : Start) : Prop :=
  (∀ q, p.Inside q → q.machine.Acyclic) ∧ ∀ r, p.run evaluate = some r → r.2.Acyclic

end Start

theorem Grounded.inside {base : List FrameId} {p q : Start} (h : Grounded base p.ctx p.e p.form p.machine)
    (hq : p.Inside q) : ∃ base', Grounded base' q.ctx q.e q.form q.machine := by
  induction hq with
  | self => exact ⟨base, h⟩
  | nested _ ha ih =>
    obtain ⟨base', hq⟩ := ih
    exact ⟨_, hq.nested ha⟩
  | again _ hr ih =>
    obtain ⟨base', hq⟩ := ih
    exact ⟨_, hq.again hr⟩

/-- Where something makes an end of there being no circle, `reset!` closes one. -/
theorem Start.closesCircle_of_breaks {base : List FrameId} {p : Start} (h : Grounded base p.ctx p.e p.form p.machine)
    (hb : p.Breaks Machine.Acyclic) : p.ClosesCircle := by
  obtain ⟨q, hq, ctx, b, args, m, r, calls, hr, hm, hn⟩ := hb
  obtain ⟨base', here⟩ := h.inside hq
  obtain ⟨closed, -, -, arguments⟩ := here.calls calls
  obtain ⟨a, v, rfl, rfl, met⟩ := Call.builtin_closes_circle closed arguments hr hm hn
  exact ⟨q, hq, ctx, a, v, m, calls, met⟩

theorem Start.staysAcyclic_or_closesCircle {base : List FrameId} {p : Start}
    (h : Grounded base p.ctx p.e p.form p.machine) (hm : p.machine.Acyclic) : p.StaysAcyclic ∨ p.ClosesCircle := by
  have ofAtoms : OfAtoms Machine.Acyclic := fun same acyclic => acyclic.of_atoms_eq same
  by_cases hb : p.Breaks Machine.Acyclic
  · exact .inr (closesCircle_of_breaks h hb)
  · refine .inl ⟨fun q hq => ?_, fun r hr => ?_⟩
    · by_contra hn
      exact hb (breaks_of_inside ofAtoms hq hm hn)
    · by_contra hn
      exact hb (breaks_of_evaluate ofAtoms hr hm hn)

/-- **Prints end unless an atom contains itself, and only a store makes one do so.** All prints end, in either mode, as
long as no atom is met in what it holds, and no longer; and where no reference is astray, the text of a value is its
print. An evaluation that sets out so stays so to its end, and at every evaluation in the course of it, however long it
goes on, unless `reset!` is called on the way with an atom and a value in which that atom is met. This goes for all
evaluations in all sessions, of `swap!` too, which puts its value into the atom by an evaluation inside. -/
theorem prints_end_unless_circular :
    (∀ m : Machine, m.Acyclic ↔ ∀ (mode : Mode) (v : Value), (m.print mode v).isSome = true) ∧
    (∀ m : Machine, m.Closed → ∀ (mode : Mode) (v : Value), Within m.known v →
      m.text? mode v = (m.print mode v).map String.ofList) ∧
    (∀ (base : List FrameId) (p : Start), Grounded base p.ctx p.e p.form p.machine → p.machine.Acyclic →
      p.StaysAcyclic ∨ p.ClosesCircle) ∧
    ∀ s : Session, s.Reachable → ∀ (recorded : Option Level) (waiting : List FrameId) (ctx : Context) (e : FrameId)
      (form : Value) (m : Machine), s.Running recorded waiting ctx e form m →
      Grounded (waiting ++ s.kept) ctx e form m :=
  ⟨fun _ => Machine.acyclic_iff, fun _ closed mode _ hv => closed.text?_eq_print hv mode,
    fun _ _ grounded acyclic => Start.staysAcyclic_or_closesCircle grounded acyclic,
    fun _ reachable _ _ _ _ _ _ running => running.grounded reachable⟩

/-- A root with an atom in another one, which is in a vector, and with `reset!`. -/
def cellInCell : Machine :=
  (((Machine.empty.addAtom (.int 1)).2.addAtom (.vector [.atom 0])).2.addFrame
    [("reset!", .builtin .reset), ("inner", .atom 0), ("outer", .atom 1)] none).2

theorem cellInCell_closed_acyclic : cellInCell.Closed ∧ cellInCell.Acyclic := by
  have one := Machine.closed_empty.addAtom (v := .int 1) (.of_nil rfl)
  have first := Machine.closed_empty.acyclic_addAtom (v := .int 1) (.of_nil rfl) fun _ => Machine.not_meets_nil
  have there : Within (Machine.empty.addAtom (.int 1)).2.known (Value.vector [.atom 0]) := by
    intro x hx
    cases List.mem_singleton.1 hx
    exact Nat.zero_lt_one
  have two := one.addAtom there
  refine ⟨two.addFrame (fun x hx => ?_) nofun, (one.acyclic_addAtom there first).of_atoms_eq rfl⟩
  rcases List.mem_cons.1 hx with rfl | hx
  · exact Nat.zero_lt_two
  · cases List.mem_singleton.1 hx
    exact Nat.one_lt_two

/-- The outer atom put into the inner one. -/
def closingForm : Value := .list [.symbol "reset!", .symbol "inner", .symbol "outer"]

/-- The outer atom has a text, and to put it into the inner one closes a circle. -/
theorem prints_end_unless_circular_closing :
    (cellInCell.print .readable (.atom 1)).isSome = true ∧
      cellInCell.text? .readable (.atom 1) = some "(atom [(atom 1)])" ∧
      Start.ClosesCircle ⟨⟨fun _ => .ok "", none, .none⟩, 0, closingForm, cellInCell⟩ := by
  obtain ⟨ends, -, evaluations, -⟩ := prints_end_unless_circular
  obtain ⟨closed, acyclic⟩ := cellInCell_closed_acyclic
  refine ⟨(ends _).1 acyclic _ _, rfl, ?_⟩
  have grounded : Grounded [] ⟨fun _ => .ok "", none, .none⟩ 0 closingForm cellInCell :=
    ⟨closed, ⟨List.nil_subset _, nofun, nofun⟩, Nat.zero_lt_one, .of_nil rfl⟩
  have stored : evaluate ⟨fun _ => .ok "", none, .none⟩ 0 closingForm cellInCell =
      some (.ok (.atom 1), cellInCell.setAtom 0 (.atom 1)) := evaluate_of_evalWithin 2 _ _ _ _ _ rfl
  refine (evaluations [] ⟨_, 0, closingForm, cellInCell⟩ grounded acyclic).resolve_left fun stays => ?_
  have apart : ¬cellInCell.Meets (.atom 1) 0 := (acyclic.setAtom_iff Nat.zero_lt_two).1 (stays.2 _ stored)
  exact apart (.inside List.mem_cons_self (.here List.mem_cons_self))

end MiniLisp
