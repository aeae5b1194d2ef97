import Mathlib
import MiniLisp.Proofs.Sessions

/-!
# Evaluations inside others

In the course of an evaluation others take place, whether or not it comes to an end: a step asks for the evaluation of
forms inside, and the evaluation goes on in what a step leaves. A run can be broken off where it comes to such an
evaluation, by an evaluator that fails there and is as it was everywhere else.

* `Start.Inside`: the evaluations that take place in the course of another one.
* `Run.Visits`: a run comes to an evaluation, where it may be broken off.
* `Start.asks_of_visits`, `Start.visits_of_asks`: a step asks for the evaluations that it comes to.
-/

namespace MiniLisp

/-! ## Runs that are broken off -/

/-- Where an evaluation sets out. -/
@[ext]
structure Start where
  ctx : Context
  e : FrameId
  form : Value
  machine : Machine

/-- A failure, with the machine that is left behind. -/
abbrev Halt := EvalError × Machine

/-- The outcome of a run that fails so. -/
abbrev Halt.outcome {α : Type} (halt : Halt) : Except EvalError α × Machine := (.error halt.1, halt.2)

/-- Halts can be told apart by the runs that end in them. -/
theorem Halt.outcome_injective {α : Type} :
    Function.Injective (Halt.outcome : Halt → Except EvalError α × Machine) := by
  rintro ⟨fault, m⟩ ⟨fault', m'⟩ h
  cases h
  rfl

/-- There are halts enough to have two besides any given one. -/
theorem exists_halts (halt : Halt) : ∃ halt₁ halt₂ : Halt, halt₁ ≠ halt ∧ halt₂ ≠ halt ∧ halt₁ ≠ halt₂ := by
  classical
  have : Infinite EvalError := Infinite.of_injective EvalError.unbound fun _ _ h => EvalError.unbound.inj h
  have : Nonempty Machine := ⟨.empty⟩
  obtain ⟨halt₁, h₁⟩ := Infinite.exists_notMem_finset {halt}
  obtain ⟨halt₂, h₂⟩ := Infinite.exists_notMem_finset {halt, halt₁}
  simp only [Finset.mem_insert, Finset.mem_singleton, not_or] at h₁ h₂
  exact ⟨halt₁, halt₂, h₁, h₂.1, Ne.symm h₂.2⟩

namespace Run

variable {α β : Type}

/-- One run comes to what the other one comes to, save for failures: those that the second need not have, and those
that it has instead. -/
abbrev SaveFor (lost found : Set Halt) (α : Type) (m : Machine) (r : Except EvalError α × Machine) (y : Run α) : Prop :=
  y m = some r ∨ (∃ halt ∈ lost, r = halt.outcome) ∨ ∃ halt ∈ found, y m = some halt.outcome

theorem saveFor_refl (lost found : Set Halt) (x : Run α) : Simulated (SaveFor lost found) x x := fun _ _ h => .inl h

/-- What comes to a value does so in the other run as well. -/
theorem ok_of_saveFor {lost : Set Halt} {x y : Run α} (h : Simulated (SaveFor lost ∅) x y) {m n : Machine} {a : α}
    (hx : x m = some (.ok a, n)) : y m = some (.ok a, n) := by
  rcases h m _ hx with same | ⟨_, -, ⟨⟩⟩ | ⟨_, ⟨⟩, -⟩
  exact same

/-- Two runs in parts that differ in given halts only: the halt passes through the second part. -/
theorem saveFor_bind {lost found : Set Halt} {x y : Run α} {f g : α → Run β}
    (h : Simulated (SaveFor lost found) x y) (hf : ∀ a, Simulated (SaveFor lost found) (f a) (g a)) :
    Simulated (SaveFor lost found) (Run.bind x f) (Run.bind y g) := by
  intro m r hr
  rcases bind_eq_some hr with ⟨fault, n, hx, rfl⟩ | ⟨a, n, hx, hr⟩
  · rcases h m _ hx with hy | ⟨halt, hl, same⟩ | ⟨halt, hl, hy⟩
    · exact .inl (bind_error hy)
    · cases same
      exact .inr (.inl ⟨halt, hl, rfl⟩)
    · exact .inr (.inr ⟨halt, hl, bind_error hy⟩)
  · rcases h m _ hx with hy | ⟨halt, hl, same⟩ | ⟨halt, hl, hy⟩
    · unfold SaveFor
      rw [bind_ok hy]
      exact hf a n r hr
    · cases same
    · exact .inr (.inr ⟨halt, hl, bind_error hy⟩)

end Run

/-- To differ in given halts only is a simulation. -/
theorem simulation_saveFor (lost found : Set Halt) : Simulation (Run.SaveFor lost found) Eq where
  pure _ := Run.saveFor_refl _ _ _
  fail _ := Run.saveFor_refl _ _ _
  bind := Run.saveFor_bind
  macroCall _ _ := Run.saveFor_refl _ _ _
  lookup _ _ := Run.saveFor_refl _ _ _
  atomValue _ := Run.saveFor_refl _ _ _
  addFrame _ _ := Run.saveFor_refl _ _ _
  newClosure := Run.saveFor_refl _ _ _
  bindName _ _ _ := Run.saveFor_refl _ _ _
  record h _ _ := h ▸ Run.saveFor_refl _ _ _
  builtin h _ _ := h ▸ Run.saveFor_refl _ _ _
  alive h root name hx := by
    subst h
    refine Run.saveFor_bind (Run.saveFor_refl _ _ _) fun a => ?_
    cases a with
    | false => exact Run.saveFor_refl _ _ _
    | true => exact hx
  holdFrame h _ := by rw [h]
  holdItems h _ := by rw [h]

namespace Evaluator

/-- What one evaluator comes to, the other one comes to, save for failures. -/
def SaveFor (recur : Evaluator) (lost found : Set Halt) (recur' : Evaluator) : Prop :=
  ∀ ctx e form, Run.Simulated (Run.SaveFor lost found) (recur ctx e form) (recur' ctx e form)

theorem SaveFor.congr {recur recur' : Evaluator} {lost found : Set Halt} (h : recur.SaveFor lost found recur')
    {c c' : Context} (hc : c = c') (e : FrameId) (form : Value) :
    Run.Simulated (Run.SaveFor lost found) (recur c e form) (recur' c' e form) := hc ▸ h c e form

/-- One step, above evaluators that differ in given halts, differs in these halts. -/
theorem SaveFor.step {recur recur' : Evaluator} {lost found : Set Halt} (h : recur.SaveFor lost found recur')
    (ctx : Context) (e : FrameId) (form : Value) :
    Run.Simulated (Run.SaveFor lost found) (step recur ctx e form) (MiniLisp.step recur' ctx e form) :=
  (simulation_saveFor lost found).step h.congr rfl e form

open Classical in
/-- An evaluator that fails at one start, and is as it was everywhere else. -/
noncomputable def haltAt (recur : Evaluator) (p : Start) (halt : Halt) : Evaluator := fun ctx e form m =>
  if p = ⟨ctx, e, form, m⟩ then some halt.outcome else recur ctx e form m

end Evaluator

/-- What an evaluator comes to from a start. -/
def Start.run (p : Start) (recur : Evaluator) : Option (Except EvalError Value × Machine) :=
  recur p.ctx p.e p.form p.machine

section HaltAt

variable {recur recur' : Evaluator} {p q : Start} {halt : Halt} {lost found : Set Halt}

theorem haltAt_self : p.run (recur.haltAt p halt) = some halt.outcome := if_pos rfl

theorem haltAt_of_ne (h : p ≠ q) : q.run (recur.haltAt p halt) = q.run recur := if_neg h

/-- The second evaluator comes to what the first one comes to, or fails in one way. -/
def Evaluator.Halts (recur : Evaluator) (halt : Halt) (recur' : Evaluator) : Prop :=
  ∀ p : Start, p.run recur' = p.run recur ∨ p.run recur' = some halt.outcome

/-- The evaluator that halts at a start differs from the other in that halt. -/
theorem halts_haltAt (recur : Evaluator) (p : Start) (halt : Halt) : recur.Halts halt (recur.haltAt p halt) := by
  intro q
  rcases eq_or_ne p q with rfl | other
  · exact .inr haltAt_self
  · exact .inl (haltAt_of_ne other)

theorem Evaluator.Halts.forward (h : recur.Halts halt recur') : recur.SaveFor ∅ {halt} recur' := by
  intro ctx e form m r hr
  rcases h ⟨ctx, e, form, m⟩ with same | halts
  · exact .inl (same.trans hr)
  · exact .inr (.inr ⟨halt, rfl, halts⟩)

theorem Evaluator.Halts.backward (h : recur.Halts halt recur') : recur'.SaveFor {halt} ∅ recur := by
  intro ctx e form m r hr
  rcases h ⟨ctx, e, form, m⟩ with same | halts
  · exact .inl (same.symm.trans hr)
  · exact .inr (.inl ⟨halt, rfl, Option.some.inj (hr.symm.trans halts)⟩)

/-- What evaluators come to differs by the same failures if both fail at one start. -/
theorem Evaluator.SaveFor.haltAt (h : recur.SaveFor lost found recur') (p : Start) (halt : Halt) :
    (recur.haltAt p halt).SaveFor lost found (recur'.haltAt p halt) := by
  intro ctx e form m r hr
  rcases eq_or_ne p ⟨ctx, e, form, m⟩ with rfl | other
  · exact .inl (haltAt_self.trans (haltAt_self.symm.trans hr))
  · rcases h ctx e form m r ((haltAt_of_ne other).symm.trans hr) with same | lost | ⟨halt', hf, same⟩
    · exact .inl ((haltAt_of_ne other).trans same)
    · exact .inr (.inl lost)
    · exact .inr (.inr ⟨halt', hf, (haltAt_of_ne other).trans same⟩)

/-- A step with an evaluator that fails in one way more comes to the same, or fails in that way itself. -/
theorem Evaluator.Halts.step (h : recur.Halts halt recur') (ctx : Context) (e : FrameId) (form : Value) (m : Machine) :
    MiniLisp.step recur' ctx e form m = MiniLisp.step recur ctx e form m ∨
      MiniLisp.step recur' ctx e form m = some halt.outcome := by
  cases hx : MiniLisp.step recur ctx e form m with
  | some r =>
    rcases h.forward.step ctx e form m r hx with same | ⟨_, ⟨⟩, -⟩ | ⟨_, rfl, halts⟩
    · exact .inl same
    · exact .inr halts
  | none =>
    cases hy : MiniLisp.step recur' ctx e form m with
    | none => exact .inl rfl
    | some r =>
      rcases h.backward.step ctx e form m r hy with same | ⟨_, rfl, halts⟩ | ⟨_, ⟨⟩, -⟩
      · exact .inl (same.symm.trans hx)
      · exact .inr (congrArg some halts)

end HaltAt

/-- A run that depends on an evaluator comes to a start: if the evaluator fails there, it fails in the same way. -/
def Run.Visits {α : Type} (x : Evaluator → Run α) (recur : Evaluator) (m : Machine) (p : Start) : Prop :=
  ∀ halt, x (recur.haltAt p halt) m = some halt.outcome

/-! ## Evaluations in the course of another one -/

namespace Start

/-- The evaluations that take place in the course of another one: itself, those that a step asks for, and those in
which others go on. -/
inductive Inside (p : Start) : Start → Prop
  | self : Inside p p
  | nested {q q' : Start} (h : Inside p q)
    (ha : Run.Asks (fun recur => step recur q.ctx q.e q.form) q.machine q'.ctx q'.e q'.form q'.machine) : Inside p q'
  | again {q : Start} {e : FrameId} {form : Value} {n : Machine} (h : Inside p q)
    (hr : step evaluate q.ctx q.e q.form q.machine = some (.ok (.again e form), n)) : Inside p ⟨q.ctx, e, form, n⟩

/-- What is asked for inside an inner evaluation is asked for inside the outer one. -/
theorem Inside.trans {p q q' : Start} (h : p.Inside q) (h' : q.Inside q') : p.Inside q' := by
  induction h' with
  | self => exact h
  | nested _ ha ih => exact ih.nested ha
  | again _ hr ih => exact ih.again hr

variable {p q : Start}

/-- What a step comes to, it asks for. -/
theorem asks_of_visits {recur : Evaluator} {lost : Halt} (hrec : recur.SaveFor {lost} ∅ evaluate)
    (h : Run.Visits (fun recur => step recur p.ctx p.e p.form) recur p.machine q) :
    Run.Asks (fun recur => step recur p.ctx p.e p.form) p.machine q.ctx q.e q.form q.machine := by
  -- of two failures in its place, one makes a difference
  obtain ⟨halt, hne, differs⟩ : ∃ halt ≠ lost, some halt.outcome ≠ step evaluate p.ctx p.e p.form p.machine := by
    obtain ⟨halt₁, halt₂, h₁, h₂, hne⟩ := exists_halts lost
    by_cases same : some halt₁.outcome = step evaluate p.ctx p.e p.form p.machine
    · exact ⟨halt₂, h₂, fun same' => hne (Halt.outcome_injective (Option.some.inj (same.trans same'.symm)))⟩
    · exact ⟨halt₁, h₁, same⟩
  have fails : step (evaluate.haltAt q halt) p.ctx p.e p.form p.machine = some halt.outcome := by
    rcases (hrec.haltAt q halt).step _ _ _ _ _ (h halt) with same | ⟨_, rfl, same⟩ | ⟨_, ⟨⟩, -⟩
    · exact same
    · exact absurd (Halt.outcome_injective same) hne
  refine ⟨evaluate.haltAt q halt, fun same => differs (fails.symm.trans same), fun ctx e form n other => ?_⟩
  have here : q = ⟨ctx, e, form, n⟩ := by
    by_contra hne
    exact other (haltAt_of_ne hne)
  cases here
  exact ⟨rfl, rfl, rfl, rfl⟩

/-- What a step asks for, it comes to. -/
theorem visits_of_asks
    (h : Run.Asks (fun recur => step recur p.ctx p.e p.form) p.machine q.ctx q.e q.form q.machine) :
    Run.Visits (fun recur => step recur p.ctx p.e p.form) evaluate p.machine q := by
  obtain ⟨recur, differs, only⟩ := h
  intro halt
  by_contra hne
  -- else the step does not depend on what evaluators come to there
  have same {recur : Evaluator} (agree : ∀ q', q ≠ q' → q'.run evaluate = q'.run recur) :
      step (evaluate.haltAt q halt) p.ctx p.e p.form p.machine = step recur p.ctx p.e p.form p.machine := by
    have halts : recur.Halts halt (evaluate.haltAt q halt) := by
      intro q'
      rcases eq_or_ne q q' with rfl | other
      · exact .inr haltAt_self
      · exact .inl ((haltAt_of_ne other).trans (agree q' other))
    exact (halts.step _ _ _ _).resolve_right hne
  have agree (q' : Start) (other : q ≠ q') : q'.run evaluate = q'.run recur := by
    by_contra hne
    obtain ⟨hc, he, hf, hm⟩ := only q'.ctx q'.e q'.form q'.machine (Ne.symm hne)
    exact other (Start.ext hc.symm he.symm hf.symm hm.symm)
  exact differs ((same agree).symm.trans (same fun _ _ => rfl))

end Start

end MiniLisp
