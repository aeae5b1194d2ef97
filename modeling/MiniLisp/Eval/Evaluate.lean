import MiniLisp.Eval.Simulation

/-!
# Evaluation

Steps are repeated until a value is reached, so that a call in tail position takes no room. An evaluation may go on for
ever; it is the least function that its equation allows, which makes sense because a step is monotone in how the forms
inside are evaluated.

* `evaluate`: evaluation.
* `evaluate_induction`: what a step keeps holds of every outcome.
* `evalWithin`: evaluation as far as some steps lead (`evaluate_of_evalWithin`).
-/

namespace MiniLisp

/-- A step, and what is left to do after it. Nothing of the step is held any more then. -/
@[inline]
def advance (recur : Evaluator) (ctx : Context) (e : FrameId) (form : Value) : Run Value :=
  Run.bind (step recur ctx e form) (Turn.next recur fun _ _ => ctx)

theorem Simulation.advance {Q : (α : Type) → Machine → Except EvalError α × Machine → Run α → Prop}
    {C : Context → Context → Prop} {ctx ctx' : Context} {recur recur' : Evaluator} (s : Simulation Q C)
    (hrec : ∀ {c c' : Context}, C c c' → ∀ e form, Run.Simulated Q (recur c e form) (recur' c' e form))
    (h : C ctx ctx') (e : FrameId) (form : Value) :
    Run.Simulated Q (advance recur ctx e form) (advance recur' ctx' e form) :=
  s.bind (s.step hrec h e form) fun turn => s.next hrec (fun _ _ => h) turn

theorem advance_mono {recur recur' : Evaluator} (h : ∀ ctx e form, Run.LE (recur ctx e form) (recur' ctx e form))
    (ctx : Context) (e : FrameId) (form : Value) :
    Run.LE (advance recur ctx e form) (advance recur' ctx e form) :=
  simulation_le.advance (fun hc e form => hc ▸ h _ e form) rfl e form

/-- One step after another. -/
def evaluateFrom (ctx : Context) (e : FrameId) (form : Value) (m : Machine) :
    Option (Except EvalError Value × Machine) :=
  advance (by apply evaluateFrom) ctx e form m
partial_fixpoint monotonicity fun recur recur' h ctx e form m => by
  have le : ∀ ctx e form, Run.LE (recur ctx e form) (recur' ctx e form) := by
    intro ctx e form m r hr
    have below := h ctx e form m
    generalize recur ctx e form m = x at below hr
    cases below with
    | bot => cases hr
    | refl => exact hr
  have step := advance_mono le ctx e form m
  cases hx : advance recur ctx e form m with
  | none => simpa only [hx] using .bot
  | some r =>
    simpa only [hx, step r hx] using .refl

/-- A form evaluated in a frame; `none` if that does not end. -/
def evaluate : Evaluator := evaluateFrom

theorem evaluate_eq (ctx : Context) (e : FrameId) (form : Value) :
    evaluate ctx e form = advance evaluate ctx e form := by
  funext m
  exact evaluateFrom.eq_1 ctx e form m

/-- What holds of the outcomes of a step whenever it holds of the outcomes of the forms inside holds of every
outcome. -/
theorem evaluate_induction {P : Context → FrameId → Value → Machine → Except EvalError Value × Machine → Prop}
    (hstep : ∀ recur : Evaluator, (∀ ctx e form m r, recur ctx e form m = some r → P ctx e form m r) →
      ∀ ctx e form m r, advance recur ctx e form m = some r → P ctx e form m r)
    {ctx : Context} {e : FrameId} {form : Value} {m : Machine} {r : Except EvalError Value × Machine}
    (h : evaluate ctx e form m = some r) : P ctx e form m r :=
  evaluateFrom.partial_correctness P hstep ctx e form m r h

/-- Evaluation keeps a simulation. -/
theorem Simulation.evaluate {Q : (α : Type) → Machine → Except EvalError α × Machine → Run α → Prop}
    {C : Context → Context → Prop} (s : Simulation Q C) {ctx ctx' : Context} (h : C ctx ctx') (e : FrameId)
    (form : Value) : Run.Simulated Q (evaluate ctx e form) (MiniLisp.evaluate ctx' e form) := by
  intro m r hr
  have all : ∀ ctx', C ctx ctx' → Q _ m r (MiniLisp.evaluate ctx' e form) := by
    refine evaluate_induction (P := fun ctx e form m r =>
      ∀ ctx', C ctx ctx' → Q _ m r (MiniLisp.evaluate ctx' e form)) (fun recur ih ctx e form m r hr ctx' h => ?_) hr
    rw [evaluate_eq]
    exact s.advance (fun hc e form m r hr => ih _ e form m r hr _ hc) h e form m r hr
  exact all ctx' h

/-! ## Evaluation within a bound -/

/-- Evaluation with no more than some steps in a row and no more than some evaluations inside each other. -/
def evalWithin : Nat → Evaluator
  | 0, _, _, _ => fun _ => none
  | bound + 1, ctx, e, form => advance (evalWithin bound) ctx e form

/-- Where a bound is enough, evaluation ends as it does within the bound. -/
theorem evaluate_of_evalWithin (bound : Nat) (ctx : Context) (e : FrameId) (form : Value) :
    Run.LE (evalWithin bound ctx e form) (evaluate ctx e form) := by
  induction bound generalizing ctx e form with
  | zero => intro m r h; cases h
  | succ bound ih =>
    rw [evaluate_eq]
    exact advance_mono ih ctx e form

/-- What a step does within a bound, it does in evaluation. -/
theorem evalWithin_le (bound : Nat) {ctx ctx' : Context} (h : ctx = ctx') (e : FrameId) (form : Value) :
    Run.LE (evalWithin bound ctx e form) (evaluate ctx' e form) :=
  h ▸ evaluate_of_evalWithin bound ctx e form

end MiniLisp
