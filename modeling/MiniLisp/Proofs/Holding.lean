import MiniLisp.Eval.Evaluate
import MiniLisp.Proofs.Lifetime

/-!
# What an evaluation owes to what is held

Evaluation looks at what is held only where a rooted builtin asks for its root. So the same form, evaluated while more
is held, has the same outcome, unless with less held a root was found to be gone.

* `evaluate_of_le`: with more held, unless a root was gone.
* `evaluate_of_ge`: with less held, unless a root is gone now.
* `evaluate_ok_of_le`: a value stays the value when more is held.
* `evaluate_of_same`: what is held twice might as well be held once.
-/

namespace MiniLisp

/-- The same files and records, and no more held. -/
structure Context.LE (ctx ctx' : Context) : Prop where
  files : ctx'.files = ctx.files
  recorded : ctx'.recorded = ctx.recorded
  held : ctx.held.LE ctx'.held

namespace Context.LE

variable {ctx ctx' ctx'' : Context}

protected theorem refl (ctx : Context) : ctx.LE ctx := ⟨rfl, rfl, .refl _⟩

/-- Contexts that hold more are ordered. -/
theorem trans (h : ctx.LE ctx') (h' : ctx'.LE ctx'') : ctx.LE ctx'' :=
  ⟨h'.files.trans h.files, h'.recorded.trans h.recorded, h.held.trans h'.held⟩

theorem holdFrame (h : ctx.LE ctx') (e : FrameId) :
    (ctx.holdFrame e).LE (ctx'.holdFrame e) :=
  ⟨h.files, h.recorded, h.held.frame e⟩

theorem holdItems (h : ctx.LE ctx') (vs : List Value) : (ctx.holdItems vs).LE (ctx'.holdItems vs) :=
  ⟨h.files, h.recorded, h.held.items vs⟩

/-- A context that holds a form besides holds more. -/
theorem hold_self (ctx : Context) (e : FrameId) (v : Value) : ctx.LE (ctx.hold e v) :=
  ⟨rfl, rfl, (ctx.held.le_frame e).trans (Holds.le_items _ [v])⟩

theorem holdItems_self (ctx : Context) (vs : List Value) : ctx.LE (ctx.holdItems vs) :=
  ⟨rfl, rfl, ctx.held.le_items vs⟩

/-- Records do not depend on what is held. -/
theorem record_eq (h : ctx.LE ctx') (level : Level) (message : Message) :
    Run.record ctx' level message = Run.record ctx level message := by
  obtain ⟨files, recorded, held⟩ := ctx
  obtain ⟨files', recorded', held'⟩ := ctx'
  obtain ⟨rfl, rfl, -⟩ := h
  rfl

/-- Ordinary builtins do not depend on what is held. -/
theorem builtin_eq (h : ctx.LE ctx') (b : Builtin) (args : List Value) :
    Call.builtin ctx' b args = Call.builtin ctx b args := by
  obtain ⟨files, recorded, held⟩ := ctx
  obtain ⟨files', recorded', held'⟩ := ctx'
  obtain ⟨rfl, rfl, -⟩ := h
  rfl

end Context.LE

/-- The failure of a rooted builtin whose root is gone. -/
def IsDetached {α : Type} (r : Except EvalError α) : Prop := ∃ name, r = .error (.detached name)

namespace Run

/-- The outcome is the other run's as well, unless a root was gone. -/
abbrev Holding (α : Type) (m : Machine) (r : Except EvalError α × Machine) (y : Run α) : Prop :=
  IsDetached r.1 ∨ y m = some r

/-- The outcome is the other run's as well, unless a root is gone there. -/
abbrev Released (α : Type) (m : Machine) (r : Except EvalError α × Machine) (y : Run α) : Prop :=
  y m = some r ∨ ∃ r', y m = some r' ∧ IsDetached r'.1

variable {α β : Type} {x y : Run α} {f g : α → Run β}

theorem holding_refl (x : Run α) : Simulated Holding x x := fun _ _ h => .inr h

theorem released_refl (x : Run α) : Simulated Released x x := fun _ _ h => .inl h

/-- Runs in parts: where a root has been let go in the first part the whole has failed for it. -/
theorem holding_bind (h : Simulated Holding x y) (hf : ∀ a, Simulated Holding (f a) (g a)) :
    Simulated Holding (Run.bind x f) (Run.bind y g) := by
  intro m r hr
  rcases bind_eq_some hr with ⟨fault, m', hx, rfl⟩ | ⟨a, m₁, hx, hr⟩
  · rcases h m _ hx with ⟨name, hname⟩ | hy
    · exact .inl ⟨name, by cases hname; rfl⟩
    · exact .inr (bind_error hy)
  · rcases h m _ hx with ⟨name, hname⟩ | hy
    · cases hname
    · rw [Holding, bind_ok hy]
      exact hf a m₁ _ hr

/-- The same for the runs that hold less. -/
theorem released_bind (h : Simulated Released x y) (hf : ∀ a, Simulated Released (f a) (g a)) :
    Simulated Released (Run.bind x f) (Run.bind y g) := by
  intro m r hr
  have gone : (∃ out, y m = some out ∧ IsDetached out.1) → ∃ out, Run.bind y g m = some out ∧ IsDetached out.1 := by
    rintro ⟨⟨out, m''⟩, hy, name, rfl⟩
    exact ⟨_, bind_error hy, name, rfl⟩
  rcases bind_eq_some hr with ⟨fault, m', hx, rfl⟩ | ⟨a, m₁, hx, hr⟩
  · exact (h m _ hx).imp bind_error gone
  · rcases h m _ hx with hy | hy
    · rw [Released, bind_ok hy]
      exact hf a m₁ _ hr
    · exact .inr (gone hy)

end Run

/-! ## The two simulations -/

/-- Holding more is a simulation, but for the roots that were let go. -/
theorem simulation_holding : Simulation Run.Holding Context.LE where
  pure _ := Run.holding_refl _
  fail _ := Run.holding_refl _
  bind := Run.holding_bind
  macroCall _ _ := Run.holding_refl _
  lookup _ _ := Run.holding_refl _
  atomValue _ := Run.holding_refl _
  addFrame _ _ := Run.holding_refl _
  newClosure := Run.holding_refl _
  bindName _ _ _ := Run.holding_refl _
  record h _ _ := by rw [h.record_eq]; exact Run.holding_refl _
  builtin h _ _ := by rw [h.builtin_eq]; exact Run.holding_refl _
  alive {ctx ctx'} _ _ _ h root name hx := by
    intro m r hr
    rw [Run.bind_gets] at hr
    rw [Run.Holding, Run.bind_gets]
    cases alive : m.isAlive ctx.held root with
    | false =>
      rw [alive] at hr
      cases hr
      exact .inl ⟨name, rfl⟩
    | true =>
      rw [alive] at hr
      rw [m.isAlive_mono h.held alive]
      exact hx m r hr
  holdFrame h e := h.holdFrame e
  holdItems h vs := h.holdItems vs

/-- So is holding less. -/
theorem simulation_released : Simulation Run.Released fun ctx ctx' => ctx'.LE ctx where
  pure _ := Run.released_refl _
  fail _ := Run.released_refl _
  bind := Run.released_bind
  macroCall _ _ := Run.released_refl _
  lookup _ _ := Run.released_refl _
  atomValue _ := Run.released_refl _
  addFrame _ _ := Run.released_refl _
  newClosure := Run.released_refl _
  bindName _ _ _ := Run.released_refl _
  record h _ _ := by rw [h.record_eq]; exact Run.released_refl _
  builtin h _ _ := by rw [h.builtin_eq]; exact Run.released_refl _
  alive {ctx ctx'} _ _ _ h root name hx := by
    intro m r hr
    rw [Run.bind_gets] at hr
    rw [Run.Released, Run.bind_gets]
    cases alive : m.isAlive ctx'.held root with
    | false => exact .inr ⟨(.error (.detached name), m), rfl, name, rfl⟩
    | true =>
      rw [m.isAlive_mono h.held alive] at hr
      exact hx m r hr
  holdFrame h e := h.holdFrame e
  holdItems h vs := h.holdItems vs

/-- Contexts that hold the same. -/
structure Context.Same (ctx ctx' : Context) : Prop where
  le : ctx.LE ctx'
  ge : ctx'.LE ctx

theorem Context.Same.symm {ctx ctx' : Context} (h : ctx.Same ctx') : ctx'.Same ctx := ⟨h.ge, h.le⟩

/-- Contexts that hold the same lead to the same. -/
theorem simulation_same : Simulation (fun _ m r y => y m = some r) Context.Same where
  pure _ := Run.LE.refl _
  fail _ := Run.LE.refl _
  bind := Run.LE.bind
  macroCall _ _ := Run.LE.refl _
  lookup _ _ := Run.LE.refl _
  atomValue _ := Run.LE.refl _
  addFrame _ _ := Run.LE.refl _
  newClosure := Run.LE.refl _
  bindName _ _ _ := Run.LE.refl _
  record h _ _ := by rw [h.le.record_eq]; exact Run.LE.refl _
  builtin h _ _ := by rw [h.le.builtin_eq]; exact Run.LE.refl _
  alive {ctx ctx'} _ _ _ h root name hx := by
    intro m r hr
    rw [Run.bind_gets] at hr ⊢
    have same : m.isAlive ctx'.held root = m.isAlive ctx.held root :=
      Bool.eq_iff_iff.2 ⟨m.isAlive_mono h.ge.held, m.isAlive_mono h.le.held⟩
    rw [same]
    cases alive : m.isAlive ctx.held root with
    | false =>
      rw [alive] at hr
      exact hr
    | true =>
      rw [alive] at hr
      exact hx m r hr
  holdFrame h e := ⟨h.le.holdFrame e, h.ge.holdFrame e⟩
  holdItems h vs := ⟨h.le.holdItems vs, h.ge.holdItems vs⟩

/-! ## Evaluation -/

section Evaluation

variable {ctx ctx' : Context} {e : FrameId} {form : Value} {m : Machine} {r : Except EvalError Value × Machine}

/-- With more held, evaluation has the same outcome, unless a root was gone. -/
theorem evaluate_of_le (h : ctx.LE ctx') (hr : evaluate ctx e form m = some r) :
    IsDetached r.1 ∨ evaluate ctx' e form m = some r :=
  simulation_holding.evaluate h e form m r hr

/-- With less held, evaluation has the same outcome, unless a root is gone now. -/
theorem evaluate_of_ge (h : ctx'.LE ctx) (hr : evaluate ctx e form m = some r) :
    evaluate ctx' e form m = some r ∨ ∃ r', evaluate ctx' e form m = some r' ∧ IsDetached r'.1 :=
  simulation_released.evaluate h e form m r hr

/-- A value stays the value when more is held. -/
theorem evaluate_ok_of_le {v : Value} {m' : Machine} (h : ctx.LE ctx') (hr : evaluate ctx e form m = some (.ok v, m')) :
    evaluate ctx' e form m = some (.ok v, m') := by
  rcases evaluate_of_le h hr with ⟨name, gone⟩ | hr
  · cases gone
  · exact hr

/-- Where the same is held, evaluation is the same. -/
theorem evaluate_of_same (h : ctx.Same ctx') (e : FrameId) (form : Value) :
    evaluate ctx e form = evaluate ctx' e form := by
  funext m
  cases hr : evaluate ctx e form m with
  | some r => exact (simulation_same.evaluate h e form m r hr).symm
  | none =>
    cases hr' : evaluate ctx' e form m with
    | none => rfl
    | some r =>
      have back : evaluate ctx e form m = some r := simulation_same.evaluate h.symm e form m r hr'
      rw [hr] at back
      cases back

end Evaluation

end MiniLisp
