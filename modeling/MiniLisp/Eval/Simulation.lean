import MiniLisp.Eval.Step

/-!
# Simulations

One step of evaluation is put together from a few operations. A relation between runs that these keep is kept by a
whole step, if it holds for the evaluation of the forms inside (`Simulation.step`). The two runs may differ in how
forms are evaluated and in what they may look at besides the machine.

* `Simulation`: a relation that the operations keep.
* `Simulation.step`: a step keeps it.
* `Run.LE`: the order in which runs are more and more defined; a step is monotone in it (`simulation_le`).
-/

namespace MiniLisp

/-- Every outcome of a run matches another run. -/
def Run.Simulated (Q : (α : Type) → Machine → Except EvalError α × Machine → Run α → Prop) {α : Type} (x y : Run α) :
    Prop :=
  ∀ (m : Machine) (r : Except EvalError α × Machine), x m = some r → Q α m r y

/-- A relation between runs that the operations of evaluation keep, in contexts that are related as well. -/
structure Simulation (Q : (α : Type) → Machine → Except EvalError α × Machine → Run α → Prop)
    (C : Context → Context → Prop) : Prop where
  pure {α : Type} (a : α) : Run.Simulated Q (Run.pure a) (Run.pure a)
  fail {α : Type} (fault : EvalError) : Run.Simulated Q (Run.fail fault : Run α) (Run.fail fault)
  bind {α β : Type} {x y : Run α} {f g : α → Run β} (h : Run.Simulated Q x y)
    (hf : ∀ a, Run.Simulated Q (f a) (g a)) : Run.Simulated Q (Run.bind x f) (Run.bind y g)
  macroCall (e : FrameId) (form : Value) :
    Run.Simulated Q (Run.gets fun m => m.macroCall? e form) (Run.gets fun m => m.macroCall? e form)
  lookup (e : FrameId) (name : String) :
    Run.Simulated Q (Run.gets fun m => m.lookup e name) (Run.gets fun m => m.lookup e name)
  atomValue (a : AtomId) : Run.Simulated Q (Run.gets fun m => m.atomValue a) (Run.gets fun m => m.atomValue a)
  addFrame (bs : Bindings) (outer : Option FrameId) :
    Run.Simulated Q (Run.change fun m => m.addFrame bs outer) (Run.change fun m => m.addFrame bs outer)
  newClosure : Run.Simulated Q (Run.change Machine.newClosure) (Run.change Machine.newClosure)
  bindName (e : FrameId) (name : String) (v : Value) :
    Run.Simulated Q (Run.modify fun m => m.bind e name v) (Run.modify fun m => m.bind e name v)
  record {ctx ctx' : Context} (h : C ctx ctx') (level : Level) (message : Message) :
    Run.Simulated Q (Run.record ctx level message) (Run.record ctx' level message)
  builtin {ctx ctx' : Context} (h : C ctx ctx') (b : Builtin) (args : List Value) :
    Run.Simulated Q (Call.builtin ctx b args) (Call.builtin ctx' b args)
  alive {ctx ctx' : Context} {α : Type} {x y : Run α} (h : C ctx ctx') (root : FrameId) (name : String)
    (hx : Run.Simulated Q x y) :
    Run.Simulated Q
      (Run.bind (Run.gets fun m => m.isAlive ctx.held root) fun a => if a then x else Run.fail (.detached name))
      (Run.bind (Run.gets fun m => m.isAlive ctx'.held root) fun a => if a then y else Run.fail (.detached name))
  holdFrame {ctx ctx' : Context} (h : C ctx ctx') (e : FrameId) :
    C (ctx.holdFrame e) (ctx'.holdFrame e)
  holdItems {ctx ctx' : Context} (h : C ctx ctx') (vs : List Value) : C (ctx.holdItems vs) (ctx'.holdItems vs)

namespace Simulation

variable {Q : (α : Type) → Machine → Except EvalError α × Machine → Run α → Prop} {C : Context → Context → Prop}
  {ctx ctx' : Context} {recur recur' : Evaluator}

/-! ## What follows for the smaller operations -/

theorem holdValue (s : Simulation Q C) (h : C ctx ctx') (v : Value) : C (ctx.holdValue v) (ctx'.holdValue v) :=
  s.holdItems h [v]

theorem hold (s : Simulation Q C) (h : C ctx ctx') (e : FrameId) (v : Value) : C (ctx.hold e v) (ctx'.hold e v) :=
  s.holdValue (s.holdFrame h e) v

/-- Outcomes that come from values alone simulate themselves. -/
theorem ofExcept (s : Simulation Q C) {α : Type} (x : Except EvalError α) :
    Run.Simulated Q (Run.ofExcept x) (Run.ofExcept x) := by
  cases x with
  | error fault => exact s.fail fault
  | ok a => exact s.pure a

/-- A record with a value in it is a record. -/
theorem recordValue (s : Simulation Q C) (h : C ctx ctx') (level : Level) (what : String) (v : Value) :
    Run.Simulated Q (Run.recordValue ctx level what v) (Run.recordValue ctx' level what v) :=
  s.record h level _

theorem recordCall (s : Simulation Q C) (h : C ctx ctx') (what : Message) (args : List Value) :
    Run.Simulated Q (Call.recordCall ctx what args) (Call.recordCall ctx' what args) :=
  s.record h .trace _

theorem checkCount (s : Simulation Q C) (name : String) (arity : Arity) (args : List Value) :
    Run.Simulated Q (Call.checkCount name arity args) (Call.checkCount name arity args) := by
  unfold Call.checkCount
  split
  · exact s.pure ()
  · exact s.fail _

/-- The frame of a call is made alike on both sides. -/
theorem enter (s : Simulation Q C) (params : Params) (captured : FrameId) (args : List Value) :
    Run.Simulated Q (Call.enter params captured args) (Call.enter params captured args) :=
  s.bind (s.checkCount _ _ _) fun _ => s.addFrame _ _

theorem bindSymbol (s : Simulation Q C) (e : FrameId) (target v : Value) :
    Run.Simulated Q (Step.bindSymbol e target v) (Step.bindSymbol e target v) := by
  unfold Step.bindSymbol
  split
  · exact s.bindName _ _ _
  · exact s.fail _

theorem bindFor (s : Simulation Q C) (h : C ctx ctx') (e : FrameId) (form : SpecialForm) (target v : Value) :
    Run.Simulated Q (Step.bindFor ctx e form target v) (Step.bindFor ctx' e form target v) :=
  s.bind (s.bindSymbol e target v) fun _ => s.bind (s.record h _ _) fun _ => s.pure v

theorem asMacro (s : Simulation Q C) (v : Value) : Run.Simulated Q (Step.asMacro v) (Step.asMacro v) := by
  unfold Step.asMacro
  split
  · exact s.bind s.newClosure fun _ => s.pure _
  · exact s.fail _

theorem valueFor (s : Simulation Q C) (form : SpecialForm) (v : Value) :
    Run.Simulated Q (Step.valueFor form v) (Step.valueFor form v) := by
  unfold Step.valueFor
  split
  · exact s.asMacro v
  · exact s.pure v

theorem function (s : Simulation Q C) (e : FrameId) (parameters body : Value) :
    Run.Simulated Q (Step.function e parameters body) (Step.function e parameters body) := by
  unfold Step.function
  split
  · exact s.fail _
  · exact s.bind s.newClosure fun _ => s.pure _

/-! ## Calls -/

section Calls

variable (s : Simulation Q C)
  (hrec : ∀ {c c' : Context}, C c c' → ∀ e form, Run.Simulated Q (recur c e form) (recur' c' e form))
include s hrec

/-- A rooted builtin runs in its root, above evaluators that simulate each other. -/
theorem inRoot (h : C ctx ctx') (root : FrameId) (b : Rooted) (args : List Value) :
    Run.Simulated Q (Call.inRoot recur ctx root b args) (Call.inRoot recur' ctx' root b args) := by
  unfold Call.inRoot
  split
  · exact s.bind (s.recordValue h _ _ _) fun _ => hrec h _ _
  · refine s.bind (s.ofExcept _) fun a => ?_
    split
    · refine s.bind (s.atomValue a) fun v => ?_
      exact s.bind (s.recordValue h _ _ _) fun _ => hrec (s.holdValue h _) _ _
    · exact s.fail _
  · exact s.fail _

theorem rooted (h : C ctx ctx') (b : Rooted) (root : FrameId) (args : List Value) :
    Run.Simulated Q (Call.rooted recur ctx b root args) (Call.rooted recur' ctx' b root args) := by
  refine s.bind (s.checkCount _ _ _) fun _ => s.alive h root b.name ?_
  exact s.bind (s.recordCall h _ _) fun _ => s.inRoot hrec (s.holdFrame h root) _ _ _

/-- An application does one thing on both sides, whatever is applied. -/
theorem apply (h : C ctx ctx') (f : Value) (args : List Value) :
    Run.Simulated Q (Call.apply recur ctx f args) (Call.apply recur' ctx' f args) := by
  unfold Call.apply
  split
  · exact s.bind (s.builtin h _ _) fun _ => s.pure _
  · exact s.bind (s.rooted hrec (s.holdItems h _) _ _ _) fun _ => s.pure _
  · refine s.bind (s.recordCall h _ _) fun _ => ?_
    exact s.bind (s.enter _ _ _) fun _ => s.pure _
  · exact s.fail _

/-- A turn that is taken goes on in related contexts. -/
theorem next {after after' : FrameId → Value → Context} (h : ∀ e form, C (after e form) (after' e form))
    (turn : Turn) : Run.Simulated Q (Turn.next recur after turn) (Turn.next recur' after' turn) := by
  cases turn with
  | done v => exact s.pure v
  | again e form => exact hrec (h e form) e form

theorem finish (h : C ctx ctx') (f : Value) (args : List Value) :
    Run.Simulated Q (Call.finish recur ctx f args) (Call.finish recur' ctx' f args) :=
  s.bind (s.apply hrec h f args) fun turn => s.next hrec (fun e body => s.hold (s.holdItems h _) e body) turn

/-- Expansion, by induction on the steps left. -/
theorem expandWithin (e : FrameId) (n : Nat) (h : C ctx ctx') (form : Value) :
    Run.Simulated Q (expandWithin recur ctx e n form) (expandWithin recur' ctx' e n form) := by
  induction n generalizing form with
  | zero =>
    unfold MiniLisp.expandWithin
    refine s.bind (s.macroCall e form) fun call => ?_
    cases call with
    | none => exact s.pure form
    | some _ => exact s.fail _
  | succ n ih =>
    unfold MiniLisp.expandWithin
    refine s.bind (s.macroCall e form) fun call => ?_
    cases call with
    | none => exact s.pure form
    | some call =>
      refine s.bind (s.finish hrec (s.holdValue h form) _ _) fun form' => ?_
      exact s.bind (s.recordValue h _ _ _) fun _ => ih form'

theorem expand (h : C ctx ctx') (e : FrameId) (form : Value) :
    Run.Simulated Q (expand recur ctx e form) (expand recur' ctx' e form) :=
  s.expandWithin hrec e _ (s.hold h e form) form

/-! ## Special forms and steps -/

/-- Elements one after the other, by induction on the list. -/
theorem each (h : C ctx ctx') (e : FrameId) (xs : List Value) :
    Run.Simulated Q (Step.each recur ctx e xs) (Step.each recur' ctx' e xs) := by
  induction xs generalizing ctx ctx' with
  | nil => exact s.pure []
  | cons x xs ih =>
    refine s.bind (hrec h e x) fun v => ?_
    exact s.bind (ih (s.holdValue h v)) fun vs => s.pure _

theorem eachEntry (h : C ctx ctx') (e : FrameId) (es : Entries) :
    Run.Simulated Q (Step.eachEntry recur ctx e es) (Step.eachEntry recur' ctx' e es) := by
  induction es generalizing ctx ctx' with
  | nil => exact s.pure []
  | cons entry es ih =>
    refine s.bind (hrec h e entry.2) fun v => ?_
    exact s.bind (ih (s.holdValue h v)) fun vs => s.pure _

theorem define (h : C ctx ctx') (e : FrameId) (form : SpecialForm) (target expr : Value) :
    Run.Simulated Q (Step.define recur ctx e form target expr) (Step.define recur' ctx' e form target expr) := by
  refine s.bind (hrec h e expr) fun v => ?_
  exact s.bind (s.valueFor form v) fun v => s.bindFor h e form target v

/-- Bindings two items at a time, by the recursion of the interpreter. -/
theorem bindEach (h : C ctx ctx') (e : FrameId) (items : List Value) :
    Run.Simulated Q (Step.bindEach recur ctx e items) (Step.bindEach recur' ctx' e items) := by
  match items with
  | target :: expr :: rest =>
    refine s.bind (hrec h e expr) fun v => ?_
    exact s.bind (s.bindSymbol e target v) fun _ => bindEach h e rest
  | [] => exact s.pure ()
  | [_] => exact s.pure ()

theorem bindLocally (h : C ctx ctx') (e : FrameId) (bindings body : Value) :
    Run.Simulated Q (Step.bindLocally recur ctx e bindings body) (Step.bindLocally recur' ctx' e bindings body) := by
  refine s.bind (s.ofExcept _) fun items => ?_
  refine s.bind (s.addFrame [] (some e)) fun child => ?_
  exact s.bind (s.bindEach hrec (s.holdFrame h child) child items) fun _ => s.pure _

/-- The operands of `do`, by induction on the list. -/
theorem sequence (h : C ctx ctx') (e : FrameId) (operands : List Value) :
    Run.Simulated Q (Step.sequence recur ctx e operands) (Step.sequence recur' ctx' e operands) := by
  match operands with
  | [] => exact s.pure _
  | [last] => exact s.pure _
  | x :: y :: rest => exact s.bind (hrec h e x) fun _ => sequence h e (y :: rest)

theorem choose (h : C ctx ctx') (e : FrameId) (condition consequent alternative : Value) :
    Run.Simulated Q (Step.choose recur ctx e condition consequent alternative)
      (Step.choose recur' ctx' e condition consequent alternative) :=
  s.bind (hrec h e condition) fun _ => s.pure _

/-- The special forms, one case each. -/
theorem special (h : C ctx ctx') (e : FrameId) (form : SpecialForm) (operands : List Value) :
    Run.Simulated Q (Step.special recur ctx e form operands) (Step.special recur' ctx' e form operands) := by
  cases form, operands using SpecialForm.cases_operands with
  | define target expr => exact s.bind (s.define hrec h e .define target expr) fun _ => s.pure _
  | defineMacro target expr => exact s.bind (s.define hrec h e .defineMacro target expr) fun _ => s.pure _
  | bindLocally bindings body => exact s.bindLocally hrec h e bindings body
  | sequence operands => exact s.sequence hrec h e operands
  | choose condition consequent => exact s.choose hrec h e condition consequent .nil
  | chooseElse condition consequent alternative => exact s.choose hrec h e condition consequent alternative
  | function parameters body => exact s.bind (s.function e parameters body) fun _ => s.pure _
  | quote => exact s.pure _
  | showTemplate v => exact s.bind (s.ofExcept (Step.template v)) fun _ => s.pure _
  | template v => exact s.bind (s.ofExcept (Step.template v)) fun _ => s.pure _
  | showExpansion form => exact s.bind (s.expand hrec h e form) fun _ => s.pure _
  | badCount form operands bad =>
    rw [Step.special_of_badCount recur ctx e bad, Step.special_of_badCount recur' ctx' e bad]
    exact s.fail _

theorem plain (h : C ctx ctx') (e : FrameId) (form : Value) :
    Run.Simulated Q (Step.plain recur ctx e form) (Step.plain recur' ctx' e form) := by
  refine s.bind (s.recordValue h _ _ _) fun _ => ?_
  split
  · refine s.bind (s.lookup e _) fun v => ?_
    cases v with
    | none => exact s.fail _
    | some v => exact s.pure v
  · exact s.bind (s.each hrec (s.hold h e _) e _) fun _ => s.pure _
  · exact s.bind (s.eachEntry hrec (s.hold h e _) e _) fun _ => s.pure _
  · exact s.pure _

theorem call (h : C ctx ctx') (e : FrameId) (items : List Value) :
    Run.Simulated Q (Step.call recur ctx e items) (Step.call recur' ctx' e items) := by
  refine s.bind (s.each hrec h e items) fun vs => ?_
  cases vs with
  | nil => exact s.pure _
  | cons f args => exact s.apply hrec h f args

/-- A form after its expansion: a special form, a call or a plain form. -/
theorem expanded (h : C ctx ctx') (e : FrameId) (form : Value) :
    Run.Simulated Q (Step.expanded recur ctx e form) (Step.expanded recur' ctx' e form) := by
  unfold Step.expanded
  split
  · exact s.pure _
  · refine s.bind (s.recordValue h _ _ _) fun _ => ?_
    split
    · exact s.special hrec (s.hold h e _) e _ _
    · exact s.call hrec (s.hold h e _) e _
  · exact s.bind (s.plain hrec h e _) fun _ => s.pure _

/-- A step keeps a simulation that holds for the evaluation of the forms inside. -/
theorem step (h : C ctx ctx') (e : FrameId) (form : Value) :
    Run.Simulated Q (step recur ctx e form) (MiniLisp.step recur' ctx' e form) :=
  s.bind (s.expand hrec h e form) fun form' => s.expanded hrec h e form'

end Calls

end Simulation

/-! ## Monotonicity -/

/-- One run ends wherever the other one does, and in the same way. -/
def Run.LE {α : Type} (x y : Run α) : Prop := Run.Simulated (fun _ m r y => y m = some r) x y

namespace Run.LE

variable {α β : Type}

protected theorem refl (x : Run α) : Run.LE x x := fun _ _ h => h

/-- A longer run of the first part and of the second is a longer run of both. -/
theorem bind {x y : Run α} {f g : α → Run β} (h : Run.LE x y) (hf : ∀ a, Run.LE (f a) (g a)) :
    Run.LE (Run.bind x f) (Run.bind y g) := by
  intro m r hr
  rcases bind_eq_some hr with ⟨fault, m', hx, rfl⟩ | ⟨a, m', hx, hr⟩
  · exact bind_error (h m _ hx)
  · exact (bind_ok (h m _ hx)).trans (hf a m' r hr)

end Run.LE

/-- To end as soon and alike is a simulation. -/
theorem simulation_le : Simulation (fun _ m r y => y m = some r) Eq where
  pure a := Run.LE.refl _
  fail _ := Run.LE.refl _
  bind := Run.LE.bind
  macroCall _ _ := Run.LE.refl _
  lookup _ _ := Run.LE.refl _
  atomValue _ := Run.LE.refl _
  addFrame _ _ := Run.LE.refl _
  newClosure := Run.LE.refl _
  bindName _ _ _ := Run.LE.refl _
  record h _ _ := h ▸ Run.LE.refl _
  builtin h _ _ := h ▸ Run.LE.refl _
  alive h root name hx := by
    subst h
    refine Run.LE.bind (Run.LE.refl _) fun a => ?_
    cases a with
    | false => exact Run.LE.refl _
    | true => exact hx
  holdFrame h _ := by rw [h]
  holdItems h _ := by rw [h]

end MiniLisp
