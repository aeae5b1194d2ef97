import MiniLisp.Eval.Expand
import MiniLisp.Eval.SpecialForm
import MiniLisp.Template

/-!
# Steps of evaluation

One step takes a form in a frame to its value, or to another form that is evaluated instead; forms inside it are
evaluated by `recur`. Macros are expanded first; then a special form is performed, or a call is made once its elements
are evaluated from left to right; symbols are looked up, vectors and maps are evaluated element by element, and all
else is its own value.

* `Step.special`: a special form.
* `step`: any form.
-/

namespace MiniLisp

namespace Step

/-- The values of forms, from left to right. -/
def each (recur : Evaluator) (ctx : Context) (e : FrameId) : List Value → Run (List Value)
  | [] => return []
  | x :: xs => do
    let v ← recur ctx e x
    let vs ← each recur (ctx.holdValue v) e xs
    return v :: vs

/-- Entries with the values of their forms, in the order of their keys. -/
def eachEntry (recur : Evaluator) (ctx : Context) (e : FrameId) : Entries → Run Entries
  | [] => return []
  | (k, x) :: es => do
    let v ← recur ctx e x
    let vs ← eachEntry recur (ctx.holdValue v) e es
    return (k, v) :: vs

/-! ## Binding -/

/-- Binds a symbol in a frame. -/
def bindSymbol (e : FrameId) (target v : Value) : Run Unit :=
  match target with
  | .symbol name => Run.modify fun m => m.bind e name v
  | _ => Run.fail (.mismatch .symbol)

/-- Only symbols are bound. -/
theorem bindSymbol_of_ne {target : Value} (h : ∀ name, target ≠ .symbol name) (e : FrameId) (v : Value) :
    bindSymbol e target v = Run.fail (.mismatch .symbol) := by
  unfold bindSymbol
  split
  · next name => exact absurd rfl (h name)
  · rfl

/-- A closure of its own that is a macro, like the given closure otherwise. -/
def asMacro : Value → Run Value
  | .closure _ params body captured _ => do
    let id ← Run.change Machine.newClosure
    return .closure id params body captured true
  | _ => Run.fail (.mismatch .closure)

/-- Only closures are made macros. -/
theorem asMacro_of_ne {v : Value}
    (h : ∀ id params body captured isMacro, v ≠ .closure id params body captured isMacro) :
    asMacro v = Run.fail (.mismatch .closure) := by
  unfold asMacro
  split
  · next id params body captured isMacro => exact absurd rfl (h id params body captured isMacro)
  · rfl

/-- What is bound in place of a value. -/
def valueFor : SpecialForm → Value → Run Value
  | .defineMacro, v => asMacro v
  | _, v => return v

/-- What is bound, by which form, and to what. -/
def bindText (form : SpecialForm) (target v : Value) : Message := fun contents => do
  return (← Message.value (form.name ++ " ") target contents) ++ (← Message.value " = " v contents)

/-- Binds a symbol for a special form, and records that. -/
def bindFor (ctx : Context) (e : FrameId) (form : SpecialForm) (target v : Value) : Run Value := do
  bindSymbol e target v
  Run.record ctx .debug (bindText form target v)
  return v

/-- The forms `def!` and `defmacro!`. A closure becomes a macro before it is bound. -/
def define (recur : Evaluator) (ctx : Context) (e : FrameId) (form : SpecialForm) (target expr : Value) :
    Run Value := do
  let v ← recur ctx e expr
  let v ← valueFor form v
  bindFor ctx e form target v

/-- Binds symbols in a frame in turn, each to the value that its form has there. -/
def bindEach (recur : Evaluator) (ctx : Context) (e : FrameId) : List Value → Run Unit
  | target :: expr :: rest => do
    let v ← recur ctx e expr
    bindSymbol e target v
    bindEach recur ctx e rest
  | _ => return ()

/-- The targets and forms of `let*`, which stand in turn. -/
def bindingItems (bindings : Value) : Except EvalError (List Value) :=
  match bindings.items? with
  | none => .error (.badBindings .notASequence)
  | some items => if items.length % 2 = 0 then .ok items else .error (.badBindings .oddLength)

/-- The form `let*`: its body is left to be evaluated in a new frame. -/
def bindLocally (recur : Evaluator) (ctx : Context) (e : FrameId) (bindings body : Value) : Run Turn := do
  let items ← Run.ofExcept (bindingItems bindings)
  let child ← Run.change fun m => m.addFrame [] (some e)
  bindEach recur (ctx.holdFrame child) child items
  return .again child body

/-- Bindings of the wrong shape fail before a frame is made. -/
theorem bindLocally_of_error {recur : Evaluator} {ctx : Context} {e : FrameId} {bindings body : Value}
    {fault : EvalError} (h : bindingItems bindings = .error fault) (m : Machine) :
    bindLocally recur ctx e bindings body m = some (.error fault, m) := by
  unfold bindLocally
  rw [h]
  rfl

/-- The values are bound in a new frame, and the body goes on in it. -/
theorem bindLocally_of_items {recur : Evaluator} {ctx : Context} {e : FrameId} {bindings body : Value}
    {items : List Value} (h : bindingItems bindings = .ok items) (m : Machine) :
    bindLocally recur ctx e bindings body m =
      Run.bind (bindEach recur (ctx.holdFrame m.frames.size) m.frames.size items)
        (fun _ => Run.pure (.again m.frames.size body)) (m.addFrame [] (some e)).2 := by
  unfold bindLocally
  rw [h]
  rfl

/-! ## Closures -/

/-- The name that a symbol is. -/
def parameterName : Value → Except SignatureError String
  | .symbol name => .ok name
  | _ => .error .notASymbol

/-- The parameters that the first operand of `fn*` lists. -/
def signature (v : Value) : Except SignatureError Params :=
  match v.items? with
  | none => .error .notASequence
  | some items =>
    match items.mapM parameterName with
    | .error fault => .error fault
    | .ok names =>
      match Params.ofNames? names with
      | .ok params => .ok params
      | .error fault => .error (.badRest fault)

/-- The form `fn*`: a closure that captures the frame it stands in. -/
def function (e : FrameId) (parameters body : Value) : Run Value :=
  match signature parameters with
  | .error fault => Run.fail (.badSignature fault)
  | .ok params => do
    let id ← Run.change Machine.newClosure
    return .closure id params body e false

/-! ## Control -/

/-- The form `do`: its last operand is left to be evaluated; without operands it is nil. -/
def sequence (recur : Evaluator) (ctx : Context) (e : FrameId) : List Value → Run Turn
  | [] => return .again e .nil
  | [last] => return .again e last
  | x :: y :: rest => do
    let _ ← recur ctx e x
    sequence recur ctx e (y :: rest)

/-- The form `if`: the branch that is taken is left to be evaluated. -/
def choose (recur : Evaluator) (ctx : Context) (e : FrameId) (condition consequent alternative : Value) :
    Run Turn := do
  let v ← recur ctx e condition
  return .again e (if v.truthy then consequent else alternative)

/-- The form that rebuilds a template. -/
def template (v : Value) : Except EvalError Value :=
  match v.template with
  | .ok form => .ok form
  | .error fault => .error (.badTemplate fault)

/-- A special form with its operands. -/
def special (recur : Evaluator) (ctx : Context) (e : FrameId) : SpecialForm → List Value → Run Turn
  | .define, [target, expr] => return .done (← define recur ctx e .define target expr)
  | .defineMacro, [target, expr] => return .done (← define recur ctx e .defineMacro target expr)
  | .bindLocally, [bindings, body] => bindLocally recur ctx e bindings body
  | .sequence, operands => sequence recur ctx e operands
  | .choose, [condition, consequent] => choose recur ctx e condition consequent .nil
  | .choose, [condition, consequent, alternative] => choose recur ctx e condition consequent alternative
  | .function, [parameters, body] => return .done (← function e parameters body)
  | .quote, [v] => return .done v
  | .showTemplate, [v] => return .done (← Run.ofExcept (template v))
  | .template, [v] => return .again e (← Run.ofExcept (template v))
  | .showExpansion, [form] => return .done (← expand recur ctx e form)
  | s, operands => Run.fail (.badCount ⟨s.name, s.arity, operands.length⟩)

section

variable (recur : Evaluator) (ctx : Context) (e : FrameId)

theorem special_define (target expr : Value) :
    special recur ctx e .define [target, expr] =
      Run.bind (define recur ctx e .define target expr) fun v => Run.pure (.done v) := rfl

theorem special_defineMacro (target expr : Value) :
    special recur ctx e .defineMacro [target, expr] =
      Run.bind (define recur ctx e .defineMacro target expr) fun v => Run.pure (.done v) := rfl

/-- `if` evaluates its condition and goes on with a branch; a missing alternative is `nil`. -/
theorem special_choose {rest : List Value} (h : rest.length ≤ 1) (condition consequent : Value) :
    special recur ctx e .choose (condition :: consequent :: rest) =
      Run.bind (recur ctx e condition) fun v =>
        Run.pure (.again e (if v.truthy then consequent else rest.headD .nil)) := by
  match rest, h with
  | [], _ => rfl
  | [_], _ => rfl

theorem special_function (parameters body : Value) :
    special recur ctx e .function [parameters, body] =
      Run.bind (function e parameters body) fun v => Run.pure (.done v) := rfl

theorem special_showTemplate (v : Value) :
    special recur ctx e .showTemplate [v] =
      Run.bind (Run.ofExcept (Step.template v)) fun v => Run.pure (.done v) := rfl

/-- `quasiquote` goes on with the form its template makes, and `quasiquoteexpand` gives that form back. -/
theorem special_template (v : Value) :
    special recur ctx e .template [v] =
      Run.bind (Run.ofExcept (Step.template v)) fun form => Run.pure (.again e form) := rfl

theorem special_showExpansion (form : Value) :
    special recur ctx e .showExpansion [form] =
      Run.bind (expand recur ctx e form) fun v => Run.pure (.done v) := rfl

/-- A wrong count of operands is reported before any of them is looked at. -/
theorem special_of_badCount {s : SpecialForm} {operands : List Value}
    (h : s.arity.accepts operands.length = false) :
    special recur ctx e s operands = Run.fail (.badCount ⟨s.name, s.arity, operands.length⟩) := by
  unfold special
  split <;> first | rfl | simp [SpecialForm.arity, Arity.accepts, Arity.exactly] at h

end

/-- A form that is no list. -/
def plain (recur : Evaluator) (ctx : Context) (e : FrameId) (form : Value) : Run Value := do
  Run.recordValue ctx .trace "evaluate_ast " form
  match form with
  | .symbol name =>
    match ← Run.gets fun m => m.lookup e name with
    | some v => return v
    | none => Run.fail (.unbound name)
  | .vector xs => return .vector (← each recur (ctx.hold e form) e xs)
  | .map es => return .map (← eachEntry recur (ctx.hold e form) e es)
  | v => return v

/-- A list that is no special form: the value of its head is applied to the values of the others. -/
def call (recur : Evaluator) (ctx : Context) (e : FrameId) (items : List Value) : Run Turn := do
  match ← each recur ctx e items with
  | f :: args => Call.apply recur ctx f args
  | [] => return .done (.list [])

/-- A form with no macro call at its head. -/
def expanded (recur : Evaluator) (ctx : Context) (e : FrameId) (form : Value) : Run Turn :=
  match form with
  | .list [] => return .done form
  | .list (head :: operands) => do
    Run.recordValue ctx .trace "apply " form
    match SpecialForm.ofValue? head with
    | some s => special recur (ctx.hold e form) e s operands
    | none => call recur (ctx.hold e form) e (head :: operands)
  | form => return .done (← plain recur ctx e form)

section

variable {recur : Evaluator} {ctx : Context} {e : FrameId}

/-- A form that is no list has no turns. -/
theorem expanded_plain {form : Value} (h : ∀ xs, form ≠ .list xs) :
    expanded recur ctx e form = Run.bind (plain recur ctx e form) fun v => Run.pure (.done v) := by
  unfold expanded
  split
  · exact absurd rfl (h [])
  · next head operands => exact absurd rfl (h (head :: operands))
  · rfl

/-- A special form is recorded and then performed. -/
theorem expanded_special {head : Value} {s : SpecialForm} (h : SpecialForm.ofValue? head = some s)
    (operands : List Value) :
    expanded recur ctx e (.list (head :: operands)) =
      Run.bind (Run.recordValue ctx .trace "apply " (.list (head :: operands))) fun _ =>
        special recur (ctx.hold e (.list (head :: operands))) e s operands := by
  simp only [expanded, h]
  rfl

/-- Any other list with a head is recorded and then called. -/
theorem expanded_call {head : Value} (h : SpecialForm.ofValue? head = none) (operands : List Value) :
    expanded recur ctx e (.list (head :: operands)) =
      Run.bind (Run.recordValue ctx .trace "apply " (.list (head :: operands))) fun _ =>
        call recur (ctx.hold e (.list (head :: operands))) e (head :: operands) := by
  simp only [expanded, h]
  rfl

end

end Step

/-- One step of evaluation. -/
def step (recur : Evaluator) (ctx : Context) (e : FrameId) (form : Value) : Run Turn := do
  let form ← expand recur ctx e form
  Step.expanded recur ctx e form

end MiniLisp
