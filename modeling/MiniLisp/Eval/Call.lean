import MiniLisp.Builtin.Run

/-!
# Calls

What happens when a value is applied to arguments. A builtin does its work at once; a closure binds its parameters in
a new frame below the one it captured, and its body is left to be evaluated there. How a form is evaluated is a
parameter here (`recur`), so that each call is a plain definition.

* `Call.apply`: a call up to the body of a closure.
* `Call.finish`: a call to its end.
-/

namespace MiniLisp

/-- What one step of an evaluation comes to: a value, or a form to be evaluated instead, and where. -/
inductive Turn
  | done (v : Value)
  | again (e : FrameId) (form : Value)

/-- How a form is evaluated in a frame. -/
abbrev Evaluator := Context → FrameId → Value → Run Value

/-- What is left to do after a step. A form that is left is evaluated in a context of its own. -/
@[inline]
def Turn.next (recur : Evaluator) (after : FrameId → Value → Context) : Turn → Run Value
  | .done v => Run.pure v
  | .again e form => recur (after e form) e form

namespace Params

/-- The bindings of parameters to arguments. Of equal names the last counts. -/
def bindings (p : Params) (args : List Value) : Bindings :=
  let bs := Bindings.insertAll [] (p.positional.zip args)
  match p.rest with
  | none => bs
  | some rest => bs.insert rest (.list (args.drop p.positional.length))

end Params

namespace Call

/-- A failure unless the count of arguments is accepted. -/
def checkCount (name : String) (arity : Arity) (args : List Value) : Run Unit :=
  if arity.accepts args.length then return () else Run.fail (.badCount ⟨name, arity, args.length⟩)

/-- Arguments as records show them. -/
def argsText : List Value → Message
  | [] => fun _ => some "no args"
  | [v] => Message.value "" v
  | args => fun contents => (Message.joined "\n\t" args contents).map fun t => "\n\t" ++ t

/-- What is called, and with which arguments. -/
def callText (what : Message) (args : List Value) : Message := fun contents => do
  return "Call " ++ (← what contents) ++ " with " ++ (← argsText args contents)

def recordCall (ctx : Context) (what : Message) (args : List Value) : Run Unit :=
  Run.record ctx .trace (callText what args)

/-! ## Builtins -/

/-- An ordinary builtin at work, with records of its arguments and of what it comes to. -/
def builtin (ctx : Context) (b : Builtin) (args : List Value) : Run Value := do
  checkCount b.name b.arity args
  recordCall ctx (fun _ => some b.name) args
  Run.observe (b.run ctx args)
    (fun v => Run.recordValue ctx .trace ("Call to " ++ b.name ++ " resulted in ") v)
    (fun e => Run.record ctx .trace fun contents =>
      (e.message contents).map fun t => "Call to " ++ b.name ++ " failed: " ++ t)

/-- The form that `swap!` evaluates: what the function gives for the contents of the atom and the further arguments is
put into the atom. Values are quoted, lest they be evaluated again. -/
def swapForm (cell f contents : Value) (args : List Value) : Value :=
  .list [.symbol "reset!", cell, .list (f :: contents.quoted :: args.map Value.quoted)]

/-- A rooted builtin at work in its root. -/
def inRoot (recur : Evaluator) (ctx : Context) (root : FrameId) : Rooted → List Value → Run Value
  | .eval, [form] => do
    Run.recordValue ctx .info "Call from mal to EVAL with " form
    recur ctx root form
  | .swap, cell :: f :: args => do
    let a ← Run.ofExcept (Cell.atom cell)
    if f.callable then
      let form := swapForm cell f (← Run.gets fun m => m.atomValue a) args
      Run.recordValue ctx .trace "swap! evaluates " form
      recur (ctx.holdValue form) root form
    else Run.fail (.mismatch .callable)
  | b, args => Run.fail (.badCount ⟨b.name, b.arity, args.length⟩)

section

variable {recur : Evaluator} {ctx : Context} {root : FrameId} {args : List Value} {m : Machine}

/-- `swap!` looks at its first argument first. -/
theorem inRoot_swap_of_ne {cell : Value} (h : ∀ a, cell ≠ .atom a) (f : Value) :
    inRoot recur ctx root .swap (cell :: f :: args) m = some (.error (.mismatch .atom), m) := by
  cases cell with
  | atom a => exact absurd rfl (h a)
  | _ => rfl

/-- `swap!` of an atom and something callable evaluates a form in the root. -/
theorem inRoot_swap {f : Value} (h : f.callable = true) (a : AtomId) :
    inRoot recur ctx root .swap (.atom a :: f :: args) m =
      Run.bind (Run.recordValue ctx .trace "swap! evaluates " (swapForm (.atom a) f (m.atomValue a) args))
        (fun _ => recur (ctx.holdValue (swapForm (.atom a) f (m.atomValue a) args)) root
          (swapForm (.atom a) f (m.atomValue a) args)) m := by
  change (if f.callable then _ else _ : Run Value) m = _
  rw [if_pos h]
  rfl

/-- Only then does it look at its second argument. -/
theorem inRoot_swap_of_not_callable {f : Value} (h : f.callable = false) (a : AtomId) :
    inRoot recur ctx root .swap (.atom a :: f :: args) m = some (.error (.mismatch .callable), m) := by
  change (if f.callable then _ else _ : Run Value) m = _
  rw [h]
  rfl

end

theorem swap_accepts (cell f : Value) (args : List Value) :
    Rooted.swap.arity.accepts (cell :: f :: args).length = true :=
  Arity.accepts_atLeast.2 (Nat.le_add_left 2 args.length)

/-- A rooted builtin, if its root is still there. -/
def rooted (recur : Evaluator) (ctx : Context) (b : Rooted) (root : FrameId) (args : List Value) : Run Value := do
  checkCount b.name b.arity args
  if ← Run.gets fun m => m.isAlive ctx.held root then
    recordCall ctx (fun _ => some b.name) args
    inRoot recur (ctx.holdFrame root) root b args
  else Run.fail (.detached b.name)

section

variable {recur : Evaluator} {ctx : Context} {b : Rooted} {root : FrameId} {args : List Value} {m : Machine}

/-- With the right count of arguments, a call is decided by whether the root is alive. -/
theorem rooted_of_count (hn : b.arity.accepts args.length = true) :
    rooted recur ctx b root args m =
      (if m.isAlive ctx.held root then
        Run.bind (recordCall ctx (fun _ => some b.name) args) fun _ => inRoot recur (ctx.holdFrame root) root b args
      else Run.fail (.detached b.name) : Run Value) m := by
  unfold rooted
  rw [checkCount, if_pos hn]
  rfl

theorem rooted_of_alive (hn : b.arity.accepts args.length = true) (ha : m.isAlive ctx.held root = true) :
    rooted recur ctx b root args m =
      Run.bind (recordCall ctx (fun _ => some b.name) args) (fun _ =>
        inRoot recur (ctx.holdFrame root) root b args) m := by
  rw [rooted_of_count hn, if_pos ha]

/-- A root that nothing owns any more serves no call. -/
theorem rooted_of_gone (hn : b.arity.accepts args.length = true) (ha : m.isAlive ctx.held root = false) :
    rooted recur ctx b root args m = some (.error (.detached b.name), m) := by
  rw [rooted_of_count hn, ha]
  rfl

/-- The count is checked before the root is asked for. -/
theorem rooted_of_badCount (hn : b.arity.accepts args.length = false) :
    rooted recur ctx b root args m = some (.error (.badCount ⟨b.name, b.arity, args.length⟩), m) := by
  unfold rooted
  rw [checkCount, hn]
  rfl

end

/-! ## Closures -/

/-- A closure written as the form that makes it. -/
def closureText (params : Params) (body : Value) (isMacro : Bool) : Message := fun contents =>
  let start := if isMacro then "(macro (" else "(fn* ("
  (Message.value (start ++ params.text ++ ") ") body contents).map fun t => t ++ ")"

/-- A new frame below the captured one, with the parameters bound to the arguments. -/
def enter (params : Params) (captured : FrameId) (args : List Value) : Run FrameId := do
  checkCount "closure" params.arity args
  Run.change fun m => m.addFrame (params.bindings args) (some captured)

/-- A call enters a new frame, inside the captured one, with the parameters bound. -/
theorem enter_eq {params : Params} {args : List Value} (hn : params.arity.accepts args.length = true)
    (captured : FrameId) (m : Machine) :
    enter params captured args m =
      some (.ok m.frames.size, (m.addFrame (params.bindings args) (some captured)).2) := by
  unfold enter
  rw [checkCount, if_pos hn]
  rfl

/-- With a wrong count no frame is made. -/
theorem enter_of_badCount {params : Params} {args : List Value} (hn : params.arity.accepts args.length = false)
    (captured : FrameId) (m : Machine) :
    enter params captured args m = some (.error (.badCount ⟨"closure", params.arity, args.length⟩), m) := by
  unfold enter
  rw [checkCount, hn]
  rfl

/-! ## Any value -/

/-- A value applied to arguments, up to the body of a closure. -/
def apply (recur : Evaluator) (ctx : Context) (f : Value) (args : List Value) : Run Turn :=
  match f with
  | .builtin b => return .done (← builtin ctx b args)
  | .rooted b root => return .done (← rooted recur (ctx.holdItems (f :: args)) b root args)
  | .closure _ params body captured isMacro => do
    recordCall ctx (closureText params body isMacro) args
    return .again (← enter params captured args) body
  | _ => Run.fail (.mismatch .callable)

theorem apply_builtin (recur : Evaluator) (ctx : Context) (b : Builtin) (args : List Value) :
    apply recur ctx (.builtin b) args = Run.bind (builtin ctx b args) fun v => Run.pure (.done v) := rfl

theorem apply_rooted (recur : Evaluator) (ctx : Context) (b : Rooted) (root : FrameId) (args : List Value) :
    apply recur ctx (.rooted b root) args =
      Run.bind (rooted recur (ctx.holdItems (.rooted b root :: args)) b root args) fun v => Run.pure (.done v) := rfl

/-- The body of a closure is left to the caller, in the frame that was entered. -/
theorem apply_closure (recur : Evaluator) (ctx : Context) (id : ClosureId) (params : Params) (body : Value)
    (captured : FrameId) (isMacro : Bool) (args : List Value) :
    apply recur ctx (.closure id params body captured isMacro) args =
      Run.bind (recordCall ctx (closureText params body isMacro) args) fun _ =>
        Run.bind (enter params captured args) fun e => Run.pure (.again e body) := rfl

/-- A value applied to arguments, to the end. All that takes part in the call is held until then. -/
def finish (recur : Evaluator) (ctx : Context) (f : Value) (args : List Value) : Run Value :=
  Run.bind (apply recur ctx f args) (Turn.next recur (ctx.holdCall f args))

end Call

end MiniLisp
