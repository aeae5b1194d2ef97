import MiniLisp.Eval.Evaluate
import MiniLisp.Inspect
import MiniLisp.Machine.Print

/-!
# The interpreter

A source text is read, its first form is evaluated in a frame, and the value is printed. A root frame starts with the
builtins, an empty list of arguments and the definitions of the prelude.

* `Interpreter.evaluateText`: a text read and evaluated.
* `Interpreter.rep`: a text read, evaluated and printed.
* `Interpreter.newRoot`: a new root frame.
-/

namespace MiniLisp

/-- Why a source text has no value. -/
inductive Failure
  | read (fault : ReadError)
  | eval (fault : EvalError)

namespace Failure

/-- The wording of a failure, if the print of what it shows ends. -/
def message? (m : Machine) : Failure → Option String
  | read fault => some fault.message
  | eval fault => m.message? fault

def inspect? (m : Machine) : Failure → Option String
  | read fault => some (tagged "Read" fault.inspect)
  | eval fault => (fault.inspect m.inspected).map (tagged "Eval")

end Failure

/-- What becomes of a request to the interpreter, with the machine it leaves behind; `none` if it does not end. -/
abbrev Outcome (α : Type) := Option (Except Failure α × Machine)

namespace Interpreter

/-- A run on behalf of the interpreter. -/
def ofRun {α : Type} (x : Run α) (m : Machine) : Outcome α :=
  (x m).map fun r =>
    match r with
    | (.ok a, m) => (.ok a, m)
    | (.error fault, m) => (.error (.eval fault), m)

/-- The first form of a text, handed to what is done with it. -/
def withForm {α : Type} (source : String) (go : Value → Machine → Outcome α) (m : Machine) : Outcome α :=
  match Value.read? source.toList with
  | .error fault => some (.error (.read fault), m)
  | .ok form => go form m

/-- The value that the first form of a text has in a frame. -/
def evaluateText (ctx : Context) (e : FrameId) (source : String) (m : Machine) : Outcome Value :=
  withForm source (fun form => ofRun (evaluate ctx e form)) m

/-- The print of what an evaluation gives. Where the print has no end, nothing becomes of the request. -/
def printed (outcome : Outcome Value) : Outcome String :=
  match outcome with
  | none => none
  | some (.error fault, m) => some (.error fault, m)
  | some (.ok v, m) => (m.print .readable v).map fun t => (.ok (String.ofList t), m)

/-- The first form of a text read, evaluated in a frame and printed. -/
def rep (ctx : Context) (e : FrameId) (source : String) (m : Machine) : Outcome String :=
  printed (evaluateText ctx e source m)

/-! ## Roots -/

/-- The variable that holds the arguments of a program. -/
def argumentsName : String := "*ARGV*"

/-- The text of a program as one form, which evaluates every form of it and then nil. -/
def program (source : String) : String := "(do " ++ source ++ "\nnil)"

/-- The definitions of a root that are written in the language itself. -/
def preludeText : String :=
  "(def! not (fn* (a) (if a false true)))

(def! load-file
  (fn* (f) (eval (read-string (str \"(do \" (slurp f) \"\\nnil)\")))))

(defmacro! cond
  (fn* (& xs)
    (if (> (count xs) 0)
      (list 'if (first xs)
        (if (> (count xs) 1)
          (nth xs 1)
          (throw \"odd number of forms to cond\"))
        (cons 'cond (rest (rest xs)))))))
"

/-- What a root binds before the prelude. -/
def rootBindings (root : FrameId) : Bindings :=
  Builtin.all.map (fun b => (b.name, .builtin b)) ++ Rooted.all.map (fun b => (b.name, .rooted b root)) ++
    [(argumentsName, .list [])]

/-- Evaluates the prelude in a root. -/
def loadPrelude (ctx : Context) (root : FrameId) : Run Unit := do
  match Value.read? (program preludeText).toList with
  | .error fault => Run.fail (.unreadable fault)
  | .ok form =>
    let _ ← evaluate ctx root form
    Run.record ctx .debug (fun _ => some "prelude loaded")

/-- A new root frame. -/
def newRoot (ctx : Context) : Run FrameId := do
  let root ← Run.change fun m => m.addFrame (rootBindings m.frames.size) none
  loadPrelude (ctx.holdFrame root) root
  return root

/-- A machine with one root frame, and the number of that frame. -/
def boot (ctx : Context) : Outcome FrameId := ofRun (newRoot ctx) Machine.empty

end Interpreter

end MiniLisp
