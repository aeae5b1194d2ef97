import MiniLisp.Interpreter

/-!
# Scripts

A script is run by loading the file that its path names, with the arguments after the path at hand as a list of
texts. Whatever characters a path has, it is taken as a path only.

* `Script.launch`: a script run in a root.
* `Script.report`: what is said when a script fails.
-/

namespace MiniLisp.Script

/-- The text of the call that loads a file. -/
def command (path : String) : String := "(load-file " ++ String.ofList (Text.Quoted.literal path.toList) ++ ")"

/-- Makes arguments known to the program. -/
def provide (root : FrameId) (arguments : List String) : Run Unit :=
  Run.modify fun m => m.bind root Interpreter.argumentsName (.list (arguments.map .text))

/-- An outcome whose print is let go. -/
def discard (outcome : Outcome String) : Outcome Unit := outcome.map fun r => (r.1.map fun _ => (), r.2)

/-- Runs the script that a path names. What the file comes to is printed as at a prompt, but the print is not shown. -/
def launch (ctx : Context) (root : FrameId) (path : String) (arguments : List String) (m : Machine) : Outcome Unit :=
  let announced : Run Unit := do
    provide root arguments
    Run.record ctx .info (fun _ => some ("running script " ++ path))
  match Interpreter.ofRun announced m with
  | none => none
  | some (.error fault, m) => some (.error fault, m)
  | some (.ok _, m) => discard (Interpreter.rep ctx root (command path) m)

/-- What is said when a script fails. -/
def report (m : Machine) (fault : Failure) : Option String :=
  (fault.inspect? m).map fun t => "Error: " ++ tagged "Interpreter" t

end MiniLisp.Script
