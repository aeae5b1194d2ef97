import MiniLisp.Script
import MiniLisp.Terminal

/-!
# The command line

With a path the script there is run, and the arguments after it are handed to it; without one, lines are read from
standard input and answered. Evaluation itself reads no file: where it asks for one that is not at hand yet, the file
is read and the evaluation is done again.
-/

namespace MiniLisp.CommandLine

/-- What reading some paths has given. -/
abbrev Known := List (String × Except FileError String)

/-- A path that has not been read yet counts as naming no file. -/
def files (known : Known) : Files := fun path => (known.lookup path).getD (.error .notFound)

/-- The paths that a run asked for, by its records. -/
def pathsRead (m : Machine) : List String :=
  m.records.toList.filterMap fun r =>
    if r.level = .info then (r.message.dropPrefix? Builtin.slurpNote).map (·.toString) else none

def context (known : Known) (held : Holds) : Context := ⟨files known, some .info, held⟩

/-- The fault that a failure of the system stands for. -/
def fault : IO.Error → FileError
  | .inappropriateType _ code _ =>
    if code = 21 then .isADirectory else .notADirectory
  | .invalidArgument _ code _ => if code = 36 then .nameTooLong else .notFound
  | _ => .notFound

/-- Reads one file. -/
def readFile (path : String) : IO (Except FileError String) := do
  if path.toList.contains '\x00' then return .error .nullInName
  try
    match String.fromUTF8? (← IO.FS.readBinFile path) with
    | some s => return .ok s
    | none => return .error .notText
  catch e => return .error (fault e)

/-- Repeats an evaluation until every file that it asks for is at hand. -/
partial def withFiles {α : Type} (go : Known → Option (α × Machine)) (known : Known) :
    IO (Option (α × Machine)) := do
  match go known with
  | none => return none
  | some (a, m) =>
    match (pathsRead m).find? fun path => (known.lookup path).isNone with
    | none => return some (a, m)
    | some path => withFiles go ((path, ← readFile path) :: known)

/-- The machine with nothing printed and nothing recorded so far. -/
def quiet (m : Machine) : Machine := { m with printed := "", records := #[] }

/-- Runs a script; the result is the exit code. -/
def runScript (root : FrameId) (m : Machine) (path : String) (arguments : List String) : IO UInt32 := do
  let held := Holds.none.frame root
  match ← withFiles (fun known => Script.launch (context known held) root path arguments m) [] with
  | none => return 1
  | some (result, m) =>
    IO.print m.printed
    match result with
    | .ok _ => return 0
    | .error fault =>
      IO.eprintln ((Script.report m fault).getD "")
      return 1

/-- Answers lines until there are no more. -/
partial def converse (root : FrameId) (m : Machine) : IO UInt32 := do
  IO.print Terminal.promptText
  (← IO.getStdout).flush
  let line ← (← IO.getStdin).getLine
  if line.isEmpty then return 0
  let held := Holds.none.frame root
  let line := if line.endsWith "\n" then (line.dropEnd 1).toString else line
  match ← withFiles (fun known => Terminal.answer (context known held) root line m) [] with
  | none => return 1
  | some (reply, m) =>
    IO.print m.printed
    if let some t := reply then IO.println t
    converse root (quiet m)

end MiniLisp.CommandLine

open MiniLisp in
def main (arguments : List String) : IO UInt32 := do
  match Interpreter.boot (CommandLine.context [] .none) with
  | some (.ok root, m) =>
    match arguments with
    | path :: rest => CommandLine.runScript root (CommandLine.quiet m) path rest
    | [] => CommandLine.converse root (CommandLine.quiet m)
  | _ => return 1
