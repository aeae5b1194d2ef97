import MiniLisp.Interpreter

/-!
# The terminal

At a prompt one line after another is read, evaluated and answered. A screen shows the prompts with the lines typed,
and the answers; a history keeps the lines, a line that repeats the one before it once.

* `Terminal.answer`: the answer to a line.
* `Terminal.screen`: what a screen of some width shows.
* `Terminal.history`: the lines that are kept.
-/

namespace MiniLisp.Terminal

/-- What stands before a line to be typed. -/
def promptText : String := "user> "

/-- The answer to a line: a print, a failure, or nothing if there is nothing to read. -/
def answer (ctx : Context) (root : FrameId) (line : String) (m : Machine) : Option (Option String × Machine) :=
  match Interpreter.rep ctx root line m with
  | none => none
  | some (.ok t, m) => some (some t, m)
  | some (.error (.read .nothingToRead), m) => some (none, m)
  | some (.error fault, m) => (fault.message? m).map fun t => (some ("Error: " ++ t), m)

/-- The answers to lines, one after another. -/
def answers (ctx : Context) (root : FrameId) :
    List String → Machine → Option (List (String × Option String) × Machine)
  | [], m => some ([], m)
  | line :: rest, m =>
    match answer ctx root line m with
    | none => none
    | some (reply, m) => (answers ctx root rest m).map fun r => ((line, reply) :: r.1, r.2)

/-! ## The screen -/

/-- The rows that a line takes on a screen of some width, at most `fuel` of them before the last. A row that is just
full is the last one if nothing follows in it. -/
def fold (width : Nat) : Nat → List Char → List (List Char)
  | 0, s => [s]
  | fuel + 1, s => if s.length ≤ width then [s] else s.take width :: fold width fuel (s.drop width)

/-- The rows of a text, without blanks at their ends. -/
def rows (width : Nat) (s : String) : List String :=
  ((s.toList.splitOn '\n').flatMap fun line => fold width line.length line).map fun row =>
    String.ofList (row.reverse.dropWhile (· = ' ')).reverse

/-- The rows of a prompt with a line typed behind it. The cursor stands behind the line and takes a place as a blank
does, so after a line that just fills its row a row is left empty. -/
def typedRows (width : Nat) (line : String) : List String := rows width (promptText ++ line ++ " ")

/-- What a screen shows at the end of lines and answers: the last row is a prompt. -/
def screen (width : Nat) (transcript : List (String × Option String)) : List String :=
  (transcript.flatMap fun t => typedRows width t.1 ++ t.2.toList.flatMap (rows width)) ++ typedRows width ""

/-! ## The history -/

/-- The lines without those that repeat the line before them. -/
def distinct : List String → List String
  | [] => []
  | [line] => [line]
  | a :: b :: rest => if a = b then distinct (b :: rest) else a :: distinct (b :: rest)

/-- The text of the history: each line kept ends with a line break. -/
def history (typed : List String) : String := String.join ((distinct typed).map fun line => line ++ "\n")

end MiniLisp.Terminal
