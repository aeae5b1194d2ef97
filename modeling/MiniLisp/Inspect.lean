import MiniLisp.Machine.Basic
import MiniLisp.Text.Spelled

/-!
# Inspection

The inspected text of a value, a failure or a frame names every part by its kind, with texts spelled out. It is what
the command line reports of a failure.

* `Value.inspect`, `EvalError.inspect`: values and failures.
* `Machine.describe`: a frame, by its names.
-/

namespace MiniLisp

open Text (spell)

/-- A kind with what is inspected inside it. -/
def tagged (kind inner : String) : String := kind ++ "(" ++ inner ++ ")"

/-- Inspected parts with a comma between each two. -/
def commas (parts : List String) : String := ", ".intercalate parts

def braces (inner : String) : String := "\x7b" ++ inner ++ "\x7d"

def brackets (inner : String) : String := "[" ++ inner ++ "]"

/-! ## Values -/

def Key.inspect : Key → String
  | keyword name => tagged "Keyword" (spell name)
  | text s => tagged "String" (spell s)

def inspectSymbol (name : String) : String := tagged "MalSymbol" (spell name)

def Params.inspect (p : Params) : String :=
  let others := match p.rest with
    | some name => tagged "Some" (inspectSymbol name)
    | none => "None"
  "ClosureParameters " ++
    braces (" positional: " ++ brackets (commas (p.positional.map inspectSymbol)) ++ ", others: " ++ others ++ " ")

namespace Value

mutual

/-- The inspected text of a value, if every atom in it has one. -/
def inspect (contents : AtomId → Option String) : Value → Option String
  | nil => some "Nil"
  | bool b => some (tagged "Bool" (if b then "true" else "false"))
  | int n => some (tagged "Integer" (String.ofList (Decimal.integer n.toInt)))
  | float x => some (tagged "Float" (String.ofList (layout.text x)))
  | text s => some (tagged "String" (spell s))
  | symbol name => some (tagged "Symbol" (inspectSymbol name))
  | keyword name => some (tagged "Keyword" (spell name))
  | list xs => (inspectItems contents xs).map fun ts => tagged "List" (tagged "MalList" (brackets (commas ts)))
  | vector xs => (inspectItems contents xs).map fun ts => tagged "Vector" (tagged "MalVector" (brackets (commas ts)))
  | map es => (inspectEntries contents es).map fun ts => tagged "Map" (tagged "MalMap" (braces (commas ts)))
  | builtin b => some (tagged "Primitive" ("primitive function #<" ++ b.name ++ ">"))
  | rooted b _ => some (tagged "Rooted" ("rooted primitive function #<" ++ b.name ++ ">"))
  | closure _ params body _ isMacro =>
    (inspect contents body).map fun t =>
      tagged "Closure" ("Closure" ++ braces ("parameters: " ++ params.inspect ++ ", body: " ++ t ++ ", is_macro: " ++
        (if isMacro then "true" else "false")))
  | atom a =>
    (contents a).map fun t =>
      tagged "Atom" ("Atom " ++ braces (" payload: RefCell " ++ braces (" value: " ++ t ++ " ") ++ " "))

def inspectItems (contents : AtomId → Option String) : List Value → Option (List String)
  | [] => some []
  | x :: xs =>
    match inspect contents x, inspectItems contents xs with
    | some t, some ts => some (t :: ts)
    | _, _ => none

def inspectEntries (contents : AtomId → Option String) : List (Key × Value) → Option (List String)
  | [] => some []
  | (k, x) :: es =>
    match inspect contents x, inspectEntries contents es with
    | some t, some ts => some ((k.inspect ++ ": " ++ t) :: ts)
    | _, _ => none

end

end Value

/-! ## Failures -/

def Arity.inspect : Arity → String
  | between least most => tagged "Between" s!"{least}..={most}"
  | atLeast least => tagged "AtLeast" s!"{least}.."

def ArityError.inspect (e : ArityError) : String :=
  "BadArgCount " ++ braces (" name: " ++ spell e.name ++ ", expected: " ++ e.expected.inspect ++ s!", got: {e.got} ")

def MapError.inspect : MapError → String
  | missingValue => "MissingValue"
  | badKey => "UnhashableKey"

def ReadError.inspect (e : ReadError) : String :=
  match e with
  | nothingToRead => "NothingToRead"
  | unbalanced what => tagged "UnbalancedInput" (spell what.name)
  | unexpected c => tagged "UnexpectedToken" ("'" ++ c.toString ++ "'")
  | badMap fault => tagged "BadMap" fault.inspect
  | badNumber _ | badString .. => tagged "MalformedLiteral" (spell (e.literal?.getD ""))

/-- A failure of the system, by its number, its kind and its wording. -/
def inspectSystem (code : Nat) (kind wording : String) : String :=
  "Os " ++ braces (s!" code: {code}, kind: " ++ kind ++ ", message: " ++ spell wording ++ " ")

def inspectOther (kind : String) (e : FileError) : String :=
  "Error " ++ braces (" kind: " ++ kind ++ ", message: " ++ spell e.message ++ " ")

def FileError.inspect (e : FileError) : String :=
  match e with
  | notFound => inspectSystem 2 "NotFound" "No such file or directory"
  | notADirectory => inspectSystem 20 "NotADirectory" "Not a directory"
  | isADirectory => inspectSystem 21 "IsADirectory" "Is a directory"
  | nameTooLong => inspectSystem 36 "InvalidFilename" "File name too long"
  | notText => inspectOther "InvalidData" e
  | nullInName => inspectOther "InvalidInput" e

def EvalError.inspect (contents : AtomId → Option String) : EvalError → Option String
  | unbound name => some (tagged "UnboundSymbol" (tagged "UnboundSymbol" (inspectSymbol name)))
  | badBindings fault => some (tagged "Let" fault.name)
  | badSignature fault => some (tagged "Fn" fault.name)
  | mismatch expected => some (tagged "TypeMismatch" expected.name)
  | badCount fault => some (tagged "BadArgCount" fault.inspect)
  | badTemplate fault => some (tagged "BadQuasiquote" fault.inspect)
  | badIndex index size => some (tagged "BadIndex" s!"{index.toInt}, 0..{size}")
  | badMap fault => some (tagged "Map" fault.inspect)
  | divisionByZero => some "DivideByZero"
  | expansionLimit steps => some (tagged "MacroExpansionLimit" s!"{steps}")
  | detached name => some (tagged "DetachedEnvironment" (spell name))
  | unreadable fault => some (tagged "ReadError" fault.inspect)
  | file fault => some (tagged "IOError" fault.inspect)
  | thrown payload => (payload.inspect contents).map (tagged "UserException")

/-! ## Frames -/

namespace Machine

/-- The inspected contents of an atom, if they nest no more than some atoms. -/
def inspectedWithin (m : Machine) : Nat → AtomId → Option String
  | 0, _ => none
  | depth + 1, a => (m.atomValue a).inspect (inspectedWithin m depth)

/-- The inspected contents of an atom. -/
def inspected (m : Machine) (a : AtomId) : Option String := m.inspectedWithin m.atoms.size a

/-- A frame by its names, in their order, and by whether it lies below another one. -/
def describe (m : Machine) (e : FrameId) : String :=
  let (names, below) :=
    match m.frames[e]? with
    | some f => (f.bindings.names, f.outer.isSome)
    | none => ([], false)
  let names := names.mergeSort fun a b => !Text.before b.toList a.toList
  "Environment " ++
    braces (" names: " ++ brackets (commas (names.map spell)) ++ ", outer: " ++
      (if below then "true" else "false") ++ " ")

end Machine

end MiniLisp
