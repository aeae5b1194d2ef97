import MiniLisp.Text.Quoted
import MiniLisp.Value.Entries
import MiniLisp.Value.Print

/-!
# Faults and their messages

Why a text does not read (`ReadError`), why a file has no text (`FileError`) and why an evaluation fails
(`EvalError`). Each constructor is a cause; the wording stands in one function for each type.
-/

namespace MiniLisp

/-! ## Reading -/

/-- What is still open where a text ends. -/
inductive Unfinished
  | string | list | vector | map | form
  deriving DecidableEq

/-- Why a text does not read. -/
inductive ReadError
  | nothingToRead
  | unbalanced (what : Unfinished)
  | unexpected (c : Char)
  | badNumber (chars : List Char)
  | badString (contents : List Char) (fault : Text.Quoted.Fault)
  | badMap (fault : MapError)
  deriving DecidableEq

namespace Unfinished

def name : Unfinished → String
  | string => "string"
  | list => "list"
  | vector => "vector"
  | map => "map"
  | form => "form"

end Unfinished

/-- The wording of a fault inside quotes. -/
def Text.Quoted.Fault.message : Text.Quoted.Fault → String
  | .unknownEscape c => "unknown escape sequence \\" ++ c.toString
  | .loneBackslash => "string ends with a lone backslash"

namespace ReadError

/-- A literal that is not well formed, as it is named in messages. -/
def literal? : ReadError → Option String
  | badNumber chars => some (String.ofList chars)
  | badString contents fault => some ("\"" ++ String.ofList contents ++ "\" (" ++ fault.message ++ ")")
  | _ => none

def message (e : ReadError) : String :=
  match e with
  | nothingToRead => "nothing to read"
  | unbalanced what => "unbalanced " ++ what.name ++ ": reached EOF"
  | unexpected c => "unexpected '" ++ c.toString ++ "'"
  | badMap .missingValue => "map literal is missing a value"
  | badMap .badKey => "map keys must be strings or keywords"
  | badNumber _ | badString .. => "malformed literal " ++ (literal? e).getD ""

end ReadError

/-! ## Files -/

/-- Why a file has no text. -/
inductive FileError
  | notFound
  | notADirectory
  | isADirectory
  | nameTooLong
  | notText
  | nullInName
  deriving DecidableEq

namespace FileError

def message : FileError → String
  | notFound => "No such file or directory (os error 2)"
  | notADirectory => "Not a directory (os error 20)"
  | isADirectory => "Is a directory (os error 21)"
  | nameTooLong => "File name too long (os error 36)"
  | notText => "stream did not contain valid UTF-8"
  | nullInName => "file name contained an unexpected NUL byte"

end FileError

/-! ## Evaluating -/

/-- What a value was expected to be and is not. -/
inductive Mismatch
  | number | int | sequence | symbol | string | atom | map | key | keywordName | callable | closure
  deriving DecidableEq

namespace Mismatch

def name : Mismatch → String
  | number => "NotANumber"
  | int => "NotAnInt"
  | sequence => "NotASequence"
  | symbol => "NotASymbol"
  | string => "NotAString"
  | atom => "NotAnAtom"
  | map => "NotAMap"
  | key => "NotAValidKey"
  | keywordName => "NotIntoKeyword"
  | callable => "NotCallable"
  | closure => "NotAClosure"

end Mismatch

/-- Why the first operand of `let*` is no list of bindings. -/
inductive BindingsError
  | notASequence
  | oddLength
  deriving DecidableEq

namespace BindingsError

def name : BindingsError → String
  | notASequence => "BindingsNotSequence"
  | oddLength => "BindingsOddLength"

end BindingsError

namespace ParamsError

def name : ParamsError → String
  | manyMarkers count => s!"TooManyAmpersands({count})"
  | nothingAfterMarker => "TooShortForAmpersand"
  | markerNotLastButOne => "AmpersandPositionNotPenultimate"

end ParamsError

/-- Why the first operand of `fn*` is no parameter list. -/
inductive SignatureError
  | notASequence
  | notASymbol
  | badRest (fault : ParamsError)
  deriving DecidableEq

namespace SignatureError

def name : SignatureError → String
  | notASequence => "ParametersNotGivenAsList"
  | notASymbol => "ParameterNotASymbol"
  | badRest fault => "BadVariadic(" ++ fault.name ++ ")"

end SignatureError

/-- Why an evaluation fails. -/
inductive EvalError
  | unbound (name : String)
  | badBindings (fault : BindingsError)
  | badSignature (fault : SignatureError)
  | mismatch (expected : Mismatch)
  | badCount (fault : ArityError)
  | badTemplate (fault : ArityError)
  | badIndex (index : Int64) (size : Nat)
  | badMap (fault : MapError)
  | divisionByZero
  | expansionLimit (steps : Nat)
  | detached (name : String)
  | unreadable (fault : ReadError)
  | file (fault : FileError)
  | thrown (payload : Value)

namespace EvalError

/-- The wording of a failure, if a thrown value has a text. -/
def message (contents : AtomId → Option (List Char)) : EvalError → Option String
  | unbound name => some ("'" ++ name ++ "' not found")
  | badBindings fault => some ("let*: " ++ fault.name)
  | badSignature fault => some ("fn*: " ++ fault.name)
  | mismatch expected => some ("type mismatch: " ++ expected.name)
  | badCount fault => some fault.message
  | badTemplate fault => some ("quasiquote: " ++ fault.message)
  | badIndex index size => some s!"bad index: {index.toInt} not in range [0, {size})"
  | badMap .missingValue => some "map is missing a value"
  | badMap .badKey => some "map keys must be strings or keywords"
  | divisionByZero => some "cannot divide by zero!"
  | expansionLimit steps => some s!"macro expansion did not finish after {steps} steps"
  | detached name => some (name ++ ": the environment it was defined in no longer exists")
  | unreadable fault => some ("read error: " ++ fault.message)
  | file fault => some ("io error: " ++ fault.message)
  | thrown payload => (payload.render .readable contents).map fun t => "UserException: " ++ String.ofList t

end EvalError

end MiniLisp
