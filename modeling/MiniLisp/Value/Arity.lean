/-!
# Arities and parameter lists

How many arguments something takes, and the parameters of a closure. In a list of names the rest marker may occur
once, and then last but one.

* `Arity.accepts_exactly`, `Arity.accepts_atLeast`: which counts an arity accepts.
-/

namespace MiniLisp

/-! ## Arities -/

/-- How many arguments are accepted. -/
inductive Arity
  | between (least most : Nat)
  | atLeast (least : Nat)
  deriving DecidableEq

namespace Arity

def exactly (n : Nat) : Arity := between n n

def accepts : Arity → Nat → Bool
  | between least most, n => least ≤ n && n ≤ most
  | atLeast least, n => least ≤ n

def text : Arity → String
  | between least most => if least = most then s!"exactly {least}" else s!"from {least} to {most}"
  | atLeast least => s!"at least {least}"

theorem accepts_exactly {k n : Nat} : (exactly k).accepts n = true ↔ n = k := by
  simp [exactly, accepts]
  omega

theorem accepts_atLeast {k n : Nat} : (atLeast k).accepts n = true ↔ k ≤ n := by
  simp [accepts]

end Arity

/-- A count of arguments, or of the elements of a form, that its arity does not accept. -/
structure ArityError where
  name : String
  expected : Arity
  got : Nat
  deriving DecidableEq

namespace ArityError

def message (e : ArityError) : String :=
  s!"When evaluating {e.name} expected {e.expected.text} arguments, but received {e.got} arguments"

end ArityError

/-! ## Parameter lists -/

/-- The name that announces a rest parameter. -/
def restMarker : String := "&"

/-- The parameters of a closure: some bound one argument each, and perhaps one bound to the list of all further
arguments. -/
structure Params where
  positional : List String
  rest : Option String
  deriving DecidableEq

/-- Why names are no parameter list. -/
inductive ParamsError
  | manyMarkers (count : Nat)
  | nothingAfterMarker
  | markerNotLastButOne
  deriving DecidableEq

namespace Params

/-- The parameter list that names spell. -/
def ofNames? (names : List String) : Except ParamsError Params :=
  match names.count restMarker with
  | 0 => .ok ⟨names, none⟩
  | 1 =>
    match names.reverse with
    | rest :: marker :: positional =>
      if marker = restMarker then .ok ⟨positional.reverse, some rest⟩ else .error .markerNotLastButOne
    | _ => .error .nothingAfterMarker
  | count => .error (.manyMarkers count)

/-- The names that spell a parameter list. -/
def names (p : Params) : List String :=
  match p.rest with
  | none => p.positional
  | some rest => p.positional ++ [restMarker, rest]

/-- The names with a space between each two. -/
def text (p : Params) : String := " ".intercalate p.names

def arity (p : Params) : Arity :=
  match p.rest with
  | none => .exactly p.positional.length
  | some _ => .atLeast p.positional.length

end Params

end MiniLisp
