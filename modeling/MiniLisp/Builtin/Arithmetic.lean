import MiniLisp.Error
import MiniLisp.Value.Number

/-!
# Arithmetic

The arithmetic builtins fold over any number of numbers from the left. All arguments have to be numbers, whatever
else is wrong.

* `sum`, `difference`, `product`, `quotient`: the four operations.
* `comparison`: the order of two numbers.
-/

namespace MiniLisp.Arithmetic

/-- The number that a value is. -/
def number (v : Value) : Except EvalError Number :=
  match Number.ofValue? v with
  | some x => .ok x
  | none => .error (.mismatch .number)

def numbers (args : List Value) : Except EvalError (List Number) := args.mapM number

def sum (args : List Value) : Except EvalError Value :=
  (numbers args).map fun xs => (xs.foldl Number.add (.int 0)).toValue

def product (args : List Value) : Except EvalError Value :=
  (numbers args).map fun xs => (xs.foldl Number.multiply (.int 1)).toValue

/-- The first number less all others; one number alone is taken from zero. -/
def difference (args : List Value) : Except EvalError Value :=
  (numbers args).map fun xs =>
    match xs with
    | [] => .int 0
    | [x] => (Number.subtract (.int 0) x).toValue
    | x :: rest => (rest.foldl Number.subtract x).toValue

def divide (x y : Number) : Except EvalError Number :=
  match x.divide? y with
  | some z => .ok z
  | none => .error .divisionByZero

/-- The first number divided by all others in turn; one is divided by a number alone. -/
def quotient (args : List Value) : Except EvalError Value :=
  match numbers args with
  | .error e => .error e
  | .ok [] => .ok (.int 1)
  | .ok [x] => (divide (.int 1) x).map Number.toValue
  | .ok (x :: rest) => (rest.foldlM divide x).map Number.toValue

/-- How two numbers compare. -/
def comparison (holds : Number → Number → Bool) (x y : Value) : Except EvalError Value :=
  match number x, number y with
  | .ok x, .ok y => .ok (.bool (holds x y))
  | .error e, _ => .error e
  | _, .error e => .error e

end MiniLisp.Arithmetic
