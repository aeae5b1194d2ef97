import MiniLisp.Builtin.Arithmetic
import MiniLisp.Builtin.Convert
import MiniLisp.Builtin.Sequence
import MiniLisp.Builtin.Table
import MiniLisp.Eval.Run
import MiniLisp.Value.Equality

/-!
# Running a builtin

What the ordinary builtins do, given as many arguments as they accept.

* `Builtin.run`: one builtin at work.
-/

namespace MiniLisp

/-- The texts of values with something between each two. -/
def Run.joined (mode : Mode) (between : String) (args : List Value) : Run String :=
  Run.gets? fun m => (args.mapM fun v => m.text? mode v).map fun ts => between.intercalate ts

namespace Cell

/-- The atom that a value is. -/
def atom : Value → Except EvalError AtomId
  | .atom a => .ok a
  | _ => .error (.mismatch .atom)

def make (v : Value) : Run Value := do
  let a ← Run.change fun m => m.addAtom v
  return .atom a

def deref (v : Value) : Run Value := do
  let a ← Run.ofExcept (atom v)
  Run.gets fun m => m.atomValue a

def reset (cell v : Value) : Run Value := do
  let a ← Run.ofExcept (atom cell)
  Run.modify fun m => m.setAtom a v
  return v

end Cell

namespace Builtin

/-- What stands before the path where the reading of a file is recorded. -/
def slurpNote : String := "slurp "

/-- The text of the file that a path names. -/
def slurpFile (ctx : Context) (v : Value) : Run Value := do
  let path ← Run.ofExcept (Convert.string v)
  Run.record ctx .info (fun _ => some (slurpNote ++ path))
  match ctx.files path with
  | .ok s => return .text s
  | .error fault => Run.fail (.file fault)

/-- Prints values on a line of their own. -/
def printLine (mode : Mode) (args : List Value) : Run Value := do
  let line ← Run.joined mode " " args
  Run.modify fun m => m.printLine line
  return .nil

/-- A builtin at work. The last case, a count of arguments that the builtin does not accept, does not arise in a
call. -/
def run (ctx : Context) : Builtin → List Value → Run Value
  | add, args => Run.ofExcept (Arithmetic.sum args)
  | subtract, args => Run.ofExcept (Arithmetic.difference args)
  | multiply, args => Run.ofExcept (Arithmetic.product args)
  | divide, args => Run.ofExcept (Arithmetic.quotient args)
  | equal, [x, y] => return .bool (x.equal y)
  | greater, [x, y] => Run.ofExcept (Arithmetic.comparison (fun a b => b.less a) x y)
  | greaterEqual, [x, y] => Run.ofExcept (Arithmetic.comparison (fun a b => b.lessEqual a) x y)
  | less, [x, y] => Run.ofExcept (Arithmetic.comparison Number.less x y)
  | lessEqual, [x, y] => Run.ofExcept (Arithmetic.comparison Number.lessEqual x y)
  | prStr, args => return .text (← Run.joined .readable " " args)
  | str, args => return .text (← Run.joined .plain "" args)
  | prn, args => printLine .readable args
  | println, args => printLine .plain args
  | readString, [v] => Run.ofExcept (Convert.readString v)
  | slurp, [v] => slurpFile ctx v
  | list, args => return .list args
  | vector, args => return .vector args
  | vec, [v] => Run.ofExcept (Sequence.vec v)
  | cons, [x, s] => Run.ofExcept (Sequence.cons x s)
  | concat, args => Run.ofExcept (Sequence.concat args)
  | nth, [s, i] => Run.ofExcept (Sequence.nth s i)
  | first, [s] => Run.ofExcept (Sequence.first s)
  | rest, [s] => Run.ofExcept (Sequence.rest s)
  | isEmpty, [s] => Run.ofExcept (Sequence.isEmpty s)
  | count, [s] => Run.ofExcept (Sequence.count s)
  | hashMap, args => Run.ofExcept (Table.hashMap args)
  | assoc, m :: args => Run.ofExcept (Table.assoc m args)
  | dissoc, m :: args => Run.ofExcept (Table.dissoc m args)
  | get, [m, k] => Run.ofExcept (Table.get m k)
  | contains, [m, k] => Run.ofExcept (Table.contains m k)
  | keys, [m] => Run.ofExcept (Table.keys m)
  | vals, [m] => Run.ofExcept (Table.vals m)
  | atom, [v] => Cell.make v
  | deref, [v] => Cell.deref v
  | reset, [cell, v] => Cell.reset cell v
  | isNil, [v] => return .bool (Convert.isNil v)
  | isTrue, [v] => return .bool (Convert.isTrue v)
  | isFalse, [v] => return .bool (Convert.isFalse v)
  | isList, [v] => return .bool (Convert.isList v)
  | isVector, [v] => return .bool (Convert.isVector v)
  | isSequential, [v] => return .bool (Convert.isSequential v)
  | isAtom, [v] => return .bool (Convert.isAtom v)
  | symbol, [v] => Run.ofExcept (Convert.symbol v)
  | isSymbol, [v] => return .bool (Convert.isSymbol v)
  | keyword, [v] => Run.ofExcept (Convert.keyword v)
  | isKeyword, [v] => return .bool (Convert.isKeyword v)
  | isMap, [v] => return .bool (Convert.isMap v)
  | isFunction, [v] => return .bool (Convert.isFunction v)
  | isMacro, [v] => return .bool v.expands
  | isString, [v] => return .bool (Convert.isString v)
  | isNumber, [v] => return .bool (Convert.isNumber v)
  | throw, [v] => Run.fail (.thrown v)
  | b, args => Run.fail (.badCount ⟨b.name, b.arity, args.length⟩)

end Builtin

end MiniLisp
