import MiniLisp.Error

/-!
# Sequences

Lists and vectors are sequences; most builtins take nil for the empty one.

* `elements`: the elements of a sequence or of nil.
-/

namespace MiniLisp.Sequence

/-- The elements of a list or a vector. -/
def strict (v : Value) : Except EvalError (List Value) :=
  match v.items? with
  | some xs => .ok xs
  | none => .error (.mismatch .sequence)

/-- The elements of a list, a vector or nil. -/
def elements : Value → Except EvalError (List Value)
  | .nil => .ok []
  | v => strict v

/-- A vector stays as it is. -/
def vec (v : Value) : Except EvalError Value := (elements v).map .vector

def isEmpty (v : Value) : Except EvalError Value := (elements v).map fun xs => .bool xs.isEmpty

def count (v : Value) : Except EvalError Value := (elements v).map fun xs => .int (Int64.ofNat xs.length)

def cons (x s : Value) : Except EvalError Value := (elements s).map fun xs => .list (x :: xs)

def concat (args : List Value) : Except EvalError Value := (args.mapM elements).map fun xss => .list xss.flatten

/-- The first element, or nil. -/
def first (s : Value) : Except EvalError Value := (elements s).map fun xs => xs.headD .nil

def rest (s : Value) : Except EvalError Value := (elements s).map fun xs => .list xs.tail

/-- The element at an index, counted from zero. -/
def nth (s i : Value) : Except EvalError Value :=
  match strict s with
  | .error e => .error e
  | .ok xs =>
    match i with
    | .int n =>
      match (if n.toInt < 0 then none else xs[n.toInt.toNat]?) with
      | some x => .ok x
      | none => .error (.badIndex n xs.length)
    | _ => .error (.mismatch .int)

end MiniLisp.Sequence
