import MiniLisp.Reader

/-!
# Tests and conversions

Builtins that ask what a value is, or make one kind of value from another.
-/

namespace MiniLisp.Convert

def isNil : Value → Bool
  | .nil => true
  | _ => false

def isTrue : Value → Bool
  | .bool b => b
  | _ => false

def isFalse : Value → Bool
  | .bool b => !b
  | _ => false

def isList : Value → Bool
  | .list _ => true
  | _ => false

def isVector : Value → Bool
  | .vector _ => true
  | _ => false

def isSequential (v : Value) : Bool := v.items?.isSome

def isAtom : Value → Bool
  | .atom _ => true
  | _ => false

def isSymbol : Value → Bool
  | .symbol _ => true
  | _ => false

def isKeyword : Value → Bool
  | .keyword _ => true
  | _ => false

def isMap : Value → Bool
  | .map _ => true
  | _ => false

/-- Whether a value can be called and is no macro. -/
def isFunction (v : Value) : Bool := v.callable && !v.expands

def isString : Value → Bool
  | .text _ => true
  | _ => false

def isNumber : Value → Bool
  | .int _ | .float _ => true
  | _ => false

/-- The text that a value is. -/
def string : Value → Except EvalError String
  | .text s => .ok s
  | _ => .error (.mismatch .string)

def symbol (v : Value) : Except EvalError Value := (string v).map .symbol

/-- A keyword stays as it is. -/
def keyword : Value → Except EvalError Value
  | .text s => .ok (.keyword s)
  | .keyword name => .ok (.keyword name)
  | _ => .error (.mismatch .keywordName)

/-- The first form of a text, or nil if there is nothing to read. -/
def readString (v : Value) : Except EvalError Value :=
  match string v with
  | .error e => .error e
  | .ok s =>
    match Value.read? s.toList with
    | .ok form => .ok form
    | .error .nothingToRead => .ok .nil
    | .error fault => .error (.unreadable fault)

end MiniLisp.Convert
