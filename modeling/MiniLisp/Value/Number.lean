import MiniLisp.Decimal.Binary
import MiniLisp.Value.Basic

/-!
# Numbers

Integers of 64 bits, whose arithmetic wraps, and doubles. Where an integer meets a double it is rounded to the nearest
double first.
-/

namespace MiniLisp

/-- A number taken out of a value. -/
inductive Number
  | int (n : Int64)
  | float (x : Float)

namespace Number

def ofValue? : Value → Option Number
  | .int n => some (int n)
  | .float x => some (float x)
  | _ => none

def toValue : Number → Value
  | int n => .int n
  | float x => .float x

/-- The nearest double. -/
def toFloat : Number → Float
  | int n => Decimal.nearest (n.toInt < 0) n.toInt.natAbs 0
  | float x => x

/-- An operation carried out on integers if both numbers are, on doubles otherwise. -/
def combine (onInts : Int64 → Int64 → Int64) (onFloats : Float → Float → Float) : Number → Number → Number
  | int m, int n => int (onInts m n)
  | x, y => float (onFloats x.toFloat y.toFloat)

/-- A comparison carried out on integers if both numbers are, on doubles otherwise. -/
def compare (onInts : Int64 → Int64 → Bool) (onFloats : Float → Float → Bool) : Number → Number → Bool
  | int m, int n => onInts m n
  | x, y => onFloats x.toFloat y.toFloat

def add : Number → Number → Number := combine (· + ·) (· + ·)

def subtract : Number → Number → Number := combine (· - ·) (· - ·)

def multiply : Number → Number → Number := combine (· * ·) (· * ·)

/-- The quotient, that of integers truncated toward zero. Only an integer divided by the integer zero has none. -/
def divide? (x y : Number) : Option Number :=
  match x, y with
  | int _, int 0 => none
  | x, y => some (combine (· / ·) (· / ·) x y)

theorem divide?_int (m : Int64) {n : Int64} (h : n ≠ 0) : divide? (int m) (int n) = some (int (m / n)) := by
  unfold divide?
  split
  · next hzero => cases hzero; exact (h rfl).elim
  · rfl

def equal : Number → Number → Bool := compare (· == ·) (· == ·)

def less : Number → Number → Bool := compare (fun m n => m < n) (fun x y => x < y)

def lessEqual : Number → Number → Bool := compare (fun m n => m ≤ n) (fun x y => x ≤ y)

theorem toValue_of_ofValue? {v : Value} {x : Number} (h : ofValue? v = some x) : x.toValue = v := by
  unfold ofValue? at h
  split at h <;> cases h <;> rfl

end Number

end MiniLisp
