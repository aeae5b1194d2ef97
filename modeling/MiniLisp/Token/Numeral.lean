import MiniLisp.Decimal.Binary
import MiniLisp.Error
import MiniLisp.Text.Digit

/-!
# What plain runs stand for

A plain run is a numeral if it has the form of one: digits with an optional sign, perhaps with a point among them or
an exponent after them. Digits of any script make that form, but only ASCII digits have a value. What starts like a
numeral and is none is malformed; every other run is a name.
-/

namespace MiniLisp

/-- The parts of a numeral. -/
structure Numeral where
  negative : Bool
  whole : List Char
  /-- The digits after the point, if there is a point. -/
  fraction : Option (List Char)
  /-- The sign and the digits of the exponent, if there is one. -/
  exponent : Option (Bool × List Char)

namespace Numeral

/-- Whether a minus stands in front, and what follows the sign. -/
def sign : List Char → Bool × List Char
  | '-' :: r => (true, r)
  | '+' :: r => (false, r)
  | r => (false, r)

/-- An exponent with at least one digit and nothing after it, if anything is left. -/
def exponent? : List Char → Option (Option (Bool × List Char))
  | [] => some none
  | e :: r =>
    let (negative, ds) := sign r
    if (e = 'e' ∨ e = 'E') ∧ ds ≠ [] ∧ ds.all Text.isDigit then some (some (negative, ds)) else none

/-- The parts of a text that has the form of a numeral: digits on at least one side of a point, and before it if an
exponent follows. -/
def ofChars? (chars : List Char) : Option Numeral :=
  let (negative, body) := sign chars
  let whole := body.takeWhile Text.isDigit
  match body.dropWhile Text.isDigit with
  | '.' :: r =>
    let fraction := r.takeWhile Text.isDigit
    match exponent? (r.dropWhile Text.isDigit) with
    | none => none
    | some none => if whole = [] ∧ fraction = [] then none else some ⟨negative, whole, some fraction, none⟩
    | some e => if whole = [] then none else some ⟨negative, whole, some fraction, e⟩
  | r => if whole = [] then none else (exponent? r).map fun e => ⟨negative, whole, none, e⟩

/-- Whether a text starts as numerals do: with a digit, after an optional sign and an optional point. -/
def startsLike (chars : List Char) : Bool :=
  match (sign chars).2 with
  | '.' :: c :: _ => Text.isDigit c
  | c :: _ => Text.isDigit c
  | [] => false

/-- Whether all digits are ASCII digits. -/
def isAscii (n : Numeral) : Bool :=
  n.whole.all Char.isDigit && (n.fraction.getD []).all Char.isDigit &&
    (match n.exponent with
      | some (_, ds) => ds.all Char.isDigit
      | none => true)

/-- The integer that digits spell, if it has 64 bits. -/
def int? (negative : Bool) (ds : List Char) : Option Int64 :=
  let n : Int := Decimal.ofDigits ds
  let i := if negative then -n else n
  if Int64.minValue.toInt ≤ i ∧ i ≤ Int64.maxValue.toInt then some (Int64.ofInt i) else none

/-- The exponent of ten that the parts say. -/
def scale (n : Numeral) : Int :=
  let e : Int :=
    match n.exponent with
    | some (true, ds) => -(Decimal.ofDigits ds : Int)
    | some (false, ds) => Decimal.ofDigits ds
    | none => 0
  e - (n.fraction.getD []).length

/-- The number: an integer if there is neither point nor exponent, else the nearest double. -/
def value? (n : Numeral) : Option Value :=
  if !n.isAscii then none
  else if n.fraction.isNone ∧ n.exponent.isNone then (int? n.negative n.whole).map .int
  else some (.float (Decimal.nearest n.negative (Decimal.ofDigits (n.whole ++ n.fraction.getD [])) n.scale))

end Numeral

namespace Value

/-- What a run stands for that does not start like a numeral. -/
def ofName : List Char → Value
  | [] => symbol ""
  | ':' :: r => keyword (String.ofList r)
  | chars =>
    if chars = "nil".toList then nil
    else if chars = "true".toList then bool true
    else if chars = "false".toList then bool false
    else symbol (String.ofList chars)

/-- What a plain run stands for. -/
def ofPlain? (chars : List Char) : Except ReadError Value :=
  match Numeral.ofChars? chars with
  | some n =>
    match n.value? with
    | some v => .ok v
    | none => .error (.badNumber chars)
  | none => if Numeral.startsLike chars then .error (.badNumber chars) else .ok (ofName chars)

end Value

end MiniLisp
