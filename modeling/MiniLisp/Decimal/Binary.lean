import MiniLisp.Decimal.Digits

/-!
# Binary floating point, exactly

A positive finite double is `mantissa * 2 ^ exponent`. The reals that round to it form an interval, whose ends lie
halfway to its two neighbours and belong to it exactly when the mantissa is even. Everything here is exact arithmetic
on naturals: decimals are compared with the ends of that interval, and a decimal is rounded to the nearest double.
-/

namespace MiniLisp.Decimal

/-- A positive number `mantissa * 2 ^ exponent`. Its lower neighbour is twice as close as its upper one if it is
`narrow`: a power of two above the least normal number. -/
structure Binary where
  mantissa : Nat
  exponent : Int
  narrow : Bool

namespace Binary

/-- The absolute value of a finite double that is not zero. -/
def ofBits (bits : Nat) : Binary :=
  let fraction := bits % twoTo 52
  let field := bits / twoTo 52 % twoTo 11
  if field = 0 then ⟨fraction, -1074, false⟩
  else ⟨twoTo 52 + fraction, Int.ofNat field - 1075, fraction = 0 && 1 < field⟩

/-- The number as a quotient of naturals. -/
def quotient (b : Binary) : Nat × Nat := (b.mantissa * twoTo b.exponent.toNat, twoTo (-b.exponent).toNat)

/-- Whether `d * 10 ^ t` is at least `u` quarters of `2 ^ exponent`. -/
def quartersLE (b : Binary) (u d : Nat) (t : Int) : Bool :=
  u * twoTo b.exponent.toNat * tenTo (-t).toNat ≤ 4 * d * tenTo t.toNat * twoTo (-b.exponent).toNat

/-- Whether `d * 10 ^ t` is at most `u` quarters of `2 ^ exponent`. -/
def quartersGE (b : Binary) (u d : Nat) (t : Int) : Bool :=
  4 * d * tenTo t.toNat * twoTo (-b.exponent).toNat ≤ u * twoTo b.exponent.toNat * tenTo (-t).toNat

/-- Whether the decimal `d * 10 ^ t` rounds to the number. -/
def readsBack (b : Binary) (d : Nat) (t : Int) : Bool :=
  let low := 4 * b.mantissa - (if b.narrow then 1 else 2)
  let high := 4 * b.mantissa + 2
  if b.mantissa % 2 = 0 then b.quartersLE low d t && b.quartersGE high d t
  else !b.quartersGE low d t && !b.quartersLE high d t

end Binary

/-! ## Rounding a decimal to a double -/

/-- The quotient `num / den` rounded to an integer, a half going to the even neighbour. -/
def roundHalfEven (num den : Nat) : Nat :=
  let q := num / den
  let r := num % den
  if 2 * r < den || (2 * r = den && q % 2 = 0) then q else q + 1

/-- The bits of positive infinity. -/
def infinityBits : Nat := 2047 * twoTo 52

/-- The quotient `num / den / 2 ^ e` as one of naturals. -/
def scaled (num den : Nat) (e : Int) : Nat × Nat := (num * twoTo (-e).toNat, den * twoTo e.toNat)

/-- The bits of the double nearest to a positive quotient, of two equally near the even one. A quotient that is too
large gives infinity. -/
def nearestBits (num den : Nat) : Nat :=
  let guess := max (-1074) ((Nat.log2 num : Int) - Nat.log2 den - 53)
  let (n, d) := scaled num den guess
  let exponent := if n / d < twoTo 53 then guess else guess + 1
  let (n, d) := scaled num den exponent
  min infinityBits ((exponent + 1074).toNat * twoTo 52 + roundHalfEven n d)

/-- The double nearest to `d * 10 ^ t`. A decimal beyond every double is decided by its order of magnitude alone. -/
def nearest (negative : Bool) (d : Nat) (t : Int) : Float :=
  let magnitude := (length d : Int) + t
  let bits :=
    if d = 0 || magnitude < -330 then 0
    else if 310 < magnitude then infinityBits
    else nearestBits (d * tenTo t.toNat) (tenTo (-t).toNat)
  Float.ofBits (UInt64.ofNat (if negative then twoTo 63 + bits else bits))

end MiniLisp.Decimal
