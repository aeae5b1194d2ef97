import MiniLisp.Decimal.Binary

/-!
# The shortest decimal that reads back

Of the decimals that round to a double, those with the fewest digits are considered, and of them the one nearest to
the double; of two equally near the larger. How the digits are laid out is a `Layout`.
-/

namespace MiniLisp.Decimal

/-- The decimal `digits * 10 ^ exponent`. -/
structure Scientific where
  digits : Nat
  exponent : Int

/-- The least `k` such that the quotient is below `10 ^ k`. -/
def magnitude (num den : Nat) : Int :=
  if den ≤ num then length (num / den) else 1 - length ((den - 1) / num)

/-- The neighbours of `num / den` among the multiples of `10 ^ t`, as multiples; if both round to the number, the
nearer one, and the upper one of two equally near. -/
def neighbour? (b : Binary) (num den : Nat) (t : Int) : Option Scientific :=
  let n := num * tenTo (-t).toNat
  let d := den * tenTo t.toNat
  let low := n / d
  match b.readsBack low t, b.readsBack (low + 1) t with
  | true, true => some (if 2 * n < (2 * low + 1) * d then ⟨low, t⟩ else ⟨low + 1, t⟩)
  | true, false => some ⟨low, t⟩
  | false, true => some ⟨low + 1, t⟩
  | false, false => none

/-- The exact value, which has many digits. -/
def expansion (b : Binary) : Scientific :=
  ⟨b.mantissa * twoTo b.exponent.toNat * Nat.pow 5 (-b.exponent).toNat, min b.exponent 0⟩

/-- Moves trailing zeros of the digits into the exponent, at most `fuel` of them. -/
def stripZeros : Nat → Scientific → Scientific
  | 0, s => s
  | fuel + 1, s => if s.digits % 10 = 0 then stripZeros fuel ⟨s.digits / 10, s.exponent + 1⟩ else s

/-- The shortest decimal that rounds to a positive double. -/
def shortest (b : Binary) : Scientific :=
  let (num, den) := b.quotient
  let k := magnitude num den
  let found := (List.range 17).findSome? fun n => neighbour? b num den (k - (n + 1 : Nat))
  stripZeros 20 (found.getD (expansion b))

/-! ## Layout -/

/-- How a number is laid out. A number whose decimal point falls at a place between `first` and `last`, counted from
before its first digit, is written positionally, any other with an exponent. -/
structure Layout where
  first : Int
  last : Int
  zero : List Char
  infinity : List Char
  notANumber : List Char

/-- Positional text with at least one digit on either side of the point. -/
def positional (ds : List Char) (point : Int) : List Char :=
  if point ≤ 0 then '0' :: '.' :: List.replicate (-point).toNat '0' ++ ds
  else if ds.length ≤ point then ds ++ List.replicate (point.toNat - ds.length) '0' ++ ['.', '0']
  else ds.take point.toNat ++ '.' :: ds.drop point.toNat

/-- One digit, the rest of them after a point, and the power of ten. -/
def exponential (ds : List Char) (point : Int) : List Char :=
  ds.take 1 ++ (if ds.length ≤ 1 then [] else '.' :: ds.drop 1) ++ 'e' :: integer (point - 1)

def Layout.scientific (layout : Layout) (s : Scientific) : List Char :=
  let ds := digits s.digits
  let point := (ds.length : Int) + s.exponent
  if layout.first ≤ point && point ≤ layout.last then positional ds point else exponential ds point

/-- The text of a double. A NaN has no sign. -/
def Layout.text (layout : Layout) (x : Float) : List Char :=
  let bits := x.toBits.toNat
  let size := bits % twoTo 63
  let sign := if bits < twoTo 63 then [] else ['-']
  if infinityBits < size then layout.notANumber
  else if size = infinityBits then sign ++ layout.infinity
  else if size = 0 then sign ++ layout.zero
  else sign ++ layout.scientific (shortest (Binary.ofBits size))

end MiniLisp.Decimal
