/-!
# Decimal digits of integers

The digits of a number, and the number that digits spell.
-/

namespace MiniLisp.Decimal

/-- A power of two. -/
def twoTo (n : Nat) : Nat := Nat.pow 2 n

/-- A power of ten. -/
def tenTo (n : Nat) : Nat := Nat.pow 10 n

/-- The digits of a number, the most significant first; zero has one digit. -/
def digits (n : Nat) : List Char := Nat.toDigits 10 n

/-- The number of digits of a number, where zero counts none. -/
def length (n : Nat) : Nat := if n = 0 then 0 else (digits n).length

/-- The value of an ASCII digit. -/
def digitValue (c : Char) : Nat := c.toNat - '0'.toNat

/-- The number that ASCII digits spell; leading zeros add nothing. -/
def ofDigits (ds : List Char) : Nat := ds.foldl (fun n c => 10 * n + digitValue c) 0

/-- An integer, with a sign only if it is negative. -/
def integer (i : Int) : List Char := if i < 0 then '-' :: digits i.natAbs else digits i.natAbs

end MiniLisp.Decimal
