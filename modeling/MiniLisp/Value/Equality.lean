import MiniLisp.Value.Entries
import MiniLisp.Value.Number

/-!
# Equality of values

Lists and vectors are equal by their elements, whichever of the two they are; numbers by their value; maps by what
they bind; closures, atoms and rooted builtins by their identity.
-/

namespace MiniLisp

namespace Value

mutual

/-- Whether two values count as equal. -/
def equal : Value → Value → Bool
  | list xs, list ys | list xs, vector ys | vector xs, list ys | vector xs, vector ys => equalItems xs ys
  | map es, map fs => es.length == fs.length && equalEntries es fs
  | nil, nil => true
  | bool a, bool b => a == b
  | text s, text t => s == t
  | symbol s, symbol t => s == t
  | keyword s, keyword t => s == t
  | builtin b, builtin c => b == c
  | rooted b e, rooted c f => b == c && e == f
  | closure i .., closure j .. => i == j
  | atom a, atom b => a == b
  | int m, int n => Number.equal (.int m) (.int n)
  | int m, float y => Number.equal (.int m) (.float y)
  | float x, int n => Number.equal (.float x) (.int n)
  | float x, float y => Number.equal (.float x) (.float y)
  | _, _ => false

/-- Whether two sequences have equal elements. -/
def equalItems : List Value → List Value → Bool
  | [], [] => true
  | x :: xs, y :: ys => equal x y && equalItems xs ys
  | _, _ => false

/-- Whether every entry has an equal one among others. -/
def equalEntries : List (Key × Value) → Entries → Bool
  | [], _ => true
  | (k, x) :: es, fs =>
    (match fs.find? k with
      | some y => equal x y
      | none => false) && equalEntries es fs

end

end Value

end MiniLisp
