import MiniLisp.Decimal.Shortest
import MiniLisp.Text.Quoted
import MiniLisp.Value.Basic

/-!
# The text of values

Values print readably, so that data read back as they were, or plainly, with texts as they are. An atom prints its
contents, which are looked up; a value whose print would never end has no text.

* `layout`: how floating point numbers are laid out.
* `render`: the text of a value, given the texts of atoms' contents.
-/

namespace MiniLisp

/-- How texts inside a value are printed. -/
inductive Mode
  /-- Between quotes, with escapes. -/
  | readable
  /-- As they are. -/
  | plain
  deriving DecidableEq

/-- Numbers from `1e-4` up to, but not including, `1e16` are written positionally. -/
def layout : Decimal.Layout where
  first := -3
  last := 16
  zero := ['0', '.', '0']
  infinity := ['i', 'n', 'f']
  notANumber := ['N', 'a', 'N']

namespace Mode

def text (mode : Mode) (s : String) : List Char :=
  match mode with
  | readable => Text.Quoted.literal s.toList
  | plain => s.toList

def key (mode : Mode) : Key → List Char
  | .keyword name => ':' :: name.toList
  | .text s => mode.text s

end Mode

/-- Texts with a space between each two. -/
def spaced (ts : List (List Char)) : List Char := [' '].intercalate ts

namespace Value

mutual

/-- The text of a value, if every atom in it has a text. -/
def render (mode : Mode) (contents : AtomId → Option (List Char)) : Value → Option (List Char)
  | nil => some "nil".toList
  | bool b => some (if b then "true".toList else "false".toList)
  | int n => some (Decimal.integer n.toInt)
  | float x => some (layout.text x)
  | text s => some (mode.text s)
  | symbol name => some name.toList
  | keyword name => some (':' :: name.toList)
  | list xs => (renderItems mode contents xs).map fun ts => '(' :: spaced ts ++ [')']
  | vector xs => (renderItems mode contents xs).map fun ts => '[' :: spaced ts ++ [']']
  | map es => (renderEntries mode contents es).map fun ts => '{' :: spaced ts ++ ['}']
  | builtin b => some ("#<builtin ".toList ++ b.name.toList ++ ['>'])
  | rooted b _ => some ("#<builtin ".toList ++ b.name.toList ++ ['>'])
  | closure _ _ _ _ isMacro => some (if isMacro then "#<macro>".toList else "#<function>".toList)
  | atom a => (contents a).map fun t => "(atom ".toList ++ t ++ [')']

/-- The texts of the elements of a sequence. -/
def renderItems (mode : Mode) (contents : AtomId → Option (List Char)) : List Value → Option (List (List Char))
  | [] => some []
  | x :: xs =>
    match render mode contents x, renderItems mode contents xs with
    | some t, some ts => some (t :: ts)
    | _, _ => none

/-- The texts of the entries of a map: a key, a space, a value. -/
def renderEntries (mode : Mode) (contents : AtomId → Option (List Char)) :
    List (Key × Value) → Option (List (List Char))
  | [] => some []
  | (k, x) :: es =>
    match render mode contents x, renderEntries mode contents es with
    | some t, some ts => some ((mode.key k ++ ' ' :: t) :: ts)
    | _, _ => none

end

end Value

end MiniLisp
