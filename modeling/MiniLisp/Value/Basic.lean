import MiniLisp.Text.Order
import MiniLisp.Value.Native

/-!
# Values

The values of the language are also its forms. Lists, vectors and maps are plain data; closures and atoms have an
identity; a closure names the frame it captured, and a rooted builtin the root frame it evaluates in.
-/

namespace MiniLisp

/-- The name of a frame of bindings. -/
abbrev FrameId := Nat

/-- The name of an atom. -/
abbrev AtomId := Nat

/-- The identity of a closure. -/
abbrev ClosureId := Nat

/-- The keys of maps. -/
inductive Key
  | keyword (name : String)
  | text (s : String)
  deriving DecidableEq

namespace Key

/-- Keywords stand before texts; of a kind, the order is by characters. -/
def before : Key → Key → Bool
  | keyword a, keyword b => Text.before a.toList b.toList
  | keyword _, text _ => true
  | text _, keyword _ => false
  | text a, text b => Text.before a.toList b.toList

end Key

/-- A value. The entries of a map stand in the order of their keys, each key once. -/
inductive Value
  | nil
  | bool (b : Bool)
  | int (n : Int64)
  | float (x : Float)
  | text (s : String)
  | symbol (name : String)
  | keyword (name : String)
  | list (items : List Value)
  | vector (items : List Value)
  | map (entries : List (Key × Value))
  | builtin (b : Builtin)
  | rooted (b : Rooted) (root : FrameId)
  | closure (id : ClosureId) (params : Params) (body : Value) (captured : FrameId) (isMacro : Bool)
  | atom (id : AtomId)
  deriving Inhabited

namespace Key

def toValue : Key → Value
  | keyword name => .keyword name
  | text s => .text s

/-- Texts and keywords are keys, nothing else is. -/
def ofValue? : Value → Option Key
  | .keyword name => some (keyword name)
  | .text s => some (text s)
  | _ => none

theorem ofValue?_toValue (k : Key) : ofValue? k.toValue = some k := by cases k <;> rfl

theorem toValue_of_ofValue? {v : Value} {k : Key} (h : ofValue? v = some k) : k.toValue = v := by
  unfold ofValue? at h
  split at h <;> cases h <;> rfl

end Key

namespace Value

/-- Everything except nil and false counts as true. -/
def truthy : Value → Bool
  | nil | bool false => false
  | _ => true

/-- The elements of a list or a vector. -/
def items? : Value → Option (List Value)
  | list xs | vector xs => some xs
  | _ => none

/-- Whether the value is a closure that expands calls instead of taking part in them. -/
def expands : Value → Bool
  | closure _ _ _ _ isMacro => isMacro
  | _ => false

/-- Whether the value can be applied to arguments. -/
def callable : Value → Bool
  | builtin _ | rooted .. | closure .. => true
  | _ => false

/-- The form `(quote v)`. -/
def quoted (v : Value) : Value := list [symbol "quote", v]

end Value

end MiniLisp
