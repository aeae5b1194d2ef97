import MiniLisp.Error

/-!
# Maps

The builtins on maps: building, extending, taking away, looking up.
-/

namespace MiniLisp.Table

/-- The entries of a map. -/
def entries : Value → Except EvalError Entries
  | .map es => .ok es
  | _ => .error (.mismatch .map)

/-- The key that a value is. -/
def key (v : Value) : Except EvalError Key :=
  match Key.ofValue? v with
  | some k => .ok k
  | none => .error (.mismatch .key)

/-- The entries that values in turn spell. -/
def additions (items : List Value) : Except EvalError Entries :=
  match Entries.ofItems? items with
  | .ok es => .ok es
  | .error fault => .error (.badMap fault)

def hashMap (items : List Value) : Except EvalError Value := (additions items).map .map

/-- The map with further entries put in. -/
def assoc (m : Value) (items : List Value) : Except EvalError Value :=
  match entries m with
  | .error e => .error e
  | .ok es => (additions items).map fun more => .map (es.insertAll more)

/-- The map without some keys. -/
def dissoc (m : Value) (items : List Value) : Except EvalError Value :=
  match entries m with
  | .error e => .error e
  | .ok es => (items.mapM key).map fun ks => .map (ks.foldl (fun acc k => Entries.erase k acc) es)

/-- What a key is bound to, or nil. Nil has no entries. -/
def get (m k : Value) : Except EvalError Value :=
  match m with
  | .nil => .ok .nil
  | m =>
    match entries m with
    | .error e => .error e
    | .ok es => (key k).map fun k => (es.find? k).getD .nil

def contains (m k : Value) : Except EvalError Value :=
  match entries m with
  | .error e => .error e
  | .ok es => (key k).map fun k => .bool (es.find? k).isSome

def keys (m : Value) : Except EvalError Value := (entries m).map fun es => .list es.keys

def vals (m : Value) : Except EvalError Value := (entries m).map fun es => .list es.values

end MiniLisp.Table
