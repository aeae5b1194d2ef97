import MiniLisp.Value.Basic

/-!
# Entries of maps

Entries stand in the order of their keys, each key once. A later entry for a key replaces an earlier one.
-/

namespace MiniLisp

/-- Why values are no entries of a map. -/
inductive MapError
  | missingValue
  | badKey
  deriving DecidableEq

/-- The entries of a map. -/
abbrev Entries := List (Key × Value)

namespace Entries

def find? (k : Key) : Entries → Option Value
  | [] => none
  | (k', v) :: es => if k' = k then some v else find? k es

/-- The entries with the key bound to the value. -/
def insert (k : Key) (v : Value) : Entries → Entries
  | [] => [(k, v)]
  | (k', v') :: es =>
    if k' = k then (k, v) :: es
    else if k.before k' then (k, v) :: (k', v') :: es
    else (k', v') :: insert k v es

/-- The entries without the key. -/
def erase (k : Key) (es : Entries) : Entries := es.filter fun e => e.1 ≠ k

/-- The entries with further ones put in, in turn. -/
def insertAll (es more : Entries) : Entries := more.foldl (fun acc e => acc.insert e.1 e.2) es

/-- Values in turn as keys and values; of several faults the first. -/
def pairs : List Value → Except MapError Entries
  | [] => .ok []
  | [_] => .error .missingValue
  | k :: v :: rest =>
    match Key.ofValue? k with
    | none => .error .badKey
    | some k => (pairs rest).map ((k, v) :: ·)

/-- The entries that values in turn spell. A missing value is reported before a bad key. -/
def ofItems? (items : List Value) : Except MapError Entries :=
  if items.length % 2 = 1 then .error .missingValue else (pairs items).map (insertAll [])

/-- The keys as values. -/
def keys (es : Entries) : List Value := es.map fun e => e.1.toValue

def values (es : Entries) : List Value := es.map fun e => e.2

/-! ## Looking up what was put in -/

theorem find?_insert_self (k : Key) (v : Value) (es : Entries) : (es.insert k v).find? k = some v := by
  induction es with
  | nil => simp [insert, find?]
  | cons e es ih =>
    obtain ⟨k', v'⟩ := e
    by_cases h : k' = k <;> by_cases hb : k.before k' <;> simp [insert, find?, h, hb, ih]

theorem find?_insert_of_ne {k k' : Key} (h : k' ≠ k) (v : Value) (es : Entries) :
    (es.insert k v).find? k' = es.find? k' := by
  induction es with
  | nil => simp [insert, find?, Ne.symm h]
  | cons e es ih =>
    obtain ⟨k₁, v₁⟩ := e
    by_cases h₁ : k₁ = k
    · subst h₁
      simp [insert, find?, Ne.symm h]
    · by_cases hb : k.before k₁ <;> simp [insert, find?, h₁, hb, Ne.symm h, ih]

end Entries

end MiniLisp
