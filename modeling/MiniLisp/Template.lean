import MiniLisp.Value.Basic

/-!
# Templates

A template is rewritten into a form that rebuilds it: a sequence is put together by `cons` and `concat` from its
elements, a vector by `vec` from that, symbols and maps are quoted, and what is unquoted is evaluated in its place.

* `Value.template`: the form that rebuilds a template.
-/

namespace MiniLisp

namespace Value

/-- The operand of a marker, a list that must have exactly one after its head. -/
def operand? (name : String) : List Value → Except ArityError Value
  | [_, v] => .ok v
  | items => .error ⟨name, .exactly 2, items.length⟩

/-- The elements of a list headed by the symbol of that name. -/
def marked? (name : String) : Value → Option (List Value)
  | list (symbol s :: items) => if s = name then some (symbol s :: items) else none
  | _ => none

mutual

/-- The form that rebuilds a template. -/
def template : Value → Except ArityError Value
  | list items =>
    match marked? "unquote" (list items) with
    | some marker => operand? "unquote" marker
    | none => templateItems items
  | vector items => (templateItems items).map fun form => list [symbol "vec", form]
  | symbol name => .ok (quoted (symbol name))
  | map es => .ok (quoted (map es))
  | v => .ok v

/-- The form that rebuilds the elements of a sequence as a list. Of several faults the last counts. -/
def templateItems : List Value → Except ArityError Value
  | [] => .ok (list [])
  | x :: xs =>
    match templateItems xs with
    | .error fault => .error fault
    | .ok form =>
      match marked? "splice-unquote" x with
      | some marker => (operand? "splice-unquote" marker).map fun v => list [symbol "concat", v, form]
      | none => (template x).map fun v => list [symbol "cons", v, form]

end

end Value

end MiniLisp
