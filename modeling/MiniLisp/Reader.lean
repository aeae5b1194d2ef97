import MiniLisp.Token.Numeral
import MiniLisp.Token.Scan

/-!
# Reading forms

A form is read from the tokens of a text, the whole of which is scanned first. While a form is read, the brackets and
shorthands still open stand on a stack, the innermost on top; a form that is complete goes into the top of the stack
or, if nothing is open, is the result. What follows it is not looked at.

* `Value.read?`: the first form of a text.
-/

namespace MiniLisp

/-- A form whose end is still to come: a bracket with the elements so far, the last first, or a shorthand that waits
for its form. -/
inductive Pending
  | bracket (b : Bracket) (items : List Value)
  | shorthand (s : Shorthand)

namespace Pending

/-- What a text lacks that ends here. -/
def unfinished : Pending → Unfinished
  | bracket .round _ => .list
  | bracket .square _ => .vector
  | bracket .curly _ => .map
  | shorthand _ => .form

end Pending

namespace Reader

/-- Puts a complete form into what is open. If nothing waits for it, the form is the result. -/
def deliver (v : Value) : List Pending → Value ⊕ List Pending
  | [] => .inl v
  | .shorthand s :: stack => deliver (.list [.symbol s.name, v]) stack
  | .bracket b items :: stack => .inr (.bracket b (v :: items) :: stack)

/-- The form that a bracket and its elements make. -/
def close (b : Bracket) (items : List Value) : Except ReadError Value :=
  match b with
  | .round => .ok (.list items)
  | .square => .ok (.vector items)
  | .curly =>
    match Entries.ofItems? items with
    | .ok es => .ok (.map es)
    | .error fault => .error (.badMap fault)

/-- What a token is on its own, if it neither opens nor closes anything. -/
def leaf : Token → Except ReadError Value
  | .string contents =>
    match Text.Quoted.decode contents with
    | .ok s => .ok (.text (String.ofList s))
    | .error fault => .error (.badString contents fault)
  | .plain chars => Value.ofPlain? chars
  | .caret => .error (.unexpected '^')
  | .closing b => .error (.unexpected b.closeChar)
  | .opening _ | .shorthand _ | .comment _ => .error .nothingToRead

/-- The form that a token completes, with what is open around it. -/
def complete (token : Token) (stack : List Pending) : Except ReadError (Value × List Pending) :=
  match token, stack with
  | .closing b, .bracket b' items :: rest =>
    if b = b' then (close b items.reverse).map (·, rest) else .error (.unexpected b.closeChar)
  | token, stack => (leaf token).map (·, stack)

/-- The form that tokens complete, and the tokens after it. -/
def run : List Token → List Pending → Except ReadError (Value × List Token)
  | [], [] => .error .nothingToRead
  | [], top :: _ => .error (.unbalanced top.unfinished)
  | .comment _ :: rest, stack => run rest stack
  | .opening b :: rest, stack => run rest (.bracket b [] :: stack)
  | .shorthand s :: rest, stack => run rest (.shorthand s :: stack)
  | token :: rest, stack =>
    match complete token stack with
    | .error e => .error e
    | .ok (v, stack) =>
      match deliver v stack with
      | .inl v => .ok (v, rest)
      | .inr stack => run rest stack

end Reader

namespace Value

/-- The first form of a text. -/
def read? (s : List Char) : Except ReadError Value :=
  match Token.scan? s with
  | none => .error (.unbalanced .string)
  | some tokens => (Reader.run tokens []).map (·.1)

end Value

end MiniLisp
