import MiniLisp.Value.Basic

/-!
# Special forms

A list headed by one of these symbols is not a call.

* `SpecialForm.ofValue?`: the special form that the head of a list names.
* `SpecialForm.cases_operands`: what the operands of a special form may be.
-/

namespace MiniLisp

inductive SpecialForm
  | define | defineMacro | bindLocally | sequence | choose | function | quote | showTemplate | template | showExpansion
  deriving DecidableEq

namespace SpecialForm

def all : List SpecialForm :=
  [define, defineMacro, bindLocally, sequence, choose, function, quote, showTemplate, template, showExpansion]

def name : SpecialForm → String
  | define => "def!"
  | defineMacro => "defmacro!"
  | bindLocally => "let*"
  | sequence => "do"
  | choose => "if"
  | function => "fn*"
  | quote => "quote"
  | showTemplate => "quasiquoteexpand"
  | template => "quasiquote"
  | showExpansion => "macroexpand"

/-- How many operands a special form takes. -/
def arity : SpecialForm → Arity
  | define | defineMacro | bindLocally | function => .exactly 2
  | sequence => .atLeast 0
  | choose => .between 2 3
  | quote | showTemplate | template | showExpansion => .exactly 1

def ofName? (name : String) : Option SpecialForm := all.find? fun s => s.name = name

def ofValue? : Value → Option SpecialForm
  | .symbol name => ofName? name
  | _ => none

theorem ofName?_name (s : SpecialForm) : ofName? s.name = some s := by cases s <;> decide

/-- A special form with its operands: those that it takes, or a number of operands that it does not accept. -/
@[elab_as_elim]
theorem cases_operands {motive : SpecialForm → List Value → Prop}
    (define : ∀ target expr, motive .define [target, expr])
    (defineMacro : ∀ target expr, motive .defineMacro [target, expr])
    (bindLocally : ∀ bindings body, motive .bindLocally [bindings, body])
    (sequence : ∀ operands, motive .sequence operands)
    (choose : ∀ condition consequent, motive .choose [condition, consequent])
    (chooseElse : ∀ condition consequent alternative, motive .choose [condition, consequent, alternative])
    (function : ∀ parameters body, motive .function [parameters, body])
    (quote : ∀ v, motive .quote [v])
    (showTemplate : ∀ v, motive .showTemplate [v])
    (template : ∀ v, motive .template [v])
    (showExpansion : ∀ form, motive .showExpansion [form])
    (badCount : ∀ s operands, s.arity.accepts operands.length = false → motive s operands)
    (s : SpecialForm) (operands : List Value) : motive s operands := by
  cases hn : s.arity.accepts operands.length with
  | false => exact badCount s operands hn
  | true =>
    match s, operands, hn with
    | .define, [target, expr], _ => exact define target expr
    | .defineMacro, [target, expr], _ => exact defineMacro target expr
    | .bindLocally, [bindings, body], _ => exact bindLocally bindings body
    | .sequence, operands, _ => exact sequence operands
    | .choose, [condition, consequent], _ => exact choose condition consequent
    | .choose, [condition, consequent, alternative], _ => exact chooseElse condition consequent alternative
    | .function, [parameters, body], _ => exact function parameters body
    | .quote, [v], _ => exact quote v
    | .showTemplate, [v], _ => exact showTemplate v
    | .template, [v], _ => exact template v
    | .showExpansion, [form], _ => exact showExpansion form

end SpecialForm

end MiniLisp
