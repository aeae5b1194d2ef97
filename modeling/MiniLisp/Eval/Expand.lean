import MiniLisp.Eval.Call

/-!
# Expansion of macros

A list headed by a symbol that is bound to a macro is a macro call: the macro is applied to the operands as they are
written, and what it gives stands in place of the call. This is repeated until the form is no macro call, but not
more often than `maxExpansions`.

* `Machine.macroCall?`: the macro that a form calls, and its operands.
* `expand`: the form with no macro call left at its head.
-/

namespace MiniLisp

/-- How often in a row a form is expanded at most. -/
def maxExpansions : Nat := 10000

/-- The macro that a form calls, and its operands. -/
def Machine.macroCall? (m : Machine) (e : FrameId) : Value → Option (Value × List Value)
  | .list (.symbol name :: operands) =>
    match m.lookup e name with
    | some f => if f.expands then some (f, operands) else none
    | none => none
  | _ => none

/-- A macro call is a list headed by a symbol that is bound to a macro. -/
theorem Machine.macroCall?_eq_some {m : Machine} {e : FrameId} {form f : Value} {operands : List Value}
    (h : m.macroCall? e form = some (f, operands)) :
    ∃ name, form = .list (.symbol name :: operands) ∧ m.lookup e name = some f ∧ f.expands = true := by
  unfold macroCall? at h
  split at h
  · next name operands' =>
    split at h
    · next f' bound =>
      split at h
      · next expands =>
        cases h
        exact ⟨name, rfl, bound, expands⟩
      · cases h
    · cases h
  · cases h

/-- A form expanded no more than some times. -/
def expandWithin (recur : Evaluator) (ctx : Context) (e : FrameId) : Nat → Value → Run Value
  | 0, form => do
    match ← Run.gets fun m => m.macroCall? e form with
    | none => return form
    | some _ => Run.fail (.expansionLimit maxExpansions)
  | remaining + 1, form => do
    match ← Run.gets fun m => m.macroCall? e form with
    | none => return form
    | some (f, operands) =>
      let form ← Call.finish recur (ctx.holdValue form) f operands
      Run.recordValue ctx .trace "macroexpand produced " form
      expandWithin recur ctx e remaining form

section

variable {recur : Evaluator} {ctx : Context} {e : FrameId} {n : Nat} {form : Value} {m : Machine}

/-- A form that calls no macro is its own expansion. -/
theorem expandWithin_of_none (h : m.macroCall? e form = none) :
    expandWithin recur ctx e n form m = some (.ok form, m) := by
  cases n <;> rw [expandWithin] <;> change Run.bind (Run.gets _) _ m = _ <;> rw [Run.bind_gets, h] <;> rfl

/-- With no step left a macro call is refused. -/
theorem expandWithin_zero {call : Value × List Value} (h : m.macroCall? e form = some call) :
    expandWithin recur ctx e 0 form m = some (.error (.expansionLimit maxExpansions), m) := by
  rw [expandWithin]
  change Run.bind (Run.gets _) _ m = _
  rw [Run.bind_gets, h]
  rfl

theorem expandWithin_succ {f : Value} {operands : List Value} (h : m.macroCall? e form = some (f, operands)) :
    expandWithin recur ctx e (n + 1) form m =
      Run.bind (Call.finish recur (ctx.holdValue form) f operands) (fun form' =>
        Run.bind (Run.recordValue ctx .trace "macroexpand produced " form') fun _ =>
          expandWithin recur ctx e n form') m := by
  rw [expandWithin]
  change Run.bind (Run.gets _) _ m = _
  rw [Run.bind_gets, h]
  rfl

end

/-- A form with no macro call left at its head. -/
def expand (recur : Evaluator) (ctx : Context) (e : FrameId) (form : Value) : Run Value :=
  expandWithin recur (ctx.hold e form) e maxExpansions form

end MiniLisp
