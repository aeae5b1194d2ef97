import MiniLisp.Eval.Call

/-!
# What ordinary builtins are made of

An ordinary builtin is put together from few operations, most of which look at its arguments only. A property of runs
that these operations have, and that is kept when runs are put together, is one of every call of a builtin
(`Kept.builtin`).
-/

namespace MiniLisp

/-- A property of runs that is kept when runs are put together, and that whatever a builtin does has. -/
structure Kept (P : (α : Type) → Run α → Prop) (ctx : Context) : Prop where
  ofExcept {α : Type} (x : Except EvalError α) : P α (Run.ofExcept x)
  bind {α β : Type} {x : Run α} {f : α → Run β} (h : P α x) (hf : ∀ a, P β (f a)) : P β (Run.bind x f)
  observe {α : Type} {x : Run α} {f : α → Run Unit} {g : EvalError → Run Unit} (h : P α x) (hf : ∀ a, P Unit (f a))
    (hg : ∀ fault, P Unit (g fault)) : P α (Run.observe x f g)
  record (level : Level) (message : Message) : P Unit (Run.record ctx level message)
  joined (mode : Mode) (between : String) (args : List Value) : P String (Run.joined mode between args)
  printLine (line : String) : P Unit (Run.modify fun m => m.printLine line)
  addAtom (v : Value) : P AtomId (Run.change fun m => m.addAtom v)
  atomValue (a : AtomId) : P Value (Run.gets fun m => m.atomValue a)
  setAtom (a : AtomId) (v : Value) : P Unit (Run.modify fun m => m.setAtom a v)

namespace Kept

variable {P : (α : Type) → Run α → Prop} {ctx : Context}

theorem pure (k : Kept P ctx) {α : Type} (a : α) : P α (Run.pure a) := k.ofExcept (.ok a)

theorem fail (k : Kept P ctx) {α : Type} (fault : EvalError) : P α (Run.fail fault) := k.ofExcept (.error fault)

/-- `slurp` records and then depends on the files alone. -/
theorem slurpFile (k : Kept P ctx) (v : Value) : P Value (Builtin.slurpFile ctx v) := by
  refine k.bind (k.ofExcept _) fun path => k.bind (k.record _ _) fun _ => ?_
  split
  · exact k.pure _
  · exact k.fail _

/-- `prn` and `println` join their arguments and print the line. -/
theorem printed (k : Kept P ctx) (mode : Mode) (args : List Value) : P Value (Builtin.printLine mode args) :=
  k.bind (k.joined _ _ _) fun line => k.bind (k.printLine line) fun _ => k.pure _

theorem text (k : Kept P ctx) (mode : Mode) (between : String) (args : List Value) :
    P Value (Run.bind (Run.joined mode between args) fun s => Run.pure (.text s)) :=
  k.bind (k.joined _ _ _) fun _ => k.pure _

theorem make (k : Kept P ctx) (v : Value) : P Value (Cell.make v) := k.bind (k.addAtom v) fun _ => k.pure _

theorem deref (k : Kept P ctx) (v : Value) : P Value (Cell.deref v) := k.bind (k.ofExcept _) k.atomValue

/-- `reset!` takes an atom or fails. -/
theorem reset (k : Kept P ctx) (cell v : Value) : P Value (Cell.reset cell v) :=
  k.bind (k.ofExcept _) fun a => k.bind (k.setAtom a v) fun _ => k.pure v

/-- What is kept by the operations is kept by every builtin, case by case. -/
theorem run (k : Kept P ctx) (b : Builtin) (args : List Value) : P Value (b.run ctx args) := by
  unfold Builtin.run
  split
  -- most builtins look at their arguments only
  any_goals exact k.ofExcept _
  · exact k.text _ _ _
  · exact k.text _ _ _
  · exact k.printed _ _
  · exact k.printed _ _
  · exact k.slurpFile _
  · exact k.make _
  · exact k.deref _
  · exact k.reset _ _

/-- A count that is right does nothing, and a wrong one fails. -/
theorem checkCount (k : Kept P ctx) (name : String) (arity : Arity) (args : List Value) :
    P Unit (Call.checkCount name arity args) := by
  unfold Call.checkCount
  split
  · exact k.pure ()
  · exact k.fail _

/-- What is kept is a property of every call of an ordinary builtin. -/
theorem builtin (k : Kept P ctx) (b : Builtin) (args : List Value) : P Value (Call.builtin ctx b args) := by
  refine k.bind (k.checkCount _ _ _) fun _ => k.bind (k.record _ _) fun _ => ?_
  exact k.observe (k.run b args) (fun _ => k.record _ _) fun _ => k.record _ _

end Kept

end MiniLisp
