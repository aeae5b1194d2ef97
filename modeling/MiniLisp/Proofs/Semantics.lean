import MiniLisp.Eval.Evaluate

/-!
# The meaning of forms

Which outcome a form has in a frame, given by rules that follow the form and not the way in which it is evaluated: the
branch of an `if`, the body of a `let*` and the body of a closure are forms inside, like any other. A rule for each row
of the table of special forms, with one more for each way to fail.

An outcome is a value or a failure, with the machine that is left behind. Beside it stand the roots that rooted
builtins evaluate in on the way, in the order in which they do so.

* `Evaluates`: any form.
* `Settles`: a form with no macro call at its head.
* `Performs`: a special form.
* `Applies`: a value applied to arguments.
* `Expands`: a form whose macro calls are expanded.
-/

namespace MiniLisp

/-- A record is made, if it is wanted. -/
def Recorded (ctx : Context) (level : Level) (message : Message) (m m' : Machine) : Prop :=
  Run.record ctx level message m = some (.ok (), m')

/-- Whether the value stands for itself: it is neither a symbol nor a collection. -/
def Value.isLiteral : Value → Bool
  | symbol _ | list _ | vector _ | map _ => false
  | _ => true

/-- The outcome of binding a target in a frame, for a special form. -/
inductive Binds (ctx : Context) (e : FrameId) (form : SpecialForm) :
    Value → Value → Machine → Except EvalError Value × Machine → Prop
  | symbol {name : String} {v : Value} {m m' : Machine}
      (hr : Recorded ctx .debug (Step.bindText form (.symbol name) v) (m.bind e name v) m') :
      Binds ctx e form (.symbol name) v m (.ok v, m')
  | noSymbol {target v : Value} {m : Machine} (h : ∀ name, target ≠ .symbol name) :
      Binds ctx e form target v m (.error (.mismatch .symbol), m)

mutual

/-- The outcome of a form in a frame. A macro call at the head of the form is expanded first. -/
inductive Evaluates :
    Context → FrameId → Value → Machine → List FrameId → Except EvalError Value × Machine → Prop
  | expanded {ctx e form form' m m₁ t u r}
      (hx : Expands (ctx.hold e form) e maxExpansions form m t (.ok form', m₁)) (hs : Settles ctx e form' m₁ u r) :
      Evaluates ctx e form m (t ++ u) r
  | unexpanded {ctx e form fault m m₁ t}
      (hx : Expands (ctx.hold e form) e maxExpansions form m t (.error fault, m₁)) :
      Evaluates ctx e form m t (.error fault, m₁)

/-- The outcome of a form with no macro call at its head. -/
inductive Settles :
    Context → FrameId → Value → Machine → List FrameId → Except EvalError Value × Machine → Prop
  | symbol {ctx e name v m m₁} (hr : Recorded ctx .trace (Message.value "evaluate_ast " (.symbol name)) m m₁)
      (h : m₁.lookup e name = some v) :
      Settles ctx e (.symbol name) m [] (.ok v, m₁)
  | unbound {ctx e name m m₁} (hr : Recorded ctx .trace (Message.value "evaluate_ast " (.symbol name)) m m₁)
      (h : m₁.lookup e name = none) :
      Settles ctx e (.symbol name) m [] (.error (.unbound name), m₁)
  | literal {ctx e v m m₁} (hv : v.isLiteral = true)
      (hr : Recorded ctx .trace (Message.value "evaluate_ast " v) m m₁) :
      Settles ctx e v m [] (.ok v, m₁)
  | vector {ctx e xs m m₁ m₂ t r} (hr : Recorded ctx .trace (Message.value "evaluate_ast " (.vector xs)) m m₁)
      (h : Elements (ctx.hold e (.vector xs)) e xs m₁ t (r, m₂)) :
      Settles ctx e (.vector xs) m t (r.map .vector, m₂)
  | map {ctx e es m m₁ m₂ t r} (hr : Recorded ctx .trace (Message.value "evaluate_ast " (.map es)) m m₁)
      (h : EntryValues (ctx.hold e (.map es)) e es m₁ t (r, m₂)) :
      Settles ctx e (.map es) m t (r.map .map, m₂)
  | empty {ctx e m} : Settles ctx e (.list []) m [] (.ok (.list []), m)
  | special {ctx e head operands s m m₁ t r}
      (hr : Recorded ctx .trace (Message.value "apply " (.list (head :: operands))) m m₁)
      (hs : SpecialForm.ofValue? head = some s)
      (h : Performs ctx (ctx.hold e (.list (head :: operands))) e s operands m₁ t r) :
      Settles ctx e (.list (head :: operands)) m t r
  | call {ctx e head operands f args m m₁ m₂ t u r}
      (hr : Recorded ctx .trace (Message.value "apply " (.list (head :: operands))) m m₁)
      (hs : SpecialForm.ofValue? head = none)
      (hx : Elements (ctx.hold e (.list (head :: operands))) e (head :: operands) m₁ t (.ok (f :: args), m₂))
      (h : Applies (ctx.hold e (.list (head :: operands))) (fun _ _ => ctx) f args m₂ u r) :
      Settles ctx e (.list (head :: operands)) m (t ++ u) r
  | callFails {ctx e head operands fault m m₁ m₂ t}
      (hr : Recorded ctx .trace (Message.value "apply " (.list (head :: operands))) m m₁)
      (hs : SpecialForm.ofValue? head = none)
      (hx : Elements (ctx.hold e (.list (head :: operands))) e (head :: operands) m₁ t (.error fault, m₂)) :
      Settles ctx e (.list (head :: operands)) m t (.error fault, m₂)

/-- The values of forms, from left to right, up to the first failure. -/
inductive Elements :
    Context → FrameId → List Value → Machine → List FrameId → Except EvalError (List Value) × Machine → Prop
  | nil {ctx e m} : Elements ctx e [] m [] (.ok [], m)
  | cons {ctx e x xs v m m₁ m₂ t u r} (hx : Evaluates ctx e x m t (.ok v, m₁))
      (h : Elements (ctx.holdValue v) e xs m₁ u (r, m₂)) :
      Elements ctx e (x :: xs) m (t ++ u) (r.map (v :: ·), m₂)
  | fails {ctx e x xs fault m m₁ t} (hx : Evaluates ctx e x m t (.error fault, m₁)) :
      Elements ctx e (x :: xs) m t (.error fault, m₁)

/-- Entries with the values of their forms, in the order of their keys, up to the first failure. -/
inductive EntryValues :
    Context → FrameId → Entries → Machine → List FrameId → Except EvalError Entries × Machine → Prop
  | nil {ctx e m} : EntryValues ctx e [] m [] (.ok [], m)
  | cons {ctx e k x es v m m₁ m₂ t u r} (hx : Evaluates ctx e x m t (.ok v, m₁))
      (h : EntryValues (ctx.holdValue v) e es m₁ u (r, m₂)) :
      EntryValues ctx e ((k, x) :: es) m (t ++ u) (r.map ((k, v) :: ·), m₂)
  | fails {ctx e k x es fault m m₁ t} (hx : Evaluates ctx e x m t (.error fault, m₁)) :
      EntryValues ctx e ((k, x) :: es) m t (.error fault, m₁)

/-- The outcome of a special form. The second context is for the forms that something is left to do after. -/
inductive Performs :
    Context → Context → FrameId → SpecialForm → List Value → Machine → List FrameId →
      Except EvalError Value × Machine → Prop
  | define {ctx inner e target expr v m m₁ t r} (hx : Evaluates inner e expr m t (.ok v, m₁))
      (hb : Binds inner e .define target v m₁ r) :
      Performs ctx inner e .define [target, expr] m t r
  | defineFails {ctx inner e target expr fault m m₁ t} (hx : Evaluates inner e expr m t (.error fault, m₁)) :
      Performs ctx inner e .define [target, expr] m t (.error fault, m₁)
  | defineMacro {ctx inner e target expr id params body captured isMacro m m₁ t r}
      (hx : Evaluates inner e expr m t (.ok (.closure id params body captured isMacro), m₁))
      (hb : Binds inner e .defineMacro target (.closure m₁.closures params body captured true) m₁.newClosure.2 r) :
      Performs ctx inner e .defineMacro [target, expr] m t r
  | defineMacroFails {ctx inner e target expr fault m m₁ t} (hx : Evaluates inner e expr m t (.error fault, m₁)) :
      Performs ctx inner e .defineMacro [target, expr] m t (.error fault, m₁)
  | noClosure {ctx inner e target expr v m m₁ t} (hx : Evaluates inner e expr m t (.ok v, m₁))
      (hv : ∀ id params body captured isMacro, v ≠ .closure id params body captured isMacro) :
      Performs ctx inner e .defineMacro [target, expr] m t (.error (.mismatch .closure), m₁)
  | bindLocally {ctx inner e bindings body items m m₁ t u r} (hi : Step.bindingItems bindings = .ok items)
      (hb : BindsEach (inner.holdFrame m.frames.size) m.frames.size items (m.addFrame [] (some e)).2 t (.ok (), m₁))
      (hx : Evaluates ctx m.frames.size body m₁ u r) :
      Performs ctx inner e .bindLocally [bindings, body] m (t ++ u) r
  | bindingFails {ctx inner e bindings body items fault m m₁ t} (hi : Step.bindingItems bindings = .ok items)
      (hb : BindsEach (inner.holdFrame m.frames.size) m.frames.size items (m.addFrame [] (some e)).2 t
        (.error fault, m₁)) :
      Performs ctx inner e .bindLocally [bindings, body] m t (.error fault, m₁)
  | noBindings {ctx inner e bindings body fault m} (hi : Step.bindingItems bindings = .error fault) :
      Performs ctx inner e .bindLocally [bindings, body] m [] (.error fault, m)
  | sequenceNil {ctx inner e m t r} (hx : Evaluates ctx e .nil m t r) : Performs ctx inner e .sequence [] m t r
  | sequenceLast {ctx inner e last m t r} (hx : Evaluates ctx e last m t r) :
      Performs ctx inner e .sequence [last] m t r
  | sequenceCons {ctx inner e x y rest v m m₁ t u r} (hx : Evaluates inner e x m t (.ok v, m₁))
      (h : Performs ctx inner e .sequence (y :: rest) m₁ u r) :
      Performs ctx inner e .sequence (x :: y :: rest) m (t ++ u) r
  | sequenceFails {ctx inner e x y rest fault m m₁ t} (hx : Evaluates inner e x m t (.error fault, m₁)) :
      Performs ctx inner e .sequence (x :: y :: rest) m t (.error fault, m₁)
  | choose {ctx inner e condition consequent rest v m m₁ t u r} (hn : rest.length ≤ 1)
      (hc : Evaluates inner e condition m t (.ok v, m₁))
      (hx : Evaluates ctx e (if v.truthy then consequent else rest.headD .nil) m₁ u r) :
      Performs ctx inner e .choose (condition :: consequent :: rest) m (t ++ u) r
  | conditionFails {ctx inner e condition consequent rest fault m m₁ t} (hn : rest.length ≤ 1)
      (hc : Evaluates inner e condition m t (.error fault, m₁)) :
      Performs ctx inner e .choose (condition :: consequent :: rest) m t (.error fault, m₁)
  | function {ctx inner e parameters body params m} (hs : Step.signature parameters = .ok params) :
      Performs ctx inner e .function [parameters, body] m []
        (.ok (.closure m.closures params body e false), m.newClosure.2)
  | noSignature {ctx inner e parameters body fault m} (hs : Step.signature parameters = .error fault) :
      Performs ctx inner e .function [parameters, body] m [] (.error (.badSignature fault), m)
  | quote {ctx inner e v m} : Performs ctx inner e .quote [v] m [] (.ok v, m)
  | showTemplate {ctx inner e v m} : Performs ctx inner e .showTemplate [v] m [] (Step.template v, m)
  | template {ctx inner e v form m t r} (hv : Step.template v = .ok form) (hx : Evaluates ctx e form m t r) :
      Performs ctx inner e .template [v] m t r
  | noTemplate {ctx inner e v fault m} (hv : Step.template v = .error fault) :
      Performs ctx inner e .template [v] m [] (.error fault, m)
  | showExpansion {ctx inner e form m t r} (hx : Expands (inner.hold e form) e maxExpansions form m t r) :
      Performs ctx inner e .showExpansion [form] m t r
  | badCount {ctx inner e s operands m} (hn : s.arity.accepts operands.length = false) :
      Performs ctx inner e s operands m [] (.error (.badCount ⟨s.name, s.arity, operands.length⟩), m)

/-- Symbols bound in turn, each to the value that its form has in the same frame, up to the first failure. -/
inductive BindsEach :
    Context → FrameId → List Value → Machine → List FrameId → Except EvalError Unit × Machine → Prop
  | done {ctx e items m} (hn : items.length ≤ 1) : BindsEach ctx e items m [] (.ok (), m)
  | cons {ctx e name expr rest v m m₁ t u r} (hx : Evaluates ctx e expr m t (.ok v, m₁))
      (h : BindsEach ctx e rest (m₁.bind e name v) u r) :
      BindsEach ctx e (.symbol name :: expr :: rest) m (t ++ u) r
  | noSymbol {ctx e target expr rest v m m₁ t} (hx : Evaluates ctx e expr m t (.ok v, m₁))
      (ht : ∀ name, target ≠ .symbol name) :
      BindsEach ctx e (target :: expr :: rest) m t (.error (.mismatch .symbol), m₁)
  | fails {ctx e target expr rest fault m m₁ t} (hx : Evaluates ctx e expr m t (.error fault, m₁)) :
      BindsEach ctx e (target :: expr :: rest) m t (.error fault, m₁)

/-- The outcome of a value applied to arguments. A builtin works in the context, and `after` says in which context the
body of a closure is evaluated. -/
inductive Applies :
    Context → (FrameId → Value → Context) → Value → List Value → Machine → List FrameId →
      Except EvalError Value × Machine → Prop
  | builtin {ctx after b args m r} (h : Call.builtin ctx b args m = some r) :
      Applies ctx after (.builtin b) args m [] r
  | eval {ctx after root form m m₁ m₂ t r}
      (ha : m.isAlive (ctx.holdItems [.rooted .eval root, form]).held root = true)
      (hr : Recorded ctx .trace (Call.callText (fun _ => some Rooted.eval.name) [form]) m m₁)
      (hr' : Recorded ctx .info (Message.value "Call from mal to EVAL with " form) m₁ m₂)
      (hx : Evaluates ((ctx.holdItems [.rooted .eval root, form]).holdFrame root) root form m₂ t r) :
      Applies ctx after (.rooted .eval root) [form] m (root :: t) r
  | swap {ctx after root a f args m m₁ m₂ t r}
      (ha : m.isAlive (ctx.holdItems (.rooted .swap root :: .atom a :: f :: args)).held root = true)
      (hr : Recorded ctx .trace (Call.callText (fun _ => some Rooted.swap.name) (.atom a :: f :: args)) m m₁)
      (hf : f.callable = true)
      (hr' : Recorded ctx .trace
        (Message.value "swap! evaluates " (Call.swapForm (.atom a) f (m₁.atomValue a) args)) m₁ m₂)
      (hx : Evaluates
        (((ctx.holdItems (.rooted .swap root :: .atom a :: f :: args)).holdFrame root).holdValue
          (Call.swapForm (.atom a) f (m₁.atomValue a) args))
        root (Call.swapForm (.atom a) f (m₁.atomValue a) args) m₂ t r) :
      Applies ctx after (.rooted .swap root) (.atom a :: f :: args) m (root :: t) r
  | noAtom {ctx after root cell f args m m₁}
      (ha : m.isAlive (ctx.holdItems (.rooted .swap root :: cell :: f :: args)).held root = true)
      (hr : Recorded ctx .trace (Call.callText (fun _ => some Rooted.swap.name) (cell :: f :: args)) m m₁)
      (hc : ∀ a, cell ≠ .atom a) :
      Applies ctx after (.rooted .swap root) (cell :: f :: args) m [] (.error (.mismatch .atom), m₁)
  | swapNotCallable {ctx after root a f args m m₁}
      (ha : m.isAlive (ctx.holdItems (.rooted .swap root :: .atom a :: f :: args)).held root = true)
      (hr : Recorded ctx .trace (Call.callText (fun _ => some Rooted.swap.name) (.atom a :: f :: args)) m m₁)
      (hf : f.callable = false) :
      Applies ctx after (.rooted .swap root) (.atom a :: f :: args) m [] (.error (.mismatch .callable), m₁)
  | detached {ctx after b root args m} (hn : b.arity.accepts args.length = true)
      (ha : m.isAlive (ctx.holdItems (.rooted b root :: args)).held root = false) :
      Applies ctx after (.rooted b root) args m [] (.error (.detached b.name), m)
  | rootedBadCount {ctx after b root args m} (hn : b.arity.accepts args.length = false) :
      Applies ctx after (.rooted b root) args m [] (.error (.badCount ⟨b.name, b.arity, args.length⟩), m)
  | closure {ctx after id params body captured isMacro args m m₁ t r}
      (hr : Recorded ctx .trace (Call.callText (Call.closureText params body isMacro) args) m m₁)
      (hn : params.arity.accepts args.length = true)
      (hx : Evaluates (after m₁.frames.size body) m₁.frames.size body
        (m₁.addFrame (params.bindings args) (some captured)).2 t r) :
      Applies ctx after (.closure id params body captured isMacro) args m t r
  | closureBadCount {ctx after id params body captured isMacro args m m₁}
      (hr : Recorded ctx .trace (Call.callText (Call.closureText params body isMacro) args) m m₁)
      (hn : params.arity.accepts args.length = false) :
      Applies ctx after (.closure id params body captured isMacro) args m []
        (.error (.badCount ⟨"closure", params.arity, args.length⟩), m₁)
  | notCallable {ctx after f args m} (hf : f.callable = false) :
      Applies ctx after f args m [] (.error (.mismatch .callable), m)

/-- A form with no macro call left at its head, or the failure to get there. -/
inductive Expands :
    Context → FrameId → Nat → Value → Machine → List FrameId → Except EvalError Value × Machine → Prop
  | done {ctx e n form m} (h : m.macroCall? e form = none) : Expands ctx e n form m [] (.ok form, m)
  | limit {ctx e form call m} (h : m.macroCall? e form = some call) :
      Expands ctx e 0 form m [] (.error (.expansionLimit maxExpansions), m)
  | once {ctx e n form f operands form' m m₁ m₂ t u r} (h : m.macroCall? e form = some (f, operands))
      (hx : Applies (ctx.holdValue form) ((ctx.holdValue form).holdCall f operands) f operands m t (.ok form', m₁))
      (hr : Recorded ctx .trace (Message.value "macroexpand produced " form') m₁ m₂)
      (hs : Expands ctx e n form' m₂ u r) :
      Expands ctx e (n + 1) form m (t ++ u) r
  | fails {ctx e n form f operands fault m m₁ t} (h : m.macroCall? e form = some (f, operands))
      (hx : Applies (ctx.holdValue form) ((ctx.holdValue form).holdCall f operands) f operands m t
        (.error fault, m₁)) :
      Expands ctx e (n + 1) form m t (.error fault, m₁)

end

end MiniLisp
