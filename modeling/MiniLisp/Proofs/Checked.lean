import Mathlib
import MiniLisp.Eval.Evaluate
import MiniLisp.Proofs.Entries

/-!
# Accesses stay in range

Evaluation as a machine does it that takes operands out of lists by their index, cuts lists at an index and divides
integers, and looks after nothing: counts are checked in one place, and accesses are made in another (`Checked.body`,
`Checked.special` and so on). What an access out of range does is left open (`Crash`). Since evaluation is the same
whatever that is, no access is out of range, however many operands were written.

* `Checked.body_eq`: no builtin reaches further than its arity allows.
* `Checked.step_eq`: neither does a step of evaluation.
* **Safety** (`accesses_stay_in_range`).
-/

namespace MiniLisp

/-- What an access out of range does, which may be anything. -/
abbrev Crash := (α : Type) → Run α

namespace Checked

variable (crash : Crash)

/-! ## Accesses -/

/-- The element at an index. -/
def index {α : Type} (xs : List α) (i : Nat) : Run α :=
  match xs[i]? with
  | some x => Run.pure x
  | none => crash α

/-- The elements from an index on. -/
def slice (xs : List Value) (start : Nat) : Run (List Value) :=
  if start ≤ xs.length then Run.pure (xs.drop start) else crash _

/-- The elements before an index, and those from there on. -/
def split (xs : List Value) (k : Nat) : Run (List Value × List Value) :=
  if k ≤ xs.length then Run.pure (xs.take k, xs.drop k) else crash _

/-- A difference of indices. -/
def minus (n k : Nat) : Run Nat := if k ≤ n then Run.pure (n - k) else crash _

/-- The quotient of integers, truncated toward zero. -/
def quotient (m n : Int64) : Run Int64 := if n = 0 then crash _ else Run.pure (m / n)

/-! ## Builtins -/

def divide : Number → Number → Run Number
  | .int _, .int 0 => Run.fail .divisionByZero
  | .int m, .int n => Run.bind (quotient crash m n) fun q => Run.pure (.int q)
  | x, y => Run.pure (.float (x.toFloat / y.toFloat))

def divideAll : Number → List Number → Run Number
  | x, [] => Run.pure x
  | x, y :: rest => Run.bind (divide crash x y) fun z => divideAll z rest

def divideNumbers : List Number → Run Number
  | [] => Run.pure (.int 1)
  | [x] => divide crash (.int 1) x
  | x :: rest => divideAll crash x rest

/-- A builtin that works on its first argument. -/
def first (f : Value → Run Value) (args : List Value) : Run Value := Run.bind (index crash args 0) f

/-- A builtin that works on its first two arguments. -/
def firstTwo (f : Value → Value → Run Value) (args : List Value) : Run Value :=
  Run.bind (index crash args 0) fun x => Run.bind (index crash args 1) fun y => f x y

/-- A builtin that works on its first argument and all further ones. -/
def firstAndRest (f : Value → List Value → Run Value) (args : List Value) : Run Value :=
  Run.bind (index crash args 0) fun x => Run.bind (slice crash args 1) fun rest => f x rest

/-- A builtin at work, whatever the count of its arguments. -/
def body (ctx : Context) : Builtin → List Value → Run Value
  | .add => fun args => Run.ofExcept (Arithmetic.sum args)
  | .subtract => fun args => Run.ofExcept (Arithmetic.difference args)
  | .multiply => fun args => Run.ofExcept (Arithmetic.product args)
  | .divide => fun args =>
    Run.bind (Run.ofExcept (Arithmetic.numbers args)) fun xs =>
      Run.bind (divideNumbers crash xs) fun x => Run.pure x.toValue
  | .equal => firstTwo crash fun x y => Run.pure (.bool (x.equal y))
  | .greater => firstTwo crash fun x y => Run.ofExcept (Arithmetic.comparison (fun a b => b.less a) x y)
  | .greaterEqual => firstTwo crash fun x y => Run.ofExcept (Arithmetic.comparison (fun a b => b.lessEqual a) x y)
  | .less => firstTwo crash fun x y => Run.ofExcept (Arithmetic.comparison Number.less x y)
  | .lessEqual => firstTwo crash fun x y => Run.ofExcept (Arithmetic.comparison Number.lessEqual x y)
  | .prStr => fun args => Run.bind (Run.joined .readable " " args) fun s => Run.pure (.text s)
  | .str => fun args => Run.bind (Run.joined .plain "" args) fun s => Run.pure (.text s)
  | .prn => Builtin.printLine .readable
  | .println => Builtin.printLine .plain
  | .readString => first crash fun v => Run.ofExcept (Convert.readString v)
  | .slurp => first crash (Builtin.slurpFile ctx)
  | .list => fun args => Run.pure (.list args)
  | .vector => fun args => Run.pure (.vector args)
  | .vec => first crash fun v => Run.ofExcept (Sequence.vec v)
  | .cons => firstTwo crash fun x s => Run.ofExcept (Sequence.cons x s)
  | .concat => fun args => Run.ofExcept (Sequence.concat args)
  | .nth => firstTwo crash fun s i => Run.ofExcept (Sequence.nth s i)
  | .first => first crash fun s => Run.ofExcept (Sequence.first s)
  | .rest => first crash fun s => Run.ofExcept (Sequence.rest s)
  | .isEmpty => first crash fun s => Run.ofExcept (Sequence.isEmpty s)
  | .count => first crash fun s => Run.ofExcept (Sequence.count s)
  | .hashMap => fun args => Run.ofExcept (Table.hashMap args)
  | .assoc => firstAndRest crash fun m rest => Run.ofExcept (Table.assoc m rest)
  | .dissoc => firstAndRest crash fun m rest => Run.ofExcept (Table.dissoc m rest)
  | .get => firstTwo crash fun m k => Run.ofExcept (Table.get m k)
  | .contains => firstTwo crash fun m k => Run.ofExcept (Table.contains m k)
  | .keys => first crash fun m => Run.ofExcept (Table.keys m)
  | .vals => first crash fun m => Run.ofExcept (Table.vals m)
  | .atom => first crash Cell.make
  | .deref => first crash Cell.deref
  | .reset => firstTwo crash Cell.reset
  | .isNil => first crash fun v => Run.pure (.bool (Convert.isNil v))
  | .isTrue => first crash fun v => Run.pure (.bool (Convert.isTrue v))
  | .isFalse => first crash fun v => Run.pure (.bool (Convert.isFalse v))
  | .isList => first crash fun v => Run.pure (.bool (Convert.isList v))
  | .isVector => first crash fun v => Run.pure (.bool (Convert.isVector v))
  | .isSequential => first crash fun v => Run.pure (.bool (Convert.isSequential v))
  | .isAtom => first crash fun v => Run.pure (.bool (Convert.isAtom v))
  | .symbol => first crash fun v => Run.ofExcept (Convert.symbol v)
  | .isSymbol => first crash fun v => Run.pure (.bool (Convert.isSymbol v))
  | .keyword => first crash fun v => Run.ofExcept (Convert.keyword v)
  | .isKeyword => first crash fun v => Run.pure (.bool (Convert.isKeyword v))
  | .isMap => first crash fun v => Run.pure (.bool (Convert.isMap v))
  | .isFunction => first crash fun v => Run.pure (.bool (Convert.isFunction v))
  | .isMacro => first crash fun v => Run.pure (.bool v.expands)
  | .isString => first crash fun v => Run.pure (.bool (Convert.isString v))
  | .isNumber => first crash fun v => Run.pure (.bool (Convert.isNumber v))
  | .throw => first crash fun v => Run.fail (.thrown v)

/-- What is called, and with which arguments; one argument alone is taken by its index. -/
def recordCall (ctx : Context) (what : Message) (args : List Value) : Run Unit :=
  if args.length = 1 then
    Run.bind (index crash args 0) fun v => Run.record ctx .trace fun contents => do
      return "Call " ++ (← what contents) ++ " with " ++ (← Message.value "" v contents)
  else Call.recordCall ctx what args

/-- A call of an ordinary builtin. -/
def builtin (ctx : Context) (b : Builtin) (args : List Value) : Run Value :=
  Run.bind (Call.checkCount b.name b.arity args) fun _ =>
    Run.bind (recordCall crash ctx (fun _ => some b.name) args) fun _ =>
      Run.observe (body crash ctx b args)
        (fun v => Run.recordValue ctx .trace ("Call to " ++ b.name ++ " resulted in ") v)
        (fun e => Run.record ctx .trace fun contents =>
          (e.message contents).map fun t => "Call to " ++ b.name ++ " failed: " ++ t)

/-- A rooted builtin at work in its root, whatever the count of its arguments. -/
def inRoot (recur : Evaluator) (ctx : Context) (root : FrameId) : Rooted → List Value → Run Value
  | .eval, args =>
    Run.bind (index crash args 0) fun form =>
      Run.bind (Run.recordValue ctx .info "Call from mal to EVAL with " form) fun _ => recur ctx root form
  | .swap, args =>
    Run.bind (index crash args 0) fun cell =>
      Run.bind (Run.ofExcept (Cell.atom cell)) fun a =>
        Run.bind (index crash args 1) fun f =>
          if f.callable then
            Run.bind (Run.gets fun m => m.atomValue a) fun current =>
              Run.bind (slice crash args 2) fun rest =>
                let form := Call.swapForm cell f current rest
                Run.bind (Run.recordValue ctx .trace "swap! evaluates " form) fun _ =>
                  recur (ctx.holdValue form) root form
          else Run.fail (.mismatch .callable)

/-- A call of a rooted builtin. -/
def rooted (recur : Evaluator) (ctx : Context) (b : Rooted) (root : FrameId) (args : List Value) : Run Value :=
  Run.bind (Call.checkCount b.name b.arity args) fun _ =>
    Run.bind (Run.gets fun m => m.isAlive ctx.held root) fun alive =>
      if alive then
        Run.bind (recordCall crash ctx (fun _ => some b.name) args) fun _ =>
          inRoot crash recur (ctx.holdFrame root) root b args
      else Run.fail (.detached b.name)

/-! ## Calls -/

/-- The bindings of parameters, from arguments that are split where the positional ones end. -/
def bindings (p : Params) (args : List Value) : Run Bindings :=
  Run.bind (split crash args p.positional.length) fun (firsts, rest) =>
    let bs := Bindings.insertAll [] (p.positional.zip firsts)
    match p.rest with
    | none => Run.pure bs
    | some name => Run.pure (bs.insert name (.list rest))

def enter (params : Params) (captured : FrameId) (args : List Value) : Run FrameId :=
  Run.bind (Call.checkCount "closure" params.arity args) fun _ =>
    Run.bind (bindings crash params args) fun bs => Run.change fun m => m.addFrame bs (some captured)

def apply (recur : Evaluator) (ctx : Context) (f : Value) (args : List Value) : Run Turn :=
  match f with
  | .builtin b => Run.bind (builtin crash ctx b args) fun v => Run.pure (.done v)
  | .rooted b root => Run.bind (rooted crash recur (ctx.holdItems (f :: args)) b root args) fun v => Run.pure (.done v)
  | .closure _ params body captured isMacro =>
    Run.bind (recordCall crash ctx (Call.closureText params body isMacro) args) fun _ =>
      Run.bind (enter crash params captured args) fun e => Run.pure (.again e body)
  | _ => Run.fail (.mismatch .callable)

def finish (recur : Evaluator) (ctx : Context) (f : Value) (args : List Value) : Run Value :=
  Run.bind (apply crash recur ctx f args) (Turn.next recur (ctx.holdCall f args))

/-! ## Macros and templates -/

/-- The operands of a macro call are what follows the first element. -/
def operandsOf : Value → Run (List Value)
  | .list argv => slice crash argv 1
  | _ => crash _

def expandWithin (recur : Evaluator) (ctx : Context) (e : FrameId) : Nat → Value → Run Value
  | 0, form =>
    Run.bind (Run.gets fun m => m.macroCall? e form) fun call =>
      match call with
      | none => Run.pure form
      | some _ => Run.fail (.expansionLimit maxExpansions)
  | remaining + 1, form =>
    Run.bind (Run.gets fun m => m.macroCall? e form) fun call =>
      match call with
      | none => Run.pure form
      | some (f, _) =>
        Run.bind (operandsOf crash form) fun operands =>
          Run.bind (finish crash recur (ctx.holdValue form) f operands) fun form' =>
            Run.bind (Run.recordValue ctx .trace "macroexpand produced " form') fun _ =>
              expandWithin recur ctx e remaining form'

def expand (recur : Evaluator) (ctx : Context) (e : FrameId) (form : Value) : Run Value :=
  expandWithin crash recur (ctx.hold e form) e maxExpansions form

/-- The operand of a marker, by its index once the length is checked. -/
def operand (name : String) (items : List Value) : Run (Except ArityError Value) :=
  if items.length = 2 then Run.bind (index crash items 1) fun v => Run.pure (.ok v)
  else Run.pure (.error ⟨name, .exactly 2, items.length⟩)

mutual

def template : Value → Run (Except ArityError Value)
  | .list items =>
    match Value.marked? "unquote" (.list items) with
    | some marker => operand crash "unquote" marker
    | none => templateItems items
  | .vector items => Run.bind (templateItems items) fun r => Run.pure (r.map fun form => .list [.symbol "vec", form])
  | .symbol name => Run.pure (.ok (Value.symbol name).quoted)
  | .map es => Run.pure (.ok (Value.map es).quoted)
  | v => Run.pure (.ok v)

def templateItems : List Value → Run (Except ArityError Value)
  | [] => Run.pure (.ok (.list []))
  | x :: xs =>
    Run.bind (templateItems xs) fun r =>
      match r with
      | .error fault => Run.pure (.error fault)
      | .ok form =>
        match Value.marked? "splice-unquote" x with
        | some marker =>
          Run.bind (operand crash "splice-unquote" marker) fun r =>
            Run.pure (r.map fun v => .list [.symbol "concat", v, form])
        | none => Run.bind (template x) fun r => Run.pure (r.map fun v => .list [.symbol "cons", v, form])

end

/-- The form that rebuilds a template. -/
def templateForm (v : Value) : Run Value :=
  Run.bind (template crash v) fun r =>
    match r with
    | .ok form => Run.pure form
    | .error fault => Run.fail (.badTemplate fault)

/-! ## Special forms -/

/-- The parameter list that names spell; the marker is looked for at the last index but one. -/
def ofNames (names : List String) : Run (Except ParamsError Params) :=
  match names.count restMarker with
  | 0 => Run.pure (.ok ⟨names, none⟩)
  | 1 =>
    if names.length < 2 then Run.pure (.error .nothingAfterMarker)
    else
      Run.bind (minus crash names.length 2) fun i =>
        Run.bind (index crash names i) fun marker =>
          if marker = restMarker then Run.pure (.ok ⟨names.dropLast.dropLast, names.getLast?⟩)
          else Run.pure (.error .markerNotLastButOne)
  | count => Run.pure (.error (.manyMarkers count))

def signature (v : Value) : Run (Except SignatureError Params) :=
  match v.items? with
  | none => Run.pure (.error .notASequence)
  | some items =>
    match items.mapM Step.parameterName with
    | .error fault => Run.pure (.error fault)
    | .ok names =>
      Run.bind (ofNames crash names) fun r =>
        match r with
        | .ok params => Run.pure (.ok params)
        | .error fault => Run.pure (.error (.badRest fault))

def function (e : FrameId) (parameters body : Value) : Run Value :=
  Run.bind (signature crash parameters) fun r =>
    match r with
    | .error fault => Run.fail (.badSignature fault)
    | .ok params =>
      Run.bind (Run.change Machine.newClosure) fun id => Run.pure (.closure id params body e false)

/-- A special form at work, whatever the count of its operands. -/
def perform (recur : Evaluator) (ctx : Context) (e : FrameId) (s : SpecialForm) (operands : List Value) : Run Turn :=
  let done (x : Run Value) : Run Turn := Run.bind x fun v => Run.pure (.done v)
  match s with
  | .define | .defineMacro =>
    Run.bind (index crash operands 1) fun expr =>
      Run.bind (index crash operands 0) fun target => done (Step.define recur ctx e s target expr)
  | .bindLocally =>
    Run.bind (index crash operands 0) fun bindings =>
      Run.bind (index crash operands 1) fun body => Step.bindLocally recur ctx e bindings body
  | .sequence => Step.sequence recur ctx e operands
  | .choose =>
    Run.bind (index crash operands 0) fun condition =>
      Run.bind (index crash operands 1) fun consequent =>
        Step.choose recur ctx e condition consequent (operands[2]?.getD .nil)
  | .function =>
    Run.bind (index crash operands 0) fun parameters =>
      Run.bind (index crash operands 1) fun body => done (function crash e parameters body)
  | .quote => done (index crash operands 0)
  | .showTemplate => done (Run.bind (index crash operands 0) (templateForm crash))
  | .template =>
    Run.bind (Run.bind (index crash operands 0) (templateForm crash)) fun form => Run.pure (.again e form)
  | .showExpansion => done (Run.bind (index crash operands 0) (expand crash recur ctx e))

def special (recur : Evaluator) (ctx : Context) (e : FrameId) (s : SpecialForm) (operands : List Value) : Run Turn :=
  Run.bind (Call.checkCount s.name s.arity operands) fun _ => perform crash recur ctx e s operands

/-! ## Evaluation -/

def call (recur : Evaluator) (ctx : Context) (e : FrameId) (items : List Value) : Run Turn :=
  Run.bind (Step.each recur ctx e items) fun vs =>
    match vs with
    | f :: args => apply crash recur ctx f args
    | [] => Run.pure (.done (.list []))

/-- A form with no macro call at its head. A list that is not empty is cut after its first element. -/
def expanded (recur : Evaluator) (ctx : Context) (e : FrameId) (form : Value) : Run Turn :=
  match form with
  | .list argv =>
    if argv.isEmpty then Run.pure (.done form)
    else
      Run.bind (Run.recordValue ctx .trace "apply " form) fun _ =>
        Run.bind (slice crash argv 1) fun operands =>
          Run.bind (index crash argv 0) fun head =>
            match SpecialForm.ofValue? head with
            | some s => special crash recur (ctx.hold e form) e s operands
            | none => call crash recur (ctx.hold e form) e argv
  | form => Run.bind (Step.plain recur ctx e form) fun v => Run.pure (.done v)

def step (recur : Evaluator) (ctx : Context) (e : FrameId) (form : Value) : Run Turn :=
  Run.bind (expand crash recur ctx e form) fun form => expanded crash recur ctx e form

def advance (recur : Evaluator) (ctx : Context) (e : FrameId) (form : Value) : Run Value :=
  Run.bind (step crash recur ctx e form) (Turn.next recur fun _ _ => ctx)

/-- Evaluation with no more than some steps in a row and no more than some evaluations inside each other. -/
def evalWithin : Nat → Evaluator
  | 0, _, _, _ => fun _ => none
  | bound + 1, ctx, e, form => advance crash (evalWithin bound) ctx e form

/-! ## Builtins are in range -/

variable {crash} {recur : Evaluator} {ctx : Context} {e root : FrameId} {args : List Value}

theorem bind_ofExcept {α β : Type} (x : Except EvalError α) (f : α → β) :
    Run.bind (Run.ofExcept x) (fun a => Run.pure (f a)) = Run.ofExcept (x.map f) := by
  cases x <;> rfl

/-- The divisor has been compared with zero, so the division is never the one that crashes. -/
theorem divide_eq (x y : Number) : divide crash x y = Run.ofExcept (Arithmetic.divide x y) := by
  unfold divide
  split
  · rfl
  · next m n hn =>
    have hne : n ≠ 0 := hn
    simp only [quotient, if_neg hne, Arithmetic.divide, Number.divide?_int m hne]
    rfl
  · next hzero hint =>
    cases x with
    | float x => rfl
    | int m =>
      cases y with
      | float y => rfl
      | int n => exact (hint m n rfl rfl).elim

/-- The same for a chain of divisions, by induction on the divisors. -/
theorem divideAll_eq (x : Number) (ys : List Number) :
    divideAll crash x ys = Run.ofExcept (ys.foldlM Arithmetic.divide x) := by
  induction ys generalizing x with
  | nil => rfl
  | cons y ys ih =>
    rw [divideAll, divide_eq, List.foldlM_cons]
    cases Arithmetic.divide x y with
    | error fault => rfl
    | ok z => exact ih z

/-- `/` on any arguments: the slice after the first argument is taken only where there is one. -/
theorem body_divide (args : List Value) :
    body crash ctx .divide args = Run.ofExcept (Arithmetic.quotient args) := by
  rw [Arithmetic.quotient]
  change Run.bind (Run.ofExcept (Arithmetic.numbers args)) _ = _
  cases Arithmetic.numbers args with
  | error fault => rfl
  | ok xs =>
    match xs with
    | [] => rfl
    | [x] =>
      change Run.bind (divide crash (.int 1) x) _ = Run.ofExcept ((Arithmetic.divide (.int 1) x).map Number.toValue)
      rw [divide_eq, bind_ofExcept]
    | x :: y :: rest =>
      change Run.bind (divideAll crash x (y :: rest)) _ =
        Run.ofExcept (((y :: rest).foldlM Arithmetic.divide x).map Number.toValue)
      rw [divideAll_eq, bind_ofExcept]

/-- No builtin reaches further than its arity allows. -/
theorem body_eq {b : Builtin} (ctx : Context) (h : b.arity.accepts args.length = true) :
    body crash ctx b args = b.run ctx args := by
  have one (h : (Arity.exactly 1).accepts args.length = true) : ∃ x, args = [x] :=
    List.length_eq_one_iff.1 (Arity.accepts_exactly.1 h)
  have two (h : (Arity.exactly 2).accepts args.length = true) : ∃ x y, args = [x, y] :=
    List.length_eq_two.1 (Arity.accepts_exactly.1 h)
  have more (h : (Arity.atLeast 1).accepts args.length = true) : ∃ x rest, args = x :: rest :=
    List.exists_cons_of_length_pos (Arity.accepts_atLeast.1 h)
  cases b
  case divide => exact body_divide args
  case assoc =>
    obtain ⟨x, rest, rfl⟩ := more h
    rfl
  case dissoc =>
    obtain ⟨x, rest, rfl⟩ := more h
    rfl
  all_goals
    first
    | rfl
    | (obtain ⟨x, rfl⟩ := one h; rfl)
    | (obtain ⟨x, y, rfl⟩ := two h; rfl)

/-- The text of a call is made without looking at arguments that are missing. -/
theorem recordCall_eq (ctx : Context) (what : Message) (args : List Value) :
    recordCall crash ctx what args = Call.recordCall ctx what args := by
  unfold recordCall
  split
  · next h =>
    obtain ⟨v, rfl⟩ := List.length_eq_one_iff.1 h
    rfl
  · rfl

/-- A check of a count that nothing gets past needs no look at what would follow. -/
theorem checkCount_congr {α : Type} {name : String} {arity : Arity} {x y : Run α}
    (h : arity.accepts args.length = true → x = y) :
    Run.bind (Call.checkCount name arity args) (fun _ => x) =
      Run.bind (Call.checkCount name arity args) fun _ => y := by
  unfold Call.checkCount
  split
  · next hn => rw [h hn]
  · rfl

/-- A builtin whose count was checked finds every argument it indexes. -/
theorem builtin_eq (ctx : Context) (b : Builtin) (args : List Value) :
    builtin crash ctx b args = Call.builtin ctx b args := by
  refine checkCount_congr fun h => ?_
  rw [recordCall_eq, body_eq ctx h]
  rfl

/-- Nothing is looked at before the count is checked. -/
theorem builtin_of_badCount {b : Builtin} (h : b.arity.accepts args.length = false) (ctx : Context) (m : Machine) :
    builtin crash ctx b args m = some (.error (.badCount ⟨b.name, b.arity, args.length⟩), m) := by
  unfold builtin Call.checkCount
  rw [h]
  rfl

/-- So do `eval` and `swap!`. -/
theorem inRoot_eq {b : Rooted} (h : b.arity.accepts args.length = true) :
    inRoot crash recur ctx root b args = Call.inRoot recur ctx root b args := by
  cases b with
  | eval =>
    obtain ⟨form, rfl⟩ := List.length_eq_one_iff.1 (Arity.accepts_exactly.1 h)
    rfl
  | swap =>
    match args, Arity.accepts_atLeast.1 h with
    | cell :: f :: rest, _ =>
      cases cell <;> rfl

theorem rooted_eq (b : Rooted) (root : FrameId) (args : List Value) :
    rooted crash recur ctx b root args = Call.rooted recur ctx b root args := by
  refine checkCount_congr fun h => ?_
  rw [recordCall_eq, inRoot_eq h]
  rfl

/-! ## Calls are in range -/

/-- With the right count, the slice for the rest parameter is in range. -/
theorem bindings_eq {p : Params} (h : p.arity.accepts args.length = true) :
    bindings crash p args = Run.pure (p.bindings args) := by
  have enough : p.positional.length ≤ args.length := by
    unfold Params.arity at h
    split at h
    · exact Nat.le_of_eq (Arity.accepts_exactly.1 h).symm
    · exact Arity.accepts_atLeast.1 h
  have zipped : p.positional.zip (args.take p.positional.length) = p.positional.zip args := by
    have cut : p.positional.zip args = _ := List.zip_eq_zip_take_min
    rw [cut, Nat.min_eq_left enough, List.take_length]
  unfold bindings split Params.bindings
  rw [if_pos enough]
  cases p.rest with
  | none => exact congrArg (fun bs => Run.pure (Bindings.insertAll [] bs)) zipped
  | some name =>
    exact congrArg (fun bs => Run.pure ((Bindings.insertAll [] bs).insert name (.list _))) zipped

/-- A call with the wrong count fails before a parameter is looked at. -/
theorem enter_eq (params : Params) (captured : FrameId) (args : List Value) :
    enter crash params captured args = Call.enter params captured args := by
  refine checkCount_congr fun h => ?_
  rw [bindings_eq h]
  rfl

theorem apply_eq (recur : Evaluator) (ctx : Context) (f : Value) (args : List Value) :
    apply crash recur ctx f args = Call.apply recur ctx f args := by
  cases f with
  | builtin b => rw [apply, builtin_eq, Call.apply_builtin]
  | rooted b root => rw [apply, rooted_eq, Call.apply_rooted]
  | closure id params body captured isMacro => rw [apply, recordCall_eq, enter_eq, Call.apply_closure]
  | _ => rfl

theorem finish_eq (recur : Evaluator) (ctx : Context) (f : Value) (args : List Value) :
    finish crash recur ctx f args = Call.finish recur ctx f args := by
  rw [finish, apply_eq]
  rfl

/-! ## Macros and templates are in range -/

/-- What a macro call is asked for is there: a form that calls a macro is a list with a head. -/
theorem operandsOf_eq {m : Machine} {form f : Value} {operands : List Value}
    (h : m.macroCall? e form = some (f, operands)) : operandsOf crash form = Run.pure operands := by
  obtain ⟨name, rfl, -, -⟩ := Machine.macroCall?_eq_some h
  rfl

/-- Expansion looks at the head and the tail of lists that have been matched. -/
theorem expandWithin_eq (recur : Evaluator) (ctx : Context) (e : FrameId) (n : Nat) (form : Value) :
    expandWithin crash recur ctx e n form = MiniLisp.expandWithin recur ctx e n form := by
  induction n generalizing form with
  | zero => rfl
  | succ n ih =>
    funext m
    rw [expandWithin, Run.bind_gets]
    cases hc : m.macroCall? e form with
    | none => rw [expandWithin_of_none hc]; rfl
    | some call =>
      obtain ⟨f, operands⟩ := call
      rw [expandWithin_succ hc]
      simp only [operandsOf_eq hc, finish_eq, ih]
      rfl

theorem expand_eq (recur : Evaluator) (ctx : Context) (e : FrameId) (form : Value) :
    expand crash recur ctx e form = MiniLisp.expand recur ctx e form := expandWithin_eq recur _ e maxExpansions form

/-- The operand of a marker is taken after its count was checked. -/
theorem operand_eq (name : String) (items : List Value) :
    operand crash name items = Run.pure (Value.operand? name items) := by
  match items with
  | [_, _] => rfl
  | [] => rfl
  | [_] => rfl
  | _ :: _ :: _ :: _ => rfl

mutual

/-- A template is taken apart without an index out of range. -/
theorem template_eq (v : Value) : template crash v = Run.pure v.template := by
  cases v with
  | list items =>
    rw [template, Value.template]
    cases Value.marked? "unquote" (.list items) with
    | some marker => exact operand_eq _ marker
    | none => exact templateItems_eq items
  | vector items =>
    rw [template, templateItems_eq items, Value.template]
    rfl
  | _ => rfl

theorem templateItems_eq (items : List Value) : templateItems crash items = Run.pure (Value.templateItems items) := by
  match items with
  | [] => rfl
  | x :: xs =>
    rw [templateItems, templateItems_eq xs, Value.templateItems]
    change (match Value.templateItems xs with | .error fault => _ | .ok form => _ : Run _) = _
    cases Value.templateItems xs with
    | error fault => rfl
    | ok form =>
      cases Value.marked? "splice-unquote" x with
      | some marker =>
        simp only [operand_eq]
        rfl
      | none =>
        simp only [template_eq x]
        rfl

end

theorem templateForm_eq (v : Value) : templateForm crash v = Run.ofExcept (Step.template v) := by
  rw [templateForm, template_eq, Step.template]
  change (match v.template with | .ok form => _ | .error fault => _ : Run Value) = _
  cases v.template <;> rfl

/-! ## Special forms are in range -/

/-- The marker is looked for in a list of at least two names, from behind. -/
theorem ofNames_eq (names : List String) : ofNames crash names = Run.pure (Params.ofNames? names) := by
  obtain ⟨back, rfl⟩ : ∃ back : List String, names = back.reverse := ⟨names.reverse, by simp⟩
  unfold ofNames Params.ofNames?
  rw [List.reverse_reverse]
  match back.reverse.count restMarker with
  | 0 => rfl
  | _ + 2 => rfl
  | 1 =>
    match back with
    | [] => rfl
    | [_] => rfl
    | rest :: marker :: positional =>
      have length : (rest :: marker :: positional).reverse.length = positional.length + 2 := by simp
      have cut : (rest :: marker :: positional).reverse.dropLast.dropLast = positional.reverse := by simp
      have last : (rest :: marker :: positional).reverse.getLast? = some rest := by simp
      have written : (rest :: marker :: positional).reverse[positional.length]? = some marker := by simp
      have found : index crash (rest :: marker :: positional).reverse positional.length = Run.pure marker := by
        rw [index, written]
      have step : minus crash (positional.length + 2) 2 = Run.pure positional.length := if_pos (by omega)
      simp only [length, step, cut, last]
      rw [if_neg (by omega)]
      change Run.bind (index crash (rest :: marker :: positional).reverse positional.length) _ = _
      rw [found]
      change (if marker = restMarker then _ else _ : Run _) = _
      split <;> rfl

/-- The parameter after `&` is looked at only when there is exactly one. -/
theorem signature_eq (v : Value) : signature crash v = Run.pure (Step.signature v) := by
  unfold signature Step.signature
  cases v.items? with
  | none => rfl
  | some items =>
    cases hn : items.mapM Step.parameterName with
    | error fault => simp only [hn]
    | ok names =>
      simp only [hn, ofNames_eq]
      change (match Params.ofNames? names with | .ok params => _ | .error fault => _ : Run _) = _
      cases Params.ofNames? names <;> rfl

theorem function_eq (e : FrameId) (parameters body : Value) :
    function crash e parameters body = Step.function e parameters body := by
  rw [function, signature_eq, Step.function]
  change (match Step.signature parameters with | .error fault => _ | .ok params => _ : Run Value) = _
  cases Step.signature parameters <;> rfl

/-- No special form reaches further than its arity allows. -/
theorem perform_eq {s : SpecialForm} {operands : List Value} (recur : Evaluator) (ctx : Context) (e : FrameId)
    (h : s.arity.accepts operands.length = true) :
    perform crash recur ctx e s operands = Step.special recur ctx e s operands := by
  have one (h : (Arity.exactly 1).accepts operands.length = true) : ∃ x, operands = [x] :=
    List.length_eq_one_iff.1 (Arity.accepts_exactly.1 h)
  have two (h : (Arity.exactly 2).accepts operands.length = true) : ∃ x y, operands = [x, y] :=
    List.length_eq_two.1 (Arity.accepts_exactly.1 h)
  cases s with
  | define | defineMacro | bindLocally =>
    obtain ⟨x, y, rfl⟩ := two h
    rfl
  | sequence => rfl
  | choose =>
    match operands, h with
    | [_, _], _ => rfl
    | [_, _, _], _ => rfl
  | function =>
    obtain ⟨parameters, body, rfl⟩ := two h
    change Run.bind (function crash e parameters body) _ = _
    rw [function_eq, Step.special_function]
  | quote =>
    obtain ⟨v, rfl⟩ := one h
    rfl
  | showTemplate =>
    obtain ⟨v, rfl⟩ := one h
    change Run.bind (templateForm crash v) _ = _
    rw [templateForm_eq, Step.special_showTemplate]
  | template =>
    obtain ⟨v, rfl⟩ := one h
    change Run.bind (templateForm crash v) _ = _
    rw [templateForm_eq, Step.special_template]
  | showExpansion =>
    obtain ⟨form, rfl⟩ := one h
    change Run.bind (expand crash recur ctx e form) _ = _
    rw [expand_eq, Step.special_showExpansion]

/-- Every special form checks its count before it indexes its operands. -/
theorem special_eq (recur : Evaluator) (ctx : Context) (e : FrameId) (s : SpecialForm) (operands : List Value) :
    special crash recur ctx e s operands = Step.special recur ctx e s operands := by
  unfold special Call.checkCount
  split
  · next h => exact perform_eq recur ctx e h
  · next h =>
    rw [Step.special_of_badCount recur ctx e (Bool.not_eq_true _ ▸ h)]
    rfl

/-! ## Evaluation is in range -/

/-- A call has a head, since lists without one are literals. -/
theorem call_eq (recur : Evaluator) (ctx : Context) (e : FrameId) (items : List Value) :
    call crash recur ctx e items = Step.call recur ctx e items := by
  refine congrArg (Run.bind (Step.each recur ctx e items)) (funext fun vs => ?_)
  cases vs with
  | nil => rfl
  | cons f args => exact apply_eq recur ctx f args

/-- An expanded form is dispatched on the head it has been matched with. -/
theorem expanded_eq (recur : Evaluator) (ctx : Context) (e : FrameId) (form : Value) :
    expanded crash recur ctx e form = Step.expanded recur ctx e form := by
  cases form with
  | list argv =>
    cases argv with
    | nil => rfl
    | cons head operands =>
      refine congrArg (Run.bind (Run.recordValue ctx .trace "apply " (.list (head :: operands)))) (funext fun _ => ?_)
      change (match SpecialForm.ofValue? head with | some s => _ | none => _ : Run Turn) = _
      cases SpecialForm.ofValue? head with
      | some s => exact special_eq recur _ e s operands
      | none => exact call_eq recur _ e _
  | _ => rfl

/-- No step of evaluation reaches further than what is written allows. -/
theorem step_eq (recur : Evaluator) (ctx : Context) (e : FrameId) (form : Value) :
    step crash recur ctx e form = MiniLisp.step recur ctx e form := by
  rw [step, expand_eq, MiniLisp.step]
  exact congrArg (Run.bind _) (funext fun form => expanded_eq recur ctx e form)

/-- One round never crashes where the rounds below do not. -/
theorem advance_eq (recur : Evaluator) (ctx : Context) (e : FrameId) (form : Value) :
    advance crash recur ctx e form = MiniLisp.advance recur ctx e form := by
  rw [advance, step_eq, MiniLisp.advance]

theorem evalWithin_eq (bound : Nat) (ctx : Context) (e : FrameId) (form : Value) :
    evalWithin crash bound ctx e form = MiniLisp.evalWithin bound ctx e form := by
  induction bound generalizing ctx e form with
  | zero => rfl
  | succ bound ih =>
    have inside : evalWithin crash bound = MiniLisp.evalWithin bound :=
      funext fun ctx => funext fun e => funext fun form => ih ctx e form
    rw [evalWithin, inside, advance_eq, MiniLisp.evalWithin]

end Checked

/-! ## Safety -/

/-- A call of a builtin fails over the count of its arguments before anything is looked at, or all that the builtin
takes from its arguments is there and what it divides by is not zero. A call of a rooted builtin may also fail because
its root is gone. Whatever an access out of range would do, calls of closures, expansion, every step and every
evaluation go on as if it did something else: it does not occur. -/
theorem accesses_stay_in_range (crash : Crash) :
    (∀ (ctx : Context) (b : Builtin) (args : List Value),
      (b.arity.accepts args.length = false ∧
        ∀ m, Checked.builtin crash ctx b args m =
          some (.error (.badCount ⟨b.name, b.arity, args.length⟩), m)) ∨
      (b.arity.accepts args.length = true ∧ Checked.body crash ctx b args = b.run ctx args ∧
        Checked.builtin crash ctx b args = Call.builtin ctx b args)) ∧
    (∀ (recur : Evaluator) (ctx : Context) (b : Rooted) (root : FrameId) (args : List Value) (m : Machine),
      (b.arity.accepts args.length = false ∧
        Checked.rooted crash recur ctx b root args m =
          some (.error (.badCount ⟨b.name, b.arity, args.length⟩), m)) ∨
      (b.arity.accepts args.length = true ∧ m.isAlive ctx.held root = false ∧
        Checked.rooted crash recur ctx b root args m = some (.error (.detached b.name), m)) ∨
      (b.arity.accepts args.length = true ∧ m.isAlive ctx.held root = true ∧
        Checked.inRoot crash recur (ctx.holdFrame root) root b args =
          Call.inRoot recur (ctx.holdFrame root) root b args ∧
        Checked.rooted crash recur ctx b root args m = Call.rooted recur ctx b root args m)) ∧
    (∀ (params : Params) (captured : FrameId) (args : List Value),
      Checked.enter crash params captured args = Call.enter params captured args) ∧
    (∀ (recur : Evaluator) (ctx : Context) (e : FrameId) (form : Value),
      Checked.expand crash recur ctx e form = expand recur ctx e form ∧
      Checked.step crash recur ctx e form = step recur ctx e form) ∧
    (∀ (bound : Nat) (ctx : Context) (e : FrameId) (form : Value),
      Checked.evalWithin crash bound ctx e form = evalWithin bound ctx e form) ∧
    (∀ (ctx : Context) (e : FrameId) (form : Value),
      evaluate ctx e form = Checked.advance crash evaluate ctx e form) := by
  refine ⟨fun ctx b args => ?_, fun recur ctx b root args m => ?_, Checked.enter_eq,
    fun recur ctx e form => ⟨Checked.expand_eq recur ctx e form, Checked.step_eq recur ctx e form⟩,
    Checked.evalWithin_eq, fun ctx e form => ?_⟩
  · cases hn : b.arity.accepts args.length with
    | false => exact .inl ⟨rfl, Checked.builtin_of_badCount hn ctx⟩
    | true => exact .inr ⟨rfl, Checked.body_eq ctx hn, Checked.builtin_eq ctx b args⟩
  · rw [Checked.rooted_eq]
    cases hn : b.arity.accepts args.length with
    | false => exact .inl ⟨rfl, Call.rooted_of_badCount hn⟩
    | true =>
      cases ha : m.isAlive ctx.held root with
      | false => exact .inr (.inl ⟨rfl, rfl, Call.rooted_of_gone hn ha⟩)
      | true => exact .inr (.inr ⟨rfl, rfl, Checked.inRoot_eq hn, rfl⟩)
  · rw [Checked.advance_eq, ← evaluate_eq]

end MiniLisp
