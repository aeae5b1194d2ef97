import Mathlib
import MiniLisp.Proofs.LoadFile
import MiniLisp.Proofs.Settled

/-!
# The first failure

The elements of a call or of a vector, the operands of a `do` and the forms of a `let*` are evaluated from left to
right. The evaluation of the whole waits for one of them (`Awaits`) when all before it have values, and what stops that
one stops the whole: nothing is done any more. The same is so of what is waited for in more than one step
(`AwaitsWithin`).

* `Succeed.all_or_first`, `BoundInTurn.all_or_first`: of forms in turn all have values, or there is a first one that
  has none.
* `Awaits.halts`, `AwaitsWithin.halts`: what stops a form that is waited for stops the whole.
* `Call.inPlace_of_not_callable`, `Call.inPlace_of_badCount`: calls that are refused once all elements have values.
* **The first failure is the last thing that happens** (`first_failure_aborts`).
-/

namespace MiniLisp

namespace Run

variable {α β : Type} {x : Run α} {m n : Machine} {stop : Option (EvalError × Machine)}

/-- A run without a value: it fails and leaves a machine behind, or it does not end. -/
def Halts (x : Run α) (m : Machine) (stop : Option (EvalError × Machine)) : Prop :=
  x m = stop.map fun out => (.error out.1, out.2)

theorem halts_of_no_value (h : ∀ a n, x m ≠ some (.ok a, n)) : ∃ stop, x.Halts m stop := by
  unfold Halts
  cases hx : x m with
  | none => exact ⟨none, rfl⟩
  | some out =>
    obtain ⟨fault | a, n⟩ := out
    · exact ⟨some (fault, n), rfl⟩
    · exact absurd hx (h a n)

/-- Nothing is done after a run that stops. -/
theorem Halts.bind (h : x.Halts m stop) (f : α → Run β) : (Run.bind x f).Halts m stop := by
  unfold Halts at h ⊢
  unfold Run.bind
  cases stop <;> rw [h] <;> rfl

theorem Halts.of_eq {y : Run α} (he : x m = y n) (h : y.Halts n stop) : x.Halts m stop := he.trans h

end Run

/-! ## Forms in turn -/

/-- Forms evaluated one after another with values for all of them. The context of the next one comes from that of the
one before and its value. -/
inductive Succeed (keep : Context → Value → Context) (e : FrameId) :
    Context → List Value → Machine → List Value → Context → Machine → Prop
  | nil {c m} : Succeed keep e c [] m [] c m
  | cons {c x xs v vs c' m m₁ m'} (hx : evaluate c e x m = some (.ok v, m₁))
      (h : Succeed keep e (keep c v) xs m₁ vs c' m') : Succeed keep e c (x :: xs) m (v :: vs) c' m'

section

variable {keep : Context → Value → Context} {ctx c c' : Context} {e : FrameId} {x : Value}
  {xs before after vs : List Value} {m m' n : Machine} {stop : Option (EvalError × Machine)}

namespace Succeed

/-- Of forms in turn all have values, or there is a first one that has none. -/
theorem all_or_first (keep : Context → Value → Context) (e : FrameId) (c : Context) (xs : List Value) (m : Machine) :
    (∃ vs c' m', Succeed keep e c xs m vs c' m') ∨
      ∃ before x after vs c' m', xs = before ++ x :: after ∧ Succeed keep e c before m vs c' m' ∧
        ∀ v n, evaluate c' e x m' ≠ some (.ok v, n) := by
  induction xs generalizing c m with
  | nil => exact .inl ⟨[], c, m, .nil⟩
  | cons x xs ih =>
    by_cases hx : ∃ v n, evaluate c e x m = some (.ok v, n)
    · obtain ⟨v, n, hx⟩ := hx
      rcases ih (keep c v) n with ⟨vs, c', m', h⟩ | ⟨before, y, after, vs, c', m', rfl, h, first⟩
      · exact .inl ⟨v :: vs, c', m', .cons hx h⟩
      · exact .inr ⟨x :: before, y, after, v :: vs, c', m', rfl, .cons hx h, first⟩
    · exact .inr ⟨[], x, xs, [], c, m, rfl, .nil, fun v n h => hx ⟨v, n, h⟩⟩

/-- Elements hold the values of those before. -/
theorem each (h : Succeed Context.holdValue e c before m vs c' m') (after : List Value) :
    Step.each evaluate c e (before ++ after) m =
      Run.bind (Step.each evaluate c' e after) (fun ws => Run.pure (vs ++ ws)) m' := by
  induction h with
  | @nil c m => exact (congrFun (bind_pure (Step.each evaluate c e after)) m).symm
  | cons hx _ ih =>
    rw [List.cons_append, Call.each_cons, Run.bind_ok hx, Run.bind_congr ih, Run.bind_assoc]
    rfl

theorem each_all (h : Succeed Context.holdValue e c xs m vs c' m') :
    Step.each evaluate c e xs m = some (.ok vs, m') := by
  have all := h.each []
  rw [List.append_nil] at all
  exact all.trans (congrArg (fun ws : List Value => some (Except.ok ws, m')) (List.append_nil vs))

theorem each_halts (h : Succeed Context.holdValue e c before m vs c' m') (hx : (evaluate c' e x).Halts m' stop)
    (after : List Value) : (Step.each evaluate c e (before ++ x :: after)).Halts m stop :=
  .of_eq (h.each _) ((hx.bind _).bind _)

/-- Nothing is held of the values of forms in order. -/
theorem inOrder (h : Succeed (fun c _ => c) e c before m vs c' m') (after : List Value) :
    c' = c ∧ MiniLisp.inOrder c e (before ++ after) m = MiniLisp.inOrder c e after m' := by
  induction h with
  | nil => exact ⟨rfl, rfl⟩
  | cons hx _ ih => exact ⟨ih.1, (Run.bind_ok hx).trans ih.2⟩

end Succeed

/-! ## Names in turn -/

/-- Names bound in a frame one after another, each to the value that its form has there. -/
inductive BoundInTurn (ctx : Context) (e : FrameId) : List (String × Value) → Machine → Machine → Prop
  | nil {m : Machine} : BoundInTurn ctx e [] m m
  | cons {name : String} {x v : Value} {rest : List (String × Value)} {m m₁ m' : Machine}
      (hx : evaluate ctx e x m = some (.ok v, m₁))
      (h : BoundInTurn ctx e rest (m₁.bind e name v) m') : BoundInTurn ctx e ((name, x) :: rest) m m'

/-- The items that spell bindings. -/
def bindingForms (bs : List (String × Value)) : List Value := bs.flatMap fun b => [.symbol b.1, b.2]

theorem length_bindingForms (bs : List (String × Value)) : (bindingForms bs).length = 2 * bs.length := by
  induction bs with
  | nil => rfl
  | cons b bs ih =>
    simp only [bindingForms, List.flatMap_cons, List.length_append, List.length_cons, List.length_nil] at ih ⊢
    omega

namespace BoundInTurn

/-- Of names in turn all are bound, or there is a first one whose form has no value. -/
theorem all_or_first (ctx : Context) (e : FrameId) (bs : List (String × Value)) (m : Machine) :
    (∃ m', BoundInTurn ctx e bs m m') ∨
      ∃ before name x after m', bs = before ++ (name, x) :: after ∧ BoundInTurn ctx e before m m' ∧
        ∀ v n, evaluate ctx e x m' ≠ some (.ok v, n) := by
  induction bs generalizing m with
  | nil => exact .inl ⟨m, .nil⟩
  | cons b bs ih =>
    obtain ⟨name, x⟩ := b
    by_cases hx : ∃ v n, evaluate ctx e x m = some (.ok v, n)
    · obtain ⟨v, n, hx⟩ := hx
      rcases ih (n.bind e name v) with ⟨m', h⟩ | ⟨before, other, y, after, m', rfl, h, first⟩
      · exact .inl ⟨m', .cons hx h⟩
      · exact .inr ⟨(name, x) :: before, other, y, after, m', rfl, .cons hx h, first⟩
    · exact .inr ⟨[], name, x, bs, m, rfl, .nil, fun v n h => hx ⟨v, n, h⟩⟩

theorem bindEach {bs : List (String × Value)} (h : BoundInTurn ctx e bs m m') (after : List Value) :
    Step.bindEach evaluate ctx e (bindingForms bs ++ after) m = Step.bindEach evaluate ctx e after m' := by
  induction h with
  | nil => rfl
  | cons hx _ ih => exact (Run.bind_ok hx).trans ih

theorem bindEach_halts {bs : List (String × Value)} (h : BoundInTurn ctx e bs m m')
    (hx : (evaluate ctx e x).Halts m' stop) (target : Value) (after : List Value) :
    (Step.bindEach evaluate ctx e (bindingForms bs ++ target :: x :: after)).Halts m stop :=
  .of_eq (h.bindEach _) (hx.bind _)

end BoundInTurn

end

/-! ## What a form waits for -/

theorem bindingItems_of_even {bindings : Value} {items : List Value} (h : bindings.items? = some items)
    (he : items.length % 2 = 0) : Step.bindingItems bindings = .ok items := by
  simp only [Step.bindingItems, h, if_pos he]

/-- The evaluation of a list that is no macro call has begun: the list is recorded. -/
structure Begun (ctx : Context) (e : FrameId) (form : Value) (m m₁ : Machine) : Prop where
  noCall : m.macroCall? e form = none
  recorded : Recorded ctx .trace (Message.value "apply " form) m m₁

theorem Begun.evaluate_special {ctx : Context} {e : FrameId} {head : Value} {operands : List Value} {s : SpecialForm}
    {m m₁ : Machine} (h : Begun ctx e (.list (head :: operands)) m m₁) (hs : SpecialForm.ofValue? head = some s) :
    evaluate ctx e (.list (head :: operands)) m =
      Run.bind (Step.special evaluate (ctx.hold e (.list (head :: operands))) e s operands)
        (Turn.next evaluate fun _ _ => ctx) m₁ := by
  rw [evaluate_settled h.noCall, Step.expanded_special hs, Run.bind_assoc]
  exact Run.bind_ok h.recorded

/-- The form `(let* bindings body)`. -/
def letForm (bindings body : Value) : Value := .list [.symbol "let*", bindings, body]

/-- The context in which the forms of a `let*` are evaluated, with its frame. -/
def Context.binding (ctx : Context) (e : FrameId) (bindings body : Value) (child : FrameId) : Context :=
  (ctx.hold e (letForm bindings body)).holdFrame child

/-- While a form is evaluated, another one is evaluated on its behalf, and whatever stands before it has a value. -/
inductive Awaits (ctx : Context) (e : FrameId) : Value → Machine → Context → FrameId → Value → Machine → Prop
  /-- An element of a call. -/
  | element {head x operands before after vs c m m₁ n} (h : Begun ctx e (.list (head :: operands)) m m₁)
      (hs : SpecialForm.ofValue? head = none) (hx : head :: operands = before ++ x :: after)
      (hb : Succeed Context.holdValue e (ctx.hold e (.list (head :: operands))) before m₁ vs c n) :
      Awaits ctx e (.list (head :: operands)) m c e x n
  /-- An element of a vector. -/
  | vector {x before after vs c m m₁ n}
      (hr : Recorded ctx .trace (Message.value "evaluate_ast " (.vector (before ++ x :: after))) m m₁)
      (hb : Succeed Context.holdValue e (ctx.hold e (.vector (before ++ x :: after))) before m₁ vs c n) :
      Awaits ctx e (.vector (before ++ x :: after)) m c e x n
  /-- An operand of `do` but the last one. -/
  | sequence {x before after vs c m m₁ n} (h : Begun ctx e (doForm (before ++ x :: after)) m m₁) (ha : after ≠ [])
      (hb : Succeed (fun c _ => c) e (ctx.hold e (doForm (before ++ x :: after))) before m₁ vs c n) :
      Awaits ctx e (doForm (before ++ x :: after)) m c e x n
  /-- The last operand of `do`, which stands in its place. -/
  | last {x before vs c m m₁ n} (h : Begun ctx e (doForm (before ++ [x])) m m₁)
      (hb : Succeed (fun c _ => c) e (ctx.hold e (doForm (before ++ [x]))) before m₁ vs c n) :
      Awaits ctx e (doForm (before ++ [x])) m ctx e x n
  /-- A form of `let*`, in a new frame that binds the names before it. -/
  | binding {bindings body target x bs after m m₁ n} (h : Begun ctx e (letForm bindings body) m m₁)
      (hi : bindings.items? = some (bindingForms bs ++ target :: x :: after)) (ha : after.length % 2 = 0)
      (hb : BoundInTurn (ctx.binding e bindings body m₁.frames.size) m₁.frames.size bs
        (m₁.addFrame [] (some e)).2 n) :
      Awaits ctx e (letForm bindings body) m (ctx.binding e bindings body m₁.frames.size) m₁.frames.size x n
  /-- The body of `let*`, which stands in its place. -/
  | body {bindings body bs m m₁ n} (h : Begun ctx e (letForm bindings body) m m₁)
      (hi : bindings.items? = some (bindingForms bs))
      (hb : BoundInTurn (ctx.binding e bindings body m₁.frames.size) m₁.frames.size bs
        (m₁.addFrame [] (some e)).2 n) :
      Awaits ctx e (letForm bindings body) m ctx m₁.frames.size body n
  /-- The form whose value is to be bound. -/
  | define {s : SpecialForm} {target x m m₁} (hs : s = .define ∨ s = .defineMacro)
      (h : Begun ctx e (.list [.symbol s.name, target, x]) m m₁) :
      Awaits ctx e (.list [.symbol s.name, target, x]) m (ctx.hold e (.list [.symbol s.name, target, x])) e x m₁

/-- What is waited for, or waited for on behalf of what is waited for, and so on. -/
inductive AwaitsWithin : Context → FrameId → Value → Machine → Context → FrameId → Value → Machine → Prop
  | itself {ctx e form m} : AwaitsWithin ctx e form m ctx e form m
  | inside {ctx e form m c f x n c' f' x' n'} (h : Awaits ctx e form m c f x n)
      (hin : AwaitsWithin c f x n c' f' x' n') : AwaitsWithin ctx e form m c' f' x' n'

section

variable {ctx c : Context} {e f : FrameId} {form x : Value} {m n : Machine} {stop : Option (EvalError × Machine)}

/-- What stops a form that is waited for stops the whole, and the machine stays as it is. -/
theorem Awaits.halts (h : Awaits ctx e form m c f x n) (hx : (evaluate c f x).Halts n stop) :
    (evaluate ctx e form).Halts m stop := by
  cases h with
  | @element _ _ _ _ after _ _ _ _ _ h hs hop hb =>
    have elements := hb.each_halts hx after
    rw [← hop] at elements
    exact .of_eq (Call.evaluate_elements h.noCall hs h.recorded) ((elements.bind _).bind _)
  | @vector _ before after _ _ _ _ _ hr hb =>
    have noCall : m.macroCall? e (.vector (before ++ x :: after)) = none := rfl
    have whole := evaluate_settled (c := ctx) noCall
    rw [Step.expanded_plain (by simp), bind_done] at whole
    exact .of_eq (whole.trans (Run.bind_ok hr)) ((hb.each_halts hx _).bind _)
  | @sequence _ before after _ _ _ _ _ h ha hb =>
    obtain ⟨others, last, rfl⟩ := (List.eq_nil_or_concat' after).resolve_left ha
    obtain ⟨rfl, same⟩ := hb.inOrder (x :: others)
    have performs := sequence_eq_inOrder (ctx.hold e (doForm (before ++ x :: (others ++ [last])))) ctx e
      (before ++ x :: others) last
    rw [List.append_assoc] at performs
    have whole := h.evaluate_special (s := .sequence) (by decide)
    exact .of_eq (whole.trans (congrFun performs _)) (.bind (.of_eq same (hx.bind _)) _)
  | @last _ before _ _ _ _ _ h hb =>
    obtain ⟨rfl, same⟩ := hb.inOrder []
    rw [List.append_nil] at same
    have whole := h.evaluate_special (s := .sequence) (by decide)
    exact .of_eq (whole.trans ((congrFun (sequence_eq_inOrder _ ctx e before x) _).trans (Run.bind_ok same))) hx
  | binding h hi ha hb =>
    have items := bindingItems_of_even hi (by
      rw [List.length_append, length_bindingForms, List.length_cons, List.length_cons]
      omega)
    have whole := h.evaluate_special (s := .bindLocally) (by decide)
    exact .of_eq whole (.bind (.of_eq (Step.bindLocally_of_items items _) ((hb.bindEach_halts hx _ _).bind _)) _)
  | body h hi hb =>
    have items := bindingItems_of_even hi (by rw [length_bindingForms]; omega)
    have bound := hb.bindEach []
    rw [List.append_nil] at bound
    have whole := h.evaluate_special (s := .bindLocally) (by decide)
    exact .of_eq (whole.trans (Run.bind_ok ((Step.bindLocally_of_items items _).trans (Run.bind_ok bound)))) hx
  | define hs h =>
    rcases hs with rfl | rfl
    · exact .of_eq (h.evaluate_special (s := .define) (by decide)) (((hx.bind _).bind _).bind _)
    · exact .of_eq (h.evaluate_special (s := .defineMacro) (by decide)) (((hx.bind _).bind _).bind _)

theorem AwaitsWithin.halts (h : AwaitsWithin ctx e form m c f x n) (hx : (evaluate c f x).Halts n stop) :
    (evaluate ctx e form).Halts m stop := by
  induction h with
  | itself => exact hx
  | inside h _ ih => exact h.halts (ih hx)

end

/-! ## Calls whose elements have values -/

/-- The name and the arity that a call of a value is checked against. -/
def Value.expects? : Value → Option (String × Arity)
  | .builtin b => some (b.name, b.arity)
  | .rooted b _ => some (b.name, b.arity)
  | .closure _ params _ _ _ => some ("closure", params.arity)
  | _ => none

namespace Call

variable {inner outer : Context} {f : Value} {args : List Value} {n : Machine}

theorem inPlace_of_not_callable (hf : f.expects? = none) (args : List Value) (n : Machine) :
    inPlace inner outer f args n = some (.error (.mismatch .callable), n) := by
  cases f <;> first | rfl | cases hf

/-- A call with the wrong count of arguments fails and does nothing but make a trace record, which may have no end. -/
theorem inPlace_of_badCount {name : String} {arity : Arity} (hf : f.expects? = some (name, arity))
    (hn : arity.accepts args.length = false) :
    (∃ n', inPlace inner outer f args n = some (.error (.badCount ⟨name, arity, args.length⟩), n') ∧
        inner.Alike n' n) ∨
      inPlace inner outer f args n = none ∧ inner.records .trace = true ∧ ¬n.Prints := by
  cases f with
  | builtin b =>
    cases hf
    have checked : builtin inner b args n = some (.error (.badCount ⟨b.name, b.arity, args.length⟩), n) := by
      unfold builtin
      rw [checkCount, hn]
      rfl
    exact .inl ⟨n, Run.bind_error (Run.bind_error checked), .refl inner n⟩
  | rooted b root =>
    cases hf
    exact .inl ⟨n, Run.bind_error (Run.bind_error (rooted_of_badCount hn)), .refl inner n⟩
  | closure id params body captured isMacro =>
    cases hf
    have total := total_call (total_closureText params body isMacro) args
    by_cases hr : recordCall inner (closureText params body isMacro) args n = none
    · have stops : (recordCall inner (closureText params body isMacro) args).Halts n none := hr
      refine .inr ⟨(stops.bind _).bind _, ?_⟩
      by_contra hp
      obtain ⟨n', recorded, -⟩ : ∃ n', Recorded inner .trace (callText (closureText params body isMacro) args) n n' ∧
          inner.Alike n' n := Context.record_alike total (by tauto)
      cases hr.symm.trans recorded
    · obtain ⟨n', recorded, alike⟩ := Context.record_alike_of_ne_none hr
      refine .inl ⟨n', Run.bind_error ?_, alike⟩
      rw [apply_closure]
      exact (Run.bind_ok recorded).trans (Run.bind_error (enter_of_badCount hn captured n'))
  | _ => cases hf

end Call

/-- **The first failure is the last thing that happens.** A form whose evaluation waits for another one, directly or
through others, has the outcome of that one if it comes to no value, and leaves the machine as that one left it. Of
forms in turn all have values or there is a first one that has none, and of names that are bound in turn likewise. A
call is made when all its elements have values: if what is called cannot be called, or not with so many arguments, the
call fails, and no more happens than a trace record. -/
theorem first_failure_aborts (ctx : Context) (e : FrameId) :
    (∀ form m c f x n, AwaitsWithin ctx e form m c f x n → (∀ v n', evaluate c f x n ≠ some (.ok v, n')) →
      evaluate ctx e form m = evaluate c f x n) ∧
    (∀ keep xs m, (∃ vs c n, Succeed keep e ctx xs m vs c n) ∨
      ∃ before x after vs c n, xs = before ++ x :: after ∧ Succeed keep e ctx before m vs c n ∧
        ∀ v n', evaluate c e x n ≠ some (.ok v, n')) ∧
    (∀ bs m, (∃ n, BoundInTurn ctx e bs m n) ∨
      ∃ before name x after n, bs = before ++ (name, x) :: after ∧ BoundInTurn ctx e before m n ∧
        ∀ v n', evaluate ctx e x n ≠ some (.ok v, n')) ∧
    ∀ head operands m m₁ f args c n, Begun ctx e (.list (head :: operands)) m m₁ →
      SpecialForm.ofValue? head = none →
      Succeed Context.holdValue e (ctx.hold e (.list (head :: operands))) (head :: operands) m₁ (f :: args) c n →
      (f.expects? = none → evaluate ctx e (.list (head :: operands)) m = some (.error (.mismatch .callable), n)) ∧
      ∀ name arity, f.expects? = some (name, arity) → arity.accepts args.length = false →
        (∃ n', evaluate ctx e (.list (head :: operands)) m =
            some (.error (.badCount ⟨name, arity, args.length⟩), n') ∧ ctx.Alike n' n) ∨
          evaluate ctx e (.list (head :: operands)) m = none ∧ ctx.records .trace = true ∧ ¬n.Prints := by
  refine ⟨fun form m c f x n h hx => ?_, Succeed.all_or_first (e := e) (c := ctx), BoundInTurn.all_or_first ctx e,
    fun head operands m m₁ f args c n h hs hb => ?_⟩
  · obtain ⟨stop, halts⟩ := Run.halts_of_no_value hx
    exact (h.halts halts).trans halts.symm
  · have called := Call.evaluate_call h.noCall hs h.recorded hb.each_all
    refine ⟨fun hf => called.trans (Call.inPlace_of_not_callable hf args n), fun name arity hf hn => ?_⟩
    rw [called]
    exact Call.inPlace_of_badCount hf hn

/-! ## A failure in the midst of others -/

/-- A root with a function that fails. -/
def throwing : Machine := ⟨#[⟨[("throw", .builtin .throw)], none⟩], #[], 0, "", #[]⟩

/-- A vector whose first element fails. -/
def failingVector : Value :=
  .vector [.list [.symbol "throw", .int 7], .list [.symbol "def!", .symbol "y", .int 2]]

/-- A form that binds a name before the failure. -/
def failingForm : Value := doForm [.list [.symbol "def!", .symbol "x", .int 1], failingVector, .nil]

/-- The name before the failure is bound, and the name after it is not. A call with too few arguments does nothing. -/
theorem first_failure_aborts_midway :
    evaluate firstHeld 0 failingForm throwing =
        some (.error (.thrown (.int 7)), throwing.bind 0 "x" (.int 1)) ∧
      ∃ n, evaluate firstHeld 0 (.list [.symbol "throw"]) throwing =
        some (.error (.badCount ⟨"throw", .exactly 1, 0⟩), n) ∧ firstHeld.Alike n throwing := by
  have within : AwaitsWithin firstHeld 0 failingForm throwing ((firstHeld.hold 0 failingForm).hold 0 failingVector) 0
      (.list [.symbol "throw", .int 7]) (throwing.bind 0 "x" (.int 1)) := by
    have defined : evaluate (firstHeld.hold 0 failingForm) 0 (.list [.symbol "def!", .symbol "x", .int 1]) throwing =
        some (.ok (.int 1), throwing.bind 0 "x" (.int 1)) := evaluate_of_evalWithin 2 _ _ _ _ _ rfl
    have begun : Begun firstHeld 0
        (doForm ([.list [.symbol "def!", .symbol "x", .int 1]] ++ failingVector :: [.nil])) throwing throwing :=
      ⟨rfl, rfl⟩
    have recorded : Recorded (firstHeld.hold 0 failingForm) .trace (Message.value "evaluate_ast "
        (.vector ([] ++ .list [.symbol "throw", .int 7] :: [.list [.symbol "def!", .symbol "y", .int 2]])))
        (throwing.bind 0 "x" (.int 1)) (throwing.bind 0 "x" (.int 1)) := rfl
    exact .inside (.sequence begun (by simp) (.cons defined .nil)) (.inside (.vector recorded .nil) .itself)
  have failed : evaluate ((firstHeld.hold 0 failingForm).hold 0 failingVector) 0 (.list [.symbol "throw", .int 7])
      (throwing.bind 0 "x" (.int 1)) = some (.error (.thrown (.int 7)), throwing.bind 0 "x" (.int 1)) :=
    evaluate_of_evalWithin 2 _ _ _ _ _ rfl
  obtain ⟨aborts, -, -, calls⟩ := first_failure_aborts firstHeld 0
  refine ⟨(aborts _ _ _ _ _ _ within (by rw [failed]; rintro v n' ⟨⟩)).trans failed, ?_⟩
  have found : evaluate (firstHeld.hold 0 (.list [.symbol "throw"])) 0 (.symbol "throw") throwing =
      some (.ok (.builtin .throw), throwing) := evaluate_of_evalWithin 1 _ _ _ _ _ rfl
  refine ((calls _ _ _ _ _ _ _ _ ⟨rfl, rfl⟩ rfl (.cons found .nil)).2 _ _ rfl rfl).resolve_right ?_
  rintro ⟨-, traced, -⟩
  cases traced

end MiniLisp
