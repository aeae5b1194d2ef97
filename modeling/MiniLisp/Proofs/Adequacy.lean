import MiniLisp.Proofs.Holding
import MiniLisp.Proofs.Soundness

/-!
# Evaluation carries out the rules

Evaluation goes from step to step, and what a step leaves to be done takes its place; the rules follow the form. They
come to the same. The one difference that can be seen is in what a call holds: in the place of a form it lets go of all
that took part in it before the body of a closure is evaluated, and a call on behalf of a macro holds it to the end.

* **Adequacy** (`evaluate_iff`): evaluation comes to what the rules allow.
* `Call.inPlace_finish`, `Call.finish_inPlace`: either call has the outcome of the other one, unless a root that only
  the second kind of call keeps is found to be gone.
-/

namespace MiniLisp

/-! ## What the rules allow is what evaluation does -/

mutual

/-- A derivation is a run of the interpreter. The recursion is that of the derivation, with a case for each of its
rules. -/
theorem Evaluates.run : ∀ {ctx : Context} {e : FrameId} {form : Value} {m : Machine} {t : List FrameId}
    {r : Except EvalError Value × Machine}, Evaluates ctx e form m t r → evaluate ctx e form m = some r
  | ctx, e, form, m, _, _, .expanded hx hs => by
    rw [evaluate_eq, advance, step]
    refine (congrFun (Run.bind_assoc _ _ _) m).trans ?_
    exact (Run.bind_ok hx.run).trans hs.run
  | ctx, e, form, m, _, _, .unexpanded hx => by
    rw [evaluate_eq, advance, step]
    refine (congrFun (Run.bind_assoc _ _ _) m).trans ?_
    exact Run.bind_error hx.run

/-- A form that is settled after its expansion is so by the interpreter. -/
theorem Settles.run : ∀ {ctx : Context} {e : FrameId} {form : Value} {m : Machine} {t : List FrameId}
    {r : Except EvalError Value × Machine}, Settles ctx e form m t r →
      Run.bind (Step.expanded evaluate ctx e form) (Turn.next evaluate fun _ _ => ctx) m = some r
  | _, _, _, _, _, _, .symbol hr h => by
    rw [Step.expanded_plain (by simp), bind_done, plain_symbol hr, h]
  | _, _, _, _, _, _, .unbound hr h => by
    rw [Step.expanded_plain (by simp), bind_done, plain_symbol hr, h]
  | _, _, v, _, _, _, .literal hv hr => by
    rw [Step.expanded_plain (by rintro xs rfl; cases hv), bind_done]
    refine (Run.bind_ok hr).trans ?_
    cases v <;> first | rfl | cases hv
  | _, _, _, _, _, _, .vector hr h => by
    rw [Step.expanded_plain (by simp), bind_done]
    exact (Run.bind_ok hr).trans (Run.bind_pure h.run)
  | _, _, _, _, _, _, .map hr h => by
    rw [Step.expanded_plain (by simp), bind_done]
    exact (Run.bind_ok hr).trans (Run.bind_pure h.run)
  | _, _, _, _, _, _, .empty => rfl
  | _, _, _, _, _, _, .special hr hs h => by
    rw [Step.expanded_special hs, Run.bind_assoc]
    exact (Run.bind_ok hr).trans h.run
  | _, _, _, _, _, _, .call hr hs hx h => by
    rw [Step.expanded_call hs, Run.bind_assoc]
    refine (Run.bind_ok hr).trans ?_
    refine (congrFun (Run.bind_assoc _ _ _) _).trans ?_
    exact (Run.bind_ok hx.run).trans h.run
  | _, _, _, _, _, _, .callFails hr hs hx => by
    rw [Step.expanded_call hs, Run.bind_assoc]
    refine (Run.bind_ok hr).trans ?_
    refine (congrFun (Run.bind_assoc _ _ _) _).trans ?_
    exact Run.bind_error hx.run

theorem Elements.run : ∀ {ctx : Context} {e : FrameId} {xs : List Value} {m : Machine} {t : List FrameId}
    {r : Except EvalError (List Value) × Machine}, Elements ctx e xs m t r → Step.each evaluate ctx e xs m = some r
  | _, _, _, _, _, _, .nil => rfl
  | _, _, _, _, _, _, .cons hx h => (Run.bind_ok hx.run).trans (Run.bind_pure h.run)
  | _, _, _, _, _, _, .fails hx => Run.bind_error hx.run

theorem EntryValues.run : ∀ {ctx : Context} {e : FrameId} {es : Entries} {m : Machine} {t : List FrameId}
    {r : Except EvalError Entries × Machine}, EntryValues ctx e es m t r →
      Step.eachEntry evaluate ctx e es m = some r
  | _, _, _, _, _, _, .nil => rfl
  | _, _, _, _, _, _, .cons hx h => (Run.bind_ok hx.run).trans (Run.bind_pure h.run)
  | _, _, _, _, _, _, .fails hx => Run.bind_error hx.run

/-- The rules for special forms are what the interpreter does. -/
theorem Performs.run : ∀ {ctx inner : Context} {e : FrameId} {s : SpecialForm} {operands : List Value} {m : Machine}
    {t : List FrameId} {r : Except EvalError Value × Machine}, Performs ctx inner e s operands m t r →
      Run.bind (Step.special evaluate inner e s operands) (Turn.next evaluate fun _ _ => ctx) m = some r
  | _, _, _, _, _, _, _, _, .define hx hb => by
    rw [Step.special_define, bind_done]
    exact (Run.bind_ok hx.run).trans (bindFor_eq_some.2 hb)
  | _, _, _, _, _, _, _, _, .defineFails hx => by
    rw [Step.special_define, bind_done]
    exact Run.bind_error hx.run
  | _, _, _, _, _, _, _, _, .defineMacro hx hb => by
    rw [Step.special_defineMacro, bind_done]
    exact (Run.bind_ok hx.run).trans (bindFor_eq_some.2 hb)
  | _, _, _, _, _, _, _, _, .defineMacroFails hx => by
    rw [Step.special_defineMacro, bind_done]
    exact Run.bind_error hx.run
  | _, _, _, _, _, _, _, _, .noClosure hx hv => by
    rw [Step.special_defineMacro, bind_done]
    refine (Run.bind_ok hx.run).trans ?_
    exact Run.bind_error (congrFun (Step.asMacro_of_ne hv) _)
  | _, _, _, _, _, _, _, _, .bindLocally hi hb hx => by
    refine (Run.bind_congr (Step.bindLocally_of_items hi _) _).trans ?_
    rw [Run.bind_assoc]
    exact (Run.bind_ok hb.run).trans hx.run
  | _, _, _, _, _, _, _, _, .bindingFails hi hb => by
    refine (Run.bind_congr (Step.bindLocally_of_items hi _) _).trans ?_
    rw [Run.bind_assoc]
    exact Run.bind_error hb.run
  | _, _, _, _, _, _, _, _, .noBindings hi => Run.bind_error (Step.bindLocally_of_error hi _)
  | _, _, _, _, _, _, _, _, .sequenceNil hx => hx.run
  | _, _, _, _, _, _, _, _, .sequenceLast hx => hx.run
  | _, _, _, _, _, _, _, _, .sequenceCons hx h => by
    refine (congrFun (Run.bind_assoc _ _ _) _).trans ?_
    exact (Run.bind_ok hx.run).trans h.run
  | _, _, _, _, _, _, _, _, .sequenceFails hx => by
    refine (congrFun (Run.bind_assoc _ _ _) _).trans ?_
    exact Run.bind_error hx.run
  | _, _, _, _, _, _, _, _, .choose hn hc hx => by
    rw [Step.special_choose _ _ _ hn, Run.bind_assoc]
    exact (Run.bind_ok hc.run).trans hx.run
  | _, _, _, _, _, _, _, _, .conditionFails hn hc => by
    rw [Step.special_choose _ _ _ hn, Run.bind_assoc]
    exact Run.bind_error hc.run
  | _, _, _, _, _, _, _, _, .function hs => by
    rw [Step.special_function, bind_done]
    exact function_eq hs
  | _, _, _, _, _, _, _, _, .noSignature hs => by
    rw [Step.special_function, bind_done]
    exact function_of_error hs
  | _, _, _, _, _, _, _, _, .quote => rfl
  | _, _, _, _, _, _, _, _, .showTemplate => by
    rw [Step.special_showTemplate, bind_done]
    rfl
  | _, _, _, _, _, _, _, _, .template hv hx => by
    rw [Step.special_template, Run.bind_assoc, hv]
    exact hx.run
  | _, _, _, _, _, _, _, _, .noTemplate hv => by
    rw [Step.special_template, Run.bind_assoc, hv]
    rfl
  | _, _, _, _, _, _, _, _, .showExpansion hx => by
    rw [Step.special_showExpansion, bind_done]
    exact hx.run
  | _, _, _, _, _, _, _, _, .badCount hn => by
    rw [Step.special_of_badCount _ _ _ hn]
    rfl

theorem BindsEach.run : ∀ {ctx : Context} {e : FrameId} {items : List Value} {m : Machine} {t : List FrameId}
    {r : Except EvalError Unit × Machine}, BindsEach ctx e items m t r → Step.bindEach evaluate ctx e items m = some r
  | _, _, [], _, _, _, .done _ => rfl
  | _, _, [_], _, _, _, .done _ => rfl
  | _, _, _, _, _, _, .cons hx h => (Run.bind_ok hx.run).trans h.run
  | _, _, _, _, _, _, .noSymbol hx ht => by
    refine (Run.bind_ok hx.run).trans ?_
    exact Run.bind_error (congrFun (Step.bindSymbol_of_ne ht _ _) _)
  | _, _, _, _, _, _, .fails hx => Run.bind_error hx.run

/-- So are the rules for applications, whether they end in a value or in a turn. -/
theorem Applies.run : ∀ {ctx : Context} {after : FrameId → Value → Context} {f : Value} {args : List Value}
    {m : Machine} {t : List FrameId} {r : Except EvalError Value × Machine}, Applies ctx after f args m t r →
      Run.bind (Call.apply evaluate ctx f args) (Turn.next evaluate after) m = some r
  | _, _, _, _, _, _, _, .builtin h => by
    rw [Call.apply_builtin, bind_done]
    exact h
  | _, _, _, _, _, _, _, .eval ha hr hr' hx => by
    rw [Call.apply_rooted, bind_done, Call.rooted_of_alive rfl ha]
    exact (Run.bind_ok hr).trans ((Run.bind_ok hr').trans hx.run)
  | _, _, _, _, _, _, _, .swap ha hr hf hr' hx => by
    rw [Call.apply_rooted, bind_done, Call.rooted_of_alive (Call.swap_accepts _ _ _) ha]
    refine (Run.bind_ok hr).trans ((Call.inRoot_swap hf _).trans ?_)
    exact (Run.bind_ok hr').trans hx.run
  | _, _, _, _, _, _, _, .noAtom ha hr hc => by
    rw [Call.apply_rooted, bind_done, Call.rooted_of_alive (Call.swap_accepts _ _ _) ha]
    exact (Run.bind_ok hr).trans (Call.inRoot_swap_of_ne hc _)
  | _, _, _, _, _, _, _, .swapNotCallable ha hr hf => by
    rw [Call.apply_rooted, bind_done, Call.rooted_of_alive (Call.swap_accepts _ _ _) ha]
    exact (Run.bind_ok hr).trans (Call.inRoot_swap_of_not_callable hf _)
  | _, _, _, _, _, _, _, .detached hn ha => by
    rw [Call.apply_rooted, bind_done, Call.rooted_of_gone hn ha]
  | _, _, _, _, _, _, _, .rootedBadCount hn => by
    rw [Call.apply_rooted, bind_done, Call.rooted_of_badCount hn]
  | _, _, _, _, _, _, _, .closure hr hn hx => by
    rw [Call.apply_closure, Run.bind_assoc]
    refine (Run.bind_ok hr).trans ?_
    rw [Run.bind_assoc, Run.bind_ok (Call.enter_eq hn _ _)]
    exact hx.run
  | _, _, _, _, _, _, _, .closureBadCount hr hn => by
    rw [Call.apply_closure, Run.bind_assoc]
    refine (Run.bind_ok hr).trans ?_
    rw [Run.bind_assoc, Run.bind_error (Call.enter_of_badCount hn _ _)]
  | _, _, f, _, _, _, _, .notCallable hf => by
    cases f <;> first | rfl | cases hf

/-- An expansion by the rules takes as many steps as it is allowed. -/
theorem Expands.run : ∀ {ctx : Context} {e : FrameId} {n : Nat} {form : Value} {m : Machine} {t : List FrameId}
    {r : Except EvalError Value × Machine}, Expands ctx e n form m t r →
      expandWithin evaluate ctx e n form m = some r
  | _, _, _, _, _, _, _, .done hc => expandWithin_of_none hc
  | _, _, _, _, _, _, _, .limit hc => expandWithin_zero hc
  | _, _, _, _, _, _, _, .once hc hx hr hs => by
    rw [expandWithin_succ hc]
    exact (Run.bind_ok hx.run).trans ((Run.bind_ok hr).trans hs.run)
  | _, _, _, _, _, _, _, .fails hc hx => by
    rw [expandWithin_succ hc]
    exact Run.bind_error hx.run

end

/-- Evaluation comes to an outcome just when the rules allow that outcome. -/
theorem evaluate_iff {ctx : Context} {e : FrameId} {form : Value} {m : Machine}
    {r : Except EvalError Value × Machine} : evaluate ctx e form m = some r ↔ ∃ t, Evaluates ctx e form m t r :=
  ⟨evaluate_sound, fun ⟨_, h⟩ => h.run⟩

/-! ## Calls -/

namespace Call

/-- A call in the place of a form: its work is done in one context, and the body of a closure is evaluated in
another. -/
def inPlace (inner ctx : Context) (f : Value) (args : List Value) : Run Value :=
  Run.bind (apply evaluate inner f args) (Turn.next evaluate fun _ _ => ctx)

variable {inner outer ctx : Context} {f : Value} {args : List Value} {m : Machine}
  {r : Except EvalError Value × Machine}

/-- A call to its end is an application by the rules. -/
theorem finish_iff :
    finish evaluate ctx f args m = some r ↔ ∃ t, Applies ctx (ctx.holdCall f args) f args m t r :=
  ⟨apply_sound evaluate_sound, fun ⟨_, h⟩ => h.run⟩

/-- A call that is carried to its end holds what was held before, and more. -/
theorem holdCall_le (h : outer.LE ctx) (f : Value) (args : List Value) (e : FrameId) (body : Value) :
    outer.LE (ctx.holdCall f args e body) :=
  h.trans ((Context.LE.holdItems_self ctx (f :: args)).trans (Context.LE.hold_self _ e body))

/-- A call that holds all that takes part in it has the outcome of the call in the place of a form, unless a root was
gone there. -/
theorem inPlace_finish (hi : inner.LE ctx) (ho : outer.LE ctx) (h : inPlace inner outer f args m = some r) :
    IsDetached r.1 ∨ finish evaluate ctx f args m = some r :=
  simulation_holding.bind
    (simulation_holding.apply (fun hc e form => simulation_holding.evaluate hc e form) hi f args)
    (fun turn => simulation_holding.next (fun hc e form => simulation_holding.evaluate hc e form)
      (fun e body => holdCall_le ho f args e body) turn) m r h

/-- A call in the place of a form has the outcome of the call that holds all that takes part in it, unless a root is
gone now. -/
theorem finish_inPlace (hi : inner.LE ctx) (ho : outer.LE ctx) (h : finish evaluate ctx f args m = some r) :
    inPlace inner outer f args m = some r ∨ ∃ r', inPlace inner outer f args m = some r' ∧ IsDetached r'.1 :=
  simulation_released.bind
    (simulation_released.apply (fun hc e form => simulation_released.evaluate hc e form) hi f args)
    (fun turn => simulation_released.next (fun hc e form => simulation_released.evaluate hc e form)
      (fun e body => holdCall_le ho f args e body) turn) m r h

section

variable {e : FrameId} {head : Value} {operands : List Value} {m₁ m₂ : Machine}
  (hc : m.macroCall? e (.list (head :: operands)) = none) (hs : SpecialForm.ofValue? head = none)
  (hr : Recorded ctx .trace (Message.value "apply " (.list (head :: operands))) m m₁)
include hc hs hr

/-- A list that is neither a macro call nor a special form has its elements evaluated first. -/
theorem evaluate_elements :
    evaluate ctx e (.list (head :: operands)) m =
      Run.bind (Step.call evaluate (ctx.hold e (.list (head :: operands))) e (head :: operands))
        (Turn.next evaluate fun _ _ => ctx) m₁ := by
  rw [evaluate_eq, advance, step]
  refine (congrFun (Run.bind_assoc _ _ _) m).trans ((Run.bind_ok (expandWithin_of_none hc)).trans ?_)
  rw [Step.expanded_call hs, Run.bind_assoc]
  exact Run.bind_ok hr

/-- Once its elements are evaluated, it is a call in its place. -/
theorem evaluate_call (hx : Step.each evaluate (ctx.hold e (.list (head :: operands))) e (head :: operands) m₁ =
      some (.ok (f :: args), m₂)) :
    evaluate ctx e (.list (head :: operands)) m =
      inPlace (ctx.hold e (.list (head :: operands))) ctx f args m₂ :=
  (evaluate_elements hc hs hr).trans ((congrFun (Run.bind_assoc _ _ _) m₁).trans (Run.bind_ok hx))

theorem evaluate_call_fails {fault : EvalError}
    (hx : Step.each evaluate (ctx.hold e (.list (head :: operands))) e (head :: operands) m₁ =
      some (.error fault, m₂)) :
    evaluate ctx e (.list (head :: operands)) m = some (.error fault, m₂) :=
  (evaluate_elements hc hs hr).trans ((congrFun (Run.bind_assoc _ _ _) m₁).trans (Run.bind_error hx))

end

end Call

/-! ## Two roots, the second of which depends on a call -/

/-- A closure that owns the second root. -/
def keeper : Value := .closure 0 ⟨[], none⟩ .nil 1 false

/-- A closure that evaluates 7 in the second root. -/
def asker : Value := .closure 1 ⟨[], none⟩ (.list [.symbol "beval", .int 7]) 0 false

/-- A closure that takes the keeper from an atom into its own frame and then calls the asker. -/
def mover : Value :=
  .closure 2 ⟨[], none⟩
    (.list [.symbol "do", .list [.symbol "def!", .symbol "y", .list [.symbol "deref", .symbol "a"]],
      .list [.symbol "reset!", .symbol "a", .nil], .list [.symbol "g"]]) 0 false

/-- Nothing but the keeper, which an atom holds, owns the second root. -/
def twoRoots : Machine :=
  ⟨#[⟨[("deref", .builtin .deref), ("reset!", .builtin .reset), ("beval", .rooted .eval 1), ("a", .atom 0),
      ("g", asker), ("f", mover)], none⟩, ⟨[], none⟩], #[keeper], 3, "", #[]⟩

/-- Nothing is held but the first root. -/
def firstHeld : Context := ⟨fun _ => .error .notFound, none, ⟨[0], []⟩⟩

/-- The form `(f)`. -/
def callForm : Value := .list [.symbol "f"]

/-- The name of the rooted builtin that found its root to be gone. -/
def gone? : Option (Except EvalError Value × Machine) → Option String
  | some (.error (.detached name), _) => some name
  | _ => none

def int? : Option (Except EvalError Value × Machine) → Option Int64
  | some (.ok (.int n), _) => some n
  | _ => none

namespace Call

theorem eq_of_gone? {x : Option (Except EvalError Value × Machine)} {name : String} (h : gone? x = some name) :
    ∃ m, x = some (.error (.detached name), m) := by
  unfold gone? at h
  split at h
  · cases h
    exact ⟨_, rfl⟩
  · cases h

theorem eq_of_int? {x : Option (Except EvalError Value × Machine)} {n : Int64} (h : int? x = some n) :
    ∃ m, x = some (.ok (.int n), m) := by
  unfold int? at h
  split at h
  · cases h
    exact ⟨_, rfl⟩
  · cases h

/-- In the place of a form, the call of the mover finds the second root to be gone. -/
theorem mover_inPlace :
    ∃ m, inPlace (firstHeld.hold 0 callForm) firstHeld mover [] twoRoots = some (.error (.detached "eval"), m) := by
  have within : gone? (Run.bind (apply (evalWithin 8) (firstHeld.hold 0 callForm) mover [])
      (Turn.next (evalWithin 8) fun _ _ => firstHeld) twoRoots) = some "eval" := by decide +kernel
  obtain ⟨m, hm⟩ := eq_of_gone? within
  exact ⟨m, simulation_le.bind (simulation_le.apply (evalWithin_le 8) rfl mover [])
    (fun turn => simulation_le.next (evalWithin_le 8) (fun _ _ => rfl) turn) twoRoots _ hm⟩

/-- On behalf of a macro, it evaluates 7 there. -/
theorem mover_finish :
    ∃ m, finish evaluate (firstHeld.hold 0 callForm) mover [] twoRoots = some (.ok (.int 7), m) := by
  have within : int? (finish (evalWithin 8) (firstHeld.hold 0 callForm) mover [] twoRoots) = some 7 := by
    decide +kernel
  obtain ⟨m, hm⟩ := eq_of_int? within
  exact ⟨m, simulation_le.finish (evalWithin_le 8) rfl mover [] twoRoots _ hm⟩

theorem each_callForm :
    Step.each evaluate (firstHeld.hold 0 callForm) 0 [.symbol "f"] twoRoots = some (.ok [mover], twoRoots) :=
  simulation_le.each (evalWithin_le 1) rfl 0 [.symbol "f"] twoRoots _ rfl

end Call

/-! ## The two together -/

/-- **Evaluation carries out the rules.** It comes to an outcome just when the rules allow that outcome. A list that is
neither a macro call nor a special form is a call in its place once its elements are evaluated. A call on behalf of a
macro, while no less is held, has the outcome of the call in the place of a form and the other way round, unless the
latter found a root to be gone. -/
theorem evaluation_carries_out_the_rules :
    (∀ (ctx : Context) (e : FrameId) (form : Value) (m : Machine) (r : Except EvalError Value × Machine),
      evaluate ctx e form m = some r ↔ ∃ t, Evaluates ctx e form m t r) ∧
    (∀ (ctx : Context) (e : FrameId) (head f : Value) (operands args : List Value) (m m₁ m₂ : Machine),
      m.macroCall? e (.list (head :: operands)) = none → SpecialForm.ofValue? head = none →
      Recorded ctx .trace (Message.value "apply " (.list (head :: operands))) m m₁ →
      Step.each evaluate (ctx.hold e (.list (head :: operands))) e (head :: operands) m₁ =
        some (.ok (f :: args), m₂) →
      evaluate ctx e (.list (head :: operands)) m =
        Call.inPlace (ctx.hold e (.list (head :: operands))) ctx f args m₂) ∧
    ∀ (inner outer ctx : Context) (f : Value) (args : List Value) (m : Machine) (r : Except EvalError Value × Machine),
      inner.LE ctx → outer.LE ctx →
      (Call.inPlace inner outer f args m = some r → IsDetached r.1 ∨ Call.finish evaluate ctx f args m = some r) ∧
      (Call.finish evaluate ctx f args m = some r → Call.inPlace inner outer f args m = some r ∨
        ∃ r', Call.inPlace inner outer f args m = some r' ∧ IsDetached r'.1) := by
  refine ⟨fun ctx e form m r => evaluate_iff, fun ctx e head f operands args m m₁ m₂ hc hs hr hx => ?_,
    fun inner outer ctx f args m r hi ho => ⟨?_, ?_⟩⟩
  · exact Call.evaluate_call hc hs hr hx
  · exact Call.inPlace_finish hi ho
  · exact Call.finish_inPlace hi ho

theorem evaluation_carries_out_the_rules_mover :
    (∃ t m, Evaluates firstHeld 0 callForm twoRoots t (.error (.detached "eval"), m)) ∧
      ((∃ m, Call.inPlace (firstHeld.hold 0 callForm) firstHeld mover [] twoRoots = some (.ok (.int 7), m)) ∨
        ∃ r, Call.inPlace (firstHeld.hold 0 callForm) firstHeld mover [] twoRoots = some r ∧ IsDetached r.1) := by
  obtain ⟨m, gone⟩ := Call.mover_inPlace
  obtain ⟨m', seven⟩ := Call.mover_finish
  have form := evaluation_carries_out_the_rules.2.1 firstHeld 0 (.symbol "f") mover [] [] twoRoots twoRoots twoRoots
    rfl (by decide) rfl Call.each_callForm
  have same := evaluation_carries_out_the_rules.2.2 (firstHeld.hold 0 callForm) firstHeld (firstHeld.hold 0 callForm)
    mover [] twoRoots (.ok (.int 7), m') (.refl _) (.hold_self firstHeld 0 callForm)
  refine ⟨?_, (same.2 seven).imp (fun h => ⟨m', h⟩) fun h => h⟩
  obtain ⟨t, ht⟩ := (evaluation_carries_out_the_rules.1 firstHeld 0 callForm twoRoots _).1 (form.trans gone)
  exact ⟨t, m, ht⟩

/-- The two kinds of call need not come to the same. -/
theorem calls_may_differ :
    ¬ ∀ (ctx : Context) (e : FrameId) (form f : Value) (args : List Value) (m : Machine),
      Call.finish evaluate (ctx.hold e form) f args m = Call.inPlace (ctx.hold e form) ctx f args m := by
  intro same
  obtain ⟨m, gone⟩ := Call.mover_inPlace
  obtain ⟨m', seven⟩ := Call.mover_finish
  have both := same firstHeld 0 callForm mover [] twoRoots
  rw [gone, seven] at both
  cases both

end MiniLisp
