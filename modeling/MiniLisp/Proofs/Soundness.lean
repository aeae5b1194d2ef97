import MiniLisp.Proofs.Semantics

/-!
# Evaluation keeps to the rules

A step of evaluation, with what is left to do after it, comes to nothing that the rules do not allow, if that holds of
the forms inside it (`advance_sound`). So it holds of evaluation, which is the least function of that kind.

* **Soundness** (`evaluate_sound`): what evaluation comes to, the rules allow.
-/

namespace MiniLisp

variable {ctx inner : Context} {e : FrameId} {m m' : Machine} {r : Except EvalError Value × Machine}

/-! ## The parts of a step -/

/-- A record does not fail. -/
theorem of_record {α : Type} {level : Level} {message : Message} {f : Unit → Run α}
    {r : Except EvalError α × Machine} (h : Run.bind (Run.record ctx level message) f m = some r) :
    ∃ m₁, Recorded ctx level message m m₁ ∧ f () m₁ = some r := by
  rcases Run.bind_eq_some h with ⟨fault, m₁, hx, rfl⟩ | ⟨_, m₁, hx, h⟩
  · unfold Run.record at hx
    split at hx
    · rcases Run.bind_eq_some hx with ⟨fault', m₂, ht, -⟩ | ⟨t, m₂, -, hx⟩
      · obtain ⟨_, -, he⟩ := Run.gets?_eq_some ht
        cases he
      · cases hx
    · cases hx
  · exact ⟨m₁, hx, h⟩

/-- Nothing is left to do after a value. -/
theorem bind_done (recur : Evaluator) (after : FrameId → Value → Context) (x : Run Value) :
    Run.bind (Run.bind x fun v => Run.pure (.done v)) (Turn.next recur after) = x := by
  rw [Run.bind_assoc]
  exact bind_pure x

/-- Binding a target, as the interpreter does it, is the rule for bindings. -/
theorem bindFor_eq_some {form : SpecialForm} {target v : Value} :
    Step.bindFor ctx e form target v m = some r ↔ Binds ctx e form target v m r := by
  constructor
  · intro h
    cases target with
    | symbol name =>
      obtain ⟨m₁, hr, h⟩ := of_record (m := m.bind e name v) h
      cases h
      exact .symbol hr
    | _ =>
      cases h
      exact .noSymbol (by simp)
  · intro h
    cases h with
    | symbol hr =>
      exact Run.bind_ok hr
    | noSymbol ht =>
      unfold Step.bindFor
      rw [Step.bindSymbol_of_ne ht]
      rfl

/-- A function form with proper parameters makes a closure of them, over the frame it is evaluated in. -/
theorem function_eq {parameters body : Value} {params : Params} (h : Step.signature parameters = .ok params) :
    Step.function e parameters body m = some (.ok (.closure m.closures params body e false), m.newClosure.2) := by
  unfold Step.function
  rw [h]
  rfl

theorem function_of_error {parameters body : Value} {fault : SignatureError}
    (h : Step.signature parameters = .error fault) :
    Step.function e parameters body m = some (.error (.badSignature fault), m) := by
  unfold Step.function
  rw [h]
  rfl

/-- A symbol that is no form is looked up, after its trace record. -/
theorem plain_symbol {recur : Evaluator} {name : String} {m₁ : Machine}
    (hr : Recorded ctx .trace (Message.value "evaluate_ast " (.symbol name)) m m₁) :
    Step.plain recur ctx e (.symbol name) m =
      match m₁.lookup e name with
      | some v => some (.ok v, m₁)
      | none => some (.error (.unbound name), m₁) := by
  refine (Run.bind_ok hr).trans ?_
  change Run.bind (Run.gets _) _ m₁ = _
  rw [Run.bind_gets]
  cases m₁.lookup e name <;> rfl

/-- Elements that are all evaluated give a value each. -/
theorem length_of_each {recur : Evaluator} {xs vs : List Value}
    (h : Step.each recur ctx e xs m = some (.ok vs, m')) : vs.length = xs.length := by
  induction xs generalizing ctx m vs with
  | nil =>
    cases h
    rfl
  | cons x xs ih =>
    rcases Run.bind_eq_some h with ⟨fault, m₁, hx, hr⟩ | ⟨v, m₁, hx, h⟩
    · cases hr
    · obtain ⟨r, m₂, hxs, hr⟩ := Run.bind_pure_eq_some h
      cases r with
      | error fault => cases hr
      | ok us =>
        cases hr
        exact congrArg (· + 1) (ih hxs)

/-! ## What evaluation does is allowed by the rules -/

section Sound

variable {recur : Evaluator}
  (hrec : ∀ {ctx e form m r}, recur ctx e form m = some r → ∃ t, Evaluates ctx e form m t r)
include hrec

/-- Elements evaluated one after the other are a derivation of `Elements`, which says where the first failure ends it.
-/
theorem each_sound {xs : List Value} {r : Except EvalError (List Value) × Machine}
    (h : Step.each recur ctx e xs m = some r) : ∃ t, Elements ctx e xs m t r := by
  induction xs generalizing ctx m r with
  | nil =>
    cases h
    exact ⟨[], .nil⟩
  | cons x xs ih =>
    rcases Run.bind_eq_some h with ⟨fault, m₁, hx, rfl⟩ | ⟨v, m₁, hx, h⟩
    · obtain ⟨t, ht⟩ := hrec hx
      exact ⟨t, .fails ht⟩
    · obtain ⟨t, ht⟩ := hrec hx
      obtain ⟨r, m₂, hxs, rfl⟩ := Run.bind_pure_eq_some h
      obtain ⟨u, hu⟩ := ih hxs
      exact ⟨t ++ u, .cons ht hu⟩

/-- The same for the values of a map, whose keys are not evaluated. -/
theorem eachEntry_sound {es : Entries} {r : Except EvalError Entries × Machine}
    (h : Step.eachEntry recur ctx e es m = some r) : ∃ t, EntryValues ctx e es m t r := by
  induction es generalizing ctx m r with
  | nil =>
    cases h
    exact ⟨[], .nil⟩
  | cons entry es ih =>
    rcases Run.bind_eq_some h with ⟨fault, m₁, hx, rfl⟩ | ⟨v, m₁, hx, h⟩
    · obtain ⟨t, ht⟩ := hrec hx
      exact ⟨t, .fails ht⟩
    · obtain ⟨t, ht⟩ := hrec hx
      obtain ⟨r, m₂, hxs, rfl⟩ := Run.bind_pure_eq_some h
      obtain ⟨u, hu⟩ := ih hxs
      exact ⟨t ++ u, .cons ht hu⟩

/-- A function of a root that is alive, applied to as many arguments as it takes, goes by the rule for it. -/
theorem inRoot_sound {b : Rooted} {root : FrameId} {args : List Value} {after : FrameId → Value → Context}
    (hn : b.arity.accepts args.length = true)
    (ha : m.isAlive (ctx.holdItems (.rooted b root :: args)).held root = true)
    (hr : Recorded ctx .trace (Call.callText (fun _ => some b.name) args) m m')
    (h : Call.inRoot recur ((ctx.holdItems (.rooted b root :: args)).holdFrame root) root b args m' = some r) :
    ∃ t, Applies ctx after (.rooted b root) args m t r := by
  unfold Call.inRoot at h
  split at h
  · obtain ⟨m₂, hr', h⟩ := of_record h
    obtain ⟨t, ht⟩ := hrec h
    exact ⟨root :: t, .eval ha hr hr' ht⟩
  · rename_i cell f args
    cases cell with
    | atom a =>
      cases hf : f.callable with
      | true =>
        obtain ⟨m₂, hr', h⟩ := of_record ((Call.inRoot_swap hf a).symm.trans h)
        obtain ⟨t, ht⟩ := hrec h
        exact ⟨root :: t, .swap ha hr hf hr' ht⟩
      | false =>
        cases (Call.inRoot_swap_of_not_callable hf a).symm.trans h
        exact ⟨[], .swapNotCallable ha hr hf⟩
    | _ =>
      cases h
      exact ⟨[], .noAtom ha hr (by simp)⟩
  · next noForm noCell =>
    cases b with
    | eval =>
      match args, hn with
      | [form], _ => exact (noForm form rfl rfl).elim
    | swap =>
      match args, hn with
      | cell :: f :: args, _ => exact (noCell cell f args rfl rfl).elim

/-- A function of a root goes by one of three rules: the root is gone, the count is wrong, or the root serves the
call. -/
theorem rooted_sound {b : Rooted} {root : FrameId} {args : List Value} {after : FrameId → Value → Context}
    (h : Call.rooted recur (ctx.holdItems (.rooted b root :: args)) b root args m = some r) :
    ∃ t, Applies ctx after (.rooted b root) args m t r := by
  cases hn : b.arity.accepts args.length with
  | false =>
    rw [Call.rooted_of_badCount hn] at h
    cases h
    exact ⟨[], .rootedBadCount hn⟩
  | true =>
    cases ha : m.isAlive (ctx.holdItems (.rooted b root :: args)).held root with
    | false =>
      rw [Call.rooted_of_gone hn ha] at h
      cases h
      exact ⟨[], .detached hn ha⟩
    | true =>
      rw [Call.rooted_of_alive hn ha] at h
      obtain ⟨m₁, hr, h⟩ := of_record h
      exact inRoot_sound hrec hn ha hr h

/-- An application goes by the rules for applications, whatever is applied and however it ends. -/
theorem apply_sound {f : Value} {args : List Value} {after : FrameId → Value → Context}
    (h : Run.bind (Call.apply recur ctx f args) (Turn.next recur after) m = some r) :
    ∃ t, Applies ctx after f args m t r := by
  cases f with
  | builtin b =>
    rw [Call.apply_builtin, bind_done] at h
    exact ⟨[], .builtin h⟩
  | rooted b root =>
    rw [Call.apply_rooted, bind_done] at h
    exact rooted_sound hrec h
  | closure id params body captured isMacro =>
    rw [Call.apply_closure, Run.bind_assoc] at h
    obtain ⟨m₁, hr, h⟩ := of_record h
    rw [Run.bind_assoc] at h
    cases hn : params.arity.accepts args.length with
    | false =>
      rw [Run.bind_error (Call.enter_of_badCount hn captured m₁)] at h
      cases h
      exact ⟨[], .closureBadCount hr hn⟩
    | true =>
      rw [Run.bind_ok (Call.enter_eq hn captured m₁)] at h
      obtain ⟨t, ht⟩ := hrec h
      exact ⟨t, .closure hr hn ht⟩
  | _ =>
    cases h
    exact ⟨[], .notCallable rfl⟩

/-- Expansion with `n` steps left goes by the rules for expansions, by induction on `n`. -/
theorem expandWithin_sound {n : Nat} {form : Value} (h : expandWithin recur ctx e n form m = some r) :
    ∃ t, Expands ctx e n form m t r := by
  induction n generalizing form m with
  | zero =>
    cases hc : m.macroCall? e form with
    | none =>
      rw [expandWithin_of_none hc] at h
      cases h
      exact ⟨[], .done hc⟩
    | some call =>
      rw [expandWithin_zero hc] at h
      cases h
      exact ⟨[], .limit hc⟩
  | succ n ih =>
    cases hc : m.macroCall? e form with
    | none =>
      rw [expandWithin_of_none hc] at h
      cases h
      exact ⟨[], .done hc⟩
    | some call =>
      rw [expandWithin_succ hc] at h
      rcases Run.bind_eq_some h with ⟨fault, m₁, hx, rfl⟩ | ⟨form', m₁, hx, h⟩
      · obtain ⟨t, ht⟩ := apply_sound hrec hx
        exact ⟨t, .fails hc ht⟩
      · obtain ⟨t, ht⟩ := apply_sound hrec hx
        obtain ⟨m₂, hr, h⟩ := of_record h
        obtain ⟨u, hu⟩ := ih h
        exact ⟨t ++ u, .once hc ht hr hu⟩

/-- The bindings of a `let*` go by the rules for them, two items at a time. -/
theorem bindEach_sound : ∀ {items : List Value} {m : Machine} {r : Except EvalError Unit × Machine},
    Step.bindEach recur ctx e items m = some r → ∃ t, BindsEach ctx e items m t r
  | [], _, _, h => by
    cases h
    exact ⟨[], .done (Nat.zero_le 1)⟩
  | [_], _, _, h => by
    cases h
    exact ⟨[], .done (Nat.le_refl 1)⟩
  | target :: expr :: rest, m, r, h => by
    rcases Run.bind_eq_some h with ⟨fault, m₁, hx, rfl⟩ | ⟨v, m₁, hx, h⟩
    · obtain ⟨t, ht⟩ := hrec hx
      exact ⟨t, .fails ht⟩
    · obtain ⟨t, ht⟩ := hrec hx
      cases target with
      | symbol name =>
        obtain ⟨u, hu⟩ := bindEach_sound (m := m₁.bind e name v) h
        exact ⟨t ++ u, .cons ht hu⟩
      | _ =>
        cases h
        exact ⟨t, .noSymbol ht (by simp)⟩

/-- `def!` goes by its rule. -/
theorem define_sound {target expr : Value} (h : Step.define recur inner e .define target expr m = some r) :
    ∃ t, Performs ctx inner e .define [target, expr] m t r := by
  rcases Run.bind_eq_some h with ⟨fault, m₁, hx, rfl⟩ | ⟨v, m₁, hx, h⟩
  · obtain ⟨t, ht⟩ := hrec hx
    exact ⟨t, .defineFails ht⟩
  · obtain ⟨t, ht⟩ := hrec hx
    exact ⟨t, .define ht (bindFor_eq_some.1 h)⟩

/-- `defmacro!` goes by its rule, and makes a macro of a closure before it is bound. -/
theorem defineMacro_sound {target expr : Value} (h : Step.define recur inner e .defineMacro target expr m = some r) :
    ∃ t, Performs ctx inner e .defineMacro [target, expr] m t r := by
  rcases Run.bind_eq_some h with ⟨fault, m₁, hx, rfl⟩ | ⟨v, m₁, hx, h⟩
  · obtain ⟨t, ht⟩ := hrec hx
    exact ⟨t, .defineMacroFails ht⟩
  · obtain ⟨t, ht⟩ := hrec hx
    cases v with
    | closure id params body captured isMacro => exact ⟨t, .defineMacro ht (bindFor_eq_some.1 h)⟩
    | _ =>
      cases h
      exact ⟨t, .noClosure ht (by simp)⟩

/-- `let*` goes by its rules, with its last turn taken in the new frame. -/
theorem bindLocally_sound {bindings body : Value}
    (h : Run.bind (Step.bindLocally recur inner e bindings body) (Turn.next recur fun _ _ => ctx) m = some r) :
    ∃ t, Performs ctx inner e .bindLocally [bindings, body] m t r := by
  cases hi : Step.bindingItems bindings with
  | error fault =>
    rw [Run.bind_error (Step.bindLocally_of_error hi m)] at h
    cases h
    exact ⟨[], .noBindings hi⟩
  | ok items =>
    rw [Run.bind_congr (Step.bindLocally_of_items hi m), Run.bind_assoc] at h
    rcases Run.bind_eq_some h with ⟨fault, m₁, hx, rfl⟩ | ⟨_, m₁, hx, h⟩
    · obtain ⟨t, ht⟩ := bindEach_sound hrec hx
      exact ⟨t, .bindingFails hi ht⟩
    · obtain ⟨t, ht⟩ := bindEach_sound hrec hx
      obtain ⟨u, hu⟩ := hrec h
      exact ⟨t ++ u, .bindLocally hi ht hu⟩

/-- `do` goes by its rules, with its last operand evaluated in the caller's place. -/
theorem sequence_sound : ∀ {operands : List Value} {m : Machine} {r : Except EvalError Value × Machine},
    Run.bind (Step.sequence recur inner e operands) (Turn.next recur fun _ _ => ctx) m = some r →
      ∃ t, Performs ctx inner e .sequence operands m t r
  | [], m, r, h => by
    obtain ⟨t, ht⟩ := hrec h
    exact ⟨t, .sequenceNil ht⟩
  | [last], m, r, h => by
    obtain ⟨t, ht⟩ := hrec h
    exact ⟨t, .sequenceLast ht⟩
  | x :: y :: rest, m, r, h => by
    replace h : Run.bind (Run.bind (recur inner e x) fun _ => Step.sequence recur inner e (y :: rest))
      (Turn.next recur fun _ _ => ctx) m = some r := h
    rw [Run.bind_assoc] at h
    rcases Run.bind_eq_some h with ⟨fault, m₁, hx, rfl⟩ | ⟨v, m₁, hx, h⟩
    · obtain ⟨t, ht⟩ := hrec hx
      exact ⟨t, .sequenceFails ht⟩
    · obtain ⟨t, ht⟩ := hrec hx
      obtain ⟨u, hu⟩ := sequence_sound h
      exact ⟨t ++ u, .sequenceCons ht hu⟩

/-- `if` goes by its rules, with or without an alternative. -/
theorem choose_sound {condition consequent : Value} (rest : List Value) (hn : rest.length ≤ 1)
    (h : Run.bind (Step.special recur inner e .choose (condition :: consequent :: rest))
      (Turn.next recur fun _ _ => ctx) m = some r) :
    ∃ t, Performs ctx inner e .choose (condition :: consequent :: rest) m t r := by
  rw [Step.special_choose recur inner e hn, Run.bind_assoc] at h
  rcases Run.bind_eq_some h with ⟨fault, m₁, hx, rfl⟩ | ⟨v, m₁, hx, h⟩
  · obtain ⟨t, ht⟩ := hrec hx
    exact ⟨t, .conditionFails hn ht⟩
  · obtain ⟨t, ht⟩ := hrec hx
    obtain ⟨u, hu⟩ := hrec h
    exact ⟨t ++ u, .choose hn ht hu⟩

/-- `quasiquote` goes by its rules: the template is made first, and evaluated in the caller's place. -/
theorem template_sound {v : Value}
    (h : Run.bind (Step.special recur inner e .template [v]) (Turn.next recur fun _ _ => ctx) m = some r) :
    ∃ t, Performs ctx inner e .template [v] m t r := by
  rw [Step.special_template] at h
  cases hv : Step.template v with
  | error fault =>
    rw [hv] at h
    cases h
    exact ⟨[], .noTemplate hv⟩
  | ok form =>
    rw [hv] at h
    obtain ⟨t, ht⟩ := hrec h
    exact ⟨t, .template hv ht⟩

/-- Every special form goes by the rules for it; a wrong count of operands is a rule too. -/
theorem special_sound {s : SpecialForm} {operands : List Value}
    (h : Run.bind (Step.special recur inner e s operands) (Turn.next recur fun _ _ => ctx) m = some r) :
    ∃ t, Performs ctx inner e s operands m t r := by
  cases s, operands using SpecialForm.cases_operands with
  | define =>
    rw [Step.special_define, bind_done] at h
    exact define_sound hrec h
  | defineMacro =>
    rw [Step.special_defineMacro, bind_done] at h
    exact defineMacro_sound hrec h
  | bindLocally => exact bindLocally_sound hrec h
  | sequence => exact sequence_sound hrec h
  | choose => exact choose_sound hrec [] (Nat.zero_le 1) h
  | chooseElse condition consequent alternative => exact choose_sound hrec [alternative] (Nat.le_refl 1) h
  | function parameters body =>
    rw [Step.special_function, bind_done] at h
    cases hs : Step.signature parameters with
    | error fault =>
      cases (function_of_error hs).symm.trans h
      exact ⟨[], .noSignature hs⟩
    | ok params =>
      cases (function_eq hs).symm.trans h
      exact ⟨[], .function hs⟩
  | quote =>
    cases h
    exact ⟨[], .quote⟩
  | showTemplate =>
    rw [Step.special_showTemplate, bind_done] at h
    cases h
    exact ⟨[], .showTemplate⟩
  | template => exact template_sound hrec h
  | showExpansion =>
    rw [Step.special_showExpansion, bind_done] at h
    obtain ⟨t, ht⟩ := expandWithin_sound hrec h
    exact ⟨t, .showExpansion ht⟩
  | badCount s operands bad =>
    rw [Step.special_of_badCount recur inner e bad] at h
    cases h
    exact ⟨[], .badCount bad⟩

/-- A form that is no list is settled by the rules for plain forms. -/
theorem plain_sound {form : Value} (hf : ∀ xs, form ≠ .list xs) (h : Step.plain recur ctx e form m = some r) :
    ∃ t, Settles ctx e form m t r := by
  cases form with
  | symbol name =>
    obtain ⟨m₁, hr, -⟩ := of_record h
    rw [plain_symbol hr] at h
    cases hl : m₁.lookup e name with
    | none =>
      rw [hl] at h
      cases h
      exact ⟨[], .unbound hr hl⟩
    | some v =>
      rw [hl] at h
      cases h
      exact ⟨[], .symbol hr hl⟩
  | vector xs =>
    obtain ⟨m₁, hr, h⟩ := of_record h
    obtain ⟨r, m₂, hx, rfl⟩ := Run.bind_pure_eq_some h
    obtain ⟨t, ht⟩ := each_sound hrec hx
    exact ⟨t, .vector hr ht⟩
  | map es =>
    obtain ⟨m₁, hr, h⟩ := of_record h
    obtain ⟨r, m₂, hx, rfl⟩ := Run.bind_pure_eq_some h
    obtain ⟨t, ht⟩ := eachEntry_sound hrec hx
    exact ⟨t, .map hr ht⟩
  | list xs => exact absurd rfl (hf xs)
  | _ =>
    obtain ⟨m₁, hr, h⟩ := of_record h
    cases h
    exact ⟨[], .literal rfl hr⟩

/-- A call evaluates its elements and then applies the first to the others. -/
theorem call_sound {head : Value} {operands : List Value} {m₁ : Machine}
    (hr : Recorded ctx .trace (Message.value "apply " (.list (head :: operands))) m m₁)
    (hs : SpecialForm.ofValue? head = none)
    (h : Run.bind (Step.call recur (ctx.hold e (.list (head :: operands))) e (head :: operands))
      (Turn.next recur fun _ _ => ctx) m₁ = some r) :
    ∃ t, Settles ctx e (.list (head :: operands)) m t r := by
  unfold Step.call at h
  replace h := (Run.bind_assoc _ _ _ ▸ h : Run.bind (Step.each recur _ e (head :: operands)) _ m₁ = some r)
  rcases Run.bind_eq_some h with ⟨fault, m₂, hx, rfl⟩ | ⟨vs, m₂, hx, h⟩
  · obtain ⟨t, ht⟩ := each_sound hrec hx
    exact ⟨t, .callFails hr hs ht⟩
  · obtain ⟨t, ht⟩ := each_sound hrec hx
    match vs, length_of_each hx with
    | f :: args, _ =>
      obtain ⟨u, hu⟩ := apply_sound hrec h
      exact ⟨t ++ u, .call hr hs ht hu⟩

/-- An expanded form is settled by the rules, as a special form, as a call or as a plain form. -/
theorem expanded_sound {form : Value}
    (h : Run.bind (Step.expanded recur ctx e form) (Turn.next recur fun _ _ => ctx) m = some r) :
    ∃ t, Settles ctx e form m t r := by
  cases form with
  | list items =>
    match items with
    | [] =>
      cases h
      exact ⟨[], .empty⟩
    | head :: operands =>
      cases hs : SpecialForm.ofValue? head with
      | some s =>
        rw [Step.expanded_special hs, Run.bind_assoc] at h
        obtain ⟨m₁, hr, h⟩ := of_record h
        obtain ⟨t, ht⟩ := special_sound hrec h
        exact ⟨t, .special hr hs ht⟩
      | none =>
        rw [Step.expanded_call hs, Run.bind_assoc] at h
        obtain ⟨m₁, hr, h⟩ := of_record h
        exact call_sound hrec hr hs h
  | _ =>
    rw [Step.expanded_plain (by simp), bind_done] at h
    exact plain_sound hrec (by simp) h

/-- One round of the interpreter, above evaluations that are derivations, is a derivation. -/
theorem advance_sound {form : Value} (h : advance recur ctx e form m = some r) : ∃ t, Evaluates ctx e form m t r := by
  unfold advance step at h
  replace h := (Run.bind_assoc _ _ _ ▸ h : Run.bind (expand recur ctx e form) _ m = some r)
  rcases Run.bind_eq_some h with ⟨fault, m₁, hx, rfl⟩ | ⟨form', m₁, hx, h⟩
  · obtain ⟨t, ht⟩ := expandWithin_sound hrec hx
    exact ⟨t, .unexpanded ht⟩
  · obtain ⟨t, ht⟩ := expandWithin_sound hrec hx
    obtain ⟨u, hu⟩ := expanded_sound hrec h
    exact ⟨t ++ u, .expanded ht hu⟩

end Sound

/-- What evaluation comes to, the rules allow. -/
theorem evaluate_sound {form : Value} (h : evaluate ctx e form m = some r) : ∃ t, Evaluates ctx e form m t r :=
  evaluate_induction (P := fun ctx e form m r => ∃ t, Evaluates ctx e form m t r)
    (fun _ ih _ _ _ _ _ hr => advance_sound (fun h => ih _ _ _ _ _ h) hr) h

end MiniLisp
