import MiniLisp.Proofs.Adequacy
import MiniLisp.Proofs.Template
import MiniLisp.Proofs.Trace

/-!
# Templates are filled

A rewritten template is a form like any other, and its elements are evaluated from left to right however deep they
stand. What it comes to is followed along the template. Before, between and after the expressions inside, nothing
happens but that builtins are looked up and called, for which the machine must be ready.

* `InTurn`: expressions evaluated one after another, with something true of the machine in between.
* `evaluate_template`: what a rewritten template comes to.
* **Template filling** (`quasiquote_fills_template`): a template that is quasiquoted comes to the filled template.
-/

namespace MiniLisp

/-! ## Evaluation of rewritten templates -/

namespace Machine

/-- The names that a rewritten template uses mean in a frame what they mean in a root. -/
structure Standard (m : Machine) (e : FrameId) : Prop where
  cons : m.lookup e "cons" = some (.builtin .cons)
  concat : m.lookup e "concat" = some (.builtin .concat)
  vec : m.lookup e "vec" = some (.builtin .vec)
  quote {f : Value} (h : m.lookup e "quote" = some f) : f.expands = false
  quasiquote {f : Value} (h : m.lookup e "quasiquote" = some f) : f.expands = false

variable {m : Machine} {e : FrameId} {name : String}

/-- A symbol that names no macro makes no macro call. -/
theorem macroCall?_eq_none (h : ∀ f, m.lookup e name = some f → f.expands = false) (operands : List Value) :
    m.macroCall? e (.list (.symbol name :: operands)) = none := by
  simp only [macroCall?]
  cases hl : m.lookup e name with
  | none => rfl
  | some f => simp [h f hl]

end Machine

/-- Nothing stands in the way of a rewritten template: its names mean what they should, and where trace records are
wanted, no atom holds itself, for its print would have no end. -/
structure Ready (trace : Bool) (e : FrameId) (m : Machine) : Prop where
  standard : m.Standard e
  prints : trace = true → m.Prints

/-- Expressions evaluated in a frame once each, from left to right, with values for all of them. A property of the
machine holds before, between and after. -/
inductive InTurn (P : Machine → Prop) (e : FrameId) :
    Context → List Value → Machine → List Value → Machine → Prop
  | nil {ctx m} (h : P m) : InTurn P e ctx [] m [] m
  | cons {ctx x xs v vs m m₁ m'} (h : P m) (hx : evaluate ctx e x m = some (.ok v, m₁))
      (hxs : InTurn P e (ctx.holdValue v) xs m₁ vs m') : InTurn P e ctx (x :: xs) m (v :: vs) m'

namespace InTurn

variable {P : Machine → Prop} {e : FrameId} {ctx : Context} {xs ys vs : List Value} {m m' : Machine}

theorem start (h : InTurn P e ctx xs m vs m') : P m := by cases h <;> assumption

/-- The condition holds at the end of the turns, as it holds at their start. -/
theorem finish (h : InTurn P e ctx xs m vs m') : P m' := by
  induction h with
  | nil h => exact h
  | cons _ _ _ ih => exact ih

/-- There is a value for each of the expressions. -/
theorem length_eq (h : InTurn P e ctx xs m vs m') : vs.length = xs.length := by
  induction h with
  | nil _ => rfl
  | cons _ _ _ ih => exact congrArg (· + 1) ih

/-- What is evaluated in turn is evaluated in two parts, the second one with the values of the first one held. -/
theorem of_append (h : InTurn P e ctx (xs ++ ys) m vs m') : ∃ us ws m₁, vs = us ++ ws ∧ InTurn P e ctx xs m us m₁ ∧
    InTurn P e (us.foldl Context.holdValue ctx) ys m₁ ws m' := by
  induction xs generalizing ctx m vs with
  | nil => exact ⟨[], vs, m, rfl, .nil h.start, h⟩
  | cons x xs ih =>
    cases h with
    | @cons _ _ _ v _ _ m₁ _ hm hx hxs =>
      obtain ⟨us, ws, m₂, rfl, hus, hws⟩ := ih hxs
      exact ⟨v :: us, ws, m₂, rfl, .cons hm hx hus, hws⟩

end InTurn

section Evaluation

variable {c : Context} {e : FrameId} {n m m' : Machine}

theorem Context.Alike.lookup_eq (h : c.Alike n m) (e : FrameId) (name : String) :
    n.lookup e name = m.lookup e name := by
  rw [h.eq_withRecords, Machine.lookup_withRecords]

theorem Context.Alike.prints (h : c.Alike n m) (hp : m.Prints) : n.Prints := by
  intro a
  rw [h.eq_withRecords, Machine.contents_withRecords]
  exact hp a

/-- Trace records do not spoil readiness. -/
theorem Ready.of_alike (hm : Ready (c.records .trace) e m) (h : c.Alike n m) : Ready (c.records .trace) e n := by
  have look := h.lookup_eq e
  refine ⟨⟨?_, ?_, ?_, fun hf => ?_, fun hf => ?_⟩, fun ht => h.prints (hm.prints ht)⟩
  · rw [look, hm.standard.cons]
  · rw [look, hm.standard.concat]
  · rw [look, hm.standard.vec]
  · exact hm.standard.quote (look _ ▸ hf)
  · exact hm.standard.quasiquote (look _ ▸ hf)

/-- A symbol is evaluated to what it is bound to, up to a trace record. -/
theorem evaluate_symbol {name : String} {v : Value} (hn : Ready (c.records .trace) e n) (h : n.lookup e name = some v) :
    ∃ n', evaluate c e (.symbol name) n = some (.ok v, n') ∧ c.Alike n' n := by
  obtain ⟨n', hr, ha⟩ := Context.record_alike (total_value "evaluate_ast " (.symbol name)) hn.prints
  exact ⟨n', (Evaluates.expanded (.done rfl) (.symbol hr (by rw [ha.lookup_eq, h]))).run, ha⟩

theorem evaluate_literal {v : Value} (hn : Ready (c.records .trace) e n) (hv : v.isLiteral = true) :
    ∃ n', evaluate c e v n = some (.ok v, n') ∧ c.Alike n' n := by
  obtain ⟨n', hr, ha⟩ := Context.record_alike (total_value "evaluate_ast " v) hn.prints
  have noCall : n.macroCall? e v = none := by cases v <;> first | rfl | cases hv
  exact ⟨n', (Evaluates.expanded (.done noCall) (.literal hv hr)).run, ha⟩

/-- A quoted value is evaluated to the value. -/
theorem evaluate_quoted (hn : Ready (c.records .trace) e n) (v : Value) :
    ∃ n', evaluate c e v.quoted n = some (.ok v, n') ∧ c.Alike n' n := by
  obtain ⟨n', hr, ha⟩ := Context.record_alike (total_value "apply " v.quoted) hn.prints
  have noCall := Machine.macroCall?_eq_none (fun f => hn.standard.quote (f := f)) [v]
  exact ⟨n', (Evaluates.expanded (.done noCall) (.special hr (by decide) .quote)).run, ha⟩

/-- A builtin that comes to an outcome on its own leaves the machine as it is, but for trace records. -/
theorem builtin_settles {b : Builtin} {args : List Value} {r : Except EvalError Value}
    (hn : b.arity.accepts args.length = true) (hp : c.records .trace = true → n.Prints)
    (hr : b.run c args = Run.ofExcept r) : ∃ n', Call.builtin c b args n = some (r, n') ∧ c.Alike n' n := by
  obtain ⟨n₁, hr₁, ha₁⟩ := Context.record_alike (total_callText b.name args) hp
  have ran : b.run c args n₁ = some (r, n₁) := by rw [hr]; rfl
  unfold Call.builtin
  rw [Call.checkCount, if_pos hn]
  cases r with
  | ok v =>
    obtain ⟨n₂, hr₂, ha₂⟩ := Context.record_alike (total_value ("Call to " ++ b.name ++ " resulted in ") v)
      fun ht => ha₁.prints (hp ht)
    exact ⟨n₂, (Run.bind_ok hr₁).trans ((Run.observe_ok ran).trans (Run.bind_ok hr₂)), ha₂.trans ha₁⟩
  | error fault =>
    have total : Message.Total fun contents =>
        (fault.message contents).map fun t => "Call to " ++ b.name ++ " failed: " ++ t :=
      fun contents h => Option.isSome_map.trans (total_message fault contents h)
    obtain ⟨n₂, hr₂, ha₂⟩ := Context.record_alike total fun ht => ha₁.prints (hp ht)
    exact ⟨n₂, (Run.bind_ok hr₁).trans ((Run.observe_error ran).trans (Run.bind_ok hr₂)), ha₂.trans ha₁⟩

/-- A builtin that comes to a value on its own leaves the machine as it is, but for trace records. -/
theorem builtin_alike {b : Builtin} {args : List Value} {v : Value} (hn : b.arity.accepts args.length = true)
    (hp : c.records .trace = true → n.Prints) (hv : b.run c args = Run.pure v) :
    ∃ n', Call.builtin c b args n = some (.ok v, n') ∧ c.Alike n' n := builtin_settles (r := .ok v) hn hp hv

/-- A call of a builtin by its name, once the operands have values. -/
theorem evaluate_builtin {name : String} {b : Builtin} {operands : List Value} (args : List Value) {v : Value}
    (hn : Ready (c.records .trace) e n) (hb : n.lookup e name = some (.builtin b))
    (hs : SpecialForm.ofValue? (.symbol name) = none)
    (hx : ∀ n₁, c.Alike n₁ n → ∃ n₂, Step.each evaluate
      ((c.hold e (.list (.symbol name :: operands))).holdValue (.builtin b)) e operands n₁ = some (.ok args, n₂) ∧
        c.Alike n₂ m')
    (hm : Ready (c.records .trace) e m') (hc : b.arity.accepts args.length = true)
    (hv : ∀ ctx, b.run ctx args = Run.pure v) :
    ∃ n', evaluate c e (.list (.symbol name :: operands)) n = some (.ok v, n') ∧ c.Alike n' m' := by
  obtain ⟨n₁, hr, ha₁⟩ :=
    Context.record_alike (total_value "apply " (.list (.symbol name :: operands))) hn.prints
  obtain ⟨n₂, hf, ha₂⟩ := evaluate_symbol (c := c.hold e (.list (.symbol name :: operands)))
    (hn.of_alike ha₁) (by rw [ha₁.lookup_eq, hb])
  obtain ⟨n₃, hargs, ha₃⟩ := hx n₂ (ha₂.trans ha₁)
  obtain ⟨n₄, hcall, ha₄⟩ := builtin_alike (c := c.hold e (.list (.symbol name :: operands))) hc
    (fun ht => ha₃.prints (hm.prints ht)) (hv _)
  refine ⟨n₄, ?_, ha₄.trans ha₃⟩
  have noCall : n.macroCall? e (.list (.symbol name :: operands)) = none := by
    refine Machine.macroCall?_eq_none (fun f hl => ?_) operands
    cases hb.symm.trans hl
    rfl
  have elements : Step.each evaluate (c.hold e (.list (.symbol name :: operands))) e (.symbol name :: operands) n₁ =
      some (.ok (.builtin b :: args), n₃) := (Run.bind_ok hf).trans (Run.bind_pure hargs)
  rw [Call.evaluate_call noCall hs hr elements, Call.inPlace, Call.apply_builtin, bind_done]
  exact hcall

/-- A value stays the value when more is held, and when the machine is another one that is alike. -/
theorem evaluate_alike {ctx : Context} {x v : Value} (hc : ctx.LE c) (hx : evaluate ctx e x m = some (.ok v, m'))
    (h : c.Alike n m) : ∃ n', evaluate c e x n = some (.ok v, n') ∧ c.Alike n' m' :=
  h.evaluate (evaluate_ok_of_le hc hx)

/-- Two elements, the second evaluated while the first is held. -/
theorem each_two {x y v w : Value} {n₁ n₂ : Machine} (hx : evaluate c e x n = some (.ok v, n₁))
    (hy : evaluate (c.holdValue v) e y n₁ = some (.ok w, n₂)) :
    Step.each evaluate c e [x, y] n = some (.ok [v, w], n₂) :=
  (Run.bind_ok hx).trans (Run.bind_pure (Run.bind_pure hy))

end Evaluation

theorem Value.elements_eq {v : Value} (h : v.isSequence = true) : Sequence.elements v = .ok v.elements := by
  cases v <;> first | rfl | cases h

/-- `concat` of a sequence and a list puts the elements in front. -/
theorem concat_splice {w : Value} (h : w.isSequence = true) (xs : List Value) (ctx : Context) :
    Builtin.concat.run ctx [w, .list xs] = Run.pure (.list (w.elements ++ xs)) := by
  have elements : [w, .list xs].mapM Sequence.elements = .ok [w.elements, xs] := by
    rw [List.mapM_cons, Value.elements_eq h]
    rfl
  change Run.ofExcept (([w, .list xs].mapM Sequence.elements).map fun xss => Value.list xss.flatten) = _
  rw [elements, Except.map, List.flatten_cons, List.flatten_singleton]
  rfl

namespace Context.LE

variable {ctx c : Context}

/-- What owns nothing further may be held as well. -/
theorem holdValue_of (h : ctx.LE c) {v : Value} (hv : v.owned.LE c.held.owned) : (ctx.holdValue v).LE c := by
  refine ⟨h.files, h.recorded, h.held.frames, fun {w} hw => ?_⟩
  rcases List.mem_cons.1 hw with rfl | hw
  · exact hv
  · exact h.held.values hw

theorem holdValues (h : ctx.LE c) {vs : List Value} (hvs : ∀ v ∈ vs, v.owned.LE c.held.owned) :
    (vs.foldl Context.holdValue ctx).LE c := by
  induction vs generalizing ctx with
  | nil => exact h
  | cons v vs ih =>
    exact ih (h.holdValue_of (hvs v List.mem_cons_self)) fun w hw => hvs w (List.mem_cons_of_mem v hw)

/-- An operand of a call is evaluated in a context that holds more. -/
theorem held_operand (h : ctx.LE c) (e : FrameId) (form f : Value) : ctx.LE ((c.hold e form).holdValue f) :=
  h.trans ((hold_self c e form).trans (holdItems_self _ [f]))

end Context.LE

theorem owned_le_holdValue (c : Context) (v : Value) : v.owned.LE (c.holdValue v).held.owned :=
  Holds.le_owned (h := (c.holdValue v).held) List.mem_cons_self

mutual

/-- A rewritten template, evaluated while no less is held, comes to the template filled with the values. -/
theorem evaluate_template : ∀ {t form : Value} {ctx c : Context} {e : FrameId} {vs : List Value} {n m m' : Machine},
    ctx.LE c → t.template = .ok form →
      InTurn (Ready (c.records .trace) e) e ctx (t.markers.map (·.expr)) m vs m' → Value.Spliceable t.markers vs →
        c.Alike n m →
          ∃ n', evaluate c e form n = some (.ok (t.fill vs), n') ∧ c.Alike n' m'
  | .list items, form, ctx, c, e, vs, n, m, m', hc, ht, hx, hs, hn => by
    rcases Value.template_list ht with rfl | ⟨hi, ht⟩
    · rw [Value.markers, Value.marked?_symbol] at hx
      cases hx with
      | cons _ hv hrest =>
        cases hrest
        rw [Value.fill, Value.marked?_symbol]
        exact evaluate_alike hc hv hn
    · rw [Value.markers_list hi] at hx hs
      rw [Value.fill_list hi]
      exact evaluate_templateItems hc ht hx hs hn
  | .vector items, form, ctx, c, e, vs, n, m, m', hc, ht, hx, hs, hn => by
    obtain ⟨rest, hi, rfl⟩ := Value.template_vector ht
    rw [Value.markers] at hx hs
    rw [Value.fill]
    have ready := hx.start.of_alike hn
    refine evaluate_builtin [.list (Value.fillItems items vs)] ready ready.standard.vec rfl
      (fun n₁ h => ?_) hx.finish rfl fun _ => rfl
    obtain ⟨n₂, hr, hn₂⟩ := evaluate_templateItems (hc.held_operand e _ _) hi hx hs (h.trans hn)
    exact ⟨n₂, Run.bind_pure hr, hn₂⟩
  | .symbol _, _, _, _, _, _, _, _, _, _, ht, hx, _, hn | .map _, _, _, _, _, _, _, _, _, _, ht, hx, _, hn => by
    cases ht
    cases hx with
    | nil hm => exact (evaluate_quoted (hm.of_alike hn) _).imp fun n' h => ⟨h.1, h.2.trans hn⟩
  | .nil, _, _, _, _, _, _, _, _, _, ht, hx, _, hn | .bool _, _, _, _, _, _, _, _, _, _, ht, hx, _, hn
  | .int _, _, _, _, _, _, _, _, _, _, ht, hx, _, hn | .float _, _, _, _, _, _, _, _, _, _, ht, hx, _, hn
  | .text _, _, _, _, _, _, _, _, _, _, ht, hx, _, hn | .keyword _, _, _, _, _, _, _, _, _, _, ht, hx, _, hn
  | .builtin _, _, _, _, _, _, _, _, _, _, ht, hx, _, hn | .rooted _ _, _, _, _, _, _, _, _, _, _, ht, hx, _, hn
  | .closure _ _ _ _ _, _, _, _, _, _, _, _, _, _, ht, hx, _, hn
  | .atom _, _, _, _, _, _, _, _, _, _, ht, hx, _, hn => by
    cases ht
    cases hx with
    | nil hm =>
      refine (evaluate_literal (hm.of_alike hn) ?_).imp fun n' h => ⟨h.1, h.2.trans hn⟩
      rfl

/-- The same for the items of a list in the template, from the first to the last. -/
theorem evaluate_templateItems : ∀ {xs : List Value} {form : Value} {ctx c : Context} {e : FrameId} {vs : List Value}
    {n m m' : Machine}, ctx.LE c → Value.templateItems xs = .ok form →
      InTurn (Ready (c.records .trace) e) e ctx ((Value.itemMarkers xs).map (·.expr)) m vs m' →
        Value.Spliceable (Value.itemMarkers xs) vs → c.Alike n m →
          ∃ n', evaluate c e form n = some (.ok (.list (Value.fillItems xs vs)), n') ∧ c.Alike n' m'
  | [], form, ctx, c, e, vs, n, m, m', hc, ht, hx, hs, hn => by
    cases ht
    cases hx
    exact ⟨n, (Evaluates.expanded (.done rfl) .empty).run, hn⟩
  | x :: xs, form, ctx, c, e, vs, n, m, m', hc, ht, hx, hs, hn => by
    have ready := hx.start.of_alike hn
    obtain ⟨rest, hxs, ⟨y, rfl, rfl⟩ | ⟨hi, first, hf, rfl⟩⟩ := Value.templateItems_cons ht
    · rw [Value.itemMarkers_splice] at hx hs
      have finish := hx.finish
      cases hx with
      | @cons _ _ _ w ws _ m₁ _ hm hy hws =>
        obtain ⟨sw, sws⟩ := Value.Spliceable.of_cons hs
        rw [Value.fillItems_splice]
        refine evaluate_builtin [w, .list (Value.fillItems xs ws)] ready
          ready.standard.concat rfl (fun n₁ h => ?_) finish rfl fun _ => ?_
        · have more := hc.held_operand e (.list [.symbol "concat", y, rest]) (.builtin .concat)
          obtain ⟨n₂, hr, hn₂⟩ := evaluate_alike more hy (h.trans hn)
          obtain ⟨n₃, hr', hn₃⟩ := evaluate_templateItems (more.holdItems [w]) hxs hws sws hn₂
          exact ⟨n₃, each_two hr hr', hn₃⟩
        · exact concat_splice (sw rfl) _ _
    · rw [Value.itemMarkers_item hi, List.map_append] at hx
      rw [Value.itemMarkers_item hi] at hs
      obtain ⟨us, ws, m₁, rfl, hus, hws⟩ := hx.of_append
      have length : us.length = x.markers.length := hus.length_eq.trans (List.length_map _)
      obtain ⟨su, sw⟩ := hs.of_append length
      rw [Value.fillItems_item hi xs length]
      refine evaluate_builtin [x.fill us, .list (Value.fillItems xs ws)] ready
        ready.standard.cons rfl (fun n₁ h => ?_) hws.finish rfl fun _ => rfl
      have more := hc.held_operand e (.list [.symbol "cons", first, rest]) (.builtin .cons)
      obtain ⟨n₂, hr, hn₂⟩ := evaluate_template more hf hus su (h.trans hn)
      -- the filled element owns what the values in it own, which are held no longer themselves
      have holds := (more.trans (.holdItems_self _ [x.fill us])).holdValues fun v hv =>
        (Value.owned_fill hf length su v hv).trans (owned_le_holdValue _ _)
      obtain ⟨n₃, hr', hn₃⟩ := evaluate_templateItems holds hxs hws sw hn₂
      exact ⟨n₃, each_two hr hr', hn₃⟩

end

/-- **Quasiquote fills its template.** If what is inside a template, evaluated in turn, has values, and those that are
spliced in are sequences, then the template quasiquoted comes to the template filled with these values, and nothing
else is done on the way but for trace records. A template with nothing inside comes to itself, as if it were quoted. -/
theorem quasiquote_fills_template {t form : Value} {ctx : Context} {e : FrameId} {vs : List Value} {m m' : Machine}
    (ht : t.template = .ok form) (hx : InTurn (Ready (ctx.records .trace) e) e ctx (t.markers.map (·.expr)) m vs m')
    (hs : Value.Spliceable t.markers vs) :
    (∃ n, evaluate ctx e (.list [.symbol "quasiquote", t]) m = some (.ok (t.fill vs), n) ∧ ctx.Alike n m') ∧
      (t.markers = [] → t.fill vs = t ∧ m' = m ∧ ∃ n, evaluate ctx e t.quoted m = some (.ok t, n) ∧ ctx.Alike n m) := by
  have ready := hx.start
  refine ⟨?_, fun hm => ⟨Value.fill_of_markers_nil ht hm vs, ?_, evaluate_quoted ready t⟩⟩
  · obtain ⟨n₁, hr, hn₁⟩ :=
      Context.record_alike (total_value "apply " (.list [.symbol "quasiquote", t])) ready.prints
    obtain ⟨n₂, hform, hn₂⟩ := evaluate_template (.refl ctx) ht hx hs hn₁
    obtain ⟨u, hform⟩ := evaluate_iff.1 hform
    have noCall := Machine.macroCall?_eq_none (fun f => ready.standard.quasiquote (f := f)) [t]
    have template : Step.template t = .ok form := by rw [Step.template, ht]
    exact ⟨n₂, (Evaluates.expanded (.done noCall) (.special hr (by decide) (.template template hform))).run, hn₂⟩
  · rw [hm] at hx
    cases hx
    rfl

/-- A root that binds the builtins that rewritten templates use, and a list. -/
def listRoot : Machine :=
  ⟨#[⟨[("concat", .builtin .concat), ("cons", .builtin .cons), ("vec", .builtin .vec),
      ("xs", .list [.int 2, .int 3])], none⟩], #[], 0, "", #[]⟩

/-- The template `[a ~(def! y 1) (~@xs b)]`. -/
def nestedTemplate : Value :=
  .vector [.symbol "a", .list [.symbol "unquote", .list [.symbol "def!", .symbol "y", .int 1]],
    .list [.list [.symbol "splice-unquote", .symbol "xs"], .symbol "b"]]

theorem ready_listRoot {m : Machine} (h : m = listRoot ∨ m = listRoot.bind 0 "y" (.int 1)) : Ready false 0 m := by
  refine ⟨?_, fun ht => nomatch ht⟩
  rcases h with rfl | rfl
  · exact ⟨rfl, rfl, rfl, fun h => (nomatch h), fun h => (nomatch h)⟩
  · exact ⟨rfl, rfl, rfl, fun h => (nomatch h), fun h => (nomatch h)⟩

theorem nestedTemplate_inTurn :
    InTurn (Ready (firstHeld.records .trace) 0) 0 firstHeld (nestedTemplate.markers.map (·.expr)) listRoot
      [.int 1, .list [.int 2, .int 3]] (listRoot.bind 0 "y" (.int 1)) := by
  refine .cons (ready_listRoot (.inl rfl)) (evaluate_of_evalWithin 2 _ _ _ _ _ rfl) ?_
  exact .cons (ready_listRoot (.inr rfl)) (evaluate_of_evalWithin 1 _ _ _ _ _ rfl) (.nil (ready_listRoot (.inr rfl)))

theorem quasiquote_fills_template_nested :
    evaluate firstHeld 0 (.list [.symbol "quasiquote", nestedTemplate]) listRoot =
      some (.ok (.vector [.symbol "a", .int 1, .list [.int 2, .int 3, .symbol "b"]]),
        listRoot.bind 0 "y" (.int 1)) := by
  obtain ⟨⟨n, hr, hn⟩, -⟩ := quasiquote_fills_template rfl nestedTemplate_inTurn (by decide)
  rw [hr, show n = listRoot.bind 0 "y" (.int 1) from hn]
  rfl

end MiniLisp
