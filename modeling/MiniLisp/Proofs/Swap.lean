import Mathlib
import MiniLisp.Proofs.Growth
import MiniLisp.Proofs.Quasiquote

/-!
# An atom is swapped

What `swap!` evaluates is a form of its own, with values in it that have been evaluated before. All of them come out of
it as they went in, whatever they are (`Passes`): what is left is the call of the function in the place of a form and
the store of what it gives.

* `Passes`: a run that comes to a value and changes nothing but trace records.
* `Call.rooted_swap`: `swap!` up to the call of the function.
* **Swap** (`swap_reads_applies_and_stores`): the contents are read, the function is applied, its value is stored.
-/

namespace MiniLisp

/-! ## Runs that pass -/

namespace Context

variable {ctx : Context} {α β : Type} {k m n : Machine}

/-- Trace records did not keep a run from its end, or could not, since the print of every atom ends. -/
def Undisturbed (ctx : Context) (out : Option (Except EvalError α × Machine)) (m : Machine) : Prop :=
  out ≠ none ∨ (ctx.records .trace = true → m.Prints)

/-- What is left undisturbed from a machine is so from one that is alike. -/
theorem Undisturbed.of_alike {out : Option (Except EvalError α × Machine)} (h : ctx.Undisturbed out n)
    (hk : ctx.Alike k n) : ctx.Undisturbed out k :=
  h.imp id fun prints ht => hk.prints (prints ht)

theorem Alike.symm (h : ctx.Alike n m) : ctx.Alike m n := by
  unfold Alike at h ⊢
  split at h
  · next ht => rw [if_pos ht, h]
  · next ht => rw [if_neg ht, h]

theorem Alike.atomValue_eq (h : ctx.Alike n m) (a : AtomId) : n.atomValue a = m.atomValue a := by
  rw [h.eq_withRecords]
  rfl

/-- A change that has nothing to do with records. -/
theorem Alike.map (h : ctx.Alike n m) (f : Machine → Machine)
    (hf : ∀ m rs, f (m.withRecords rs) = (f m).withRecords rs) : ctx.Alike (f n) (f m) := by
  unfold Alike at h ⊢
  split at h
  · next ht =>
    have same := Machine.untraced_withRecords h (f m)
    rw [← hf, ← hf, ← (Machine.untraced_eq_iff.1 h).1] at same
    rw [if_pos ht]
    exact same
  · next ht => rw [if_neg ht, h]

/-- The same write leaves machines alike. -/
theorem Alike.setAtom (h : ctx.Alike n m) (a : AtomId) (v : Value) : ctx.Alike (n.setAtom a v) (m.setAtom a v) :=
  h.map (fun m => m.setAtom a v) fun _ _ => rfl

theorem Alike.addFrame (h : ctx.Alike n m) (bs : Bindings) (outer : Option FrameId) :
    ctx.Alike (n.addFrame bs outer).2 (m.addFrame bs outer).2 :=
  h.map (fun m => (m.addFrame bs outer).2) fun _ _ => rfl

theorem Alike.frames_eq (h : ctx.Alike n m) : n.frames = m.frames := by
  rw [h.eq_withRecords]
  rfl

/-- A trace record that has been made leaves the machine alike. -/
theorem record_alike_of_ne_none {message : Message} (h : Run.record ctx .trace message n ≠ none) :
    ∃ k, Recorded ctx .trace message n k ∧ ctx.Alike k n := by
  refine record_alike_of_isSome fun hr => Option.isSome_iff_ne_none.2 fun hm => h ?_
  simp [Run.record, hr, Run.bind, Run.gets?, hm]

/-- A run that comes to a value and leaves the machine as it is, but for trace records. What comes after it sees
nothing of it. -/
def Passes (ctx : Context) (m : Machine) (x : Run α) (a : α) : Prop :=
  ∀ n, ctx.Alike n m → ∀ {β : Type} (f : α → Run β), ctx.Undisturbed (Run.bind x f n) n →
    ∃ k, ctx.Alike k m ∧ ctx.Undisturbed (f a k) k ∧ Run.bind x f n = f a k

namespace Passes

variable {x y : Run α} {a : α} {b : β}

theorem pure (ctx : Context) (m : Machine) (a : α) : ctx.Passes m (Run.pure a) a := fun n hn _ _ h => ⟨n, hn, h, rfl⟩

/-- What passes in two parts passes as a whole. -/
theorem bind {g : α → Run β} (hx : ctx.Passes m x a) (hg : ctx.Passes m (g a) b) : ctx.Passes m (Run.bind x g) b := by
  intro n hn γ f h
  rw [Run.bind_assoc] at h ⊢
  obtain ⟨k, hk, h, first⟩ := hx n hn _ h
  obtain ⟨k', hk', h, second⟩ := hg k hk f h
  exact ⟨k', hk', h, first.trans second⟩

theorem congr (h : ∀ n, ctx.Alike n m → x n = y n) (hy : ctx.Passes m y a) : ctx.Passes m x a := by
  intro n hn γ f hu
  rw [Run.bind_congr (h n hn) f] at hu ⊢
  exact hy n hn f hu

/-- A trace record. -/
theorem record {message : Message} (ht : message.Total) (m : Machine) :
    ctx.Passes m (Run.record ctx .trace message) () := by
  intro n hn γ f h
  have made : ∃ k, Recorded ctx .trace message n k ∧ ctx.Alike k n := by
    rcases h with ended | prints
    · refine record_alike_of_ne_none fun none => ended ?_
      simp only [Run.bind, none]
    · exact record_alike ht prints
  obtain ⟨k, hr, hk⟩ := made
  rw [Run.bind_ok hr] at h ⊢
  exact ⟨k, hk.trans hn, h.of_alike hk, rfl⟩

theorem recordValue (what : String) (v : Value) (m : Machine) :
    ctx.Passes m (Run.recordValue ctx .trace what v) () := record (total_value what v) m

theorem recordCall (name : String) (args : List Value) (m : Machine) :
    ctx.Passes m (Call.recordCall ctx (fun _ => some name) args) () := record (total_callText name args) m

end Passes

end Context

open Context (Passes Undisturbed)

/-! ## Forms that pass -/

section

variable {c : Context} {e : FrameId} {m : Machine} {v : Value}

/-- A form with no macro call at its head. -/
theorem evaluate_settled {form : Value} (h : m.macroCall? e form = none) :
    evaluate c e form m = Run.bind (Step.expanded evaluate c e form) (Turn.next evaluate fun _ _ => c) m := by
  rw [evaluate_eq, advance, step]
  exact (congrFun (Run.bind_assoc _ _ _) m).trans (Run.bind_ok (expandWithin_of_none h))

/-- A symbol passes with what it is bound to. -/
theorem passes_symbol {name : String} (h : m.lookup e name = some v) :
    Passes c m (evaluate c e (.symbol name)) v := by
  refine Passes.congr (y := Step.plain evaluate c e (.symbol name)) (fun n _ => ?_) ?_
  · rw [evaluate_settled rfl, Step.expanded_plain (by simp), bind_done]
  · refine Passes.bind (.recordValue "evaluate_ast " (.symbol name) m) ?_
    refine Passes.congr (fun n hn => ?_) (.pure c m v)
    change Run.bind (Run.gets _) _ n = _
    rw [Run.bind_gets, hn.lookup_eq, h]
    rfl

theorem passes_literal (hv : v.isLiteral = true) : Passes c m (evaluate c e v) v := by
  refine Passes.congr (y := Step.plain evaluate c e v) (fun n _ => ?_) ?_
  · have noCall : n.macroCall? e v = none := by cases v <;> first | rfl | cases hv
    rw [evaluate_settled noCall, Step.expanded_plain (by rintro xs rfl; cases hv), bind_done]
  · refine Passes.bind (.recordValue "evaluate_ast " v m) ?_
    refine Passes.congr (fun n hn => ?_) (.pure c m v)
    cases v <;> first | rfl | cases hv

theorem passes_quoted (hq : ∀ g, m.lookup e "quote" = some g → g.expands = false) (v : Value) :
    Passes c m (evaluate c e v.quoted) v := by
  refine Passes.congr (y := Run.bind (Run.recordValue c .trace "apply " v.quoted) fun _ => Run.pure v)
    (fun n hn => ?_) ?_
  · have noCall := Machine.macroCall?_eq_none (fun g hg => hq g (hn.lookup_eq e "quote" ▸ hg)) [v]
    have special : SpecialForm.ofValue? (.symbol "quote") = some .quote := by decide
    rw [Value.quoted, evaluate_settled noCall, Step.expanded_special special, Run.bind_assoc]
    rfl
  · exact Passes.bind (.recordValue "apply " v.quoted m) (.pure c m v)

/-- Forms that pass, evaluated in turn. -/
theorem passes_each {xs vs : List Value} (h : List.Forall₂ (fun x v => ∀ c, Passes c m (evaluate c e x) v) xs vs)
    (c : Context) : Passes c m (Step.each evaluate c e xs) vs := by
  induction h generalizing c with
  | nil => exact .pure c m []
  | cons hx _ ih => exact (hx c).bind (Passes.bind (ih (c.holdValue _)) (.pure c m _))

theorem isLiteral_of_callable (h : v.callable = true) : v.isLiteral = true := by
  cases v <;> first | rfl | cases h

/-- A literal at the head of a form calls no macro. -/
theorem macroCall?_of_isLiteral (h : v.isLiteral = true) (e : FrameId) (operands : List Value) :
    m.macroCall? e (.list (v :: operands)) = none := by
  cases v <;> first | rfl | cases h

theorem ofValue?_of_isLiteral (h : v.isLiteral = true) : SpecialForm.ofValue? v = none := by
  cases v <;> first | rfl | cases h

end

/-! ## Calls on machines that are alike -/

namespace Call

variable {ctx inner outer : Context} {f v : Value} {args : List Value} {a : AtomId} {m m' n : Machine}
  {r : Except EvalError Value}

/-- A call in the place of a form does not depend on trace records. -/
theorem inPlace_alike (hr : inPlace inner outer f args m = some (r, m')) (h : ctx.Alike n m) :
    ∃ n', inPlace inner outer f args n = some (r, n') ∧ ctx.Alike n' m' := by
  unfold Context.Alike at h
  split at h
  · next ht =>
    have evaluates : ∀ {c c' : Context}, c = c' → ∀ e form,
        Run.Simulated Run.Untraced (evaluate c e form) (evaluate c' e form) := fun hc e form =>
      simulation_untraced.evaluate hc e form
    obtain ⟨n', hn, hn'⟩ := simulation_untraced.bind (simulation_untraced.apply evaluates rfl f args)
      (fun turn => simulation_untraced.next evaluates (fun _ _ => rfl) turn) m (r, m') hr n h
    exact ⟨n', hn, by rwa [Context.Alike, if_pos ht]⟩
  · exact ⟨m', h ▸ hr, .refl ctx m'⟩

/-- A store of a value comes to that value. -/
theorem builtin_reset (ctx : Context) (h : ctx.Undisturbed (builtin ctx .reset [.atom a, v] m) m)
    (h' : ctx.Undisturbed (builtin ctx .reset [.atom a, v] m) (m.setAtom a v)) :
    ∃ n, builtin ctx .reset [.atom a, v] m = some (.ok v, n) ∧ ctx.Alike n (m.setAtom a v) := by
  change ctx.Undisturbed (Run.bind (recordCall ctx (fun _ => some Builtin.reset.name) [.atom a, v]) _ m) _ at h h'
  obtain ⟨k, hk, -, called⟩ := Passes.recordCall Builtin.reset.name [.atom a, v] m m (.refl ctx m) _ h
  have ran : Builtin.reset.run ctx [.atom a, v] k = some (.ok v, k.setAtom a v) := rfl
  rw [called, Run.observe_ok ran] at h'
  have stored := hk.setAtom a v
  obtain ⟨n, hn, -, ended⟩ := Passes.recordValue ("Call to " ++ Builtin.reset.name ++ " resulted in ") v
    (m.setAtom a v) _ stored _ (h'.of_alike stored)
  exact ⟨n, called.trans ((Run.observe_ok ran).trans ended), hn⟩

/-! ## The form of a swap -/

/-- The call that is an operand of the form that `swap!` evaluates. -/
def applyForm (f current : Value) (args : List Value) : Value :=
  .list (f :: current.quoted :: args.map Value.quoted)

/-- The context in which the value of the function is stored. -/
def swapHeld (ctx : Context) (root : FrameId) (a : AtomId) (f current : Value) (args : List Value) : Context :=
  ((ctx.holdFrame root).holdValue (swapForm (.atom a) f current args)).hold root (swapForm (.atom a) f current args)

/-- The context of that operand. -/
def swapOuter (ctx : Context) (root : FrameId) (a : AtomId) (f current : Value) (args : List Value) : Context :=
  ((swapHeld ctx root a f current args).holdValue (.builtin .reset)).holdValue (.atom a)

/-- The context in which the function is called. -/
def swapInner (ctx : Context) (root : FrameId) (a : AtomId) (f current : Value) (args : List Value) : Context :=
  (swapOuter ctx root a f current args).hold root (applyForm f current args)

/-- What is held when `swap!` is carried out in parts: its root, its arguments and the contents of the atom. -/
def swapContext (ctx : Context) (root : FrameId) (a : AtomId) (f current : Value) (args : List Value) : Context :=
  (ctx.holdFrame root).holdItems (current :: .atom a :: f :: args)

theorem call_eq (recur : Evaluator) (ctx : Context) (e : FrameId) (items : List Value) :
    Step.call recur ctx e items = Run.bind (Step.each recur ctx e items) fun vs =>
      match vs with
      | f :: args => apply recur ctx f args
      | [] => Run.pure (.done (.list [])) := rfl

theorem each_cons (recur : Evaluator) (ctx : Context) (e : FrameId) (x : Value) (xs : List Value) :
    Step.each recur ctx e (x :: xs) = Run.bind (recur ctx e x) fun v =>
      Run.bind (Step.each recur (ctx.holdValue v) e xs) fun vs => Run.pure (v :: vs) := rfl

theorem each_nil (recur : Evaluator) (ctx : Context) (e : FrameId) : Step.each recur ctx e [] = Run.pure [] := rfl

theorem bind_pure_left {α β : Type} (x : α) (g : α → Run β) : Run.bind (Run.pure x) g = g x := rfl

variable {root : FrameId} {current : Value}

/-- The operand is the call of the function in its place, with the values for its operands. -/
theorem evaluate_applyForm (ctx : Context) (hquote : ∀ g, m.lookup root "quote" = some g → g.expands = false)
    (hf : f.callable = true) {β : Type} (g : Value → Run β)
    (h : ctx.Undisturbed (Run.bind (evaluate ctx root (applyForm f current args)) g m) m) :
    ∃ n, ctx.Alike n m ∧
      ctx.Undisturbed (Run.bind (inPlace (ctx.hold root (applyForm f current args)) ctx f (current :: args)) g n) n ∧
      Run.bind (evaluate ctx root (applyForm f current args)) g m =
        Run.bind (inPlace (ctx.hold root (applyForm f current args)) ctx f (current :: args)) g n := by
  have literal := isLiteral_of_callable hf
  have settled : evaluate ctx root (applyForm f current args) m = _ :=
    evaluate_settled (macroCall?_of_isLiteral literal root _)
  have operands : List.Forall₂ (fun x v => ∀ c, Passes c m (evaluate c root x) v)
      (f :: current.quoted :: args.map Value.quoted) (f :: current :: args) := by
    refine .cons (fun c => passes_literal literal) (.cons (fun c => passes_quoted hquote current) ?_)
    rw [List.forall₂_map_left_iff]
    exact List.forall₂_same.2 fun v _ c => passes_quoted hquote v
  rw [Run.bind_congr settled, applyForm, Step.expanded_call (ofValue?_of_isLiteral literal)] at h ⊢
  simp only [call_eq, inPlace, Run.bind_assoc] at h ⊢
  obtain ⟨k, hk, h, applied⟩ := Passes.recordValue "apply " _ m m (.refl ctx m) _ h
  have passes : Passes ctx m _ _ := passes_each operands (ctx.hold root (applyForm f current args))
  obtain ⟨n, hn, h, evaluated⟩ := passes k hk _ h
  exact ⟨n, hn, h, applied.trans evaluated⟩

/-- The form that `swap!` evaluates comes down to the call of the function in its place and the store of its value. -/
theorem evaluate_swapForm (hreset : m.lookup root "reset!" = some (.builtin .reset))
    (hquote : ∀ g, m.lookup root "quote" = some g → g.expands = false) (hf : f.callable = true)
    {out : Option (Except EvalError Value × Machine)}
    (ho : evaluate ((ctx.holdFrame root).holdValue (swapForm (.atom a) f current args)) root
      (swapForm (.atom a) f current args) m = out)
    (h : ctx.Undisturbed out m) :
    ∃ n, ctx.Alike n m ∧ out =
      Run.bind (inPlace (swapInner ctx root a f current args) (swapOuter ctx root a f current args) f
        (current :: args)) (fun v => builtin (swapHeld ctx root a f current args) .reset [.atom a, v]) n := by
  have noCall : m.macroCall? root (swapForm (.atom a) f current args) = none := by
    refine Machine.macroCall?_eq_none (fun g hg => ?_) _
    cases hreset.symm.trans hg
    rfl
  have noSpecial : SpecialForm.ofValue? (.symbol "reset!") = none := by decide
  subst ho
  rw [evaluate_settled noCall, swapForm, Step.expanded_call noSpecial] at h ⊢
  simp only [call_eq, each_cons, each_nil, Run.bind_assoc, bind_pure_left] at h ⊢
  obtain ⟨m₁, h₁, h, applied⟩ := Passes.recordValue "apply " _ m m (.refl ctx m) _ h
  have passesReset : Passes ctx m _ _ := passes_symbol (c := swapHeld ctx root a f current args) hreset
  obtain ⟨m₂, h₂, h, first⟩ := passesReset m₁ h₁ _ h
  have passesCell : Passes ctx m _ _ :=
    passes_literal (c := (swapHeld ctx root a f current args).holdValue (.builtin .reset)) (v := .atom a) (e := root) rfl
  obtain ⟨m₃, h₃, h, second⟩ := passesCell m₂ h₂ _ h
  obtain ⟨n, hn, -, third⟩ := evaluate_applyForm (swapOuter ctx root a f current args)
    (fun g hg => hquote g (h₃.lookup_eq root "quote" ▸ hg)) hf _ h
  refine ⟨n, hn.trans h₃, applied.trans (first.trans (second.trans (third.trans ?_)))⟩
  simp only [apply_builtin, bind_done]
  rfl

/-- `swap!` comes down to the call of the function in its place and the store of its value. -/
theorem rooted_swap (ha : m.isAlive ctx.held root = true) (hreset : m.lookup root "reset!" = some (.builtin .reset))
    (hquote : ∀ g, m.lookup root "quote" = some g → g.expands = false) (hf : f.callable = true)
    (h : ctx.Undisturbed (rooted evaluate ctx .swap root (.atom a :: f :: args) m) m) :
    ∃ n, ctx.Alike n m ∧ rooted evaluate ctx .swap root (.atom a :: f :: args) m =
      Run.bind (inPlace (swapInner ctx root a f (m.atomValue a) args) (swapOuter ctx root a f (m.atomValue a) args) f
        (m.atomValue a :: args))
        (fun v => builtin (swapHeld ctx root a f (m.atomValue a) args) .reset [.atom a, v]) n := by
  rw [rooted_of_alive (swap_accepts (.atom a) f args) ha] at h ⊢
  obtain ⟨m₁, h₁, h, called⟩ := Passes.recordCall Rooted.swap.name (.atom a :: f :: args) m m (.refl ctx m) _ h
  rw [inRoot_swap hf, h₁.atomValue_eq] at h called
  obtain ⟨m₂, h₂, h, announced⟩ := Passes.recordValue "swap! evaluates " _ m m₁ h₁ _ h
  obtain ⟨n, hn, evaluated⟩ := evaluate_swapForm ((h₂.lookup_eq root "reset!").trans hreset)
    (fun g hg => hquote g (h₂.lookup_eq root "quote" ▸ hg)) hf rfl h
  exact ⟨n, hn.trans h₂, called.trans (announced.trans evaluated)⟩

/-! ## What is held meanwhile -/

/-- Items own no more than what each of them may own. -/
theorem ownedItems_le {xs : List Value} {o : Owned} (h : ∀ x ∈ xs, x.owned.LE o) : (Value.ownedItems xs).LE o := by
  induction xs with
  | nil => exact Owned.none_le o
  | cons x xs ih =>
    exact Owned.union_le (h x List.mem_cons_self) (ih fun y hy => h y (List.mem_cons_of_mem x hy))

theorem owned_quoted_le {o : Owned} (h : v.owned.LE o) : v.quoted.owned.LE o :=
  ownedItems_le fun x hx => by
    rcases List.mem_pair.1 hx with rfl | rfl
    · exact Owned.none_le o
    · exact h

/-- What the function is called with owns no more than what `swap!` is. -/
theorem owned_applyForm_le {o : Owned} (h : ∀ x ∈ current :: f :: args, x.owned.LE o) :
    (applyForm f current args).owned.LE o :=
  ownedItems_le fun x hx => by
    simp only [List.mem_cons, List.mem_map] at hx h
    rcases hx with rfl | rfl | ⟨y, hy, rfl⟩
    · exact h x (.inr (.inl rfl))
    · exact owned_quoted_le (h _ (.inl rfl))
    · exact owned_quoted_le (h y (.inr (.inr hy)))

/-- In place, the function is called with no more held than is held for the parts of a swap. -/
theorem swapInner_le (ctx : Context) (root : FrameId) (a : AtomId) (f current : Value) (args : List Value) :
    (swapInner ctx root a f current args).LE (swapContext ctx root a f current args) := by
  have owned {x : Value} (hx : x ∈ current :: .atom a :: f :: args) :
      x.owned.LE (swapContext ctx root a f current args).held.owned :=
    Holds.le_owned (h := (swapContext ctx root a f current args).held) (List.mem_append_left _ hx)
  have operand : (applyForm f current args).owned.LE (swapContext ctx root a f current args).held.owned :=
    owned_applyForm_le fun x hx => owned (by simp only [List.mem_cons] at hx ⊢; tauto)
  have form : (swapForm (.atom a) f current args).owned.LE (swapContext ctx root a f current args).held.owned :=
    ownedItems_le fun x hx => by
      simp only [List.mem_cons, List.not_mem_nil, or_false] at hx
      rcases hx with rfl | rfl | rfl
      · exact Owned.none_le _
      · exact owned (by simp)
      · exact operand
  have start : (ctx.holdFrame root).LE (swapContext ctx root a f current args) := Context.LE.holdItems_self _ _
  have frame {c : Context} (h : c.LE (swapContext ctx root a f current args)) :
      (c.holdFrame root).LE (swapContext ctx root a f current args) :=
    ⟨h.files, h.recorded, List.cons_subset.2 ⟨List.mem_cons_self, h.held.frames⟩, h.held.values⟩
  have reset : (Value.builtin .reset).owned.LE (swapContext ctx root a f current args).held.owned := Owned.none_le _
  have stored : (swapHeld ctx root a f current args).LE (swapContext ctx root a f current args) :=
    (frame (start.holdValue_of form)).holdValue_of form
  have outer : (swapOuter ctx root a f current args).LE (swapContext ctx root a f current args) :=
    (stored.holdValue_of reset).holdValue_of (owned (by simp))
  exact (frame outer).holdValue_of operand

/-- The call of the function in the form that `swap!` makes holds less than `swap!` does. -/
theorem swapOuter_le (ctx : Context) (root : FrameId) (a : AtomId) (f current : Value) (args : List Value) :
    (swapOuter ctx root a f current args).LE (swapContext ctx root a f current args) :=
  (Context.LE.hold_self _ _ _).trans (swapInner_le ctx root a f current args)

/-- No atom is lost in a call. -/
theorem inPlace_atoms (hr : inPlace inner outer f args m = some (r, m')) : m.atoms.size ≤ m'.atoms.size := by
  have evaluates : ∀ {c c' : Context}, c = c' → ∀ e form,
      Run.Simulated (Run.Ahead fun m m' => m.atoms.size ≤ m'.atoms.size) (evaluate c e form)
        (evaluateUntil (fun _ _ _ => none) 0 c' e form) := by
    rintro c _ rfl e form
    exact onward_atoms.evaluate_ahead _ 0 c e form
  exact (onward_atoms.simulation.bind (onward_atoms.simulation.apply evaluates rfl f args)
    (fun turn => onward_atoms.simulation.next evaluates (fun _ _ => rfl) turn) m (r, m') hr).1

/-! ## What a swap comes to -/

/-- What a swap is in parts: the contents of the atom are read, something is called with them, and what that gives is
put into the atom. -/
def updateCell (call : Value → Run Value) (a : AtomId) : Run Value := do
  let current ← Run.gets fun m => m.atomValue a
  let v ← call current
  Run.modify fun m => m.setAtom a v
  return v

theorem updateCell_eq (call : Value → Run Value) (a : AtomId) (m : Machine) :
    updateCell call a m =
      Run.bind (call (m.atomValue a)) (fun v => Run.bind (Run.modify fun m => m.setAtom a v) fun _ => Run.pure v) m := rfl

/-- What a call leaves behind once its value has been stored; a failure stores nothing. -/
def stored (a : AtomId) (r : Except EvalError Value) (m : Machine) : Machine :=
  match r with
  | .ok v => m.setAtom a v
  | .error _ => m

/-- When the call has come to an end, the update has. -/
theorem updateCell_eq_some (call : Value → Run Value) (h : call (m.atomValue a) m = some (r, n)) :
    updateCell call a m = some (r, stored a r n) := by
  rw [updateCell_eq]
  cases r with
  | error fault => exact Run.bind_error h
  | ok v => exact Run.bind_ok h

/-- An update that has come to an end has read the atom, called and stored. -/
theorem of_updateCell {call : Value → Run Value} (h : updateCell call a m = some (r, m')) :
    ∃ n, call (m.atomValue a) m = some (r, n) ∧ m' = stored a r n := by
  rw [updateCell_eq] at h
  rcases Run.bind_eq_some h with ⟨fault, n, hc, hr⟩ | ⟨v, n, hc, hr⟩
  · cases hr
    exact ⟨_, hc, rfl⟩
  · cases hr
    exact ⟨_, hc, rfl⟩

/-- **Swap, in place.** What `swap!` comes to is what the call of the function in its place comes to for the contents of
the atom and the further arguments, and its value, if it has one, is stored. -/
theorem rooted_swap_inPlace (ha : m.isAlive ctx.held root = true)
    (hreset : m.lookup root "reset!" = some (.builtin .reset))
    (hquote : ∀ g, m.lookup root "quote" = some g → g.expands = false) (hf : f.callable = true)
    (h : rooted evaluate ctx .swap root (.atom a :: f :: args) m = some (r, m')) :
    ∃ n, inPlace (swapInner ctx root a f (m.atomValue a) args) (swapOuter ctx root a f (m.atomValue a) args) f
        (m.atomValue a :: args) m = some (r, n) ∧ ctx.Alike m' (stored a r n) := by
  obtain ⟨k, hk, same⟩ := rooted_swap ha hreset hquote hf (.inl (by rw [h]; simp))
  rw [same] at h
  rcases Run.bind_eq_some h with ⟨fault, k', called, hr⟩ | ⟨v, k', called, store⟩
  · cases hr
    obtain ⟨n, hn, hn'⟩ := inPlace_alike called hk.symm
    exact ⟨n, hn, hn'.symm⟩
  · have ended : ∀ k, Undisturbed (swapHeld ctx root a f (m.atomValue a) args)
        (builtin (swapHeld ctx root a f (m.atomValue a) args) .reset [.atom a, v] k') k := fun k =>
      .inl (by rw [store]; simp)
    obtain ⟨k'', hv, hk''⟩ := builtin_reset _ (ended _) (ended _)
    cases hv.symm.trans store
    obtain ⟨n, hn, hn'⟩ := inPlace_alike called hk.symm
    exact ⟨n, hn, Context.Alike.trans hk'' (hn'.symm.setAtom a v)⟩

/-- The other way round, `swap!` comes to an outcome wherever the call in its place does, if the prints of its trace
records end. -/
theorem rooted_swap_of_inPlace (ha : m.isAlive ctx.held root = true)
    (hreset : m.lookup root "reset!" = some (.builtin .reset))
    (hquote : ∀ g, m.lookup root "quote" = some g → g.expands = false) (hf : f.callable = true)
    (h : inPlace (swapInner ctx root a f (m.atomValue a) args) (swapOuter ctx root a f (m.atomValue a) args) f
        (m.atomValue a :: args) m = some (r, n))
    (hp : ctx.records .trace = true → m.Prints)
    (hs : ctx.records .trace = true → ∀ v, r = .ok v → n.Prints ∧ (n.setAtom a v).Prints) :
    ∃ m', rooted evaluate ctx .swap root (.atom a :: f :: args) m = some (r, m') ∧ ctx.Alike m' (stored a r n) := by
  obtain ⟨k, hk, same⟩ := rooted_swap ha hreset hquote hf (.inr hp)
  obtain ⟨k', called, hk'⟩ := inPlace_alike h hk
  rw [same]
  cases r with
  | error fault => exact ⟨k', Run.bind_error called, hk'⟩
  | ok v =>
    have stores := hk'.setAtom a v
    obtain ⟨m', hm', alike⟩ := builtin_reset (swapHeld ctx root a f (m.atomValue a) args) (a := a) (v := v) (m := k')
      (.inr fun ht => hk'.prints (hs ht v rfl).1) (.inr fun ht => stores.prints (hs ht v rfl).2)
    exact ⟨m', (Run.bind_ok called).trans hm', Context.Alike.trans alike stores⟩

/-- The machine after a swap has the value of the swap in the atom. -/
theorem atomValue_stored (v : Value) (h : a < n.atoms.size) : (stored a (.ok v) n).atomValue a = v := by
  simp [stored, Machine.setAtom, Machine.atomValue, h]

end Call

open Call

/-- **A swap reads, applies and stores.** For every callable value and all arguments, `swap!` comes to what its parts
come to: the contents of the atom are read, the function is applied to them and the arguments, and its value is stored
and returned; and the other way round. This is so up to trace records, and unless the swap found a root to be gone. The
outcome is always that of the call of the function in the place of a form: a failure is returned as it is and leaves the
atoms as the call left them, and a value is what the atom holds in the end, whatever the call did to the atom. -/
theorem swap_reads_applies_and_stores {ctx : Context} {root : FrameId} {a : AtomId} {f : Value} {args : List Value}
    {m : Machine} (ha : m.isAlive ctx.held root = true) (hreset : m.lookup root "reset!" = some (.builtin .reset))
    (hquote : ∀ g, m.lookup root "quote" = some g → g.expands = false) (hf : f.callable = true) :
    (∀ r m', rooted evaluate ctx .swap root (.atom a :: f :: args) m = some (r, m') →
      IsDetached r ∨ ∃ n, updateCell (fun current =>
        finish evaluate (swapContext ctx root a f current args) f (current :: args)) a m = some (r, n) ∧
          ctx.Alike m' n) ∧
    (∀ r n, updateCell (fun current =>
        finish evaluate (swapContext ctx root a f current args) f (current :: args)) a m = some (r, n) →
      (ctx.records .trace = true → m.Prints ∧ n.Prints ∧ ∀ called,
        finish evaluate (swapContext ctx root a f (m.atomValue a) args) f (m.atomValue a :: args) m = some called →
          called.2.Prints) →
      ∃ r' m', rooted evaluate ctx .swap root (.atom a :: f :: args) m = some (r', m') ∧
        (IsDetached r' ∨ r' = r ∧ ctx.Alike m' n)) ∧
    (∀ r m', rooted evaluate ctx .swap root (.atom a :: f :: args) m = some (r, m') →
      ∃ n, inPlace (swapInner ctx root a f (m.atomValue a) args) (swapOuter ctx root a f (m.atomValue a) args) f
          (m.atomValue a :: args) m = some (r, n) ∧
        (∀ fault, r = .error fault → m'.atoms = n.atoms) ∧
        ∀ v, r = .ok v → m'.atoms = n.atoms.setIfInBounds a v ∧ (a < m.atoms.size → m'.atomValue a = v)) := by
  refine ⟨fun r m' h => ?_, fun r n h hp => ?_, fun r m' h => ?_⟩
  · obtain ⟨n, hn, alike⟩ := rooted_swap_inPlace ha hreset hquote hf h
    refine (inPlace_finish (swapInner_le ..) (swapOuter_le ..) hn).imp id fun called => ?_
    exact ⟨stored a r n, updateCell_eq_some _ called, alike⟩
  · obtain ⟨k, called, rfl⟩ := of_updateCell h
    rcases finish_inPlace (swapInner_le ..) (swapOuter_le ..) called with hk | ⟨⟨_, k'⟩, hk, name, rfl⟩
    · obtain ⟨m', hm', alike⟩ := rooted_swap_of_inPlace ha hreset hquote hf hk (fun ht => (hp ht).1)
        fun ht v hr => by subst hr; exact ⟨(hp ht).2.2 _ called, (hp ht).2.1⟩
      exact ⟨r, m', hm', .inr ⟨rfl, alike⟩⟩
    · obtain ⟨m', hm', -⟩ := rooted_swap_of_inPlace ha hreset hquote hf hk (fun ht => (hp ht).1)
        fun _ v hr => nomatch hr
      exact ⟨_, m', hm', .inl ⟨name, rfl⟩⟩
  · obtain ⟨n, hn, alike⟩ := rooted_swap_inPlace ha hreset hquote hf h
    have atoms : m'.atoms = (stored a r n).atoms := by rw [alike.eq_withRecords]; rfl
    refine ⟨n, hn, fun fault hr => by subst hr; exact atoms, fun v hr => ?_⟩
    subst hr
    refine ⟨atoms, fun hlt => ?_⟩
    rw [alike.atomValue_eq, atomValue_stored v (Nat.lt_of_lt_of_le hlt (inPlace_atoms hn))]

/-- A root with an atom that holds 1. -/
def oneCell : Machine := ⟨#[⟨[("reset!", .builtin .reset)], none⟩], #[.int 1], 0, "", #[]⟩

theorem swap_reads_applies_and_stores_sum :
    ∃ m', rooted evaluate firstHeld .swap 0 [.atom 0, .builtin .add, .int 2] oneCell = some (.ok (.int 3), m') ∧
      m'.atomValue 0 = .int 3 := by
  obtain ⟨-, parts, inPlace⟩ := @swap_reads_applies_and_stores firstHeld 0 0 (.builtin .add) [.int 2] oneCell
    (by decide) rfl (fun g hg => nomatch hg) rfl
  obtain ⟨r, m', h, -⟩ := parts (.ok (.int 3)) (oneCell.setAtom 0 (.int 3)) rfl fun ht => nomatch ht
  obtain ⟨n, called, -, value⟩ := inPlace r m' h
  cases called.symm.trans (show _ = some (.ok (.int 3), oneCell) from rfl)
  exact ⟨m', h, (value _ rfl).2 (by decide)⟩

/-- A closure of one parameter that does what the mover does. -/
def swapMover : Value :=
  .closure 2 ⟨["x"], none⟩
    (.list [.symbol "do", .list [.symbol "def!", .symbol "y", .list [.symbol "deref", .symbol "a"]],
      .list [.symbol "reset!", .symbol "a", .nil], .list [.symbol "g"]]) 0 false

/-- The two roots, with a second atom to be swapped. -/
def swapRoots : Machine := { twoRoots with atoms := #[keeper, .nil] }

/-- A swap need not come to what its parts come to: the function is called in the place of a form, and lets go of what
its frame owns before it evaluates the last form of its body. -/
theorem swap_may_lose_a_root :
    ¬ ∀ (ctx : Context) (root : FrameId) (a : AtomId) (f : Value) (args : List Value) (m : Machine),
      m.isAlive ctx.held root = true → m.lookup root "reset!" = some (.builtin .reset) →
      (∀ g, m.lookup root "quote" = some g → g.expands = false) → f.callable = true →
      ∀ r n, updateCell (fun current =>
          finish evaluate (swapContext ctx root a f current args) f (current :: args)) a m = some (r, n) →
        ∃ m', rooted evaluate ctx .swap root (.atom a :: f :: args) m = some (r, m') := by
  intro same
  have called : int? (finish (evalWithin 8) (swapContext firstHeld 0 1 swapMover .nil []) swapMover [.nil] swapRoots) =
      some 7 := by decide +kernel
  obtain ⟨n, hn⟩ := eq_of_int? called
  have seven := simulation_le.finish (evalWithin_le 8) rfl swapMover [.nil] swapRoots _ hn
  have swapped : gone? (rooted (evalWithin 12) firstHeld .swap 0 [.atom 1, swapMover] swapRoots) = some "eval" := by
    decide +kernel
  obtain ⟨k, hk⟩ := eq_of_gone? swapped
  have gone := simulation_le.rooted (evalWithin_le 12) rfl .swap 0 [.atom 1, swapMover] swapRoots _ hk
  obtain ⟨m', hm'⟩ := same firstHeld 0 1 swapMover [] swapRoots (by decide) rfl (fun g hg => nomatch hg) rfl _ _
    (updateCell_eq_some (fun current =>
      finish evaluate (swapContext firstHeld 0 1 swapMover current []) swapMover [current]) seven)
  cases gone.symm.trans hm'

end MiniLisp
