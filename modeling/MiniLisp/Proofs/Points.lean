import MiniLisp.Eval.Evaluate

/-!
# The points of a run

A run may be looked at before it is over, and it need not come to an end at all. It is broken off before the first form
that it is told to stop at, and the machine that is left then is the machine at that point. Of two points of a run, the
later one is where the run is broken off if it may stop at fewer forms.

* `evaluateUntil`: evaluation that is broken off.
* `Onward`: an order that every operation of evaluation goes along with.
* `Onward.points`, `Onward.point_end`: a run goes along with such an order from point to point.
-/

namespace MiniLisp

/-- Which forms are not to be evaluated any more, where, on which machine, and with which failure instead. -/
abbrev Stop := FrameId → Value → Machine → Option EvalError

/-- Whether a run that may stop at some forms comes at least as far as one that may stop at others. -/
def Stop.Later (stop later : Stop) : Prop := ∀ e form m, stop e form m = none → later e form m = none

/-- Evaluation that is broken off before the first form to stop at, within a bound. -/
def evaluateUntil (stop : Stop) : Nat → Evaluator
  | 0, _, _, _ => fun _ => none
  | bound + 1, ctx, e, form => fun m =>
    match stop e form m with
    | some fault => some (.error fault, m)
    | none => advance (evaluateUntil stop bound) ctx e form m

/-- The machine at the point of a run at which it is broken off. -/
def PointOf (ctx : Context) (e : FrameId) (form : Value) (m : Machine) (stop : Stop) (n : Machine) : Prop :=
  ∃ bound r, evaluateUntil stop bound ctx e form m = some (r, n)

/-- Evaluation that never stops before its end is evaluation. -/
theorem evaluateUntil_never (bound : Nat) : evaluateUntil (fun _ _ _ => none) bound = evalWithin bound := by
  induction bound with
  | zero => rfl
  | succ bound ih =>
    funext ctx e form
    rw [evalWithin, ← ih]
    rfl

/-- An order of machines that every operation of evaluation goes along with. -/
structure Onward (R : Machine → Machine → Prop) : Prop where
  refl (m : Machine) : R m m
  trans {m n k : Machine} (h : R m n) (h' : R n k) : R m k
  addFrame (m : Machine) (bs : Bindings) (outer : Option FrameId) : R m (m.addFrame bs outer).2
  newClosure (m : Machine) : R m m.newClosure.2
  bindName (m : Machine) (e : FrameId) (name : String) (v : Value) : R m (m.bind e name v)
  record {ctx : Context} {level : Level} {message : Message} {m : Machine} {r : Except EvalError Unit × Machine}
    (h : Run.record ctx level message m = some r) : R m r.2
  builtin {ctx : Context} {b : Builtin} {args : List Value} {m : Machine} {r : Except EvalError Value × Machine}
    (h : Call.builtin ctx b args m = some r) : R m r.2

namespace Run

variable {R : Machine → Machine → Prop} {α β : Type}

/-- An outcome that lies ahead of the start, and that the other run has as well unless it fails before. -/
abbrev Ahead (R : Machine → Machine → Prop) (α : Type) (m : Machine) (r : Except EvalError α × Machine)
    (y : Run α) : Prop :=
  R m r.2 ∧ ∀ r', y m = some r' → r' = r ∨ (∃ fault, r'.1 = .error fault) ∧ R r'.2 r.2

theorem ahead_refl {x : Run α} (h : ∀ m r, x m = some r → R m r.2) : Simulated (Ahead R) x x := by
  intro m r hr
  refine ⟨h m r hr, fun r' hr' => .inl ?_⟩
  exact Option.some.inj (hr'.symm.trans hr)

theorem ahead_bind (o : Onward R) {x y : Run α} {f g : α → Run β} (h : Simulated (Ahead R) x y)
    (hf : ∀ a, Simulated (Ahead R) (f a) (g a)) : Simulated (Ahead R) (Run.bind x f) (Run.bind y g) := by
  intro m r hr
  rcases bind_eq_some hr with ⟨fault, m₁, hx, rfl⟩ | ⟨a, m₁, hx, hr⟩
  -- the other run cannot get past a failure of this one
  · obtain ⟨start, other⟩ := h m _ hx
    refine ⟨start, fun r' hr' => ?_⟩
    rcases bind_eq_some hr' with ⟨fault', n, hy, rfl⟩ | ⟨b, n, hy, -⟩
    · rcases other _ hy with same | ⟨-, ahead⟩
      · cases same
        exact .inl rfl
      · exact .inr ⟨⟨fault', rfl⟩, ahead⟩
    · rcases other _ hy with same | ⟨⟨fault', failed⟩, -⟩
      · cases same
      · cases failed
  -- the other run fails in its first part, or comes to the second part on the same machine
  · obtain ⟨start, other⟩ := h m _ hx
    obtain ⟨onward, rest⟩ := hf a m₁ r hr
    refine ⟨o.trans start onward, fun r' hr' => ?_⟩
    rcases bind_eq_some hr' with ⟨fault', n, hy, rfl⟩ | ⟨b, n, hy, hr'⟩
    · rcases other _ hy with same | ⟨-, ahead⟩
      · cases same
      · exact .inr ⟨⟨fault', rfl⟩, o.trans ahead onward⟩
    · rcases other _ hy with same | ⟨⟨fault', failed⟩, -⟩
      · cases same
        exact rest r' hr'
      · cases failed

end Run

namespace Onward

variable {R : Machine → Machine → Prop} {ctx : Context} {e : FrameId} {form : Value} {m : Machine}
  {r r' : Except EvalError Value × Machine} {stop later : Stop}

theorem simulation (o : Onward R) : Simulation (Run.Ahead R) Eq where
  pure _ := Run.ahead_refl fun m r hr => by cases hr; exact o.refl m
  fail _ := Run.ahead_refl fun m r hr => by cases hr; exact o.refl m
  bind := Run.ahead_bind o
  macroCall _ _ := Run.ahead_refl fun m r hr => by cases hr; exact o.refl m
  lookup _ _ := Run.ahead_refl fun m r hr => by cases hr; exact o.refl m
  atomValue _ := Run.ahead_refl fun m r hr => by cases hr; exact o.refl m
  addFrame bs outer := Run.ahead_refl fun m r hr => by cases hr; exact o.addFrame m bs outer
  newClosure := Run.ahead_refl fun m r hr => by cases hr; exact o.newClosure m
  bindName e name v := Run.ahead_refl fun m r hr => by cases hr; exact o.bindName m e name v
  record h _ _ := h ▸ Run.ahead_refl fun _ _ hr => o.record hr
  builtin h _ _ := h ▸ Run.ahead_refl fun _ _ hr => o.builtin hr
  alive {ctx ctx'} _ _ _ h root name hx := by
    subst h
    refine Run.ahead_bind o (Run.ahead_refl fun m r hr => by cases hr; exact o.refl m) fun a => ?_
    cases a with
    | false => exact Run.ahead_refl fun m r hr => by cases hr; exact o.refl m
    | true => exact hx
  holdFrame h _ := by rw [h]
  holdItems h _ := by rw [h]

/-- A step of a run, beside what is left of it when it is broken off before. -/
theorem advance_until (o : Onward R) {recur : Evaluator}
    (hrec : ∀ bound ctx e form, Run.Simulated (Run.Ahead R) (recur ctx e form) (evaluateUntil stop bound ctx e form))
    (bound : Nat) (hr : advance recur ctx e form m = some r) :
    Run.Ahead R Value m r (evaluateUntil stop bound ctx e form) := by
  have ahead (bound : Nat) : Run.Ahead R Value m r (advance (evaluateUntil stop bound) ctx e form) :=
    o.simulation.advance (fun h e form => h ▸ hrec bound _ e form) rfl e form m r hr
  refine ⟨(ahead 0).1, fun r' hr' => ?_⟩
  cases bound with
  | zero => cases hr'
  | succ bound =>
    unfold MiniLisp.evaluateUntil at hr'
    split at hr'
    -- a run that stops at once is left at the start
    · next fault _ =>
      cases hr'
      exact .inr ⟨⟨fault, rfl⟩, (ahead 0).1⟩
    · exact (ahead bound).2 r' hr'

theorem evaluate_ahead (o : Onward R) (stop : Stop) (bound : Nat) (ctx : Context) (e : FrameId) (form : Value) :
    Run.Simulated (Run.Ahead R) (evaluate ctx e form) (evaluateUntil stop bound ctx e form) := by
  intro m r hr
  have all : ∀ bound, Run.Ahead R Value m r (evaluateUntil stop bound ctx e form) := by
    refine evaluate_induction (P := fun ctx e form m r =>
      ∀ bound, Run.Ahead R Value m r (evaluateUntil stop bound ctx e form)) ?_ hr
    intro recur ih ctx e form m r hr bound
    exact o.advance_until (fun bound ctx e form m r hr => ih ctx e form m r hr bound) bound hr
  exact all bound

theorem later_ahead (o : Onward R) (h : stop.Later later) (n bound : Nat) (ctx : Context) (e : FrameId)
    (form : Value) :
    Run.Simulated (Run.Ahead R) (evaluateUntil later n ctx e form) (evaluateUntil stop bound ctx e form) := by
  induction n generalizing bound ctx e form with
  | zero => intro m r hr; cases hr
  | succ n ih =>
    intro m r hr
    unfold MiniLisp.evaluateUntil at hr
    split at hr
    · next fault hl =>
      cases hr
      refine ⟨o.refl m, fun r' hr' => ?_⟩
      cases bound with
      | zero => cases hr'
      | succ bound =>
        unfold MiniLisp.evaluateUntil at hr'
        cases hs : stop e form m with
        | none => rw [h e form m hs] at hl; cases hl
        | some fault' =>
          rw [hs] at hr'
          cases hr'
          exact .inr ⟨⟨fault', rfl⟩, o.refl m⟩
    · exact o.advance_until (fun bound ctx e form => ih bound ctx e form) bound hr

theorem of_ahead (o : Onward R) {x y : Run Value} (h : Run.Simulated (Run.Ahead R) x y) (hx : x m = some r')
    (hy : y m = some r) : R r.2 r'.2 := by
  rcases (h m r' hx).2 r hy with rfl | ⟨-, ahead⟩
  · exact o.refl _
  · exact ahead

variable {n n' : Machine}

/-- A run goes from its start to each of its points, and from there to every later one. -/
theorem points (o : Onward R) (h : stop.Later later) (hn : PointOf ctx e form m stop n)
    (hn' : PointOf ctx e form m later n') : R m n ∧ R n n' := by
  obtain ⟨bound, r, hr⟩ := hn
  obtain ⟨bound', r', hr'⟩ := hn'
  exact ⟨(o.later_ahead (fun _ _ _ h => h) bound bound ctx e form m _ hr).1,
    o.of_ahead (o.later_ahead h bound' bound ctx e form) hr' hr⟩

/-- A run goes from each of its points to its end. -/
theorem point_end (o : Onward R) (hn : PointOf ctx e form m stop n) (h : evaluate ctx e form m = some r) : R n r.2 := by
  obtain ⟨bound, r', hr'⟩ := hn
  exact o.of_ahead (o.evaluate_ahead stop bound ctx e form) h hr'

end Onward

end MiniLisp
