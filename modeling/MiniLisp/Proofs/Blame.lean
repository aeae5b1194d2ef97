import Mathlib
import MiniLisp.Proofs.Inner

/-!
# Which builtin is to blame

Ordinary builtins alone touch atoms. So what depends on nothing but the atoms, and is so at the start of an evaluation
but not later on, has been made an end of by the call of such a builtin: at the end of the evaluation, or where one
inside sets out.

* `Innocent`: a run that makes an end of such a thing only by an evaluation that it comes to.
* `Start.Breaks`: a call of an ordinary builtin, in the course of an evaluation, that makes an end of something.
* `Start.breaks_of_evaluate`, `Start.breaks_of_inside`: what is no longer so has been made an end of by such a call.
-/

namespace MiniLisp

/-! ## What is a matter of atoms -/

/-- Whether a run leaves the atoms alone. -/
def Run.KeepsAtoms {α : Type} (x : Run α) : Prop := OffFrames.Along (fun m n => n.atoms = m.atoms) x

namespace Run.KeepsAtoms

variable {α β : Type}

theorem ofExcept (x : Except EvalError α) : KeepsAtoms (Run.ofExcept x) := by
  intro m r hr
  cases hr
  rfl

/-- A run in two parts keeps the atoms when both parts do. -/
theorem bind {x : Run α} {f : α → Run β} (h : KeepsAtoms x) (hf : ∀ a, KeepsAtoms (f a)) :
    KeepsAtoms (Run.bind x f) := by
  intro m r hr
  rcases Run.bind_eq_some hr with ⟨fault, n, hx, rfl⟩ | ⟨a, n, hx, hr⟩
  · exact h m _ hx
  · exact (hf a n r hr).trans (h m _ hx)

theorem gets? (f : Machine → Option α) : KeepsAtoms (Run.gets? f) := by
  intro m r hr
  obtain ⟨a, -, rfl⟩ := Run.gets?_eq_some hr
  rfl

theorem record (ctx : Context) (level : Level) (message : Message) : KeepsAtoms (Run.record ctx level message) := by
  unfold Run.record
  split
  · refine (gets? _).bind fun t m r hr => ?_
    cases hr
    rfl
  · exact ofExcept (.ok ())

theorem checkCount (name : String) (arity : Arity) (args : List Value) :
    KeepsAtoms (Call.checkCount name arity args) := by
  unfold Call.checkCount
  split
  · exact ofExcept (.ok ())
  · exact ofExcept (.error _)

theorem enter (params : Params) (captured : FrameId) (args : List Value) :
    KeepsAtoms (Call.enter params captured args) :=
  (checkCount _ _ _).bind fun _ m r hr => by cases hr; rfl

theorem bindSymbol (e : FrameId) (target v : Value) : KeepsAtoms (Step.bindSymbol e target v) := by
  unfold Step.bindSymbol
  split
  · intro m r hr
    cases hr
    rfl
  · exact ofExcept (.error _)

theorem bindFor (ctx : Context) (e : FrameId) (form : SpecialForm) (target v : Value) :
    KeepsAtoms (Step.bindFor ctx e form target v) :=
  (bindSymbol e target v).bind fun _ => (record ctx _ _).bind fun _ => ofExcept (.ok v)

theorem newClosure : KeepsAtoms (Run.change Machine.newClosure) := by
  intro m r hr
  cases hr
  rfl

theorem valueFor (form : SpecialForm) (v : Value) : KeepsAtoms (Step.valueFor form v) := by
  unfold Step.valueFor Step.asMacro
  split
  · split
    · exact newClosure.bind fun _ => ofExcept (.ok _)
    · exact ofExcept (.error _)
  · exact ofExcept (.ok v)

theorem function (e : FrameId) (parameters body : Value) : KeepsAtoms (Step.function e parameters body) := by
  unfold Step.function
  split
  · exact ofExcept (.error _)
  · exact newClosure.bind fun _ => ofExcept (.ok _)

end Run.KeepsAtoms

/-- No macro is an ordinary builtin. -/
theorem Machine.macroCall?_ne_builtin {m : Machine} {e : FrameId} {form : Value} {call : Value × List Value}
    (h : m.macroCall? e form = some call) (b : Builtin) : call.1 ≠ .builtin b := by
  intro hb
  obtain ⟨f, operands⟩ := call
  obtain ⟨name, -, -, expands⟩ := macroCall?_eq_some h
  cases hb
  cases expands

/-- What is so or not depending on nothing but the atoms. -/
def OfAtoms (P : Machine → Prop) : Prop := ∀ {m n : Machine}, n.atoms = m.atoms → P m → P n

/-! ## Who is to blame -/

section Blame

variable {P : Machine → Prop} {α β : Type}

/-- A run comes to an evaluation that makes an end of something. -/
def Run.Blames (P : Machine → Prop) (x : Evaluator → Run α) (recur : Evaluator) (m : Machine) : Prop :=
  ∃ p r, Run.Visits x recur m p ∧ p.run recur = some r ∧ P p.machine ∧ ¬P r.2

/-- What a run makes an end of, an evaluation that it comes to makes an end of. How far the run gets depends on the
evaluations that it comes to. -/
structure Innocent (P : Machine → Prop) (x : Evaluator → Run α) : Prop where
  halts (recur : Evaluator) (p : Start) (halt : Halt) :
    Run.Simulated (Run.SaveFor ∅ {halt}) (x recur) (x (recur.haltAt p halt))
  blames {recur : Evaluator} {m : Machine} {r : Except EvalError α × Machine} (hr : x recur m = some r) (hm : P m)
    (hn : ¬P r.2) : Run.Blames P x recur m

namespace Run.Blames

variable {x : Evaluator → Run α} {f : α → Evaluator → Run β} {recur : Evaluator} {m n : Machine} {a : α}

/-- A run whose first part is to blame is to blame. -/
theorem bind (h : Run.Blames P x recur m) : Run.Blames P (fun recur => Run.bind (x recur) (f · recur)) recur m := by
  obtain ⟨p, r, visits, hr⟩ := h
  exact ⟨p, r, fun halt => Run.bind_error (visits halt), hr⟩

/-- Where the first part is innocent and has ended, the second part is to blame. -/
theorem bind_right (hx : Innocent P x) (hr : x recur m = some (.ok a, n)) (h : Run.Blames P (f a) recur n) :
    Run.Blames P (fun recur => Run.bind (x recur) (f · recur)) recur m := by
  obtain ⟨p, r, visits, hp⟩ := h
  refine ⟨p, r, fun halt => ?_, hp⟩
  rcases hx.halts recur p halt m _ hr with same | ⟨_, ⟨⟩, -⟩ | ⟨_, rfl, same⟩
  · exact (Run.bind_ok same).trans (visits halt)
  · exact Run.bind_error same

end Run.Blames

namespace Innocent

variable {x : Evaluator → Run α} {f : α → Evaluator → Run β}

/-- A run that hands everything on to an evaluation may blame that evaluation. -/
theorem recur (c : Context) (e : FrameId) (form : Value) : Innocent P fun recur => recur c e form where
  halts recur p halt := (halts_haltAt recur p halt).forward c e form
  blames {_ m r} hr hm hn := ⟨⟨c, e, form, m⟩, r, fun _ => haltAt_self, hr, hm, hn⟩

/-- Who keeps the atoms breaks nothing that depends on the atoms alone. -/
theorem of_keepsAtoms (hP : OfAtoms P) {x : Run α} (h : x.KeepsAtoms) : Innocent P fun _ => x where
  halts _ _ _ := Run.saveFor_refl _ _ _
  blames hr hm hn := absurd (hP (h _ _ hr) hm) hn

/-- The second part of a run in two parts starts with what was so at the start, unless the first part is to blame. -/
theorem bind_or {X : Prop} (hx : Innocent P x) {recur : Evaluator} {m : Machine} {r : Except EvalError β × Machine}
    (hm : P m) (hn : ¬P r.2)
    (hf : ∀ a n, x recur m = some (.ok a, n) → P n → f a recur n = some r → Run.Blames P (f a) recur n ∨ X)
    (hr : Run.bind (x recur) (f · recur) m = some r) :
    Run.Blames P (fun recur => Run.bind (x recur) (f · recur)) recur m ∨ X := by
  rcases Run.bind_eq_some hr with ⟨fault, n, first, rfl⟩ | ⟨a, n, first, second⟩
  · exact .inl (hx.blames first hm hn).bind
  · by_cases there : P n
    · exact (hf a n first there second).imp_left (.bind_right hx first)
    · exact .inl (hx.blames first hm there).bind

/-- A run in two innocent parts is innocent. -/
theorem bind (hx : Innocent P x) (hf : ∀ a, Innocent P (f a)) :
    Innocent P fun recur => Run.bind (x recur) (f · recur) where
  halts recur p halt := Run.saveFor_bind (hx.halts recur p halt) fun a => (hf a).halts recur p halt
  blames hr hm hn :=
    (hx.bind_or hm hn (fun a _ _ there second => .inl ((hf a).blames second there hn)) hr).resolve_right id

/-- What follows on a look at the machine may depend on what there is to be seen. -/
theorem bind_gets {f : α → Evaluator → Run β} {g : Machine → α} (hf : ∀ m, Innocent P (f (g m))) :
    Innocent P fun recur => Run.bind (Run.gets g) (f · recur) where
  halts recur p halt m := (hf m).halts recur p halt m
  blames hr hm hn := (hf _).blames hr hm hn

section Steps

variable (hP : OfAtoms P) (ctx : Context) (e : FrameId)
include hP

theorem ofExcept (x : Except EvalError α) : Innocent P fun _ => Run.ofExcept x := .of_keepsAtoms hP (.ofExcept x)

theorem pure (a : α) : Innocent P fun _ => Run.pure a := ofExcept hP (.ok a)

theorem fail (fault : EvalError) : Innocent P fun _ => (Run.fail fault : Run α) := ofExcept hP (.error fault)

theorem record (level : Level) (message : Message) : Innocent P fun _ => Run.record ctx level message :=
  .of_keepsAtoms hP (.record ctx level message)

theorem change {g : Machine → α × Machine} (h : ∀ m, (g m).2.atoms = m.atoms) : Innocent P fun _ => Run.change g :=
  .of_keepsAtoms hP fun m r hr => by cases hr; exact h m

/-! ### Calls -/

/-- `swap!` evaluates a form, and that evaluation writes the atom; `inRoot` itself writes nothing. -/
theorem inRoot (root : FrameId) (b : Rooted) (args : List Value) :
    Innocent P fun recur => Call.inRoot recur ctx root b args := by
  unfold Call.inRoot
  split
  · exact (record hP _ _ _).bind fun _ => .recur _ _ _
  · refine (ofExcept hP _).bind fun a => ?_
    split
    · exact .bind_gets fun _ => (record hP _ _ _).bind fun _ => .recur _ _ _
    · exact fail hP _
  · exact fail hP _

theorem rooted (b : Rooted) (root : FrameId) (args : List Value) :
    Innocent P fun recur => Call.rooted recur ctx b root args := by
  refine (of_keepsAtoms hP (.checkCount _ _ _)).bind fun _ => .bind_gets fun m => ?_
  cases m.isAlive ctx.held root with
  | true => exact (record hP _ _ _).bind fun _ => inRoot hP _ _ _ _
  | false => exact fail hP _

/-- The call of what is no ordinary builtin. -/
theorem apply {f : Value} (hf : ∀ b, f ≠ .builtin b) (args : List Value) :
    Innocent P fun recur => Call.apply recur ctx f args := by
  unfold Call.apply
  split
  · next b => exact absurd rfl (hf b)
  · exact (rooted hP _ _ _ _).bind fun _ => pure hP _
  · refine (record hP _ _ _).bind fun _ => ?_
    exact (of_keepsAtoms hP (.enter _ _ _)).bind fun _ => pure hP _
  · exact fail hP _

theorem next (after : FrameId → Value → Context) (turn : Turn) :
    Innocent P fun recur => Turn.next recur after turn := by
  cases turn with
  | done v => exact pure hP v
  | again e form => exact .recur _ _ _

/-- No macro is an ordinary builtin. -/
theorem expandWithin (n : Nat) (form : Value) : Innocent P fun recur => MiniLisp.expandWithin recur ctx e n form := by
  induction n generalizing form with
  | zero =>
    unfold MiniLisp.expandWithin
    refine .bind_gets fun m => ?_
    cases m.macroCall? e form with
    | none => exact pure hP form
    | some _ => exact fail hP _
  | succ n ih =>
    unfold MiniLisp.expandWithin
    refine .bind_gets fun m => ?_
    cases hc : m.macroCall? e form with
    | none => exact pure hP form
    | some call =>
      have isMacro : ∀ b, call.1 ≠ .builtin b := Machine.macroCall?_ne_builtin hc
      refine ((apply hP _ isMacro _).bind fun turn => next hP _ turn).bind fun form' => ?_
      exact (record hP _ _ _).bind fun _ => ih form'

theorem expand (form : Value) : Innocent P fun recur => MiniLisp.expand recur ctx e form := expandWithin hP _ _ _ _

/-! ### Special forms and steps -/

/-- Elements are evaluations, one after the other. -/
theorem each (xs : List Value) : Innocent P fun recur => Step.each recur ctx e xs := by
  induction xs generalizing ctx with
  | nil => exact pure hP []
  | cons x xs ih => exact (recur _ _ _).bind fun v => (ih _).bind fun vs => pure hP _

theorem eachEntry (es : Entries) : Innocent P fun recur => Step.eachEntry recur ctx e es := by
  induction es generalizing ctx with
  | nil => exact pure hP []
  | cons entry es ih => exact (recur _ _ _).bind fun v => (ih _).bind fun vs => pure hP _

theorem define (form : SpecialForm) (target expr : Value) :
    Innocent P fun recur => Step.define recur ctx e form target expr :=
  (recur _ _ _).bind fun v => (of_keepsAtoms hP (.valueFor form v)).bind fun _ => of_keepsAtoms hP (.bindFor _ _ _ _ _)

/-- So are the expressions that `let*` binds. -/
theorem bindEach (items : List Value) : Innocent P fun recur => Step.bindEach recur ctx e items := by
  match items with
  | target :: expr :: rest =>
    exact (recur _ _ _).bind fun v => (of_keepsAtoms hP (.bindSymbol e target v)).bind fun _ => bindEach rest
  | [] => exact pure hP ()
  | [_] => exact pure hP ()

theorem bindLocally (bindings body : Value) : Innocent P fun recur => Step.bindLocally recur ctx e bindings body := by
  refine (ofExcept hP _).bind fun items => (change hP fun _ => rfl).bind fun child => ?_
  exact (bindEach hP _ _ items).bind fun _ => pure hP _

theorem sequence (operands : List Value) : Innocent P fun recur => Step.sequence recur ctx e operands := by
  match operands with
  | [] => exact pure hP _
  | [last] => exact pure hP _
  | x :: y :: rest => exact (recur _ _ _).bind fun _ => sequence (y :: rest)

theorem choose (condition consequent alternative : Value) :
    Innocent P fun recur => Step.choose recur ctx e condition consequent alternative :=
  (recur _ _ _).bind fun _ => pure hP _

/-- No special form writes an atom by itself. -/
theorem special (form : SpecialForm) (operands : List Value) :
    Innocent P fun recur => Step.special recur ctx e form operands := by
  cases form, operands using SpecialForm.cases_operands with
  | define target expr => exact (define hP _ _ .define target expr).bind fun _ => pure hP _
  | defineMacro target expr => exact (define hP _ _ .defineMacro target expr).bind fun _ => pure hP _
  | bindLocally bindings body => exact bindLocally hP _ _ bindings body
  | sequence operands => exact sequence hP _ _ operands
  | choose condition consequent => exact choose hP _ _ condition consequent .nil
  | chooseElse condition consequent alternative => exact choose hP _ _ condition consequent alternative
  | function parameters body => exact (of_keepsAtoms hP (.function _ parameters body)).bind fun _ => pure hP _
  | quote => exact pure hP _
  | showTemplate v => exact (ofExcept hP (Step.template v)).bind fun _ => pure hP _
  | template v => exact (ofExcept hP (Step.template v)).bind fun _ => pure hP _
  | showExpansion form => exact (expand hP _ _ form).bind fun _ => pure hP _
  | badCount form operands bad =>
    simp only [Step.special_of_badCount _ _ _ bad]
    exact fail hP _

/-- Nor does a form that is no list. -/
theorem plain (form : Value) : Innocent P fun recur => Step.plain recur ctx e form := by
  refine (record hP _ _ _).bind fun _ => ?_
  split
  · refine .bind_gets fun m => ?_
    split
    · exact pure hP _
    · exact fail hP _
  · exact (each hP _ _ _).bind fun _ => pure hP _
  · exact (eachEntry hP _ _ _).bind fun _ => pure hP _
  · exact pure hP _

/-- A form that is no call. -/
theorem expanded {form : Value}
    (h : ∀ head operands, form = .list (head :: operands) → SpecialForm.ofValue? head ≠ none) :
    Innocent P fun recur => Step.expanded recur ctx e form := by
  unfold Step.expanded
  split
  · exact pure hP _
  · next head operands =>
    refine (record hP _ _ _).bind fun _ => ?_
    split
    · exact special hP _ _ _ _
    · next hs => exact absurd hs (h head operands rfl)
  · exact (plain hP _ _ _).bind fun _ => pure hP _

end Steps

end Innocent

/-- The first of some values applied to the others. -/
def Step.applyItems (ctx : Context) (vs : List Value) (recur : Evaluator) : Run Turn :=
  match vs with
  | f :: args => Call.apply recur ctx f args
  | [] => Run.pure (.done (.list []))

/-- What a call makes an end of, an evaluation that it comes to makes an end of, or it is that of a builtin. -/
theorem blames_or_builtin (hP : OfAtoms P) {recur : Evaluator} {ctx : Context} {vs : List Value} {m : Machine}
    {r : Except EvalError Turn × Machine} (hr : Step.applyItems ctx vs recur m = some r) (hm : P m) (hn : ¬P r.2) :
    Run.Blames P (Step.applyItems ctx vs) recur m ∨
      ∃ b args s, vs = .builtin b :: args ∧ Call.builtin ctx b args m = some s ∧ ¬P s.2 := by
  cases vs with
  | nil => exact .inl ((Innocent.pure hP (Turn.done (.list []))).blames hr hm hn)
  | cons f args =>
    by_cases hf : ∀ b, f ≠ .builtin b
    · exact .inl ((Innocent.apply hP ctx hf args).blames hr hm hn)
    · push Not at hf
      obtain ⟨b, rfl⟩ := hf
      obtain ⟨s, n, hb, rfl⟩ := Run.bind_pure_eq_some hr
      exact .inr ⟨b, args, (s, n), rfl, hb, hn⟩

/-- A call of an ordinary builtin that a step makes, where it makes an end of something. -/
def Start.BreaksHere (P : Machine → Prop) (p : Start) : Prop :=
  ∃ (ctx : Context) (b : Builtin) (args : List Value) (m : Machine) (r : Except EvalError Value × Machine),
    Calls p.ctx p.e p.form p.machine ctx (.builtin b) args m ∧ Call.builtin ctx b args m = some r ∧ P m ∧ ¬P r.2

/-- What a step makes an end of, an evaluation that it asks for makes an end of, or a builtin that it calls. How forms
inside are evaluated may differ from evaluation in one failure. -/
theorem blames_or_breaksHere (hP : OfAtoms P) {recur : Evaluator} {lost : Halt}
    (hrec : recur.SaveFor {lost} ∅ evaluate) {ctx : Context} {e : FrameId} {form : Value} {m : Machine}
    {r : Except EvalError Turn × Machine}
    (hr : step recur ctx e form m = some r) (hm : P m) (hn : ¬P r.2) :
    Run.Blames P (fun recur => step recur ctx e form) recur m ∨ Start.BreaksHere P ⟨ctx, e, form, m⟩ := by
  have s := simulation_saveFor {lost} ∅
  refine (Innocent.expand hP ctx e form).bind_or hm hn (fun form' m₁ hx hm₁ hr => ?_) hr
  by_cases call : ∀ head operands, form' = .list (head :: operands) → SpecialForm.ofValue? head ≠ none
  · exact .inl ((Innocent.expanded hP ctx e call).blames hr hm₁ hn)
  push Not at call
  obtain ⟨head, operands, rfl, hs⟩ := call
  have parts : (fun recur => Step.expanded recur ctx e (.list (head :: operands))) = fun recur =>
      Run.bind (Run.recordValue ctx .trace "apply " (.list (head :: operands))) fun _ =>
        Run.bind (Step.each recur (ctx.hold e (.list (head :: operands))) e (head :: operands))
          (Step.applyItems (ctx.hold e (.list (head :: operands))) · recur) :=
    funext fun recur => Step.expanded_call hs operands
  rw [congrFun parts recur] at hr
  rw [parts]
  refine (Innocent.record hP ctx .trace _).bind_or hm₁ hn (fun _ m₂ hv hm₂ hr => ?_) hr
  refine (Innocent.each hP _ e _).bind_or hm₂ hn (fun vs k hvs hk hr => ?_) hr
  refine (blames_or_builtin hP hr hk hn).imp_right ?_
  rintro ⟨b, args, out, rfl, hb, hn⟩
  have hx' := Run.ok_of_saveFor (s.expand hrec.congr rfl e form) hx
  have hvs' := Run.ok_of_saveFor (s.each hrec.congr rfl e (head :: operands)) hvs
  exact ⟨_, b, args, k, out, ⟨hx', hs, hv, hvs'⟩, hb, hk, hn⟩

end Blame

/-! ## In the course of an evaluation -/

namespace Start

/-- A call of an ordinary builtin, in the course of an evaluation, that makes an end of something. -/
def Breaks (P : Machine → Prop) (p : Start) : Prop := ∃ q, p.Inside q ∧ q.BreaksHere P

variable {P : Machine → Prop} {p q : Start}

/-- Who blames an evaluation inside itself can be blamed for it. -/
theorem Breaks.inside (h : q.Breaks P) (hq : p.Inside q) : p.Breaks P := by
  obtain ⟨q', hq', here⟩ := h
  exact ⟨q', hq.trans hq', here⟩

/-- What an evaluation makes an end of, a builtin that is called in the course of it makes an end of. -/
theorem breaks_of_evaluate (hP : OfAtoms P) {r : Except EvalError Value × Machine} (hr : p.run evaluate = some r)
    (hm : P p.machine) (hn : ¬P r.2) : p.Breaks P := by
  have all : evaluate p.ctx p.e p.form p.machine = some r ∧
      (P p.machine → ¬P r.2 → Breaks P ⟨p.ctx, p.e, p.form, p.machine⟩) := by
    refine evaluate_induction (P := fun ctx e form m r =>
      evaluate ctx e form m = some r ∧ (P m → ¬P r.2 → Breaks P ⟨ctx, e, form, m⟩)) (fun recur ih => ?_) hr
    intro ctx e form m r hr
    have le (ctx : Context) (e : FrameId) (form : Value) : Run.LE (recur ctx e form) (evaluate ctx e form) :=
      fun m r hr => (ih ctx e form m r hr).1
    refine ⟨by rw [evaluate_eq]; exact advance_mono le ctx e form m r hr, fun hm hn => ?_⟩
    have hrec : recur.SaveFor {(.unbound "", m)} ∅ evaluate := fun ctx e form m r hr => .inl (le ctx e form m r hr)
    have ofStep {out : Except EvalError Turn × Machine} (hx : step recur ctx e form m = some out) (hn : ¬P out.2) :
        Breaks P ⟨ctx, e, form, m⟩ := by
      rcases blames_or_breaksHere hP hrec hx hm hn with ⟨q, r, visits, hq, hqm, hqn⟩ | here
      · have inner := (ih q.ctx q.e q.form q.machine r hq).2 hqm hqn
        exact inner.inside (.nested .self (asks_of_visits hrec visits))
      · exact ⟨_, .self, here⟩
    rcases Run.bind_eq_some hr with ⟨fault, n, hx, rfl⟩ | ⟨turn, n, hx, hr⟩
    · exact ofStep hx hn
    by_cases there : P n
    · cases turn with
      | done v =>
        cases hr
        exact absurd there hn
      | again e' form' =>
        have inner := (ih ctx e' form' n r hr).2 there hn
        exact inner.inside (.again .self (Run.ok_of_saveFor (hrec.step ctx e form) hx))
    · exact ofStep hx there
  exact all.2 hm hn

/-- What is so no more at an evaluation in the course of another one, a builtin that was called in the course of it has
made an end of. -/
theorem breaks_of_inside (hP : OfAtoms P) (h : p.Inside q) (hm : P p.machine) (hn : ¬P q.machine) : p.Breaks P := by
  induction h with
  | self => exact absurd hm hn
  | @nested q q' h ha ih =>
    by_cases there : P q.machine
    · -- the step is broken off where the evaluation inside sets out
      let halt : Halt := (.unbound "", q'.machine)
      have hrec := (halts_haltAt evaluate q' halt).backward
      rcases blames_or_breaksHere hP hrec (visits_of_asks ha halt) there hn with
        ⟨q₁, r, visits, hq, hqm, hqn⟩ | here
      · have other : q' ≠ q₁ := by
          rintro rfl
          exact hn hqm
        rw [haltAt_of_ne other] at hq
        exact (breaks_of_evaluate hP hq hqm hqn).inside (h.nested (asks_of_visits hrec visits))
      · exact ⟨q, h, here⟩
    · exact ih there
  | @again q e form n h hr ih =>
    by_cases there : P q.machine
    · have hrec : evaluate.SaveFor {(.unbound "", n)} ∅ evaluate := fun _ _ _ _ _ hr => .inl hr
      rcases blames_or_breaksHere hP hrec hr there hn with ⟨q₁, r, visits, hq, hqm, hqn⟩ | here
      · exact (breaks_of_evaluate hP hq hqm hqn).inside (h.nested (asks_of_visits hrec visits))
      · exact ⟨q, h, here⟩
    · exact ih there

end Start

end MiniLisp
