import MiniLisp.Proofs.Adequacy
import MiniLisp.Proofs.Growth

/-!
# Scopes are private

Evaluation binds names in the frame where it takes place, in frames that it adds, and, where a rooted builtin takes it
there, in a root. What a form may change is read off the rules, and so is what a call may change, which has no frame of
its own to begin with. That frames only grow also holds of runs that are broken off or do not end.

* `Evaluates.changes`, `Applies.changes`: the frames that a form and that a call change.
* **Privacy** (`scopes_are_private`): both, for evaluation, and what follows for names at the points of a run.
-/

namespace MiniLisp

/-! ## What the rules change -/

namespace Machine.ChangesOnly

variable {m m' n : Machine} {e : FrameId} {t u : List FrameId}

/-- More frames may be named than are changed. -/
theorem weaken (h : m.ChangesOnly t m') (e : FrameId) : m.ChangesOnly (e :: t) m' :=
  h.mono (List.subset_cons_self e t)

/-- Changes one after the other are changes to the frames of both. -/
theorem append (h : m.ChangesOnly t n) (h' : n.ChangesOnly u m') : m.ChangesOnly (t ++ u) m' :=
  (h.mono (List.subset_append_left t u)).trans (h'.mono (List.subset_append_right t u))

/-- What changes a frame and then changes it again changes no other frame because of that. -/
theorem append_cons (h : m.ChangesOnly (e :: t) n) (h' : n.ChangesOnly (e :: u) m') :
    m.ChangesOnly (e :: (t ++ u)) m' :=
  (h.mono (List.cons_subset_cons e (List.subset_append_left t u))).trans
    (h'.mono (List.cons_subset_cons e (List.subset_append_right t u)))

end Machine.ChangesOnly

section

variable {ctx : Context} {e : FrameId} {m m' : Machine} {r : Except EvalError Value × Machine}

theorem Recorded.changes {level : Level} {message : Message} (h : Recorded ctx level message m m')
    (es : List FrameId) : m.ChangesOnly es m' :=
  .of_frames_eq (OffFrames.frames.record ctx level message m _ h) es

/-- A binding changes the frame it is made in. -/
theorem Binds.changes {form : SpecialForm} {target v : Value} (h : Binds ctx e form target v m r) (t : List FrameId) :
    m.ChangesOnly (e :: t) r.2 := by
  cases h with
  | symbol hr => exact (Machine.ChangesOnly.bind m e _ v t).trans (hr.changes _)
  | noSymbol _ => exact .refl m _

end

open Machine (ChangesOnly)

mutual

/-- A form changes the frame that it is evaluated in, and the roots that rooted builtins evaluate in. -/
theorem Evaluates.changes : ∀ {ctx : Context} {e : FrameId} {form : Value} {m : Machine} {t : List FrameId}
    {r : Except EvalError Value × Machine}, Evaluates ctx e form m t r → m.ChangesOnly (e :: t) r.2
  | _, e, _, _, _, _, .expanded hx hs => (hx.changes.weaken e).append_cons hs.changes
  | _, e, _, _, _, _, .unexpanded hx => hx.changes.weaken e

/-- Settling a form changes its frame and the roots that were met. -/
theorem Settles.changes : ∀ {ctx : Context} {e : FrameId} {form : Value} {m : Machine} {t : List FrameId}
    {r : Except EvalError Value × Machine}, Settles ctx e form m t r → m.ChangesOnly (e :: t) r.2
  | _, _, _, _, _, _, .symbol hr _ => hr.changes _
  | _, _, _, _, _, _, .unbound hr _ => hr.changes _
  | _, _, _, _, _, _, .literal _ hr => hr.changes _
  | _, _, _, _, _, _, .vector hr h => (hr.changes _).trans h.changes
  | _, _, _, _, _, _, .map hr h => (hr.changes _).trans h.changes
  | _, _, _, _, _, _, .empty => .refl _ _
  | _, _, _, _, _, _, .special hr _ h => (hr.changes _).trans h.changes
  | _, e, _, _, _, _, .call hr _ hx h => (hr.changes _).trans (hx.changes.append_cons (h.changes.weaken e))
  | _, _, _, _, _, _, .callFails hr _ hx => (hr.changes _).trans hx.changes

theorem Elements.changes : ∀ {ctx : Context} {e : FrameId} {xs : List Value} {m : Machine} {t : List FrameId}
    {r : Except EvalError (List Value) × Machine}, Elements ctx e xs m t r → m.ChangesOnly (e :: t) r.2
  | _, _, _, _, _, _, .nil => .refl _ _
  | _, _, _, _, _, _, .cons hx h => hx.changes.append_cons h.changes
  | _, _, _, _, _, _, .fails hx => hx.changes

theorem EntryValues.changes : ∀ {ctx : Context} {e : FrameId} {es : Entries} {m : Machine} {t : List FrameId}
    {r : Except EvalError Entries × Machine}, EntryValues ctx e es m t r → m.ChangesOnly (e :: t) r.2
  | _, _, _, _, _, _, .nil => .refl _ _
  | _, _, _, _, _, _, .cons hx h => hx.changes.append_cons h.changes
  | _, _, _, _, _, _, .fails hx => hx.changes

/-- A special form binds in its own frame; the frame of a `let*` is new, so its bindings do not count. -/
theorem Performs.changes : ∀ {ctx inner : Context} {e : FrameId} {s : SpecialForm} {operands : List Value}
    {m : Machine} {t : List FrameId} {r : Except EvalError Value × Machine}, Performs ctx inner e s operands m t r →
      m.ChangesOnly (e :: t) r.2
  | _, _, _, _, _, _, _, _, .define hx hb => hx.changes.trans (hb.changes _)
  | _, _, _, _, _, _, _, _, .defineFails hx => hx.changes
  | _, _, _, _, _, _, _, _, .defineMacro hx hb =>
    hx.changes.trans ((ChangesOnly.newClosure _ _).trans (hb.changes _))
  | _, _, _, _, _, _, _, _, .defineMacroFails hx => hx.changes
  | _, _, _, _, _, _, _, _, .noClosure hx _ => hx.changes
  | _, _, e, _, _, m, _, _, .bindLocally _ hb hx =>
    -- the frame of the bindings is a new one
    (((ChangesOnly.addFrame m _ _ _).trans (hb.changes.append_cons hx.changes)).of_new (Nat.le_refl _)).weaken e
  | _, _, e, _, _, m, _, _, .bindingFails _ hb =>
    (((ChangesOnly.addFrame m _ _ _).trans hb.changes).of_new (Nat.le_refl _)).weaken e
  | _, _, _, _, _, _, _, _, .noBindings _ => .refl _ _
  | _, _, _, _, _, _, _, _, .sequenceNil hx => hx.changes
  | _, _, _, _, _, _, _, _, .sequenceLast hx => hx.changes
  | _, _, _, _, _, _, _, _, .sequenceCons hx h => hx.changes.append_cons h.changes
  | _, _, _, _, _, _, _, _, .sequenceFails hx => hx.changes
  | _, _, _, _, _, _, _, _, .choose _ hc hx => hc.changes.append_cons hx.changes
  | _, _, _, _, _, _, _, _, .conditionFails _ hc => hc.changes
  | _, _, _, _, _, m, _, _, .function _ => .newClosure m _
  | _, _, _, _, _, _, _, _, .noSignature _ => .refl _ _
  | _, _, _, _, _, _, _, _, .quote => .refl _ _
  | _, _, _, _, _, _, _, _, .showTemplate => .refl _ _
  | _, _, _, _, _, _, _, _, .template _ hx => hx.changes
  | _, _, _, _, _, _, _, _, .noTemplate _ => .refl _ _
  | _, _, e, _, _, _, _, _, .showExpansion hx => hx.changes.weaken e
  | _, _, _, _, _, _, _, _, .badCount _ => .refl _ _

theorem BindsEach.changes : ∀ {ctx : Context} {e : FrameId} {items : List Value} {m : Machine} {t : List FrameId}
    {r : Except EvalError Unit × Machine}, BindsEach ctx e items m t r → m.ChangesOnly (e :: t) r.2
  | _, _, _, _, _, _, .done _ => .refl _ _
  | _, e, _, _, _, _, .cons hx h => hx.changes.append_cons ((ChangesOnly.bind _ e _ _ _).trans h.changes)
  | _, _, _, _, _, _, .noSymbol hx _ => hx.changes
  | _, _, _, _, _, _, .fails hx => hx.changes

/-- A call changes no frame but the roots that rooted builtins evaluate in. -/
theorem Applies.changes : ∀ {ctx : Context} {after : FrameId → Value → Context} {f : Value} {args : List Value}
    {m : Machine} {t : List FrameId} {r : Except EvalError Value × Machine}, Applies ctx after f args m t r →
      m.ChangesOnly t r.2
  | ctx, _, _, args, m, _, r, .builtin (b := b) h =>
    .of_frames_eq ((OffFrames.frames.kept ctx).builtin b args m r h) _
  | _, _, _, _, _, _, _, .eval _ hr hr' hx => (hr.changes _).trans ((hr'.changes _).trans hx.changes)
  | _, _, _, _, _, _, _, .swap _ hr _ hr' hx => (hr.changes _).trans ((hr'.changes _).trans hx.changes)
  | _, _, _, _, _, _, _, .noAtom _ hr _ => hr.changes _
  | _, _, _, _, _, _, _, .swapNotCallable _ hr _ => hr.changes _
  | _, _, _, _, _, _, _, .detached _ _ => .refl _ _
  | _, _, _, _, _, _, _, .rootedBadCount _ => .refl _ _
  | _, _, _, _, _, _, _, .closure hr _ hx =>
    -- the frame of the parameters is a new one
    (hr.changes _).trans (((ChangesOnly.addFrame _ _ _ _).trans hx.changes).of_new (Nat.le_refl _))
  | _, _, _, _, _, _, _, .closureBadCount hr _ => hr.changes _
  | _, _, _, _, _, _, _, .notCallable _ => .refl _ _

/-- Expansion binds nothing itself; macros are called in new frames. -/
theorem Expands.changes : ∀ {ctx : Context} {e : FrameId} {n : Nat} {form : Value} {m : Machine} {t : List FrameId}
    {r : Except EvalError Value × Machine}, Expands ctx e n form m t r → m.ChangesOnly t r.2
  | _, _, _, _, _, _, _, .done _ => .refl _ _
  | _, _, _, _, _, _, _, .limit _ => .refl _ _
  | _, _, _, _, _, _, _, .once _ hx hr hs => hx.changes.append ((hr.changes _).trans hs.changes)
  | _, _, _, _, _, _, _, .fails _ hx => hx.changes

end

/-! ## What evaluation changes -/

/-- **Scopes are private.** Whether evaluation succeeds or fails, it changes no frame but the one that it takes place
in and the roots that rooted builtins evaluate in on the way. A call changes no frame but these roots. No run loses a
frame, a place of a frame or the binding of a name between any two of its points, whether it ends or not, and so a
name that resolves goes on to resolve. -/
theorem scopes_are_private :
    (∀ (ctx : Context) (e : FrameId) (form : Value) (m : Machine) (r : Except EvalError Value × Machine),
      evaluate ctx e form m = some r →
        (∃ t, Evaluates ctx e form m t r) ∧ ∀ t, Evaluates ctx e form m t r → m.ChangesOnly (e :: t) r.2) ∧
    (∀ (ctx : Context) (f : Value) (args : List Value) (m : Machine) (r : Except EvalError Value × Machine),
      Call.finish evaluate ctx f args m = some r →
        (∃ t, Applies ctx (ctx.holdCall f args) f args m t r) ∧
          ∀ t, Applies ctx (ctx.holdCall f args) f args m t r → m.ChangesOnly t r.2) ∧
    (∀ (ctx : Context) (e : FrameId) (form : Value) (m n n' : Machine) (stop later : Stop), stop.Later later →
      PointOf ctx e form m stop n → PointOf ctx e form m later n' → m.Grows n ∧ n.Grows n') ∧
    (∀ (ctx : Context) (e : FrameId) (form : Value) (m n : Machine) (stop : Stop)
      (r : Except EvalError Value × Machine), PointOf ctx e form m stop n → evaluate ctx e form m = some r →
        n.Grows r.2) ∧
    ∀ (m m' : Machine) (e : FrameId) (name : String), m.Grows m' → (m.lookup e name).isSome = true →
      (m'.lookup e name).isSome = true := by
  refine ⟨fun ctx e form m r hr => ⟨evaluate_iff.1 hr, fun t h => h.changes⟩,
    fun ctx f args m r hr => ⟨Call.finish_iff.1 hr, fun t h => h.changes⟩,
    fun ctx e form m n n' stop later h hn hn' => ?_, fun ctx e form m n stop r hn hr => ?_,
    fun m m' e name h hn => h.lookup e name hn⟩
  · exact onward_grows.points h hn hn'
  · exact onward_grows.point_end hn hr

/-- The form `(def! x 1)`. -/
def defineForm : Value := .list [.symbol "def!", .symbol "x", .int 1]

/-- A closure that defines `x`. -/
def inner : Value := .closure 0 ⟨[], none⟩ defineForm 2 false

/-- Two frames below a root, which binds a closure over the second one. -/
def closedOver : Machine :=
  ⟨#[⟨[("f", inner)], none⟩, ⟨[], some 0⟩, ⟨[("x", .int 0)], some 0⟩], #[], 1, "", #[]⟩

/-- That machine with the frame of a call of the closure. -/
def entered : Machine := (closedOver.addFrame [] (some 2)).2

/-- That machine after the call. -/
def calledOnce : Machine := entered.bind 3 "x" (.int 1)

/-- Stops at the body of the closure. -/
def stopInCall : Stop := fun e _ _ => if e = 3 then some (.unbound "") else none

theorem evaluates_defineForm (held : Holds) :
    Evaluates { firstHeld with held := held } 3 defineForm entered [] (.ok (.int 1), calledOnce) := by
  have one (held : Holds) :
      Evaluates { firstHeld with held := held } 3 (.int 1) entered [] (.ok (.int 1), entered) :=
    .expanded (t := []) (.done rfl) (.literal rfl rfl)
  exact .expanded (t := []) (.done rfl) (.special rfl (by decide) (.define (one _) (.symbol rfl)))

theorem evaluates_callForm : Evaluates firstHeld 1 callForm closedOver [] (.ok (.int 1), calledOnce) := by
  have head : Evaluates (firstHeld.hold 1 callForm) 1 (.symbol "f") closedOver [] (.ok inner, closedOver) :=
    .expanded (t := []) (.done rfl) (.symbol rfl rfl)
  exact .expanded (t := []) (.done rfl)
    (.call (t := []) rfl (by decide) (.cons (t := []) head .nil) (.closure rfl rfl (evaluates_defineForm _)))

theorem scopes_are_private_closure :
    evaluate firstHeld 1 callForm closedOver = some (.ok (.int 1), calledOnce) ∧
      closedOver.ChangesOnly [1] calledOnce ∧ closedOver.ChangesOnly [] calledOnce ∧
        entered.Grows calledOnce ∧ (calledOnce.lookup 3 "f").isSome = true := by
  obtain ⟨forms, calls, points, ends, names⟩ := scopes_are_private
  have run := evaluates_callForm.run
  have call : Applies firstHeld (firstHeld.holdCall inner []) inner [] closedOver [] (.ok (.int 1), calledOnce) :=
    .closure rfl rfl (evaluates_defineForm _)
  have inCall : PointOf firstHeld 1 callForm closedOver stopInCall entered := ⟨2, _, rfl⟩
  have afterCall : PointOf firstHeld 1 callForm closedOver (fun _ _ _ => none) calledOnce := ⟨3, _, rfl⟩
  have resolves := names _ _ 3 "f" (ends _ _ _ _ _ _ _ inCall run) rfl
  refine ⟨run, (forms _ _ _ _ _ run).2 [] evaluates_callForm, ?_, ?_, resolves⟩
  · exact (calls _ _ _ _ _ (Call.finish_iff.2 ⟨[], call⟩)).2 [] call
  · exact (points _ _ _ _ _ _ _ _ (fun _ _ _ _ => rfl) inCall afterCall).2

end MiniLisp
