import Mathlib
import MiniLisp.Proofs.Closed
import MiniLisp.Proofs.Separation
import MiniLisp.Proofs.Sessions
import MiniLisp.Proofs.Survival

/-!
# Roots and their owners

A rooted builtin does not own its root, and so its root may be gone. In every session, whatever requests are made of it,
and at every evaluation on the way, no reference is astray: all that is held is there, what is live is what something
live owns, and the root of the frame that is evaluated in is live. So a rooted builtin finds its root gone only if
nothing owns the root any more.

* `Grounded`: evaluations on closed machines (`Session.Running.grounded`).
* `Rooted.Served`: what a call of a rooted builtin comes to.
* `roots_stay_while_owned`: what is live, and for whom.
-/

namespace MiniLisp

open Refers (Within)

/-! ## Evaluations on closed machines -/

/-- An evaluation of a form that is there, in a frame that is there, while all that is held is there, with some frames
among it. -/
structure Grounded (base : List FrameId) (ctx : Context) (e : FrameId) (form : Value) (m : Machine) : Prop where
  closed : m.Closed
  context : ctx.Within base m.known
  frame : ⟨.frame, e⟩ ∈ m.known
  form : Within m.known form

open Invariant (references references_fits references_holds)

/-- Evaluations on closed machines are those in keeping with the invariant that no reference is astray. -/
theorem grounded_iff {base : List FrameId} {ctx : Context} {e : FrameId} {form : Value} {m : Machine} :
    Grounded base ctx e form m ↔ references.Covers base ctx e form m :=
  ⟨fun h => ⟨h.closed.holds, h.context, h.frame, references_fits.2 h.form⟩,
    fun h => ⟨references_holds.1 h.holds, h.context, h.frame, h.form.within⟩⟩

namespace Grounded

variable {base : List FrameId} {ctx ctx' : Context} {e e' : FrameId} {form form' : Value} {m n : Machine}

theorem covered (h : Grounded base ctx e form m) : references.Covers base ctx e form m := grounded_iff.1 h

/-- While a step asks for evaluations, it holds the frame that it takes place in. -/
theorem nested (h : Grounded base ctx e form m)
    (ha : Run.Asks (fun recur => step recur ctx e form) m ctx' e' form' n) : Grounded (e :: base) ctx' e' form' n :=
  grounded_iff.2 (h.covered.nested ha)

theorem again (h : Grounded base ctx e form m)
    (hr : step evaluate ctx e form m = some (.ok (.again e' form'), n)) : Grounded base ctx e' form' n :=
  grounded_iff.2 (h.covered.again hr)

/-- Evaluation leaves a closed machine behind. -/
theorem closed_of_evaluate (h : Grounded base ctx e form m) {r : Except EvalError Value}
    (hr : evaluate ctx e form m = some (r, n)) : n.Closed :=
  references_holds.1 (h.covered.evaluate_ends hr).holds

/-- Calls are made on closed machines, of what is there, while the frame is held. -/
theorem calls {c : Context} {f : Value} {args : List Value} (h : Grounded base ctx e form m)
    (hc : Calls ctx e form m c f args n) :
    n.Closed ∧ c.Within (e :: base) n.known ∧ Within n.known f ∧ Within n.known args := by
  obtain ⟨holds, within, callee, arguments⟩ := h.covered.calls hc
  exact ⟨references_holds.1 holds, within, callee.within, Invariant.Fits.all arguments⟩

end Grounded

namespace Session

variable {s : Session} {recorded : Option Level} {waiting : List FrameId} {ctx : Context} {e : FrameId}
  {form : Value} {m : Machine}

/-- No reference is astray in a session. -/
theorem Reachable.closed (h : s.Reachable) : s.machine.Closed := references_holds.1 (h.holdsIn references).machine

/-- Every evaluation takes place on a closed machine, while all that is kept and the frames of the evaluations that
wait for it are held. -/
theorem Running.grounded (hs : s.Reachable) (h : s.Running recorded waiting ctx e form m) :
    Grounded (waiting ++ s.kept) ctx e form m :=
  grounded_iff.2 (h.covered (hs.holdsIn references))

end Session

/-! ## Calls of rooted builtins -/

theorem Context.Within.upheld {ctx : Context} {base : List FrameId} {m : Machine} (h : ctx.Within base m.known)
    (hm : m.Closed) : m.Upheld ctx.held :=
  hm.upheld (fun _ => h.frames) fun _ => h.values

/-- A frame that is held keeps its root. -/
theorem Machine.Upheld.alive_root {m : Machine} {held : Holds} (h : m.Upheld held) {o r : FrameId}
    (ho : o ∈ held.frames) (hr : m.RootOf o r) : m.isAlive held r = true :=
  h.chain ((h.live (x := ⟨.frame, o⟩) (.inl rfl)).2 (.handle ho)) r (List.mem_of_getLast? hr.1)

/-- A rooted builtin evaluates in its root only. -/
theorem Call.rooted_congr {recur recur' : Evaluator} {root : FrameId}
    (h : ∀ ctx form, recur ctx root form = recur' ctx root form) (ctx : Context) (b : Rooted) (args : List Value) :
    Call.rooted recur ctx b root args = Call.rooted recur' ctx b root args := by
  have inside (ctx : Context) : Call.inRoot recur ctx root b args = Call.inRoot recur' ctx root b args := by
    unfold Call.inRoot
    split <;> simp only [h]
  unfold Call.rooted
  simp only [inside]

/-- What a call of a rooted builtin comes to on a machine, while some frames are held: its root is a root with the
rooted builtins, it evaluates in that root only, and if the number of arguments is right it fails for want of a root
only if nothing owns the root any more. -/
structure Rooted.Served (frames : List FrameId) (ctx : Context) (b : Rooted) (root : FrameId) (args : List Value)
    (m : Machine) : Prop where
  upheld : m.Upheld ctx.held
  held : frames ⊆ ctx.held.frames
  hasRoot : m.HasRoot root
  inRoot {recur : Evaluator} (h : ∀ ctx form, recur ctx root form = evaluate ctx root form) :
    Call.rooted recur ctx b root args = Call.rooted evaluate ctx b root args
  outcome :
    (b.arity.accepts args.length = false ∧
      Call.rooted evaluate ctx b root args m = some (.error (.badCount ⟨b.name, b.arity, args.length⟩), m)) ∨
    (b.arity.accepts args.length = true ∧ m.isAlive ctx.held root = true ∧
      Call.rooted evaluate ctx b root args m = Run.bind (Call.recordCall ctx (fun _ => some b.name) args)
        (fun _ => Call.inRoot evaluate (ctx.holdFrame root) root b args) m) ∨
    (b.arity.accepts args.length = true ∧ ¬m.OwnedBy ctx.held (m.Live ctx.held) ⟨.frame, root⟩ ∧
      (∀ e ∈ frames, ¬m.RootOf e root) ∧
      Call.rooted evaluate ctx b root args m = some (.error (.detached b.name), m))

theorem Rooted.served {base : List FrameId} {ctx : Context} {m : Machine} (hm : m.Closed)
    (hc : ctx.Within base m.known) {b : Rooted} {root : FrameId} (hb : Within m.known (Value.rooted b root))
    (args : List Value) : b.Served base ctx root args m where
  upheld := hc.upheld hm
  held := hc.base
  hasRoot := hb _ List.mem_cons_self
  inRoot h := Call.rooted_congr h ctx b args
  outcome := by
    have upheld := hc.upheld hm
    cases hn : b.arity.accepts args.length with
    | false => exact .inl ⟨rfl, Call.rooted_of_badCount hn⟩
    | true =>
      cases ha : m.isAlive ctx.held root with
      | true => exact .inr (.inl ⟨rfl, rfl, Call.rooted_of_alive hn ha⟩)
      | false =>
        have gone : ¬m.isAlive ctx.held root = true := by simp [ha]
        refine .inr (.inr ⟨rfl, fun owned => gone ?_, fun e he hr => gone ?_, Call.rooted_of_gone hn ha⟩)
        · exact (upheld.live (x := ⟨.frame, root⟩) (.inl rfl)).2 owned
        · exact upheld.alive_root (hc.base he) hr

/-- In every session, and at every evaluation that takes place in it, what is live is what something live owns, with all
that lies outwards, and the frames that are kept and those of evaluations under way are held. A rooted builtin that is
called evaluates in the root that it was made for; if the number of arguments is right it fails for want of that root
only if nothing owns it any more, and so never if it is the root of the frame that the call is evaluated in. -/
theorem roots_stay_while_owned :
    (∀ (files : Files) (recorded : Option Level) (s : Session), Session.start files recorded = some (.ok s) →
      s.Reachable) ∧
    (∀ (root : FrameId) (b : Rooted), (Interpreter.rootBindings root).find? b.name = some (.rooted b root)) ∧
    ∀ s : Session, s.Reachable → ∀ recorded : Option Level,
      s.machine.Upheld (s.context recorded).held ∧
      ∀ (waiting : List FrameId) (ctx : Context) (e : FrameId) (form : Value) (m : Machine),
        s.Running recorded waiting ctx e form m →
        m.Upheld (ctx.hold e form).held ∧ e :: (waiting ++ s.kept) ⊆ (ctx.hold e form).held.frames ∧
        ∀ (c : Context) (b : Rooted) (root : FrameId) (args : List Value) (n : Machine),
          Calls ctx e form m c (.rooted b root) args n →
          b.Served (e :: (waiting ++ s.kept)) (c.holdItems (.rooted b root :: args)) root args n ∧
          step evaluate ctx e form m =
            Run.bind (Call.rooted evaluate (c.holdItems (.rooted b root :: args)) b root args)
              (fun v => Run.pure (.done v)) n := by
  refine ⟨fun _ _ _ => Session.reachable_start, fun root b => by cases b <;> rfl, fun s hs recorded => ?_⟩
  have context : (s.context recorded).Within s.kept s.machine.known := (hs.holdsIn references).context recorded
  refine ⟨context.upheld hs.closed, fun waiting ctx e form m running => ?_⟩
  have here := running.grounded hs
  have inside := here.context.inside here.frame here.form
  refine ⟨inside.upheld here.closed, inside.base, fun c b root args n call => ?_⟩
  obtain ⟨closed, within, callee, arguments⟩ := here.calls call
  have served := Rooted.served closed (within.holdItems (callee.cons arguments)) callee args
  exact ⟨served, call.step_eq.trans (congrFun (Call.apply_rooted evaluate c b root args) n)⟩

/-- In a session that has just started, a call of `eval` finds its root. -/
theorem roots_stay_while_owned_main :
    ∃ (s : Session) (c : Context) (n : Machine), Session.start (fun _ => .ok "") none = some (.ok s) ∧
      Calls (s.context none) 0 (.list [.symbol "eval", .int 1]) s.machine c (.rooted .eval 0) [.int 1] n ∧
      n.isAlive (c.holdItems [.rooted .eval 0, .int 1]).held 0 = true := by
  obtain ⟨m, made, like⟩ := Interpreter.newRoot_eq ⟨fun _ => .ok "", none, .none⟩ .empty
  let s : Session := ⟨m, [(Session.mainName, 0)], fun _ => .ok ""⟩
  have started : Session.start (fun _ => .ok "") none = some (.ok s) := by
    unfold Session.start Interpreter.boot Interpreter.ofRun
    rw [made]
    rfl
  obtain ⟨bs, id, hroot, loads, -⟩ := (Interpreter.canLoad_withRoot like).root
  have bound : m.lookup 0 "eval" = some (.rooted .eval 0) := (Machine.lookup_root hroot _).trans loads.eval
  have noCall : m.macroCall? 0 (.list [.symbol "eval", .int 1]) = none := by
    simp only [Machine.macroCall?, bound]
    rfl
  obtain ⟨n, elements, same⟩ :=
    each_comes (.cons (comes_symbol bound) (.cons (comes_literal (v := .int 1) rfl (.int 1)) .nil))
      (rfl : ((s.context none).hold 0 (.list [.symbol "eval", .int 1])).files = _) (.refl m)
  have call : Calls (s.context none) 0 (.list [.symbol "eval", .int 1]) m _ (.rooted .eval 0) [.int 1] n :=
    .mk (expandWithin_of_none noCall) (by decide) rfl elements
  have kept : s.frame? Session.mainName = some 0 := rfl
  have read : Value.read? "(eval 1)".toList = .ok (.list [.symbol "eval", .int 1]) := by cbv
  have running : s.Running none [] (s.context none) 0 (.list [.symbol "eval", .int 1]) m := .text (.first kept read)
  obtain ⟨reachable, -, upheld⟩ := roots_stay_while_owned
  obtain ⟨-, -, calls⟩ := (upheld s (reachable _ _ s started) none).2 _ _ _ _ _ running
  obtain ⟨served, -⟩ := calls _ _ _ _ _ call
  rcases served.outcome with ⟨count, -⟩ | ⟨-, alive, -⟩ | ⟨-, -, away, -⟩
  · cases count
  · exact ⟨s, _, n, started, call, alive⟩
  · have top : n.frames[0]? = some ⟨bs, none⟩ := same.frames_eq ▸ hroot
    refine absurd ⟨?_, _, top, rfl⟩ (away 0 List.mem_cons_self)
    simp only [Machine.chain, Machine.chainWithin, top]
    rfl

end MiniLisp
