import Mathlib
import MiniLisp.Proofs.Ownership
import MiniLisp.Proofs.Proper
import MiniLisp.Proofs.RoundTrip

/-!
# Parameter lists in a session

Names spell a parameter list if the rest marker is none of them, or stands among them once as the last but one. A call
of a closure binds its parameters in a frame of its own, below the frame that the closure captured. In every session,
whatever requests are made of it, and at every evaluation on the way, no closure has a parameter with the name of the
marker.

* `Call.Entered`: the frame of a call.
* `Session.Reachable.proper`, `Session.Running.proper`: sessions and the evaluations that take place in them.
* `parameters_parsed_and_bound`: parameter lists, from the names that spell them to what calls bind.
-/

namespace MiniLisp

/-! ## The frame of a call -/

/-- A call of a closure with some parameters enters a new frame below the captured one, which binds the parameters to
the arguments and nothing else. All other names mean what they mean in the captured frame. -/
structure Call.Entered (p : Params) (captured : FrameId) (args : List Value) (m : Machine) (e : FrameId)
    (m' : Machine) : Prop where
  fresh : e = m.frames.size
  added : m' = (m.addFrame (p.bindings args) (some captured)).2
  bound : p.Bound args (p.bindings args)
  lookup {name : String} (hm : m.Nested) (hc : captured < m.frames.size) :
    m'.lookup e name = ((p.bindings args).find? name).or (m.lookup captured name)
  outside {name : String} (hm : m.Nested) (hc : captured < m.frames.size) (hp : name ∉ p.positional)
    (hr : p.rest ≠ some name) : m'.lookup e name = m.lookup captured name

theorem Call.entered {p : Params} {captured e : FrameId} {args : List Value} {m m' : Machine}
    (h : enter p captured args m = some (.ok e, m')) : Entered p captured args m e m' := by
  obtain ⟨hn, rfl, rfl⟩ := enter_iff.1 h
  have bound := p.bound_bindings (Params.arity_accepts.1 hn).1
  refine ⟨rfl, rfl, bound, fun hm hc => hm.lookup_new _ hc, fun hm hc hp hr => ?_⟩
  rw [hm.lookup_new _ hc, bound.other hp hr, Option.none_or]

/-! ## Sessions and evaluations -/

open Invariant (signatures signatures_holds)

namespace Session

variable {s : Session} {recorded : Option Level} {waiting : List FrameId} {ctx : Context} {e : FrameId}
  {form : Value} {m : Machine}

/-- No closure in a session has a parameter with the name of the rest marker. -/
theorem Reachable.proper (h : s.Reachable) : s.machine.Proper :=
  (signatures_holds.1 (h.holdsIn signatures).machine).2

/-- Every evaluation takes place on a proper machine, of a proper form. -/
theorem Running.proper (hs : s.Reachable) (h : s.Running recorded waiting ctx e form m) : m.Proper ∧ form.Proper := by
  have covered := h.covered (hs.holdsIn signatures)
  exact ⟨(signatures_holds.1 covered.holds).2, covered.form.2⟩

/-- Calls are made on proper machines, of proper values. -/
theorem Running.proper_of_calls {c : Context} {f : Value} {args : List Value} {n : Machine} (hs : s.Reachable)
    (h : s.Running recorded waiting ctx e form m) (hc : Calls ctx e form m c f args n) :
    n.Proper ∧ f.Proper ∧ ∀ v ∈ args, v.Proper := by
  obtain ⟨holds, -, callee, arguments⟩ := (h.covered (hs.holdsIn signatures)).calls hc
  exact ⟨(signatures_holds.1 holds).2, callee.2, fun v hv => (arguments v hv).2⟩

end Session

/-- **Parameter lists are parsed and bound exactly.** Names spell a parameter list if the rest marker is none of them,
or stands among them once as the last but one; the list is written with the same names, and its text splits into them
if they are words. Whether a call binds them depends on the count of its arguments only, and then it enters a frame
with the parameters and nothing else. In every session, and at every evaluation that takes place in it, no closure has
a parameter with the name of the marker, and a closure that is called captured a frame that is there. -/
theorem parameters_parsed_and_bound :
    (∀ names : List String,
      ((∃ p, Params.ofNames? names = .ok p) ↔ restMarker ∉ names ∨
        names.count restMarker = 1 ∧ ∃ before last, names = before ++ [restMarker, last]) ∧
      ∀ p, Params.ofNames? names = .ok p →
        p.names = names ∧ ((∀ name ∈ names, Text.IsWord name) → Text.words p.text = names)) ∧
    (∀ (p : Params) (captured : FrameId) (args : List Value) (m : Machine),
      ((∃ e m', Call.enter p captured args m = some (.ok e, m')) ↔
        p.positional.length ≤ args.length ∧ (p.rest = none → args.length = p.positional.length)) ∧
      ∀ e m', Call.enter p captured args m = some (.ok e, m') → Call.Entered p captured args m e m') ∧
    ∀ s : Session, s.Reachable → s.machine.Proper ∧ s.machine.Nested ∧
      ∀ (recorded : Option Level) (waiting : List FrameId) (ctx : Context) (e : FrameId) (form : Value) (m : Machine),
        s.Running recorded waiting ctx e form m → m.Proper ∧ m.Nested ∧ form.Proper ∧
        ∀ (c : Context) (f : Value) (args : List Value) (n : Machine), Calls ctx e form m c f args n →
          n.Proper ∧ n.Nested ∧ f.Proper ∧ (∀ v ∈ args, v.Proper) ∧
          ∀ id params body captured isMacro, f = .closure id params body captured isMacro →
            restMarker ∉ params.positional ∧ params.rest ≠ some restMarker ∧ captured < n.frames.size := by
  refine ⟨fun names => ⟨Params.exists_ofNames?, fun p hp => ?_⟩, fun p captured args m => ⟨?_, fun _ _ => Call.entered⟩,
    fun s hs => ⟨hs.proper, hs.closed.nested, fun recorded waiting ctx e form m running => ?_⟩⟩
  · obtain ⟨rfl, -⟩ := Params.ofNames?_eq_ok.1 hp
    exact ⟨rfl, Params.words_text⟩
  · simp only [Call.enter_iff, ← Params.arity_accepts]
    simp
  · obtain ⟨proper, hf⟩ := running.proper hs
    have here := running.grounded hs
    refine ⟨proper, here.closed.nested, hf, fun c f args n call => ?_⟩
    obtain ⟨proper', callee, arguments⟩ := running.proper_of_calls hs call
    obtain ⟨closed, -, within, -⟩ := here.calls call
    refine ⟨proper', closed.nested, callee, arguments, ?_⟩
    rintro id params body captured isMacro rfl
    have there : ⟨.frame, captured⟩ ∈ n.known := within _ (List.mem_cons_of_mem _ List.mem_cons_self)
    cases callee with
    | closure hp _ => exact ⟨hp.1, hp.2, there⟩

/-! ## A call with more arguments than names -/

/-- A session with a frame that binds nothing. -/
def bareSession : Session := ⟨⟨#[⟨[], none⟩], #[], 0, "", #[]⟩, [(Session.mainName, 0)], fun _ => .ok ""⟩

theorem reachable_bareSession : bareSession.Reachable := by
  have made : Session.perform ⟨.empty, [], fun _ => .ok ""⟩ none (.create Session.mainName true) =
      some (.done, bareSession) := rfl
  exact .perform (.empty _) made

def restClosure : Value := .closure 0 ⟨["x"], some "y"⟩ (.symbol "y") 0 false

/-- The form `((fn* (x & y) y) 1 2)`. -/
def restForm : Value :=
  .list [.list [.symbol "fn*", .list [.symbol "x", .symbol "&", .symbol "y"], .symbol "y"], .int 1, .int 2]

theorem readable_restForm : restForm.Readable := by
  have symbol {name : String} (h : name = "fn*" ∨ name = "x" ∨ name = "&" ∨ name = "y") :
      (Value.symbol name).Readable := by
    refine .symbol ?_
    rcases h with rfl | rfl | rfl | rfl <;>
      exact ⟨List.all_eq_true.1 rfl, ⟨_, _, rfl, by decide, by decide, by decide, by decide⟩, by decide, rfl⟩
  have names : (Value.list [.symbol "x", .symbol "&", .symbol "y"]).Readable := .list (by simp [symbol])
  have closure : (Value.list [.symbol "fn*", .list [.symbol "x", .symbol "&", .symbol "y"], .symbol "y"]).Readable :=
    .list (by simp [symbol, names])
  exact .list (by simp [closure, Value.Readable.int])

/-- The names of a closure are read back from its text, and what is left of the arguments is bound to the last one. -/
theorem parameters_parsed_and_bound_rest :
    Text.words (Params.text ⟨["x"], some "y"⟩) = ["x", "&", "y"] ∧
    (∃ m', Call.enter ⟨["x"], some "y"⟩ 0 [.int 1, .int 2] bareSession.machine = some (.ok 1, m') ∧
      m'.lookup 1 "y" = some (.list [.int 2]) ∧ m'.lookup 1 "z" = none) ∧
    ∃ c n, Calls (bareSession.context none) 0 restForm bareSession.machine c restClosure [.int 1, .int 2] n ∧
      restMarker ∉ ["x"] ∧ n.Proper := by
  obtain ⟨parsed, bound, sessions⟩ := parameters_parsed_and_bound
  have words : ∀ name ∈ ["x", "&", "y"], Text.IsWord name := by
    simp [Text.IsWord, Text.isBlank, Text.inRanges, Text.blankRanges]
  refine ⟨((parsed _).2 ⟨["x"], some "y"⟩ (by decide)).2 words, ?_, ?_⟩
  · have entered := (bound ⟨["x"], some "y"⟩ 0 [.int 1, .int 2] bareSession.machine).2 1 _ rfl
    have nested := (sessions bareSession reachable_bareSession).2.1
    refine ⟨_, rfl, ?_, ?_⟩
    · rw [entered.lookup nested (by decide), entered.bound.rest rfl]
      rfl
    · rw [entered.outside nested (by decide) (by decide) (by decide)]
      rfl
  · obtain ⟨t, -, spelled⟩ : ∃ t, restForm.render .readable (fun _ => none) = some t ∧ Spells t [restForm] :=
      Value.spells_render readable_restForm _ (.refl restForm)
    have read : Value.read? (String.ofList t).toList = .ok restForm := by
      rw [String.toList_ofList]
      exact read?_of_spells spelled
    have kept : bareSession.frame? Session.mainName = some 0 := rfl
    have running : bareSession.Running none [] (bareSession.context none) 0 restForm bareSession.machine :=
      .text (.first kept read)
    have elements : Step.each (evalWithin 1) ((bareSession.context none).hold 0 restForm) 0
        [.list [.symbol "fn*", .list [.symbol "x", .symbol "&", .symbol "y"], .symbol "y"], .int 1, .int 2]
        bareSession.machine =
          some (.ok [restClosure, .int 1, .int 2], { bareSession.machine with closures := 1 }) := rfl
    have call : Calls (bareSession.context none) 0 restForm bareSession.machine _ restClosure [.int 1, .int 2] _ :=
      .mk (expandWithin_of_none rfl) rfl rfl (simulation_le.each (evalWithin_le 1) rfl _ _ _ _ elements)
    obtain ⟨-, -, -, calls⟩ := (sessions bareSession reachable_bareSession).2.2 _ _ _ _ _ _ running
    obtain ⟨proper, -, -, -, closure⟩ := calls _ _ _ _ call
    exact ⟨_, _, call, (closure _ _ _ _ _ rfl).1, proper⟩

end MiniLisp
