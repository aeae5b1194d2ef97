import Mathlib
import MiniLisp.Proofs.Invariance
import MiniLisp.Proofs.Prelude
import MiniLisp.Session

/-!
# What takes place in sessions

Requests lead from session to session, and on the way evaluations take place in which others take place. An invariant
that a session keeps to is kept by whatever is requested of it, and every evaluation on the way is one of a form that
fits, in a frame that is there, while all that is held is there.

* `Session.Reachable`: the sessions that requests lead to.
* `Session.Running`: the evaluations that take place in a session; `Calls`: the calls that a step makes.
* `Session.Called`: what a request for a call comes to.
* `Invariant.Covers`: evaluations in keeping with an invariant, and those that take place inside.
* `Invariant.HoldsIn.perform`, `Session.Reachable.holdsIn`, `Session.Running.covered`: every invariant holds in every
  session, and at every evaluation that takes place in it.
-/

namespace MiniLisp

open Refers (Within)

/-! ## What takes place in a session -/

/-- Whether what a run comes to depends on what an evaluation inside comes to. -/
def Run.Asks {α : Type} (x : Evaluator → Run α) (m : Machine) (ctx : Context) (e : FrameId) (form : Value)
    (n : Machine) : Prop :=
  ∃ recur : Evaluator, x recur m ≠ x evaluate m ∧ ∀ ctx' e' form' n',
    recur ctx' e' form' n' ≠ evaluate ctx' e' form' n' → ctx' = ctx ∧ e' = e ∧ form' = form ∧ n' = n

namespace Session

/-- The sessions that requests lead to, from one that keeps nothing. Between requests the files may change and the
output may be taken away. -/
inductive Reachable : Session → Prop
  | empty (files : Files) : Reachable ⟨.empty, [], files⟩
  | perform {s s' : Session} {recorded : Option Level} {request : Request} {answer : Answer} (h : Reachable s)
    (hr : s.perform recorded request = some (answer, s')) : Reachable s'
  | quiet {s : Session} (h : Reachable s) : Reachable s.quiet
  | files {s : Session} (h : Reachable s) (files : Files) : Reachable { s with files := files }

/-- The evaluations of texts in a frame that is kept, one after another. -/
inductive Texts (s : Session) (recorded : Option Level) : Context → FrameId → Value → Machine → Prop
  | first {name source : String} {e : FrameId} {form : Value} (he : s.frame? name = some e)
    (hf : Value.read? source.toList = .ok form) : Texts s recorded (s.context recorded) e form s.machine
  | next {ctx : Context} {e : FrameId} {form v form' : Value} {m n : Machine} {source : String}
    (h : Texts s recorded ctx e form m) (hr : evaluate ctx e form m = some (.ok v, n))
    (hf : Value.read? source.toList = .ok form') : Texts s recorded (ctx.holdValue v) e form' n

/-- The evaluations that take place while a session carries out a request: that of a text, that of the prelude in a
new root, those that the expansion of a text asks for, those that a step asks for, and those in which others go on. With
each come the frames of the evaluations that wait for it. -/
inductive Running (s : Session) (recorded : Option Level) :
    List FrameId → Context → FrameId → Value → Machine → Prop
  | text {ctx : Context} {e : FrameId} {form : Value} {m : Machine} (h : Texts s recorded ctx e form m) :
    Running s recorded [] ctx e form m
  | expansion {name source : String} {e e' : FrameId} {form form' : Value} {ctx : Context} {n : Machine}
    (he : s.frame? name = some e) (hf : Value.read? source.toList = .ok form)
    (ha : Run.Asks (fun recur => expand recur (s.context recorded) e form) s.machine ctx e' form' n) :
    Running s recorded [] ctx e' form' n
  | prelude {form : Value} (hf : Value.read? (Interpreter.program Interpreter.preludeText).toList = .ok form) :
    Running s recorded [] ((s.context recorded).holdFrame s.machine.frames.size) s.machine.frames.size form
      (s.machine.addFrame (Interpreter.rootBindings s.machine.frames.size) none).2
  | nested {waiting : List FrameId} {ctx ctx' : Context} {e e' : FrameId} {form form' : Value} {m n : Machine}
    (h : Running s recorded waiting ctx e form m)
    (ha : Run.Asks (fun recur => step recur ctx e form) m ctx' e' form' n) :
    Running s recorded (e :: waiting) ctx' e' form' n
  | again {waiting : List FrameId} {ctx : Context} {e e' : FrameId} {form form' : Value} {m n : Machine}
    (h : Running s recorded waiting ctx e form m) (hr : step evaluate ctx e form m = some (.ok (.again e' form'), n)) :
    Running s recorded waiting ctx e' form' n

/-- The numbers of the frames that are kept. -/
def kept (s : Session) : List FrameId := s.handles.map (·.2)

end Session

/-- The calls that a step makes: the form is expanded to a list that is no special form, and its elements are
evaluated. -/
inductive Calls (ctx : Context) (e : FrameId) (form : Value) (m : Machine) :
    Context → Value → List Value → Machine → Prop
  | mk {head f : Value} {operands args : List Value} {m₁ m₂ n : Machine}
    (hx : expand evaluate ctx e form m = some (.ok (.list (head :: operands)), m₁))
    (hs : SpecialForm.ofValue? head = none)
    (hr : Run.recordValue ctx .trace "apply " (.list (head :: operands)) m₁ = some (.ok (), m₂))
    (hv : Step.each evaluate (ctx.hold e (.list (head :: operands))) e (head :: operands) m₂ =
      some (.ok (f :: args), n)) :
    Calls ctx e form m (ctx.hold e (.list (head :: operands))) f args n

theorem Calls.step_eq {ctx c : Context} {e : FrameId} {form f : Value} {args : List Value} {m n : Machine}
    (h : Calls ctx e form m c f args n) : step evaluate ctx e form m = Call.apply evaluate c f args n := by
  obtain ⟨hx, hs, hr, hv⟩ := h
  have parts : ∀ form, step evaluate ctx e form =
      Run.bind (expand evaluate ctx e form) (Step.expanded evaluate ctx e) := fun _ => rfl
  rw [parts, Run.bind_ok hx, Step.expanded_call hs, Run.bind_ok hr]
  exact Run.bind_ok hv

/-! ## Requests for calls -/

namespace Session

/-- What a request for a call comes to: names that spell no parameter list, or a frame that the session does not have, or
an argument that has no value, or arguments that the parameters do not take, or a new frame in which they are bound. -/
inductive Called (s : Session) (recorded : Option Level) (names arguments : List String) (env name : String) :
    Answer → Session → Prop
  | misspelled {fault : ParamsError} (hp : Params.ofNames? names = .error fault) :
    Called s recorded names arguments env name (.badParams fault) s
  | unknownFrame {p : Params} (hp : Params.ofNames? names = .ok p) (he : s.frame? env = none) :
    Called s recorded names arguments env name .unknownFrame s
  | argument {p : Params} {e : FrameId} {fault : Failure} {m : Machine} (hp : Params.ofNames? names = .ok p)
    (he : s.frame? env = some e)
    (ha : evaluateEach (s.context recorded) e arguments s.machine = some (.error fault, m)) :
    Called s recorded names arguments env name (.params p (some fault)) { s with machine := m }
  | refused {p : Params} {e : FrameId} {args : List Value} {fault : EvalError} {m n : Machine}
    (hp : Params.ofNames? names = .ok p) (he : s.frame? env = some e)
    (ha : evaluateEach (s.context recorded) e arguments s.machine = some (.ok args, m))
    (hb : Call.enter p e args m = some (.error fault, n)) :
    Called s recorded names arguments env name (.params p (some (.eval fault))) { s with machine := n }
  | entered {p : Params} {e child : FrameId} {args : List Value} {m n : Machine}
    (hp : Params.ofNames? names = .ok p) (he : s.frame? env = some e)
    (ha : evaluateEach (s.context recorded) e arguments s.machine = some (.ok args, m))
    (hb : Call.enter p e args m = some (.ok child, n)) :
    Called s recorded names arguments env name (.params p none) ({ s with machine := n }.keep name child)

/-- What a `call` request comes to is what `Called` says, case by case. -/
theorem perform_call_iff {s s' : Session} {recorded : Option Level} {names arguments : List String}
    {env name : String} {answer : Answer} :
    s.perform recorded (.call names arguments env name) = some (answer, s') ↔
      s.Called recorded names arguments env name answer s' := by
  constructor
  · intro h
    simp only [perform] at h
    split at h
    · next hp =>
      cases h
      exact .misspelled hp
    · next p hp =>
      unfold within at h
      split at h
      · next e he =>
        dsimp only at h
        split at h
        · cases h
        · next ha =>
          cases h
          exact .argument hp he ha
        · next args m ha =>
          split at h
          · cases h
          · next hb =>
            cases h
            exact .refused hp he ha hb
          · next hb =>
            cases h
            exact .entered hp he ha hb
      · next he =>
        cases h
        exact .unknownFrame hp he
  · intro h
    cases h with
    | misspelled hp => simp only [perform, hp]
    | unknownFrame hp he => simp only [perform, within, hp, he]
    | argument hp he ha => simp only [perform, within, hp, he, ha]
    | refused hp he ha hb => simp only [perform, within, hp, he, ha, hb]
    | entered hp he ha hb => simp only [perform, within, hp, he, ha, hb]

end Session

/-! ## Evaluations in keeping with an invariant -/

/-- An evaluation of a form that fits, in a frame that is there, on a machine that keeps to an invariant, while all that
is held is there, with some frames among it. -/
structure Invariant.Covers (I : Invariant) (base : List FrameId) (ctx : Context) (e : FrameId) (form : Value)
    (m : Machine) : Prop where
  holds : I.Holds m
  context : ctx.Within base (I.has m)
  frame : ⟨.frame, e⟩ ∈ I.has m
  form : I.Fits (I.has m) form

namespace Invariant.Covers

variable {I : Invariant} {base : List FrameId} {ctx ctx' : Context} {e e' : FrameId} {form form' : Value}
  {m n : Machine}

/-- What is true of such evaluations is true of those that a run asks for, if the run is indifferent to others. -/
theorem of_asks {α : Type} {x : Evaluator → Run α}
    (hx : ∀ recur, I.Alike base evaluate recur → x recur m = x evaluate m)
    (ha : Run.Asks x m ctx e form n) : I.Covers base ctx e form n := by
  obtain ⟨recur, differs, only⟩ := ha
  by_contra hn
  -- an evaluator that differs nowhere else goes like evaluation for all that the invariant covers
  refine differs (hx recur fun {S c e₁ form₁} hc he hf k hk hs => ⟨?_, ?_⟩)
  · by_contra hne
    obtain ⟨rfl, rfl, rfl, rfl⟩ := only _ _ _ _ hne
    exact hn ⟨hk, hc.mono hs, hs he, hf.mono hs⟩
  · exact (I.alike_evaluate base hc he hf k hk hs).2

/-- A form met during the expansion is covered where the form is. -/
theorem expansion (h : I.Covers base ctx e form m)
    (ha : Run.Asks (fun recur => expand recur ctx e form) m ctx' e' form' n) : I.Covers base ctx' e' form' n :=
  of_asks (fun _ hr =>
    (Keeps.expand h.context (hr.mono (List.subset_cons_self _ _)) h.frame h.form).same h.holds) ha

/-- While a step asks for evaluations, it holds the frame that it takes place in. -/
theorem nested (h : I.Covers base ctx e form m)
    (ha : Run.Asks (fun recur => step recur ctx e form) m ctx' e' form' n) : I.Covers (e :: base) ctx' e' form' n :=
  of_asks (fun _ hr => (Keeps.step hr h.context h.frame h.form).same h.holds) ha

/-- So is a form that a turn leads to. -/
theorem again (h : I.Covers base ctx e form m)
    (hr : step evaluate ctx e form m = some (.ok (.again e' form'), n)) : I.Covers base ctx e' form' n := by
  obtain ⟨holds, more, ht⟩ :=
    (Keeps.step (I.alike_evaluate (e :: base)) h.context h.frame h.form).ends h.holds hr
  obtain ⟨frame, form⟩ : I.FitsTurn (I.has n) (Turn.again e' form') := ht _ rfl
  exact ⟨holds, h.context.mono more, frame, form⟩

/-- An evaluation that is covered ends as the invariant says. -/
theorem evaluate_ends (h : I.Covers base ctx e form m) {r : Except EvalError Value}
    (hr : evaluate ctx e form m = some (r, n)) : I.Ends I.Fits m r n :=
  Invariant.evaluate_ends h.holds (Set.Subset.refl _) h.context h.frame h.form hr

/-- Calls are made of what fits, while the frame is held. -/
theorem calls {c : Context} {f : Value} {args : List Value} (h : I.Covers base ctx e form m)
    (hc : Calls ctx e form m c f args n) :
    I.Holds n ∧ c.Within (e :: base) (I.has n) ∧ I.Fits (I.has n) f ∧ I.FitsAll (I.has n) args := by
  obtain @⟨head, f, operands, args, m₁, m₂, n, hx, -, hr, hv⟩ := hc
  have alike : I.Alike (e :: base) evaluate evaluate := I.alike_evaluate (e :: base)
  obtain ⟨holds₁, more₁, hform⟩ := (Keeps.expand h.context alike h.frame h.form).ends h.holds hx
  obtain ⟨holds₂, more₂, -⟩ := (Keeps.record ctx .trace _).ends holds₁ hr
  have more := more₁.trans more₂
  have call : I.Fits (I.has m₂) (.list (head :: operands)) := (hform _ rfl).mono more₂
  have held : (ctx.hold e (.list (head :: operands))).Within (e :: base) (I.has m₂) :=
    (h.context.mono more).inside (more h.frame) call.within
  obtain ⟨holds, more', hvs⟩ := (Keeps.each alike held (more h.frame) ((I.fits _).list.1 call)).ends holds₂ hv
  obtain ⟨callee, arguments⟩ := List.forall_mem_cons.1 (hvs _ rfl)
  exact ⟨holds, held.mono more', callee, arguments⟩

end Invariant.Covers

/-! ## New roots -/

namespace Invariant.Keeps

variable {I : Invariant} {S : Set Ref} {ctx : Context} {base : List FrameId}

/-- A new root refers to nothing but itself. -/
theorem addRoot :
    I.Keeps (fun T root => ⟨.frame, root⟩ ∈ T) S
      (Run.change fun m => m.addFrame (Interpreter.rootBindings m.frames.size) none)
      (Run.change fun m => m.addFrame (Interpreter.rootBindings m.frames.size) none) := by
  refine change fun m hm _ => ⟨hm.addFrame (fun b hb => ?_) (fun _ ho => nomatch ho),
    I.has_frame Array.getElem?_push_size⟩
  simp only [Interpreter.rootBindings, List.mem_append, List.mem_map, List.mem_singleton] at hb
  rcases hb with (⟨b, -, rfl⟩ | ⟨b, -, rfl⟩) | rfl
  · exact .builtin b
  · exact .rooted b (I.newRoot m)
  · exact (I.fits _).list.2 (by simp)

theorem loadPrelude (hc : ctx.Within base S) {root : FrameId} (hr : ⟨.frame, root⟩ ∈ S) :
    I.Keeps Anything S (Interpreter.loadPrelude ctx root) (Interpreter.loadPrelude ctx root) := by
  rw [Interpreter.loadPrelude_of_read? read?_prelude]
  have data := (I.fits S).data (Value.isData_of_read? read?_prelude)
  exact (I.alike_evaluate base hc hr data).bind fun _ _ _ _ => record ctx .debug _

/-- A new root is there, with the prelude's definitions in it. -/
theorem newRoot (hc : ctx.Within base S) :
    I.Keeps (fun T root => ⟨.frame, root⟩ ∈ T) S (Interpreter.newRoot ctx) (Interpreter.newRoot ctx) := by
  have parts : Interpreter.newRoot ctx =
      Run.bind (Run.change fun m => m.addFrame (Interpreter.rootBindings m.frames.size) none) fun root =>
        Run.bind (Interpreter.loadPrelude (ctx.holdFrame root) root) fun _ => Run.pure root := rfl
  rw [parts]
  refine addRoot.bind fun _ hs root hr => ?_
  exact (loadPrelude ((hc.mono hs).holdFrame hr) hr).bind fun _ hs' _ _ => pure fun _ hs'' => hs'' (hs' hr)

theorem fetch (e : FrameId) (name : String) :
    I.Keeps I.Fits S (Session.fetch e name) (Session.fetch e name) := by
  unfold Session.fetch
  refine (lookup e name).bind fun _ _ v hv => ?_
  cases v with
  | none => exact fail _
  | some v => exact value (hv v rfl)

end Invariant.Keeps

/-! ## Outcomes of requests -/

/-- Whatever becomes of a request, it ends on a machine that keeps to the invariant. -/
def Outcome.Keeps {α : Type} (I : Invariant) (P : Set Ref → α → Prop) (m : Machine) (out : Outcome α) : Prop :=
  ∀ (r : Except Failure α) (m' : Machine), out = some (r, m') → I.Ends P m r m'

namespace Outcome.Keeps

open Invariant (Anything)

variable {α β : Type} {I : Invariant} {P : Set Ref → α → Prop} {m : Machine}

theorem fault (hm : I.Holds m) (fault : Failure) : Outcome.Keeps I P m (some (.error fault, m)) := by
  intro r m' hr
  cases hr
  exact ⟨hm, Set.Subset.refl _, .error fault⟩

/-- A run as the interpreter's entry points end it. -/
theorem ofRun {x : Run α} (h : I.Keeps P (I.has m) x x) (hm : I.Holds m) :
    Outcome.Keeps I P m (Interpreter.ofRun x m) := by
  intro r m' hr
  obtain ⟨⟨out, n⟩, hx, hr⟩ := Option.map_eq_some_iff.1 hr
  obtain ⟨holds, more, ha⟩ := h.ends hm hx
  cases out with
  | ok a =>
    cases hr
    exact ⟨holds, more, .ok (ha a rfl)⟩
  | error fault =>
    cases hr
    exact ⟨holds, more, .error _⟩

/-- A form that is read is data. -/
theorem withForm {go : Value → Machine → Outcome α} (source : String) (hm : I.Holds m)
    (h : ∀ form, I.Fits (I.has m) form → Outcome.Keeps I P m (go form m)) :
    Outcome.Keeps I P m (Interpreter.withForm source go m) := by
  unfold Interpreter.withForm
  split
  · exact fault hm _
  · next form hf => exact h form ((I.fits _).data (Value.isData_of_read? hf))

section

variable {ctx : Context} {base : List FrameId} {e : FrameId} (hc : ctx.Within base (I.has m))
  (he : ⟨.frame, e⟩ ∈ I.has m) (hm : I.Holds m)
include hc he hm

theorem evaluateText (source : String) : Outcome.Keeps I I.Fits m (Interpreter.evaluateText ctx e source m) :=
  withForm source hm fun _ hf => ofRun (I.alike_evaluate base hc he hf) hm

theorem expansion {form : Value} (hf : I.Fits (I.has m) form) :
    Outcome.Keeps I Anything m (Session.expansion ctx e form m) := by
  intro r m' hr
  obtain ⟨⟨out, n⟩, hx, hr⟩ := Option.map_eq_some_iff.1 hr
  obtain ⟨holds, more, -⟩ := (Invariant.Keeps.expand hc (I.alike_evaluate (e :: base)) he hf).ends hm hx
  cases hr
  exact ⟨holds, more, fun _ _ => trivial⟩

/-- Texts evaluated one after the other, each in the machine that the one before has left. -/
theorem evaluateEach (sources : List String) :
    Outcome.Keeps I I.FitsAll m (Session.evaluateEach ctx e sources m) := by
  induction sources generalizing ctx m with
  | nil =>
    intro r m' hr
    cases hr
    exact ⟨hm, Set.Subset.refl _, .ok (List.forall_mem_nil _)⟩
  | cons source rest ih =>
    intro r m' hr
    rcases Session.evaluateEach_cons_eq_some hr with ⟨fault, first, rfl⟩ | ⟨v, n, r', first, others, rfl⟩
    · obtain ⟨holds, more, -⟩ := evaluateText hc he hm source _ _ first
      exact ⟨holds, more, .error fault⟩
    · obtain ⟨holds, more, hv⟩ := evaluateText hc he hm source _ _ first
      have first := hv v rfl
      obtain ⟨holds', more', hvs⟩ := ih ((hc.mono more).holdValue first.within) (more he) holds _ _ others
      exact ⟨holds', more.trans more', hvs.map fun _ h => List.forall_mem_cons.2 ⟨first.mono more', h⟩⟩

end

end Outcome.Keeps

/-! ## Sessions that keep to an invariant -/

/-- The machine keeps to the invariant, and the frames that are kept are there. -/
structure Invariant.HoldsIn (I : Invariant) (s : Session) : Prop where
  machine : I.Holds s.machine
  frames {e : FrameId} (h : e ∈ s.kept) : ⟨.frame, e⟩ ∈ I.has s.machine

namespace Session

/-- A frame that has a name in the session is kept. -/
theorem mem_kept {s : Session} {name : String} {e : FrameId} (h : s.frame? name = some e) : e ∈ s.kept := by
  have found : ∀ hs : List (String × FrameId), hs.lookup name = some e → e ∈ hs.map (·.2) := by
    intro hs
    induction hs with
    | nil => intro h; cases h
    | cons entry hs ih =>
      intro h
      rw [List.lookup_cons] at h
      split at h
      · cases h
        exact List.mem_cons_self
      · exact List.mem_cons_of_mem _ (ih h)
  exact found _ h

end Session

namespace Invariant.HoldsIn

variable {I : Invariant} {s s' : Session} {recorded : Option Level} {answer : Answer}

/-- The context of a request holds frames that are there. -/
theorem context (h : I.HoldsIn s) (recorded : Option Level) : (s.context recorded).Within s.kept (I.has s.machine) :=
  ⟨fun _ he => he, h.frames, fun hv => nomatch hv⟩

theorem frame (h : I.HoldsIn s) {name : String} {e : FrameId} (he : s.frame? name = some e) :
    ⟨.frame, e⟩ ∈ I.has s.machine :=
  h.frames (Session.mem_kept he)

theorem update (h : I.HoldsIn s) {m : Machine} (hm : I.Holds m) (more : I.has s.machine ⊆ I.has m) :
    I.HoldsIn { s with machine := m } :=
  ⟨hm, fun he => more (h.frames he)⟩

theorem forget (h : I.HoldsIn s) (name : String) : I.HoldsIn (s.forget name) :=
  ⟨h.machine, fun he => h.frames (List.map_subset _ (List.filter_subset_self _) he)⟩

/-- A frame that is there may be given a name. -/
theorem keep (h : I.HoldsIn s) (name : String) {e : FrameId} (he : ⟨.frame, e⟩ ∈ I.has s.machine) :
    I.HoldsIn (s.keep name e) := by
  refine ⟨h.machine, fun hx => ?_⟩
  rcases List.mem_cons.1 hx with rfl | hx
  · exact he
  · exact (h.forget name).frames hx

theorem conclude (h : I.HoldsIn s) {α : Type} {P : Set Ref → α → Prop} {f : Machine → α → Answer} {out : Outcome α}
    (ho : out.Keeps I P s.machine) (hr : s.conclude f out = some (answer, s')) : I.HoldsIn s' := by
  obtain ⟨⟨r, m⟩, rfl, hr⟩ := Option.map_eq_some_iff.1 hr
  obtain ⟨holds, more, -⟩ := ho r m rfl
  cases r <;> cases hr <;> exact h.update holds more

theorem within (h : I.HoldsIn s) {name : String} {go : FrameId → Option (Answer × Session)}
    (hgo : ∀ e, s.frame? name = some e → go e = some (answer, s') → I.HoldsIn s')
    (hr : s.within name go = some (answer, s')) : I.HoldsIn s' := by
  unfold Session.within at hr
  split at hr
  · next e he => exact hgo e he hr
  · cases hr
    exact h

/-- A new frame of the session. -/
theorem addFrame (h : I.HoldsIn s) (name : String) {outer : Option FrameId}
    (ho : ∀ o, outer = some o → ⟨.frame, o⟩ ∈ I.has s.machine) :
    I.HoldsIn ({ s with machine := (s.machine.addFrame [] outer).2 }.keep name (s.machine.addFrame [] outer).1) := by
  have empty : ∀ b ∈ ([] : Bindings), I.Fits (I.has (s.machine.addFrame [] outer).2) b.2 := by simp
  obtain ⟨holds, more⟩ := h.machine.addFrame empty ho
  exact (h.update holds more).keep name (I.has_frame Array.getElem?_push_size)

/-- A `call` request keeps the invariant, in each of the ways it can come out. -/
theorem called {names arguments : List String} {env name : String} (h : I.HoldsIn s)
    (hr : s.Called recorded names arguments env name answer s') : I.HoldsIn s' := by
  have each {e : FrameId} (he : s.frame? env = some e) :=
    Outcome.Keeps.evaluateEach (h.context recorded) (h.frame he) h.machine arguments
  cases hr with
  | misspelled => exact h
  | unknownFrame => exact h
  | argument _ he ha =>
    obtain ⟨holds, more, -⟩ := each he _ _ ha
    exact h.update holds more
  | @refused p e args _ _ _ _ he ha hb =>
    obtain ⟨holds, more, hargs⟩ := each he _ _ ha
    obtain ⟨holds', more', -⟩ := (Keeps.enter p (more (h.frame he)) (hargs args rfl)).ends holds hb
    exact h.update holds' (more.trans more')
  | @entered p e child args _ _ _ he ha hb =>
    obtain ⟨holds, more, hargs⟩ := each he _ _ ha
    obtain ⟨holds', more', hchild⟩ := (Keeps.enter p (more (h.frame he)) (hargs args rfl)).ends holds hb
    exact (h.update holds' (more.trans more')).keep name (hchild child rfl)

/-- **Requests** keep every invariant. -/
theorem perform (h : I.HoldsIn s) {request : Request} (hr : s.perform recorded request = some (answer, s')) :
    I.HoldsIn s' := by
  have hc := h.context recorded
  cases request with
  | eval source env sorted =>
    refine h.within (fun e he hr => ?_) hr
    exact h.conclude (.evaluateText hc (h.frame he) h.machine source) hr
  | expand source env =>
    refine h.within (fun e he hr => ?_) hr
    exact h.conclude (.withForm source h.machine fun form hf => .expansion hc (h.frame he) h.machine hf) hr
  | create name bare =>
    cases bare with
    | true =>
      cases hr
      exact h.addFrame name fun _ ho => nomatch ho
    | false =>
      obtain ⟨⟨r, m⟩, made, hr⟩ := Option.map_eq_some_iff.1 hr
      obtain ⟨holds, more, hroot⟩ := (Keeps.newRoot hc).ends h.machine made
      cases r with
      | ok e =>
        cases hr
        exact (h.update holds more).keep name (hroot e rfl)
      | error fault =>
        cases hr
        exact h.update holds more
  | child name parent =>
    refine h.within (fun e he hr => ?_) hr
    cases hr
    exact h.addFrame name fun _ ho => by cases ho; exact h.frame he
  | drop name =>
    cases hr
    exact h.forget name
  | set name source env =>
    refine h.within (fun e he hr => ?_) hr
    refine h.conclude (P := I.Fits) (.withForm source h.machine fun form hf => ?_) hr
    refine .ofRun ((I.alike_evaluate s.kept hc (h.frame he) hf).bind fun _ _ v hv => ?_) h.machine
    exact (Keeps.bindName e name hv).bind fun _ hs _ _ => .value (hv.mono hs)
  | bind target source env =>
    refine h.within (fun e he hr => ?_) hr
    refine h.conclude (P := I.Fits) (.withForm target h.machine fun target _ => ?_) hr
    refine .withForm source h.machine fun form hf => ?_
    refine .ofRun ((I.alike_evaluate s.kept hc (h.frame he) hf).bind fun _ _ v hv => ?_) h.machine
    exact (Keeps.bindSymbol e target hv).bind fun _ hs _ _ => .value (hv.mono hs)
  | get name env =>
    refine h.within (fun e _ hr => ?_) hr
    split at hr <;> cases hr <;> exact h
  | fetch name env =>
    exact h.within (fun e _ hr => h.conclude (.ofRun (.fetch e name) h.machine) hr) hr
  | copy name source target =>
    refine h.within (fun e _ hr => h.within (fun e' _ hr => ?_) hr) hr
    refine h.conclude (.ofRun (P := Anything) ((Keeps.fetch e name).bind fun _ _ v hv => ?_) h.machine) hr
    exact Keeps.bindName e' name hv
  | params names =>
    simp only [Session.perform] at hr
    split at hr <;> cases hr <;> exact h
  | call names arguments env name => exact h.called (Session.perform_call_iff.1 hr)
  | describe env =>
    refine h.within (fun e _ hr => ?_) hr
    cases hr
    exact h

end Invariant.HoldsIn

namespace Session

variable {I : Invariant} {s : Session} {recorded : Option Level}

/-- Every invariant holds in every session. -/
theorem Reachable.holdsIn (h : s.Reachable) (I : Invariant) : I.HoldsIn s := by
  induction h with
  | empty files => exact ⟨I.holds_empty, fun he => nomatch he⟩
  | perform _ hr ih => exact ih.perform hr
  | @quiet s _ ih =>
    have kept : I.Holds s.quiet.machine ∧ I.has s.machine ⊆ I.has s.quiet.machine :=
      ih.machine.of_eq rfl rfl (Nat.le_refl _)
    exact ih.update kept.1 kept.2
  | files _ _ ih => exact ⟨ih.machine, ih.frames⟩

/-- A session starts with a new root. -/
theorem reachable_start {files : Files} (h : start files recorded = some (.ok s)) : Reachable s := by
  obtain ⟨⟨r, m⟩, booted, hr⟩ := Option.map_eq_some_iff.1 h
  obtain ⟨⟨out, n⟩, made, hout⟩ := Option.map_eq_some_iff.1 booted
  cases out with
  | error fault =>
    cases hout
    cases hr
  | ok e =>
    cases hout
    cases hr
    have created : perform ⟨.empty, [], files⟩ recorded (.create mainName false) =
        some (.done, ⟨m, [(mainName, e)], files⟩) := by
      change (Interpreter.newRoot ⟨files, recorded, .none⟩ Machine.empty).map _ = _
      rw [made]
      rfl
    exact .perform (.empty files) created

variable {waiting : List FrameId} {ctx : Context} {e : FrameId} {form : Value} {m : Machine}

/-- Every text that is being evaluated is covered. -/
theorem Texts.covered (hs : I.HoldsIn s) (h : s.Texts recorded ctx e form m) : I.Covers s.kept ctx e form m := by
  induction h with
  | first he hf =>
    exact ⟨hs.machine, hs.context recorded, hs.frame he, (I.fits _).data (Value.isData_of_read? hf)⟩
  | next _ hr hf ih =>
    obtain ⟨holds, more, hv⟩ := ih.evaluate_ends hr
    exact ⟨holds, (ih.context.mono more).holdValue (hv _ rfl).within, more ih.frame,
      (I.fits _).data (Value.isData_of_read? hf)⟩

/-- Every evaluation takes place in keeping with the invariant, while all that is kept and the frames of the evaluations
that wait for it are held. -/
theorem Running.covered (hs : I.HoldsIn s) (h : s.Running recorded waiting ctx e form m) :
    I.Covers (waiting ++ s.kept) ctx e form m := by
  induction h with
  | text h => exact h.covered hs
  | expansion he hf ha =>
    have text : s.Texts recorded (s.context recorded) _ _ s.machine := .first he hf
    exact (text.covered hs).expansion ha
  | prelude hf =>
    obtain ⟨holds, more, hroot⟩ := Invariant.Keeps.addRoot.ends hs.machine rfl
    have there := hroot _ rfl
    exact ⟨holds, ((hs.context recorded).mono more).holdFrame there, there,
      (I.fits _).data (Value.isData_of_read? hf)⟩
  | nested _ ha ih => exact ih.nested ha
  | again _ hr ih => exact ih.again hr

end Session

end MiniLisp
