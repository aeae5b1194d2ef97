import MiniLisp.Proofs.Adequacy
import MiniLisp.Proofs.Growth

/-!
# Expansion reaches a form that is no macro call

Each expansion runs a macro, and that may bind anything anew, the macros that are expanded among them. So the forms on
the way are taken together with the machine that is found there (`Expansions`), and the last one is no macro call in
the machine that is left behind.

* `ExpansionEnd`: how expansion ends at a form, with so many expansions left.
* `expandWithin_iff`: expansion follows the forms on the way to such an end.
* `evaluate_eq_expand`: evaluation is expansion, with evaluation of what that comes to.
-/

namespace MiniLisp

/-- A form and the one that some expansions in a row lead to. The form in between is what the macro that is called
comes to. -/
inductive Expansions (ctx : Context) (e : FrameId) : Nat → Value → Machine → Value → Machine → Prop
  | none {form m} : Expansions ctx e 0 form m form m
  | once {k form f operands form' last m m₁ m₂ m'} (hc : m.macroCall? e form = some (f, operands))
      (ha : Call.finish evaluate (ctx.holdValue form) f operands m = some (.ok form', m₁))
      (hr : Recorded ctx .trace (Message.value "macroexpand produced " form') m₁ m₂)
      (hs : Expansions ctx e k form' m₂ last m') :
      Expansions ctx e (k + 1) form m last m'

/-- How expansion ends at a form, with so many expansions left; `none` if it does not end. -/
inductive ExpansionEnd (ctx : Context) (e : FrameId) :
    Nat → Value → Machine → Option (Except EvalError Value × Machine) → Prop
  | done {n form m} (hc : m.macroCall? e form = none) : ExpansionEnd ctx e n form m (some (.ok form, m))
  | limit {form call m} (hc : m.macroCall? e form = some call) :
      ExpansionEnd ctx e 0 form m (some (.error (.expansionLimit maxExpansions), m))
  | fails {n form f operands fault m m'} (hc : m.macroCall? e form = some (f, operands))
      (ha : Call.finish evaluate (ctx.holdValue form) f operands m = some (.error fault, m')) :
      ExpansionEnd ctx e (n + 1) form m (some (.error fault, m'))
  | endless {n form f operands m} (hc : m.macroCall? e form = some (f, operands))
      (ha : Call.finish evaluate (ctx.holdValue form) f operands m = none) :
      ExpansionEnd ctx e (n + 1) form m none
  | endlessRecord {n form f operands form' m m'} (hc : m.macroCall? e form = some (f, operands))
      (ha : Call.finish evaluate (ctx.holdValue form) f operands m = some (.ok form', m'))
      (hr : Run.record ctx .trace (Message.value "macroexpand produced " form') m' = none) :
      ExpansionEnd ctx e (n + 1) form m none

variable {ctx : Context} {e : FrameId} {form last : Value} {m m' : Machine}

/-! ## Expansion step by step -/

/-- A record is made or never ends. -/
theorem recorded_or_none (ctx : Context) (level : Level) (message : Message) (m : Machine) :
    (∃ m', Recorded ctx level message m m') ∨ Run.record ctx level message m = none := by
  cases hr : Run.record ctx level message m with
  | none => exact .inr rfl
  | some r =>
    have both : Run.bind (Run.record ctx level message) Run.pure m = some r := by
      change (Run.record ctx level message >>= pure) m = some r
      rw [bind_pure, hr]
    obtain ⟨m', hm, -⟩ := of_record both
    exact .inl ⟨m', hm⟩

theorem Expansions.expandWithin {k : Nat} (h : Expansions ctx e k form m last m') (n : Nat) :
    expandWithin evaluate ctx e (k + n) form m = MiniLisp.expandWithin evaluate ctx e n last m' := by
  induction h with
  | none => rw [Nat.zero_add]
  | @once k _ _ _ _ _ _ _ _ _ hc ha hr _ ih =>
    rw [Nat.add_right_comm k 1 n, expandWithin_succ hc, Run.bind_ok ha]
    exact (Run.bind_ok hr).trans ih

theorem ExpansionEnd.expandWithin {n : Nat} {r : Option (Except EvalError Value × Machine)}
    (h : ExpansionEnd ctx e n form m r) : expandWithin evaluate ctx e n form m = r := by
  cases h with
  | done hc => exact expandWithin_of_none hc
  | limit hc => exact expandWithin_zero hc
  | fails hc ha => rw [expandWithin_succ hc, Run.bind_error ha]
  | endless hc ha =>
    rw [expandWithin_succ hc]
    unfold Run.bind
    rw [ha]
  | endlessRecord hc ha hr =>
    rw [expandWithin_succ hc, Run.bind_ok ha]
    change Run.bind (Run.record _ _ _) _ _ = none
    unfold Run.bind
    rw [hr]

/-- However many expansions are allowed, the forms on the way come to an end. -/
theorem expansions_end (ctx : Context) (e : FrameId) (n : Nat) (form : Value) (m : Machine) :
    ∃ k remaining last m' r, k + remaining = n ∧ Expansions ctx e k form m last m' ∧
      ExpansionEnd ctx e remaining last m' r := by
  induction n generalizing form m with
  | zero =>
    cases hc : m.macroCall? e form with
    | none => exact ⟨0, 0, form, m, _, rfl, .none, .done hc⟩
    | some call => exact ⟨0, 0, form, m, _, rfl, .none, .limit hc⟩
  | succ n ih =>
    have here {r} (h : ExpansionEnd ctx e (n + 1) form m r) : ∃ k remaining last m' r, k + remaining = n + 1 ∧
        Expansions ctx e k form m last m' ∧ ExpansionEnd ctx e remaining last m' r :=
      ⟨0, n + 1, form, m, r, Nat.zero_add _, .none, h⟩
    cases hc : m.macroCall? e form with
    | none => exact here (.done hc)
    | some call =>
      obtain ⟨f, operands⟩ := call
      cases ha : Call.finish evaluate (ctx.holdValue form) f operands m with
      | none => exact here (.endless hc ha)
      | some out =>
        obtain ⟨fault | form', m₁⟩ := out
        · exact here (.fails hc ha)
        · rcases recorded_or_none ctx .trace (Message.value "macroexpand produced " form') m₁ with ⟨m₂, hr⟩ | hr
          · obtain ⟨k, remaining, last, m', r, rfl, steps, ends⟩ := ih form' m₂
            exact ⟨k + 1, remaining, last, m', r, Nat.add_right_comm k 1 remaining, .once hc ha hr steps, ends⟩
          · exact here (.endlessRecord hc ha hr)

/-- Expansion follows the forms on the way to their end, and does nothing else. -/
theorem expandWithin_iff {n : Nat} {r : Option (Except EvalError Value × Machine)} :
    expandWithin evaluate ctx e n form m = r ↔ ∃ k remaining last m', k + remaining = n ∧
      Expansions ctx e k form m last m' ∧ ExpansionEnd ctx e remaining last m' r := by
  constructor
  · rintro rfl
    obtain ⟨k, remaining, last, m', r, rfl, steps, ends⟩ := expansions_end ctx e n form m
    refine ⟨k, remaining, last, m', rfl, steps, ?_⟩
    rwa [steps.expandWithin, ends.expandWithin]
  · rintro ⟨k, remaining, last, m', rfl, steps, ends⟩
    rw [steps.expandWithin, ends.expandWithin]

theorem expand_ok_iff : expand evaluate ctx e form m = some (.ok last, m') ↔
    ∃ k ≤ maxExpansions, Expansions (ctx.hold e form) e k form m last m' ∧ m'.macroCall? e last = none := by
  constructor
  · intro h
    obtain ⟨k, remaining, form', m₁, total, steps, ends⟩ := expandWithin_iff.1 h
    cases ends with
    | done hc => exact ⟨k, by omega, steps, hc⟩
  · rintro ⟨k, hk, steps, hc⟩
    exact expandWithin_iff.2 ⟨k, maxExpansions - k, last, m', by omega, steps, .done hc⟩

theorem expand_error_iff {fault : EvalError} : expand evaluate ctx e form m = some (.error fault, m') ↔
    (fault = .expansionLimit maxExpansions ∧ ∃ last, Expansions (ctx.hold e form) e maxExpansions form m last m' ∧
      (m'.macroCall? e last).isSome = true) ∨
    ∃ k < maxExpansions, ∃ last m₁ f operands, Expansions (ctx.hold e form) e k form m last m₁ ∧
      m₁.macroCall? e last = some (f, operands) ∧
      Call.finish evaluate ((ctx.hold e form).holdValue last) f operands m₁ = some (.error fault, m') := by
  constructor
  · intro h
    obtain ⟨k, remaining, form', m₁, total, steps, ends⟩ := expandWithin_iff.1 h
    cases ends with
    | limit hc =>
      obtain rfl : k = maxExpansions := total
      exact .inl ⟨rfl, form', steps, by rw [hc]; rfl⟩
    | @fails n _ f operands _ _ _ hc ha => exact .inr ⟨k, by omega, form', m₁, f, operands, steps, hc, ha⟩
  · rintro (⟨rfl, last, steps, hc⟩ | ⟨k, hk, last, m₁, f, operands, steps, hc, ha⟩)
    · obtain ⟨call, hc⟩ := Option.isSome_iff_exists.1 hc
      exact expandWithin_iff.2 ⟨maxExpansions, 0, last, m', rfl, steps, .limit hc⟩
    · exact expandWithin_iff.2 ⟨k, maxExpansions - k - 1 + 1, last, m₁, by omega, steps, .fails hc ha⟩

theorem expand_none_iff : expand evaluate ctx e form m = none ↔
    ∃ k < maxExpansions, ∃ last m₁ f operands, Expansions (ctx.hold e form) e k form m last m₁ ∧
      m₁.macroCall? e last = some (f, operands) ∧
      (Call.finish evaluate ((ctx.hold e form).holdValue last) f operands m₁ = none ∨
        ∃ form' m₂, Call.finish evaluate ((ctx.hold e form).holdValue last) f operands m₁ = some (.ok form', m₂) ∧
          Run.record ctx .trace (Message.value "macroexpand produced " form') m₂ = none) := by
  constructor
  · intro h
    obtain ⟨k, remaining, form', m₁, total, steps, ends⟩ := expandWithin_iff.1 h
    cases ends with
    | @endless n _ f operands _ hc ha => exact ⟨k, by omega, form', m₁, f, operands, steps, hc, .inl ha⟩
    | @endlessRecord n _ f operands made _ m₂ hc ha hr =>
      exact ⟨k, by omega, form', m₁, f, operands, steps, hc, .inr ⟨made, m₂, ha, hr⟩⟩
  · rintro ⟨k, hk, last, m₁, f, operands, steps, hc, ha | ⟨form', m₂, ha, hr⟩⟩
    · exact expandWithin_iff.2 ⟨k, maxExpansions - k - 1 + 1, last, m₁, by omega, steps, .endless hc ha⟩
    · exact expandWithin_iff.2 ⟨k, maxExpansions - k - 1 + 1, last, m₁, by omega, steps, .endlessRecord hc ha hr⟩

/-! ## Expansion and evaluation -/

theorem expand_of_none (h : m.macroCall? e form = none) (recur : Evaluator) (ctx : Context) :
    expand recur ctx e form m = some (.ok form, m) := expandWithin_of_none h

/-- What expansion comes to is not expanded any further. -/
theorem expand_again (h : expand evaluate ctx e form m = some (.ok last, m')) (c : Context) :
    expand evaluate c e last m' = some (.ok last, m') := by
  obtain ⟨k, -, -, hc⟩ := expand_ok_iff.1 h
  exact expand_of_none hc evaluate c

/-- A form is evaluated like what it expands to, once it is expanded. -/
theorem evaluate_eq_expand (ctx : Context) (e : FrameId) (form : Value) :
    evaluate ctx e form = Run.bind (expand evaluate ctx e form) (evaluate ctx e) := by
  funext m
  rw [evaluate_eq, advance, step]
  change Run.bind (Run.bind (expand evaluate ctx e form) (Step.expanded evaluate ctx e)) _ m = _
  rw [Run.bind_assoc]
  cases hx : expand evaluate ctx e form m with
  | none =>
    unfold Run.bind
    rw [hx]
  | some out =>
    obtain ⟨fault | last, m'⟩ := out
    · rw [Run.bind_error hx, Run.bind_error hx]
    · rw [Run.bind_ok hx, Run.bind_ok hx, evaluate_eq, advance, step]
      exact (Run.bind_congr (Run.bind_ok (expand_again hx ctx)) _).symm

/-- **Expansion reaches a fixpoint.** What it comes to is no macro call in the machine that is left behind, and
expanding it again does nothing. It applies macros no more than `maxExpansions` times in a row: it comes to a value when
the forms on the way end within that many, fails with the limit when that many expansions leave a macro call, and
fails as one of the macros does otherwise, be it with the limit of an expansion inside; and it goes on for ever only
where one of these macros does, or the record of what the macro came to. Evaluation is expansion, with evaluation of
what that comes to. -/
theorem expansion_reaches_a_fixpoint :
    (∀ (ctx : Context) (e : FrameId) (form last : Value) (m m' : Machine),
      expand evaluate ctx e form m = some (.ok last, m') →
        m'.macroCall? e last = none ∧ ∀ c, expand evaluate c e last m' = some (.ok last, m')) ∧
    (∀ (ctx : Context) (e : FrameId) (form last : Value) (m m' : Machine),
      expand evaluate ctx e form m = some (.ok last, m') ↔
        ∃ k ≤ maxExpansions, Expansions (ctx.hold e form) e k form m last m' ∧ m'.macroCall? e last = none) ∧
    (∀ (ctx : Context) (e : FrameId) (form : Value) (fault : EvalError) (m m' : Machine),
      expand evaluate ctx e form m = some (.error fault, m') ↔
        (fault = .expansionLimit maxExpansions ∧ ∃ last,
          Expansions (ctx.hold e form) e maxExpansions form m last m' ∧ (m'.macroCall? e last).isSome = true) ∨
        ∃ k < maxExpansions, ∃ last m₁ f operands, Expansions (ctx.hold e form) e k form m last m₁ ∧
          m₁.macroCall? e last = some (f, operands) ∧
          Call.finish evaluate ((ctx.hold e form).holdValue last) f operands m₁ = some (.error fault, m')) ∧
    (∀ (ctx : Context) (e : FrameId) (form : Value) (m : Machine), expand evaluate ctx e form m = none ↔
      ∃ k < maxExpansions, ∃ last m₁ f operands, Expansions (ctx.hold e form) e k form m last m₁ ∧
        m₁.macroCall? e last = some (f, operands) ∧
        (Call.finish evaluate ((ctx.hold e form).holdValue last) f operands m₁ = none ∨
          ∃ form' m₂, Call.finish evaluate ((ctx.hold e form).holdValue last) f operands m₁ = some (.ok form', m₂) ∧
            Run.record ctx .trace (Message.value "macroexpand produced " form') m₂ = none)) ∧
    ∀ (ctx : Context) (e : FrameId) (form : Value) (m : Machine),
      evaluate ctx e form m = Run.bind (expand evaluate ctx e form) (evaluate ctx e) m := by
  refine ⟨fun ctx e form last m m' h => ⟨?_, expand_again h⟩, fun _ _ _ _ _ _ => expand_ok_iff,
    fun _ _ _ _ _ _ => expand_error_iff, fun _ _ _ _ => expand_none_iff,
    fun ctx e form m => congrFun (evaluate_eq_expand ctx e form) m⟩
  obtain ⟨k, -, -, hc⟩ := expand_ok_iff.1 h
  exact hc

/-! ## Macros that expand inside one another -/

/-- A macro that comes to a value which its body quotes. -/
def quoting (v : Value) : Value := .closure 0 ⟨[], none⟩ v.quoted 0 true

/-- The form `(forever)`. -/
def foreverForm : Value := .list [.symbol "forever"]

/-- A macro whose body is such a call. -/
def delegating : Value := .closure 0 ⟨[], none⟩ foreverForm 0 true

/-- A root with the macro `f`, which comes to 7, the macro `forever`, which comes to a call of itself, and the macro
`m`, which only calls that one. -/
def macroRoot : Frame :=
  ⟨[("f", quoting (.int 7)), ("forever", quoting foreverForm), ("m", delegating)], none⟩

def macroMachine : Machine := ⟨#[macroRoot], #[], 1, "", #[]⟩

/-- The form `(m)`. -/
def delegatingForm : Value := .list [.symbol "m"]

theorem recorded_of_none (h : ctx.recorded = none) (level : Level) (message : Message) (m : Machine) :
    Recorded ctx level message m m := by
  unfold Recorded Run.record Context.records
  rw [h]
  rfl

section

variable (hc : ctx.recorded = none) (hm : m.frames[0]? = some macroRoot)
include hm

theorem lookup_below (he : m.frames[e]? = some ⟨[], some 0⟩) (name : String) :
    m.lookup e name = macroRoot.bindings.find? name := by
  have below : 0 < e := Nat.pos_of_ne_zero (by rintro rfl; cases he.symm.trans hm)
  exact Machine.lookup_child he hm below name

include hc

/-- A macro that quotes leaves nothing but its frame behind. -/
theorem finish_quoting (v : Value) :
    Call.finish evaluate ctx (quoting v) [] m = some (.ok v, (m.addFrame [] (some 0)).2) := by
  have root : (m.addFrame [] (some 0)).2.frames[0]? = some macroRoot :=
    (Machine.ChangesOnly.addFrame m [] (some 0) []).frame hm (by simp)
  have frame : (m.addFrame [] (some 0)).2.frames[m.frames.size]? = some ⟨[], some 0⟩ := Array.getElem?_push_size
  have noCall : (m.addFrame [] (some 0)).2.macroCall? m.frames.size v.quoted = none := by
    unfold Value.quoted Machine.macroCall?
    simp only [lookup_below root frame]
    rfl
  have body : Evaluates (ctx.holdCall (quoting v) [] m.frames.size v.quoted) m.frames.size v.quoted
      (m.addFrame [] (some 0)).2 [] (.ok v, (m.addFrame [] (some 0)).2) :=
    .expanded (t := []) (.done noCall) (.special (recorded_of_none (by exact hc) _ _ _) (by decide) .quote)
  exact Call.finish_iff.2 ⟨[], .closure (recorded_of_none hc _ _ _) (by decide) body⟩

/-- The macro that comes to a call of itself may be expanded any number of times. -/
theorem forever_expansions (he : m.frames[e]? = some ⟨[], some 0⟩) (k : Nat) : ∃ m',
    Expansions ctx e k foreverForm m foreverForm m' ∧ m'.frames[0]? = some macroRoot ∧
      m'.frames[e]? = some ⟨[], some 0⟩ := by
  induction k generalizing m with
  | zero => exact ⟨m, .none, hm, he⟩
  | succ k ih =>
    have kept := Machine.ChangesOnly.addFrame m [] (some 0) []
    obtain ⟨m', steps, hm', he'⟩ := ih (kept.frame hm (by simp)) (kept.frame he (by simp))
    have call : m.macroCall? e foreverForm = some (quoting foreverForm, []) := by
      unfold foreverForm Machine.macroCall?
      simp only [lookup_below hm he]
      rfl
    exact ⟨m', .once call (finish_quoting (by exact hc) hm foreverForm) (recorded_of_none hc _ _ _) steps, hm', he'⟩

end

/-- The macro whose body is a call that never ceases to be one meets the limit inside. -/
theorem finish_delegating (hc : ctx.recorded = none) :
    ∃ m', Call.finish evaluate ctx delegating [] macroMachine =
      some (.error (.expansionLimit maxExpansions), m') := by
  let inner := ctx.holdCall delegating [] 1 foreverForm
  have hc' : (inner.hold 1 foreverForm).recorded = none := hc
  have frame : (macroMachine.addFrame [] (some 0)).2.frames[1]? = some ⟨[], some 0⟩ := rfl
  obtain ⟨m', steps, hm', he'⟩ := forever_expansions hc' rfl frame maxExpansions
  have call : (m'.macroCall? 1 foreverForm).isSome = true := by
    unfold foreverForm Machine.macroCall?
    simp only [lookup_below hm' he']
    rfl
  have inside : expand evaluate inner 1 foreverForm (macroMachine.addFrame [] (some 0)).2 =
      some (.error (.expansionLimit maxExpansions), m') := expand_error_iff.2 (.inl ⟨rfl, foreverForm, steps, call⟩)
  have body : evaluate inner 1 foreverForm (macroMachine.addFrame [] (some 0)).2 =
      some (.error (.expansionLimit maxExpansions), m') := by
    rw [evaluate_eq_expand]
    exact Run.bind_error inside
  have entered : Call.apply evaluate ctx delegating [] macroMachine =
      some (.ok (.again 1 foreverForm), (macroMachine.addFrame [] (some 0)).2) :=
    Run.bind_ok (recorded_of_none hc _ _ _)
  exact ⟨m', (Run.bind_ok entered).trans body⟩

/-- One expansion of `(f)`, and no more. -/
theorem expand_seven :
    expand evaluate firstHeld 0 callForm macroMachine = some (.ok (.int 7), (macroMachine.addFrame [] (some 0)).2) :=
  expand_ok_iff.2 ⟨1, by decide, .once rfl (finish_quoting rfl rfl (.int 7)) rfl .none, rfl⟩

theorem expansion_reaches_a_fixpoint_seven :
    expand evaluate firstHeld 0 callForm macroMachine =
        some (.ok (.int 7), (macroMachine.addFrame [] (some 0)).2) ∧
      (macroMachine.addFrame [] (some 0)).2.macroCall? 0 (.int 7) = none ∧
      evaluate firstHeld 0 callForm macroMachine =
        evaluate firstHeld 0 (.int 7) (macroMachine.addFrame [] (some 0)).2 := by
  obtain ⟨fixed, -, -, -, evaluation⟩ := expansion_reaches_a_fixpoint
  have seven := expand_seven
  exact ⟨seven, (fixed _ _ _ _ _ _ seven).1, (evaluation _ _ _ _).trans (Run.bind_ok seven)⟩

/-- The limit is not only for a chain of that many expansions that succeed: the expansion of `(m)` fails with it though
not a single one does. -/
theorem limit_without_as_many_expansions :
    (∃ m', expand evaluate firstHeld 0 delegatingForm macroMachine =
      some (.error (.expansionLimit maxExpansions), m')) ∧
      ∀ k last m', Expansions (firstHeld.hold 0 delegatingForm) 0 k delegatingForm macroMachine last m' → k = 0 := by
  have unrecorded : ((firstHeld.hold 0 delegatingForm).holdValue delegatingForm).recorded = none := rfl
  obtain ⟨m', fails⟩ := finish_delegating unrecorded
  have call : macroMachine.macroCall? 0 delegatingForm = some (delegating, []) := rfl
  have limit :=
    expand_error_iff.2 (.inr ⟨0, by decide, delegatingForm, macroMachine, delegating, [], .none, call, fails⟩)
  refine ⟨⟨m', limit⟩, fun k last m₁ steps => ?_⟩
  cases steps with
  | none => rfl
  | once hc ha =>
    cases call.symm.trans hc
    cases fails.symm.trans ha

end MiniLisp
