import Mathlib
import MiniLisp.Eval.Evaluate
import MiniLisp.Proofs.Keeps

/-!
# Evaluation keeps invariants

Evaluation on a machine that keeps to an invariant, of a form that fits what is there, leaves such a machine behind and
comes to a value that fits what is there then. The forms inside are evaluated under the same conditions only: how others
would be evaluated makes no difference.

The walk over the interpreter is made once, for all invariants. What evaluates the forms inside is left open on it, and
is found to keep the invariant itself in the end.

* `Context.Within`: contexts that hold nothing but what is there.
* `Invariant.Alike`: two ways to evaluate forms that go alike for all forms and frames that are there.
* `Invariant.Keeps.step`, `Invariant.Alike.advance`, `Invariant.alike_evaluate`: a step, and evaluation.
-/

namespace MiniLisp

open Refers (Within)

/-! ## Contexts and evaluators -/

/-- A context that holds some frames at least, and nothing but what is in a set. -/
structure Context.Within (ctx : Context) (base : List FrameId) (S : Set Ref) : Prop where
  base : base ⊆ ctx.held.frames
  frames {e : FrameId} (h : e ∈ ctx.held.frames) : ⟨.frame, e⟩ ∈ S
  values {v : Value} (h : v ∈ ctx.held.values) : Refers.Within S v

namespace Context.Within

variable {ctx : Context} {base : List FrameId} {S T : Set Ref}

/-- A context within a set is within every larger one. -/
theorem mono (h : ctx.Within base S) (hs : S ⊆ T) : ctx.Within base T :=
  ⟨h.base, fun he => hs (h.frames he), fun hv => (h.values hv).mono hs⟩

/-- A context may hold a frame that is there. -/
theorem holdFrame (h : ctx.Within base S) {e : FrameId} (he : ⟨.frame, e⟩ ∈ S) : (ctx.holdFrame e).Within base S := by
  refine ⟨fun _ hx => List.mem_cons_of_mem _ (h.base hx), fun hx => ?_, h.values⟩
  rcases List.mem_cons.1 hx with rfl | hx
  · exact he
  · exact h.frames hx

/-- A context may hold values that refer only to what is there. -/
theorem holdItems (h : ctx.Within base S) {vs : List Value} (hv : Refers.Within S vs) :
    (ctx.holdItems vs).Within base S :=
  ⟨h.base, h.frames, fun hx => (List.mem_append.1 hx).elim hv.of_mem h.values⟩

theorem holdValue (h : ctx.Within base S) {v : Value} (hv : Refers.Within S v) : (ctx.holdValue v).Within base S :=
  h.holdItems (hv.cons .nil)

theorem hold (h : ctx.Within base S) {e : FrameId} {v : Value} (he : ⟨.frame, e⟩ ∈ S) (hv : Refers.Within S v) :
    (ctx.hold e v).Within base S :=
  (h.holdFrame he).holdValue hv

/-- In an evaluation, the frame that it takes place in is held as well. -/
theorem inside (h : ctx.Within base S) {e : FrameId} {v : Value} (he : ⟨.frame, e⟩ ∈ S) (hv : Refers.Within S v) :
    (ctx.hold e v).Within (e :: base) S :=
  ⟨List.cons_subset_cons e h.base, (h.hold he hv).frames, (h.hold he hv).values⟩

end Context.Within

namespace Invariant

variable {I : Invariant}

/-- Two ways to evaluate forms that go alike where the form fits, and the frame and all that is held are there. -/
def Alike (I : Invariant) (base : List FrameId) (recur recur' : Evaluator) : Prop :=
  ∀ {S : Set Ref} {ctx : Context} {e : FrameId} {form : Value}, ctx.Within base S → ⟨.frame, e⟩ ∈ S →
    I.Fits S form → I.Keeps I.Fits S (recur ctx e form) (recur' ctx e form)

/-- Evaluators that are alike for contexts that hold less are alike for those that hold more. -/
theorem Alike.mono {base base' : List FrameId} {recur recur' : Evaluator} (h : I.Alike base recur recur')
    (hb : base ⊆ base') : I.Alike base' recur recur' :=
  fun hc => h ⟨List.Subset.trans hb hc.base, hc.frames, hc.values⟩

namespace Keeps

variable {base : List FrameId} {S : Set Ref} {ctx : Context} {recur recur' : Evaluator} {e : FrameId}

section

variable (hrec : I.Alike base recur recur')
include hrec

section

variable (hc : ctx.Within base S)
include hc

/-! ## Calls -/

/-- `eval` runs in the root, which is there as it was before; the others are asked of it. -/
theorem inRoot {root : FrameId} (hr : ⟨.frame, root⟩ ∈ S) (b : Rooted) {args : List Value} (h : I.FitsAll S args) :
    I.Keeps I.Fits S (Call.inRoot recur ctx root b args) (Call.inRoot recur' ctx root b args) := by
  unfold Call.inRoot
  split
  · next form =>
    exact (record ctx .info _).bind fun _ hs _ _ => hrec (hc.mono hs) (hs hr) ((Hereditary.head h).mono hs)
  · next cell f args =>
    obtain ⟨hcell, h⟩ := List.forall_mem_cons.1 h
    obtain ⟨hf, h⟩ := List.forall_mem_cons.1 h
    refine (settled (Cell.atom cell)).bind fun T hs a _ => ?_
    split
    · refine (atomValue a).bind fun T' hs' current hv => ?_
      have hs := hs.trans hs'
      have form : I.Fits T' (Call.swapForm cell f current args) :=
        (I.fits T').swapForm (hcell.mono hs) (hf.mono hs) hv (FitsAll.mono h hs)
      refine (record ctx .trace _).bind fun _ hs' _ _ => ?_
      have form := form.mono hs'
      exact hrec (((hc.mono hs).mono hs').holdValue form.within) (hs' (hs hr)) form
    · exact fail _
  · exact fail _

/-- A function of a root that has gone fails on both sides, since contexts that hold the same frames agree on what is
gone. -/
theorem rooted {root : FrameId} (hr : ⟨.root, root⟩ ∈ S) (b : Rooted) {args : List Value} (h : I.FitsAll S args) :
    I.Keeps I.Fits S (Call.rooted recur ctx b root args) (Call.rooted recur' ctx b root args) := by
  refine checkCount _ _ _ fun _ => ?_
  -- the frame of the root is there
  refine (gets (P := fun T _ => ⟨.frame, root⟩ ∈ T) fun m _ hs => I.root (hs hr)).bind fun T hs alive there => ?_
  cases alive with
  | false => exact fail _
  | true =>
    refine (record ctx .trace _).bind fun _ hs' _ _ => ?_
    have hc := (hc.mono hs).mono hs'
    exact inRoot hrec (hc.holdFrame (hs' there)) (hs' there) b (h.mono (hs.trans hs'))

/-- An application gives a value that fits, or a turn in a frame that is there. -/
theorem apply {f : Value} (hf : I.Fits S f) {args : List Value} (h : I.FitsAll S args) :
    I.Keeps I.FitsTurn S (Call.apply recur ctx f args) (Call.apply recur' ctx f args) := by
  cases f with
  | builtin b => exact (builtin b h).bind fun _ _ _ hv => turn hv
  | rooted b root =>
    have hr : ⟨.root, root⟩ ∈ S := hf.within _ List.mem_cons_self
    exact (rooted hrec (hc.holdItems (hf.within.cons (Fits.all h))) hr b h).bind fun _ _ _ hv => turn hv
  | closure id params body captured isMacro =>
    obtain ⟨-, -, captured, hb⟩ := Fits.closure_iff.1 hf
    refine (record ctx .trace _).bind fun _ hs _ _ => ?_
    exact (enter params (hs captured) (h.mono hs)).bind fun _ hs' _ he => turn ⟨he, hb.mono (hs.trans hs')⟩
  | _ => exact fail _

omit hc in
/-- A turn that is taken goes on as the evaluators do. -/
theorem next {after : FrameId → Value → Context} {turn : Turn} (h : I.FitsTurn S turn)
    (hafter : ∀ e form, ⟨.frame, e⟩ ∈ S → Within S form → (after e form).Within base S) :
    I.Keeps I.Fits S (Turn.next recur after turn) (Turn.next recur' after turn) := by
  cases turn with
  | done v => exact value h
  | again e form => exact hrec (hafter e form h.1 h.2.within) h.1 h.2

/-- An application carried to its end, as `swap!` and the expansion of macros need it. -/
theorem finish {f : Value} (hf : I.Fits S f) {args : List Value} (h : I.FitsAll S args) :
    I.Keeps I.Fits S (Call.finish recur ctx f args) (Call.finish recur' ctx f args) := by
  refine (apply hrec hc hf h).bind fun T hs turn ht => next hrec ht fun e form he hform => ?_
  exact ((hc.mono hs).holdItems ((hf.within.cons (Fits.all h)).mono hs)).hold he hform

/-! ## Expansion -/

omit hrec hc in
/-- A macro that is called is there, and fits. -/
theorem macroCall (e : FrameId) {form : Value} (hf : I.Fits S form) :
    I.Keeps (fun T call => ∀ p : Value × List Value, call = some p → I.Fits T p.1 ∧ I.FitsAll T p.2) S
      (Run.gets fun m => m.macroCall? e form) (Run.gets fun m => m.macroCall? e form) :=
  gets fun _ hm hs _ hp => hm.macroCall? hs hf hp

/-- Expansion with `n` steps left, by induction on `n`: what a macro gives back is a form that fits again. -/
theorem expandWithin (e : FrameId) (n : Nat) {form : Value} (hf : I.Fits S form) :
    I.Keeps I.Fits S (expandWithin recur ctx e n form) (expandWithin recur' ctx e n form) := by
  induction n generalizing S form with
  | zero =>
    unfold MiniLisp.expandWithin
    refine (macroCall e hf).bind fun _ hs call _ => ?_
    cases call with
    | none => exact value (hf.mono hs)
    | some call => exact fail _
  | succ n ih =>
    unfold MiniLisp.expandWithin
    refine (macroCall e hf).bind fun T hs call hcall => ?_
    cases call with
    | none => exact value (hf.mono hs)
    | some call =>
      obtain ⟨hm, ho⟩ := hcall call rfl
      have hc := hc.mono hs
      refine (finish hrec (hc.holdValue (hf.within.mono hs)) hm ho).bind fun _ hs' made hmade => ?_
      refine (record _ .trace _).bind fun _ hs'' _ _ => ?_
      exact ih (hc.mono (hs'.trans hs'')) (hmade.mono hs'')

omit hrec in
theorem expand (hrec : I.Alike (e :: base) recur recur') (he : ⟨.frame, e⟩ ∈ S) {form : Value} (hf : I.Fits S form) :
    I.Keeps I.Fits S (expand recur ctx e form) (expand recur' ctx e form) :=
  expandWithin hrec (hc.inside he hf.within) e _ hf

/-! ## Special forms -/

/-- Elements are evaluated one after the other; those evaluated are held, so they stay there for the next. -/
theorem each (he : ⟨.frame, e⟩ ∈ S) {xs : List Value} (h : I.FitsAll S xs) :
    I.Keeps I.FitsAll S (Step.each recur ctx e xs) (Step.each recur' ctx e xs) := by
  induction xs generalizing S ctx with
  | nil => exact pure fun T _ => List.forall_mem_nil (I.Fits T)
  | cons x xs ih =>
    refine (hrec hc he (Hereditary.head h)).bind fun _ hs v hv => ?_
    refine (ih ((hc.mono hs).holdValue hv.within) (hs he) (FitsAll.mono (Hereditary.tail h) hs)).bind
      fun _ hs' vs hvs => ?_
    exact pure fun _ hs'' => List.forall_mem_cons.2 ⟨hv.mono (hs'.trans hs''), hvs.mono hs''⟩

/-- The values of a map literal, likewise. -/
theorem eachEntry (he : ⟨.frame, e⟩ ∈ S) {es : Entries} (h : I.FitsEntries S es) :
    I.Keeps I.FitsEntries S (Step.eachEntry recur ctx e es) (Step.eachEntry recur' ctx e es) := by
  induction es generalizing S ctx with
  | nil => exact pure fun _ _ _ hp => nomatch hp
  | cons entry es ih =>
    obtain ⟨k, x⟩ := entry
    obtain ⟨first, others⟩ := List.forall_mem_cons.1 h
    refine (hrec hc he first).bind fun _ hs v hv => ?_
    refine (ih ((hc.mono hs).holdValue hv.within) (hs he) (FitsEntries.mono others hs)).bind fun _ hs' vs hvs => ?_
    exact pure fun _ hs'' => List.forall_mem_cons.2 ⟨hv.mono (hs'.trans hs''), hvs.mono hs''⟩

theorem define (he : ⟨.frame, e⟩ ∈ S) (form : SpecialForm) (target : Value) {expr : Value} (hx : I.Fits S expr) :
    I.Keeps I.Fits S (Step.define recur ctx e form target expr) (Step.define recur' ctx e form target expr) :=
  (hrec hc he hx).bind fun _ _ _ hv => (valueFor form hv).bind fun _ _ _ hv => bindFor e form target hv

omit hc in
/-- The bindings of a `let*`, each in the frame the one before has left. -/
theorem bindEach {S : Set Ref} {ctx : Context} (hc : ctx.Within base S) (he : ⟨.frame, e⟩ ∈ S) {items : List Value}
    (h : I.FitsAll S items) :
    I.Keeps Anything S (Step.bindEach recur ctx e items) (Step.bindEach recur' ctx e items) := by
  match items with
  | [] => exact pure fun _ _ => trivial
  | [_] => exact pure fun _ _ => trivial
  | target :: expr :: rest =>
    obtain ⟨-, h⟩ := List.forall_mem_cons.1 h
    obtain ⟨hx, others⟩ := List.forall_mem_cons.1 h
    refine (hrec hc he hx).bind fun _ hs _ hv => (bindSymbol e target hv).bind fun _ hs' _ _ => ?_
    have hs := hs.trans hs'
    exact bindEach (hc.mono hs) (hs he) (FitsAll.mono others hs)

/-- `let*` goes on in a frame of its own, which holds nothing at first. -/
theorem bindLocally (he : ⟨.frame, e⟩ ∈ S) {bindings body : Value} (hb : I.Fits S bindings) (h : I.Fits S body) :
    I.Keeps I.FitsTurn S (Step.bindLocally recur ctx e bindings body)
      (Step.bindLocally recur' ctx e bindings body) := by
  refine (ofExcept (P := I.FitsAll) FitsAll.mono ((I.fits S).bindingItems hb)).bind fun _ hs items hi => ?_
  refine (addFrame (by simp) (hs he)).bind fun _ hs' child hchild => ?_
  have hs := hs.trans hs'
  refine (bindEach hrec ((hc.mono hs).holdFrame hchild) hchild (hi.mono hs')).bind fun _ hs' _ _ => ?_
  exact turn ⟨hs' hchild, h.mono (hs.trans hs')⟩

omit hc in
/-- `do` goes on with its last operand. -/
theorem sequence {S : Set Ref} (hc : ctx.Within base S) (he : ⟨.frame, e⟩ ∈ S) {operands : List Value}
    (h : I.FitsAll S operands) :
    I.Keeps I.FitsTurn S (Step.sequence recur ctx e operands) (Step.sequence recur' ctx e operands) := by
  match operands with
  | [] => exact turn ⟨he, (I.fits S).nil⟩
  | [last] => exact turn ⟨he, Hereditary.head h⟩
  | x :: y :: rest =>
    obtain ⟨hx, others⟩ := List.forall_mem_cons.1 h
    exact (hrec hc he hx).bind fun _ hs _ _ => sequence (hc.mono hs) (hs he) (FitsAll.mono others hs)

/-- `if` goes on with one of its two branches. -/
theorem choose (he : ⟨.frame, e⟩ ∈ S) {condition consequent alternative : Value} (h : I.Fits S condition)
    (h₁ : I.Fits S consequent) (h₂ : I.Fits S alternative) :
    I.Keeps I.FitsTurn S (Step.choose recur ctx e condition consequent alternative)
      (Step.choose recur' ctx e condition consequent alternative) := by
  refine (hrec hc he h).bind fun _ hs v _ => turn ⟨hs he, ?_⟩
  split
  · exact h₁.mono hs
  · exact h₂.mono hs

/-- The special forms, one case each. -/
theorem special (he : ⟨.frame, e⟩ ∈ S) (s : SpecialForm) {operands : List Value} (h : I.FitsAll S operands) :
    I.Keeps I.FitsTurn S (Step.special recur ctx e s operands) (Step.special recur' ctx e s operands) := by
  cases s, operands using SpecialForm.cases_operands with
  | define => exact (define hrec hc he .define _ (h _ (by simp))).bind fun _ _ _ hv => turn hv
  | defineMacro => exact (define hrec hc he .defineMacro _ (h _ (by simp))).bind fun _ _ _ hv => turn hv
  | bindLocally => exact bindLocally hrec hc he (h _ (by simp)) (h _ (by simp))
  | sequence => exact sequence hrec hc he h
  | choose => exact choose hrec hc he (h _ (by simp)) (h _ (by simp)) (I.fits S).nil
  | chooseElse => exact choose hrec hc he (h _ (by simp)) (h _ (by simp)) (h _ (by simp))
  | function => exact (function he _ (h _ (by simp))).bind fun _ _ _ hv => turn hv
  | quote => exact turn (h _ (by simp))
  | showTemplate => exact (result ((I.fits S).template (h _ (by simp)))).bind fun _ _ _ hv => turn hv
  | template => exact (result ((I.fits S).template (h _ (by simp)))).bind fun _ hs _ hv => turn ⟨hs he, hv⟩
  | showExpansion =>
    exact (expand hc (hrec.mono (List.subset_cons_self _ _)) he (h _ (by simp))).bind fun _ _ _ hv => turn hv
  | badCount s operands bad =>
    rw [Step.special_of_badCount recur ctx e bad, Step.special_of_badCount recur' ctx e bad]
    exact fail _

/-- A call: elements first, then the application. -/
theorem call (he : ⟨.frame, e⟩ ∈ S) {items : List Value} (h : I.FitsAll S items) :
    I.Keeps I.FitsTurn S (Step.call recur ctx e items) (Step.call recur' ctx e items) := by
  refine (each hrec hc he h).bind fun T hs vs hvs => ?_
  cases vs with
  | nil => exact turn ((I.fits T).list.2 hvs)
  | cons f args => exact apply hrec (hc.mono hs) (Hereditary.head hvs) (Hereditary.tail hvs)

end

end

/-! ## Steps -/

section

variable (hrec : I.Alike (e :: base) recur recur') (hc : ctx.Within base S) (he : ⟨.frame, e⟩ ∈ S) {form : Value}
  (h : I.Fits S form)
include hrec hc he h

/-- A form that is no list. -/
theorem plain : I.Keeps I.Fits S (Step.plain recur ctx e form) (Step.plain recur' ctx e form) := by
  refine (record ctx .trace _).bind fun T hs _ _ => ?_
  have hc := hc.mono hs
  have he := hs he
  have h := h.mono hs
  split
  · next name _ =>
    refine (lookup e name).bind fun _ _ v hv => ?_
    cases v with
    | none => exact fail _
    | some v => exact value (hv v rfl)
  · exact (each hrec (hc.inside he h.within) he ((I.fits T).vector.1 h)).bind fun T' _ _ hvs =>
      value ((I.fits T').vector.2 hvs)
  · exact (eachEntry hrec (hc.inside he h.within) he ((I.fits T).map.1 h)).bind fun T' _ _ hvs =>
      value ((I.fits T').map.2 hvs)
  · exact value h

/-- A form after its expansion, with the three ways there are to go on. -/
theorem expanded : I.Keeps I.FitsTurn S (Step.expanded recur ctx e form) (Step.expanded recur' ctx e form) := by
  unfold Step.expanded
  split
  · exact turn h
  · refine (record ctx .trace _).bind fun T hs _ _ => ?_
    have h := h.mono hs
    have hc := (hc.mono hs).inside (hs he) h.within
    have items := (I.fits T).list.1 h
    split
    · exact special hrec hc (hs he) _ (Hereditary.tail items)
    · exact call hrec hc (hs he) items
  · exact (plain hrec hc he h).bind fun _ _ _ hv => turn hv

/-- **A step** keeps what the forms inside keep. They are evaluated while the frame is held. -/
theorem step : I.Keeps I.FitsTurn S (step recur ctx e form) (MiniLisp.step recur' ctx e form) :=
  (expand hc hrec he h).bind fun _ hs _ hf => expanded hrec (hc.mono hs) (hs he) hf

end

end Keeps

/-! ## Evaluation -/

variable {base : List FrameId} {recur recur' : Evaluator}

/-- What the forms inside keep to, a step and all that comes after it keep to. -/
theorem Alike.advance (h : I.Alike base recur recur') : I.Alike base (advance recur) (MiniLisp.advance recur') :=
  fun hc he hf => (Keeps.step (h.mono (List.subset_cons_self _ _)) hc he hf).bind fun _ hs _ ht =>
    Keeps.next h ht fun _ _ _ _ => hc.mono hs

/-- What evaluation comes to fits, on a machine that keeps to the invariant again. -/
theorem evaluate_ends {S : Set Ref} {ctx : Context} {e : FrameId} {form : Value} {m m' : Machine}
    {r : Except EvalError Value} (hm : I.Holds m) (hs : S ⊆ I.has m) (hc : ctx.Within base S) (he : ⟨.frame, e⟩ ∈ S)
    (hf : I.Fits S form) (hr : evaluate ctx e form m = some (r, m')) : I.Ends I.Fits m r m' := by
  -- the induction is on how deep evaluations lie in one another: those inside have ended as they should
  refine evaluate_induction (P := fun ctx e form m r => ∀ {S : Set Ref}, I.Holds m → S ⊆ I.has m →
    ctx.Within base S → ⟨.frame, e⟩ ∈ S → I.Fits S form → I.Ends I.Fits m r.1 r.2)
    (fun recur ih ctx e form m r hr S hm hs hc he hf => ?_) hr hm hs hc he hf
  have inside : I.Alike base recur recur := fun hc he hf m hm hs =>
    ⟨rfl, fun r m' hr => ih _ _ _ _ _ hr hm hs hc he hf⟩
  exact (inside.advance hc he hf m hm hs).2 r.1 r.2 hr

/-- **Evaluation** keeps every invariant. -/
theorem alike_evaluate (I : Invariant) (base : List FrameId) : I.Alike base evaluate evaluate :=
  fun hc he hf _ hm hs => ⟨rfl, fun _ _ hr => evaluate_ends hm hs hc he hf hr⟩

end Invariant

end MiniLisp
