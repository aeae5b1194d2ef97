import Mathlib
import MiniLisp.Eval.Evaluate
import MiniLisp.Proofs.FollowBuiltin

/-!
# Evaluation on machines that agree

Evaluation is followed by evaluation: on machines that agree in a world, related forms come to related outcomes. A step
is taken apart as it is put together, and every part is followed by its like if the evaluation of the forms inside is.
What is held matters to rooted builtins only, which ask for their roots: whether a root is there on both sides is taken
from the contexts (`Guarded`). If all roots in common are held, they are there (`alike_evaluate`).

* `Guarded`: contexts in which roots are there, or gone, on both sides alike.
* `Guarded.alike`: evaluation is followed by evaluation.
-/

namespace MiniLisp

open Refers (rename refs)
open World (Related)

/-- Contexts that go with a start: under them, whatever machines come of it, a root that is there on the first side is
there on the second one, and one that is gone where that counts is gone there as well. -/
structure Guarded (o : Origin) (C : World → Context → Context → Prop) : Prop where
  akin {W : World} {ctx ctx' : Context} (h : C W ctx ctx') : ctx.Akin ctx'
  mono {W W' : World} {ctx ctx' : Context} (h : C W ctx ctx') (le : W.LE W') : C W' ctx ctx'
  holdFrame {W : World} {ctx ctx' : Context} {e e' : FrameId} (h : C W ctx ctx') (he : W.Names .frame e e') :
    C W (ctx.holdFrame e) (ctx'.holdFrame e')
  holdItems {W : World} {ctx ctx' : Context} {vs vs' : List Value} (h : C W ctx ctx') (hv : W.Rel vs vs') :
    C W (ctx.holdItems vs) (ctx'.holdItems vs')
  alive {W : World} {ctx ctx' : Context} {m n : Machine} {r r' : FrameId} (h : C W ctx ctx') (hl : o.Leads W m n)
    (hr : W.Names .root r r') (ha : m.isAlive ctx.held r = true) :
    W.Names .frame r r' ∧ n.isAlive ctx'.held r' = true
  gone {W : World} {ctx ctx' : Context} {m n : Machine} {r r' : FrameId} (h : C W ctx ctx') (hl : o.Leads W m n)
    (hr : W.Names .root r r') (ha : m.isAlive ctx.held r = false) (hg : o.gone m) : n.isAlive ctx'.held r' = false

/-- The second way to evaluate forms follows the first one. -/
def Alike (o : Origin) (C : World → Context → Context → Prop) (recur recur' : Evaluator) : Prop :=
  ∀ ⦃W : World⦄ ⦃ctx ctx' : Context⦄ ⦃e e' : FrameId⦄ ⦃form form' : Value⦄, C W ctx ctx' →
    W.Names .frame e e' → W.Rel form form' → Follows o Related W (recur ctx e form) (recur' ctx' e' form')

namespace Guarded

variable {o : Origin} {C : World → Context → Context → Prop} {W : World} {ctx ctx' : Context} {v v' : Value}

/-- A guarded condition on contexts survives when related values are held besides. -/
theorem holdValue (g : Guarded o C) (h : C W ctx ctx') (hv : W.Rel v v') : C W (ctx.holdValue v) (ctx'.holdValue v') :=
  g.holdItems h (hv.cons .nil)

/-- It survives when an evaluation holds its frame and its form. -/
theorem hold (g : Guarded o C) (h : C W ctx ctx') {e e' : FrameId} (he : W.Names .frame e e') (hv : W.Rel v v') :
    C W (ctx.hold e v) (ctx'.hold e' v') :=
  g.holdValue (g.holdFrame h he) hv

end Guarded

namespace Follows

variable {o : Origin} {C : World → Context → Context → Prop} {W : World} {ctx ctx' : Context}
  {recur recur' : Evaluator} {e e' : FrameId}

/-! ## Small operations -/

/-- Calls that bind related arguments below related frames enter related frames. -/
theorem enter (params : Params) {captured captured' : FrameId} {args args' : List Value}
    (hf : W.Names .frame captured captured') (h : W.Rel args args') :
    Follows o (fun W => W.Names .frame) W (Call.enter params captured args) (Call.enter params captured' args') :=
  counted h fun _ => addFrame ((h.map params.equivariant_bindings).frame hf)

/-- Related values are bound to a name in related frames, or both targets are no names. -/
theorem bindSymbol (he : W.Names .frame e e') {target target' v v' : Value} (ht : W.Rel target target')
    (hv : W.Rel v v') : Follows o Related W (Step.bindSymbol e target v) (Step.bindSymbol e' target' v') := by
  cases target with
  | symbol name =>
    obtain rfl := ht.eq
    exact bindName he name hv
  | _ =>
    obtain rfl := ht.eq
    exact fail (.of_nil rfl rfl)

/-- Macros that are made of related closures are related: each machine gives its own new identity. -/
theorem asMacro {v v' : Value} (hv : W.Rel v v') : Follows o Related W (Step.asMacro v) (Step.asMacro v') := by
  cases v with
  | closure id params body captured isMacro =>
    obtain ⟨id', body', captured', rfl, -, hb, hc⟩ := hv.of_closure
    exact newClosure.bind fun le _ _ hid => pure (World.Rel.closure hid (hb.mono le) (hc.mono le))
  | _ =>
    obtain rfl := hv.eq
    exact fail (.of_nil rfl rfl)

theorem valueFor (form : SpecialForm) {v v' : Value} (hv : W.Rel v v') :
    Follows o Related W (Step.valueFor form v) (Step.valueFor form v') := by
  cases form with
  | defineMacro => exact asMacro hv
  | _ => exact pure hv

theorem bindFor (hc : ctx.Akin ctx') (he : W.Names .frame e e') (form : SpecialForm)
    {target target' v v' : Value} (ht : W.Rel target target') (hv : W.Rel v v') :
    Follows o Related W (Step.bindFor ctx e form target v) (Step.bindFor ctx' e' form target' v') := by
  refine (bindSymbol he ht hv).bind fun le _ _ _ => ?_
  have same := World.sameMessage_bindText form (ht.mono le) (hv.mono le)
  refine (record hc .debug same).bind fun le' _ _ _ => ?_
  exact pure (hv.mono (le.trans le'))

/-- Closures that are made in related frames are related. -/
theorem function (he : W.Names .frame e e') {parameters parameters' body body' : Value}
    (hp : W.Rel parameters parameters') (hb : W.Rel body body') :
    Follows o Related W (Step.function e parameters body) (Step.function e' parameters' body') := by
  have same : Step.signature parameters' = Step.signature parameters := by rw [hp.eq, Step.signature_rename]
  unfold Step.function
  rw [same]
  split
  · exact fail (.of_nil rfl rfl)
  · exact newClosure.bind fun le _ _ hid => pure (World.Rel.closure hid (hb.mono le) (he.mono le))

/-! ## Calls -/

section

variable (g : Guarded o C) (hrec : Alike o C recur recur') (hc : C W ctx ctx')
include g hrec hc

/-- Rooted builtins at work in related roots follow each other if evaluation of related forms does. -/
theorem inRoot {root root' : FrameId} (hr : W.Names .frame root root') (b : Rooted) {args args' : List Value}
    (ha : b.arity.accepts args.length = true) (h : W.Rel args args') :
    Follows o Related W (Call.inRoot recur ctx root b args) (Call.inRoot recur' ctx' root' b args') := by
  cases b with
  | eval =>
    refine one h ha fun form form' hf => ?_
    exact (recordValue (g.akin hc) .info _ hf).bind fun le _ _ _ => hrec (g.mono hc le) (hr.mono le) (hf.mono le)
  | swap =>
    obtain ⟨cell, f, args, rfl⟩ : ∃ cell f rest, args = cell :: f :: rest := by
      match args, Arity.accepts_atLeast.1 ha with
      | cell :: f :: rest, _ => exact ⟨cell, f, rest, rfl⟩
    obtain ⟨cell', rest', rfl, hcell, hs⟩ := h.of_cons
    obtain ⟨f', args', rfl, hf, hs⟩ := hs.of_cons
    have callable : f'.callable = f.callable := by rw [hf.eq, Value.callable_rename]
    refine (cellAtom hcell).bind fun le a a' haa => ?_
    rw [callable]
    split
    · refine (gets fun hm => hm.atomValue haa).bind fun le' v v' hv => ?_
      have le := le.trans le'
      have form := ((hcell.mono le).pair ((hf.mono le).pair (hv.pair (hs.mono le)))).map Call.equivariant_swapForm
      refine (recordValue (g.akin hc) .trace _ form).bind fun le' _ _ _ => ?_
      exact hrec (g.holdValue (g.mono hc (le.trans le')) (form.mono le')) (hr.mono (le.trans le')) (form.mono le')
    · exact fail (.of_nil rfl rfl)

/-- A call of a rooted builtin follows the other one: both roots are there, as the frames of shared roots are held. -/
theorem rooted (b : Rooted) {root root' : FrameId} (hr : W.Names .root root root') {args args' : List Value}
    (h : W.Rel args args') :
    Follows o Related W (Call.rooted recur ctx b root args) (Call.rooted recur' ctx' b root' args') := by
  refine counted h fun ha m n m' r hl hx hg => ?_
  change (if m.isAlive ctx.held root then _ else _ : Run Value) m = _ at hx
  change ∃ W' s n', (if n.isAlive ctx'.held root' then _ else _ : Run Value) n = some (s, n') ∧ _
  cases alive : m.isAlive ctx.held root with
  | true =>
    obtain ⟨hroot, alive'⟩ := g.alive hc hl hr alive
    rw [if_pos alive] at hx
    rw [if_pos alive']
    have said := World.sameMessage_callText (World.sameMessage_const (W := W) b.name) h
    have goes := (record (o := o) (g.akin hc) .trace said).bind fun le _ _ _ =>
      inRoot g hrec (g.holdFrame (g.mono hc le) (hroot.mono le)) (hroot.mono le) b ha (h.mono le)
    exact goes m n m' r hl hx hg
  | false =>
    rw [alive] at hx
    cases hx
    rw [g.gone hc hl hr alive (hg ⟨_, rfl⟩)]
    exact ⟨W, _, n, rfl, hl, .refl W, .error (.of_nil rfl rfl)⟩

/-- Related functions applied to related arguments follow each other: both are done, or both leave a related form. -/
theorem apply {f f' : Value} (hf : W.Rel f f') {args args' : List Value} (h : W.Rel args args') :
    Follows o Related W (Call.apply recur ctx f args) (Call.apply recur' ctx' f' args') := by
  cases f with
  | builtin b =>
    obtain rfl := hf.eq
    exact (builtin (g.akin hc) b h).bind fun _ _ _ hv => pure (World.Rel.done hv)
  | rooted b root =>
    obtain ⟨root', rfl, hr⟩ := hf.of_rooted
    exact (rooted g hrec (g.holdItems hc (hf.cons h)) b hr h).bind fun _ _ _ hv => pure (World.Rel.done hv)
  | closure id params body captured isMacro =>
    obtain ⟨id', body', captured', rfl, -, hb, hcap⟩ := hf.of_closure
    have said := World.sameMessage_callText (World.sameMessage_closureText params isMacro hb) h
    refine (record (g.akin hc) .trace said).bind fun le _ _ _ => ?_
    refine (enter params (hcap.mono le) (h.mono le)).bind fun le' _ _ he => ?_
    exact pure (World.Rel.again he (hb.mono (le.trans le')))
  | _ =>
    obtain rfl := hf.eq
    exact fail (.of_nil rfl rfl)

omit g hc in
/-- What is left to be evaluated is evaluated alike. -/
theorem next {after after' : FrameId → Value → Context}
    (hafter : ∀ {e e' form form'}, W.Names .frame e e' → W.Rel form form' → C W (after e form) (after' e' form'))
    {turn turn' : Turn} (h : W.Rel turn turn') :
    Follows o Related W (Turn.next recur after turn) (Turn.next recur' after' turn') := by
  cases turn with
  | done v =>
    obtain ⟨v', rfl, hv⟩ := h.of_done
    exact pure hv
  | again e form =>
    obtain ⟨e', form', rfl, he, hform⟩ := h.of_again
    exact hrec (hafter he hform) he hform

/-- A call and all that comes after it follow each other. -/
theorem finish {f f' : Value} (hf : W.Rel f f') {args args' : List Value} (h : W.Rel args args') :
    Follows o Related W (Call.finish recur ctx f args) (Call.finish recur' ctx' f' args') :=
  (apply g hrec hc hf h).bind fun le _ _ ht =>
    next hrec (g.hold (g.holdItems (g.mono hc le) ((hf.cons h).mono le))) ht

/-! ## Expansion -/

/-- Related forms are expanded alike, expansion after expansion. -/
theorem expandWithin (he : W.Names .frame e e') (n : Nat) {form form' : Value} (hf : W.Rel form form') :
    Follows o Related W (expandWithin recur ctx e n form) (expandWithin recur' ctx' e' n form') := by
  induction n generalizing W form form' with
  | zero =>
    unfold MiniLisp.expandWithin
    refine (gets fun hm => hm.macroCall? he hf).bind fun le call call' hcall => ?_
    cases call with
    | none =>
      rw [hcall.of_none]
      exact pure (hf.mono le)
    | some call =>
      obtain ⟨call', rfl, -⟩ := hcall.of_some
      exact fail (.of_nil rfl rfl)
  | succ n ih =>
    unfold MiniLisp.expandWithin
    refine (gets fun hm => hm.macroCall? he hf).bind fun le call call' hcall => ?_
    cases call with
    | none =>
      rw [hcall.of_none]
      exact pure (hf.mono le)
    | some call =>
      obtain ⟨call', rfl, hpair⟩ := hcall.of_some
      have holding := g.holdValue (g.mono hc le) (hf.mono le)
      refine (finish g hrec holding hpair.fst hpair.snd).bind fun le' made made' hmade => ?_
      have le := le.trans le'
      refine (recordValue (g.akin hc) .trace _ hmade).bind fun le' _ _ _ => ?_
      exact ih (g.mono hc (le.trans le')) (he.mono (le.trans le')) (hmade.mono le')

/-- Related forms are expanded alike within the same bound. -/
theorem expand (he : W.Names .frame e e') {form form' : Value} (hf : W.Rel form form') :
    Follows o Related W (expand recur ctx e form) (expand recur' ctx' e' form') :=
  expandWithin g hrec (g.hold hc he hf) he _ hf

/-! ## Special forms -/

/-- Related forms in turn come to related values. -/
theorem each (he : W.Names .frame e e') {xs ys : List Value} (h : W.Rel xs ys) :
    Follows o Related W (Step.each recur ctx e xs) (Step.each recur' ctx' e' ys) := by
  induction xs generalizing W ctx ctx' ys with
  | nil =>
    rw [h.of_nil_list]
    exact pure .nil
  | cons x xs ih =>
    obtain ⟨y, ys, rfl, hx, hs⟩ := h.of_cons
    refine (hrec hc he hx).bind fun le v w hv => ?_
    refine (ih (g.holdValue (g.mono hc le) hv) (he.mono le) (hs.mono le)).bind fun le' vs ws hvs => ?_
    exact pure ((hv.mono le').cons hvs)

theorem eachEntry (he : W.Names .frame e e') {es fs : Entries} (h : W.Rel es fs) :
    Follows o Related W (Step.eachEntry recur ctx e es) (Step.eachEntry recur' ctx' e' fs) := by
  induction es generalizing W ctx ctx' fs with
  | nil =>
    rw [h.of_nil_list]
    exact pure .nil
  | cons entry es ih =>
    obtain ⟨⟨k', x'⟩, fs, rfl, hx, hs⟩ := h.of_cons
    obtain ⟨k, x⟩ := entry
    refine (hrec hc he hx.snd).bind fun le v w hv => ?_
    refine (ih (g.holdValue (g.mono hc le) hv) (he.mono le) (hs.mono le)).bind fun le' vs ws hvs => ?_
    exact pure (((hx.fst.mono (le.trans le')).pair (hv.mono le')).cons hvs)

theorem define (he : W.Names .frame e e') (form : SpecialForm) {target target' expr expr' : Value}
    (ht : W.Rel target target') (hx : W.Rel expr expr') :
    Follows o Related W (Step.define recur ctx e form target expr) (Step.define recur' ctx' e' form target' expr') := by
  refine (hrec hc he hx).bind fun le v v' hv => (valueFor form hv).bind fun le' v v' hv => ?_
  have le := le.trans le'
  exact bindFor (g.akin hc) (he.mono le) form (ht.mono le) hv

omit hc in
theorem bindEach {W : World} {ctx ctx' : Context} {e e' : FrameId} (hc : C W ctx ctx')
    (he : W.Names .frame e e') {items items' : List Value} (h : W.Rel items items') :
    Follows o Related W (Step.bindEach recur ctx e items) (Step.bindEach recur' ctx' e' items') := by
  match items with
  | [] =>
    rw [h.of_nil_list]
    exact pure (.of_nil rfl rfl)
  | [x] =>
    obtain ⟨x', rest', rfl, -, hs⟩ := h.of_cons
    rw [hs.of_nil_list]
    exact pure (.of_nil rfl rfl)
  | target :: expr :: rest =>
    obtain ⟨target', rest', rfl, ht, hs⟩ := h.of_cons
    obtain ⟨expr', rest', rfl, hx, hs⟩ := hs.of_cons
    refine (hrec hc he hx).bind fun le v v' hv => ?_
    refine (bindSymbol (he.mono le) (ht.mono le) hv).bind fun le' _ _ _ => ?_
    have le := le.trans le'
    exact bindEach (g.mono hc le) (he.mono le) (hs.mono le)

theorem bindLocally (he : W.Names .frame e e') {bindings bindings' body body' : Value}
    (hb : W.Rel bindings bindings') (hbody : W.Rel body body') :
    Follows o Related W (Step.bindLocally recur ctx e bindings body)
      (Step.bindLocally recur' ctx' e' bindings' body') := by
  refine (ofExcept (hb.map Step.equivariant_bindingItems)).bind fun le items items' hitems => ?_
  refine (addFrame (World.Rel.nil.frame (he.mono le))).bind fun le' child child' hchild => ?_
  have le := le.trans le'
  refine (bindEach g hrec (g.holdFrame (g.mono hc le) hchild) hchild (hitems.mono le')).bind fun le' _ _ _ => ?_
  exact pure (World.Rel.again (hchild.mono le') (hbody.mono (le.trans le')))

omit hc in
theorem sequence {W : World} {ctx ctx' : Context} {e e' : FrameId} (hc : C W ctx ctx')
    (he : W.Names .frame e e') {operands operands' : List Value} (h : W.Rel operands operands') :
    Follows o Related W (Step.sequence recur ctx e operands) (Step.sequence recur' ctx' e' operands') := by
  match operands with
  | [] =>
    rw [h.of_nil_list]
    exact pure (World.Rel.again he (.of_nil rfl rfl))
  | [last] =>
    obtain ⟨last', rest', rfl, hl, hs⟩ := h.of_cons
    rw [hs.of_nil_list]
    exact pure (World.Rel.again he hl)
  | x :: y :: rest =>
    obtain ⟨x', rest', rfl, hx, hs⟩ := h.of_cons
    obtain ⟨y', rest', rfl, -, -⟩ := hs.of_cons
    exact (hrec hc he hx).bind fun le _ _ _ => sequence (g.mono hc le) (he.mono le) (hs.mono le)

omit g in
theorem choose (he : W.Names .frame e e') {condition condition' consequent consequent' alternative alternative' : Value}
    (h : W.Rel condition condition') (hc₁ : W.Rel consequent consequent') (hc₂ : W.Rel alternative alternative') :
    Follows o Related W (Step.choose recur ctx e condition consequent alternative)
      (Step.choose recur' ctx' e' condition' consequent' alternative') := by
  refine (hrec hc he h).bind fun le v v' hv => pure (World.Rel.again (he.mono le) ?_)
  rw [hv.eq, Value.truthy_rename]
  split
  · exact hc₁.mono le
  · exact hc₂.mono le

/-- Special forms follow each other, one case for each of them. -/
theorem special (he : W.Names .frame e e') (s : SpecialForm) {operands operands' : List Value}
    (h : W.Rel operands operands') :
    Follows o Related W (Step.special recur ctx e s operands) (Step.special recur' ctx' e' s operands') := by
  by_cases ha : s.arity.accepts operands.length = true
  · cases s with
    | define =>
      exact two h ha fun _ _ _ _ ht hx => (define g hrec hc he _ ht hx).bind fun _ _ _ hv => pure (World.Rel.done hv)
    | defineMacro =>
      exact two h ha fun _ _ _ _ ht hx => (define g hrec hc he _ ht hx).bind fun _ _ _ hv => pure (World.Rel.done hv)
    | bindLocally => exact two h ha fun _ _ _ _ hb hbody => bindLocally g hrec hc he hb hbody
    | sequence => exact sequence g hrec hc he h
    | choose =>
      match operands, ha with
      | [condition, consequent], _ =>
        obtain ⟨condition', rest', rfl, h₀, hs⟩ := h.of_cons
        obtain ⟨consequent', rest', rfl, h₁, hs⟩ := hs.of_cons
        obtain rfl := hs.of_nil_list
        exact choose hrec hc he h₀ h₁ (.of_nil rfl rfl)
      | [condition, consequent, alternative], _ =>
        obtain ⟨condition', rest', rfl, h₀, hs⟩ := h.of_cons
        obtain ⟨consequent', rest', rfl, h₁, hs⟩ := hs.of_cons
        obtain ⟨alternative', rest', rfl, h₂, hs⟩ := hs.of_cons
        obtain rfl := hs.of_nil_list
        exact choose hrec hc he h₀ h₁ h₂
    | function =>
      exact two h ha fun _ _ _ _ hp hb => (function he hp hb).bind fun _ _ _ hv => pure (World.Rel.done hv)
    | quote => exact one h ha fun _ _ hv => pure (World.Rel.done hv)
    | showTemplate =>
      exact one h ha fun _ _ hv => (ofExcept (hv.map Step.equivariant_template)).bind fun _ _ _ hv =>
        pure (World.Rel.done hv)
    | template =>
      exact one h ha fun _ _ hv => (ofExcept (hv.map Step.equivariant_template)).bind fun le _ _ hv =>
        pure (World.Rel.again (he.mono le) hv)
    | showExpansion =>
      exact one h ha fun _ _ hf => (expand g hrec hc he hf).bind fun _ _ _ hv => pure (World.Rel.done hv)
  · have ha' : s.arity.accepts operands'.length = false := by
      rw [h.length_eq]
      exact Bool.eq_false_iff.2 ha
    rw [Step.special_of_badCount _ _ _ (Bool.eq_false_iff.2 ha), Step.special_of_badCount _ _ _ ha', h.length_eq]
    exact fail (.of_nil rfl rfl)

/-! ## Steps -/

theorem plain (he : W.Names .frame e e') {form form' : Value} (h : W.Rel form form') :
    Follows o Related W (Step.plain recur ctx e form) (Step.plain recur' ctx' e' form') := by
  refine (recordValue (g.akin hc) .trace _ h).bind fun le _ _ _ => ?_
  have hc := g.mono hc le
  have he := he.mono le
  have h := h.mono le
  cases form with
  | symbol name =>
    obtain rfl := h.eq
    refine (gets fun hm => hm.lookup he name).bind fun le v v' hv => ?_
    cases v with
    | none =>
      rw [hv.of_none]
      exact fail (.of_nil rfl rfl)
    | some v =>
      obtain ⟨w, rfl, hvw⟩ := hv.of_some
      exact pure hvw
  | vector xs =>
    obtain ⟨ys, rfl, hxs⟩ := h.of_vector
    exact (each g hrec (g.hold hc he h) he hxs).bind fun _ _ _ hvs => pure (World.Rel.vector hvs)
  | map es =>
    obtain ⟨fs, rfl, hes⟩ := h.of_map
    exact (eachEntry g hrec (g.hold hc he h) he hes).bind fun _ _ _ hvs => pure (World.Rel.entries hvs)
  | _ =>
    obtain rfl := h.eq
    exact pure ⟨rfl, h.shared⟩

/-- Calls in related forms follow each other: elements first, then the application. -/
theorem call (he : W.Names .frame e e') {items items' : List Value} (h : W.Rel items items') :
    Follows o Related W (Step.call recur ctx e items) (Step.call recur' ctx' e' items') := by
  refine (each g hrec hc he h).bind fun le vs vs' hvs => ?_
  cases vs with
  | nil =>
    rw [hvs.of_nil_list]
    exact pure (World.Rel.done (.of_nil rfl rfl))
  | cons f args =>
    obtain ⟨f', args', rfl, hf, hargs⟩ := hvs.of_cons
    exact apply g hrec (g.mono hc le) hf hargs

theorem expanded (he : W.Names .frame e e') {form form' : Value} (h : W.Rel form form') :
    Follows o Related W (Step.expanded recur ctx e form) (Step.expanded recur' ctx' e' form') := by
  cases form with
  | list xs =>
    obtain ⟨ys, rfl, hxs⟩ := h.of_list
    cases xs with
    | nil =>
      rw [hxs.of_nil_list]
      exact pure (World.Rel.done (.of_nil rfl rfl))
    | cons head operands =>
      obtain ⟨head', operands', rfl, hh, hs⟩ := hxs.of_cons
      have same : SpecialForm.ofValue? head' = SpecialForm.ofValue? head := by rw [hh.eq, Value.ofValue?_rename]
      cases hsp : SpecialForm.ofValue? head with
      | some s =>
        rw [Step.expanded_special hsp, Step.expanded_special (same.trans hsp)]
        refine (recordValue (g.akin hc) .trace _ h).bind fun le _ _ _ => ?_
        exact special g hrec (g.hold (g.mono hc le) (he.mono le) (h.mono le)) (he.mono le) s (hs.mono le)
      | none =>
        rw [Step.expanded_call hsp, Step.expanded_call (same.trans hsp)]
        refine (recordValue (g.akin hc) .trace _ h).bind fun le _ _ _ => ?_
        exact call g hrec (g.hold (g.mono hc le) (he.mono le) (h.mono le)) (he.mono le) (hxs.mono le)
  | _ =>
    have other : ∀ xs, form' ≠ .list xs := by
      rintro xs rfl
      cases h.eq
    rw [Step.expanded_plain (by simp), Step.expanded_plain other]
    exact (plain g hrec hc he h).bind fun _ _ _ hv => pure (World.Rel.done hv)

/-- **A step** of evaluation follows a step from a related form in a related frame. -/
theorem step (he : W.Names .frame e e') {form form' : Value} (h : W.Rel form form') :
    Follows o Related W (step recur ctx e form) (MiniLisp.step recur' ctx' e' form') :=
  (expand g hrec hc he h).bind fun le _ _ hf => expanded g hrec (g.mono hc le) (he.mono le) hf

end

end Follows

/-- What a step does inside, a step does. -/
theorem Alike.advance {o : Origin} {C : World → Context → Context → Prop} {recur recur' : Evaluator}
    (g : Guarded o C) (h : Alike o C recur recur') : Alike o C (advance recur) (advance recur') :=
  fun _ _ _ _ _ _ _ hc he hf =>
    (Follows.step g h hc he hf).bind fun le _ _ ht => Follows.next h (fun _ _ => g.mono hc le) ht

/-- Evaluation is followed by evaluation. -/
theorem Guarded.alike {o : Origin} {C : World → Context → Context → Prop} (g : Guarded o C) :
    Alike o C evaluate evaluate := by
  intro W ctx ctx' e e' form form' hc he hf m n m' r hl hr hg
  refine evaluate_induction (P := fun ctx e form m r => ∀ {W : World} {ctx' : Context} {e' : FrameId} {form' : Value}
    {n : Machine}, C W ctx ctx' → W.Names .frame e e' → W.Rel form form' → o.Leads W m n →
      (IsDetached r.1 → o.gone r.2) → ∃ W' s n', evaluate ctx' e' form' n = some (s, n') ∧ o.Leads W' r.2 n' ∧
        W.LE W' ∧ W'.Outcome Related r.1 s)
    (fun recur ih ctx e form m r hr W ctx' e' form' n hc he hf hl hg => ?_) hr hc he hf hl hg
  have inside : Alike o C recur evaluate :=
    fun _ _ _ _ _ _ _ hc he hf _ _ _ _ hl hr hg => ih _ _ _ _ _ hr hc he hf hl hg
  rw [evaluate_eq]
  exact inside.advance g hc he hf m n r.2 r.1 hl hr hg

/-! ## Roots that are held -/

/-- If the roots in common are held, they are there. -/
theorem guarded_held (W : World) (m n : Machine) :
    Guarded ⟨W, m, n, fun _ => True⟩ fun W' ctx ctx' => W'.Contexts ctx ctx' ∧ W'.RootsShared where
  akin h := h.1.akin
  mono h le := ⟨h.1.mono le, h.2.mono le⟩
  holdFrame h _ := ⟨h.1.holdFrame _ _, h.2⟩
  holdItems h _ := ⟨h.1.holdItems _ _, h.2⟩
  alive {W' ctx ctx' m' n' r r'} h hl hr _ := by
    obtain ⟨hs, same⟩ := h.2 r hr.mem
    obtain ⟨held, held'⟩ := h.1.held hr.mem
    have hroot : W'.Names .frame r r' := by
      have names := World.names hs
      rwa [← same, ← hr.eq] at names
    exact ⟨hroot, ((hl.agrees.matches h.2).isAlive hr held (hr.eq ▸ held')).2⟩
  gone {W' ctx ctx' m' n' r r'} h hl hr ha _ := by
    obtain ⟨held, held'⟩ := h.1.held hr.mem
    have alive := ((hl.agrees.matches h.2).isAlive hr held (hr.eq ▸ held')).1
    rw [ha] at alive
    cases alive

/-- Where the roots in common are held, evaluation on machines that match is followed by evaluation. -/
theorem alike_evaluate {W : World} {ctx ctx' : Context} {e e' : FrameId} {form form' : Value} {m n m' : Machine}
    {r : Except EvalError Value} (hm : W.Matches m n) (hc : W.Contexts ctx ctx') (he : W.Names .frame e e')
    (hf : W.Rel form form') (hr : evaluate ctx e form m = some (r, m')) :
    ∃ (W' : World) (s : Except EvalError Value) (n' : Machine), evaluate ctx' e' form' n = some (s, n') ∧
      W'.Matches m' n' ∧ W.Advances m n W' m' n' ∧ W'.Outcome Related r s := by
  have start : Origin.Leads ⟨W, m, n, fun _ => True⟩ W m n := ⟨hm.agrees, .refl W m n⟩
  obtain ⟨W', s, n', hy, hl, le, out⟩ :=
    (guarded_held W m n).alike ⟨hc, hm.rootsShared⟩ he hf m n m' r start hr fun _ => trivial
  exact ⟨W', s, n', hy, hl.agrees.matches (hm.rootsShared.mono le), hl.since.toAdvances, out⟩

end MiniLisp
